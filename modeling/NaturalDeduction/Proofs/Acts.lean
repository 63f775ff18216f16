import NaturalDeduction.ProofState.Goal
import NaturalDeduction.Proofs.Moves

/-!
# Computations that act by moves

A computation on a proof state, or on something that has a proof state in it, *acts by moves* under
a policy if the state it reaches from a tidy one is reached by moves, whether it ends in a result or
in an error (`Policy.Acts`). A postcondition says what a result is and where it was reached. If
abbreviations belong to the root, this says that the computation acts by steps (`acts_root_iff`).

The rules below follow the structure of a computation, so a proof that a function acts by moves has
the shape of the function. What is known before a computation and is about earlier states is carried
on by `Moves.nextVariable_le`, and by tidiness, which `Policy.Acts.bind` keeps to itself.

`Proving` is the class of types that have a proof state in them: proof states themselves, goals with
their state, sessions with the memory of a user, and runs of scripts. What has to be kept besides
the state, such as that a goal is below the counter, is its `Keeps`.

Drawing variables changes the counter only, so for `Fresh` there is a judgement of its own
(`Fresh.Draws`) with the same rules.
-/

namespace NaturalDeduction

/-- States of computations that have a proof state in them. -/
class Proving (σ : Type) where
  /-- The proof state. -/
  state : σ → ProofState
  /-- What is kept about the rest of the state. -/
  Keeps : σ → Prop

instance : Proving ProofState where
  state s := s
  Keeps _ := True

/-- A tidy state, and what else is kept. -/
structure Tidy {σ : Type} [Proving σ] (x : σ) : Prop where
  state : (Proving.state x).Tidy
  keeps : Proving.Keeps x

/-- Whether a computation moves the proof state by steps, keeps what is to be kept, and has only
results that satisfy `post`. -/
def Acts {σ ε α : Type} [Proving σ] (defining : Bool) (act : ExceptT ε (StateM σ) α) (x : σ)
    (post : α → σ → Prop) : Prop :=
  Tidy x →
    Steps defining (Proving.state x) (Proving.state (act.run.run x).2) ∧
      Proving.Keeps (act.run.run x).2 ∧
        ∀ a, (act.run.run x).1 = .ok a → post a (act.run.run x).2

/-- A state that is tidy for a policy, and what else is kept. -/
structure TidyFor (P : Policy) {σ : Type} [Proving σ] (x : σ) : Prop where
  state : (Proving.state x).TidyFor P
  keeps : Proving.Keeps x

/-- Whether a computation moves the proof state by moves under a policy, keeps what is to be kept,
and has only results that satisfy `post`. -/
def Policy.Acts (P : Policy) {σ ε α : Type} [Proving σ] (act : ExceptT ε (StateM σ) α) (x : σ)
    (post : α → σ → Prop) : Prop :=
  TidyFor P x →
    Moves P (Proving.state x) (Proving.state (act.run.run x).2) ∧
      Proving.Keeps (act.run.run x).2 ∧
        ∀ a, (act.run.run x).1 = .ok a → post a (act.run.run x).2

/-- Under the policies about the root, moves are steps. -/
theorem acts_root_iff {σ ε α : Type} [Proving σ] {defining : Bool} {act : ExceptT ε (StateM σ) α}
    {x : σ} {post : α → σ → Prop} :
    (Policy.root defining).Acts act x post ↔ Acts defining act x post := by
  have htidy : TidyFor (.root defining) x ↔ Tidy x :=
    ⟨fun h ↦ ⟨ProofState.tidyFor_root_iff.1 h.state, h.keeps⟩,
      fun h ↦ ⟨ProofState.tidyFor_root_iff.2 h.state, h.keeps⟩⟩
  rw [Policy.Acts, Acts, moves_root_iff]
  exact imp_congr htidy Iff.rfl

/-- A computation that fails is not followed by the next one, but leaves the state it reached. -/
theorem run_bind_eq {σ ε α β : Type} (act : ExceptT ε (StateM σ) α)
    (next : α → ExceptT ε (StateM σ) β) (x : σ) :
    (act >>= next).run.run x =
      match act.run.run x with
      | (.ok a, y) => (next a).run.run y
      | (.error e, y) => (.error e, y) := by
  rw [ExceptT.run_bind, StateT.run_bind]
  rcases act.run.run x with ⟨⟨e⟩ | ⟨a⟩, y⟩ <;> rfl

/-- Behind a result the next computation runs from the state that was left. -/
theorem run_bind_ok {σ ε α β : Type} {act : ExceptT ε (StateM σ) α}
    {next : α → ExceptT ε (StateM σ) β} {a : α} {x y : σ} (h : act.run.run x = (.ok a, y)) :
    (act >>= next).run.run x = (next a).run.run y := by
  rw [run_bind_eq, h]

/-- Behind an error nothing runs. -/
theorem run_bind_error {σ ε α β : Type} {act : ExceptT ε (StateM σ) α}
    {next : α → ExceptT ε (StateM σ) β} {e : ε} {x y : σ} (h : act.run.run x = (.error e, y)) :
    (act >>= next).run.run x = (.error e, y) := by
  rw [run_bind_eq, h]

theorem run_get_eq {σ ε : Type} (x : σ) :
    (get : ExceptT ε (StateM σ) σ).run.run x = (.ok x, x) := rfl

/-- A handler runs from the state that the error left, as states are not restored. -/
theorem run_tryCatch_eq {σ ε α : Type} (act : ExceptT ε (StateM σ) α)
    (handle : ε → ExceptT ε (StateM σ) α) (x : σ) :
    (MonadExcept.tryCatch act handle).run.run x =
      match act.run.run x with
      | (.ok a, y) => (.ok a, y)
      | (.error e, y) => (handle e).run.run y := by
  show (act.run >>= fun result ↦ match result with
    | .ok a => Pure.pure (.ok a)
    | .error e => (handle e).run : StateM σ (Except ε α)).run x = _
  rw [StateT.run_bind]
  rcases act.run.run x with ⟨⟨e⟩ | ⟨a⟩, y⟩ <;> rfl

namespace Policy.Acts

variable {σ ε α β : Type} [Proving σ] {P : Policy} {x : σ}

/-- A result without computation leaves the state where it is. -/
theorem pure {post : α → σ → Prop} {a : α} (h : post a x) :
    P.Acts (Pure.pure a : ExceptT ε (StateM σ) α) x post := by
  refine fun ht ↦ ⟨.refl, ht.keeps, fun b hb ↦ ?_⟩
  cases hb
  exact h

/-- An error without computation leaves the state where it is. -/
theorem throw {post : α → σ → Prop} (e : ε) :
    P.Acts (MonadExcept.throw e : ExceptT ε (StateM σ) α) x post :=
  fun ht ↦ ⟨.refl, ht.keeps, fun b hb ↦ by cases hb⟩

/-- A postcondition may be weakened. -/
theorem mono {act : ExceptT ε (StateM σ) α} {post post' : α → σ → Prop}
    (h : P.Acts act x post) (hpost : ∀ a y, post a y → post' a y) :
    P.Acts act x post' :=
  fun ht ↦ ⟨(h ht).1, (h ht).2.1, fun a ha ↦ hpost a _ ((h ht).2.2 a ha)⟩

/-- A computation may also be run. -/
theorem of_run {act : ExceptT ε (StateM σ) α} {post : α → σ → Prop} {result : Except ε α} {y : σ}
    (h : act.run.run x = (result, y)) (hmoves : Moves P (Proving.state x) (Proving.state y))
    (hkeeps : Proving.Keeps y) (hpost : ∀ a, result = .ok a → post a y) :
    P.Acts act x post := by
  intro _
  rw [h]
  exact ⟨hmoves, hkeeps, hpost⟩

/-- That the state is tidy may be used. -/
theorem of_tidy {act : ExceptT ε (StateM σ) α} {post : α → σ → Prop}
    (h : TidyFor P x → P.Acts act x post) : P.Acts act x post :=
  fun ht ↦ h ht ht

/-- Computations that act by moves are put together. The second one may use that the counter did not
go back and whatever the postcondition of the first says. -/
theorem bind {act : ExceptT ε (StateM σ) α} {next : α → ExceptT ε (StateM σ) β}
    {post : α → σ → Prop} {post' : β → σ → Prop} (h : P.Acts act x post)
    (hnext : ∀ a y, Moves P (Proving.state x) (Proving.state y) → post a y →
      P.Acts (next a) y post') :
    P.Acts (act >>= next) x post' := by
  intro ht
  obtain ⟨hmoves, hkeeps, hpost⟩ := h ht
  rw [run_bind_eq]
  revert hmoves hkeeps hpost
  rcases act.run.run x with ⟨⟨e⟩ | ⟨a⟩, y⟩ <;> intro hmoves hkeeps hpost
  · exact ⟨hmoves, hkeeps, fun b hb ↦ by cases hb⟩
  · obtain ⟨hmoves', hpost'⟩ := hnext a y hmoves (hpost a rfl) ⟨hmoves.tidyFor ht.state, hkeeps⟩
    exact ⟨hmoves.trans hmoves', hpost'⟩

/-- Nothing is asked of what stands behind an error. -/
theorem throw_bind {next : α → ExceptT ε (StateM σ) β} {post : β → σ → Prop} (e : ε) :
    P.Acts (MonadExcept.throw e >>= next) x post :=
  fun ht ↦ ⟨.refl, ht.keeps, fun b hb ↦ by cases hb⟩

theorem get_bind {next : σ → ExceptT ε (StateM σ) β} {post : β → σ → Prop}
    (h : P.Acts (next x) x post) : P.Acts (MonadState.get >>= next) x post := h

/-- A change of the state that is made of steps. -/
theorem of_modifyGet {f : σ → α × σ} {post : α → σ → Prop}
    (h : Moves P (Proving.state x) (Proving.state (f x).2)) (hkeeps : Proving.Keeps (f x).2)
    (hpost : post (f x).1 (f x).2) :
    P.Acts (modifyGet f : ExceptT ε (StateM σ) α) x post := by
  refine fun _ ↦ ⟨h, hkeeps, fun a ha ↦ ?_⟩
  cases ha
  exact hpost

/-- A change that moves can bring about acts by moves. -/
theorem of_modify {f : σ → σ} {post : PUnit → σ → Prop}
    (h : Moves P (Proving.state x) (Proving.state (f x))) (hkeeps : Proving.Keeps (f x))
    (hpost : post ⟨⟩ (f x)) : P.Acts (modify f : ExceptT ε (StateM σ) PUnit) x post :=
  of_modifyGet h hkeeps hpost

/-- What is done with an error may take more steps. -/
theorem tryCatch {act : ExceptT ε (StateM σ) α} {handle : ε → ExceptT ε (StateM σ) α}
    {post : α → σ → Prop} (h : P.Acts act x post)
    (hhandle : ∀ e y, Moves P (Proving.state x) (Proving.state y) →
      P.Acts (handle e) y post) :
    P.Acts (MonadExcept.tryCatch act handle) x post := by
  intro ht
  obtain ⟨hmoves, hkeeps, hpost⟩ := h ht
  rw [run_tryCatch_eq]
  revert hmoves hkeeps hpost
  rcases act.run.run x with ⟨⟨e⟩ | ⟨a⟩, y⟩ <;> intro hmoves hkeeps hpost
  · obtain ⟨hmoves', hpost'⟩ := hhandle e y hmoves ⟨hmoves.tidyFor ht.state, hkeeps⟩
    exact ⟨hmoves.trans hmoves', hpost'⟩
  · exact ⟨hmoves, hkeeps, hpost⟩

/-- What holds of a result has to stay true as more steps are taken. -/
theorem mapM {f : α → ExceptT ε (StateM σ) β} {as : List α} {post : β → σ → Prop}
    (hpost : ∀ b y z, Moves P (Proving.state y) (Proving.state z) → post b y → post b z)
    (h : ∀ a ∈ as, ∀ y, P.Acts (f a) y post) :
    P.Acts (as.mapM f) x fun bs y ↦ ∀ b ∈ bs, post b y := by
  induction as generalizing x with
  | nil => exact .pure fun b hb ↦ absurd hb List.not_mem_nil
  | cons a rest ih =>
    obtain ⟨ha, hrest⟩ := List.forall_mem_cons.1 h
    rw [List.mapM_cons]
    refine (ha x).bind fun b y _ hb ↦ (ih hrest).bind fun bs z hmoves hbs ↦ .pure ?_
    exact List.forall_mem_cons.2 ⟨hpost b y z hmoves hb, hbs⟩

/-- A list of computations acts by moves if each of them does from any state. -/
theorem mapM_trivial {f : α → ExceptT ε (StateM σ) β} {as : List α}
    (h : ∀ a ∈ as, ∀ y, P.Acts (f a) y fun _ _ ↦ True) :
    P.Acts (as.mapM f) x fun _ _ ↦ True :=
  (mapM (fun _ _ _ _ h ↦ h) h).mono fun _ _ _ ↦ trivial

/-- What holds before each round has to hold after it. -/
theorem forM {f : α → ExceptT ε (StateM σ) PUnit} {as : List α} {inv : σ → Prop} (hx : inv x)
    (h : ∀ a ∈ as, ∀ y, Moves P (Proving.state x) (Proving.state y) → inv y →
      P.Acts (f a) y fun _ z ↦ inv z) :
    P.Acts (as.forM f) x fun _ z ↦ inv z := by
  induction as generalizing x with
  | nil => exact .pure hx
  | cons a rest ih =>
    obtain ⟨ha, hrest⟩ := List.forall_mem_cons.1 h
    refine (ha x .refl hx).bind fun _ y hmoves hy ↦ ih hy fun b hb z hmoves' hz ↦ ?_
    exact hrest b hb z (hmoves.trans hmoves') hz

end Policy.Acts

/-- Renaming errors makes no results. -/
theorem ok_of_mapError {ε ε' α : Type} {result : Except ε α} {f : ε → ε'} {a : α}
    (h : result.mapError f = .ok a) : result = .ok a := by
  cases result with
  | error e => cases h
  | ok b => exact congrArg Except.ok (Except.ok.inj h)

/-! ### Drawing variables -/

/-- Whether a computation moves the counter from `n` on only forwards, and its result satisfies
`post`. -/
def Fresh.Draws {α : Type} (f : Fresh α) (n : Nat) (post : α → Nat → Prop) : Prop :=
  n ≤ (f.run n).2 ∧ post (f.run n).1 (f.run n).2

namespace Fresh.Draws

variable {α β : Type} {n : Nat}

/-- A run with a known end draws variables if the counter did not go back. -/
theorem of_run {f : Fresh α} {a : α} {m : Nat} {post : α → Nat → Prop} (h : f.run n = (a, m))
    (hnm : n ≤ m) (hpost : post a m) : f.Draws n post := by
  rw [Draws, h]
  exact ⟨hnm, hpost⟩

/-- What draws nothing leaves the counter where it is. -/
theorem pure {a : α} {post : α → Nat → Prop} (h : post a n) :
    (Pure.pure a : Fresh α).Draws n post := ⟨Nat.le_refl n, h⟩

/-- A postcondition may be weakened, knowing that the counter did not go back. -/
theorem mono {f : Fresh α} {post post' : α → Nat → Prop} (h : f.Draws n post)
    (hpost : ∀ a m, n ≤ m → post a m → post' a m) : f.Draws n post' := ⟨h.1, hpost _ _ h.1 h.2⟩

/-- Drawings are put together; the second one starts at the counter of the first. -/
theorem bind {f : Fresh α} {g : α → Fresh β} {post : α → Nat → Prop} {post' : β → Nat → Prop}
    (h : f.Draws n post) (hg : ∀ a m, n ≤ m → post a m → (g a).Draws m post') :
    (f >>= g).Draws n post' := by
  have hrun : (f >>= g).run n = (g (f.run n).1).run (f.run n).2 := Fresh.run_bind rfl
  rw [Draws, hrun]
  obtain ⟨hle, hpost⟩ := hg _ _ h.1 h.2
  exact ⟨Nat.le_trans h.1 hle, hpost⟩

/-- What holds of a result has to stay true as the counter moves on. -/
theorem mapM {f : α → Fresh β} {as : List α} {post : β → Nat → Prop}
    (hpost : ∀ b m m', m ≤ m' → post b m → post b m')
    (h : ∀ a ∈ as, ∀ m, n ≤ m → (f a).Draws m post) :
    (as.mapM f).Draws n fun bs m ↦ ∀ b ∈ bs, post b m := by
  induction as generalizing n with
  | nil => exact .pure fun b hb ↦ absurd hb List.not_mem_nil
  | cons a rest ih =>
    rw [List.mapM_cons]
    refine (h a List.mem_cons_self n (Nat.le_refl n)).bind fun b m hnm hb ↦ ?_
    refine (ih fun a ha m' hm' ↦ h a (List.mem_cons_of_mem _ ha) m' (Nat.le_trans hnm hm')).bind
      fun bs m' hmm' hbs ↦ ?_
    exact .pure (List.forall_mem_cons.2 ⟨hpost b m m' hmm' hb, hbs⟩)

end Fresh.Draws

/-- A new variable has the number at which the counter stood. -/
theorem Variable.fresh_draws (hint : String) (n : Nat) :
    (fresh hint).Draws n fun v m ↦ v.id = n ∧ v.id < m :=
  ⟨Nat.le_succ n, rfl, Nat.lt_succ_self n⟩

/-- Drawing a variable anew gives it the number of the counter. -/
theorem Variable.refresh_draws (v : Variable) (n : Nat) :
    v.refresh.Draws n fun w m ↦ w.id = n ∧ w.id < m :=
  fresh_draws v.hint n

end NaturalDeduction
