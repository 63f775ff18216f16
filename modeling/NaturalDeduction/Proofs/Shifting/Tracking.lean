import NaturalDeduction.Proofs.Acts
import NaturalDeduction.Proofs.Shifting.States

/-!
# Computations on shifted states

A computation on a proof state, or on something that has a proof state in it, is tracked by a second
one if the second one, started on the shifted state, answers the shifted result, or ends in the
shifted error, and leaves the shifted state behind (`Tracks`).

The rules follow the structure of a computation, so a proof that a function is tracked by itself on
shifted arguments has the shape of the function. The only thing that is kept about states is that
their abbreviations are uniform, since a state is free to have any functions in these places.

`Follow` is the class of states that two runs can be compared on. A proof state follows another if
it is the shifted one and the abbreviations are uniform; the states of goals, sessions and runs
contain a proof state each. The rules for `bind`, `tryCatch` and loops are proved once for the
class.
-/

namespace NaturalDeduction

variable {d : Nat}

/-! ### Shifted states -/

/-- Whether the expansion of shifted arguments is the shifted expansion of the arguments. -/
def Abbreviation.Uniform (d : Nat) (a : Abbreviation) : Prop :=
  ∀ args, Fresh.Tracks d (a.expand args) (a.expand (shift d args))

namespace ProofState

/-- The abbreviations of all open deductions. -/
def abbreviations (s : ProofState) : List Abbreviation := s.frames.flatMap (·.abbreviations)

/-- Whether all abbreviations are uniform. -/
def Uniform (d : Nat) (s : ProofState) : Prop := ∀ a ∈ s.abbreviations, a.Uniform d

/-- A state with fewer abbreviations is uniform, too. -/
theorem Uniform.mono {s t : ProofState} (h : s.Uniform d)
    (hsub : t.abbreviations ⊆ s.abbreviations) : t.Uniform d :=
  fun a ha ↦ h a (hsub ha)

/-- Frames that are dropped take their abbreviations with them. -/
theorem abbreviations_subset {s t : ProofState} (h : t.frames ⊆ s.frames) :
    t.abbreviations ⊆ s.abbreviations := by
  intro a ha
  obtain ⟨f, hf, ha⟩ := List.mem_flatMap.1 ha
  exact List.mem_flatMap.2 ⟨f, h hf, ha⟩

/-- Exchanging a frame brings in no frame but the new one. -/
theorem mem_frames_setFrameAt {s : ProofState} {index : Nat} {f g : Frame}
    (h : f ∈ (s.setFrameAt index g).frames) : f = g ∨ f ∈ s.frames := by
  unfold setFrameAt at h
  split at h
  · exact (List.mem_cons.1 h).imp_right (List.mem_cons_of_mem _)
  · rcases List.mem_cons.1 h with rfl | h
    · exact .inr List.mem_cons_self
    · exact (List.mem_or_eq_of_mem_set h).symm.imp_right (List.mem_cons_of_mem _)

/-- A frame may be replaced by one that has the same abbreviations. -/
theorem abbreviations_setFrameAt_subset {s : ProofState} {index : Nat} {f g : Frame}
    (h : s.frameAt? index = some f) (hg : g.abbreviations = f.abbreviations) :
    (s.setFrameAt index g).abbreviations ⊆ s.abbreviations := by
  intro a ha
  obtain ⟨f', hf', ha'⟩ := List.mem_flatMap.1 ha
  rcases mem_frames_setFrameAt hf' with rfl | hf'
  · rw [hg] at ha'
    exact List.mem_flatMap.2 ⟨f, List.mem_reverse.1 (List.mem_of_getElem? h), ha'⟩
  · exact List.mem_flatMap.2 ⟨f', hf', ha'⟩

/-- Discarding deductions brings in no frame. -/
theorem frames_truncate_subset (s : ProofState) (depth : Nat) :
    (s.truncate depth).frames ⊆ s.frames := by
  unfold truncate
  split
  · exact List.Subset.refl _
  · rename_i frame rest h
    show frame :: rest ⊆ s.frames
    rw [← h]
    exact List.drop_subset _ s.frames

end ProofState

/-- States of computations, of which one may be another one that is shifted. -/
class Follow (σ : Type) where
  /-- Whether the second state is the first one with the numbers of all variables raised by `d`. -/
  Follows (d : Nat) : σ → σ → Prop

export Follow (Follows)

instance : Follow ProofState := ⟨fun d s t ↦ t = shift d s ∧ s.Uniform d⟩

instance : Shift Goal :=
  ⟨fun d g ↦ { g with statement := shift d g.statement, remaining := shift d g.remaining }⟩

instance : Follow (Goal × ProofState) :=
  ⟨fun d x y ↦ y.1 = shift d x.1 ∧ Follows d x.2 y.2⟩

/-! ### Computations in step -/

/-- A computation, and the same computation on shifted values, which is to be run on the shifted
state. -/
def Tracks {σ ε α : Type} [Follow σ] [Shift ε] [Shift α] (d : Nat)
    (act act' : ExceptT ε (StateM σ) α) : Prop :=
  ∀ x y, Follows d x y →
    (act'.run.run y).1 = shift d (act.run.run x).1 ∧
      Follows d (act.run.run x).2 (act'.run.run y).2

namespace Tracks

variable {σ ε α β : Type} [Follow σ] [Shift ε] [Shift α] [Shift β]

/-- A result tracks the result that it is the shift of. -/
theorem pure {a b : α} (h : b = shift d a) :
    Tracks d (Pure.pure a : ExceptT ε (StateM σ) α) (Pure.pure b) :=
  fun _ _ hxy ↦ ⟨congrArg Except.ok h, hxy⟩

/-- An error tracks the error that it is the shift of. -/
theorem throw {e e' : ε} (h : e' = shift d e) :
    Tracks d (MonadExcept.throw e : ExceptT ε (StateM σ) α) (MonadExcept.throw e') :=
  fun _ _ hxy ↦ ⟨congrArg Except.error h, hxy⟩

/-- Nothing runs behind an error, so nothing is asked of what would. -/
theorem throw_bind {γ : Type} {e e' : ε} {next next' : γ → ExceptT ε (StateM σ) β}
    (h : e' = shift d e) :
    Tracks d (MonadExcept.throw e >>= next) (MonadExcept.throw e' >>= next') :=
  fun _ _ hxy ↦ ⟨congrArg Except.error h, hxy⟩

/-- Computations in step are put together: the states in between are shifted, and so are the
results. -/
theorem bind {act act' : ExceptT ε (StateM σ) α} {next next' : α → ExceptT ε (StateM σ) β}
    (h : Tracks d act act') (hnext : ∀ a, Tracks d (next a) (next' (shift d a))) :
    Tracks d (act >>= next) (act' >>= next') := by
  intro x y hxy
  obtain ⟨hresult, hstate⟩ := h x y hxy
  rw [run_bind_eq, run_bind_eq]
  revert hresult hstate
  rcases act.run.run x with ⟨⟨e⟩ | ⟨a⟩, x'⟩ <;> rcases act'.run.run y with ⟨⟨e'⟩ | ⟨b⟩, y'⟩ <;>
    intro hresult hstate <;> cases hresult
  · exact ⟨rfl, hstate⟩
  · exact hnext a x' y' hstate

/-- A result that mentions no variables is the same in both computations. -/
theorem bind_constant [Shift.Constant α] {act act' : ExceptT ε (StateM σ) α}
    {next next' : α → ExceptT ε (StateM σ) β} (h : Tracks d act act')
    (hnext : ∀ a, Tracks d (next a) (next' a)) : Tracks d (act >>= next) (act' >>= next') :=
  h.bind fun a ↦ (shift_constant d a).symm ▸ hnext a

/-- Conditions have to agree, and then either branch has to be in step. -/
theorem ite {c c' : Prop} [Decidable c] [Decidable c']
    {act₁ act₁' act₂ act₂' : ExceptT ε (StateM σ) α} (hc : c' ↔ c) (h₁ : Tracks d act₁ act₁')
    (h₂ : Tracks d act₂ act₂') :
    Tracks d (if c then act₁ else act₂) (if c' then act₁' else act₂') := by
  by_cases h : c
  · rwa [if_pos h, if_pos (hc.2 h)]
  · rwa [if_neg h, if_neg fun h' ↦ h (hc.1 h')]

/-- A computation may look at the state if what it does with it is in step for any two states that
are. -/
theorem get_bind {next next' : σ → ExceptT ε (StateM σ) β}
    (h : ∀ x y, Follows d x y → Tracks d (next x) (next' y)) :
    Tracks d (MonadState.get >>= next) (MonadState.get >>= next') :=
  fun x y hxy ↦ h x y hxy x y hxy

/-- A function on states that answers something is in step with another if answers and states are.
-/
theorem modifyGet {f g : σ → α × σ}
    (h : ∀ x y, Follows d x y → (g y).1 = shift d (f x).1 ∧ Follows d (f x).2 (g y).2) :
    Tracks d (MonadState.modifyGet f : ExceptT ε (StateM σ) α) (MonadState.modifyGet g) :=
  fun x y hxy ↦ ⟨congrArg Except.ok (h x y hxy).1, (h x y hxy).2⟩

/-- A change of the state is in step with another if it takes shifted states to shifted states. -/
theorem modify {f g : σ → σ} (h : ∀ x y, Follows d x y → Follows d (f x) (g y)) :
    Tracks d (modify f : ExceptT ε (StateM σ) PUnit) (modify g) :=
  modifyGet fun x y hxy ↦ ⟨rfl, h x y hxy⟩

/-- Putting a state in place is in step with putting the shifted one. -/
theorem set {x y : σ} (h : Follows d x y) :
    Tracks d (MonadState.set x : ExceptT ε (StateM σ) PUnit) (MonadState.set y) :=
  fun _ _ _ ↦ ⟨rfl, h⟩

/-- Handlers are given the shifted error and the state as it was left, which is shifted. -/
theorem tryCatch {act act' : ExceptT ε (StateM σ) α} {handle handle' : ε → ExceptT ε (StateM σ) α}
    (h : Tracks d act act') (hhandle : ∀ e, Tracks d (handle e) (handle' (shift d e))) :
    Tracks d (MonadExcept.tryCatch act handle) (MonadExcept.tryCatch act' handle') := by
  intro x y hxy
  obtain ⟨hresult, hstate⟩ := h x y hxy
  rw [run_tryCatch_eq, run_tryCatch_eq]
  revert hresult hstate
  rcases act.run.run x with ⟨⟨e⟩ | ⟨a⟩, x'⟩ <;> rcases act'.run.run y with ⟨⟨e'⟩ | ⟨b⟩, y'⟩ <;>
    intro hresult hstate <;> cases hresult
  · exact hhandle e x' y' hstate
  · exact ⟨rfl, hstate⟩

theorem discard {act act' : ExceptT ε (StateM σ) α} (h : Tracks d act act') :
    Tracks d (discard act) (discard act') :=
  h.bind fun _ ↦ .pure rfl

/-- Lists are gone through alike, up to the same item that ends in an error. -/
theorem mapM {γ : Type} {f f' : γ → ExceptT ε (StateM σ) α} (h : ∀ c, Tracks d (f c) (f' c))
    (cs : List γ) : Tracks d (cs.mapM f) (cs.mapM f') := by
  induction cs with
  | nil => exact .pure rfl
  | cons c rest ih =>
    rw [List.mapM_cons, List.mapM_cons]
    exact (h c).bind fun a ↦ Tracks.bind ih fun as ↦ .pure rfl

/-- The same where the results are not used. -/
theorem forM {γ : Type} {f f' : γ → ExceptT ε (StateM σ) PUnit} (h : ∀ c, Tracks d (f c) (f' c))
    (cs : List γ) : Tracks d (cs.forM f) (cs.forM f') := by
  induction cs with
  | nil => exact .pure rfl
  | cons c rest ih => exact (h c).bind fun _ ↦ ih

/-- The same for a list that is shifted itself. -/
theorem forM_shift {γ : Type} [Shift γ] {f f' : γ → ExceptT ε (StateM σ) PUnit}
    (h : ∀ c, Tracks d (f c) (f' (shift d c))) (cs : List γ) :
    Tracks d (cs.forM f) ((shift d cs).forM f') := by
  induction cs with
  | nil => exact .pure rfl
  | cons c rest ih => exact (h c).bind fun _ ↦ ih

end Tracks

/-! ### Steps of construction -/

instance : Shift Refusal where
  shift d
    | .nameTaken name existing statement => .nameTaken name (shift d existing) (shift d statement)
    | .notARule name found => .notARule name (shift d found)
    | .otherCondition rule expected found => .otherCondition rule (shift d expected) (shift d found)
    | .notAQuantification name found => .notAQuantification name (shift d found)
    | .notAnEquation name found => .notAnEquation name (shift d found)
    | .undecided error => .undecided (shift d error)
    | .parameterShared parameter => .parameterShared (shift d parameter)
    | .parameterFree parameter name => .parameterFree (shift d parameter) name
    | .goalMissed expected actual => .goalMissed (shift d expected) (shift d actual)
    | .goalClosed goal => .goalClosed (shift d goal)
    | refusal => refusal

/-- Discarding deductions discards abbreviations and adds none. -/
theorem ProofState.Uniform.truncate {s : ProofState} (h : s.Uniform d) (depth : Nat) :
    (s.truncate depth).Uniform d :=
  h.mono (abbreviations_subset (s.frames_truncate_subset depth))

/-- Going back to a checkpoint discards abbreviations and adds none. -/
theorem ProofState.Uniform.rollback {s : ProofState} (h : s.Uniform d) (c : Checkpoint) :
    (s.rollback c).Uniform d := by
  refine (h.truncate c.depth).mono fun a ha ↦ ?_
  rcases List.mem_append.1 ha with ha | ha
  · exact List.mem_append_left _ (List.mem_of_mem_take ha)
  · exact List.mem_append_right _ ha

/-- A uniform abbreviation may be added to a uniform state. -/
theorem ProofState.Uniform.addAbbreviation {s : ProofState} {a : Abbreviation} (h : s.Uniform d)
    (ha : a.Uniform d) : (s.addAbbreviation a).Uniform d := by
  intro b hb
  rcases List.mem_append.1 hb with hb | hb
  · rcases List.mem_append.1 hb with hb | hb
    · exact h b (List.mem_append_left _ hb)
    · exact List.mem_singleton.1 hb ▸ ha
  · exact h b (List.mem_append_right _ hb)

namespace Building

variable {α : Type} [Shift α]

/-- Variables are drawn at the counter of the state, which is shifted with it. -/
theorem draw_tracks {f f' : Fresh α} (h : Fresh.Tracks d f f') : Tracks d (draw f) (draw f') := by
  refine .modifyGet ?_
  rintro s _ ⟨rfl, hs⟩
  obtain ⟨hresult, hnext⟩ := h s.nextVariable
  rw [ProofState.nextVariable_shift]
  revert hresult hnext
  rcases f.run s.nextVariable with ⟨a, n⟩
  rcases f'.run (s.nextVariable + d) with ⟨_, _⟩
  rintro rfl rfl
  exact ⟨rfl, rfl, hs⟩

/-- Generated names do not depend on variables. -/
theorem freshName_tracks : Tracks d freshName freshName := by
  refine .modifyGet ?_
  rintro s _ ⟨rfl, hs⟩
  rw [ProofState.freeNumber_shift]
  exact ⟨rfl, rfl, hs⟩

theorem nameOrFresh_tracks (name : Option String) :
    Tracks d (nameOrFresh name) (nameOrFresh name) := by
  cases name with
  | none => exact freshName_tracks
  | some name => exact .pure rfl

/-- A name that is not visible is refused alike, and any other has its statement, shifted. -/
theorem lookup_tracks (name : String) : Tracks d (lookup name) (lookup name) := by
  refine .get_bind ?_
  rintro s _ ⟨rfl, -⟩
  rw [ProofState.get?_shift]
  cases s.get? name with
  | none => exact .throw rfl
  | some e => exact .pure rfl

/-- References go by names and positions, so they are resolved alike. -/
theorem resolve_tracks (r : Reference) : Tracks d (resolve r) (resolve r) := by
  cases r with
  | name name => exact (lookup_tracks name).bind fun _ ↦ .pure rfl
  | relative k =>
    refine .get_bind ?_
    rintro s _ ⟨rfl, -⟩
    rw [ProofState.nameAt?_shift]
    cases s.nameAt? k with
    | none => exact .throw rfl
    | some name => exact .pure rfl

theorem proposition_tracks (r : Reference) : Tracks d (proposition r) (proposition r) :=
  (resolve_tracks r).bind_constant lookup_tracks

/-- Whether a name is taken does not depend on variables. -/
theorem install_tracks (name : String) (statement : Expression) (j : Justification) :
    Tracks d (install name statement j) (install name (shift d statement) (shift d j)) := by
  refine .get_bind ?_
  rintro s _ ⟨rfl, hs⟩
  have hinsert := s.current.deduction.insert_shift (d := d) ⟨name, statement, j⟩
  rw [ProofState.current_shift, Frame.deduction_shift, ← Entry.shift_mk, hinsert]
  cases s.current.deduction.insert ⟨name, statement, j⟩ with
  | error existing => exact .throw_bind rfl
  | ok x => exact Tracks.bind (.set ⟨rfl, hs⟩) fun _ ↦ .pure rfl

theorem conclude_tracks (statement : Expression) (j : Justification) :
    Tracks d (conclude statement j) (conclude (shift d statement) (shift d j)) :=
  freshName_tracks.bind_constant fun name ↦ install_tracks name statement j

theorem suppose_tracks (name : Option String) (statement : Expression) :
    Tracks d (suppose name statement) (suppose name (shift d statement)) :=
  (nameOrFresh_tracks name).bind_constant fun name ↦ install_tracks name statement .supposition

/-- A definition is supposed in the same frame, shifted. -/
theorem supposeAt_tracks (index : Nat) (statement : Expression) :
    Tracks d (supposeAt index statement) (supposeAt index (shift d statement)) := by
  refine freshName_tracks.bind_constant fun name ↦ .get_bind ?_
  rintro s _ ⟨rfl, hs⟩
  rw [ProofState.frameAt?_shift]
  cases h : s.frameAt? index with
  | none => exact .throw_bind rfl
  | some f =>
    have hinsert : (shift d f.deduction).insert ⟨name, shift d statement, .supposition⟩ =
        shift d (f.deduction.insert ⟨name, statement, .supposition⟩) :=
      f.deduction.insert_shift ⟨name, statement, .supposition⟩
    rw [shift_some]
    dsimp only
    rw [Frame.deduction_shift, hinsert]
    cases f.deduction.insert ⟨name, statement, .supposition⟩ with
    | error existing => exact .throw_bind rfl
    | ok x =>
      have hset := s.setFrameAt_shift (d := d) index { f with deduction := x }
      have hs' : (s.setFrameAt index { f with deduction := x }).Uniform d :=
        hs.mono (ProofState.abbreviations_setFrameAt_subset h rfl)
      exact Tracks.bind (.set ⟨hset, hs'⟩) fun _ ↦ .pure rfl

/-- A new parameter is drawn at the counter. -/
theorem newParameter_tracks (hint : String) : Tracks d (newParameter hint) (newParameter hint) := by
  refine (draw_tracks (Variable.fresh_tracks hint)).bind fun v ↦ ?_
  refine Tracks.bind (.modify ?_) fun _ ↦ .pure rfl
  rintro s _ ⟨rfl, hs⟩
  exact ⟨s.mapDeduction_shift fun x ↦ x.addParameter_shift v, hs⟩

/-- A parameter is forbidden alike. -/
theorem addParameter_tracks (v : Variable) :
    Tracks d (addParameter v) (addParameter (shift d v)) := by
  refine .get_bind ?_
  rintro s _ ⟨rfl, hs⟩
  rw [ProofState.parameterObstacle?_shift]
  cases s.parameterObstacle? v with
  | none => exact .set ⟨s.mapDeduction_shift fun x ↦ x.addParameter_shift v, hs⟩
  | some obstacle => cases obstacle <;> exact .throw rfl

/-- Specializing looks the statement up, instantiates it and installs the result. -/
theorem bind_tracks (target : Reference) (value : Expression) :
    Tracks d (bind target value) (bind target (shift d value)) := by
  refine (resolve_tracks target).bind_constant fun target ↦ ?_
  refine (lookup_tracks target).bind fun statement ↦ ?_
  refine (draw_tracks (Inference.specialize?_tracks statement value)).bind fun result ↦ ?_
  cases result with
  | none => exact .throw rfl
  | some conclusion => exact conclude_tracks conclusion (.specialization target value)

/-- Applying looks rule and condition up, compares, and installs the conclusion. -/
theorem apply_tracks (rule condition : Reference) :
    Tracks d (apply rule condition) (apply rule condition) := by
  refine (resolve_tracks rule).bind_constant fun rule ↦ ?_
  refine (resolve_tracks condition).bind_constant fun condition ↦ ?_
  refine (lookup_tracks rule).bind fun ruleStatement ↦ ?_
  refine (lookup_tracks condition).bind fun given ↦ ?_
  rw [Inference.detach_shift]
  cases Inference.detach ruleStatement given with
  | ok conclusion => exact conclude_tracks conclusion (.detachment rule condition)
  | error e => cases e <;> exact .throw rfl

/-- Replacing draws variables in step, and its record is the shifted record. -/
theorem substitute_tracks (target : Expression) (replacements : List Replacement)
    (chosen : Occurrences) :
    Tracks d (substitute target replacements chosen)
      (substitute (shift d target) (shift d replacements) chosen) := by
  refine (draw_tracks (Inference.replacement_tracks target replacements chosen)).bind fun e ↦ ?_
  exact conclude_tracks e (.replacement target replacements chosen)

/-- The same statements are verified, and the same refused. -/
theorem verify_tracks (e : Expression) : Tracks d (verify e) (verify (shift d e)) := by
  have hverify := Inference.verify_shift (d := d) e
  rw [verify, verify, hverify]
  cases Inference.verify e with
  | ok p => exact conclude_tracks p.1 (.verification e p.2)
  | error error => exact .throw rfl

theorem push_tracks (name : Option String) : Tracks d (push name) (push name) := by
  refine (nameOrFresh_tracks name).bind_constant fun name ↦ .modifyGet ?_
  rintro s _ ⟨rfl, hs⟩
  exact ⟨congrArg (· + 1) (length_shift s.frames), rfl, hs⟩

/-- The root stays where it is in both. -/
theorem pop_tracks : Tracks d pop pop := by
  refine .get_bind ?_
  rintro s _ ⟨rfl, hs⟩
  rw [ProofState.enclosing_shift]
  cases h : s.enclosing with
  | nil => exact .throw rfl
  | cons f rest =>
    have hframes : s.frames = s.current :: f :: rest := congrArg (s.current :: ·) h
    have hs' : ProofState.Uniform d { s with current := f, enclosing := rest } :=
      hs.mono (ProofState.abbreviations_subset (hframes ▸ List.subset_cons_self _ _))
    exact Tracks.bind (.set ⟨rfl, hs'⟩) fun _ ↦ .pure rfl

/-- A deduction without a last derived statement has no theorem, shifted or not. -/
theorem currentTheorem_tracks : Tracks d currentTheorem currentTheorem := by
  refine .get_bind ?_
  rintro s _ ⟨rfl, -⟩
  rw [ProofState.current_shift, Frame.deduction_shift]
  dsimp only
  rw [Deduction.closedTheorem?_shift, Deduction.name_shift]
  cases s.current.deduction.closedTheorem? with
  | none => exact .throw rfl
  | some e => exact .pure rfl

/-- The theorem that is installed around is the shifted theorem. -/
theorem close_tracks (name : Option String) : Tracks d (close name) (close name) := by
  refine .get_bind ?_
  rintro s _ ⟨rfl, -⟩
  rw [ProofState.enclosing_shift, isEmpty_shift]
  split
  · exact .throw_bind rfl
  · refine currentTheorem_tracks.bind fun statement ↦ pop_tracks.bind fun x ↦ ?_
    rw [Deduction.name_shift]
    exact install_tracks (name.getD x.name) statement (.deduction x)

theorem abandon_tracks (depth : Nat) : Tracks d (abandon depth) (abandon depth) := by
  refine .modify ?_
  rintro s _ ⟨rfl, hs⟩
  exact ⟨s.truncate_shift _, hs.truncate _⟩

/-- What was opened is discarded behind an error, in both alike. -/
theorem closing_tracks (depth : Nat) {act act' : Building α} (h : Tracks d act act') :
    Tracks d (closing depth act) (closing depth act') := by
  refine Tracks.bind (.modify ?_) fun _ ↦ .tryCatch h fun refusal ↦ ?_
  · rintro s _ ⟨rfl, hs⟩
    exact ⟨s.truncate_shift _, hs.truncate _⟩
  · exact (abandon_tracks depth).bind fun _ ↦ .throw rfl

theorem closeAt_tracks (depth : Nat) (name : Option String) :
    Tracks d (closeAt depth name) (closeAt depth name) :=
  closing_tracks depth (close_tracks name)

end Building

/-! ### Goals -/

instance : Shift Introduction where
  shift d
    | .parameter v => .parameter (shift d v)
    | .hypothesis name statement => .hypothesis name (shift d statement)
    | .done => .done

namespace Goal

@[simp] theorem name_shift (g : Goal) : (shift d g).name = g.name := rfl

@[simp] theorem statement_shift (g : Goal) : (shift d g).statement = shift d g.statement := rfl

@[simp] theorem remaining_shift (g : Goal) : (shift d g).remaining = shift d g.remaining := rfl

@[simp] theorem phase_shift (g : Goal) : (shift d g).phase = g.phase := rfl

@[simp] theorem depth_shift (g : Goal) : (shift d g).depth = g.depth := rfl

/-- A step of a goal leaves the goal alone. -/
theorem step_tracks {α : Type} [Shift α] {act act' : Building α} (h : Tracks d act act') :
    Tracks d (step act) (step act') := by
  rintro ⟨g, s⟩ ⟨_, t⟩ ⟨rfl, hst⟩
  exact ⟨(h s t hst).1, rfl, (h s t hst).2⟩

/-- A goal opens a deduction for its shifted statement. -/
theorem start_tracks (name : Option String) (statement : Expression) :
    Tracks d (start name statement) (start name (shift d statement)) :=
  (Building.push_tracks name).bind fun _ ↦ .pure rfl

/-- What remains of a goal is replaced by its shifted part. -/
theorem peeled_tracks (remaining : Expression) :
    Tracks d (peeled remaining) (peeled (shift d remaining)) := by
  refine .modify ?_
  rintro ⟨g, s⟩ ⟨_, t⟩ ⟨rfl, hst⟩
  exact ⟨rfl, hst⟩

/-- An introduction goes by the shape of what remains, and the shape is the same. -/
theorem introduce_tracks (name : Option String) : Tracks d (introduce name) (introduce name) := by
  refine .get_bind ?_
  rintro ⟨g, s⟩ ⟨_, t⟩ ⟨rfl, -⟩
  dsimp only
  rw [phase_shift, statement_shift, remaining_shift]
  split
  · exact .throw_bind rfl
  · cases g.remaining with
    | binder kind v body =>
      cases kind with
      | universal =>
        refine (step_tracks (Building.draw_tracks v.refresh_tracks)).bind fun w ↦ ?_
        have hbody := Expression.substitute_tracks (d := d) body [⟨.var v, .var w⟩] .all
        refine (step_tracks (Building.draw_tracks hbody)).bind fun body' ↦ ?_
        refine (step_tracks (Building.addParameter_tracks w)).bind fun _ ↦ ?_
        exact (peeled_tracks body').bind fun _ ↦ .pure rfl
      | _ => exact .pure rfl
    | implies condition conclusion =>
      refine (step_tracks (Building.suppose_tracks name condition)).bind_constant fun name ↦ ?_
      exact (peeled_tracks conclusion).bind fun _ ↦ .pure rfl
    | application items =>
      rw [Expression.shift_application]
      exact .pure rfl
    | _ => exact .pure rfl

/-- Concluding a goal compares its statement with the theorem up to bound names. -/
theorem conclude_tracks (g : Goal) : Tracks d g.conclude (shift d g).conclude := by
  have hclosing : Tracks d
      (Building.closing g.depth do
        let actual ← Building.currentTheorem
        if !actual.equalUpTo .all g.statement then throw (.goalMissed g.statement actual)
        Building.close g.name)
      (Building.closing g.depth do
        let actual ← Building.currentTheorem
        if !actual.equalUpTo .all (shift d g.statement) then
          throw (.goalMissed (shift d g.statement) actual)
        Building.close g.name) := by
    refine Building.closing_tracks g.depth (Building.currentTheorem_tracks.bind fun actual ↦ ?_)
    rw [Expression.equalUpTo_shift]
    split
    · exact .throw_bind rfl
    · exact Building.close_tracks g.name
  rw [conclude, conclude, phase_shift, statement_shift, depth_shift, name_shift]
  split
  · exact .throw_bind rfl
  · exact hclosing

end Goal

end NaturalDeduction
