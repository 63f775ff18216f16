import NaturalDeduction.Proofs.Growth
import NaturalDeduction.Proofs.Search

/-!
# What construction and search keep

Many things that hold between a state and what it becomes are shown in the same way: they hold for
everything that a step can add, they can be put together, and going back does not break them. Such a
relation is a `StepRelation` if steps inside the current deduction keep it, and a `RunRelation` if
searches and scripts do. `Keeps R act x` says that a computation keeps the relation, however it
ends.

Searches do less than scripts: they infer, and they suppose definitions, always under names that
are generated. So more is kept by inferences (`InferenceRelation`) and by searches
(`SearchRelation`) than by all steps and all runs.

Here this is shown once for all steps of construction, for the tactics and for the search. A user's
tactics have to keep the relation as well, given a search that does (`External.Respects`).

There are five classes of relation since there are five amounts of what may happen. Each asks for
one closure under composition and one lemma for each way to change a state, and every instance of it
gets the whole of this file.

Main statements: `Search.proveAt_keeps`, `Search.prove_keeps`, and one `_keeps` for each operation
of construction, each goal operation and each tactic.
-/

namespace NaturalDeduction

/-! ### Relations between states -/

/-- A deduction that is opened inside the current one. -/
def ProofState.opened (s : ProofState) (name : String) : ProofState :=
  { s with current := { deduction := .empty name }, enclosing := s.frames }

/-- Relations between a state and what it becomes by steps inside its current deduction. -/
class StepRelation (R : ProofState → ProofState → Prop) : Prop where
  trans {s t u : ProofState} : R s t → R t u → R s u
  /-- The counter of names may move forwards, and the counter of variables may move. -/
  of_current {s : ProofState} {f : Frame} (h : s.current.Extends f) {nextName : Nat}
    (hname : s.nextName ≤ nextName) (nextVariable : Nat) :
    R s { s with current := f, nextName := nextName, nextVariable := nextVariable }

/-- Relations between a state and what it becomes by steps, searches and scripts. -/
class RunRelation (R : ProofState → ProofState → Prop) : Prop extends StepRelation R where
  depth_le {s t : ProofState} : R s t → s.depth ≤ t.depth
  /-- A definition that was found earlier is supposed. -/
  define {s t : ProofState} {index : Nat} {definition : Expression} :
    s.MayDefine index definition → R s t → R s ((Building.supposeAt index definition).run.run t).2
  /-- A search is counted while it is under way. -/
  search {s t : ProofState} : R { s with searching := s.searching + 1 } t →
    R s { t with searching := t.searching - 1 }
  rollback {s t : ProofState} : R s t → R s (t.rollback s.checkpoint)
  truncate {s t : ProofState} : R s t → R s (t.truncate s.depth)
  /-- What was opened is left again. -/
  leave {s t : ProofState} {name : String} : R (s.opened name) t → R s (t.truncate s.depth)

/-- Relations between a state and what it becomes by steps, also when a deduction is opened and not
yet closed, and when the limit of searches is set. -/
class CallRelation (R : ProofState → ProofState → Prop) : Prop extends StepRelation R where
  opened (s : ProofState) (name : String) : R s (s.opened name)
  limit (s : ProofState) (searchLimit : Nat) : R s { s with searchLimit := searchLimit }

/-- A state in which the next name has been generated. -/
def ProofState.numbered (s : ProofState) : ProofState := { s with nextName := s.freeNumber + 1 }

/-- Skipping the names that are taken does not set the counter back. -/
theorem ProofState.nextName_le_numbered (s : ProofState) : s.nextName ≤ s.numbered.nextName :=
  Nat.le_succ_of_le (Building.le_firstFree _ _ _)

/-- Names that are generated later have larger numbers. -/
theorem ProofState.generatedName_freeNumber_ne {s : ProofState} {k : Nat} (h : k < s.nextName) :
    generatedName s.freeNumber ≠ generatedName k := by
  intro hname
  have hle : s.nextName ≤ s.freeNumber := Building.le_firstFree _ _ _
  have heq := generatedName_injective hname
  omega

/-- Relations between a state and what it becomes when something is inferred in its current
deduction. -/
class InferenceRelation (R : ProofState → ProofState → Prop) : Prop where
  trans {s t u : ProofState} : R s t → R t u → R s u
  /-- The counter of names may move forwards, and the counter of variables may move. -/
  count (s : ProofState) {nextName : Nat} (h : s.nextName ≤ nextName) (nextVariable : Nat) :
    R s { s with nextName := nextName, nextVariable := nextVariable }
  /-- What is inferred is added under the next generated name. -/
  infer {s : ProofState} {e : Entry} : e.name = ProofState.generatedName s.freeNumber →
    e.isCondition = false → R s (s.numbered.add e)

/-- Relations between a state and what it becomes by searches. -/
class SearchRelation (R : ProofState → ProofState → Prop) : Prop extends InferenceRelation R where
  /-- A definition that was found earlier is supposed. -/
  define {s t : ProofState} {index : Nat} {definition : Expression} :
    s.MayDefine index definition → R s t → R s ((Building.supposeAt index definition).run.run t).2
  /-- A search is counted while it is under way. -/
  search {s t : ProofState} : R { s with searching := s.searching + 1 } t →
    R s { t with searching := t.searching - 1 }
  rollback {s t : ProofState} : R s t → R s (t.rollback s.checkpoint)

variable {R : ProofState → ProofState → Prop}

/-- Nothing added and no counter moved is a step as well, so the relation is reflexive. -/
theorem StepRelation.refl [StepRelation R] (s : ProofState) : R s s :=
  of_current (.refl s.current) (Nat.le_refl s.nextName) s.nextVariable

/-- No frame has an entry with the next generated name. -/
theorem ProofState.deduction_get?_generatedName {s : ProofState} {f : Frame} {e : Entry}
    (h : e.name = generatedName s.freeNumber) (hf : f ∈ s.frames) :
    f.deduction.get? e.name = none :=
  h ▸ deduction_get?_of_find? s.find?_generatedName hf

instance [StepRelation R] : InferenceRelation R where
  trans := StepRelation.trans
  count s _ h _ := StepRelation.of_current (.refl s.current) h _
  infer {s _} hname _ :=
    have hfree := ProofState.deduction_get?_generatedName hname List.mem_cons_self
    StepRelation.of_current (s := s) (.add hfree) s.nextName_le_numbered _

instance [RunRelation R] : SearchRelation R where
  define := RunRelation.define
  search := RunRelation.search
  rollback := RunRelation.rollback

theorem InferenceRelation.refl [InferenceRelation R] (s : ProofState) : R s s :=
  count s (Nat.le_refl s.nextName) s.nextVariable

/-- What grows keeps its abbreviations, so a definition that was found earlier may still be supposed
in the frame of its abbreviation. -/
theorem ProofState.define_of_grows (htrans : ∀ {s t u : ProofState}, R s t → R t u → R s u)
    (hgrows : ∀ {s t : ProofState}, R s t → s.Grows true t)
    (hdefine : ∀ {s : ProofState} {inner outer : List Frame} {f : Frame} {e : Entry},
      s.frames = inner ++ f :: outer → f.Defines e → e.name = generatedName s.freeNumber →
        R s (s.numbered.setFrameAt outer.length (f.add e)))
    {s t : ProofState} {index : Nat} {definition : Expression} (h : s.MayDefine index definition)
    (hst : R s t) : R s ((Building.supposeAt index definition).run.run t).2 := by
  obtain ⟨inner, f, outer, hframes, rfl, hdefines⟩ := h.grows (hgrows hst)
  rw [Building.supposeAt_run hframes]
  exact htrans hst (hdefine hframes (hdefines _) rfl)

/-- Whether a computation leads to a state that is in a relation to the one that it began in,
however it ends. -/
def Leads {σ ε α : Type} (Q : σ → σ → Prop) (act : ExceptT ε (StateM σ) α) (x : σ) : Prop :=
  Q x (act.run.run x).2

/-- Whether a computation keeps a relation between proof states, however it ends. -/
abbrev Keeps (R : ProofState → ProofState → Prop) {σ ε α : Type} [Proving σ]
    (act : ExceptT ε (StateM σ) α) (x : σ) : Prop := Leads (InvImage R Proving.state) act x

instance {σ : Type} [Proving σ] [InferenceRelation R] :
    IsPreorder σ (InvImage R Proving.state) where
  refl x := InferenceRelation.refl (Proving.state x)
  trans _ _ _ := InferenceRelation.trans

namespace Leads

variable {σ ε α β : Type} {Q : σ → σ → Prop} {x : σ}

/-- Looking at the state keeps it. -/
theorem get_bind {next : σ → ExceptT ε (StateM σ) β} (h : Leads Q (next x) x) :
    Leads Q (MonadState.get >>= next) x := h

theorem of_modify {f : σ → σ} (h : Q x (f x)) :
    Leads Q (modify f : ExceptT ε (StateM σ) PUnit) x := h

variable [IsPreorder σ Q]

theorem pure (a : α) : Leads Q (Pure.pure a : ExceptT ε (StateM σ) α) x := refl_of Q x

theorem throw (e : ε) : Leads Q (MonadExcept.throw e : ExceptT ε (StateM σ) α) x := refl_of Q x

/-- Nothing runs behind a failure. -/
theorem throw_bind {next : α → ExceptT ε (StateM σ) β} (e : ε) :
    Leads Q (MonadExcept.throw e >>= next) x := refl_of Q x

/-- What follows may use how the first part ended. -/
theorem bind_run {act : ExceptT ε (StateM σ) α} {next : α → ExceptT ε (StateM σ) β}
    (h : Leads Q act x) (hnext : ∀ a y, act.run.run x = (.ok a, y) → Leads Q (next a) y) :
    Leads Q (act >>= next) x := by
  unfold Leads at h ⊢
  rw [run_bind_eq]
  revert h hnext
  rcases act.run.run x with ⟨⟨e⟩ | ⟨a⟩, y⟩ <;> intro h hnext
  · exact h
  · exact trans_of Q h (hnext a y rfl)

/-- What follows may start from somewhere else than where the relation begins. -/
theorem bind_from {y : σ} {act : ExceptT ε (StateM σ) α} {next : α → ExceptT ε (StateM σ) β}
    (h : Q x (act.run.run y).2) (hnext : ∀ a z, Leads Q (next a) z) :
    Q x ((act >>= next).run.run y).2 := by
  rw [run_bind_eq]
  revert h
  rcases act.run.run y with ⟨⟨e⟩ | ⟨a⟩, z⟩ <;> intro h
  · exact h
  · exact trans_of Q h (hnext a z)

/-- The usual form of `bind_run`, where the rest keeps the relation whatever it is given. -/
theorem bind {act : ExceptT ε (StateM σ) α} {next : α → ExceptT ε (StateM σ) β}
    (h : Leads Q act x) (hnext : ∀ a y, Leads Q (next a) y) : Leads Q (act >>= next) x :=
  h.bind_run fun a y _ ↦ hnext a y

/-- A list is worked off item by item, and the relation is transitive. -/
theorem mapM {f : α → ExceptT ε (StateM σ) β} {as : List α} (h : ∀ a ∈ as, ∀ y, Leads Q (f a) y) :
    Leads Q (as.mapM f) x := by
  induction as generalizing x with
  | nil => exact .pure _
  | cons a rest ih =>
    obtain ⟨ha, hrest⟩ := List.forall_mem_cons.1 h
    rw [List.mapM_cons]
    exact (ha x).bind fun b y ↦ (ih hrest).bind fun bs z ↦ .pure _

/-- The same without answers. -/
theorem forM {f : α → ExceptT ε (StateM σ) PUnit} {as : List α}
    (h : ∀ a ∈ as, ∀ y, Leads Q (f a) y) : Leads Q (as.forM f) x := by
  induction as generalizing x with
  | nil => exact .pure _
  | cons a rest ih =>
    obtain ⟨ha, hrest⟩ := List.forall_mem_cons.1 h
    exact (ha x).bind fun _ y ↦ ih hrest

end Leads

/-- A change of state keeps the relation if the two states are related. -/
theorem Keeps.of_modifyGet {σ ε α : Type} [Proving σ] {x : σ} {f : σ → α × σ}
    (h : R (Proving.state x) (Proving.state (f x).2)) :
    Keeps R (modifyGet f : ExceptT ε (StateM σ) α) x := h

theorem Keeps.of_modify {σ ε : Type} [Proving σ] {x : σ} {f : σ → σ}
    (h : R (Proving.state x) (Proving.state (f x))) :
    Keeps R (modify f : ExceptT ε (StateM σ) PUnit) x := h

/-! ### Construction -/

namespace Building

section Inferences

variable [InferenceRelation R] {s : ProofState}

/-- Drawing identities only raises the counter of variables. -/
theorem draw_keeps {α : Type} (f : Fresh α) : Keeps R (draw f) s :=
  .of_modifyGet (InferenceRelation.count s (Nat.le_refl _) _)

/-- A name that is made up raises the counter of names; one that is given changes nothing. -/
theorem nameOrFresh_keeps (name : Option String) : Keeps R (nameOrFresh name) s := by
  cases name with
  | some name => exact .pure name
  | none => exact .of_modifyGet (InferenceRelation.count s s.nextName_le_numbered _)

/-- References are resolved without a change, whether or not they are found. -/
theorem lookup_keeps (name : String) : Keeps R (lookup name) s := by
  unfold lookup
  refine .get_bind ?_
  split
  · exact .pure _
  · exact .throw _

theorem resolve_keeps (r : Reference) : Keeps R (resolve r) s := by
  unfold resolve
  cases r with
  | name name => exact (lookup_keeps name).bind fun _ _ ↦ .pure _
  | relative k =>
    refine .get_bind ?_
    split
    · exact .pure _
    · exact .throw _

theorem proposition_keeps (r : Reference) : Keeps R (proposition r) s :=
  (resolve_keeps r).bind fun name _ ↦ lookup_keeps name

/-- A conclusion is added under a name that was not visible. -/
theorem conclude_keeps (e : Expression) {j : Justification} (hj : j.isSupposition = false) :
    Keeps R (conclude e j) s := by
  show R s ((conclude e j).run.run s).2
  rw [conclude_run]
  exact InferenceRelation.infer rfl hj

/-- An instance is an inference: it looks the target up and concludes. -/
theorem bind_keeps (target : Reference) (value : Expression) : Keeps R (bind target value) s := by
  refine (resolve_keeps target).bind fun name _ ↦ (lookup_keeps name).bind fun statement _ ↦ ?_
  refine (draw_keeps _).bind fun result y ↦ ?_
  cases result with
  | some conclusion => exact conclude_keeps _ rfl
  | none => exact .throw _

theorem apply_keeps (rule condition : Reference) : Keeps R (apply rule condition) s := by
  refine (resolve_keeps rule).bind fun rule _ ↦ (resolve_keeps condition).bind fun condition _ ↦ ?_
  refine (lookup_keeps rule).bind fun _ _ ↦ (lookup_keeps condition).bind fun _ _ ↦ ?_
  split
  · exact conclude_keeps _ rfl
  · exact .throw _
  · exact .throw _

/-- A replacement is an inference that also draws identities, for the binders it renames. -/
theorem substitute_keeps (target : Expression) (replacements : List Replacement)
    (chosen : Occurrences) : Keeps R (substitute target replacements chosen) s :=
  (draw_keeps _).bind fun _ _ ↦ conclude_keeps _ rfl

theorem verify_keeps (e : Expression) : Keeps R (verify e) s := by
  unfold verify
  split
  · exact conclude_keeps _ rfl
  · exact .throw _

/-! ### Equations -/

/-- The sides of an equation are read off the conclusion that `name` stands for. -/
theorem sides_keeps (name : String) : Keeps R (sides name) s := by
  refine (lookup_keeps name).bind fun e _ ↦ ?_
  split
  · exact .pure _
  · exact .throw _

/-- One instance for each value, by induction on the values. -/
theorem bindAll_keeps (target : String) (values : List Expression) :
    Keeps R (bindAll target values) s := by
  induction values generalizing target s with
  | nil => exact .pure _
  | cons value rest ih => exact (bind_keeps _ _).bind fun bound _ ↦ ih bound

/-- Elimination binds `eq_elim` and applies it twice, so it is a run of inferences. -/
theorem eliminate_keeps (equation target : String) : Keeps R (eliminate equation target) s := by
  refine (sides_keeps equation).bind fun _ _ ↦ (bindAll_keeps _ _).bind fun _ _ ↦ ?_
  exact (apply_keeps _ _).bind fun _ _ ↦ apply_keeps _ _

/-- Replacement along an equation is a chain of inferences. Where one is refused, those before it
stay. -/
theorem replaceEqual_keeps (target equation : Reference) (chosen : Occurrences) :
    Keeps R (replaceEqual target equation chosen) s := by
  refine (resolve_keeps target).bind fun _ _ ↦ (resolve_keeps equation).bind fun equation _ ↦ ?_
  refine (lookup_keeps _).bind fun _ _ ↦ (sides_keeps equation).bind fun _ _ ↦ ?_
  refine (substitute_keeps _ _ _).bind fun reduction _ ↦ (sides_keeps reduction).bind fun _ _ ↦ ?_
  refine (bindAll_keeps _ _).bind fun _ _ ↦ (apply_keeps _ _).bind fun _ _ ↦ ?_
  refine (bindAll_keeps _ _).bind fun _ _ ↦ (apply_keeps _ _).bind fun _ _ ↦ ?_
  refine (bindAll_keeps _ _).bind fun _ _ ↦ (apply_keeps _ _).bind fun _ _ ↦ ?_
  exact (apply_keeps _ _).bind fun _ _ ↦ eliminate_keeps _ _

/-! ### Definitions -/

/-- Expanding a notation draws identities and concludes nothing. -/
theorem expand?_keeps (e : Expression) : Keeps R (expand? e) s := by
  unfold expand?
  split
  · exact .pure _
  · exact .get_bind (draw_keeps _)

end Inferences

section Steps

variable [StepRelation R] {s : ProofState}

/-- Installing is the one primitive that all the others end in. A name that is taken is refused
without a change. -/
theorem install_keeps (name : String) (e : Expression) (j : Justification) :
    Keeps R (install name e j) s := by
  show R s ((install name e j).run.run s).2
  obtain ⟨hname, hinstall⟩ | hinstall := install_run name e j s
  · rw [hinstall]
    exact StepRelation.of_current (.add hname) (Nat.le_refl _) _
  · rw [hinstall]
    exact StepRelation.refl s

/-- A supposition is installed like a conclusion, so only a `StepRelation` covers it. -/
theorem suppose_keeps (name : Option String) (e : Expression) : Keeps R (suppose name e) s :=
  (nameOrFresh_keeps name).bind fun name _ ↦ install_keeps name e .supposition

/-- A parameter extends the deduction by a variable, which is one of the things a step may do. -/
theorem addParameter_run_keeps (s : ProofState) (v : Variable) :
    R s (s.mapDeduction (·.addParameter v)) := by
  have hcurrent : s.current.Extends
      { s.current with deduction := s.current.deduction.addParameter v } := by
    unfold Deduction.addParameter
    split
    · exact .refl _
    · exact .of_entries_eq
        { Frame.Grows.refl s.current with parameters := List.prefix_append _ _ } rfl
  exact StepRelation.of_current hcurrent (Nat.le_refl _) _

/-- A new parameter is drawn and then added. -/
theorem newParameter_keeps (hint : String) : Keeps R (newParameter hint) s :=
  (draw_keeps _).bind fun v y ↦
    (Keeps.of_modify (addParameter_run_keeps y v)).bind fun _ _ ↦ .pure v

/-- A given one is added unless it occurs free in what is known. -/
theorem addParameter_keeps (v : Variable) : Keeps R (addParameter v) s := by
  unfold addParameter
  refine .get_bind ?_
  split
  · exact .throw _
  · exact .throw _
  · exact Keeps.of_modifyGet (addParameter_run_keeps s v)

/-- A deduction is opened where at most a name was generated. -/
theorem exists_push_run (name : Option String) (s : ProofState) : ∃ t text,
    (push name).run.run s = (.ok (t.depth + 1), t.opened text) ∧ R s t := by
  cases name with
  | some text => exact ⟨s, text, rfl, StepRelation.refl s⟩
  | none =>
    exact ⟨{ s with nextName := s.freeNumber + 1 }, _, rfl,
      StepRelation.of_current (.refl s.current) s.nextName_le_numbered _⟩

/-- The hint of a quantifier is read off without a change. -/
theorem hint_keeps (source : Reference) : Keeps R (hint source) s := by
  refine (resolve_keeps source).bind fun _ _ ↦ (lookup_keeps _).bind fun _ _ ↦ ?_
  refine (draw_keeps _).bind fun _ y ↦
    Keeps.of_modify (StepRelation.of_current ?_ (Nat.le_refl _) _)
  exact .of_entries_eq { Frame.Grows.refl y.current with rules := List.prefix_append _ _ } rfl

end Steps

/-- Opening a deduction is covered by a `CallRelation` only: it is no step inside the current one.
-/
theorem push_keeps [CallRelation R] (name : Option String) (s : ProofState) :
    Keeps R (push name) s := by
  obtain ⟨t, text, hrun, hR⟩ := exists_push_run (R := R) name s
  show R s ((push name).run.run s).2
  rw [hrun]
  exact StepRelation.trans hR (CallRelation.opened t text)

/-- A definition is supposed in the frame of its abbreviation. -/
theorem supposeAt_keeps [SearchRelation R] {s : ProofState} {index : Nat} {definition : Expression}
    (h : s.MayDefine index definition) : Keeps R (supposeAt index definition) s :=
  SearchRelation.define (R := R) h (InferenceRelation.refl s)

end Building

/-! ### Goals -/

namespace Goal

/-- Operations of construction leave the goal alone, so they keep what they kept. -/
theorem step_keeps {α : Type} {act : Building α} {x : Goal × ProofState} (h : Keeps R act x.2) :
    Keeps R (step act) x := h

/-- A goal starts by opening its deduction. -/
theorem start_keeps [CallRelation R] (name : Option String) (statement : Expression)
    (s : ProofState) : Keeps R (start name statement) s :=
  (Building.push_keeps name s).bind fun _ _ ↦ .pure _

variable [StepRelation R]

/-- What remains of a goal is bookkeeping and does not touch the state. -/
theorem peeled_keeps (remaining : Expression) (x : Goal × ProofState) :
    Keeps R (peeled remaining) x :=
  .of_modify (StepRelation.refl _)

/-- An introduction supposes a condition or adds a parameter; nothing else comes about. -/
theorem introduce_keeps (name : Option String) (x : Goal × ProofState) :
    Keeps R (introduce name) x := by
  unfold introduce
  refine .get_bind ?_
  dsimp only
  split
  · exact .throw_bind _
  · split
    · refine (step_keeps (Building.draw_keeps _)).bind fun w y ↦ ?_
      refine (step_keeps (Building.draw_keeps _)).bind fun body' z ↦ ?_
      refine (step_keeps (Building.addParameter_keeps w)).bind fun _ u ↦ ?_
      exact (peeled_keeps body' u).bind fun _ _ ↦ .pure _
    · refine (step_keeps (Building.suppose_keeps name _)).bind fun name y ↦ ?_
      exact (peeled_keeps _ y).bind fun _ _ ↦ .pure _
    · exact .pure _

/-- By induction on the budget, as the definition recurses. -/
theorem introsWithin_keeps (budget : Nat) (x : Goal × ProofState) :
    Keeps R (introsWithin budget) x := by
  induction budget generalizing x with
  | zero => exact .pure _
  | succ budget ih =>
    unfold introsWithin
    refine (introduce_keeps none x).bind fun introduction y ↦ ?_
    cases introduction with
    | done => exact .pure _
    | parameter | hypothesis => exact (ih y).bind fun _ _ ↦ .pure _

theorem intros_keeps (x : Goal × ProofState) : Keeps R intros x :=
  .get_bind (introsWithin_keeps _ x)

end Goal

/-! ### Attempts -/

variable {μ : Type} {x : Session μ}

namespace Attempt

variable {α β : Type}

/-- A step in an attempt is the step in its proof state. -/
theorem step_keeps {act : Building α} (h : Keeps R act x.state) :
    Keeps R (step act : Attempt μ α) x := h

/-- What a step answers, it answers as a step of construction. -/
theorem run_of_step_run {act : Building α} {a : α} {y : Session μ}
    (h : (step act : Attempt μ α).run.run x = (.ok a, y)) :
    act.run.run x.state = (.ok a, y.state) := by
  obtain ⟨hresult, rfl⟩ := Prod.mk.inj h
  exact Prod.ext (ok_of_mapError hresult) rfl

theorem proofState_bind_run (next : ProofState → Attempt μ α) :
    (proofState >>= next).run.run x = (next x.state).run.run x := rfl

/-- The state may be read in between. -/
theorem proofState_bind_keeps {next : ProofState → Attempt μ α} (h : Keeps R (next x.state) x) :
    Keeps R (proofState >>= next) x := h

/-- What follows an attempt may go back to where the attempt began. -/
theorem outcome_bind_keeps {act : Attempt μ α} {next : Except Setback α → Attempt μ β}
    (h : Keeps R act x)
    (hnext : ∀ result y, R x.state y.state → R x.state ((next result).run.run y).2.state) :
    Keeps R (outcome act >>= next) x := hnext _ _ h

variable [SearchRelation R]

/-- What follows a rollback starts from where the attempt began. -/
theorem rollback_bind_keeps {y : Session μ} {next : Unit → Attempt μ α} (h : R x.state y.state)
    (hnext : ∀ z : Session μ, Keeps R (next ()) z) :
    R x.state ((modifyState (·.rollback x.state.checkpoint) >>= next).run.run y).2.state :=
  InferenceRelation.trans (SearchRelation.rollback h)
    (hnext { y with state := y.state.rollback x.state.checkpoint })

end Attempt

/-- Whether a search keeps a relation. -/
def Prover.Respects (R : ProofState → ProofState → Prop) (p : Prover μ) : Prop :=
  ∀ (goal : Expression) (x : Session μ), Keeps R (p.prove goal) x

/-- Whether a user's tactics keep a relation, given a search that does. -/
def External.Respects (R : ProofState → ProofState → Prop) (external : External μ) : Prop :=
  ∀ (key : Nat) (p : Prover μ) (bindings : Bindings) (goal : Expression) (x : Session μ),
    p.Respects R → Keeps R (external.run key p bindings goal) x

variable [SearchRelation R]

/-- Without a user's tactics there is nothing to ask of them. -/
theorem External.none_respects : (External.none : External μ).Respects R :=
  fun _ _ _ _ _ _ ↦ .throw _

/-! ### Tactics -/

namespace Prover

open Attempt

variable {p : Prover μ}

/-- Exposing proves and applies one condition after the other, by induction on the budget. -/
theorem exposeWithin_keeps (hp : p.Respects R) (budget : Nat) (name : String) :
    Keeps R (exposeWithin p budget name) x := by
  induction budget generalizing name x with
  | zero => exact (step_keeps (Building.lookup_keeps name)).bind fun _ _ ↦ .throw _
  | succ budget ih =>
    refine (step_keeps (Building.lookup_keeps name)).bind fun statement y ↦ ?_
    dsimp only
    split
    · exact .pure _
    · refine (step_keeps (Building.expand?_keeps statement)).bind_run fun result z hrun ↦ ?_
      cases result with
      | none => exact .throw _
      | some expanded =>
        obtain ⟨index, expansion⟩ := expanded
        have hdefine : z.state.MayDefine index (.equals statement expansion) :=
          Building.mayDefine_of_expand? (run_of_step_run hrun)
        have heliminate : ∀ (equation : String) (u : Session μ),
            Keeps R (step (Building.eliminate equation name) >>= exposeWithin p budget) u :=
          fun equation u ↦ (step_keeps (Building.eliminate_keeps equation name)).bind
            fun name v ↦ ih name
        refine outcome_bind_keeps (hp _ z) fun outcome w hw ↦ ?_
        split
        · exact InferenceRelation.trans hw (heliminate _ w)
        · -- the definition was found before the search
          have hsupposed : R z.state
              ((Building.supposeAt index (.equals statement expansion)).run.run w.state).2 :=
            SearchRelation.define hdefine hw
          exact Leads.bind_from (Q := InvImage R Proving.state) (x := z) hsupposed heliminate
        · exact hw

/-- The values are bound in turn, with the target exposed again in front of each. -/
theorem bindEach_keeps (hp : p.Respects R) (current : String) (values : List Expression) :
    Keeps R (bindEach p current values) x := by
  induction values generalizing current x with
  | nil => exact .pure _
  | cons value rest ih =>
    refine (exposeWithin_keeps hp maxExpansions current).bind fun exposed y ↦ ?_
    exact (step_keeps (Building.bind_keeps (.name exposed) value)).bind fun bound z ↦ ih bound

/-- The target is resolved and the values are bound. -/
theorem autobind_keeps (hp : p.Respects R) (target : Reference) (values : List Expression) :
    Keeps R (autobind p target values) x :=
  (step_keeps (Building.resolve_keeps target)).bind fun name _ ↦ bindEach_keeps hp name values

/-- Conditions are proved by the prover and applied, by induction on the budget. -/
theorem dischargeWithin_keeps (hp : p.Respects R) (budget : Nat) (current : String) :
    Keeps R (dischargeWithin p budget current) x := by
  induction budget generalizing current x with
  | zero => exact .pure _
  | succ budget ih =>
    refine (step_keeps (Building.lookup_keeps current)).bind fun statement y ↦ ?_
    split
    · refine Leads.bind (hp _ y) fun evidence z ↦ ?_
      exact (step_keeps (Building.apply_keeps (.name current) (.name evidence))).bind
        fun applied w ↦ ih applied
    · exact .pure _

theorem autoapply_keeps (hp : p.Respects R) (target : Reference) :
    Keeps R (autoapply p target) x := by
  refine (step_keeps (Building.resolve_keeps target)).bind fun name y ↦ ?_
  exact (step_keeps (Building.lookup_keeps name)).bind
    fun statement z ↦ dischargeWithin_keeps hp _ name

theorem backwards_keeps (hp : p.Respects R) (source : Reference) (goal : Expression) :
    Keeps R (backwards p source goal) x := by
  refine (step_keeps (Building.resolve_keeps source)).bind fun source y ↦ ?_
  refine (step_keeps (Building.lookup_keeps source)).bind fun statement z ↦ ?_
  refine (step_keeps (Building.draw_keeps _)).bind fun opened w ↦ ?_
  dsimp only
  split
  · exact .throw _
  · split
    · exact .throw _
    · refine (autobind_keeps hp (.name source) _).bind fun bound u ↦ ?_
      refine (autoapply_keeps hp (.name bound)).bind fun applied t ↦ ?_
      refine (step_keeps (Building.lookup_keeps applied)).bind fun found r ↦ ?_
      split
      · exact .pure _
      · exact .throw _

theorem specialize_keeps (hp : p.Respects R) (source : String) (values : List Expression)
    (bindings : Bindings) : Keeps R (specialize p source values bindings) x := by
  refine (step_keeps (Building.draw_keeps _)).bind fun values y ↦ ?_
  exact (autobind_keeps hp (.name source) values).bind
    fun bound z ↦ autoapply_keeps hp (.name bound)

/-- Like every tactic, this one uses the prover only through what it respects. -/
theorem turnAround_keeps (hp : p.Respects R) (goal left right : Expression) :
    Keeps R (turnAround p goal left right) x := by
  refine proofState_bind_keeps ?_
  split
  · exact .throw _
  · rename_i known _
    refine (autobind_keeps hp (.name "eq_sym") [right, left]).bind fun rule y ↦ ?_
    exact step_keeps (Building.apply_keeps (.name rule) (.name known))

/-- A tactic is one of these, or one of the user's, for which `External.Respects` is assumed. -/
theorem runTactic_keeps (hp : p.Respects R) {external : External μ}
    (hexternal : external.Respects R) (tactic : Tactic) (bindings : Bindings) (goal : Expression) :
    Keeps R (runTactic p external tactic bindings goal) x := by
  cases tactic with
  | specialize source values => exact specialize_keeps hp source values bindings
  | turnAround left right =>
    unfold runTactic
    dsimp only
    split
    · exact turnAround_keeps hp goal _ _
    · exact .throw _
  | backwards source => exact backwards_keeps hp (.name source) goal
  | external key => exact hexternal key p bindings goal x hp

end Prover

/-! ### The search -/

namespace Search

open Attempt

/-- A rule that fails is rolled back before the next is tried, and rolling back keeps the relation.
-/
theorem tryRules_keeps {run : Rule → Bindings → Attempt μ String} {goal : Expression}
    {rules : List Rule} (hrun : ∀ rule bindings y, Keeps R (run rule bindings) y) :
    Keeps R (tryRules run goal rules) x := by
  induction rules generalizing x with
  | nil => exact .throw _
  | cons rule rest ih =>
    unfold tryRules
    split
    · exact ih
    · rename_i bindings _
      refine proofState_bind_keeps (outcome_bind_keeps (hrun rule bindings x) fun result y h ↦ ?_)
      split
      · rw [Attempt.proofState_bind_run]
        split
        · exact h
        · exact rollback_bind_keeps h fun _ ↦ ih
      · exact rollback_bind_keeps h fun _ ↦ ih
      · exact rollback_bind_keeps h fun _ ↦ .throw _

/-- The search is counted while it is under way, which is what the field `search` allows. -/
theorem counted_keeps {act : Attempt μ String} (h : ∀ y : Session μ, Keeps R act y) :
    Keeps R (counted act) x := by
  let y : Session μ := { x with state := { x.state with searching := x.state.searching + 1 } }
  have hact : R y.state (act.run.run y).2.state := h y
  have hrun : ((counted act).run.run x).2.state = { (act.run.run y).2.state with
      searching := (act.run.run y).2.state.searching - 1 } := by
    show ((ofOutcome (act.run.run y).1).run.run _).2.state = _
    cases (act.run.run y).1 <;> rfl
  unfold Keeps
  show R x.state ((counted act).run.run x).2.state
  rw [hrun]
  exact SearchRelation.search hact

/-- **Searches keep** what steps keep, however deep they nest and however they end. -/
theorem proveAt_keeps {external : External μ} (hexternal : external.Respects R) (levels : Nat)
    (goal : Expression) : Keeps R (proveAt external levels goal) x := by
  induction levels using Nat.strongRecOn generalizing goal x with
  | ind levels ih =>
    unfold proveAt
    refine proofState_bind_keeps ?_
    split
    · exact .pure _
    · split
      · rw [if_pos rfl]
        exact step_keeps (Building.verify_keeps goal)
      · rw [if_neg Bool.false_ne_true]
        split
        · exact .throw _
        · cases levels with
          | zero => exact .throw _
          | succ levels =>
            have hinner : Prover.Respects R ⟨proveAt external levels, external.slack⟩ :=
              fun goal y ↦ ih levels (Nat.lt_succ_self levels) goal
            refine counted_keeps fun y ↦ tryRules_keeps fun rule bindings z ↦ ?_
            exact Prover.runTactic_keeps hinner hexternal rule.tactic bindings goal

/-- The search from the limit that the session gives. -/
theorem prove_keeps {external : External μ} (hexternal : external.Respects R) (goal : Expression) :
    Keeps R (prove external goal) x := proofState_bind_keeps (proveAt_keeps hexternal _ goal)

/-- This is the prover that tactics are run with, so it may be assumed of the search inside them. -/
theorem prover_respects {external : External μ} (hexternal : external.Respects R) :
    (prover external).Respects R := fun goal _ ↦ prove_keeps hexternal goal

end Search

end NaturalDeduction
