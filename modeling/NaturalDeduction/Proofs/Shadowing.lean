import NaturalDeduction.Proofs.Eigenvariables
import NaturalDeduction.Proofs.Goals

/-!
# Shadowed names

A name is unique within its deduction, but a deduction may use the names of those around it again,
and a name means the innermost entry that has it. So an entry whose name is used again further in is
*shadowed*: it is visible, it is counted by relative indices and it is found by its statement, but
its name stands for another entry.

Relative references and the search for proofs both answer an entry by its name. Both are right about
every entry that is not shadowed, and wrong about those that are: see `relative_references` and
`prove_answers`, and the two states below them.

Main definitions and statements:

* `Shadowed`: another entry, further in, has the name.
* `ProofState.find?_eq_of_not_shadowed`, `ProofState.exists_find?_of_shadowed`: what a name means.
* `Host.VisitedFor`: the states that calls lead to, with the prelude or without it.
* `ProofState.Means`: what a reference means to the steps that it is given to.
* `Attempt.Ensures`: postconditions of attempts that succeed.

That a name is unique in its deduction is one of the properties that every change of a deduction
keeps (`Deduction.Invariant`), so it needs no proof for each call.
-/

namespace NaturalDeduction

/-! ### Names are unique within a deduction -/

/-- Whether no two entries of a deduction have the same name. -/
def Frame.Distinct (f : Frame) : Prop := (f.deduction.entries.map (·.name)).Nodup

/-- A deduction never has a name twice. -/
theorem Deduction.names_invariant :
    Deduction.Invariant fun d ↦ (d.entries.map (·.name)).Nodup where
  empty _ := List.nodup_nil
  add {d e} h hname := by
    refine List.nodup_cons.2 ⟨fun hmem ↦ ?_, h⟩
    obtain ⟨a, ha, heq⟩ := List.mem_map.1 hmem
    have hfind := List.find?_eq_none.1 (Option.map_eq_none_iff.1 hname) a ha
    exact hfind (beq_iff_eq.2 heq)
  addParameter v h := by rwa [Deduction.entries_addParameter]
  truncate _ _ h := h.sublist ((List.drop_sublist _ _).map _)

/-! ### What a name means

The visible entries are listed newest first, through all open deductions (`ProofState.history`). A
name means the first entry in that list which has it. As a name is unique in its deduction, the
entries that it does not mean are those with the same name further in.
-/

/-- Whether the entry at a place in the history of some frames, counted from the most recent one,
has the name of an entry in a deduction further in. -/
def Shadowed (frames : List Frame) (i : Nat) : Prop :=
  ∃ inner outer, frames = inner ++ outer ∧ (inner.flatMap (·.deduction.entries)).length ≤ i ∧
    ∃ e, (frames.flatMap (·.deduction.entries))[i]? = some e ∧
      ∃ e' ∈ inner.flatMap (·.deduction.entries), e'.name = e.name

/-- What is shadowed is so under a further frame as well. -/
theorem Shadowed.cons {f : Frame} {frames : List Frame} {i : Nat} (h : Shadowed frames i) :
    Shadowed (f :: frames) (f.deduction.entries.length + i) := by
  obtain ⟨inner, outer, rfl, hle, e, he, e', he', hname⟩ := h
  refine ⟨f :: inner, outer, rfl, ?_, e, ?_, e', ?_, hname⟩
  · rw [List.flatMap_cons, List.length_append]
    omega
  · rw [List.flatMap_cons, List.getElem?_append_right (Nat.le_add_right _ _),
      Nat.add_sub_cancel_left]
    exact he
  · exact List.mem_append_right _ he'

/-- Names are used again only further in. -/
theorem shadowed_of_lt {frames : List Frame} (hframes : ∀ f ∈ frames, f.Distinct) {i j : Nat}
    {e e' : Entry} (hi : (frames.flatMap (·.deduction.entries))[i]? = some e)
    (hj : (frames.flatMap (·.deduction.entries))[j]? = some e') (hname : e'.name = e.name)
    (hlt : j < i) : Shadowed frames i := by
  induction frames generalizing i j with
  | nil => cases hi
  | cons f rest ih =>
    obtain ⟨hf, hrest⟩ := List.forall_mem_cons.1 hframes
    by_cases hinside : i < f.deduction.entries.length
    · -- within a deduction, places with the same name are the same
      rw [List.flatMap_cons, List.getElem?_append_left hinside] at hi
      rw [List.flatMap_cons, List.getElem?_append_left (Nat.lt_trans hlt hinside)] at hj
      have hsame :
          (f.deduction.entries.map (·.name))[j]? = (f.deduction.entries.map (·.name))[i]? := by
        rw [List.getElem?_map, List.getElem?_map, hi, hj]
        exact congrArg some hname
      have hlength : j < (f.deduction.entries.map (·.name)).length := by
        rw [List.length_map]
        omega
      exact absurd ((List.getElem?_inj hlength hf).1 hsame) (Nat.ne_of_lt hlt)
    · have hle := Nat.le_of_not_lt hinside
      by_cases hinner : j < f.deduction.entries.length
      · rw [List.flatMap_cons, List.getElem?_append_left hinner] at hj
        refine ⟨[f], rest, rfl, ?_, e, hi, e', ?_, hname⟩
        · simpa using hle
        · simpa using List.mem_of_getElem? hj
      · have hle' := Nat.le_of_not_lt hinner
        rw [List.flatMap_cons, List.getElem?_append_right hle] at hi
        rw [List.flatMap_cons, List.getElem?_append_right hle'] at hj
        have h := (ih hrest hi hj (by omega)).cons (f := f)
        rwa [Nat.add_sub_of_le hle] at h

/-- A newer entry has the name of one that is shadowed. -/
theorem Shadowed.exists_lt {frames : List Frame} {i : Nat} {e : Entry} (h : Shadowed frames i)
    (hi : (frames.flatMap (·.deduction.entries))[i]? = some e) :
    ∃ j e', j < i ∧ (frames.flatMap (·.deduction.entries))[j]? = some e' ∧ e'.name = e.name := by
  obtain ⟨inner, outer, rfl, hle, a, ha, e', he', hname⟩ := h
  obtain rfl : a = e := Option.some.inj (ha.symm.trans hi)
  obtain ⟨j, hj, heq⟩ := List.getElem_of_mem he'
  refine ⟨j, e', Nat.lt_of_lt_of_le hj hle, ?_, hname⟩
  rw [List.flatMap_append, List.getElem?_append_left hj, ← heq]
  exact List.getElem?_eq_getElem hj

namespace ProofState

variable {s : ProofState} {i : Nat} {e : Entry}

/-- A name means the most recent entry that has it. -/
theorem find?_eq (s : ProofState) (name : String) :
    s.find? name = s.history.find? (·.name == name) := by
  rw [find?, history, List.find?_flatMap]
  rfl

/-- The most recent entry with the name of an entry. -/
theorem exists_find?_eq (hi : s.history[i]? = some e) :
    ∃ j e', j ≤ i ∧ s.history[j]? = some e' ∧ e'.name = e.name ∧ s.find? e.name = some e' := by
  have hmem : e ∈ s.history := List.mem_of_getElem? hi
  have hsome : (s.history.find? (·.name == e.name)).isSome = true :=
    List.find?_isSome.2 ⟨e, hmem, beq_self_eq_true e.name⟩
  obtain ⟨e', he'⟩ := Option.isSome_iff_exists.1 hsome
  obtain ⟨hname, j, hj, heq, hbefore⟩ := List.find?_eq_some_iff_getElem.1 he'
  refine ⟨j, e', Nat.le_of_not_lt fun hlt ↦ ?_, ?_, beq_iff_eq.1 hname, ?_⟩
  · obtain ⟨hi', rfl⟩ := List.getElem?_eq_some_iff.1 hi
    have hnot := hbefore i hlt
    rw [beq_self_eq_true] at hnot
    cases hnot
  · rw [← heq]
    exact List.getElem?_eq_getElem hj
  · rw [find?_eq]
    exact he'

/-- The name of an entry that is not shadowed means this entry. -/
theorem find?_eq_of_not_shadowed (hs : ∀ f ∈ s.frames, f.Distinct) (hi : s.history[i]? = some e)
    (h : ¬ Shadowed s.frames i) : s.find? e.name = some e := by
  obtain ⟨j, e', hle, hj, hname, hfind⟩ := exists_find?_eq hi
  rcases Nat.lt_or_eq_of_le hle with hlt | rfl
  · exact absurd (shadowed_of_lt hs hi hj hname hlt) h
  · rw [hfind, ← hj, hi]

/-- The name of a shadowed entry means one that is more recent. -/
theorem exists_find?_of_shadowed (hi : s.history[i]? = some e) (h : Shadowed s.frames i) :
    ∃ j e', j < i ∧ s.history[j]? = some e' ∧ e'.name = e.name ∧ s.find? e.name = some e' := by
  obtain ⟨j, e', hlt, hj, hname⟩ := h.exists_lt hi
  obtain ⟨k, e'', hle, hk, hname', hfind⟩ := exists_find?_eq (s := s) hj
  exact ⟨k, e'', Nat.lt_of_le_of_lt hle hlt, hk, hname'.trans hname, hname ▸ hfind⟩

end ProofState

/-! ### Runs -/

namespace Host

variable {μ : Type} {P : Policy} {external : External μ} {h : Host μ}

/-- What is reached from a new proof state, with the prelude or without it, by calls that a policy
admits. -/
inductive VisitedFor (P : Policy) (external : External μ) : Host μ → Prop
  | bare (nextVariable searchLimit : Nat) (memory : μ) :
      VisitedFor P external ⟨.initial nextVariable searchLimit, memory⟩
  | start (nextVariable searchLimit : Nat) (memory : μ) :
      VisitedFor P external (start nextVariable searchLimit memory)
  | perform {h : Host μ} (hvisited : VisitedFor P external h) (call : Call)
      (hcall : call.AdmissibleFor P h.bench.state) : VisitedFor P external (h.perform external call)

/-- Whatever deductions keep, holds of all open ones in every state that is visited. -/
theorem VisitedFor.tidyFor_invariant [P.Permissive] (hP : P.Registrable 0 Prelude.boundedQuantifier)
    (hexternal : external.LawfulFor P) {p : Deduction → Prop} (hp : Deduction.Invariant p)
    (hvisited : h.VisitedFor P external) :
    h.bench.TidyFor P ∧ ∀ f ∈ h.bench.state.frames, p f.deduction := by
  have hinitial : ∀ n l, ∀ f ∈ (Workbench.initial n l).state.frames, p f.deduction :=
    fun _ _ f hf ↦ List.mem_singleton.1 hf ▸ hp.empty "root"
  induction hvisited with
  | bare n l memory => exact ⟨Workbench.tidyFor_initial P n l, hinitial n l⟩
  | start n l memory =>
    have hadvances := start_advances (P := P) hP n l memory
    exact ⟨hadvances.tidyFor (Workbench.tidyFor_initial P n l),
      hadvances.moves.invariant hp (hinitial n l)⟩
  | perform _ call hcall ih =>
    have hadvances := perform_advances hexternal ih.1 hcall
    exact ⟨hadvances.tidyFor ih.1, hadvances.moves.invariant hp ih.2⟩

/-- In every state that is reached, names are unique within a deduction. -/
theorem VisitedFor.tidyFor_distinct [P.Permissive] (hP : P.Registrable 0 Prelude.boundedQuantifier)
    (hexternal : external.LawfulFor P) (hvisited : h.VisitedFor P external) :
    h.bench.TidyFor P ∧ ∀ f ∈ h.bench.state.frames, f.Distinct :=
  hvisited.tidyFor_invariant hP hexternal Deduction.names_invariant

end Host

/-! ### References -/

namespace Building

variable {s : ProofState} {r r' : Reference} {name : String} {e : Entry}

theorem lookup_run (h : s.find? name = some e) :
    (lookup name).run.run s = (.ok e.statement, s) := by
  unfold lookup
  rw [run_bind_ok (run_get_eq s), ProofState.get?, h]
  rfl

theorem lookup_run_error (h : s.find? name = none) :
    (lookup name).run.run s = (.error (.unknownName name), s) := by
  unfold lookup
  rw [run_bind_ok (run_get_eq s), ProofState.get?, h]
  rfl

theorem resolve_name_run (h : s.find? name = some e) :
    (resolve (.name name)).run.run s = (.ok name, s) := run_bind_ok (lookup_run h)

/-- A number is turned into the name of the entry that it counts to. -/
theorem resolve_relative_run (k : Int) (s : ProofState) :
    (resolve (.relative k)).run.run s =
      match s.nameAt? k with
      | some name => (.ok name, s)
      | none => (.error (.badIndex k), s) := by
  unfold resolve
  dsimp only
  rw [run_bind_ok (run_get_eq s)]
  cases s.nameAt? k <;> rfl

/-- Resolving a reference leaves the state as it is. -/
theorem exists_resolve_run (r : Reference) (s : ProofState) :
    ∃ result, (resolve r).run.run s = (result, s) := by
  cases r with
  | name name =>
    cases h : s.find? name with
    | none => exact ⟨_, run_bind_error (lookup_run_error h)⟩
    | some e => exact ⟨_, resolve_name_run h⟩
  | relative k =>
    rw [resolve_relative_run]
    cases s.nameAt? k <;> exact ⟨_, rfl⟩

/-- References that mean the same name are the same to whatever resolves them. -/
theorem resolve_bind_run {α : Type} (h : (resolve r).run.run s = (.ok name, s))
    (h' : (resolve r').run.run s = (.ok name, s)) (next : String → Building α) :
    (resolve r >>= next).run.run s = (resolve r' >>= next).run.run s := by
  rw [run_bind_ok h, run_bind_ok h']

/-- They are also the same to what resolves another reference first. -/
theorem resolve_bind_resolve_run {α : Type} (h : (resolve r).run.run s = (.ok name, s))
    (h' : (resolve r').run.run s = (.ok name, s)) (first : Reference)
    (next : String → String → Building α) :
    (resolve first >>= fun a ↦ resolve r >>= next a).run.run s =
      (resolve first >>= fun a ↦ resolve r' >>= next a).run.run s := by
  obtain ⟨⟨refusal⟩ | ⟨a⟩, hfirst⟩ := exists_resolve_run first s
  · rw [run_bind_error hfirst, run_bind_error hfirst]
  · rw [run_bind_ok hfirst, run_bind_ok hfirst, resolve_bind_run h h']

end Building

/-- Whether a reference means an entry: it stands for its statement, and the steps that it is given
to act on the entry's name, which the entry itself has. -/
structure ProofState.Means (s : ProofState) (r : Reference) (e : Entry) : Prop where
  find? : s.find? e.name = some e
  proposition : (Building.proposition r).run.run s = (.ok e.statement, s)
  bind (value : Expression) :
    (Building.bind r value).run.run s = (Building.bind (.name e.name) value).run.run s
  rule (condition : Reference) :
    (Building.apply r condition).run.run s = (Building.apply (.name e.name) condition).run.run s
  condition (rule : Reference) :
    (Building.apply rule r).run.run s = (Building.apply rule (.name e.name)).run.run s
  target (equation : Reference) (chosen : Occurrences) :
    (Building.replaceEqual r equation chosen).run.run s =
      (Building.replaceEqual (.name e.name) equation chosen).run.run s
  equation (target : Reference) (chosen : Occurrences) :
    (Building.replaceEqual target r chosen).run.run s =
      (Building.replaceEqual target (.name e.name) chosen).run.run s

namespace ProofState

variable {s : ProofState} {r : Reference} {e : Entry}

/-- A reference means what its name means. -/
theorem Means.of_resolve (hr : (Building.resolve r).run.run s = (.ok e.name, s))
    (hfind : s.find? e.name = some e) : s.Means r e where
  find? := hfind
  proposition := (run_bind_ok hr).trans (Building.lookup_run hfind)
  bind _ := Building.resolve_bind_run hr (Building.resolve_name_run hfind) _
  rule _ := Building.resolve_bind_run hr (Building.resolve_name_run hfind) _
  condition rule :=
    Building.resolve_bind_resolve_run hr (Building.resolve_name_run hfind) rule _
  target _ _ := Building.resolve_bind_run hr (Building.resolve_name_run hfind) _
  equation target _ :=
    Building.resolve_bind_resolve_run hr (Building.resolve_name_run hfind) target _

/-- Negative numbers count from the newest visible entry. -/
theorem nameAt?_neg (s : ProofState) {k : Nat} (hk : 0 < k) :
    s.nameAt? (-k) = (s.history[k - 1]?).map (·.name) := by
  rw [nameAt?, if_pos (by omega), Int.natAbs_neg, Int.natAbs_natCast]

end ProofState

/-- **Relative references**, up to shadowing. In every state that is reached by calls, the index
`-k` is answered exactly if the history has at least `k` entries. It means the `k`-th of them if
that is not shadowed, and otherwise a more recent one, which shadows it. -/
theorem relative_references {μ : Type} {P : Policy} [P.Permissive] {external : External μ}
    (hP : P.Registrable 0 Prelude.boundedQuantifier) (hexternal : external.LawfulFor P) {h : Host μ}
    (hvisited : h.VisitedFor P external) {k : Nat} (hk : 0 < k) :
    ((∃ e t, (Building.proposition (.relative (-k))).run.run h.bench.state = (.ok e, t)) ↔
      k ≤ h.bench.state.history.length) ∧
    ∀ e, h.bench.state.history[k - 1]? = some e →
      (¬ Shadowed h.bench.state.frames (k - 1) → h.bench.state.Means (.relative (-k)) e) ∧
      (Shadowed h.bench.state.frames (k - 1) → ∃ i e', i < k - 1 ∧
        h.bench.state.history[i]? = some e' ∧ e'.name = e.name ∧
          h.bench.state.Means (.relative (-k)) e') := by
  obtain ⟨-, hdistinct⟩ := hvisited.tidyFor_distinct hP hexternal
  have hresolve := Building.resolve_relative_run (-k) h.bench.state
  rw [ProofState.nameAt?_neg _ hk] at hresolve
  refine ⟨⟨fun ⟨e, t, hrun⟩ ↦ Nat.le_of_not_lt fun hlt ↦ ?_, fun hle ↦ ?_⟩, fun e he ↦ ⟨?_, ?_⟩⟩
  · rw [List.getElem?_eq_none (by omega)] at hresolve
    rw [Building.proposition, run_bind_error hresolve] at hrun
    cases hrun
  · have hlt : k - 1 < h.bench.state.history.length := by omega
    have he := List.getElem?_eq_getElem hlt
    obtain ⟨-, e', -, -, hname, hfind⟩ := ProofState.exists_find?_eq he
    rw [he] at hresolve
    exact ⟨_, _, (run_bind_ok hresolve).trans (Building.lookup_run hfind)⟩
  · intro hshadowed
    rw [he] at hresolve
    exact .of_resolve hresolve (ProofState.find?_eq_of_not_shadowed hdistinct he hshadowed)
  · intro hshadowed
    obtain ⟨i, e', hlt, hi, hname, hfind⟩ := ProofState.exists_find?_of_shadowed he hshadowed
    rw [he, Option.map_some, ← hname] at hresolve
    exact ⟨i, e', hlt, hi, hname, .of_resolve hresolve (hname ▸ hfind)⟩

/-- From inside a deduction, an index that reaches out of it. -/
theorem relative_references_outwards :
    let p := Expression.symbol "p"
    let h := [Call.operate (.suppose (some "outer") p), .operate (.push (some "A")),
      .operate (.suppose (some "inner") (.symbol "q"))].foldl (Host.perform .none)
        (⟨.initial 0 16, ()⟩ : Host Unit)
    h.bench.state.Means (.relative (-2)) ⟨"outer", p, .supposition⟩ := by
  intro p h
  have hvisited : h.VisitedFor (.anywhere {Prelude.boundedQuantifier}) .none := by
    have h : Host.VisitedFor (.anywhere {Prelude.boundedQuantifier}) .none
        (⟨.initial 0 16, ()⟩ : Host Unit) := .bare 0 16 ()
    have h := h.perform (.operate (.suppose (some "outer") p)) trivial
    have h := h.perform (.operate (.push (some "A"))) trivial
    exact h.perform (.operate (.suppose (some "inner") (.symbol "q"))) trivial
  obtain ⟨-, hmeans⟩ := relative_references (Set.mem_singleton _) (External.none_lawfulFor _)
    hvisited Nat.two_pos
  refine (hmeans _ rfl).1 fun hshadowed ↦ ?_
  obtain ⟨j, e', hlt, hj, hname⟩ := hshadowed.exists_lt (e := ⟨"outer", p, .supposition⟩) rfl
  obtain rfl := Nat.lt_one_iff.1 hlt
  cases hj
  exact absurd hname (by decide)

/-- Shadowed entries are misread. Here the second entry from the end is `p`, but the name that it
shares with the first one stands for `q`. -/
theorem exists_misread_index :
    ∃ h : Host Unit, h.VisitedFor (.anywhere {Prelude.boundedQuantifier}) .none ∧
      ∃ e, h.bench.state.history[1]? = some e ∧
        ∃ found, (Building.proposition (.relative (-2))).run.run h.bench.state =
          (.ok found, h.bench.state) ∧ found.alphaEq e.statement = false := by
  have h : Host.VisitedFor (.anywhere {Prelude.boundedQuantifier}) .none
      (⟨.initial 0 16, ()⟩ : Host Unit) := .bare 0 16 ()
  have h := h.perform (.operate (.suppose (some "h") (.symbol "p"))) trivial
  have h := h.perform (.operate (.push (some "A"))) trivial
  have h := h.perform (.operate (.suppose (some "h") (.symbol "q"))) trivial
  exact ⟨_, h, ⟨"h", .symbol "p", .supposition⟩, rfl, .symbol "q", rfl, rfl⟩

/-! ### The search -/

namespace Attempt

variable {μ α β : Type} {x : Session μ}

/-- Whether a computation that ends in a result does so where a postcondition holds. -/
def Ensures (act : Attempt μ α) (x : Session μ) (post : α → Session μ → Prop) : Prop :=
  ∀ a y, act.run.run x = (.ok a, y) → post a y

namespace Ensures

variable {post : α → Session μ → Prop} {post' : β → Session μ → Prop}

theorem pure {a : α} (h : post a x) : Ensures (Pure.pure a : Attempt μ α) x post := by
  intro b y hrun
  cases hrun
  exact h

theorem throw (e : Setback) : Ensures (MonadExcept.throw e : Attempt μ α) x post :=
  fun _ _ hrun ↦ by cases hrun

/-- Answers of attempts follow each other. -/
theorem bind {act : Attempt μ α} {next : α → Attempt μ β} (h : Ensures act x post)
    (hnext : ∀ a y, post a y → Ensures (next a) y post') : Ensures (act >>= next) x post' := by
  intro b z hrun
  rw [run_bind_eq] at hrun
  generalize hact : act.run.run x = reached at hrun
  obtain ⟨⟨e⟩ | ⟨a⟩, y⟩ := reached
  · cases hrun
  · exact hnext a y (h a y hact) b z hrun

theorem trivial (act : Attempt μ α) : Ensures act x fun _ _ ↦ True := fun _ _ _ ↦ .intro

/-- The state may be read in between. -/
theorem proofState_bind {next : ProofState → Attempt μ α} (h : Ensures (next x.state) x post) :
    Ensures (proofState >>= next) x post := h

/-- What is ensured of an answer is ensured of an outcome that is one. -/
theorem outcome {act : Attempt μ α} (h : Ensures act x post) :
    Ensures (Attempt.outcome act) x fun result y ↦ ∀ a, result = .ok a → post a y := by
  intro result y hrun a hresult
  cases hrun
  exact h a _ (Prod.ext hresult rfl)

end Ensures

end Attempt

/-- Whether a name stands for a statement equal to `goal`. -/
def ProofState.StandsFor (s : ProofState) (name : String) (goal : Expression) : Prop :=
  ∃ e, s.get? name = some e ∧ e.alphaEq goal = true

namespace Search

open Attempt

variable {μ : Type} {x : Session μ} {goal : Expression}

/-- Verification names what it verified. -/
theorem verify_eq_conclude (heval : goal.evaluate = .ok true) :
    Building.verify goal = Building.conclude goal (.verification goal true) := by
  unfold Building.verify Inference.verify
  rw [heval]
  rfl

/-- An evaluation answers the name of its conclusion, which was just added. -/
theorem verify_ensures (heval : goal.evaluate = .ok true) (x : Session μ) :
    Ensures (step (Building.verify goal)) x fun n y ↦ y.state.StandsFor n goal := by
  intro n y h
  have hrun := run_of_step_run h
  rw [verify_eq_conclude heval, Building.conclude_run] at hrun
  obtain ⟨hn, hy⟩ := Prod.mk.inj hrun
  obtain rfl := Except.ok.inj hn
  refine ⟨goal, ?_, Expression.alphaEq_iff.2 rfl⟩
  rw [← hy, ProofState.get?, ProofState.find?_eq]
  exact congrArg (Option.map Entry.statement) (List.find?_cons_of_pos
    (beq_self_eq_true (ProofState.generatedName x.state.freeNumber)))

/-- A rule counts only if the name that it answers stands for the goal. -/
theorem tryRules_ensures (run : Rule → Bindings → Attempt μ String) (rules : List Rule)
    (x : Session μ) :
    Ensures (tryRules run goal rules) x fun n y ↦ y.state.StandsFor n goal := by
  induction rules generalizing x with
  | nil => exact .throw _
  | cons rule rest ih =>
    unfold tryRules
    split
    · exact ih x
    · refine .proofState_bind ((Ensures.trivial _).bind fun result y _ ↦ ?_)
      split
      · rename_i name
        refine .proofState_bind ?_
        split
        · rename_i hany
          exact .pure ((Option.any_eq_true _ _).1 hany)
        · exact (Ensures.trivial _).bind fun _ z _ ↦ ih z
      · exact (Ensures.trivial _).bind fun _ z _ ↦ ih z
      · exact (Ensures.trivial _).bind fun _ z _ ↦ .throw _

/-- Counting a search does not change what names stand for. -/
theorem counted_ensures {act : Attempt μ String}
    (h : ∀ y, Ensures act y fun n z ↦ z.state.StandsFor n goal) (x : Session μ) :
    Ensures (counted act) x fun n y ↦ y.state.StandsFor n goal := by
  refine (Ensures.trivial _).bind fun _ y _ ↦ (h y).outcome.bind fun result z hz ↦ ?_
  cases result with
  | error e => exact (Ensures.trivial _).bind fun _ _ _ ↦ .throw e
  | ok n =>
    intro m w hrun
    cases hrun
    exact hz n rfl

/-- What is known is answered at once. -/
theorem prove_run_of_recall? {external : External μ} {n : String}
    (h : x.state.«recall?» goal = some n) : (prove external goal).run.run x = (.ok n, x) := by
  have hprove : (prove external goal).run.run x = (proveAt external
      (max x.state.searchLimit external.reach - x.state.searching) goal).run.run x := rfl
  rw [hprove]
  unfold proveAt
  rw [proofState_bind_run, h]
  rfl

/-- What is answered stands for the goal, unless it was known and its name is used again. -/
theorem proveAt_ensures (external : External μ) (levels : Nat) (x : Session μ) :
    Ensures (proveAt external levels goal) x fun n y ↦
      y.state.StandsFor n goal ∨ y = x ∧ x.state.«recall?» goal = some n := by
  unfold proveAt
  refine .proofState_bind ?_
  split
  · rename_i n hrecall
    exact .pure (.inr ⟨rfl, hrecall⟩)
  · split
    · rename_i heval
      rw [if_pos rfl]
      exact fun n y h ↦ .inl (verify_ensures heval x n y h)
    · rw [if_neg Bool.false_ne_true]
      split
      · exact .throw _
      · cases levels with
        | zero => exact .throw _
        | succ levels =>
          exact fun n y h ↦ .inl (counted_ensures (fun z ↦ tryRules_ensures _ _ z) x n y h)

end Search

/-- What is recalled is the most recent equal entry. If its name means another entry, that one is
not equal. -/
theorem ProofState.exists_of_recall? {s : ProofState} {goal : Expression} {n : String}
    (h : s.«recall?» goal = some n) : ∃ (i : Nat) (e : Entry), s.history[i]? = some e ∧ e.name = n ∧
      e.statement.alphaEq goal = true ∧
        ∀ j e', j < i → s.history[j]? = some e' → e'.statement.alphaEq goal = false := by
  obtain ⟨e, hfind, rfl⟩ := Option.map_eq_some_iff.1 h
  obtain ⟨halpha, i, hi, heq, hbefore⟩ := List.find?_eq_some_iff_getElem.1 hfind
  refine ⟨i, e, heq ▸ List.getElem?_eq_getElem hi, rfl, halpha, fun j e' hlt hj ↦ ?_⟩
  obtain ⟨hj', rfl⟩ := List.getElem?_eq_some_iff.1 hj
  simpa using hbefore j hlt

/-- **What the search answers**, up to shadowing. In every state that is reached by calls, whatever
rules and tactics there are, the name that is answered for a goal stands for a statement equal to
it, except in one case: an equal entry was known, its name is answered, and this entry is
shadowed. Then nothing has happened, and the name does not stand for the goal. -/
theorem prove_answers {μ : Type} {P : Policy} [P.Permissive] {external : External μ}
    (hP : P.Registrable 0 Prelude.boundedQuantifier) (hexternal : external.LawfulFor P) {h : Host μ}
    (hvisited : h.VisitedFor P external) {goal : Expression} {n : String} {y : Session μ}
    (hprove : (Search.prove external goal).run.run ⟨h.bench.state, h.memory⟩ = (.ok n, y)) :
    y.state.StandsFor n goal ∨
      y = ⟨h.bench.state, h.memory⟩ ∧ ¬ y.state.StandsFor n goal ∧
        ∃ i e, h.bench.state.history[i]? = some e ∧ Shadowed h.bench.state.frames i ∧
          e.name = n ∧ e.statement.alphaEq goal = true := by
  obtain ⟨-, hdistinct⟩ := hvisited.tidyFor_distinct hP hexternal
  have hanswer := Search.proveAt_ensures external _ _ n y hprove
  obtain hstands | ⟨rfl, hrecall⟩ := hanswer
  · exact .inl hstands
  · obtain ⟨i, e, hi, rfl, halpha, hbefore⟩ := ProofState.exists_of_recall? hrecall
    by_cases hshadowed : Shadowed h.bench.state.frames i
    · refine .inr ⟨rfl, fun ⟨a, ha, hequal⟩ ↦ ?_, i, e, hi, hshadowed, rfl, halpha⟩
      obtain ⟨j, e', hlt, hj, -, hfind⟩ := ProofState.exists_find?_of_shadowed hi hshadowed
      have hstatement : a = e'.statement := by
        rw [ProofState.get?, hfind] at ha
        exact (Option.some.inj ha).symm
      rw [hstatement, hbefore j e' hlt hj] at hequal
      cases hequal
    · have hfind := ProofState.find?_eq_of_not_shadowed hdistinct hi hshadowed
      exact .inl ⟨e.statement, congrArg (Option.map Entry.statement) hfind, halpha⟩

/-- From inside a deduction, a statement that is known around it. -/
theorem prove_answers_outwards :
    let p := Expression.symbol "p"
    let h := [Call.operate (.suppose (some "outer") p), .operate (.push (some "A"))].foldl
      (Host.perform .none) (Host.start 0 16 ())
    (Search.prove .none p).run.run ⟨h.bench.state, ()⟩ = (.ok "outer", ⟨h.bench.state, ()⟩) ∧
      h.bench.state.StandsFor "outer" p := by
  intro p h
  have hvisited : h.VisitedFor (.anywhere {Prelude.boundedQuantifier}) .none := by
    have h : Host.VisitedFor (.anywhere {Prelude.boundedQuantifier}) .none
        (Host.start 0 16 ()) := .start 0 16 ()
    have h := h.perform (.operate (.suppose (some "outer") p)) trivial
    exact h.perform (.operate (.push (some "A"))) trivial
  have hprove : (Search.prove .none p).run.run ⟨h.bench.state, ()⟩ =
      (.ok "outer", ⟨h.bench.state, ()⟩) := Search.prove_run_of_recall? (by decide +kernel)
  obtain hstands | ⟨-, hnot, -⟩ := prove_answers (Set.mem_singleton _)
    (External.none_lawfulFor _) hvisited hprove
  · exact ⟨hprove, hstands⟩
  · exact absurd ⟨p, rfl, by decide +kernel⟩ hnot

/-- The search is misled by names that are used again. Here `p` is known, but the name that is
answered stands for `q`. -/
theorem exists_misleading_answer :
    ∃ h : Host Unit, h.VisitedFor (.anywhere {Prelude.boundedQuantifier}) .none ∧
      ∃ goal n y, (Search.prove .none goal).run.run ⟨h.bench.state, h.memory⟩ = (.ok n, y) ∧
        ∃ e, y.state.get? n = some e ∧ e.alphaEq goal = false := by
  have h : Host.VisitedFor (.anywhere {Prelude.boundedQuantifier}) .none
      (⟨.initial 0 16, ()⟩ : Host Unit) := .bare 0 16 ()
  have h := h.perform (.operate (.suppose (some "h") (.symbol "p"))) trivial
  have h := h.perform (.operate (.push (some "A"))) trivial
  have h := h.perform (.operate (.suppose (some "h") (.symbol "q"))) trivial
  exact ⟨_, h, .symbol "p", "h", _, Search.prove_run_of_recall? (by decide +kernel), .symbol "q",
    rfl, by decide +kernel⟩

end NaturalDeduction
