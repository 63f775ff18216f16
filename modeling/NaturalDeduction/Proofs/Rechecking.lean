import NaturalDeduction.Proofs.Shadowing

/-!
# Checking proofs again

The justification of an entry names the premises that it was inferred from. Taking the recorded step
again concludes the same statement, as long as its names still mean what they meant. When the entry
was made, they meant the older entries of its deduction and those of the deductions around it, and
these only change by becoming fewer from the newest on. So every entry *retraces*: the step can be
taken again with names that mean older entries (`Entry.Retraces`).

Names are looked up among all entries of a deduction, though, and a newer entry may take a name that
an older one cites from further out. It then captures the citation. Where nothing is captured
(`Entry.Uncaptured`), an entry also *rechecks*: the step can be taken again with names as they are
looked up from its deduction (`rechecks_of_reachable`). Where something is, it may not
(`exists_captured_citation`).

The proofs of a finished deduction are checked in the same way, in the deductions around it.

Main definitions and statements:

* `Entry.retake?`: the recorded step taken again, with names looked up on a stack.
* `Entry.Retraces`, `Entry.Rechecks`: it concludes the same, with the names of older entries, or
  with names as they are looked up now.
* `Entry.Uncaptured`: no newer entry has a name that is cited from further out.
* `Entry.Retraces.rechecks`: the second follows from the first where nothing is captured.
* `Workbench.Reachable.retraced`: every entry of every state that is reached retraces.
-/

namespace NaturalDeduction

/-! ### Taking a step again -/

/-- The statement with a name on a stack of entries. -/
def statementNamed (stack : List (List Entry)) (name : String) : Option Expression :=
  (stack.flatten.find? (·.name == name)).map (·.statement)

/-- What the step concludes that an entry records, if it is taken again: names are looked up on a
stack, and variables are drawn from `n` on. -/
def Entry.retake? (e : Entry) (stack : List (List Entry)) (n : Nat) : Option Expression :=
  match e.justification with
  | .supposition => some e.statement
  | .detachment rule condition => do
    (Inference.detach (← statementNamed stack rule) (← statementNamed stack condition)).toOption
  | .specialization target value => do
    ((Inference.specialize? (← statementNamed stack target) value).run n).1
  | .replacement target replacements chosen =>
    some ((Inference.replacement target replacements chosen).run n).1
  | .verification e holds => do
    let (conclusion, holds') ← (Inference.verify e).toOption
    if holds' = holds then some conclusion else none
  | .deduction d => d.closedTheorem?

/-- Whether taking the step again concludes an equal statement, wherever the counter stands from `n`
on. -/
def Entry.Reproduces (n : Nat) (stack : List (List Entry)) (e : Entry) : Prop :=
  ∀ m, n ≤ m → ∃ result, e.retake? stack m = some result ∧ result.alphaEq e.statement = true

/-- Whether an entry is reproduced with names looked up on a stack. If it comes from a finished
deduction, the entries of that deduction are, with names looked up among the older ones first. -/
inductive Entry.Retraces (n : Nat) : List (List Entry) → Entry → Prop
  | intro {stack : List (List Entry)} {e : Entry} (reproduces : e.Reproduces n stack)
      (inner : ∀ d, e.justification = .deduction d → ∀ e' older, e' :: older <:+ d.entries →
        Retraces n (older :: stack) e') : Retraces n stack e

/-- Whether an entry is reproduced with names looked up on a stack. If it comes from a finished
deduction, the entries of that deduction are, with names looked up among all of them first. -/
inductive Entry.Rechecks (n : Nat) : List (List Entry) → Entry → Prop
  | intro {stack : List (List Entry)} {e : Entry} (reproduces : e.Reproduces n stack)
      (inner : ∀ d, e.justification = .deduction d → ∀ e' ∈ d.entries,
        Rechecks n (d.entries :: stack) e') : Rechecks n stack e

/-! ### Citations -/

/-- The names that a justification mentions itself. -/
def Justification.mentioned : Justification → List String
  | .detachment rule condition => [rule, condition]
  | .specialization target _ => [target]
  | _ => []

/-- Whether an entry cites a name. A finished deduction cites what its entries cite from outside. -/
inductive Entry.Cites : Entry → String → Prop
  | mentioned {e : Entry} {name : String} (h : name ∈ e.justification.mentioned) : Cites e name
  | inner {e e' : Entry} {d : Deduction} {older : List Entry} {name : String}
      (h : e.justification = .deduction d) (he' : e' :: older <:+ d.entries)
      (hcites : Cites e' name) (houtside : ∀ a ∈ older, a.name ≠ name) : Cites e name

/-- Whether neither an entry nor one of the newer ones has a name that the entry cites, and the same
within finished deductions. -/
inductive Entry.Uncaptured : List Entry → Entry → Prop
  | intro {newer : List Entry} {e : Entry} (outer : ∀ a ∈ newer ++ [e], ¬ e.Cites a.name)
      (inner : ∀ d, e.justification = .deduction d → ∀ newer' e' older',
        d.entries = newer' ++ e' :: older' → Uncaptured newer' e') : Uncaptured newer e

variable {n : Nat} {stack stack' : List (List Entry)} {e : Entry}

/-- A step only depends on what the names mean that it mentions. -/
theorem Entry.Reproduces.congr (h : e.Reproduces n stack)
    (hsame : ∀ name ∈ e.justification.mentioned,
      statementNamed stack' name = statementNamed stack name) : e.Reproduces n stack' := by
  intro m hm
  obtain ⟨result, hresult, halpha⟩ := h m hm
  refine ⟨result, ?_, halpha⟩
  rw [← hresult]
  unfold Entry.retake?
  cases hj : e.justification with
  | detachment rule condition =>
    rw [hj] at hsame
    dsimp only
    rw [hsame rule (by simp [Justification.mentioned]),
      hsame condition (by simp [Justification.mentioned])]
  | specialization target value =>
    rw [hj] at hsame
    dsimp only
    rw [hsame target (by simp [Justification.mentioned])]
  | _ => rfl

/-- A name is looked up in the innermost deduction first. -/
theorem statementNamed_cons (es : List Entry) (stack : List (List Entry)) (name : String) :
    statementNamed (es :: stack) name =
      ((es.find? (·.name == name)).map (·.statement)).or (statementNamed stack name) := by
  rw [statementNamed, statementNamed, List.flatten_cons, List.find?_append, Option.map_or]

/-- If neither an entry nor a newer one has a name, looking it up from the whole deduction finds the
same as looking it up from the older entries. -/
theorem statementNamed_eq {newer older : List Entry} {name : String}
    (hnewer : ∀ a ∈ newer ++ [e], a.name ≠ name)
    (houtside : (∀ a ∈ older, a.name ≠ name) →
      statementNamed stack' name = statementNamed stack name) :
    statementNamed ((newer ++ e :: older) :: stack') name =
      statementNamed (older :: stack) name := by
  have hnone : (newer ++ [e]).find? (·.name == name) = none :=
    List.find?_eq_none.2 fun a ha hname ↦ hnewer a ha (beq_iff_eq.1 hname)
  have hfind : (newer ++ e :: older).find? (·.name == name) = older.find? (·.name == name) := by
    rw [List.append_cons, List.find?_append, hnone, Option.none_or]
  rw [statementNamed_cons, statementNamed_cons, hfind]
  cases hfound : older.find? (·.name == name) with
  | some a => rfl
  | none =>
    refine houtside fun a ha hname ↦ ?_
    exact List.find?_eq_none.1 hfound a ha (beq_iff_eq.2 hname)

/-- What retraces rechecks if nothing is captured. -/
theorem Entry.Retraces.rechecks {newer : List Entry} (h : e.Retraces n stack)
    (huncaptured : e.Uncaptured newer)
    (hsame : ∀ name, e.Cites name → statementNamed stack' name = statementNamed stack name) :
    e.Rechecks n stack' := by
  induction h generalizing newer stack' with
  | @intro stack e reproduces inner ih =>
    obtain ⟨-, hinner⟩ := huncaptured
    refine ⟨reproduces.congr fun name hname ↦ hsame name (.mentioned hname), fun d hd e' he' ↦ ?_⟩
    obtain ⟨newer', older', heq⟩ := List.append_of_mem he'
    have hsuffix : e' :: older' <:+ d.entries := ⟨newer', heq.symm⟩
    have huncaptured' := hinner d hd newer' e' older' heq
    refine ih d hd e' older' hsuffix huncaptured' fun name hcites ↦ ?_
    obtain ⟨houter, -⟩ := huncaptured'
    rw [heq]
    refine statementNamed_eq (fun a ha hname ↦ houter a ha (hname ▸ hcites)) fun houtside ↦ ?_
    exact hsame name (.inner hd hsuffix hcites houtside)

/-! ### Everything retraces -/

/-- Counters may move on: what is drawn again has other numbers, and the conclusion is the same up
to bound names. -/
theorem Entry.Retraces.mono {m : Nat} (h : e.Retraces n stack) (hnm : n ≤ m) :
    e.Retraces m stack := by
  induction h with
  | intro reproduces inner ih =>
    exact ⟨fun k hk ↦ reproduces k (Nat.le_trans hnm hk), ih⟩

/-- An entry that does not come from a finished deduction. -/
theorem Entry.Retraces.of_reproduces (h : e.Reproduces n stack)
    (hj : ∀ d, e.justification ≠ .deduction d) : e.Retraces n stack :=
  ⟨h, fun d hd ↦ absurd hd (hj d)⟩

/-- Whether every entry on a stack retraces. -/
def Retraced (n : Nat) : List (List Entry) → Prop
  | [] => True
  | es :: outer => (∀ e older, e :: older <:+ es → e.Retraces n (older :: outer)) ∧ Retraced n outer

namespace Retraced

variable {es : List Entry}

/-- The same for all entries of a stack. -/
theorem mono {m : Nat} (h : Retraced n stack) (hnm : n ≤ m) : Retraced m stack := by
  induction stack with
  | nil => trivial
  | cons es outer ih => exact ⟨fun e older he ↦ (h.1 e older he).mono hnm, ih h.2⟩

/-- Forgetting inner deductions leaves the outer ones as they were. -/
theorem of_append {inner : List (List Entry)} (h : Retraced n (inner ++ stack)) :
    Retraced n stack := by
  induction inner with
  | nil => exact h
  | cons es rest ih => exact ih h.2

/-- A new deduction has no entries. -/
theorem push (h : Retraced n stack) : Retraced n ([] :: stack) := by
  refine ⟨fun e older he ↦ ?_, h⟩
  cases List.suffix_nil.1 he

/-- An entry that retraces is added to entries that do. -/
theorem add (h : Retraced n (es :: stack)) (he : e.Retraces n (es :: stack)) :
    Retraced n ((e :: es) :: stack) := by
  refine ⟨fun e' older hsuffix ↦ ?_, h.2⟩
  rcases List.suffix_cons_iff.1 hsuffix with heq | hsuffix
  · obtain ⟨rfl, rfl⟩ := List.cons.inj heq
    exact he
  · exact h.1 e' older hsuffix

/-- Entries that were made earlier do not depend on later ones. -/
theorem drop (h : Retraced n (es :: stack)) (k : Nat) : Retraced n (es.drop k :: stack) :=
  ⟨fun e older he ↦ h.1 e older (he.trans (List.drop_suffix k es)), h.2⟩

end Retraced

/-! ### Inferences can be taken again -/

namespace Inference

/-- A specialization concludes the same again. -/
theorem specialize?_again {statement value c : Expression} {k m : Nat}
    (hstatement : statement.Below k) (hvalue : value.Below k) (hkm : k ≤ m)
    (h : ((specialize? statement value).run k).1 = some c) :
    ∃ c', ((specialize? statement value).run m).1 = some c' ∧ c'.alphaEq c = true := by
  obtain ⟨-, hresult⟩ := specialize?_draws hstatement hvalue
  obtain ⟨-, v, body, rfl, hform⟩ := hresult c h
  obtain ⟨-, hresult'⟩ := specialize?_draws (hstatement.mono hkm) (hvalue.mono hkm)
  obtain ⟨c', hc'⟩ : ∃ c', ((specialize? (.binder .universal v body) value).run m).1 = some c' :=
    ⟨_, rfl⟩
  obtain ⟨-, w, body', hbinder, hform'⟩ := hresult' c' hc'
  cases hbinder
  exact ⟨c', hc', Expression.alphaEq_iff.2 (hform'.trans hform.symm)⟩

/-- A replacement concludes the same again. -/
theorem replacement_again {target : Expression} {replacements : List Replacement} {k m : Nat}
    (htarget : target.Below k) (hbelow : ∀ r ∈ replacements, r.Below k) (hkm : k ≤ m)
    (chosen : Occurrences) :
    ((replacement target replacements chosen).run m).1.alphaEq
      ((replacement target replacements chosen).run k).1 = true := by
  obtain ⟨-, -, result, heq, hform⟩ := replacement_draws htarget hbelow chosen
  obtain ⟨-, -, result', heq', hform'⟩ := replacement_draws (htarget.mono hkm)
    (fun r hr ↦ (hbelow r hr).mono hkm) chosen
  rw [heq, heq', Expression.alphaEq_iff]
  exact congrArg (Nameless.equals _) (hform'.trans hform.symm)

end Inference

/-! ### Operations

Whatever adds entries that retrace keeps a state in which all entries do. So an operation is
followed to the entry that it adds, together with the premises that it looked up on the way.
-/

/-- Whether every entry of a state retraces, with the counter from `n` on. -/
def ProofState.Retraced (n : Nat) (s : ProofState) : Prop :=
  NaturalDeduction.Retraced n (stackOf s.frames)

/-- Whether a computation that starts where every entry retraces ends in such a state. -/
def KeepsRetraced {σ ε α : Type} [Proving σ] (n : Nat) (act : ExceptT ε (StateM σ) α) (x : σ) :
    Prop :=
  (Proving.state x).Retraced n → (Proving.state (act.run.run x).2).Retraced n

namespace KeepsRetraced

variable {σ ε α β : Type} [Proving σ] {x : σ}

theorem pure (a : α) : KeepsRetraced n (Pure.pure a : ExceptT ε (StateM σ) α) x := id

theorem throw (e : ε) : KeepsRetraced n (MonadExcept.throw e : ExceptT ε (StateM σ) α) x := id

theorem throw_bind {next : α → ExceptT ε (StateM σ) β} (e : ε) :
    KeepsRetraced n (MonadExcept.throw e >>= next) x := id

theorem get_bind {next : σ → ExceptT ε (StateM σ) β} (h : KeepsRetraced n (next x) x) :
    KeepsRetraced n (MonadState.get >>= next) x := h

theorem of_modify {f : σ → σ}
    (h : (Proving.state x).Retraced n → (Proving.state (f x)).Retraced n) :
    KeepsRetraced n (modify f : ExceptT ε (StateM σ) PUnit) x := h

theorem bind {act : ExceptT ε (StateM σ) α} {next : α → ExceptT ε (StateM σ) β}
    (h : KeepsRetraced n act x) (hnext : ∀ a y, KeepsRetraced n (next a) y) :
    KeepsRetraced n (act >>= next) x := by
  intro hx
  have hact := h hx
  rw [run_bind_eq]
  revert hact
  rcases act.run.run x with ⟨⟨e⟩ | ⟨a⟩, y⟩ <;> intro hact
  · exact hact
  · exact hnext a y hact

/-- A refusal that is caught keeps what came before it. -/
theorem tryCatch {act : ExceptT ε (StateM σ) α} {handle : ε → ExceptT ε (StateM σ) α}
    (h : KeepsRetraced n act x) (hhandle : ∀ e y, KeepsRetraced n (handle e) y) :
    KeepsRetraced n (MonadExcept.tryCatch act handle) x := by
  intro hx
  have hact := h hx
  rw [run_tryCatch_eq]
  revert hact
  rcases act.run.run x with ⟨⟨e⟩ | ⟨a⟩, y⟩ <;> intro hact
  · exact hhandle e y hact
  · exact hact

end KeepsRetraced

namespace Building

variable {s : ProofState} {P : Policy}

theorem draw_keepsRetraced {α : Type} (f : Fresh α) (s : ProofState) :
    KeepsRetraced n (draw f) s := id

/-- Names are made up without adding an entry. -/
theorem nameOrFresh_keepsRetraced (name : Option String) (s : ProofState) :
    KeepsRetraced n (nameOrFresh name) s := by
  cases name <;> exact id

/-- What is added has to retrace where it is added. -/
theorem install_keepsRetraced {name : String} {statement : Expression} {j : Justification}
    (h : Entry.Retraces n (stackOf s.frames) ⟨name, statement, j⟩) :
    KeepsRetraced n (install name statement j) s := by
  intro hs
  obtain ⟨-, hrun⟩ | hrun := install_run name statement j s
  · rw [hrun]
    exact hs.add h
  · rw [hrun]
    exact hs

/-- A conclusion retraces if its inference does, under whatever name it gets. -/
theorem conclude_keepsRetraced {statement : Expression} {j : Justification}
    (h : ∀ name, Entry.Retraces n (stackOf s.frames) ⟨name, statement, j⟩) :
    KeepsRetraced n (conclude statement j) s :=
  fun hs ↦ install_keepsRetraced (s := { s with nextName := s.freeNumber + 1 }) (h _) hs

/-- A supposition cites nothing. -/
theorem suppose_keepsRetraced (name : Option String) (statement : Expression) (s : ProofState) :
    KeepsRetraced n (suppose name statement) s := by
  refine (nameOrFresh_keepsRetraced name s).bind fun name s' ↦ install_keepsRetraced ?_
  refine .of_reproduces (fun m _ ↦ ?_) nofun
  exact ⟨statement, rfl, Expression.alphaEq_iff.2 rfl⟩

theorem retraced_addParameter {v : Variable} (h : s.Retraced n) :
    (s.mapDeduction (·.addParameter v)).Retraced n := by
  have hstack : stackOf (s.mapDeduction (·.addParameter v)).frames = stackOf s.frames :=
    congrArg (· :: stackOf s.enclosing) (s.current.deduction.entries_addParameter v)
  rw [ProofState.Retraced, hstack]
  exact h

theorem addParameter_keepsRetraced (v : Variable) (s : ProofState) :
    KeepsRetraced n (addParameter v) s := by
  unfold addParameter
  refine .get_bind ?_
  split
  · exact .throw _
  · exact .throw _
  · exact fun hs ↦ retraced_addParameter hs

/-! The premises of an inference are looked up by the names that it records. -/

/-- What a name stands for is found by going through the open deductions. -/
theorem get?_eq_statementNamed (s : ProofState) (name : String) :
    s.get? name = statementNamed (stackOf s.frames) name := by
  rw [ProofState.get?, ProofState.find?_eq, statementNamed, stackOf, ← List.flatMap_def]
  rfl

/-- So a premise that was found is the one that is found again. -/
theorem statementNamed_of_find? {name : String} {premise : Entry}
    (h : s.find? name = some premise) :
    statementNamed (stackOf s.frames) name = some premise.statement := by
  rw [← get?_eq_statementNamed, ProofState.get?, h]
  rfl

/-- A computation on the entry that a name means. -/
theorem lookup_bind_keepsRetraced {α : Type} {name : String} {next : Expression → Building α}
    (h : ∀ premise, s.find? name = some premise → KeepsRetraced n (next premise.statement) s) :
    KeepsRetraced n (lookup name >>= next) s := by
  intro hs
  cases hfind : s.find? name with
  | none =>
    rw [run_bind_error (lookup_run_error hfind)]
    exact hs
  | some premise =>
    rw [run_bind_ok (lookup_run hfind)]
    exact h premise hfind hs

/-- References are names by the time they are recorded. -/
theorem resolve_bind_keepsRetraced {α : Type} {r : Reference} {next : String → Building α}
    (h : ∀ name, KeepsRetraced n (next name) s) : KeepsRetraced n (resolve r >>= next) s := by
  intro hs
  obtain ⟨⟨refusal⟩ | ⟨name⟩, hrun⟩ := exists_resolve_run r s
  · rw [run_bind_error hrun]
    exact hs
  · rw [run_bind_ok hrun]
    exact h name hs

/-- What is visible mentions only variables below the counter. -/
theorem below_of_find? {name : String} {premise : Entry} (hs : s.TidyFor P)
    (h : s.find? name = some premise) : premise.statement.Below s.nextVariable :=
  below_of_mem_visible hs (mem_visible_of_get? (congrArg (Option.map Entry.statement) h))

/-- An instance can be taken again, with the same value. -/
theorem bind_keepsRetraced (hs : s.TidyFor P) (target : Reference) {value : Expression}
    (hvalue : value.Below s.nextVariable) (hn : s.nextVariable ≤ n) :
    KeepsRetraced n (bind target value) s := by
  refine resolve_bind_keepsRetraced fun name ↦ lookup_bind_keepsRetraced fun premise hfind ↦ ?_
  intro hretraced
  rw [run_bind_ok (draw_run _ s)]
  cases hdrawn : ((Inference.specialize? premise.statement value).run s.nextVariable).1 with
  | none => exact hretraced
  | some c =>
    refine conclude_keepsRetraced (fun name' ↦ .of_reproduces (fun m hm ↦ ?_) nofun) hretraced
    obtain ⟨c', hc', halpha⟩ := Inference.specialize?_again (below_of_find? hs hfind) hvalue
      (Nat.le_trans hn hm) hdrawn
    refine ⟨c', ?_, halpha⟩
    show (statementNamed (stackOf s.frames) name).bind _ = some c'
    rw [statementNamed_of_find? hfind]
    exact hc'

theorem apply_keepsRetraced (rule condition : Reference) (s : ProofState) :
    KeepsRetraced n (apply rule condition) s := by
  refine resolve_bind_keepsRetraced fun rule ↦ resolve_bind_keepsRetraced fun condition ↦ ?_
  refine lookup_bind_keepsRetraced fun major hmajor ↦ ?_
  refine lookup_bind_keepsRetraced fun minor hminor ↦ ?_
  cases hdetach : Inference.detach major.statement minor.statement with
  | error e => cases e <;> exact .throw _
  | ok conclusion =>
    refine conclude_keepsRetraced fun name ↦ .of_reproduces (fun m _ ↦ ?_) nofun
    refine ⟨conclusion, ?_, Expression.alphaEq_iff.2 rfl⟩
    show (statementNamed (stackOf s.frames) rule).bind _ = some conclusion
    rw [statementNamed_of_find? hmajor]
    show (statementNamed (stackOf s.frames) condition).bind _ = some conclusion
    rw [statementNamed_of_find? hminor]
    exact congrArg Except.toOption hdetach

/-- A replacement can be taken again, with the same target and pairs. -/
theorem substitute_keepsRetraced {target : Expression} {replacements : List Replacement}
    (htarget : target.Below s.nextVariable) (hbelow : ∀ r ∈ replacements, r.Below s.nextVariable)
    (chosen : Occurrences) (hn : s.nextVariable ≤ n) :
    KeepsRetraced n (substitute target replacements chosen) s := by
  intro hretraced
  rw [Building.substitute_run]
  refine conclude_keepsRetraced (fun name ↦ .of_reproduces (fun m hm ↦ ?_) nofun) hretraced
  refine ⟨_, rfl, ?_⟩
  exact Inference.replacement_again htarget hbelow (Nat.le_trans hn hm) chosen

theorem verify_keepsRetraced (e : Expression) (s : ProofState) :
    KeepsRetraced n (verify e) s := by
  unfold verify
  cases hverify : Inference.verify e with
  | error error => exact .throw _
  | ok verdict =>
    refine conclude_keepsRetraced fun name ↦ .of_reproduces (fun m _ ↦ ?_) nofun
    refine ⟨verdict.1, ?_, Expression.alphaEq_iff.2 rfl⟩
    show ((Inference.verify e).toOption.bind _) = some verdict.1
    rw [hverify]
    exact if_pos rfl

/-! Deductions are closed with entries that retrace, so what they become does. -/

/-- A deduction is opened without entries. -/
theorem push_keepsRetraced (name : Option String) (s : ProofState) :
    KeepsRetraced n (push name) s :=
  (nameOrFresh_keepsRetraced name s).bind fun _ _ hs ↦ hs.push

/-- When it is left, the frames around it are as they were. -/
theorem retraced_outside {f : Frame} {rest : List Frame} (hs : s.Retraced n)
    (h : s.enclosing = f :: rest) : (s.outside f rest).Retraced n := by
  rw [ProofState.Retraced, ProofState.frames, h] at hs
  exact hs.2

/-- Leaving adds nothing. -/
theorem pop_keepsRetraced (s : ProofState) : KeepsRetraced n pop s := by
  intro hs
  rw [pop_run]
  split
  · exact hs
  · rename_i f rest h
    exact retraced_outside hs h

/-- Reading the theorem off adds nothing either. -/
theorem currentTheorem_keepsRetraced (s : ProofState) : KeepsRetraced n currentTheorem s := by
  intro hs
  rw [currentTheorem_run]
  split <;> exact hs

/-- The entry that closing adds carries its proof: the entries of the deduction, which retrace. -/
theorem close_keepsRetraced (name : Option String) (s : ProofState) :
    KeepsRetraced n (close name) s := by
  intro hs
  rw [close_run]
  split
  · exact hs
  · exact hs
  · rename_i f rest statement h htheorem
    refine install_keepsRetraced ⟨fun m _ ↦ ?_, fun d hd e older he ↦ ?_⟩ (retraced_outside hs h)
    · exact ⟨statement, htheorem, Expression.alphaEq_iff.2 rfl⟩
    · cases hd
      have hs : NaturalDeduction.Retraced n (stackOf (s.current :: s.enclosing)) := hs
      rw [h] at hs
      exact hs.1 e older he

theorem retraced_truncate (hs : s.Retraced n) (depth : Nat) : (s.truncate depth).Retraced n := by
  unfold ProofState.truncate
  split
  · exact hs
  · rename_i f rest h
    have hsplit := List.take_append_drop (s.depth - max depth 1) s.frames
    rw [h] at hsplit
    rw [ProofState.Retraced, ← hsplit, stackOf, List.map_append] at hs
    exact hs.of_append

/-- Undoing forgets the newest entries, which no other cites. -/
theorem retraced_rollback (hs : s.Retraced n) (c : Checkpoint) : (s.rollback c).Retraced n :=
  (retraced_truncate hs c.depth).drop _

/-- Closing by depth, whatever it comes to. -/
theorem closing_keepsRetraced {α : Type} {act : Building α} (depth : Nat) (s : ProofState)
    (h : ∀ s', KeepsRetraced n act s') : KeepsRetraced n (closing depth act) s := by
  have htruncate : ∀ depth (s : ProofState),
      KeepsRetraced n (modify (·.truncate depth) : Building PUnit) s :=
    fun depth _ hs ↦ retraced_truncate hs depth
  refine (htruncate depth s).bind fun _ s' ↦ (h s').tryCatch fun refusal s'' ↦ ?_
  exact (htruncate (depth - 1) s'').bind fun _ _ ↦ .throw refusal

end Building

namespace Goal

/-- What a step of construction keeps, it keeps beside a goal. -/
theorem step_keepsRetraced {α : Type} {act : Building α} {x : Goal × ProofState}
    (h : KeepsRetraced n act x.2) : KeepsRetraced n (step act) x := h

/-- Introductions add suppositions and parameters. -/
theorem introduce_keepsRetraced (name : Option String) (x : Goal × ProofState) :
    KeepsRetraced n (introduce name) x := by
  unfold introduce
  refine .get_bind ?_
  dsimp only
  split
  · exact .throw_bind _
  · split
    · refine (step_keepsRetraced (Building.draw_keepsRetraced _ _)).bind fun w y ↦ ?_
      refine (step_keepsRetraced (Building.draw_keepsRetraced _ _)).bind fun body z ↦ ?_
      refine (step_keepsRetraced (Building.addParameter_keepsRetraced w z.2)).bind fun _ u ↦ ?_
      exact (KeepsRetraced.of_modify id).bind fun _ _ ↦ .pure _
    · refine (step_keepsRetraced (Building.suppose_keepsRetraced name _ _)).bind fun name y ↦ ?_
      exact (KeepsRetraced.of_modify id).bind fun _ _ ↦ .pure _
    · exact .pure _

theorem introsWithin_keepsRetraced (budget : Nat) (x : Goal × ProofState) :
    KeepsRetraced n (introsWithin budget) x := by
  induction budget generalizing x with
  | zero => exact .pure _
  | succ budget ih =>
    unfold introsWithin
    refine (introduce_keepsRetraced none x).bind fun introduction y ↦ ?_
    cases introduction with
    | done => exact .pure _
    | parameter | hypothesis => exact (ih y).bind fun _ _ ↦ .pure _

theorem intros_keepsRetraced (x : Goal × ProofState) : KeepsRetraced n intros x :=
  .get_bind (introsWithin_keepsRetraced _ x)

/-- Concluding a goal closes its deduction. -/
theorem conclude_keepsRetraced (g : Goal) (s : ProofState) : KeepsRetraced n (conclude g) s := by
  unfold conclude
  dsimp only
  split
  · exact .throw_bind _
  · refine Building.closing_keepsRetraced g.depth s fun s' ↦ ?_
    refine (Building.currentTheorem_keepsRetraced s').bind fun actual s'' ↦ ?_
    split
    · exact .throw_bind _
    · exact Building.close_keepsRetraced g.name s''

end Goal

namespace Workbench

variable {w : Workbench}

/-- Work on one of several goals keeps the entries of the state that they share. -/
theorem work_retraced {α : Type} {act : GoalBuilding α} (hw : w.state.Retraced n) (place : Nat)
    (h : ∀ x, KeepsRetraced n act x) : (w.work place act).state.Retraced n := by
  unfold work
  split
  · exact hw
  · exact h (_, w.state) hw

/-- An operation adds only what can be taken again from where the counter stands. -/
theorem perform_retraced (hsound : w.Sound true) {operation : Operation}
    (hbelow : operation.Below w.state.nextVariable)
    (hw : w.state.Retraced w.state.nextVariable) :
    (w.perform operation).state.Retraced w.state.nextVariable := by
  have htidy := hsound.tidyFor.state
  cases operation with
  | draw hint => exact hw
  | suppose name statement => exact Building.suppose_keepsRetraced name statement w.state hw
  | newParameter hint => exact Building.retraced_addParameter hw
  | bind target value =>
    exact Building.bind_keepsRetraced htidy target hbelow (Nat.le_refl _) hw
  | apply rule condition => exact Building.apply_keepsRetraced rule condition w.state hw
  | substitute target replacements chosen =>
    exact Building.substitute_keepsRetraced hbelow.1 hbelow.2 chosen (Nat.le_refl _) hw
  | verify statement => exact Building.verify_keepsRetraced statement w.state hw
  | push name => exact Building.push_keepsRetraced name w.state hw
  | pop => exact Building.pop_keepsRetraced w.state hw
  | truncate depth => exact Building.retraced_truncate hw depth
  | close name => exact Building.close_keepsRetraced name w.state hw
  | checkpoint => exact hw
  | rollback place =>
    unfold perform
    dsimp only
    split
    · exact hw
    · exact Building.retraced_rollback hw _
  | startGoal name statement =>
    have hstart : KeepsRetraced w.state.nextVariable (Goal.start name statement) w.state :=
      (Building.push_keepsRetraced name w.state).bind fun _ _ ↦ .pure _
    have hreached := hstart hw
    unfold perform
    dsimp only
    split <;> rename_i hrun <;> rw [hrun] at hreached <;> exact hreached
  | introduce place name => exact work_retraced hw place (Goal.introduce_keepsRetraced name)
  | intros place => exact work_retraced hw place Goal.intros_keepsRetraced
  | concludeGoal place =>
    unfold perform
    dsimp only
    split
    · exact hw
    · exact Goal.conclude_keepsRetraced _ w.state hw

/-- The invariant of all workbenches that are reached. -/
theorem Reachable.retraced (h : w.Reachable) : w.state.Retraced w.state.nextVariable := by
  induction h with
  | initial nextVariable searchLimit => exact Retraced.push trivial
  | perform hreachable operation hbelow ih =>
    have hsound : Sound true _ := hreachable.sound
    have hmoves := (hsound.tidyFor.perform hbelow).moves
    exact (perform_retraced hsound hbelow ih).mono hmoves.nextVariable_le

end Workbench

/-! ### The theorem -/

/-- **Stored proofs recheck**, up to capture. In every state that operations reach from a new one,
each step that an entry records can be taken again and concludes an equal statement, with names that
mean what is older, and so can the steps in the finished deductions that it comes from. The same
holds with names that are looked up from its deduction, if neither the entry nor a newer one has a
name that the entry cites. -/
theorem rechecks_of_reachable {w : Workbench} (h : w.Reachable) {inner outer : List Frame}
    {f : Frame} (hframes : w.state.frames = inner ++ f :: outer) {newer older : List Entry}
    {e : Entry} (hentries : f.deduction.entries = newer ++ e :: older) :
    e.Retraces w.state.nextVariable (older :: stackOf outer) ∧
      (e.Uncaptured newer → e.Rechecks w.state.nextVariable (stackOf (f :: outer))) := by
  have hretraced := h.retraced
  rw [ProofState.Retraced, hframes, stackOf, List.map_append] at hretraced
  have he := hretraced.of_append.1 e older ⟨newer, hentries.symm⟩
  refine ⟨he, fun huncaptured ↦ he.rechecks huncaptured fun name hcites ↦ ?_⟩
  obtain ⟨houter, -⟩ := huncaptured
  show statementNamed (f.deduction.entries :: stackOf outer) name = _
  rw [hentries]
  exact statementNamed_eq (fun a ha hname ↦ houter a ha (hname ▸ hcites)) fun _ ↦ rfl

/-- A deduction that specializes a statement from around it, closed again. -/
theorem rechecks_closed_specialization :
    let all := Expression.all ⟨"x", 0⟩ (.call "P" [.var ⟨"x", 0⟩])
    let w := [.suppose (some "all") all, .push (some "A"), .bind (.name "all") (.symbol "c"),
      .close none].foldl Workbench.perform (.initial 1 16)
    ∃ e d, w.state.current.deduction.entries = [e, ⟨"all", all, .supposition⟩] ∧
      e.justification = .deduction d ∧ e.Uncaptured [] ∧
        e.Rechecks w.state.nextVariable (stackOf w.state.frames) := by
  intro all w
  have hall : all.Below 1 := ⟨Nat.one_pos, trivial, Nat.one_pos, trivial⟩
  have hw : w.Reachable := by
    have h := (Workbench.Reachable.initial 1 16).perform (.suppose (some "all") all) hall
    have h := h.perform (.push (some "A")) trivial
    have h := h.perform (.bind (.name "all") (.symbol "c")) trivial
    exact h.perform (.close none) trivial
  obtain ⟨statement, name, c, hname, hentries⟩ : ∃ statement name c, name ≠ "all" ∧
      w.state.current.deduction.entries =
        [⟨"A", statement, .deduction ⟨"A", [], [⟨name, c, .specialization "all" (.symbol "c")⟩]⟩⟩,
          ⟨"all", all, .supposition⟩] :=
    ⟨_, ProofState.generatedName 0, _, by decide, rfl⟩
  -- the specialization cites only the statement around it, and so does the deduction
  have hcites : ∀ cited, Entry.Cites ⟨name, c, .specialization "all" (.symbol "c")⟩ cited →
      cited = "all" := by
    intro cited h
    cases h with
    | mentioned h => exact List.mem_singleton.1 h
    | inner h => cases h
  have huncaptured : Entry.Uncaptured [] ⟨"A", statement,
      .deduction ⟨"A", [], [⟨name, c, .specialization "all" (.symbol "c")⟩]⟩⟩ := by
    refine ⟨fun a ha h ↦ ?_, fun d hd newer' e' older' heq ↦ ?_⟩
    · obtain rfl := List.mem_singleton.1 ha
      cases h with
      | mentioned h => cases h
      | inner h he' h' =>
        cases h
        rcases List.suffix_cons_iff.1 he' with heq | hnil
        · obtain ⟨rfl, rfl⟩ := List.cons.inj heq
          have hall : "A" = "all" := hcites _ h'
          exact absurd hall (by decide)
        · cases List.suffix_nil.1 hnil
    · cases hd
      obtain ⟨rfl, rfl, rfl⟩ : newer' = [] ∧
          e' = ⟨name, c, .specialization "all" (.symbol "c")⟩ ∧ older' = [] := by
        simpa [List.cons_eq_append_iff] using heq
      refine ⟨fun a ha h ↦ ?_, nofun⟩
      obtain rfl := List.mem_singleton.1 ha
      exact hname (hcites _ h)
  have hframes : w.state.frames = [] ++ w.state.current :: w.state.enclosing := rfl
  obtain ⟨-, hrechecks⟩ :=
    rechecks_of_reachable hw hframes (hentries.trans (List.nil_append _).symm)
  exact ⟨_, _, hentries, rfl, huncaptured, hrechecks huncaptured⟩

/-- Citations can be captured. Here a specialization of the outer `all` is recorded, and then an
inner deduction supposes something else under that name. -/
theorem exists_captured_citation :
    ∃ w : Workbench, w.Reachable ∧ ∃ inner f outer, w.state.frames = inner ++ f :: outer ∧
      ∃ e ∈ f.deduction.entries, ¬ e.Rechecks w.state.nextVariable (stackOf (f :: outer)) := by
  let all := Expression.all ⟨"x", 0⟩ (.call "P" [.var ⟨"x", 0⟩])
  have hall : all.Below 1 := ⟨Nat.one_pos, trivial, Nat.one_pos, trivial⟩
  have h := (Workbench.Reachable.initial 1 16).perform (.suppose (some "all") all) hall
  have h := h.perform (.push (some "A")) trivial
  have h := h.perform (.bind (.name "all") (.symbol "c")) trivial
  have h := h.perform (.suppose (some "all") (.symbol "q")) trivial
  refine ⟨_, h, [], _, _, rfl, _, List.mem_cons_of_mem _ List.mem_cons_self, fun hrechecks ↦ ?_⟩
  obtain ⟨hreproduces, -⟩ := hrechecks
  obtain ⟨result, hresult, -⟩ := hreproduces _ (Nat.le_refl _)
  cases hresult

end NaturalDeduction
