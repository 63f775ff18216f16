import NaturalDeduction.ProofState.Goal
import NaturalDeduction.Proofs.Acts

/-!
# Construction acts by moves

Each way to add to a proof state acts by moves (`Policy.Acts`): supposing, taking parameters, the
four inferences, opening and closing deductions, and the peeling and concluding of goals. A refused
computation acts by moves like any other, since the state that it has reached is kept.

Expressions that are given from outside have to be below the counter; and so is every expression
that the computations themselves come up with.

Main statements: `Building.bind_acts` and its siblings, `Goal.introduce_acts`, `Goal.intros_acts`
and `Goal.conclude_acts`.

Each proof has two parts. What is run is followed by the rules of `Policy.Acts`, and at the end
stands a move with its conditions: the name is free since `install` looks, the statement is inferred
since the inference returned it, and the parameter is new since it was drawn or since its obstacles
were looked for.
-/

namespace NaturalDeduction

/-! ### Conclusions of inferences -/

namespace Expression

/-- What results from replacing is below the counter that it leaves, and its nameless form is known.
-/
theorem substitute_draws {target : Expression} {replacements : List Replacement} {n : Nat}
    (htarget : target.Below n) (hbelow : ∀ r ∈ replacements, r.Below n) (chosen : Occurrences) :
    (target.substitute replacements chosen).Draws n fun result m ↦ result.Below m ∧
      result.nameless =
        (target.nameless.replace chosen (replacements.map Replacement.forms) 0).1 := by
  obtain ⟨result, m, hrun, hnm, hresult, hform⟩ := substitute_run htarget hbelow chosen
  exact .of_run hrun hnm ⟨hresult, hform⟩

/-- Putting a value for a variable everywhere opens the binder over the variable. -/
theorem substitute_var_draws {v : Variable} {body value : Expression} {n : Nat} (hv : v.id < n)
    (hbody : body.Below n) (hvalue : value.Below n) :
    (body.substitute [⟨.var v, value⟩] .all).Draws n fun result m ↦ result.Below m ∧
      result.nameless = (body.namelessIn [v.id]).instantiateAt value.nameless 0 := by
  have hbelow : ∀ r ∈ [Replacement.mk (.var v) value], r.Below n := by
    intro r hr
    rw [List.mem_singleton.1 hr]
    exact ⟨hv, hvalue⟩
  refine (substitute_draws hbody hbelow .all).mono fun result m _ h ↦ ⟨h.1, h.2.trans ?_⟩
  exact replace_free_eq_instantiateAt body value.nameless [] v.id 0

/-- A list of indices mentions no variables. -/
theorem ofOccurrences_below (chosen : Occurrences) (n : Nat) : (ofOccurrences chosen).Below n := by
  rw [ofOccurrences, Below, allBelow_iff]
  intro e he
  obtain ⟨i, -, rfl⟩ := List.mem_map.1 he
  trivial

/-- The record of a replacement mentions nothing but target, keys and values. -/
theorem recorded_below {target : Expression} {replacements : List Replacement} {n : Nat}
    (htarget : target.Below n) (hbelow : ∀ r ∈ replacements, r.Below n) (chosen : Occurrences) :
    (target.recorded replacements chosen).Below n := by
  refine ⟨trivial, htarget, ?_, ofOccurrences_below chosen n, trivial⟩
  rw [Below, allBelow_iff]
  intro e he
  obtain ⟨r, hr, rfl⟩ := List.mem_map.1 he
  exact ⟨(hbelow r hr).key, (hbelow r hr).value, trivial⟩

end Expression

namespace Inference

/-- A specialization instantiates the form of the body. -/
theorem specialize?_draws {statement value : Expression} {n : Nat} (hstatement : statement.Below n)
    (hvalue : value.Below n) :
    (specialize? statement value).Draws n fun result m ↦ ∀ c, result = some c → c.Below m ∧
      ∃ v body, statement = .binder .universal v body ∧
        c.nameless = (body.namelessIn [v.id]).instantiateAt value.nameless 0 := by
  unfold specialize?
  split
  · rename_i v body
    have hdraws := Expression.substitute_var_draws hstatement.1 hstatement.2 hvalue
    show (some <$> body.substitute [⟨.var v, value⟩] .all).Draws n _
    rw [map_eq_pure_bind]
    refine hdraws.bind fun result m _ h ↦ .pure fun c hc ↦ ?_
    cases hc
    exact ⟨h.1, v, body, rfl, h.2⟩
  · exact .pure fun c hc ↦ by cases hc

/-- A replacement concludes the equation of its record with the result. -/
theorem replacement_draws {target : Expression} {replacements : List Replacement} {n : Nat}
    (htarget : target.Below n) (hbelow : ∀ r ∈ replacements, r.Below n) (chosen : Occurrences) :
    (replacement target replacements chosen).Draws n fun e m ↦ e.Below m ∧
      ∃ result, e = .equals (target.recorded replacements chosen) result ∧
        result.nameless =
          (target.nameless.replace chosen (replacements.map Replacement.forms) 0).1 := by
  refine (Expression.substitute_draws htarget hbelow chosen).bind fun result m hnm h ↦ ?_
  refine .pure ⟨⟨(Expression.recorded_below htarget hbelow chosen).mono hnm, h.1⟩, result, rfl, h.2⟩

/-- A verdict is the statement or its negation. -/
theorem verdict_below {e : Expression} {n : Nat} (h : e.Below n) (holds : Bool) :
    (verdict e holds).Below n := by
  cases holds with
  | true => exact h
  | false => exact ⟨trivial, h, trivial⟩

end Inference

/-! ### Generated names -/

namespace ProofState

variable {s : ProofState}

/-- Different numbers make different names. -/
theorem generatedName_injective : Function.Injective generatedName := by
  intro m n h
  have hdigits : Nat.toDigits 10 m = Nat.toDigits 10 n := by
    have hrepr : toString m = toString n := (String.append_right_inj "#").1 h
    rw [Nat.toString_eq_ofList_toDigits, Nat.toString_eq_ofList_toDigits] at hrepr
    exact String.ofList_injective hrepr
  rw [← @Nat.ofDigitChars_ten_toDigits m, hdigits, Nat.ofDigitChars_ten_toDigits]

/-- The search for a free number ends with one, if there are no more taken names than steps. -/
theorem taken_firstFree {taken : String → Bool} {budget n : Nat} (names : List String)
    (htaken : ∀ m, n ≤ m → taken (generatedName m) = true → generatedName m ∈ names)
    (hbudget : names.length ≤ budget) :
    taken (generatedName (firstFree taken budget n)) = false := by
  induction budget generalizing names n with
  | zero =>
    have hnames : names = [] := List.eq_nil_of_length_eq_zero (Nat.le_zero.1 hbudget)
    refine Bool.eq_false_iff.2 fun h ↦ ?_
    have hmem := htaken n (Nat.le_refl n) h
    rw [hnames] at hmem
    exact absurd hmem List.not_mem_nil
  | succ budget ih =>
    unfold firstFree
    split
    · rename_i h
      have hmem := htaken n (Nat.le_refl n) h
      -- later numbers have other names, so this one is not needed for them
      refine ih (names.erase (generatedName n)) (fun m hm hm' ↦ ?_) ?_
      · refine (List.mem_erase_of_ne fun hname ↦ ?_).2 (htaken m (Nat.le_of_succ_le hm) hm')
        exact Nat.ne_of_gt hm (generatedName_injective hname)
      · rw [List.length_erase_of_mem hmem]
        omega
    · rename_i h
      exact Bool.eq_false_iff.2 h

/-- No visible entry has the next generated name. -/
theorem find?_generatedName (s : ProofState) : s.find? (generatedName s.freeNumber) = none := by
  have hnone : (s.find? (generatedName s.freeNumber)).isSome = false := by
    have hlength : (s.history.map (·.name)).length ≤ s.history.length :=
      Nat.le_of_eq (List.length_map ..)
    refine @taken_firstFree (fun name ↦ (s.find? name).isSome) _ _ _ (fun m _ hm ↦ ?_) hlength
    obtain ⟨e, he⟩ := Option.isSome_iff_exists.1 hm
    obtain ⟨f, hf, hfind⟩ := List.exists_of_findSome?_eq_some he
    have hname : e.name = generatedName m := by
      have := List.find?_some hfind
      simpa using this
    rw [← hname]
    refine List.mem_map_of_mem (List.mem_flatMap.2 ⟨f, hf, ?_⟩)
    exact List.mem_of_find?_eq_some hfind
  exact Option.isNone_iff_eq_none.1 (by simpa using hnone)

/-- A name that is not visible is in none of the deductions. -/
theorem deduction_find?_of_find? {name : String} {f : Frame} (h : s.find? name = none)
    (hf : f ∈ s.frames) : f.deduction.find? name = none := List.findSome?_eq_none_iff.1 h f hf

/-- A name that is not visible stands for nothing in any of the deductions. -/
theorem deduction_get?_of_find? {name : String} {f : Frame} (h : s.find? name = none)
    (hf : f ∈ s.frames) : f.deduction.get? name = none := by
  rw [Deduction.get?, deduction_find?_of_find? h hf]
  rfl

end ProofState

namespace Building

variable {P : Policy} {s : ProofState}

/-! ### Names and references -/

/-- What a visible name stands for is a visible statement. -/
theorem mem_visible_of_get? {name : String} {e : Expression} (h : s.get? name = some e) :
    e ∈ visible (stackOf s.frames) := by
  obtain ⟨entry, hentry, rfl⟩ := Option.map_eq_some_iff.1 h
  obtain ⟨f, hf, hfind⟩ := List.exists_of_findSome?_eq_some hentry
  refine List.mem_map_of_mem (List.mem_flatten.2 ⟨f.deduction.entries, ?_, ?_⟩)
  · exact List.mem_map_of_mem hf
  · exact List.mem_of_find?_eq_some hfind

/-- In a tidy state, everything visible is below the counter. -/
theorem below_of_mem_visible (hs : s.TidyFor P) {e : Expression}
    (h : e ∈ visible (stackOf s.frames)) :
    e.Below s.nextVariable := by
  obtain ⟨entry, hentry, rfl⟩ := List.mem_map.1 h
  obtain ⟨es, hes, hentry⟩ := List.mem_flatten.1 hentry
  obtain ⟨f, hf, rfl⟩ := List.mem_map.1 hes
  exact (hs.below f hf).statements entry hentry

/-- Looking a name up leaves the state alone and finds a visible statement. -/
theorem lookup_acts (name : String) :
    P.Acts (lookup name) s fun e s' ↦ s' = s ∧ e ∈ visible (stackOf s.frames) := by
  unfold lookup
  refine .get_bind ?_
  cases h : s.get? name with
  | some e => exact .pure ⟨rfl, mem_visible_of_get? h⟩
  | none => exact .throw _

/-- Resolving a reference leaves the state alone. -/
theorem resolve_acts (r : Reference) : P.Acts (resolve r) s fun _ s' ↦ s' = s := by
  unfold resolve
  cases r with
  | name name => exact (lookup_acts name).bind fun _ s' _ h ↦ .pure h.1
  | relative k =>
    refine .get_bind ?_
    cases s.nameAt? k with
    | some name => exact .pure rfl
    | none => exact .throw _

/-- Drawing variables moves the counter and nothing else. -/
theorem draw_acts {α : Type} {f : Fresh α} {post : α → Nat → Prop}
    (h : f.Draws s.nextVariable post) :
    P.Acts (draw f) s fun a s' ↦ ∃ n, s' = { s with nextVariable := n } ∧
      s.nextVariable ≤ n ∧ post a n :=
  .of_modifyGet (.single (.draw h.1)) trivial ⟨_, rfl, h⟩

/-- The search for a free number goes upwards. -/
theorem le_firstFree (taken : String → Bool) (budget n : Nat) :
    n ≤ ProofState.firstFree taken budget n := by
  induction budget generalizing n with
  | zero => exact Nat.le_refl n
  | succ budget ih =>
    unfold ProofState.firstFree
    split
    · exact Nat.le_of_succ_le (ih (n + 1))
    · exact Nat.le_refl n

/-- Generating a name moves the counter of names and nothing else. -/
theorem freshName_acts :
    P.Acts freshName s fun _ s' ↦ ∃ n, s' = { s with nextName := n } := by
  refine .of_modifyGet (.single (.generate ?_)) trivial ⟨_, rfl⟩
  exact Nat.le_succ_of_le (le_firstFree _ _ _)

/-- A name that is given is taken, and otherwise one is generated. -/
theorem nameOrFresh_acts (name : Option String) :
    P.Acts (nameOrFresh name) s fun _ s' ↦ ∃ n, s' = { s with nextName := n } := by
  unfold nameOrFresh
  cases name with
  | some name => exact .pure ⟨s.nextName, rfl⟩
  | none => exact freshName_acts

/-! ### Entries and parameters -/

/-- Inserting either adds the entry or leaves the frame as it is. -/
theorem eq_or_eq_add_of_insert {f : Frame} {d : Deduction} {e : Entry}
    (h : f.deduction.insert e = .ok d) :
    { f with deduction := d } = f ∨
      f.deduction.get? e.name = none ∧ { f with deduction := d } = f.add e := by
  rw [Deduction.insert] at h
  split at h
  · split at h
    · cases h
      exact .inl rfl
    · cases h
  · rename_i hname
    cases h
    exact .inr ⟨hname, rfl⟩

/-- Installing either adds the entry or leaves the state as it is. -/
theorem install_run (name : String) (e : Expression) (j : Justification) (s : ProofState) :
    (s.current.deduction.get? name = none ∧
        (install name e j).run.run s = (.ok name, s.add ⟨name, e, j⟩)) ∨
      ((install name e j).run.run s).2 = s := by
  unfold install
  rw [run_bind_ok (run_get_eq s)]
  cases hinsert : s.current.deduction.insert ⟨name, e, j⟩ with
  | error existing => exact .inr rfl
  | ok d =>
    have hcurrent : s.mapDeduction (fun _ ↦ d) =
        { s with current := { s.current with deduction := d } } := rfl
    show _ ∧ (Except.ok name, s.mapDeduction fun _ ↦ d) = _ ∨ (s.mapDeduction fun _ ↦ d) = s
    rw [hcurrent]
    obtain hd | ⟨hname, hd⟩ := eq_or_eq_add_of_insert hinsert
    · exact .inr (by rw [hd])
    · exact .inl ⟨hname, by rw [hd]; rfl⟩

/-- Under a name that is free, the entry is added. -/
theorem install_run_ok {name : String} (h : s.current.deduction.find? name = none) (e : Expression)
    (j : Justification) : (install name e j).run.run s = (.ok name, s.add ⟨name, e, j⟩) := by
  have hinsert : s.current.deduction.insert ⟨name, e, j⟩ =
      .ok { s.current.deduction with entries := ⟨name, e, j⟩ :: s.current.deduction.entries } := by
    rw [Deduction.insert, Deduction.get?, h]
    rfl
  unfold install
  rw [run_bind_ok (run_get_eq s), hinsert]
  rfl

/-- A conclusion is always added, under a name that was not visible. -/
theorem conclude_run (e : Expression) (j : Justification) (s : ProofState) :
    (conclude e j).run.run s = (.ok (ProofState.generatedName s.freeNumber),
      ({ s with nextName := s.freeNumber + 1 } : ProofState).add
        ⟨ProofState.generatedName s.freeNumber, e, j⟩) := by
  have hname : freshName.run.run s = (.ok (ProofState.generatedName s.freeNumber),
      { s with nextName := s.freeNumber + 1 }) := rfl
  have hfree : s.current.deduction.find? (ProofState.generatedName s.freeNumber) = none :=
    ProofState.deduction_find?_of_find? s.find?_generatedName List.mem_cons_self
  unfold conclude
  rw [run_bind_ok hname]
  exact @install_run_ok { s with nextName := s.freeNumber + 1 } _ hfree e j

/-- Installing acts by moves if adding the entry is a move where the name is free. What is around
stays. -/
theorem install_acts {name : String} {e : Expression} {j : Justification}
    (h : s.current.deduction.get? name = none → Move P s (s.add ⟨name, e, j⟩)) :
    P.Acts (install name e j) s fun _ s' ↦ s'.enclosing = s.enclosing := by
  intro _
  obtain ⟨hname, hrun⟩ | hrun := install_run name e j s
  · rw [hrun]
    exact ⟨.single (h hname), trivial, fun _ _ ↦ rfl⟩
  · rw [hrun]
    exact ⟨.refl, trivial, fun _ _ ↦ rfl⟩

/-- **What the visible statements infer may be concluded.** -/
theorem conclude_acts {e : Expression} {j : Justification} (h : e.Below s.nextVariable)
    (hinfers : Infers (visible (stackOf s.frames)) e j) :
    P.Acts (conclude e j) s fun _ _ ↦ True := by
  refine freshName_acts.bind fun name s' _ hs' ↦ ?_
  obtain ⟨n, rfl⟩ := hs'
  refine (install_acts fun hname ↦ ?_).mono fun _ _ _ ↦ trivial
  exact .infer hname h hinfers

/-- Supposing acts by moves, and leaves what is around alone. -/
theorem suppose_acts {e : Expression} (name : Option String) (h : e.Below s.nextVariable) :
    P.Acts (suppose name e) s fun _ s' ↦ s'.enclosing = s.enclosing := by
  refine (nameOrFresh_acts name).bind fun name s' _ hs' ↦ ?_
  obtain ⟨n, rfl⟩ := hs'
  exact install_acts fun hname ↦ .suppose hname h

/-- A variable that was just drawn is mentioned nowhere. -/
theorem newParameter_acts (hint : String) :
    P.Acts (newParameter hint) s fun v s' ↦ v.id < s'.nextVariable := by
  refine .of_tidy fun ht ↦ ?_
  refine (draw_acts (Variable.fresh_draws hint s.nextVariable)).bind fun v s' _ hs' ↦ ?_
  obtain ⟨n, rfl, -, hid, hlt⟩ := hs'
  have hfree : ∀ e ∈ visible (stackOf s.enclosing), e.occursFree v = false := by
    intro e he
    have hbelow : e.Below s.nextVariable :=
      below_of_mem_visible ht.state (mem_visible_cons.2 (.inr he))
    exact Bool.eq_false_iff.2 fun hv ↦ Nat.lt_irrefl _ (hid ▸ hbelow.lt_of_occursFree hv)
  have hmove : Move P { s with nextVariable := n }
      (({ s with nextVariable := n } : ProofState).mapDeduction (·.addParameter v)) :=
    .parameter hlt hfree
  exact (Policy.Acts.of_modify (.single hmove) trivial hlt).bind fun _ s' _ h ↦ .pure h

/-- A variable without obstacles occurs free in nothing around. -/
theorem occursFree_of_parameterObstacle? {v : Variable} (h : s.parameterObstacle? v = none) :
    ∀ e ∈ visible (stackOf s.enclosing), e.occursFree v = false := by
  intro e he
  obtain ⟨entry, hentry, rfl⟩ := List.mem_map.1 he
  obtain ⟨es, hes, hentry⟩ := List.mem_flatten.1 hentry
  obtain ⟨f, hf, rfl⟩ := List.mem_map.1 hes
  have hobstacle := List.findSome?_eq_none_iff.1 h f (List.mem_reverse.2 hf)
  split at hobstacle
  · cases hobstacle
  · have hfind := Option.map_eq_none_iff.1 hobstacle
    simpa using List.find?_eq_none.1 hfind entry (List.mem_reverse.2 hentry)

/-- Taking a parameter that was there before acts by moves, as its obstacles are looked for. -/
theorem addParameter_acts {v : Variable} (h : v.id < s.nextVariable) :
    P.Acts (addParameter v) s fun _ s' ↦ s'.nextVariable = s.nextVariable := by
  unfold addParameter
  refine .get_bind ?_
  cases hobstacle : s.parameterObstacle? v with
  | some obstacle => cases obstacle <;> exact .throw _
  | none =>
    refine .of_modifyGet (.single (.parameter h ?_)) trivial rfl
    exact occursFree_of_parameterObstacle? hobstacle

/-! ### Inferences -/

/-- Specializing a visible quantification infers its instance. -/
theorem bind_acts (target : Reference) {value : Expression} (h : value.Below s.nextVariable) :
    P.Acts (bind target value) s fun _ _ ↦ True := by
  refine .of_tidy fun ht ↦ (resolve_acts target).bind fun name s' _ hs' ↦ ?_
  subst hs'
  refine (lookup_acts name).bind fun statement s' _ hs' ↦ ?_
  obtain ⟨rfl, hstatement⟩ := hs'
  have hbelow := below_of_mem_visible ht.state hstatement
  refine (draw_acts (Inference.specialize?_draws hbelow h)).bind fun result s'' _ hs'' ↦ ?_
  obtain ⟨n, rfl, -, hresult⟩ := hs''
  cases result with
  | none => exact .throw _
  | some conclusion =>
    obtain ⟨hconclusion, v, body, rfl, hform⟩ := hresult conclusion rfl
    exact conclude_acts hconclusion (.specialization name value hstatement hform)

/-- Applying a visible rule to a visible condition infers its conclusion. -/
theorem apply_acts (rule condition : Reference) :
    P.Acts (apply rule condition) s fun _ _ ↦ True := by
  refine .of_tidy fun ht ↦ (resolve_acts rule).bind fun rule s' _ hs' ↦ ?_
  subst hs'
  refine (resolve_acts condition).bind fun condition s'' _ hs'' ↦ ?_
  subst hs''
  refine (lookup_acts rule).bind fun ruleStatement s' _ hs' ↦ ?_
  obtain ⟨rfl, hrule⟩ := hs'
  refine (lookup_acts condition).bind fun given s'' _ hs'' ↦ ?_
  obtain ⟨rfl, hgiven⟩ := hs''
  unfold Inference.detach
  split
  · rename_i conclusion hdetach
    split at hdetach
    · split at hdetach
      · rename_i expected _ hsame
        cases hdetach
        refine conclude_acts (below_of_mem_visible ht.state hrule).2 ?_
        exact .detachment rule condition hrule hgiven hsame
      · cases hdetach
    · cases hdetach
  · exact .throw _
  · exact .throw _

/-- Replacing subterms infers the equation of record and result. -/
theorem substitute_acts {target : Expression} {replacements : List Replacement}
    (htarget : target.Below s.nextVariable) (hbelow : ∀ r ∈ replacements, r.Below s.nextVariable)
    (chosen : Occurrences) :
    P.Acts (substitute target replacements chosen) s fun _ _ ↦ True := by
  refine (draw_acts (Inference.replacement_draws htarget hbelow chosen)).bind
    fun conclusion s' _ hs' ↦ ?_
  obtain ⟨n, rfl, -, hconclusion, result, rfl, hform⟩ := hs'
  exact conclude_acts hconclusion (.replacement hform)

/-- What evaluation decides is inferred from nothing. -/
theorem verify_acts {e : Expression} (h : e.Below s.nextVariable) :
    P.Acts (verify e) s fun _ _ ↦ True := by
  unfold verify Inference.verify
  cases heval : e.evaluate with
  | error error => exact .throw _
  | ok holds => exact conclude_acts (Inference.verdict_below h holds) (.verification heval)

/-! ### Opening and closing deductions -/

/-- Opening a deduction is a move. -/
theorem push_acts (name : Option String) : P.Acts (push name) s fun _ _ ↦ True := by
  refine (nameOrFresh_acts name).bind fun name s' _ _ ↦ ?_
  exact .of_modifyGet (.single (.push name)) trivial trivial

/-- At the root there is nothing to leave; elsewhere the current deduction is dropped. -/
theorem pop_run (s : ProofState) :
    pop.run.run s =
      match s.enclosing with
      | [] => (.error .rootStays, s)
      | f :: rest => (.ok s.current.deduction, s.outside f rest) := by
  obtain ⟨current, enclosing⟩ := s
  cases enclosing <;> rfl

/-- Asking for the theorem leaves the state alone, and is refused where nothing was derived. -/
theorem currentTheorem_run (s : ProofState) :
    currentTheorem.run.run s =
      match s.current.deduction.closedTheorem? with
      | some e => (.ok e, s)
      | none => (.error (.nothingDerived s.current.deduction.name), s) := by
  show (match s.current.deduction.closedTheorem? with
    | some e => pure e
    | none => throw _ : Building Expression).run.run s = _
  cases s.current.deduction.closedTheorem? <;> rfl

/-- Closing asks for the theorem first, and installs it outside. -/
theorem close_run (name : Option String) (s : ProofState) :
    (close name).run.run s =
      match s.enclosing, s.current.deduction.closedTheorem? with
      | [], _ => (.error .rootStays, s)
      | _ :: _, none => (.error (.nothingDerived s.current.deduction.name), s)
      | f :: rest, some e =>
        (install (name.getD s.current.deduction.name) e (.deduction s.current.deduction)).run.run
          (s.outside f rest) := by
  have hpop := pop_run s
  have htheorem := currentTheorem_run s
  show (if s.enclosing.isEmpty then _ else _ : Building String).run.run s = _
  cases h : s.enclosing with
  | nil => rfl
  | cons f rest =>
    rw [if_neg (by simp)]
    rw [h] at hpop
    cases h' : s.current.deduction.closedTheorem? with
    | none =>
      rw [h'] at htheorem
      exact run_bind_error htheorem
    | some e =>
      rw [h'] at htheorem
      exact (run_bind_ok htheorem).trans (run_bind_ok hpop)

/-- Leaving a deduction is a move. -/
theorem pop_acts : P.Acts pop s fun _ _ ↦ True := by
  have hrun := pop_run s
  split at hrun
  · exact .of_run hrun .refl trivial fun _ _ ↦ trivial
  · rename_i f rest h
    exact .of_run hrun (.single (.pop h)) trivial fun _ _ ↦ trivial

theorem currentTheorem_acts : P.Acts currentTheorem s fun _ s' ↦ s' = s := by
  have hrun := currentTheorem_run s
  split at hrun
  · exact .of_run hrun .refl trivial fun _ _ ↦ rfl
  · exact .of_run hrun .refl trivial fun _ _ ↦ rfl

/-- Closing a deduction acts by moves, also where the name of the theorem is taken around. -/
theorem close_acts (name : Option String) : P.Acts (close name) s fun _ _ ↦ True := by
  have hrun := close_run name s
  split at hrun
  · exact .of_run hrun .refl trivial fun _ _ ↦ trivial
  · exact .of_run hrun .refl trivial fun _ _ ↦ trivial
  · rename_i f rest e h htheorem
    intro _
    rw [hrun]
    obtain ⟨hname, hinstall⟩ | hinstall := install_run (name.getD s.current.deduction.name) e
      (.deduction s.current.deduction) (s.outside f rest)
    · rw [hinstall]
      exact ⟨.single (.close h hname htheorem), trivial, fun _ _ ↦ trivial⟩
    · rw [hinstall]
      exact ⟨.single (.pop h), trivial, fun _ _ ↦ trivial⟩

/-- A state that is reached by dropping deductions. -/
theorem moves_drop {f : Frame} {rest : List Frame} {n : Nat} (h : s.frames.drop n = f :: rest) :
    Moves P s (s.outside f rest) := by
  induction n generalizing s with
  | zero =>
    cases h
    exact .refl
  | succ n ih =>
    cases henclosing : s.enclosing with
    | nil => simp [ProofState.frames, henclosing] at h
    | cons g rest' =>
      have hpop : Move P s (s.outside g rest') := .pop henclosing
      refine .head hpop (ih ?_)
      simpa [ProofState.frames, henclosing, ProofState.outside] using h

/-- Discarding deductions drops them one by one. -/
theorem truncate_moves (s : ProofState) (depth : Nat) : Moves P s (s.truncate depth) := by
  unfold ProofState.truncate
  split
  · exact .refl
  · rename_i f rest h
    exact moves_drop h

/-- Going back to a checkpoint discards deductions and forgets what is newest. -/
theorem rollback_moves (s : ProofState) (c : Checkpoint) : Moves P s (s.rollback c) :=
  (truncate_moves s c.depth).tail (.forget _ _ _ _)

/-- What is discarded behind an error is discarded by moves. -/
theorem closing_acts {α : Type} {act : Building α} (depth : Nat)
    (h : ∀ s', P.Acts act s' fun _ _ ↦ True) :
    P.Acts (closing depth act) s fun _ _ ↦ True := by
  unfold closing
  have htruncate : P.Acts (modify (·.truncate depth) : Building PUnit) s fun _ _ ↦ True :=
    .of_modify (truncate_moves s depth) trivial trivial
  refine htruncate.bind fun _ s' _ _ ↦ (h s').tryCatch fun refusal s'' _ ↦ ?_
  have habandon : P.Acts (abandon depth) s'' fun _ _ ↦ True :=
    .of_modify (truncate_moves s'' (depth - 1)) trivial trivial
  exact habandon.bind fun _ _ _ _ ↦ .throw refusal

theorem closeAt_acts (depth : Nat) (name : Option String) :
    P.Acts (closeAt depth name) s fun _ _ ↦ True := closing_acts depth fun _ ↦ close_acts name

end Building

/-! ### Goals -/

/-- Whether every variable of a goal has a number below `n`. -/
structure Goal.Below (n : Nat) (g : Goal) : Prop where
  statement : g.statement.Below n
  remaining : g.remaining.Below n

/-- A goal below a counter is below every later one. -/
theorem Goal.Below.mono {g : Goal} {n m : Nat} (h : g.Below n) (hnm : n ≤ m) : g.Below m :=
  ⟨h.statement.mono hnm, h.remaining.mono hnm⟩

instance : Proving (Goal × ProofState) where
  state x := x.2
  Keeps x := x.1.Below x.2.nextVariable

namespace Goal

variable {P : Policy} {g : Goal} {s : ProofState}

/-- Starting a goal opens a deduction, and the goal is below the counter. -/
theorem start_acts {statement : Expression} (name : Option String)
    (h : statement.Below s.nextVariable) :
    P.Acts (start name statement) s fun g s' ↦ g.Below s'.nextVariable := by
  refine (Building.push_acts name).bind fun depth s' hmoves _ ↦ ?_
  have hle := Moves.nextVariable_le hmoves
  exact .pure ⟨h.mono hle, h.mono hle⟩

/-- A step of a goal does to the state what the step does alone, and leaves the goal alone. -/
theorem step_acts {α : Type} {act : Building α} {post : α → ProofState → Prop}
    (h : P.Acts act s post) :
    P.Acts (step act) (g, s) fun a x ↦ x.1 = g ∧ post a x.2 := by
  intro ht
  obtain ⟨hmoves, -, hpost⟩ := h ⟨ht.state, trivial⟩
  exact ⟨hmoves, ht.keeps.mono (Moves.nextVariable_le hmoves), fun a ha ↦ ⟨rfl, hpost a ha⟩⟩

/-- What remains of a goal may be replaced by a part of it. -/
theorem peeled_acts {remaining : Expression} {x : Goal × ProofState}
    (h : remaining.Below x.2.nextVariable) :
    P.Acts (peeled remaining) x fun _ _ ↦ True :=
  .of_tidy fun ht ↦ .of_modify .refl ⟨ht.keeps.statement, h⟩ trivial

/-- An introduction takes the outermost quantifier or condition off what remains. A quantified
variable becomes a parameter that is drawn for it. -/
theorem introduce_acts (name : Option String) (x : Goal × ProofState) :
    P.Acts (introduce name) x
      fun introduction y ↦ ∀ v, introduction = .parameter v → v.id < y.2.nextVariable := by
  obtain ⟨g, s⟩ := x
  refine .of_tidy fun ht ↦ ?_
  have hremaining := ht.keeps.remaining
  unfold introduce
  refine .get_bind ?_
  dsimp only
  split
  · exact .throw_bind _
  · split
    · rename_i v body hg
      rw [hg] at hremaining
      -- the parameter is a new variable, which then stands for the bound one
      have hrefresh := v.refresh_draws s.nextVariable
      refine (step_acts (Building.draw_acts hrefresh)).bind fun w x _ hx ↦ ?_
      obtain ⟨rfl, n, hs, hle, -, hw⟩ := hx
      have hinstance : (body.substitute [⟨.var v, .var w⟩] .all).Draws x.2.nextVariable
          fun result m ↦ result.Below m ∧ w.id < m := by
        rw [hs]
        have hbinder := hremaining.mono hle
        have hvar : (Expression.var w).Below n := hw
        exact (Expression.substitute_var_draws hbinder.1 hbinder.2 hvar).mono fun _ _ hnm h ↦
          ⟨h.1, Nat.lt_of_lt_of_le hw hnm⟩
      refine (step_acts (Building.draw_acts hinstance)).bind fun body' y _ hy ↦ ?_
      obtain ⟨-, m, hs', -, hbody', hw'⟩ := hy
      have hadd : P.Acts (Building.addParameter w) y.2
          fun _ s' ↦ s'.nextVariable = m := by
        rw [hs']
        exact Building.addParameter_acts hw'
      refine (step_acts hadd).bind fun _ z _ hz ↦ ?_
      refine (peeled_acts (hz.2 ▸ hbody')).bind fun _ _ hmoves _ ↦ .pure fun v hv ↦ ?_
      cases hv
      exact Nat.lt_of_lt_of_le (hz.2 ▸ hw') (Moves.nextVariable_le hmoves)
    · rename_i condition conclusion hg
      rw [hg] at hremaining
      refine (step_acts (Building.suppose_acts name hremaining.1)).bind fun name x hmoves _ ↦ ?_
      refine (peeled_acts ?_).bind fun _ _ _ _ ↦ .pure fun v hv ↦ nomatch hv
      exact hremaining.2.mono (Moves.nextVariable_le hmoves)
    · exact .pure fun v hv ↦ nomatch hv

/-- Any number of introductions acts by moves. -/
theorem introsWithin_acts (budget : Nat) (x : Goal × ProofState) :
    P.Acts (introsWithin budget) x fun _ _ ↦ True := by
  induction budget generalizing x with
  | zero => exact .pure trivial
  | succ budget ih =>
    unfold introsWithin
    refine (introduce_acts none x).bind fun introduction y _ _ ↦ ?_
    cases introduction with
    | done => exact .pure trivial
    | parameter | hypothesis => exact (ih y).bind fun _ _ _ _ ↦ .pure trivial

/-- As many introductions as there are to make act by moves. -/
theorem intros_acts (x : Goal × ProofState) : P.Acts intros x fun _ _ ↦ True :=
  .get_bind (introsWithin_acts _ x)

/-- Concluding closes the deduction of the goal, or discards it where the theorem is not the goal.
-/
theorem conclude_acts (g : Goal) (s : ProofState) :
    P.Acts (conclude g) s fun _ _ ↦ True := by
  have hclosing : P.Acts (Building.closing g.depth do
      let actual ← Building.currentTheorem
      if !actual.equalUpTo .all g.statement then throw (.goalMissed g.statement actual)
      Building.close g.name) s fun _ _ ↦ True := by
    refine Building.closing_acts g.depth fun s ↦ ?_
    refine Building.currentTheorem_acts.bind fun actual s' _ _ ↦ ?_
    dsimp only
    split
    · exact .throw_bind _
    · exact Building.close_acts g.name
  unfold conclude
  dsimp only
  split
  · exact .throw_bind _
  · exact hclosing

end Goal

end NaturalDeduction
