import NaturalDeduction.Proofs.Achieving

/-!
# Replacing equals is substitution

To replace by an equation takes more than ten steps of construction: the replacement is recorded,
four statements of the prelude are specialized, one value after the other, and the results are
detached. Each of these steps can be refused. It is shown here that none of them is, and that what
comes out is the statement that substitution answers (`replaceEqual_eq_substitute`).

The steps are followed on nameless forms, from one name that shows a form to the next. Each
statement of the prelude is opened with the values it is specialized to (`ProofState.Specializes`),
and the forms it then has are what the theory of equality says of all expressions
(`ProofState.KnowsEquality`).

The forms are compared by name of the step and not by statement: the record of a replacement is
opened anew by `subst_congruence`, and meets the record that was concluded only up to the names of
bound variables. That is enough, since applications compare conditions up to these.
-/

namespace NaturalDeduction

/-! ### The theory of equality -/

namespace ProofState

variable {s t : ProofState}

open Expression

/-- Whether the names of the prelude's statements stand for these statements. -/
def HasPrelude (s : ProofState) : Prop :=
  ∃ n, ∀ p ∈ (Prelude.statements.run n).1, (s.get? p.1).any (·.alphaEq p.2) = true

/-- Whether a name stands for a quantification that values, one after the other, lead to a form. -/
def Specializes (s : ProofState) (name : String) (values : List Expression) (t : Nameless) : Prop :=
  ∃ form, s.Shows name form ∧ form.Opens values t

/-- A statement of the prelude goes on to be specialized to the same forms. -/
theorem Retains.specializes {name : String} {values : List Expression} {form : Nameless}
    (h : s.Retains t) (hname : s.Specializes name values form) :
    t.Specializes name values form := by
  obtain ⟨f, hf, hopens⟩ := hname
  exact ⟨f, h.shows hf, hopens⟩

/-- What the statements of the prelude say of all expressions. -/
structure KnowsEquality (s : ProofState) : Prop where
  reflexive (a : Expression) : s.Specializes "eq_refl" [a] (.equals a.nameless a.nameless)
  symmetric (a b : Expression) : s.Specializes "eq_sym" [a, b]
    (.implies (.equals a.nameless b.nameless) (.equals b.nameless a.nameless))
  transitive (a b c : Expression) : s.Specializes "eq_trans" [a, b, c]
    (.implies (.equals a.nameless b.nameless)
      (.implies (.equals b.nameless c.nameless) (.equals a.nameless c.nameless)))
  eliminates (a b : Expression) : s.Specializes "eq_elim" [a, b]
    (.implies (.equals a.nameless b.nameless) (.implies a.nameless b.nameless))
  congruent (target a b : Expression) (chosen : Occurrences) :
    s.Specializes "subst_congruence" [target, a, b, .ofOccurrences chosen]
      (.implies (.equals a.nameless b.nameless)
        (.equals (target.recorded [⟨a, b⟩] chosen).nameless target.nameless))

/-- So equality goes on to be known along a row of steps. -/
theorem Retains.knowsEquality (h : s.Retains t) (hs : s.KnowsEquality) : t.KnowsEquality where
  reflexive a := h.specializes (hs.reflexive a)
  symmetric a b := h.specializes (hs.symmetric a b)
  transitive a b c := h.specializes (hs.transitive a b c)
  eliminates a b := h.specializes (hs.eliminates a b)
  congruent target a b chosen := h.specializes (hs.congruent target a b chosen)

/-- Which numbers the prelude was installed with does not matter, as forms do not show them. -/
theorem HasPrelude.exists_shows (h : s.HasPrelude) :
    ∃ n, ∀ p ∈ (Prelude.statements.run n).1, s.Shows p.1 p.2.nameless := by
  obtain ⟨n, hn⟩ := h
  refine ⟨n, fun p hp ↦ ?_⟩
  obtain ⟨e, he, heq⟩ := (Option.any_eq_true ..).1 (hn p hp)
  exact ⟨e, he, Expression.alphaEq_iff.1 heq⟩

/-- The four statements of the prelude say what is needed, each for all expressions. -/
theorem HasPrelude.knowsEquality (h : s.HasPrelude) : s.KnowsEquality := by
  obtain ⟨n, hn⟩ := h.exists_shows
  obtain ⟨hreflexive, hn⟩ := List.forall_mem_cons.1 hn
  obtain ⟨hsymmetric, hn⟩ := List.forall_mem_cons.1 hn
  obtain ⟨htransitive, hn⟩ := List.forall_mem_cons.1 hn
  obtain ⟨heliminates, hn⟩ := List.forall_mem_cons.1 hn
  obtain ⟨hcongruent, -⟩ := List.forall_mem_cons.1 hn
  have htwo : n + 1 + 1 ≠ n := by omega
  -- the bound variables become indices, whichever variables they are
  have hreflexive : s.Shows "eq_refl" (.binder .universal (.equals (.bound 0) (.bound 0))) := by
    simpa [alls, all, var, nameless, namelessIn, resolve, List.idxOf?_cons] using hreflexive
  have hsymmetric : s.Shows "eq_sym" (.binder .universal (.binder .universal
      (.implies (.equals (.bound 1) (.bound 0)) (.equals (.bound 0) (.bound 1))))) := by
    simpa [alls, all, var, nameless, namelessIn, resolve, List.idxOf?_cons] using hsymmetric
  have htransitive : s.Shows "eq_trans" (.binder .universal (.binder .universal (.binder .universal
      (.implies (.equals (.bound 2) (.bound 1)) (.implies (.equals (.bound 1) (.bound 0))
        (.equals (.bound 2) (.bound 0))))))) := by
    simpa [alls, all, rules, var, nameless, namelessIn, resolve, List.idxOf?_cons, htwo]
      using htransitive
  have heliminates : s.Shows "eq_elim" (.binder .universal (.binder .universal
      (.implies (.equals (.bound 1) (.bound 0)) (.implies (.bound 1) (.bound 0))))) := by
    simpa [alls, all, rules, var, nameless, namelessIn, resolve, List.idxOf?_cons] using heliminates
  have hcongruent : s.Shows "subst_congruence" (.binder .universal (.binder .universal
      (.binder .universal (.binder .universal (.implies (.equals (.bound 2) (.bound 1))
        (.equals (.application [.symbol "subst", .bound 3,
          .application [.application [.bound 2, .bound 1]], .bound 0]) (.bound 3))))))) := by
    simpa [alls, all, call, symbol, var, nameless, namelessIn, namelessAllIn, resolve,
      List.idxOf?_cons, htwo] using hcongruent
  constructor
  · intro a
    refine ⟨_, hreflexive, .cons (.of_eq ?_)⟩
    simp [Nameless.instantiateAt]
  · intro a b
    refine ⟨_, hsymmetric, .cons (.cons (.of_eq ?_))⟩
    simp [Nameless.instantiateAt]
  · intro a b c
    refine ⟨_, htransitive, .cons (.cons (.cons (.of_eq ?_)))⟩
    simp [Nameless.instantiateAt]
  · intro a b
    refine ⟨_, heliminates, .cons (.cons (.of_eq ?_))⟩
    simp [Nameless.instantiateAt]
  · intro target a b chosen
    have hrecorded : (target.recorded [⟨a, b⟩] chosen).nameless =
        .application [.symbol "subst", target.nameless,
          .application [.application [a.nameless, b.nameless]], (ofOccurrences chosen).nameless] :=
            rfl
    refine ⟨_, hcongruent, .cons (.cons (.cons (.cons (.of_eq ?_))))⟩
    simp [Nameless.instantiateAt, Nameless.instantiateAllAt, hrecorded]

end ProofState

/-! ### Replacing equals -/

namespace Building

open ProofState

variable {s : ProofState}

/-- A statement of the prelude is specialized, and its first condition is discharged. -/
theorem Achieves.of_specializes {α : Type} {rule condition : String} {values : List Expression}
    {a b : Nameless} {next : String → Building α} {post : α → ProofState → Prop}
    (hrule : s.Specializes rule values (.implies a b))
    (hvalues : ∀ e ∈ values, e.Below s.nextVariable) (hcondition : s.Shows condition a)
    (hnext : ∀ name t, s.Retains t → t.Shows name b → Achieves (next name) t post) :
    Achieves (do
      let specialized ← bindAll rule values
      let detached ← apply (.name specialized) (.name condition)
      next detached) s post := by
  obtain ⟨form, hform, hopens⟩ := hrule
  refine (bindAll_achieves hform hopens hvalues).bind fun specialized t ht hspecialized ↦ ?_
  refine (apply_achieves hspecialized (ht.shows hcondition)).bind fun detached u hu hdetached ↦ ?_
  exact hnext detached u (ht.trans hu) hdetached

/-- From an equation and its left side, the right side. -/
theorem eliminate_achieves {equation target : String} {a b : Nameless} (hequality : s.KnowsEquality)
    (hequation : s.Shows equation (.equals a b)) (htarget : s.Shows target a) :
    Achieves (eliminate equation target) s fun name t ↦ t.Shows name b := by
  refine (sides_achieves hequation).bind fun found t _ hfound ↦ ?_
  obtain ⟨left, right, rfl, rfl, rfl, rfl, hleft, hright⟩ := hfound
  refine .of_specializes (hequality.eliminates left right) (by simp [hleft, hright]) hequation
    fun rule u hu hrule ↦ ?_
  exact apply_achieves hrule (hu.shows htarget)

/-- The whole row. Each step achieves a form that the next one is opened with; the names in between
do not matter. -/
theorem replaceEqual_achieves {target equation : Reference} {n m : String}
    {statement : Expression} {a b : Nameless} (hequality : s.KnowsEquality)
    (htarget : (resolve target).run.run s = (.ok n, s)) (hn : s.get? n = some statement)
    (hequation : (resolve equation).run.run s = (.ok m, s)) (hm : s.Shows m (.equals a b))
    (chosen : Occurrences) :
    Achieves (replaceEqual target equation chosen) s fun name t ↦
      t.Shows name (statement.nameless.replace chosen [(a, b)] 0).1 := by
  intro hs
  have he : statement.Below s.nextVariable := hs.below hn
  revert hs
  show Achieves _ s _
  refine .read htarget (.read hequation (.read (get?_lookup_run hn) ?_))
  refine (sides_achieves hm).bind fun found u _ hfound ↦ ?_
  obtain ⟨a, b, rfl, rfl, rfl, rfl, ha, hb⟩ := hfound
  refine (substitute_achieves he (by simpa using ⟨ha, hb⟩) chosen).bind
    fun reduction s₁ h₁ hreduction ↦ ?_
  refine (sides_achieves hreduction).bind fun found u _ hfound ↦ ?_
  obtain ⟨record, result, rfl, rfl, hrecord, hresult, hbrecord, hbresult⟩ := hfound
  rw [← hrecord, ← hresult] at hreduction
  have hknows := h₁.knowsEquality hequality
  have hbe := h₁.below he
  -- the record equals the statement
  refine .of_specializes (hknows.congruent statement a b chosen) ?_ (h₁.shows hm)
    fun unchanged s₂ h₂ hunchanged ↦ ?_
  · simpa using ⟨hbe, h₁.below ha, h₁.below hb, Expression.ofOccurrences_below chosen _⟩
  -- the statement equals the record
  rw [← hrecord] at hunchanged
  refine .of_specializes ((h₂.knowsEquality hknows).symmetric record statement) ?_ hunchanged
    fun flipped s₃ h₃ hflipped ↦ ?_
  · simpa using ⟨h₂.below hbrecord, h₂.below hbe⟩
  -- the statement equals the result
  have h₁₃ := h₂.trans h₃
  refine .of_specializes ((h₁₃.knowsEquality hknows).transitive statement record result) ?_ hflipped
    fun transitivity s₄ h₄ htransitivity ↦ ?_
  · simpa using ⟨h₁₃.below hbe, h₁₃.below hbrecord, h₁₃.below hbresult⟩
  refine (apply_achieves htransitivity ((h₁₃.trans h₄).shows hreduction)).bind
    fun bridge s₅ h₅ hbridge ↦ ?_
  have h₁₅ := (h₁₃.trans h₄).trans h₅
  have hresult : result.nameless =
      (statement.nameless.replace chosen [(a.nameless, b.nameless)] 0).1 := hresult
  rw [← hresult]
  exact eliminate_achieves (h₁₅.knowsEquality hknows) hbridge ⟨_, h₁₅.get? (h₁.get? hn), rfl⟩

end Building

/-- **Replacing equals is substitution.** Where the statements of the prelude are visible under
their names, and all that is visible has variables below the counter, replacing in any statement by
any equation is never refused, whichever occurrences are chosen. What it adds is, up to bound names,
what substitution answers, with variables drawn from any number on that is not used. A statement
that is no equation is refused, and then nothing has changed. -/
theorem replaceEqual_eq_substitute {s : ProofState} (hprelude : s.HasPrelude) (hsettled : s.Settled)
    {target equation : Reference} {statement found : Expression}
    (htarget : (Building.proposition target).run.run s = (.ok statement, s))
    (hequation : (Building.proposition equation).run.run s = (.ok found, s))
    (chosen : Occurrences) :
    (∀ a b, found = .equals a b → ∀ n, s.nextVariable ≤ n →
      ∃ name t result, (Building.replaceEqual target equation chosen).run.run s = (.ok name, t) ∧
        t.get? name = some result ∧
          result.alphaEq ((statement.substitute [⟨a, b⟩] chosen).run n).1 = true) ∧
    ((∀ a b, found ≠ .equals a b) → ∃ name, (Building.resolve equation).run.run s = (.ok name, s) ∧
      (Building.replaceEqual target equation chosen).run.run s =
        (.error (.notAnEquation name found), s)) := by
  obtain ⟨p, hp, hstatement⟩ := Building.exists_of_proposition_run htarget
  obtain ⟨q, hq, hfound⟩ := Building.exists_of_proposition_run hequation
  constructor
  · rintro a b rfl n hn
    obtain ⟨ha, hb⟩ : a.Below s.nextVariable ∧ b.Below s.nextVariable := hsettled.below hfound
    obtain ⟨name, t, hrun, -, result, hresult, hform⟩ :=
      Building.replaceEqual_achieves hprelude.knowsEquality hp hstatement hq ⟨_, hfound, rfl⟩
        chosen hsettled
    have hbelow : ∀ r ∈ [Replacement.mk a b], r.Below n := by
      simpa using ⟨ha.mono hn, hb.mono hn⟩
    have hsubstitute :=
      Expression.substitute_draws ((hsettled.below hstatement).mono hn) hbelow chosen
    exact ⟨name, t, result, hrun, hresult,
      Expression.alphaEq_iff.2 (hform.trans hsubstitute.2.2.symm)⟩
  · intro hne
    refine ⟨q, hq, ?_⟩
    refine (run_bind_ok hp).trans ((run_bind_ok hq).trans ?_)
    refine (run_bind_ok (Building.get?_lookup_run hstatement)).trans ?_
    exact run_bind_error (Building.sides_run_error hfound hne)

/-- The value that replaces is a parameter, and a binder of its number is in the way. -/
theorem replaceEqual_eq_substitute_renamed :
    let x : Variable := ⟨"x", 9⟩
    let y : Variable := ⟨"x", 10⟩
    let statement : Expression := .binder .existential x (.call "R" [.var x, .symbol "c"])
    let start := ((Host.start 0 16 ()).perform .none (.operate (.newParameter "x"))).bench.state
    let s := (start.add ⟨"P", statement, .supposition⟩).add
      ⟨"E", .equals (.symbol "c") (.var x), .supposition⟩
    s.HasPrelude ∧ s.Settled ∧ ∃ name t result,
      (Building.replaceEqual (.name "P") (.name "E") .all).run.run s = (.ok name, t) ∧
        t.get? name = some result ∧
          result.alphaEq (.binder .existential y (.call "R" [.var y, .var x])) = true := by
  intro x y statement start s
  have hnext : start.nextVariable = 10 := by decide +kernel
  have hlt : x.id < start.nextVariable := by rw [hnext]; decide
  have hprelude : s.HasPrelude := ⟨0, by decide +kernel⟩
  have hsettled : s.Settled := by
    have hreachable : Host.Reachable .none
        ((Host.start 0 16 ()).perform .none (.operate (.newParameter "x"))) :=
      (Host.Reachable.start 0 16 ()).perform (.operate (.newParameter "x")) trivial
    have hstart : start.Settled :=
      ProofState.settled_of_frames (hreachable.sound External.none_lawful).tidy.below
    refine List.forall_mem_cons.2 ⟨⟨trivial, hlt⟩, List.forall_mem_cons.2 ⟨?_, hstart⟩⟩
    exact ⟨hlt, trivial, hlt, trivial, trivial⟩
  have hP : s.get? "P" = some statement := by
    rw [ProofState.get?, ProofState.find?_add, if_neg (by decide), ProofState.find?_add, if_pos rfl]
    rfl
  have hE : s.get? "E" = some (.equals (.symbol "c") (.var x)) := by
    rw [ProofState.get?, ProofState.find?_add, if_pos rfl]
    rfl
  have hsubstitute : ((statement.substitute [⟨.symbol "c", .var x⟩] .all).run 10).1.alphaEq
      (.binder .existential y (.call "R" [.var y, .var x])) = true := by decide +kernel
  obtain ⟨hreplace, -⟩ := replaceEqual_eq_substitute hprelude hsettled
    (Building.proposition_name_run hP) (Building.proposition_name_run hE) .all
  obtain ⟨name, t, result, hrun, hresult, halpha⟩ := hreplace _ _ rfl 10 (Nat.le_of_eq hnext)
  refine ⟨hprelude, hsettled, name, t, result, hrun, hresult, Expression.alphaEq_iff.2 ?_⟩
  exact (Expression.alphaEq_iff.1 halpha).trans (Expression.alphaEq_iff.1 hsubstitute)

end NaturalDeduction
