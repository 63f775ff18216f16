import NaturalDeduction.Prelude
import NaturalDeduction.Proofs.Building

/-!
# Rewriting and writing out act by moves

The computations on a proof state that tactics are made of: eliminating an equation, replacing by an
equation, writing an abbreviation out, and supposing the definition of an abbreviation.

An abbreviation is looked for from the current deduction outwards, and its definition is supposed in
the deduction that has it, which is a move of its own kind (`Move.define`): what is supposed there
may mention parameters of the deductions inside.

Main statements: `Building.replaceEqual_acts`, `Building.expand?_acts` and
`Building.supposeAt_acts`.

These computations stop in many places, and what they did up to there stays. `Policy.Acts` covers
the refusals with the successes, so each proof follows the definition line by line.

What an abbreviation is written out to is any computation that its author gives. It is asked to draw
forwards and to mention nothing beyond the counter (`Abbreviation.LawfulFrom`), and this is all that
is known of it here.
-/

namespace NaturalDeduction

/-! ### Expansions -/

/-- The arguments of a call are parts of it. -/
theorem Expression.below_of_mem_args {e a : Expression} {n : Nat} (h : e.Below n)
    (ha : a ∈ e.args) :
    a.Below n := by
  unfold args at ha
  split at ha
  · exact allBelow_iff.1 h a (List.mem_cons_of_mem _ ha)
  · exact absurd ha List.not_mem_nil

/-- The bounded quantifier mentions no variables of its own, so it is lawful from the start. -/
theorem Prelude.boundedQuantifier_lawful : boundedQuantifier.Lawful := by
  intro args n h
  show (boundedAll args).Draws n fun result m ↦ ∀ e, result = some e → e.Below m
  unfold boundedAll
  split
  · rename_i set x body
    obtain ⟨hset, hx, hbody⟩ : set.Below n ∧ x.id < n ∧ body.Below n :=
      ⟨h _ List.mem_cons_self, h (.binder .lambda x body) (by simp)⟩
    refine .pure fun e he ↦ ?_
    cases he
    exact ⟨hx, ⟨trivial, hx, hset, trivial⟩, hbody⟩
  · exact .pure fun e he ↦ by cases he

/-- The expansion mentions what the arguments mention, and what was drawn for it. -/
theorem Abbreviation.expandFirst_draws {head : String} {args : List Expression} {n₀ n : Nat}
    {abbreviations : List Abbreviation} (h : ∀ a ∈ abbreviations, a.LawfulFrom n₀) (hn : n₀ ≤ n)
    (hargs : ∀ a ∈ args, a.Below n) :
    (expandFirst head args abbreviations).Draws n
      fun result m ↦ ∀ e, result = some e → e.Below m := by
  induction abbreviations generalizing n with
  | nil => exact .pure fun e he ↦ by cases he
  | cons a rest ih =>
    obtain ⟨ha, hrest⟩ := List.forall_mem_cons.1 h
    have hdraws : (a.expand args).Draws n fun result m ↦ ∀ e, result = some e → e.Below m :=
      ha args n hn hargs
    unfold expandFirst
    split
    · refine hdraws.bind fun result m hnm hresult ↦ ?_
      cases result with
      | some e => exact .pure hresult
      | none => exact ih hrest (Nat.le_trans hn hnm) fun a ha ↦ (hargs a ha).mono hnm
    · exact ih hrest hn hargs

/-- The same from the current deduction outwards. -/
theorem Frame.expandInnermost_draws {head : String} {args : List Expression} {n₀ n : Nat}
    {frames : List Frame} (h : ∀ f ∈ frames, ∀ a ∈ f.abbreviations, a.LawfulFrom n₀) (hn : n₀ ≤ n)
    (hargs : ∀ a ∈ args, a.Below n) :
    (expandInnermost head args frames).Draws n
      fun result m ↦ ∀ p, result = some p → p.2.Below m := by
  induction frames generalizing n with
  | nil => exact .pure fun p hp ↦ by cases hp
  | cons f rest ih =>
    obtain ⟨hf, hrest⟩ := List.forall_mem_cons.1 h
    unfold expandInnermost
    refine (Abbreviation.expandFirst_draws hf hn hargs).bind fun result m hnm hresult ↦ ?_
    cases result with
    | some e => exact .pure fun p hp ↦ by cases hp; exact hresult e rfl
    | none => exact ih hrest (Nat.le_trans hn hnm) fun a ha ↦ (hargs a ha).mono hnm

/-- What is found is the expansion by an abbreviation of that head. -/
theorem Abbreviation.exists_of_expandFirst {head : String} {args : List Expression} {n : Nat}
    {abbreviations : List Abbreviation} {e : Expression}
    (h : ((expandFirst head args abbreviations).run n).1 = some e) :
    ∃ a ∈ abbreviations, a.head = head ∧ ∃ m, ((a.expand args).run m).1 = some e := by
  induction abbreviations generalizing n with
  | nil => cases h
  | cons a rest ih =>
    have hrest : ∀ m, ((expandFirst head args rest).run m).1 = some e →
        ∃ b ∈ a :: rest, b.head = head ∧ ∃ m, ((b.expand args).run m).1 = some e := by
      intro m hm
      obtain ⟨b, hb, hexpand⟩ := ih hm
      exact ⟨b, List.mem_cons_of_mem a hb, hexpand⟩
    unfold expandFirst at h
    split at h
    · rename_i hhead
      obtain ⟨result, m, hrun⟩ : ∃ result m, (a.expand args).run n = (result, m) := ⟨_, _, rfl⟩
      rw [Fresh.run_bind hrun] at h
      cases result with
      | some e' =>
        cases h
        exact ⟨a, List.mem_cons_self, hhead, n, by rw [hrun]⟩
      | none => exact hrest m h
    · exact hrest _ h

/-- An expansion comes from an abbreviation of the frame with the index. -/
theorem Frame.exists_of_expandInnermost {head : String} {args : List Expression} {n index : Nat}
    {frames : List Frame} {e : Expression}
    (h : ((expandInnermost head args frames).run n).1 = some (index, e)) :
    ∃ inner f outer, frames = inner ++ f :: outer ∧ outer.length = index ∧
      ∃ a ∈ f.abbreviations, a.head = head ∧ ∃ m, ((a.expand args).run m).1 = some e := by
  induction frames generalizing n with
  | nil => cases h
  | cons f rest ih =>
    unfold expandInnermost at h
    obtain ⟨result, m, hrun⟩ : ∃ result m,
        (Abbreviation.expandFirst head args f.abbreviations).run n = (result, m) := ⟨_, _, rfl⟩
    rw [Fresh.run_bind hrun] at h
    cases result with
    | some e' =>
      cases h
      exact ⟨[], f, rest, rfl, rfl, Abbreviation.exists_of_expandFirst (by rw [hrun])⟩
    | none =>
      obtain ⟨inner, g, outer, rfl, hframe⟩ := ih h
      exact ⟨f :: inner, g, outer, rfl, hframe⟩

/-! ### Positions in the stack -/

namespace ProofState

variable {s : ProofState}

/-- An index from the root is the number of frames further out. -/
theorem frameAt?_eq_some_iff {index : Nat} {f : Frame} :
    s.frameAt? index = some f ↔
      ∃ inner outer, s.frames = inner ++ f :: outer ∧ outer.length = index := by
  rw [frameAt?, List.getElem?_eq_some_iff]
  constructor
  · rintro ⟨hindex, hf⟩
    refine ⟨(s.frames.reverse.drop (index + 1)).reverse, (s.frames.reverse.take index).reverse,
      ?_, ?_⟩
    · rw [← hf, ← List.reverse_inj, List.reverse_append, List.reverse_cons, List.reverse_reverse,
        List.reverse_reverse, List.append_assoc, List.singleton_append, List.getElem_cons_drop,
        List.take_append_drop]
    · rw [List.length_reverse, List.length_take, Nat.min_eq_left (Nat.le_of_lt hindex)]
  · rintro ⟨inner, outer, hframes, rfl⟩
    simp [hframes]

/-- A frame is exchanged in its place. -/
theorem frames_setFrameAt {inner outer : List Frame} {f : Frame}
    (h : s.frames = inner ++ f :: outer) (g : Frame) :
    (s.setFrameAt outer.length g).frames = inner ++ g :: outer := by
  cases inner with
  | nil =>
    obtain ⟨-, henclosing⟩ := List.cons.inj h
    rw [setFrameAt, if_pos (by rw [henclosing]), ← henclosing]
    rfl
  | cons c rest =>
    obtain ⟨rfl, henclosing⟩ := List.cons.inj h
    have hlength : s.enclosing.length = rest.length + (outer.length + 1) := by simp [henclosing]
    rw [setFrameAt, if_neg (by omega)]
    have hindex : s.enclosing.length - 1 - outer.length = rest.length := by omega
    rw [hindex]
    simp [frames, henclosing]

/-- What replacing a frame leaves as it is. -/
theorem exists_setFrameAt_eq {inner outer : List Frame} {f : Frame}
    (h : s.frames = inner ++ f :: outer) (g : Frame) :
    ∃ current enclosing, s.setFrameAt outer.length g =
        { s with current := current, enclosing := enclosing } ∧
      current :: enclosing = inner ++ g :: outer := by
  refine ⟨_, _, ?_, frames_setFrameAt h g⟩
  unfold setFrameAt
  split <;> rfl

end ProofState

/-! ### Opened statements -/

/-- Quantifiers that are taken off, and the body behind them, mention nothing new. -/
theorem Expression.splitAlls_below {e : Expression} {n : Nat} (h : e.Below n) :
    (∀ v ∈ e.splitAlls.1, v.id < n) ∧ e.splitAlls.2.Below n := by
  fun_induction splitAlls e with
  | case1 v body vs e hbody ih =>
    rw [hbody] at ih
    obtain ⟨hvs, he⟩ := ih h.2
    exact ⟨List.forall_mem_cons.2 ⟨h.1, hvs⟩, he⟩
  | case2 e => exact ⟨fun v hv ↦ absurd hv List.not_mem_nil, h⟩

/-- The body with holes in place of the variables mentions nothing new either. -/
theorem Expression.openAlls_draws {e : Expression} {n : Nat} (h : e.Below n) :
    e.openAlls.Draws n fun p m ↦ p.2.Below m := by
  obtain ⟨hvs, hbody⟩ := splitAlls_below h
  have hslots : (e.splitAlls.1.mapM Variable.refresh).Draws n fun slots _ ↦ ∀ v ∈ slots, True :=
    Fresh.Draws.mapM (fun _ _ _ _ _ ↦ trivial) fun v _ m _ ↦
      (v.refresh_draws m).mono fun _ _ _ _ ↦ trivial
  refine hslots.bind fun slots m hnm _ ↦ ?_
  have hreplacements : ∀ r ∈ (e.splitAlls.1.zip slots).map fun p ↦
      Replacement.mk (var p.1) (hole p.2), r.Below m := by
    intro r hr
    obtain ⟨⟨v, slot⟩, hmem, rfl⟩ := List.mem_map.1 hr
    exact ⟨Nat.lt_of_lt_of_le (hvs v (List.of_mem_zip hmem).1) hnm, trivial⟩
  refine (substitute_draws (hbody.mono hnm) hreplacements .all).bind fun result m' _ hresult ↦ ?_
  exact .pure hresult.1

namespace Building

variable {P : Policy} {s : ProofState}

/-- The definition of what was written out may be supposed where the abbreviation is. -/
theorem expand?_acts [P.Permissive] {e : Expression} (h : e.Below s.nextVariable) :
    P.Acts (expand? e) s fun result s' ↦ ∀ p, result = some p →
      P.Definable p.1 (.equals e p.2) ∧ p.2.Below s'.nextVariable := by
  refine .of_tidy fun ht ↦ ?_
  unfold expand?
  split
  · exact .pure fun p hp ↦ by cases hp
  · rename_i head hhead
    have hargs : ∀ a ∈ e.args, a.Below s.nextVariable :=
      fun a ha ↦ Expression.below_of_mem_args h ha
    have hfurnished : P.Furnishes s.nextVariable s.frames := ht.state.furnished
    have hlawful : ∀ f ∈ s.frames, ∀ a ∈ f.abbreviations, a.LawfulFrom s.nextVariable := by
      intro f hf a ha
      obtain ⟨inner, outer, hframes⟩ := List.append_of_mem hf
      exact ((hframes ▸ hfurnished).of_mem ha).2
    obtain ⟨hle, hbelow⟩ := Frame.expandInnermost_draws hlawful (Nat.le_refl _) hargs
    have hdefinable : ∀ p, ((Frame.expandInnermost head e.args s.frames).run s.nextVariable).1 =
        some p → P.Definable p.1 (.equals e p.2) := by
      intro p hp
      obtain ⟨inner, f, outer, hframes, hindex, a, ha, rfl, n, hexpand⟩ :=
        Frame.exists_of_expandInnermost hp
      have hregistrable := ((hframes ▸ hfurnished).of_mem ha).1
      exact Policy.Permissive.definable (hindex ▸ hregistrable) ⟨e, p.2, n, hhead, hexpand, rfl⟩
    have hdraws : (Frame.expandInnermost head e.args s.frames).Draws s.nextVariable
        fun result m ↦ ∀ p, result = some p → P.Definable p.1 (.equals e p.2) ∧ p.2.Below m :=
      ⟨hle, fun p hp ↦ ⟨hdefinable p hp, hbelow p hp⟩⟩
    refine .get_bind ((draw_acts hdraws).mono fun result s' hs' ↦ ?_)
    obtain ⟨n, rfl, -, hresult⟩ := hs'
    exact hresult

/-! ### Definitions -/

/-- What is definable is supposed, whatever deduction is current. -/
theorem supposeAt_acts {index : Nat} {e : Expression} (h : P.Definable index e)
    (he : e.Below s.nextVariable) : P.Acts (supposeAt index e) s fun _ _ ↦ True := by
  refine freshName_acts.bind fun name s' _ hs' ↦ ?_
  obtain ⟨n, rfl⟩ := hs'
  refine .get_bind ?_
  split
  · exact .throw_bind _
  · rename_i f hf
    obtain ⟨inner, outer, hframes, rfl⟩ := ProofState.frameAt?_eq_some_iff.1 hf
    split
    · rename_i d hinsert
      obtain ⟨current, enclosing, hset, hsplit⟩ :=
        ProofState.exists_setFrameAt_eq hframes { f with deduction := d }
      have hmoves : Moves P { s with nextName := n }
          { s with nextName := n, current := current, enclosing := enclosing } := by
        -- the definition may be there already, under the same name
        obtain hd | ⟨hname, hd⟩ := eq_or_eq_add_of_insert hinsert
        · rw [hd, ← hframes] at hsplit
          obtain ⟨rfl, rfl⟩ := List.cons.inj hsplit
          exact .refl
        · exact .single (.define h hframes hname he (hd ▸ hsplit))
      have hact : P.Acts (set (ProofState.setFrameAt _ outer.length _) : Building PUnit)
          { s with nextName := n } fun _ _ ↦ True := .of_modifyGet (hset ▸ hmoves) trivial trivial
      exact hact.bind fun _ _ _ _ ↦ .pure trivial
    · exact .throw_bind _

/-- What is supposed in a frame is always added, under a name that was not visible. -/
theorem supposeAt_run {inner outer : List Frame} {f : Frame} (h : s.frames = inner ++ f :: outer)
    (e : Expression) :
    (supposeAt outer.length e).run.run s = (.ok (ProofState.generatedName s.freeNumber),
      ({ s with nextName := s.freeNumber + 1 } : ProofState).setFrameAt outer.length
        (f.add ⟨ProofState.generatedName s.freeNumber, e, .supposition⟩)) := by
  let named : ProofState := { s with nextName := s.freeNumber + 1 }
  have hname : freshName.run.run s = (.ok (ProofState.generatedName s.freeNumber), named) := rfl
  have hframe : named.frameAt? outer.length = some f :=
    ProofState.frameAt?_eq_some_iff.2 ⟨inner, outer, h, rfl⟩
  have hfree : f.deduction.find? (ProofState.generatedName s.freeNumber) = none :=
    ProofState.deduction_find?_of_find? s.find?_generatedName (h ▸ by simp)
  unfold supposeAt
  rw [run_bind_ok hname, run_bind_ok (run_get_eq named), hframe]
  dsimp only
  rw [Deduction.insert, Deduction.get?, hfree]
  rfl

/-! ### Equations -/

/-- What is visible lies below the counter. -/
theorem lookup_below (name : String) :
    P.Acts (lookup name) s fun e s' ↦ s' = s ∧ e.Below s.nextVariable :=
  .of_tidy fun ht ↦ (lookup_acts name).mono fun _ _ h ↦ ⟨h.1, below_of_mem_visible ht.state h.2⟩

/-- So do the two sides of an equation that is visible. -/
theorem sides_acts (name : String) :
    P.Acts (sides name) s fun p s' ↦
      s' = s ∧ p.1.Below s.nextVariable ∧ p.2.Below s.nextVariable := by
  refine (lookup_below name).bind fun e s' _ h ↦ ?_
  obtain ⟨rfl, he⟩ := h
  split
  · exact .pure ⟨rfl, he⟩
  · exact .throw _

theorem bindAll_acts (target : String) {values : List Expression}
    (h : ∀ e ∈ values, e.Below s.nextVariable) :
    P.Acts (bindAll target values) s fun _ _ ↦ True := by
  induction values generalizing target s with
  | nil => exact .pure trivial
  | cons value rest ih =>
    obtain ⟨hvalue, hrest⟩ := List.forall_mem_cons.1 h
    refine (bind_acts (.name target) hvalue).bind fun bound s' hmoves _ ↦ ?_
    exact ih bound fun e he ↦ (hrest e he).mono (Moves.nextVariable_le hmoves)

theorem eliminate_acts (equation target : String) :
    P.Acts (eliminate equation target) s fun _ _ ↦ True := by
  refine (sides_acts equation).bind fun p s' _ h ↦ ?_
  obtain ⟨rfl, hleft, hright⟩ := h
  refine (bindAll_acts "eq_elim" (by simp [hleft, hright])).bind fun rule s₁ _ _ ↦ ?_
  refine (apply_acts (.name rule) (.name equation)).bind fun rule s₂ _ _ ↦ ?_
  exact apply_acts (.name rule) (.name target)

/-- Replacement by an equation is a row of inferences, each of which may be refused. -/
theorem replaceEqual_acts (target equation : Reference) (chosen : Occurrences) :
    P.Acts (replaceEqual target equation chosen) s fun _ _ ↦ True := by
  refine (resolve_acts target).bind fun target s₁ _ h ↦ ?_
  subst h
  refine (resolve_acts equation).bind fun equation s₂ _ h ↦ ?_
  subst h
  refine (lookup_below target).bind fun statement s₃ _ h ↦ ?_
  obtain ⟨rfl, hstatement⟩ := h
  refine (sides_acts equation).bind fun sides s₄ _ h ↦ ?_
  obtain ⟨rfl, ha, hb⟩ := h
  obtain ⟨a, b⟩ := sides
  dsimp only at ha hb ⊢
  have hpair : ∀ r ∈ [Replacement.mk a b], r.Below s₄.nextVariable := by simpa using ⟨ha, hb⟩
  refine (substitute_acts hstatement hpair chosen).bind fun reduction s₅ h₅ _ ↦ ?_
  refine (sides_acts reduction).bind fun sides s₆ _ h ↦ ?_
  obtain ⟨rfl, hrecord, hresult⟩ := h
  obtain ⟨record, result⟩ := sides
  dsimp only at hrecord hresult ⊢
  have hle := Moves.nextVariable_le h₅
  have hcongruence : ∀ e ∈ [statement, a, b, .ofOccurrences chosen], e.Below s₆.nextVariable := by
    simpa using ⟨hstatement.mono hle, ha.mono hle, hb.mono hle, Expression.ofOccurrences_below _ _⟩
  refine (bindAll_acts "subst_congruence" hcongruence).bind fun congruence s₇ h₇ _ ↦ ?_
  refine (apply_acts (.name congruence) (.name equation)).bind fun unchanged s₈ h₈ _ ↦ ?_
  have hle' := Nat.le_trans (Moves.nextVariable_le h₇) (Moves.nextVariable_le h₈)
  have hsymmetry : ∀ e ∈ [record, statement], e.Below s₈.nextVariable := by
    simpa using ⟨hrecord.mono hle', (hstatement.mono hle).mono hle'⟩
  refine (bindAll_acts "eq_sym" hsymmetry).bind fun symmetry s₉ h₉ _ ↦ ?_
  refine (apply_acts (.name symmetry) (.name unchanged)).bind fun flipped s₁₀ h₁₀ _ ↦ ?_
  have hle'' := Nat.le_trans hle'
    (Nat.le_trans (Moves.nextVariable_le h₉) (Moves.nextVariable_le h₁₀))
  have htransitivity : ∀ e ∈ [statement, record, result], e.Below s₁₀.nextVariable := by
    simpa using ⟨(hstatement.mono hle).mono hle'', hrecord.mono hle'', hresult.mono hle''⟩
  refine (bindAll_acts "eq_trans" htransitivity).bind fun transitivity s₁₁ _ _ ↦ ?_
  refine (apply_acts (.name transitivity) (.name flipped)).bind fun transitivity s₁₂ _ _ ↦ ?_
  refine (apply_acts (.name transitivity) (.name reduction)).bind fun bridge s₁₃ _ _ ↦ ?_
  exact eliminate_acts bridge target

/-! ### Hints -/

/-- A hint is read off and changes nothing. -/
theorem hint_acts (source : Reference) : P.Acts (hint source) s fun _ _ ↦ True := by
  refine (resolve_acts source).bind fun source s₁ _ h ↦ ?_
  subst h
  refine (lookup_below source).bind fun statement s₂ _ h ↦ ?_
  obtain ⟨rfl, hstatement⟩ := h
  refine (draw_acts (Expression.openAlls_draws hstatement)).bind fun p s₃ _ _ ↦ ?_
  exact .of_modify (.single (.register trivial)) trivial trivial

end Building

end NaturalDeduction
