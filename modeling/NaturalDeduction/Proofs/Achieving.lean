import NaturalDeduction.Proofs.Assignment
import NaturalDeduction.Proofs.Shadowing

/-!
# Steps that succeed

A step of construction can be refused, and the ones that a proof search takes are many. What makes a
whole row of them succeed is always the same. Specialization renames bound variables as it goes, so
what a step needs is followed on nameless forms: a name *shows* a form (`ProofState.Shows`). And the
steps go on from each other: every conclusion gets a name that is not visible, so that what was
visible stays so, and its variables stay below the counter (`Building.Achieves`).

A state retains another (`ProofState.Retains`) if all that was visible is still visible under its
name, no name became ambiguous, and the counter was not set back. That is as much as the next step
of a row needs from the ones in front of it, so it is what `Achieves` hands on.

There is one `_achieves` lemma for each inference, and one for binding several values; the theorems
about tactics and derived rules in other modules are rows of these.
-/

namespace NaturalDeduction

/-! ### The parts of a statement with a form -/

namespace Expression

/-- Forms forget the names of bound variables and nothing else, so an expression whose form is a
quantification is one. -/
theorem exists_of_nameless_eq_binder {e : Expression} {kind : BinderKind} {t : Nameless}
    (h : e.nameless = .binder kind t) :
    ∃ v body, e = binder kind v body ∧ body.namelessIn [v.id] = t := by
  rcases e with (_ | _ | _ | _ | _) | ⟨k, v, body⟩ | _ | _ | _ <;> cases h
  exact ⟨v, body, rfl, rfl⟩

/-- The same for rules. -/
theorem exists_of_nameless_eq_implies {e : Expression} {s t : Nameless}
    (h : e.nameless = .implies s t) :
    ∃ a b, e = implies a b ∧ a.nameless = s ∧ b.nameless = t := by
  rcases e with (_ | _ | _ | _ | _) | _ | ⟨a, b⟩ | _ | _ <;> cases h
  exact ⟨a, b, rfl, rfl, rfl⟩

theorem exists_of_nameless_eq_equals {e : Expression} {s t : Nameless}
    (h : e.nameless = .equals s t) :
    ∃ a b, e = equals a b ∧ a.nameless = s ∧ b.nameless = t := by
  rcases e with (_ | _ | _ | _ | _) | _ | _ | ⟨a, b⟩ | _ <;> cases h
  exact ⟨a, b, rfl, rfl, rfl⟩

end Expression

/-! ### Names that show forms -/

namespace ProofState

variable {s t u : ProofState} {name : String} {e : Expression}

/-- Whether everything visible is below the counter of variables. -/
def Settled (s : ProofState) : Prop := ∀ e ∈ s.history, e.statement.Below s.nextVariable

/-- A state is settled if each of its frames mentions only variables below the counter. -/
theorem settled_of_frames (h : ∀ f ∈ s.frames, f.Below s.nextVariable) : s.Settled := by
  intro e he
  obtain ⟨f, hf, he⟩ := List.mem_flatMap.1 he
  exact (h f hf).statements e he

/-- What a name stands for is part of the history, whichever frame it was found in. -/
theorem Settled.below (h : s.Settled) (hname : s.get? name = some e) : e.Below s.nextVariable := by
  obtain ⟨entry, hentry, rfl⟩ := Option.map_eq_some_iff.1 hname
  rw [find?_eq] at hentry
  exact h entry (List.mem_of_find?_eq_some hentry)

/-- Whether a name stands for a statement with a form. -/
def Shows (s : ProofState) (name : String) (t : Nameless) : Prop :=
  ∃ e, s.get? name = some e ∧ e.nameless = t

/-- Whether no two visible entries have the same name. -/
def Unambiguous (s : ProofState) : Prop := (s.history.map (·.name)).Nodup

instance (s : ProofState) : Decidable s.Unambiguous := inferInstanceAs (Decidable (List.Nodup _))

/-- What is registered in the frames, innermost first. -/
def registered (s : ProofState) : List (List Rule × List Abbreviation) :=
  s.frames.map fun f ↦ (f.rules, f.abbreviations)

/-- Whether all that was visible under its name still is, variables are below the counter, no name
has become ambiguous, and nothing was registered or forgotten. -/
structure Retains (s t : ProofState) : Prop where
  get? {name : String} {e : Expression} (h : s.get? name = some e) : t.get? name = some e
  nextVariable_le : s.nextVariable ≤ t.nextVariable
  settled : t.Settled
  unambiguous (h : s.Unambiguous) : t.Unambiguous
  registered : t.registered = s.registered

/-- A settled state retains itself; that it is settled is part of the relation. -/
theorem Retains.refl (h : s.Settled) : s.Retains s := ⟨id, Nat.le_refl _, h, id, rfl⟩

/-- Retention is transitive, so it can be followed along a computation. -/
theorem Retains.trans (h : s.Retains t) (h' : t.Retains u) : s.Retains u where
  get? hname := h'.get? (h.get? hname)
  nextVariable_le := Nat.le_trans h.nextVariable_le h'.nextVariable_le
  settled := h'.settled
  unambiguous hs := h'.unambiguous (h.unambiguous hs)
  registered := h'.registered.trans h.registered

/-- A name goes on to show its form. This is what later steps of a row rely on. -/
theorem Retains.shows {form : Nameless} (h : s.Retains t) (hname : s.Shows name form) :
    t.Shows name form := by
  obtain ⟨e, he, hform⟩ := hname
  exact ⟨e, h.get? he, hform⟩

/-- Variables below the counter stay below it. -/
theorem Retains.below (h : s.Retains t) (he : e.Below s.nextVariable) : e.Below t.nextVariable :=
  he.mono h.nextVariable_le

/-- An entry that is added is found under its name, and hides only what had that name. -/
theorem find?_add (s : ProofState) (entry : Entry) (name : String) :
    (s.add entry).find? name = if entry.name = name then some entry else s.find? name := by
  have hhistory : (s.add entry).history = entry :: s.history := rfl
  rw [find?_eq, find?_eq, hhistory, List.find?_cons]
  split <;> simp_all

/-- An entry with a name that is not visible hides nothing. -/
theorem retains_add {entry : Entry} (hs : s.Settled) (hfree : s.find? entry.name = none)
    (hbelow : entry.statement.Below s.nextVariable) (nextName : Nat) :
    s.Retains (({ s with nextName := nextName } : ProofState).add entry) where
  get? {name e} h := by
    obtain ⟨old, hold, rfl⟩ := Option.map_eq_some_iff.1 h
    have hne : entry.name ≠ name := by
      rintro rfl
      rw [hold] at hfree
      cases hfree
    refine Option.map_eq_some_iff.2 ⟨old, ?_, rfl⟩
    rw [find?_add, if_neg hne]
    exact hold
  nextVariable_le := Nat.le_refl _
  settled := List.forall_mem_cons.2 ⟨hbelow, hs⟩
  unambiguous h := by
    refine List.nodup_cons.2 ⟨fun hmem ↦ ?_, h⟩
    obtain ⟨old, hold, hname⟩ := List.mem_map.1 hmem
    rw [find?_eq, List.find?_eq_none] at hfree
    exact hfree old hold (beq_iff_eq.2 hname)
  registered := rfl

/-- Where names are unambiguous, the name of a visible entry stands for this entry. -/
theorem Unambiguous.find? (h : s.Unambiguous) {entry : Entry} (hentry : entry ∈ s.history) :
    s.find? entry.name = some entry := by
  rw [find?_eq]
  unfold Unambiguous at h
  generalize s.history = entries at h hentry
  induction entries with
  | nil => cases hentry
  | cons first rest ih =>
    obtain ⟨hfirst, hrest⟩ := List.nodup_cons.1 h
    rw [List.find?_cons]
    rcases List.mem_cons.1 hentry with rfl | hentry
    · rw [beq_self_eq_true]
    · have hne : first.name ≠ entry.name := fun hname ↦
        hfirst (List.mem_map.2 ⟨entry, hentry, hname.symm⟩)
      rw [beq_eq_false_iff_ne.2 hne, ih hrest hentry]

/-- Where names are unambiguous, the name that is recalled for a statement shows it. -/
theorem Unambiguous.shows_of_recall? (hs : s.Unambiguous) (h : s.«recall?» e = some name) :
    s.Shows name e.nameless := by
  obtain ⟨entry, hentry, rfl⟩ := Option.map_eq_some_iff.1 h
  have halpha : entry.statement.alphaEq e = true := by simpa using List.find?_some hentry
  refine ⟨entry.statement, ?_, Expression.alphaEq_iff.1 halpha⟩
  rw [ProofState.get?, hs.find? (List.mem_of_find?_eq_some hentry)]
  rfl

/-- What is known is recalled under a name that shows it, if names are unambiguous. -/
theorem Shows.recall? (hs : s.Unambiguous) (h : s.Shows name e.nameless) :
    ∃ found, s.«recall?» e = some found ∧ s.Shows found e.nameless := by
  obtain ⟨known, hknown, hform⟩ := h
  obtain ⟨entry, hentry, rfl⟩ := Option.map_eq_some_iff.1 hknown
  rw [find?_eq] at hentry
  have hsome : (s.history.find? (·.statement.alphaEq e)).isSome = true :=
    List.find?_isSome.2 ⟨entry, List.mem_of_find?_eq_some hentry, Expression.alphaEq_iff.2 hform⟩
  obtain ⟨found, hfound⟩ := Option.isSome_iff_exists.1 hsome
  have hrecall : s.«recall?» e = some found.name := Option.map_eq_some_iff.2 ⟨found, hfound, rfl⟩
  exact ⟨found.name, hrecall, hs.shows_of_recall? hrecall⟩

end ProofState

/-! ### Steps that succeed -/

namespace Building

open ProofState

variable {α β : Type} {s : ProofState}

/-- Whether a computation succeeds, adds under names that were not visible, and answers as `post`
says. It is run where all variables are below the counter. -/
def Achieves (act : Building α) (s : ProofState) (post : α → ProofState → Prop) : Prop :=
  s.Settled → ∃ a t, act.run.run s = (.ok a, t) ∧ s.Retains t ∧ post a t

/-- An answer that is already there. -/
theorem Achieves.pure {a : α} {post : α → ProofState → Prop} (h : post a s) :
    Achieves (Pure.pure a) s post := fun hs ↦ ⟨a, s, rfl, .refl hs, h⟩

/-- The rest of a computation starts in a state that retains the first one, so it may use what was
shown in front. -/
theorem Achieves.bind {act : Building α} {next : α → Building β} {post : α → ProofState → Prop}
    {post' : β → ProofState → Prop} (h : Achieves act s post)
    (hnext : ∀ a t, s.Retains t → post a t → Achieves (next a) t post') :
    Achieves (act >>= next) s post' := by
  intro hs
  obtain ⟨a, t, hrun, hretains, hpost⟩ := h hs
  obtain ⟨b, u, hrun', hretains', hpost'⟩ := hnext a t hretains hpost hretains.settled
  exact ⟨b, u, (run_bind_ok hrun).trans hrun', hretains.trans hretains', hpost'⟩

/-- What only reads is followed by the rest in the same state. -/
theorem Achieves.read {act : Building α} {next : α → Building β} {a : α}
    {post : β → ProofState → Prop} (hrun : act.run.run s = (.ok a, s))
    (h : Achieves (next a) s post) : Achieves (act >>= next) s post := by
  intro hs
  obtain ⟨b, t, hrun', hretains, hpost⟩ := h hs
  exact ⟨b, t, (run_bind_ok hrun).trans hrun', hretains, hpost⟩

/-- Looking up a name that is visible succeeds and changes nothing. -/
theorem get?_lookup_run {name : String} {e : Expression} (h : s.get? name = some e) :
    (lookup name).run.run s = (.ok e, s) := by
  obtain ⟨entry, hentry, rfl⟩ := Option.map_eq_some_iff.1 h
  exact lookup_run hentry

/-- Neither does resolving it. -/
theorem get?_resolve_run {name : String} {e : Expression} (h : s.get? name = some e) :
    (resolve (.name name)).run.run s = (.ok name, s) := by
  obtain ⟨entry, hentry, -⟩ := Option.map_eq_some_iff.1 h
  exact resolve_name_run hentry

theorem proposition_name_run {name : String} {e : Expression} (h : s.get? name = some e) :
    (proposition (.name name)).run.run s = (.ok e, s) :=
  (run_bind_ok (get?_resolve_run h)).trans (get?_lookup_run h)

/-- What a reference stands for, it stands for by a name. -/
theorem exists_of_proposition_run {r : Reference} {e : Expression}
    (h : (proposition r).run.run s = (.ok e, s)) :
    ∃ name, (resolve r).run.run s = (.ok name, s) ∧ s.get? name = some e := by
  obtain ⟨⟨refusal⟩ | ⟨name⟩, hresolve⟩ := exists_resolve_run r s
  · have hrun : (proposition r).run.run s = (.error refusal, s) := run_bind_error hresolve
    rw [hrun] at h
    cases h
  · have hrun : (proposition r).run.run s = (lookup name).run.run s := run_bind_ok hresolve
    cases hfind : s.find? name with
    | none =>
      rw [hrun, lookup_run_error hfind] at h
      cases h
    | some entry =>
      rw [hrun, lookup_run hfind] at h
      cases h
      exact ⟨name, hresolve, by rw [get?, hfind]; rfl⟩

/-- A name that was resolved stands for something. -/
theorem exists_get?_of_resolve_run {t : ProofState} {r : Reference} {name : String}
    (h : (resolve r).run.run s = (.ok name, t)) : ∃ e, t.get? name = some e := by
  have hsome : ∀ {name : String}, s.find? name ≠ none → ∃ e, s.get? name = some e := by
    intro name hname
    obtain ⟨entry, hentry⟩ := Option.ne_none_iff_exists'.1 hname
    exact ⟨entry.statement, by rw [get?, hentry]; rfl⟩
  cases r with
  | name name =>
    cases hfind : s.find? name with
    | none =>
      have hrun : (resolve (.name name)).run.run s = (.error (.unknownName name), s) :=
        run_bind_error (lookup_run_error hfind)
      rw [hrun] at h
      cases h
    | some entry =>
      rw [resolve_name_run hfind] at h
      cases h
      exact hsome (by rw [hfind]; exact Option.some_ne_none entry)
  | relative k =>
    rw [resolve_relative_run] at h
    cases hname : s.nameAt? k with
    | none => rw [hname] at h; cases h
    | some found =>
      rw [hname] at h
      cases h
      refine hsome fun hnone ↦ ?_
      unfold nameAt? at hname
      split at hname
      · obtain ⟨entry, hentry, rfl⟩ := Option.map_eq_some_iff.1 hname
        obtain ⟨_, e, -, -, -, hfind⟩ := exists_find?_eq hentry
        rw [hnone] at hfind
        cases hfind
      · cases hname

/-- What is drawn lies below the counter that the drawing leaves. -/
theorem draw_achieves {f : Fresh α} {post : α → Nat → Prop} (h : f.Draws s.nextVariable post) :
    Achieves (draw f) s fun a t ↦ post a t.nextVariable := by
  intro hs
  have hbelow : ProofState.Settled { s with nextVariable := (f.run s.nextVariable).2 } :=
    fun e he ↦ (hs e he).mono h.1
  exact ⟨_, _, draw_run f s, ⟨id, h.1, hbelow, id, rfl⟩, h.2⟩

/-- A conclusion is never refused: its name is generated, and it shows the form of what was
concluded. -/
theorem conclude_achieves {e : Expression} (h : e.Below s.nextVariable) (j : Justification) :
    Achieves (conclude e j) s fun name t ↦ t.Shows name e.nameless := by
  intro hs
  have hfree : s.find? (generatedName s.freeNumber) = none := s.find?_generatedName
  refine ⟨_, _, conclude_run e j s, retains_add hs hfree h _, e, ?_, rfl⟩
  rw [ProofState.get?, find?_add, if_pos rfl]
  rfl

/-! ### Inferences -/

/-- An instance of a quantification is its body with the value put for the outermost index. -/
theorem bind_achieves {target : String} {value : Expression} {body : Nameless}
    (h : s.Shows target (.binder .universal body)) (hvalue : value.Below s.nextVariable) :
    Achieves (bind (.name target) value) s
      fun name t ↦ t.Shows name (body.instantiateAt value.nameless 0) := by
  intro hs
  obtain ⟨e, he, hform⟩ := h
  have hbelow := hs.below he
  obtain ⟨v, e, rfl, rfl⟩ := Expression.exists_of_nameless_eq_binder hform
  have hdraws : (Inference.specialize? (.binder .universal v e) value).Draws s.nextVariable
      fun result m ↦ ∃ c, result = some c ∧ c.Below m ∧
        c.nameless = (e.namelessIn [v.id]).instantiateAt value.nameless 0 := by
    have hsubstitute := Expression.substitute_var_draws hbelow.1 hbelow.2 hvalue
    show (some <$> e.substitute [⟨.var v, value⟩] .all).Draws s.nextVariable _
    rw [map_eq_pure_bind]
    exact hsubstitute.bind fun c m _ hc ↦ .pure ⟨c, rfl, hc⟩
  have hachieves : Achieves (bind (.name target) value) s
      fun name t ↦ t.Shows name ((e.namelessIn [v.id]).instantiateAt value.nameless 0) := by
    refine .read (get?_resolve_run he) (.read (get?_lookup_run he) ?_)
    refine (draw_achieves hdraws).bind fun result t _ hresult ↦ ?_
    obtain ⟨c, rfl, hc, hform⟩ := hresult
    rw [← hform]
    exact conclude_achieves hc _
  exact hachieves hs

/-- A rule applies to any proof of its condition, since conditions are compared by form. -/
theorem apply_achieves {rule condition : String} {a b : Nameless}
    (hrule : s.Shows rule (.implies a b)) (hcondition : s.Shows condition a) :
    Achieves (apply (.name rule) (.name condition)) s fun name t ↦ t.Shows name b := by
  intro hs
  obtain ⟨e, he, hform⟩ := hrule
  obtain ⟨given, hgiven, rfl⟩ := hcondition
  have hbelow := hs.below he
  obtain ⟨expected, conclusion, rfl, hexpected, rfl⟩ :=
    Expression.exists_of_nameless_eq_implies hform
  have hachieves : Achieves (apply (.name rule) (.name condition)) s
      fun name t ↦ t.Shows name conclusion.nameless := by
    refine .read (get?_resolve_run he) (.read (get?_resolve_run hgiven) ?_)
    refine .read (get?_lookup_run he) (.read (get?_lookup_run hgiven) ?_)
    rw [Inference.detach, if_pos (Expression.alphaEq_iff.2 hexpected)]
    exact conclude_achieves hbelow.2 _
  exact hachieves hs

/-- What a rule was applied for stands for the conclusion. -/
theorem get?_of_apply_run {t : ProofState} {rule condition name : String} {a b : Expression}
    (hrule : s.get? rule = some (.implies a b))
    (h : (apply (.name rule) (.name condition)).run.run s = (.ok name, t)) :
    t.get? name = some b := by
  unfold apply at h
  rw [run_bind_ok (get?_resolve_run hrule)] at h
  cases hfind : s.find? condition with
  | none =>
    have hresolve : (resolve (.name condition)).run.run s = (.error (.unknownName condition), s) :=
      run_bind_error (lookup_run_error hfind)
    rw [run_bind_error hresolve] at h
    cases h
  | some given =>
    rw [run_bind_ok (resolve_name_run hfind), run_bind_ok (get?_lookup_run hrule),
      run_bind_ok (lookup_run hfind), Inference.detach] at h
    by_cases halpha : a.alphaEq given.statement = true
    · rw [if_pos halpha] at h
      cases (conclude_run b _ s).symm.trans h
      rw [ProofState.get?, find?_add, if_pos rfl]
      rfl
    · rw [if_neg halpha] at h
      cases h

/-- A replacement gives the equation between the record and the reduct, whatever is replaced by
what. -/
theorem substitute_achieves {target : Expression} {replacements : List Replacement}
    (htarget : target.Below s.nextVariable) (hbelow : ∀ r ∈ replacements, r.Below s.nextVariable)
    (chosen : Occurrences) :
    Achieves (substitute target replacements chosen) s fun name t ↦ t.Shows name
      (.equals (target.recorded replacements chosen).nameless
        (target.nameless.replace chosen (replacements.map Replacement.forms) 0).1) := by
  refine (draw_achieves (Inference.replacement_draws htarget hbelow chosen)).bind
    fun conclusion t _ hconclusion ↦ ?_
  obtain ⟨hconclusion, result, rfl, hform⟩ := hconclusion
  rw [← hform]
  exact conclude_achieves hconclusion _

/-- The two sides of an equation that a name shows have the two forms, and nothing is added. -/
theorem sides_achieves {name : String} {a b : Nameless} (h : s.Shows name (.equals a b)) :
    Achieves (sides name) s fun found t ↦ ∃ left right, found = (left, right) ∧ t = s ∧
      left.nameless = a ∧ right.nameless = b ∧
        left.Below s.nextVariable ∧ right.Below s.nextVariable := by
  intro hs
  obtain ⟨e, he, hform⟩ := h
  have hbelow := hs.below he
  obtain ⟨left, right, rfl, rfl, rfl⟩ := Expression.exists_of_nameless_eq_equals hform
  refine Achieves.read (get?_lookup_run he) (.pure ?_) hs
  exact ⟨left, right, rfl, rfl, rfl, rfl, hbelow.1, hbelow.2⟩

/-- A statement that is no equation is refused without a change. -/
theorem sides_run_error {name : String} {e : Expression} (h : s.get? name = some e)
    (he : ∀ a b, e ≠ .equals a b) :
    (sides name).run.run s = (.error (.notAnEquation name e), s) := by
  unfold sides
  rw [run_bind_ok (get?_lookup_run h)]
  split
  · rename_i a b
    exact absurd rfl (he a b)
  · rfl

/-- Binding one value after the other succeeds as long as there are quantifiers to open. -/
theorem bindAll_achieves {target : String} {values : List Expression} {a b : Nameless}
    (h : s.Shows target a) (hopens : a.Opens values b)
    (hvalues : ∀ e ∈ values, e.Below s.nextVariable) :
    Achieves (bindAll target values) s fun name t ↦ t.Shows name b := by
  induction hopens generalizing s target with
  | nil => exact .pure h
  | cons _ ih =>
    obtain ⟨hvalue, hvalues⟩ := List.forall_mem_cons.1 hvalues
    refine (bind_achieves h hvalue).bind fun name t hretains hname ↦ ?_
    exact ih hname fun e he ↦ hretains.below (hvalues e he)

end Building

/-! ### Attempts that succeed -/

namespace Attempt

open ProofState

variable {μ α β : Type} {x : Session μ}

/-- The same for an attempt to prove something. -/
def Achieves (act : Attempt μ α) (x : Session μ) (post : α → ProofState → Prop) : Prop :=
  x.state.Settled → ∃ a y, act.run.run x = (.ok a, y) ∧ x.state.Retains y.state ∧ post a y.state

/-- An answer of an attempt that is already there. -/
theorem Achieves.pure {a : α} {post : α → ProofState → Prop} (h : post a x.state) :
    Achieves (Pure.pure a) x post := fun hx ↦ ⟨a, x, rfl, .refl hx, h⟩

/-- Attempts chain as steps do; only the proof state of the session is retained. -/
theorem Achieves.bind {act : Attempt μ α} {next : α → Attempt μ β} {post : α → ProofState → Prop}
    {post' : β → ProofState → Prop} (h : Achieves act x post)
    (hnext : ∀ a y, x.state.Retains y.state → post a y.state → Achieves (next a) y post') :
    Achieves (act >>= next) x post' := by
  intro hx
  obtain ⟨a, y, hrun, hretains, hpost⟩ := h hx
  obtain ⟨b, z, hrun', hretains', hpost'⟩ := hnext a y hretains hpost hretains.settled
  exact ⟨b, z, (run_bind_ok hrun).trans hrun', hretains.trans hretains', hpost'⟩

/-- A step that succeeds inside an attempt leaves the rest of the session alone. -/
theorem step_run {act : Building α} {a : α} {t : ProofState}
    (h : act.run.run x.state = (.ok a, t)) :
    (step act : Attempt μ α).run.run x = (.ok a, { x with state := t }) := by
  show ((act.run.run x.state).1.mapError _, { x with state := (act.run.run x.state).2 }) = _
  rw [h]
  rfl

/-- A step that achieves something does so inside an attempt. -/
theorem Achieves.step {act : Building α} {post : α → ProofState → Prop}
    (h : Building.Achieves act x.state post) : Achieves (step act) x post := by
  intro hx
  obtain ⟨a, t, hrun, hretains, hpost⟩ := h hx
  exact ⟨a, { x with state := t }, step_run hrun, hretains, hpost⟩

/-- A step that only reads can be skipped when the rest is followed. -/
theorem Achieves.read {act : Building α} {next : α → Attempt μ β} {a : α}
    {post : β → ProofState → Prop} (hrun : act.run.run x.state = (.ok a, x.state))
    (h : Achieves (next a) x post) : Achieves (Attempt.step act >>= next) x post := by
  intro hx
  obtain ⟨b, y, hrun', hretains, hpost⟩ := h hx
  exact ⟨b, y, (run_bind_ok (step_run hrun)).trans hrun', hretains, hpost⟩

end Attempt

end NaturalDeduction
