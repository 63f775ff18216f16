import NaturalDeduction.Proofs.Balance
import NaturalDeduction.Proofs.Shadowing

/-!
# What searches leave

A search adds to the open deductions in two ways only: it infers in the current one, and it supposes
definitions in the frames of their abbreviations. It generates a name for each entry, and a
generated name is one that is not visible. So a frame is left with entries in front whose names were
not visible before, and which are inferred unless they define an abbreviation of that frame
(`Frame.Enriched`). Nothing else about the frames changes.

It follows that every name stands for what it stood for in the whole state, and not only in its own
frame (`ProofState.Enriches.find?`), that the rules and abbreviations are the same, and that a frame
without abbreviations has no new condition.

Main definitions and statements:

* `Frame.Enriched`: a frame with entries in front. It refers to the state in which names were not
  visible yet, so it is not a relation between frames alone.
* `ProofState.Enriches`: all frames, the current one included.
* `ProofState.Enriches.find?`: names are kept.
* The instance of `SearchRelation`: searches enrich, whatever they try and give up.
-/

namespace NaturalDeduction

/-- Whether a frame is another one with entries in front: their names were not visible, and they are
inferred, or define an abbreviation of the frame. -/
def Frame.Enriched (s : ProofState) (f g : Frame) : Prop :=
  ∃ es : List Entry, g = f.addAll es ∧
    ∀ e ∈ es, s.find? e.name = none ∧ (e.isCondition = true → f.Defines e)

/-- Whether a state was reached by adding entries whose names were not visible. -/
structure ProofState.Enriches (s t : ProofState) : Prop where
  grows : s.Grows true t
  frames : List.Forall₂ (Frame.Enriched s) s.frames t.frames
  searchLimit : t.searchLimit = s.searchLimit
  searching : t.searching = s.searching

namespace Frame

variable {s : ProofState} {f g h : Frame}

/-- A frame with nothing added. -/
theorem Enriched.refl (s : ProofState) (f : Frame) : f.Enriched s f :=
  ⟨[], f.addAll_nil.symm, fun _ he ↦ absurd he List.not_mem_nil⟩

/-- One entry with a name that was not visible. -/
theorem Enriched.add {e : Entry} (hname : s.find? e.name = none)
    (he : e.isCondition = true → f.Defines e) : f.Enriched s (f.add e) :=
  ⟨[e], rfl, fun _ h ↦ List.mem_singleton.1 h ▸ ⟨hname, he⟩⟩

/-- Entries added later have names that were not visible then, so they were not visible before
either. -/
theorem Enriched.trans {t : ProofState} (hfg : f.Enriched s g) (hgh : g.Enriched t h)
    (hst : ∀ name, t.find? name = none → s.find? name = none) : f.Enriched s h := by
  obtain ⟨es, rfl, hes⟩ := hfg
  obtain ⟨es', rfl, hes'⟩ := hgh
  refine ⟨es' ++ es, by simp [addAll], fun e he ↦ ?_⟩
  rcases List.mem_append.1 he with he | he
  · exact ⟨hst _ (hes' e he).1, fun hcondition ↦ (hes' e he).2 hcondition⟩
  · exact hes e he

theorem Enriched.rules (h : f.Enriched s g) : g.rules = f.rules := by
  obtain ⟨es, rfl, -⟩ := h
  rfl

theorem Enriched.abbreviations (h : f.Enriched s g) : g.abbreviations = f.abbreviations := by
  obtain ⟨es, rfl, -⟩ := h
  rfl

/-- A name that was visible stands in each frame for what it stood for there. -/
theorem Enriched.find? {name : String} (h : f.Enriched s g) (hname : s.find? name ≠ none) :
    g.deduction.find? name = f.deduction.find? name := by
  obtain ⟨es, rfl, hes⟩ := h
  have hnone : es.find? (·.name == name) = none := by
    refine List.find?_eq_none.2 fun e he hmatch ↦ hname ?_
    rw [← beq_iff_eq.1 hmatch]
    exact (hes e he).1
  show (es ++ f.deduction.entries).find? (·.name == name) = _
  rw [List.find?_append, hnone]
  rfl

/-- Where there are no abbreviations, no condition is added. -/
theorem Enriched.conditions (h : f.Enriched s g) (hf : f.abbreviations = []) :
    g.deduction.conditions = f.deduction.conditions := by
  obtain ⟨es, rfl, hes⟩ := h
  have hinferred : es.filter (·.isCondition) = [] := by
    refine List.filter_eq_nil_iff.2 fun e he hcondition ↦ ?_
    obtain ⟨-, a, ha, -⟩ := (hes e he).2 hcondition
    rw [hf] at ha
    exact absurd ha List.not_mem_nil
  show (((es ++ f.deduction.entries).filter (·.isCondition)).map (·.statement)).reverse = _
  rw [List.filter_append, hinferred]
  rfl

end Frame

namespace ProofState

variable {s t u : ProofState} {name : String}

/-- All frames as they were. -/
theorem forall₂_enriched_refl (s : ProofState) (frames : List Frame) :
    List.Forall₂ (Frame.Enriched s) frames frames := List.forall₂_same.2 fun f _ ↦ .refl s f

/-- A name that is found anywhere is found in the same frame as before: no frame further in took it.
-/
theorem findSome?_eq_of_forall₂ {fs gs : List Frame} (h : List.Forall₂ (Frame.Enriched s) fs gs)
    (hname : s.find? name ≠ none) : gs.findSome? (·.deduction.find? name) =
      fs.findSome? (·.deduction.find? name) := by
  induction h with
  | nil => rfl
  | cons hfg _ ih => rw [List.findSome?_cons, List.findSome?_cons, hfg.find? hname, ih]

/-- What was visible under its name still is. -/
theorem Enriches.find? (h : s.Enriches t) (hname : s.find? name ≠ none) :
    t.find? name = s.find? name := findSome?_eq_of_forall₂ h.frames hname

/-- What a name stands for is kept. -/
theorem Enriches.get? {e : Expression} (h : s.Enriches t) (hname : s.get? name = some e) :
    t.get? name = some e := by
  obtain ⟨entry, hentry, -⟩ := Option.map_eq_some_iff.1 hname
  rw [ProofState.get?, h.find? (by rw [hentry]; exact Option.some_ne_none entry)]
  exact hname

/-- A name that is free later was free before. -/
theorem Enriches.find?_eq_none (h : s.Enriches t) (hname : t.find? name = none) :
    s.find? name = none := by
  by_contra hne
  rw [h.find? hne] at hname
  exact hne hname

/-- Searches follow each other. The frames compose by what is said of names in between. -/
theorem Enriches.trans (h : s.Enriches t) (h' : t.Enriches u) : s.Enriches u where
  grows := h.grows.trans h'.grows
  frames := forall₂_compose h.frames h'.frames fun _ _ _ hfg hgh ↦
    hfg.trans hgh fun _ ↦ h.find?_eq_none
  searchLimit := h'.searchLimit.trans h.searchLimit
  searching := h'.searching.trans h.searching

/-- As many deductions are open as before. -/
theorem Enriches.depth (h : s.Enriches t) : t.depth = s.depth := h.frames.length_eq.symm

/-- The innermost frame is among those that were enriched. -/
theorem Enriches.current (h : s.Enriches t) : s.current.Enriched s t.current :=
  (List.forall₂_cons.1 h.frames).1

/-- A property that entries in front do not affect is kept by all frames. -/
theorem Enriches.forall_frames (h : s.Enriches t) {p : Frame → Prop}
    (hp : ∀ f es, p f → p (f.addAll es)) (hs : ∀ f ∈ s.frames, p f) : ∀ f ∈ t.frames, p f := by
  obtain ⟨-, hframes, -, -⟩ := h
  revert hs
  generalize s.frames = fs at hframes
  generalize t.frames = gs at hframes
  intro hs
  induction hframes with
  | nil => exact hs
  | cons hfg _ ih =>
    obtain ⟨hf, hfs⟩ := List.forall_mem_cons.1 hs
    obtain ⟨es, rfl, -⟩ := hfg
    exact List.forall_mem_cons.2 ⟨hp _ es hf, ih hfs⟩

theorem searchLimit_truncate (s : ProofState) (depth : Nat) :
    (s.truncate depth).searchLimit = s.searchLimit := by
  unfold truncate
  split <;> rfl

theorem searchLimit_setFrameAt (s : ProofState) (index : Nat) (f : Frame) :
    (s.setFrameAt index f).searchLimit = s.searchLimit := by
  unfold setFrameAt
  split <;> rfl

/-- Undoing cuts the current frame back to what it was and leaves the definitions further out. -/
theorem Enriches.rollback (h : s.Enriches t) : s.Enriches (t.rollback s.checkpoint) := by
  refine ⟨h.grows.restores.grows, ?_, (t.searchLimit_truncate s.depth).trans h.searchLimit,
    (t.searching_truncate s.depth).trans h.searching⟩
  rw [h.grows.frames_rollback h.depth]
  exact .cons (.refl s s.current) (List.forall₂_cons.1 h.frames).2

/-- A definition whose name was not visible may be added to the frame of its abbreviation. -/
theorem Enriches.define {inner outer : List Frame} {f : Frame} {e : Entry}
    (hframes : s.frames = inner ++ f :: outer) (he : f.Defines e) (hname : s.find? e.name = none) :
    s.Enriches (s.setFrameAt outer.length (f.add e)) := by
  refine ⟨grows_setFrameAt hframes he, ?_, searchLimit_setFrameAt .., searching_setFrameAt ..⟩
  rw [frames_setFrameAt hframes, hframes]
  exact List.rel_append (forall₂_enriched_refl s inner)
    (.cons (.add hname fun _ ↦ he) (forall₂_enriched_refl s outer))

/-- Counters are no part of what is enriched. -/
theorem Enriches.count (s : ProofState) (nextName nextVariable : Nat) :
    s.Enriches { s with nextName := nextName, nextVariable := nextVariable } :=
  ⟨.of_frames rfl, forall₂_enriched_refl s s.frames, rfl, rfl⟩

/-- An inference may be added under a name that was not visible. -/
theorem Enriches.infer {e : Entry} (hname : s.find? e.name = none) (he : e.isCondition = false) :
    s.Enriches (s.add e) := by
  have hderived : e.isCondition = true → s.current.Defines e := fun h ↦ by simp [he] at h
  exact ⟨.of_current (.add s.current e),
    .cons (.add hname hderived) (forall₂_enriched_refl s s.enclosing), rfl, rfl⟩

/-- What a search was counted for while it was under way. -/
theorem Enriches.search (h : Enriches { s with searching := s.searching + 1 } t) :
    s.Enriches { t with searching := t.searching - 1 } := by
  have hsearching : t.searching = s.searching + 1 := h.searching
  refine ⟨h.grows, h.frames, h.searchLimit, ?_⟩
  show t.searching - 1 = s.searching
  omega

instance : SearchRelation Enriches where
  trans := .trans
  count s _ _ _ := .count s _ _
  infer {s _} hname he := .trans (.count s _ s.nextVariable)
    (.infer (s := s.numbered) (hname ▸ s.find?_generatedName) he)
  define := define_of_grows .trans Enriches.grows fun {s _ _ _ _} hframes he hname ↦
    .trans (.count s _ s.nextVariable)
      (.define (s := s.numbered) hframes he (hname ▸ s.find?_generatedName))
  search := .search
  rollback := .rollback

end ProofState

end NaturalDeduction
