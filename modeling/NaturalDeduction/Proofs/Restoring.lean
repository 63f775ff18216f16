import NaturalDeduction.Proofs.Keeping

/-!
# Going back

What was added inside a deduction can be undone: going back to a checkpoint brings back the frame
that was current there, exactly as it was, as long as that frame was neither closed nor cut back
behind the checkpoint. The frames around it are as they were, up to definitions that were supposed
in them meanwhile (`ProofState.Restores`).

So growth is one of the relations that searches keep (`RunRelation`), although they go back:
whatever they go back to, they come from. A user's tactics have to do the same
(`External.Additive`). Catching an abort goes back to where the attempt began.

Main statements: `ProofState.Grows.restores` for going back to a checkpoint, `Restores.frames_eq`
for when nothing at all is left, and `Attempt.restores_of_catchAbort`.
-/

namespace NaturalDeduction

namespace ProofState

variable {defining : Bool} {s t u : ProofState}

/-! ### Closing deductions -/

/-- Whether a state was reached by leaving deductions, and adding to the one that was then current.
No names are generated for that. -/
def Closes (s t : ProofState) : Prop :=
  t.nextName = s.nextName ∧ ∃ n f, s.frames.drop n = f :: t.enclosing ∧ f.Grows t.current

theorem Closes.refl (s : ProofState) : s.Closes s := ⟨rfl, 0, s.current, rfl, .refl _⟩

/-- Deductions that are left one after the other are left. -/
theorem Closes.trans (hst : s.Closes t) (htu : t.Closes u) : s.Closes u := by
  obtain ⟨hname, n, f, ht, hf⟩ := hst
  obtain ⟨hname', m, g, hu, hg⟩ := htu
  refine ⟨hname'.trans hname, ?_⟩
  cases m with
  | zero =>
    obtain ⟨rfl, henclosing⟩ := List.cons.inj hu
    exact ⟨n, f, henclosing ▸ ht, hf.trans hg⟩
  | succ m =>
    refine ⟨n + (m + 1), g, ?_, hg⟩
    rw [← List.drop_drop, ht]
    exact hu

/-- Closing deductions that were opened inside leaves the deduction open. -/
theorem Within.closes {B O : Frame → Frame → Prop} (hst : s.Within B O t) (htu : t.Closes u)
    (hdepth : s.depth ≤ u.depth) (hB : ∀ f g h, B f g → g.Grows h → B f h) : s.Within B O u := by
  obtain ⟨inner, base, outer, ht, hbase, houter⟩ := hst
  obtain ⟨-, n, f, hu, hf⟩ := htu
  have hlength : outer.length ≤ u.enclosing.length := by
    rw [← houter.length_eq]
    exact Nat.le_of_succ_le_succ hdepth
  -- what is dropped lies inside of the frame of the deduction
  have hn : n ≤ inner.length := by
    have hdrop := congrArg List.length hu
    rw [ht, List.length_drop, List.length_append, List.length_cons, List.length_cons] at hdrop
    omega
  rw [ht, List.drop_append_of_le_length hn] at hu
  cases hinner : inner.drop n with
  | nil =>
    rw [hinner] at hu
    obtain ⟨rfl, rfl⟩ := List.cons.inj hu
    exact ⟨[], u.current, u.enclosing, rfl, hB _ _ _ hbase hf, houter⟩
  | cons c rest =>
    rw [hinner] at hu
    obtain ⟨rfl, henclosing⟩ := List.cons.inj hu
    exact ⟨u.current :: rest, base, outer, by rw [frames, ← henclosing]; rfl, hbase, houter⟩

/-- Closing deductions that were opened inside keeps what has grown. -/
theorem Grows.closes (hst : s.Grows defining t) (htu : t.Closes u) (hdepth : s.depth ≤ u.depth) :
    s.Grows defining u := hst.within.closes htu hdepth fun _ _ _ ↦ .trans

/-- The depth tells how many frames are further in. -/
theorem depth_of_frames {inner outer : List Frame} {f : Frame}
    (h : s.frames = inner ++ f :: outer) :
    s.depth = inner.length + (outer.length + 1) := by
  rw [← List.length_cons, ← List.length_append, ← h]
  rfl

/-- What is within a state has at least the frames of the state. -/
theorem Within.depth_le {B O : Frame → Frame → Prop} (h : s.Within B O t) : s.depth ≤ t.depth := by
  obtain ⟨inner, base, outer, ht, -, houter⟩ := h
  rw [depth_of_frames ht, ← houter.length_eq]
  exact Nat.le_add_left _ _

/-- If it is not deeper, these are all the frames that there are. -/
theorem Within.of_depth_eq {B O : Frame → Frame → Prop} (h : s.Within B O t)
    (hdepth : t.depth = s.depth) :
    B s.current t.current ∧ List.Forall₂ O s.enclosing t.enclosing := by
  obtain ⟨inner, base, outer, ht, hbase, houter⟩ := h
  rw [depth_of_frames ht, ← houter.length_eq] at hdepth
  have hinner : inner = [] := List.eq_nil_of_length_eq_zero (Nat.add_eq_right.1 hdepth)
  subst hinner
  obtain ⟨rfl, rfl⟩ := List.cons.inj ht
  exact ⟨hbase, houter⟩

theorem Grows.depth_le (h : s.Grows defining t) : s.depth ≤ t.depth := h.within.depth_le

/-- To truncate to a frame leaves it and what is around it. -/
theorem truncate_eq {inner outer : List Frame} {f : Frame} (h : s.frames = inner ++ f :: outer) :
    s.truncate (outer.length + 1) = s.outside f outer := by
  have hmax : max (outer.length + 1) 1 = outer.length + 1 := Nat.max_eq_left (Nat.le_add_left 1 _)
  rw [truncate, depth_of_frames h, hmax, Nat.add_sub_cancel, h, List.drop_left]
  rfl

/-- Truncating leaves deductions, and no more of them than it has to. -/
theorem truncate_closes (s : ProofState) (depth : Nat) :
    s.Closes (s.truncate depth) ∧ min s.depth depth ≤ (s.truncate depth).depth := by
  unfold truncate
  split
  · exact ⟨.refl s, Nat.min_le_left _ _⟩
  · rename_i f rest hdrop
    refine ⟨⟨rfl, _, f, hdrop, .refl f⟩, ?_⟩
    have hlength := congrArg List.length hdrop
    rw [List.length_drop, List.length_cons] at hlength
    have hframes : s.frames.length = s.depth := rfl
    show min s.depth depth ≤ rest.length + 1
    omega

/-! ### Rolling back -/

/-- Whether the current frame is the same, and the frames around have at most definitions added. -/
structure Restores (s t : ProofState) : Prop where
  current : t.current = s.current
  enclosing : List.Forall₂ Frame.GrowsByDefinitions s.enclosing t.enclosing

/-- A state that was brought back has grown, by definitions further out at most. -/
theorem Restores.grows (h : s.Restores t) : s.Grows true t :=
  ⟨[], t.current, t.enclosing, rfl, h.current ▸ .refl _, h.enclosing⟩

/-- Frames that grow by definitions have more entries, unless they are the same. This is how a count
of entries can show that nothing was added. -/
theorem length_le_and_eq_of_forall₂ {fs gs : List Frame}
    (h : List.Forall₂ Frame.GrowsByDefinitions fs gs) :
    (fs.flatMap (·.deduction.entries)).length ≤ (gs.flatMap (·.deduction.entries)).length ∧
      ((gs.flatMap (·.deduction.entries)).length = (fs.flatMap (·.deduction.entries)).length →
        gs = fs) := by
  induction h with
  | nil => exact ⟨Nat.le_refl _, fun _ ↦ rfl⟩
  | @cons f g fs gs hfg _ ih =>
    obtain ⟨hle, heq⟩ := ih
    have hentries := hfg.grows.entries.length_le
    simp only [List.flatMap_cons, List.length_append]
    refine ⟨Nat.add_le_add hentries hle, fun hlength ↦ ?_⟩
    rw [hfg.eq_of_length_eq (by omega), heq (by omega)]

/-- All frames are the same if no definition was added. -/
theorem Restores.frames_eq (h : s.Restores t) (hlength : t.history.length = s.history.length) :
    t.frames = s.frames := by
  have hhistory : ∀ r : ProofState, r.history.length = r.current.deduction.entries.length +
      (r.enclosing.flatMap (·.deduction.entries)).length := fun r ↦ List.length_append
  have hcurrent := h.current
  rw [hhistory, hhistory, hcurrent] at hlength
  rw [frames, frames, hcurrent, (length_le_and_eq_of_forall₂ h.enclosing).2 (by omega)]

/-- Going back to a checkpoint restores what has grown since. -/
theorem Grows.restores (h : s.Grows true t) : s.Restores (t.rollback s.checkpoint) := by
  obtain ⟨inner, base, outer, ht, hbase, houter⟩ := h
  have htruncate : t.truncate s.checkpoint.depth = t.outside base outer := by
    have hdepth : s.checkpoint.depth = outer.length + 1 := congrArg (· + 1) houter.length_eq
    rw [hdepth, truncate_eq ht]
  have hentries := List.suffix_iff_eq_drop.1 hbase.entries
  have hparameters := List.prefix_iff_eq_take.1 hbase.parameters
  have hrules := List.prefix_iff_eq_take.1 hbase.rules
  have habbreviations := List.prefix_iff_eq_take.1 hbase.abbreviations
  have hdeduction : base.deduction.truncate s.checkpoint.entries s.checkpoint.parameters =
      s.current.deduction := by
    show Deduction.mk base.deduction.name (base.deduction.parameters.take _)
      (base.deduction.entries.drop _) = _
    rw [hbase.name]
    show Deduction.mk _ (base.deduction.parameters.take s.current.deduction.parameters.length)
      (base.deduction.entries.drop
        (base.deduction.entries.length - s.current.deduction.entries.length)) = _
    rw [← hentries, ← hparameters]
    cases s.current.deduction
    rfl
  refine ⟨?_, ?_⟩
  · rw [rollback, htruncate]
    show Frame.mk (base.deduction.truncate s.checkpoint.entries s.checkpoint.parameters)
      (base.rules.take s.current.rules.length)
      (base.abbreviations.take s.current.abbreviations.length) = _
    rw [hdeduction, ← hrules, ← habbreviations]
  · rw [rollback, htruncate]
    exact houter

end ProofState

/-! ### Growth as a relation -/

namespace ProofState

variable {defining : Bool} {s t : ProofState}

/-- The deduction is still open if no more is left than was opened inside. -/
theorem Within.truncate {B O : Frame → Frame → Prop} (h : s.Within B O t)
    (hB : ∀ f g h, B f g → g.Grows h → B f h) : s.Within B O (t.truncate s.depth) := by
  obtain ⟨hcloses, hdepth⟩ := t.truncate_closes s.depth
  rw [Nat.min_eq_right h.depth_le] at hdepth
  exact h.closes hcloses hdepth hB

/-- Leaving what was opened further in keeps growth. -/
theorem Grows.truncate (h : s.Grows defining t) : s.Grows defining (t.truncate s.depth) :=
  h.within.truncate fun _ _ _ ↦ .trans

theorem grows_opened (s : ProofState) (name : String) : s.Grows defining (s.opened name) :=
  ⟨[_], s.current, s.enclosing, rfl, .refl _, forall₂_stays_refl _⟩

theorem grows_setFrameAt {inner outer : List Frame} {f : Frame} {e : Entry}
    (h : s.frames = inner ++ f :: outer) (he : f.Defines e) :
    s.Grows true (s.setFrameAt outer.length (f.add e)) := by
  have hframes := frames_setFrameAt h (f.add e)
  cases inner with
  | nil =>
    obtain ⟨rfl, rfl⟩ := List.cons.inj h
    exact ⟨[], _, _, hframes, .add _ _, forall₂_stays_refl _⟩
  | cons c rest =>
    obtain ⟨rfl, henclosing⟩ := List.cons.inj h
    refine ⟨[], s.current, _, hframes, .refl _, ?_⟩
    rw [henclosing]
    exact List.rel_append (forall₂_stays_refl rest) (.cons (.add he) (forall₂_stays_refl outer))

end ProofState

instance (defining : Bool) : StepRelation fun s t ↦ s.Grows defining t where
  trans := .trans
  of_current h _ _ _ := .of_current h.toGrows

instance (defining : Bool) : CallRelation fun s t ↦ s.Grows defining t where
  opened := ProofState.grows_opened
  limit _ _ := .of_frames rfl

instance : RunRelation fun s t ↦ s.Grows true t where
  depth_le := ProofState.Grows.depth_le
  define := ProofState.define_of_grows .trans id
    fun {s _ _ _ _} hframes he _ ↦ ProofState.grows_setFrameAt (s := s.numbered) hframes he
  search h := h
  rollback h := h.restores.grows
  truncate := .truncate
  leave {s _ name} h := ((s.grows_opened name).trans h).truncate

/-! ### Attempts -/

variable {μ : Type} {x : Session μ}

/-- An attempt whose abort is caught leaves everything as it was. -/
theorem Attempt.restores_of_catchAbort {α : Type} {name : Option String} {act : Attempt μ α}
    (h : Adds true act x) {abort : Abort} {y : Session μ}
    (hrun : (catchAbort name act).run.run x = (.ok (.error abort), y)) :
    x.state.Restores y.state := by
  have hgrows : x.state.Grows true (act.run.run x).2.state := h
  have houtcome : (outcome act).run.run x = (.ok (act.run.run x).1, (act.run.run x).2) := rfl
  unfold catchAbort at hrun
  rw [proofState_bind_run, run_bind_eq, houtcome] at hrun
  dsimp only at hrun
  cases hresult : (act.run.run x).1 with
  | ok a => rw [hresult] at hrun; cases hrun
  | error setback =>
    rw [hresult] at hrun
    cases setback with
    | failed goal reason => cases hrun
    | refused refusal => cases hrun
    | aborted found =>
      dsimp only at hrun
      split at hrun
      · obtain ⟨-, rfl⟩ := Prod.mk.inj hrun
        exact hgrows.restores
      · cases hrun

/-! ### Additive searches and tactics -/

/-- Whether a search only adds. -/
def Prover.Additive (p : Prover μ) : Prop :=
  ∀ (goal : Expression) (x : Session μ), Adds true (p.prove goal) x

/-- Whether a user's tactics only add, given a search that does. -/
def External.Additive (external : External μ) : Prop :=
  ∀ (key : Nat) (p : Prover μ) (bindings : Bindings) (goal : Expression) (x : Session μ),
    p.Additive → Adds true (external.run key p bindings goal) x

/-- Without a user's tactics there is nothing to ask. -/
theorem External.none_additive : (External.none : External μ).Additive :=
  External.none_respects (R := fun s t ↦ s.Grows true t)

end NaturalDeduction
