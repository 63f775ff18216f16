import NaturalDeduction.Proofs.Rollback

/-!
# Balanced runs

What is opened is closed. A state *balances* an earlier one (`ProofState.Balances`) if it was
reached by adding only, the same deductions are open, each name stands in each of them for what it
stood for, and as many searches are under way.

Steps inside a deduction are of this kind; a search is, because a rule that is given up goes back to
where it began; and a goal or deduction of a script is as a whole, because it is closed or discarded
at the depth at which it was opened. So a script leaves a state that balances the one it began in,
however it ends (`script_balanced`).

The instance of `RunRelation` is all there is to prove: that a step, a search that counts itself,
undoing, leaving and closing each keep the relation. Undoing needs the growth of a state beside the
frames, since only a deduction that grew can be cut back to what it was.
-/

namespace NaturalDeduction

namespace ProofState

variable {s t u : ProofState}

/-! ### Frames that extend others -/

/-- The stack of frames extends itself frame by frame. -/
theorem forall₂_extends_refl (frames : List Frame) : List.Forall₂ Frame.Extends frames frames :=
  List.forall₂_same.2 fun f _ ↦ .refl f

/-- Extension composes frame by frame. -/
theorem forall₂_extends_trans {frames frames' frames'' : List Frame}
    (h : List.Forall₂ Frame.Extends frames frames')
    (h' : List.Forall₂ Frame.Extends frames' frames'') :
    List.Forall₂ Frame.Extends frames frames'' :=
  forall₂_compose h h' fun _ _ _ ↦ .trans

theorem searching_truncate (s : ProofState) (depth : Nat) :
    (s.truncate depth).searching = s.searching := by
  unfold truncate
  split <;> rfl

theorem searching_setFrameAt (s : ProofState) (index : Nat) (f : Frame) :
    (s.setFrameAt index f).searching = s.searching := by
  unfold setFrameAt
  split <;> rfl

/-- Going back where nothing was opened leaves the frames around the current one. -/
theorem Grows.frames_rollback (h : s.Grows true t) (hdepth : t.depth = s.depth) :
    (t.rollback s.checkpoint).frames = s.current :: t.enclosing := by
  have henclosing : (t.rollback s.checkpoint).enclosing = t.enclosing := by
    show (t.truncate s.depth).enclosing = t.enclosing
    rw [← hdepth, truncate_depth]
  rw [frames, h.restores.current, henclosing]

/-- What is left of a deduction that was opened is what is around it. -/
theorem truncate_frames {f : Frame} {rest : List Frame} (h : t.frames = f :: rest)
    (hlength : rest.length = s.depth) : (t.truncate s.depth).frames = rest := by
  cases rest with
  | nil => exact absurd hlength (Nat.ne_of_lt s.depth_pos)
  | cons g outer =>
    have hframes : t.frames = [f] ++ g :: outer := h
    rw [← hlength]
    exact congrArg frames (truncate_eq hframes)

/-! ### States that balance others -/

/-- Whether a state was reached by adding only, and the same deductions are open, in which each name
stands for what it stood for, and as many searches are under way. -/
structure Balances (s t : ProofState) : Prop where
  grows : s.Grows true t
  frames : List.Forall₂ Frame.Extends s.frames t.frames
  searching : t.searching = s.searching

/-- Balanced runs follow each other. -/
theorem Balances.trans (h : s.Balances t) (h' : t.Balances u) : s.Balances u :=
  ⟨h.grows.trans h'.grows, forall₂_extends_trans h.frames h'.frames,
    h'.searching.trans h.searching⟩

theorem Balances.depth (h : s.Balances t) : t.depth = s.depth := h.frames.length_eq.symm

/-- The current deduction is the innermost of the frames that were extended. -/
theorem Balances.current (h : s.Balances t) : s.current.Extends t.current :=
  (List.forall₂_cons.1 h.frames).1

instance : RunRelation Balances where
  trans := .trans
  of_current {s f} h _ _ _ :=
    ⟨.of_current h.toGrows, .cons h (forall₂_extends_refl s.enclosing), rfl⟩
  depth_le h := h.grows.depth_le
  define := define_of_grows .trans Balances.grows fun {s inner outer f e} hframes he hname ↦ by
    have hfree : f.deduction.get? e.name = none :=
      deduction_get?_generatedName hname (hframes ▸ by simp)
    have hgrows := grows_setFrameAt (s := s.numbered) hframes he
    refine ⟨hgrows, ?_, searching_setFrameAt _ _ _⟩
    rw [frames_setFrameAt (s := s.numbered) hframes, hframes]
    exact List.rel_append (forall₂_extends_refl inner)
      (.cons (.add hfree) (forall₂_extends_refl outer))
  search {s t} h := ⟨h.grows, h.frames, by
    have hsearching : t.searching = s.searching + 1 := h.searching
    show t.searching - 1 = s.searching
    omega⟩
  rollback {s t} h := by
    refine ⟨h.grows.restores.grows, ?_, (t.searching_truncate s.depth).trans h.searching⟩
    rw [h.grows.frames_rollback h.depth]
    exact .cons (.refl s.current) (List.forall₂_cons.1 h.frames).2
  truncate {s t} h := by
    rw [← h.depth, truncate_depth]
    exact h
  leave {s t name} h := by
    obtain ⟨-, houter⟩ := List.forall₂_cons.1 h.frames
    refine ⟨((s.grows_opened name).trans h.grows).truncate, ?_, ?_⟩
    · rw [truncate_frames rfl houter.length_eq.symm]
      exact houter
    · exact (t.searching_truncate s.depth).trans h.searching

end ProofState

/-! ### The theorem -/

variable {μ : Type}

/-- **Scripts are balanced and only add.** However a script ends, the deductions that were open are
open again and no other one is, and each begins with the name, entries, parameters, rules and
abbreviations that it had. A user's tactics have to be balanced as well. -/
theorem script_balanced {external : External μ} (hexternal : external.Respects ProofState.Balances)
    (text : String) (session : Session μ) :
    let t := (Script.run (Search.prover external) text session).2.state
    t.depth = session.state.depth ∧ List.Forall₂ Frame.Grows session.state.frames t.frames := by
  have hbalances := Script.run_keeps (Search.prover_respects hexternal) text session
  exact ⟨hbalances.depth, hbalances.frames.imp fun _ _ h ↦ h.toGrows⟩

/-- A script that supposes a statement, and stops inside a goal that is inside a deduction. -/
theorem script_balanced_missed_goal :
    let session : Session Unit := ⟨(Host.start 0 16 ()).bench.state, ()⟩
    let text := "(suppose H (P 1)) (deduction D (forall x) (goal g (-> (Q x) (R x)) (introduce)))"
    let ran := Script.run (Search.prover .none) text session
    ran.1.isOk = false ∧ ran.2.state.history.length = session.state.history.length + 1 ∧
      ran.2.state.depth = session.state.depth ∧
      List.Forall₂ Frame.Grows session.state.frames ran.2.state.frames := by
  intro session text ran
  exact ⟨by decide +kernel, by decide +kernel, script_balanced External.none_respects text session⟩

end NaturalDeduction
