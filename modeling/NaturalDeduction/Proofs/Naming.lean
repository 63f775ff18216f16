import NaturalDeduction.Proofs.Refused
import NaturalDeduction.Proofs.Rollback
import NaturalDeduction.Proofs.Shadowing

/-!
# Generated names

A generated name is one that no visible statement has, so an inference is never refused because its
name is taken, and neither is an unnamed supposition.

For a deduction that is opened without a name this is not enough. Its name is generated when it is
opened, and its theorem gets that name when it is closed. Meanwhile statements may be added to the
frames around it. But only searches and scripts do that, to suppose definitions, and these get
names with numbers from the counter of names, which only moves forwards, also when a state is gone
back from (`ProofState.Spares`). Users, who may spell any name, only add to the current deduction.
So the name is still unused around the deduction when the deduction is closed, as long as it has
been open all the time (`ProofState.Spares.unused`).

What closes a deduction goes by its depth. If the deduction has been closed meanwhile and another
one was opened at that depth, then it is that one which is closed, under its own name, and this name
may be taken (`exists_conclude_taken`).

Main definitions and statements:

* `ProofState.Spares`: names that were not generated yet stay unused around a deduction.
* `ProofState.Unused`: the name of a deduction is free in all frames around it.
* `Building.NamesAnew`: a computation that is not refused for its name, and answers one that is
  new.
* `generatedNames_anew`: all inferences, unnamed suppositions, and closings of deductions without
  a name.
-/

namespace NaturalDeduction

/-! ### Names that stay unused -/

/-- Whether a frame is of the same deduction, and no generated name with a number below `n` has come
into use in it. -/
structure Frame.Spares (n : Nat) (f g : Frame) : Prop where
  name : g.deduction.name = f.deduction.name
  find? : ∀ k < n, f.deduction.find? (ProofState.generatedName k) = none →
    g.deduction.find? (ProofState.generatedName k) = none

namespace Frame.Spares

variable {m n : Nat} {f g h : Frame}

theorem refl (n : Nat) (f : Frame) : f.Spares n f := ⟨rfl, fun _ _ ↦ id⟩

/-- The counter may have moved forwards meanwhile. -/
theorem trans (hnm : n ≤ m) (hfg : f.Spares n g) (hgh : g.Spares m h) : f.Spares n h where
  name := hgh.name.trans hfg.name
  find? k hk hfree := hgh.find? k (Nat.lt_of_lt_of_le hk hnm) (hfg.find? k hk hfree)

/-- An entry with a name that was not generated before. -/
theorem add {e : Entry} (he : ∀ k < n, e.name ≠ ProofState.generatedName k) :
    f.Spares n (f.add e) where
  name := rfl
  find? k hk hfree := by
    have hne : (e.name == ProofState.generatedName k) = false := beq_eq_false_iff_ne.2 (he k hk)
    show (e :: f.deduction.entries).find? _ = none
    rw [List.find?_cons, hne]
    exact hfree

theorem forall₂_refl (n : Nat) (frames : List Frame) :
    List.Forall₂ (Frame.Spares n) frames frames := List.forall₂_same.2 fun f _ ↦ .refl n f

/-- Frame by frame, an unused name stays unused. -/
theorem find?_of_forall₂ {frames frames' : List Frame} {k : Nat}
    (h : List.Forall₂ (Frame.Spares n) frames frames') (hk : k < n)
    (hfree : ∀ f ∈ frames, f.deduction.find? (ProofState.generatedName k) = none) :
    ∀ f ∈ frames', f.deduction.find? (ProofState.generatedName k) = none := by
  induction h with
  | nil => exact hfree
  | cons hf _ ih =>
    obtain ⟨hfirst, hrest⟩ := List.forall_mem_cons.1 hfree
    exact List.forall_mem_cons.2 ⟨hf.find? k hk hfirst, ih hrest⟩

end Frame.Spares

/-- Whether two frames are of deductions with the same name. -/
def Frame.SameName (f g : Frame) : Prop := g.deduction.name = f.deduction.name

/-- Whether the current deduction of a state is still open in another one, and no name that was
generated before has come into use around it. -/
structure ProofState.Spares (s t : ProofState) : Prop where
  nextName_le : s.nextName ≤ t.nextName
  within : s.Within Frame.SameName (Frame.Spares s.nextName) t

namespace ProofState

variable {s t u : ProofState}

namespace Spares

/-- The counter only moves on, so what is spared later was spared before. -/
theorem trans (hst : s.Spares t) (htu : t.Spares u) : s.Spares u where
  nextName_le := Nat.le_trans hst.nextName_le htu.nextName_le
  within := hst.within.trans htu.within (fun _ _ _ hfg hgh ↦ Eq.trans hgh hfg)
    (fun _ _ _ ↦ Frame.Spares.trans hst.nextName_le) fun _ _ h ↦ h.name

/-- Whatever is done to the current deduction: the frames around it are what counts. -/
theorem of_current {f : Frame} (h : s.current.SameName f) {n : Nat} (hn : s.nextName ≤ n)
    (m : Nat) :
    s.Spares { s with current := f, nextName := n, nextVariable := m } :=
  ⟨hn, [], f, s.enclosing, rfl, h, Frame.Spares.forall₂_refl _ _⟩

/-- Opening a deduction makes the current one a frame around it. -/
theorem opened (s : ProofState) (name : String) : s.Spares (s.opened name) :=
  ⟨Nat.le_refl _, [_], s.current, s.enclosing, rfl, rfl, Frame.Spares.forall₂_refl _ _⟩

/-- Closing down to where it began puts the frames back that were spared. -/
theorem closes (hst : s.Spares t) (htu : t.Closes u) (hdepth : s.depth ≤ u.depth) : s.Spares u where
  nextName_le := htu.1 ▸ hst.nextName_le
  within := hst.within.closes htu hdepth fun _ _ _ hfg hgh ↦ hgh.name.trans hfg

/-- Leaving what was opened adds nothing. -/
theorem truncate (h : s.Spares t) : s.Spares (t.truncate s.depth) := by
  obtain ⟨hcloses, hdepth⟩ := t.truncate_closes s.depth
  rw [Nat.min_eq_right h.within.depth_le] at hdepth
  exact h.closes hcloses hdepth

/-- The counter is not set back, and what is cut off the current deduction frees names only. -/
theorem rollback {c : Checkpoint} (h : s.Spares t) (hdepth : s.depth ≤ (t.rollback c).depth) :
    s.Spares (t.rollback c) := by
  have htruncate : s.Spares (t.truncate c.depth) := h.closes (t.truncate_closes c.depth).1 hdepth
  exact ⟨htruncate.nextName_le, htruncate.within.of_cut fun _ ↦ id⟩

/-- A definition is supposed under a name that is generated now. -/
theorem setFrameAt {inner outer : List Frame} {f : Frame} {e : Entry}
    (hframes : s.frames = inner ++ f :: outer) (he : e.name = generatedName s.freeNumber) :
    s.Spares (s.numbered.setFrameAt outer.length (f.add e)) := by
  have hspares : f.Spares s.nextName (f.add e) :=
    .add fun k hk ↦ he ▸ generatedName_freeNumber_ne hk
  obtain ⟨current, enclosing, hset, hsplit⟩ :=
    exists_setFrameAt_eq (s := s.numbered) hframes (f.add e)
  rw [hset]
  refine ⟨s.nextName_le_numbered, [], current, enclosing, rfl, ?_⟩
  have hall : List.Forall₂ (Frame.Spares s.nextName) s.frames (current :: enclosing) := by
    rw [hframes, hsplit]
    exact List.rel_append (Frame.Spares.forall₂_refl _ inner)
      (.cons hspares (Frame.Spares.forall₂_refl _ outer))
  obtain ⟨hcurrent, henclosing⟩ := List.forall₂_cons.1 hall
  exact ⟨hcurrent.name, henclosing⟩

/-- A definition gets a generated name, also in a frame further out. -/
theorem supposeAt (index : Nat) (definition : Expression) (s : ProofState) :
    s.Spares ((Building.supposeAt index definition).run.run s).2 := by
  cases hframe : s.frameAt? index with
  | none =>
    have hrun : ((Building.supposeAt index definition).run.run s).2 = s.numbered := by
      have hname : Building.freshName.run.run s = (.ok (generatedName s.freeNumber), s.numbered) :=
        rfl
      have hnone : s.numbered.frameAt? index = none := hframe
      rw [Building.supposeAt, run_bind_ok hname, run_bind_ok (run_get_eq _), hnone]
      rfl
    rw [hrun]
    exact .of_current rfl s.nextName_le_numbered _
  | some f =>
    obtain ⟨inner, outer, hframes, rfl⟩ := frameAt?_eq_some_iff.1 hframe
    rw [Building.supposeAt_run hframes]
    exact .setFrameAt hframes rfl

end Spares

instance : RunRelation Spares where
  trans := .trans
  of_current h _ hn _ := .of_current h.name hn _
  depth_le h := h.within.depth_le
  define {_ t _ _} _ h := h.trans (.supposeAt _ _ t)
  search h := ⟨h.nextName_le, h.within⟩
  rollback h := h.rollback h.truncate.within.depth_le
  truncate := .truncate
  leave {s _ name} h := ((Spares.opened s name).trans h).truncate

instance : CallRelation Spares where
  opened := .opened
  limit s _ := ⟨Nat.le_refl _, [], s.current, s.enclosing, rfl, rfl, Frame.Spares.forall₂_refl _ _⟩

/-- Where no deduction was opened inside, the frames around are those around the current one. -/
theorem Spares.find?_enclosing (h : s.Spares t) (hdepth : t.depth = s.depth) {k : Nat}
    (hk : k < s.nextName)
    (hfree : ∀ f ∈ s.enclosing, f.deduction.find? (generatedName k) = none) :
    ∀ f ∈ t.enclosing, f.deduction.find? (generatedName k) = none :=
  Frame.Spares.find?_of_forall₂ (h.within.of_depth_eq hdepth).2 hk hfree

/-- No name that was generated before comes into use around a deduction unless it is left. -/
theorem Spares.of_above (h : s.Spares t) (hcases : t.Spares u ∨ t.Closes u ∨ ∃ c, u = t.rollback c)
    (hdepth : s.depth ≤ u.depth) : s.Spares u := by
  obtain hspares | hcloses | ⟨c, rfl⟩ := hcases
  · exact h.trans hspares
  · exact h.closes hcloses hdepth
  · exact h.rollback hdepth

/-! ### Deductions that are opened without a name -/

/-- The outermost `n` frames. -/
def outermost (s : ProofState) (n : Nat) : List Frame := s.frames.drop (s.depth - n)

/-- The outermost frames are what is left when the inner ones are dropped. -/
theorem outermost_eq {inner outer : List Frame} (h : s.frames = inner ++ outer) :
    s.outermost outer.length = outer := by
  have hdepth : s.depth = inner.length + outer.length := by
    rw [← List.length_append, ← h]
    rfl
  rw [outermost, hdepth, Nat.add_sub_cancel, h, List.drop_left]

/-- There are as many as asked for. -/
theorem length_outermost {n : Nat} (h : n ≤ s.depth) : (s.outermost n).length = n := by
  have hlength : s.frames.length = s.depth := rfl
  rw [outermost, List.length_drop, hlength]
  omega

/-- Whether no frame around one of the open deductions has an entry with its name. -/
def Unused (s : ProofState) (outer : List Frame) : Prop :=
  ∃ inner base, s.frames = inner ++ base :: outer ∧
    ∀ f ∈ outer, f.deduction.find? base.deduction.name = none

/-- The name of a deduction that was opened without one stays unused around it. -/
theorem Spares.unused (h : (s.numbered.opened (generatedName s.freeNumber)).Spares t) :
    t.Unused (t.outermost s.depth) := by
  obtain ⟨inner, base, outer, hframes, hbase, houter⟩ := h.within
  have hname : base.deduction.name = generatedName s.freeNumber := hbase
  have hfree : ∀ f ∈ s.frames, f.deduction.find? (generatedName s.freeNumber) = none :=
    fun _ ↦ deduction_find?_of_find? s.find?_generatedName
  have houtermost : t.outermost s.depth = outer := by
    have hlength : s.depth = outer.length := houter.length_eq
    have hsplit : t.frames = (inner ++ [base]) ++ outer := by simp [hframes]
    rw [hlength, outermost_eq hsplit]
  rw [houtermost]
  refine ⟨inner, base, hframes, ?_⟩
  rw [hname]
  exact Frame.Spares.find?_of_forall₂ houter (Nat.lt_succ_self _) hfree

end ProofState

/-- Whether an operation opens a deduction without a name. -/
def Operation.OpensUnnamed : Operation → Prop
  | .push name | .startGoal name _ => name = none
  | _ => False

/-- Each of the operations that open a deduction without a name leaves the same state. -/
theorem Workbench.perform_of_opensUnnamed {opening : Operation} (hopening : opening.OpensUnnamed)
    (w : Workbench) : (w.perform opening).state =
      w.state.numbered.opened (ProofState.generatedName w.state.freeNumber) := by
  cases opening <;> first | exact absurd hopening id | (cases hopening; rfl)

/-- Whatever is called in between keeps the names unused, searches and scripts included. -/
theorem Host.ReachesAbove.spares {μ : Type} {external : External μ} {h h' : Host μ}
    (hexternal : external.Respects ProofState.Spares)
    (hreaches : h.ReachesAbove external h.bench.state.checkpoint h') :
    h.bench.state.Spares h'.bench.state := by
  induction hreaches with
  | start => exact StepRelation.refl _
  | perform _ call habove ih =>
    exact ih.of_above (Host.perform_cases hexternal _ call) habove.depth_le

/-! ### Names that are answered

That a name is taken is one refusal among many, so an operation is followed up to the point where it
adds its entry. Everything in front of that only looks.
-/

namespace Building

variable {α : Type} {s : ProofState} {frames : List Frame}

/-- Whether a computation is not refused because a name is taken. -/
def Untaken (act : Building α) (s : ProofState) : Prop :=
  ∀ refusal, (act.run.run s).1 = .error refusal → refusal.kind ≠ "DuplicateName"

/-- Whether a computation is not refused because a name is taken, and none of the frames has an
entry with the name that it answers. -/
structure NamesAnew (act : Building String) (s : ProofState) (frames : List Frame) : Prop where
  untaken : Untaken act s
  find? : ∀ name, (act.run.run s).1 = .ok name → ∀ f ∈ frames, f.deduction.find? name = none

/-- A success is no refusal. -/
theorem Untaken.of_ok {act : Building α} {a : α} {t : ProofState}
    (hrun : act.run.run s = (.ok a, t)) : Untaken act s := by
  intro refusal hrefusal
  rw [hrun] at hrefusal
  cases hrefusal

theorem Untaken.of_error {act : Building α} {refusal : Refusal} {t : ProofState}
    (hrun : act.run.run s = (.error refusal, t)) (h : refusal.kind ≠ "DuplicateName") :
    Untaken act s := by
  intro refusal hrefusal
  rw [hrun] at hrefusal
  cases hrefusal
  exact h

/-- A success answers with a name that was new. -/
theorem NamesAnew.of_ok {act : Building String} {name : String} {t : ProofState}
    (hrun : act.run.run s = (.ok name, t)) (h : ∀ f ∈ frames, f.deduction.find? name = none) :
    act.NamesAnew s frames where
  untaken := .of_ok hrun
  find? name hname := by rw [hrun] at hname; cases hname; exact h

/-- A refusal for another reason answers with no name. -/
theorem NamesAnew.of_error {act : Building String} {refusal : Refusal} {t : ProofState}
    (hrun : act.run.run s = (.error refusal, t)) (h : refusal.kind ≠ "DuplicateName") :
    act.NamesAnew s frames where
  untaken := .of_error hrun h
  find? name hname := by rw [hrun] at hname; cases hname

theorem NamesAnew.throw {refusal : Refusal} (h : refusal.kind ≠ "DuplicateName") :
    NamesAnew (throw refusal) s frames := .of_error rfl h

/-- What is looked at first does not matter to the names. -/
theorem Untaken.bind {act : Building α} {next : α → Building String} (h : Untaken act s)
    (hlooks : Looks act s) (hnext : ∀ a t, t.frames = s.frames → (next a).NamesAnew t frames) :
    (act >>= next).NamesAnew s frames := by
  rcases hrun : act.run.run s with ⟨⟨refusal⟩ | ⟨a⟩, t⟩
  · exact .of_error (run_bind_error hrun) (h refusal (congrArg Prod.fst hrun))
  · rw [Looks, hrun] at hlooks
    have hanew := hnext a t hlooks
    have hbind : ((act >>= next).run.run s).1 = ((next a).run.run t).1 :=
      congrArg Prod.fst (run_bind_ok hrun)
    exact ⟨fun refusal ↦ hbind ▸ hanew.untaken refusal, fun name ↦ hbind ▸ hanew.find? name⟩

theorem draw_untaken (f : Fresh α) : Untaken (draw f) s := .of_ok rfl

/-- That a name is not found is another refusal than that it is taken. -/
theorem lookup_untaken (name : String) : Untaken (lookup name) s := by
  cases hfind : s.find? name with
  | some e => exact .of_ok (lookup_run hfind)
  | none => exact .of_error (lookup_run_error hfind) (by simp [Refusal.kind])

theorem resolve_untaken (r : Reference) : Untaken (resolve r) s := by
  cases r with
  | name name =>
    cases hfind : s.find? name with
    | some e => exact .of_ok (resolve_name_run hfind)
    | none => exact .of_error (run_bind_error (lookup_run_error hfind)) (by simp [Refusal.kind])
  | relative k =>
    have hrun := resolve_relative_run k s
    split at hrun
    · exact .of_ok hrun
    · exact .of_error hrun (by simp [Refusal.kind])

/-- A conclusion gets a name that no frame has. -/
theorem conclude_namesAnew (e : Expression) (j : Justification) (h : s.frames = frames) :
    (conclude e j).NamesAnew s frames := by
  subst h
  exact .of_ok (conclude_run e j s) fun _ ↦
    ProofState.deduction_find?_of_find? s.find?_generatedName

/-- An instance is concluded, so it gets a generated name. -/
theorem bind_namesAnew (target : Reference) (value : Expression) (s : ProofState) :
    (bind target value).NamesAnew s s.frames := by
  refine (resolve_untaken target).bind (resolve_looks target) fun name t ht ↦ ?_
  refine (lookup_untaken name).bind (lookup_looks name) fun statement u hu ↦ ?_
  refine (draw_untaken _).bind (draw_looks _) fun result v hv ↦ ?_
  cases result with
  | some conclusion => exact conclude_namesAnew _ _ (hv.trans (hu.trans ht))
  | none => exact .throw (by simp [Refusal.kind])

theorem apply_namesAnew (rule condition : Reference) (s : ProofState) :
    (apply rule condition).NamesAnew s s.frames := by
  refine (resolve_untaken rule).bind (resolve_looks rule) fun rule t ht ↦ ?_
  refine (resolve_untaken condition).bind (resolve_looks condition) fun condition u hu ↦ ?_
  refine (lookup_untaken rule).bind (lookup_looks rule) fun statement v hv ↦ ?_
  refine (lookup_untaken condition).bind (lookup_looks condition) fun given w hw ↦ ?_
  split
  · exact conclude_namesAnew _ _ (hw.trans (hv.trans (hu.trans ht)))
  · exact .throw (by simp [Refusal.kind])
  · exact .throw (by simp [Refusal.kind])

theorem substitute_namesAnew (target : Expression) (replacements : List Replacement)
    (chosen : Occurrences) (s : ProofState) :
    (substitute target replacements chosen).NamesAnew s s.frames :=
  (draw_untaken _).bind (draw_looks _) fun _ _ ht ↦ conclude_namesAnew _ _ ht

theorem verify_namesAnew (e : Expression) (s : ProofState) : (verify e).NamesAnew s s.frames := by
  unfold verify
  split
  · exact conclude_namesAnew _ _ rfl
  · exact .throw (by simp [Refusal.kind])

theorem suppose_namesAnew (e : Expression) (s : ProofState) :
    (suppose none e).NamesAnew s s.frames := conclude_namesAnew e .supposition rfl

/-! ### Closing -/

/-- The theorem gets the name of the deduction if no frame around has it. -/
theorem close_namesAnew {base : Frame} (h : s.frames = base :: frames)
    (hfree : ∀ f ∈ frames, f.deduction.find? base.deduction.name = none) :
    (close none).NamesAnew s frames := by
  obtain ⟨rfl, rfl⟩ := List.cons.inj h
  have hrun := close_run none s
  split at hrun
  · exact .of_error hrun (by simp [Refusal.kind])
  · exact .of_error hrun (by simp [Refusal.kind])
  · rename_i f rest e henclosing _
    have hfirst : (s.outside f rest).current.deduction.find? s.current.deduction.name = none :=
      hfree f (henclosing ▸ List.mem_cons_self)
    rw [Option.getD_none, install_run_ok hfirst] at hrun
    exact .of_ok hrun hfree

/-- A closing that is guarded answers what it would answer if the deduction were current. -/
theorem closing_namesAnew {act : Building String} {depth : Nat}
    (h : act.NamesAnew (s.truncate depth) frames) : (closing depth act).NamesAnew s frames := by
  have hrun : ((closing depth act).run.run s).1 = (act.run.run (s.truncate depth)).1 := by
    show ((tryCatch act fun refusal ↦ do abandon depth; throw refusal).run.run
      (s.truncate depth)).1 = _
    rw [run_tryCatch_eq]
    rcases act.run.run (s.truncate depth) with ⟨⟨refusal⟩ | ⟨name⟩, t⟩ <;> rfl
  exact ⟨fun refusal ↦ hrun ▸ h.untaken refusal, fun name ↦ hrun ▸ h.find? name⟩

theorem currentTheorem_looks : Looks currentTheorem s := by
  rw [Looks, currentTheorem_run]
  split <;> rfl

/-- Where there is no theorem, this is another refusal. -/
theorem currentTheorem_untaken : Untaken currentTheorem s := by
  have hrun := currentTheorem_run s
  split at hrun
  · exact .of_ok hrun
  · exact .of_error hrun (by simp [Refusal.kind])

variable {outer : List Frame}

/-- Closing the deduction at a depth. -/
theorem closing_namesAnew_of_unused {act : Building String} (h : s.Unused outer)
    (hact : ∀ t base, t.frames = base :: outer →
      (∀ f ∈ outer, f.deduction.find? base.deduction.name = none) → act.NamesAnew t outer) :
    (closing (outer.length + 1) act).NamesAnew s outer := by
  obtain ⟨inner, base, hframes, hfree⟩ := h
  refine closing_namesAnew ?_
  rw [ProofState.truncate_eq hframes]
  exact hact (s.outside base outer) base rfl hfree

/-- A deduction that is closed without a name gives its own name to the theorem. -/
theorem close_namesAnew_of_unused (h : s.Unused outer) (hdepth : s.depth = outer.length + 1) :
    (close none).NamesAnew s outer := by
  obtain ⟨inner, base, hframes, hfree⟩ := h
  rw [ProofState.depth_of_frames hframes, Nat.add_eq_right, List.length_eq_zero_iff] at hdepth
  subst hdepth
  exact close_namesAnew hframes hfree

/-- Closing by depth leaves what is further in first. -/
theorem closeAt_namesAnew (h : s.Unused outer) :
    (closeAt (outer.length + 1) none).NamesAnew s outer :=
  closing_namesAnew_of_unused h fun _ _ ↦ close_namesAnew

end Building

/-- A goal without a name is concluded under the name of its deduction. -/
theorem Goal.conclude_namesAnew {s : ProofState} {outer : List Frame} (h : s.Unused outer)
    {g : Goal} (hname : g.name = none) (hdepth : g.depth = outer.length + 1) :
    g.conclude.NamesAnew s outer := by
  unfold conclude
  split
  · exact .throw (by simp [Refusal.kind])
  · rw [hdepth, hname]
    refine Building.closing_namesAnew_of_unused h fun t base ht hfree ↦ ?_
    refine Building.currentTheorem_untaken.bind Building.currentTheorem_looks
      fun actual u hu ↦ ?_
    split
    · exact .throw (by simp [Refusal.kind])
    · exact Building.close_namesAnew (hu.trans ht) hfree

/-! ### The theorem -/

variable {μ : Type} {external : External μ}

open Building in
/-- **Generated names never clash.** In whatever state, an inference or an unnamed supposition is
never refused because its name is taken, and answers a name that no open deduction has. And where a
deduction, or one for a goal, is opened without a name, its theorem too gets a name that none of the
deductions around it has, in whatever way it is closed without a name: whatever calls are made
meanwhile, in whatever order and with whatever names, as long as it stays open. A user's tactics
must not close what they did not open, nor take names that were generated before into use around it.
-/
theorem generatedNames_anew (hexternal : external.Respects ProofState.Spares) :
    (∀ s : ProofState,
      (∀ target value, (bind target value).NamesAnew s s.frames) ∧
      (∀ rule condition, (apply rule condition).NamesAnew s s.frames) ∧
      (∀ target replacements chosen,
        (substitute target replacements chosen).NamesAnew s s.frames) ∧
      (∀ e, (verify e).NamesAnew s s.frames) ∧ ∀ e, (suppose none e).NamesAnew s s.frames) ∧
    ∀ (h h' : Host μ) (opening : Operation), opening.OpensUnnamed →
      let opened := h.perform external (.operate opening)
      opened.ReachesAbove external opened.bench.state.checkpoint h' →
        let outer := h'.bench.state.outermost h.bench.state.depth
        (h'.bench.state.depth = opened.bench.state.depth →
          (close none).NamesAnew h'.bench.state outer) ∧
        (closeAt opened.bench.state.depth none).NamesAnew h'.bench.state outer ∧
        ∀ g : Goal, g.name = none → g.depth = opened.bench.state.depth →
          g.conclude.NamesAnew h'.bench.state outer := by
  refine ⟨fun s ↦ ⟨fun target value ↦ bind_namesAnew target value s,
    fun rule condition ↦ apply_namesAnew rule condition s,
    fun target replacements chosen ↦ substitute_namesAnew target replacements chosen s,
    fun e ↦ verify_namesAnew e s, fun e ↦ suppose_namesAnew e s⟩, ?_⟩
  intro h h' opening hopening opened hreaches outer
  have hspares := hreaches.spares hexternal
  have hopened : opened.bench.state =
      h.bench.state.numbered.opened (ProofState.generatedName h.bench.state.freeNumber) :=
    Workbench.perform_of_opensUnnamed hopening h.bench
  rw [hopened] at hspares ⊢
  have hunused : h'.bench.state.Unused outer := hspares.unused
  have hlength : outer.length = h.bench.state.depth :=
    ProofState.length_outermost (Nat.le_of_succ_le hspares.within.depth_le)
  have hdepth : (h.bench.state.numbered.opened
      (ProofState.generatedName h.bench.state.freeNumber)).depth = outer.length + 1 :=
    congrArg (· + 1) hlength.symm
  rw [hdepth]
  exact ⟨close_namesAnew_of_unused hunused, closeAt_namesAnew hunused,
    fun g hname hg ↦ g.conclude_namesAnew hunused hname hg⟩

/-- While a deduction without a name is open, the prelude's bounded quantifier is written out inside
it, and its definition is supposed around it. -/
theorem generatedNames_anew_definition_outside :
    let h : Host Unit := Host.start 0 16 ()
    let opened := h.perform .none (.operate (.push none))
    let h' :=
      (opened.perform .none (.script "(suppose H (forall-in N (lambda (x) (in x N))))")).perform
      .none (.autobind (.name "H") [.int 5])
    let outer := h'.bench.state.outermost h.bench.state.depth
    (outer.flatMap (·.deduction.entries)).length = h.bench.state.history.length + 1 ∧
      ((Building.close none).run.run h'.bench.state).1.toOption = some "#0" ∧
      (Building.close none).NamesAnew h'.bench.state outer := by
  intro h opened h' outer
  have hreaches : opened.ReachesAbove .none opened.bench.state.checkpoint h' :=
    (Host.ReachesAbove.start.perform _ (by decide +kernel)).perform _ (by decide +kernel)
  have hrespects : (External.none : External Unit).Respects ProofState.Spares :=
    External.none_respects
  obtain ⟨-, hclosing⟩ := generatedNames_anew hrespects
  obtain ⟨hclose, -⟩ := hclosing h h' (.push none) rfl hreaches
  exact ⟨by decide +kernel, by decide +kernel, hclose (by decide +kernel)⟩

/-- What closes goes by the depth. The deduction of an unnamed goal is closed, and one with a taken
name is opened in its place. -/
theorem exists_conclude_taken :
    ∃ (w : Workbench) (g : Goal) (refusal : Refusal), w.Reachable ∧ g ∈ w.goals ∧ g.name = none ∧
      (g.conclude.run.run w.state).1 = .error refusal ∧ refusal.kind = "DuplicateName" := by
  let p : Expression := .symbol "p"
  let e : Expression := .equals (.int 1) (.int 1)
  let supposed := (Workbench.initial 0 16).perform (.suppose (some "h") p)
  let opened := supposed.perform (.startGoal none e)
  let replaced := (opened.perform .pop).perform (.push (some "h"))
  have hsupposed : supposed.Reachable := (Workbench.Reachable.initial 0 16).perform _ trivial
  have hopened : opened.Reachable := hsupposed.perform _ ⟨trivial, trivial⟩
  have hreplaced : replaced.Reachable :=
    (hopened.perform .pop trivial).perform (.push (some "h")) trivial
  refine ⟨replaced.perform (.verify e), ⟨none, e, e, .untouched, 2⟩, .nameTaken "h" p e,
    hreplaced.perform _ ⟨trivial, trivial⟩, ?_, rfl, ?_, rfl⟩
  · exact List.mem_singleton.2 rfl
  · rfl

end NaturalDeduction
