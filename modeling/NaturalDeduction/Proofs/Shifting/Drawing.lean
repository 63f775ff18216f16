import NaturalDeduction.Inference
import NaturalDeduction.Proofs.Shifting.Evaluation

/-!
# Shifting computations that draw variables

A computation that draws variables starts at a number. Started at a number that is higher by `d`,
and on values that are shifted by `d`, it ends at a number that is higher by `d` and answers what is
shifted by `d`: the second computation tracks the first (`Fresh.Tracks`). Drawing a variable tracks
drawing a variable, and so it is with whatever is put together from computations that do.

Nothing is asked of the numbers that occur. Replacing subterms may well meet a variable above the
counter, and it goes wrong in the same way wherever the counter stands.

The proofs go by recursion along the definitions. Renaming is defined by recursion on the size of
expressions, so its result carries a proof about its size, and the relation between results is
stated about their values only (`renameSized_tracks`). Replacing carries a second counter for the
matches met so far, which is not shifted (`Counting.Tracks`).
-/

namespace NaturalDeduction

variable {α β γ δ : Type} {d : Nat}

instance : Shift Nat := .constant Nat
instance : Shift.Constant Nat := ⟨fun _ _ ↦ rfl⟩
instance : Shift Occurrences := .constant Occurrences
instance : Shift.Constant Occurrences := ⟨fun _ _ ↦ rfl⟩

/-! ### Computations in step -/

/-- Two computations started `d` apart end `d` apart, with answers that are related. -/
def Fresh.Relates (d : Nat) (R : α → β → Prop) (f : Fresh α) (f' : Fresh β) : Prop :=
  ∀ n, R (f.run n).1 (f'.run (n + d)).1 ∧ (f'.run (n + d)).2 = (f.run n).2 + d

/-- Two computations started `d` apart end `d` apart, and the answer of the second one is that of
the first, shifted. -/
abbrev Fresh.Tracks [Shift α] (d : Nat) (f f' : Fresh α) : Prop :=
  Fresh.Relates d (fun a b ↦ b = shift d a) f f'

namespace Fresh

variable {R : α → β → Prop} {S : γ → δ → Prop}

/-- Computations that draw nothing are related as their results are. -/
theorem Relates.pure {a : α} {b : β} (h : R a b) : Relates d R (pure a) (pure b) :=
  fun _ ↦ ⟨h, rfl⟩

/-- Computations are related if their parts are: the counters behind the first parts differ by `d`
again. -/
theorem Relates.bind {f : Fresh α} {f' : Fresh β} {g : α → Fresh γ} {g' : β → Fresh δ}
    (h : Relates d R f f') (hg : ∀ a b, R a b → Relates d S (g a) (g' b)) :
    Relates d S (f >>= g) (f' >>= g') := by
  intro n
  obtain ⟨hr, hn⟩ := h n
  have hnext := hg _ _ hr (f.run n).2
  rw [← hn] at hnext
  exact hnext

/-- A computation that draws nothing tracks another if its result is the shifted one. -/
theorem Tracks.pure [Shift α] {a b : α} (h : b = shift d a) : Tracks d (pure a) (pure b) :=
  Relates.pure h

/-- The second part starts at a shifted counter, on a shifted result. -/
theorem Tracks.bind [Shift α] {f f' : Fresh α} {g : α → Fresh γ} {g' : α → Fresh δ}
    (h : Tracks d f f') (hg : ∀ a, Relates d S (g a) (g' (shift d a))) :
    Relates d S (f >>= g) (f' >>= g') :=
  Relates.bind h fun a _ hb ↦ hb ▸ hg a

/-- A function that commutes with shifting may be applied to the results. -/
theorem Tracks.map [Shift α] [Shift β] {f f' : Fresh α} {g g' : α → β} (h : Tracks d f f')
    (hg : ∀ a, g' (shift d a) = shift d (g a)) : Tracks d (g <$> f) (g' <$> f') := by
  intro n
  obtain ⟨hr, hn⟩ := h n
  exact ⟨(congrArg g' hr).trans (hg _), hn⟩

/-- Tracking passes to lists, from one item to the next. -/
theorem Tracks.mapM [Shift α] [Shift β] {f f' : α → Fresh β}
    (h : ∀ a, Tracks d (f a) (f' (shift d a))) (as : List α) :
    Tracks d (as.mapM f) ((shift d as).mapM f') := by
  induction as with
  | nil => exact .pure rfl
  | cons a rest ih =>
    rw [shift_cons, List.mapM_cons, List.mapM_cons]
    exact (h a).bind fun b ↦ Tracks.bind ih fun bs ↦ .pure rfl

end Fresh

/-- The variable that is drawn has the number of the counter, so it is shifted with it. -/
theorem Variable.fresh_tracks (hint : String) : Fresh.Tracks d (fresh hint) (fresh hint) :=
  fun _ ↦ ⟨rfl, Nat.add_right_comm ..⟩

/-- A variable is drawn anew with the same hint and a shifted number. -/
theorem Variable.refresh_tracks (v : Variable) : Fresh.Tracks d v.refresh (shift d v).refresh :=
  fresh_tracks v.hint

/-! ### Renaming -/

namespace Expression

mutual

/-- Renaming draws a variable at the same binders, namely where the new name would be captured. -/
theorem renameSized_tracks (old new : Variable) (e : Expression) :
    Fresh.Relates d (fun r r' ↦ r'.val = shift d r.val) (renameSized old new e)
      (renameSized (shift d old) (shift d new) (shift d e)) := by
  match e with
  | .atom a =>
    cases a with
    | var v =>
      show Fresh.Relates d _ _ (renameSized _ _ (atom (.var (shift d v))))
      rw [renameSized, renameSized]
      refine .pure ?_
      simp only [Variable.id_shift, Nat.add_right_cancel_iff]
      split <;> rfl
    | symbol | text | number | hole =>
      dsimp only [shift_atom, shift]
      rw [renameSized, renameSized]
      exact .pure rfl
  | .binder kind v body =>
    rw [shift_binder, renameSized, renameSized]
    simp only [Variable.id_shift, Nat.add_right_cancel_iff]
    split
    · exact .pure rfl
    · split
      -- the binder would capture the new name: its own variable is renamed first
      · refine v.refresh_tracks.bind fun w ↦ ?_
        refine (renameSized_tracks v w body).bind ?_
        rintro ⟨body₁, h₁⟩ ⟨_, _⟩ rfl
        refine (renameSized_tracks old new body₁).bind ?_
        rintro ⟨body₂, _⟩ ⟨_, _⟩ rfl
        exact .pure rfl
      · refine (renameSized_tracks old new body).bind ?_
        rintro ⟨body', _⟩ ⟨_, _⟩ rfl
        exact .pure rfl
  | .implies a b =>
    rw [shift_implies, renameSized, renameSized]
    refine (renameSized_tracks old new a).bind ?_
    rintro ⟨a', _⟩ ⟨_, _⟩ rfl
    refine (renameSized_tracks old new b).bind ?_
    rintro ⟨b', _⟩ ⟨_, _⟩ rfl
    exact .pure rfl
  | .equals a b =>
    rw [shift_equals, renameSized, renameSized]
    refine (renameSized_tracks old new a).bind ?_
    rintro ⟨a', _⟩ ⟨_, _⟩ rfl
    refine (renameSized_tracks old new b).bind ?_
    rintro ⟨b', _⟩ ⟨_, _⟩ rfl
    exact .pure rfl
  | .application items =>
    rw [shift_application, renameSized, renameSized]
    refine (renameAllSized_tracks old new items).bind ?_
    rintro ⟨items', _⟩ ⟨_, _⟩ rfl
    exact .pure (shift_application items').symm
termination_by 2 * e.size
decreasing_by all_goals simp only [size]; omega

/-- Items are renamed one after the other, at the counter that the one before left. -/
theorem renameAllSized_tracks (old new : Variable) (es : List Expression) :
    Fresh.Relates d (fun r r' ↦ r'.val = shift d r.val) (renameAllSized old new es)
      (renameAllSized (shift d old) (shift d new) (shift d es)) := by
  match es with
  | [] =>
    rw [shift_nil, renameAllSized, renameAllSized]
    exact .pure rfl
  | e :: rest =>
    rw [shift_cons, renameAllSized, renameAllSized]
    refine (renameSized_tracks old new e).bind ?_
    rintro ⟨r, _⟩ ⟨_, _⟩ rfl
    refine (renameAllSized_tracks old new rest).bind ?_
    rintro ⟨rs, _⟩ ⟨_, _⟩ rfl
    exact .pure rfl
termination_by 2 * sizes es + 1
decreasing_by all_goals have := size_pos e; simp only [sizes]; omega

end

end Expression

/-! ### Replacing subterms -/

instance : Shift Replacement := ⟨fun d r ↦ ⟨shift d r.key, shift d r.value⟩⟩

@[simp] theorem Replacement.key_shift (r : Replacement) : (shift d r).key = shift d r.key := rfl

@[simp] theorem Replacement.value_shift (r : Replacement) : (shift d r).value = shift d r.value :=
  rfl

namespace Expression

/-- Two computations that count from the same number on and otherwise track each other. -/
def Counting.Tracks [Shift α] (d : Nat) (f f' : Counting α) : Prop :=
  ∀ i, Fresh.Tracks d (f.run i) (f'.run i)

namespace Counting.Tracks

variable [Shift α] [Shift β]

/-- What is counted does not depend on where the counter of variables stands. -/
theorem pure {a b : α} (h : b = shift d a) : Tracks d (pure a) (pure b) :=
  fun _ ↦ Fresh.Relates.pure (congrArg (·, _) h)

/-- Both the counter of variables and that of matches go on from where the first part left them. -/
theorem bind {f f' : Counting α} {g g' : α → Counting β} (h : Tracks d f f')
    (hg : ∀ a, Tracks d (g a) (g' (shift d a))) : Tracks d (f >>= g) (f' >>= g') := by
  intro i
  rw [StateT.run_bind, StateT.run_bind]
  exact (h i).bind fun p ↦ hg p.1 p.2

/-- A computation that does not count comes first. -/
theorem lift_bind {R : γ → δ → Prop} {f : Fresh γ} {f' : Fresh δ} {g : γ → Counting β}
    {g' : δ → Counting β} (h : Fresh.Relates d R f f')
    (hg : ∀ a b, R a b → Tracks d (g a) (g' b)) :
    Tracks d ((f : Counting γ) >>= g) ((f' : Counting δ) >>= g') := by
  intro i n
  obtain ⟨hr, hn⟩ := h n
  have hnext := hg _ _ hr i (f.run n).2
  rw [← hn] at hnext
  exact hnext

end Counting.Tracks

/-- Whether a match is selected depends on its index only. -/
theorem nextSelected_tracks (chosen : Occurrences) :
    Counting.Tracks d (nextSelected chosen) (nextSelected chosen) :=
  fun _ _ ↦ ⟨rfl, rfl⟩

section Walk

variable (chosen : Occurrences) (inForce : List Replacement)

/-- The replacement whose key is met first is the same one, shifted. -/
theorem find?_shift_replacement (e : Expression) :
    (shift d inForce).find? (·.key.alphaEq (shift d e)) =
      shift d (inForce.find? (·.key.alphaEq e)) :=
  find?_shift (fun r ↦ alphaEq_shift r.key e) inForce

/-- The replacements that stay in force under a binder are the same ones. -/
theorem filter_shift_replacement (v : Variable) :
    ((shift d inForce).filter fun r ↦ !r.key.occursFree (shift d v)) =
      shift d (inForce.filter fun r ↦ !r.key.occursFree v) := by
  refine filter_shift (fun r ↦ ?_) inForce
  rw [Replacement.key_shift, occursFree_shift]

/-- Whether a value would be captured by a binder is answered alike. -/
theorem any_shift_replacement (v : Variable) :
    ((shift d inForce).any fun r ↦ r.value.occursFree (shift d v)) =
      inForce.any fun r ↦ r.value.occursFree v :=
  any_shift fun r _ ↦ occursFree_shift v r.value

mutual

/-- **The walk that replaces subterms** meets the same keys, passes over the same binders and draws
variables at the same ones. -/
theorem walk_tracks (inForce : List Replacement) (e : Expression) :
    Counting.Tracks d (walk chosen inForce e) (walk chosen (shift d inForce) (shift d e)) := by
  rw [walk.eq_def, walk.eq_def, find?_shift_replacement]
  cases inForce.find? (·.key.alphaEq e) with
  | some r =>
    refine (nextSelected_tracks chosen).bind fun selected ↦ ?_
    cases selected with
    | true => exact .pure rfl
    | false => exact .pure rfl
  | none =>
    match e with
    | .atom a => exact .pure rfl
    | .binder kind v body =>
      rw [shift_binder]
      dsimp only [shift_none]
      rw [filter_shift_replacement, any_shift_replacement]
      split
      · refine .lift_bind v.refresh_tracks fun w w' hw ↦ ?_
        subst hw
        refine .lift_bind (renameSized_tracks v w body) ?_
        rintro ⟨body', hsize⟩ ⟨_, _⟩ rfl
        exact (walk_tracks _ body').bind fun r ↦ .pure rfl
      · exact (walk_tracks _ body).bind fun r ↦ .pure rfl
    | .implies a b =>
      rw [shift_implies]
      exact (walk_tracks inForce a).bind fun a' ↦ (walk_tracks inForce b).bind fun b' ↦
        .pure rfl
    | .equals a b =>
      rw [shift_equals]
      exact (walk_tracks inForce a).bind fun a' ↦ (walk_tracks inForce b).bind fun b' ↦
        .pure rfl
    | .application items =>
      rw [shift_application]
      refine (walkAll_tracks inForce items).bind fun items' ↦ ?_
      rw [← shift_application]
      exact .pure rfl
termination_by 2 * e.size
decreasing_by all_goals simp only [size]; omega

/-- The items of an application are walked one after the other. -/
theorem walkAll_tracks (inForce : List Replacement) (es : List Expression) :
    Counting.Tracks d (walkAll chosen inForce es)
      (walkAll chosen (shift d inForce) (shift d es)) := by
  rw [walkAll.eq_def, walkAll.eq_def]
  match es with
  | [] => exact .pure rfl
  | e :: rest =>
    rw [shift_cons]
    exact (walk_tracks inForce e).bind fun e' ↦ (walkAll_tracks inForce rest).bind fun rest' ↦
      .pure rfl
termination_by 2 * sizes es + 1
decreasing_by all_goals have := size_pos e; simp only [sizes]; omega

end

end Walk

/-- Substitution that counts matches starts the walk at the first index. -/
theorem substituteCounting_tracks (target : Expression) (replacements : List Replacement)
    (chosen : Occurrences) :
    Fresh.Tracks d (target.substituteCounting replacements chosen)
      ((shift d target).substituteCounting (shift d replacements) chosen) :=
  walk_tracks chosen replacements target 0

/-- Substitution forgets the count. -/
theorem substitute_tracks (target : Expression) (replacements : List Replacement)
    (chosen : Occurrences) :
    Fresh.Tracks d (target.substitute replacements chosen)
      ((shift d target).substitute (shift d replacements) chosen) :=
  (substituteCounting_tracks target replacements chosen).map fun _ ↦ rfl

/-- Instantiating a quantification puts the shifted value for the shifted variable; anything else
has no result. -/
theorem instantiate?_tracks (target value : Expression) :
    Fresh.Tracks d (target.instantiate? value) ((shift d target).instantiate? (shift d value)) := by
  cases target with
  | binder kind v body =>
    exact (substitute_tracks body [⟨var v, value⟩] .all).map fun _ ↦ rfl
  | application items =>
    rw [shift_application]
    exact .pure rfl
  | _ => exact .pure rfl

/-- Filling holes is a substitution whose keys are the holes. -/
theorem fill_tracks (pattern : Expression) (bindings : Bindings) :
    Fresh.Tracks d (pattern.fill bindings) ((shift d pattern).fill (shift d bindings)) := by
  have h : Bindings.replacements (shift d bindings) = shift d bindings.replacements := by
    rw [Bindings.replacements, Bindings.replacements]
    refine map_shift (fun _ ↦ ?_) bindings
    rfl
  rw [fill, fill, h]
  exact substitute_tracks pattern bindings.replacements .all

/-- Opening quantifiers draws a hole for each of them and puts the holes for the variables. -/
theorem openAlls_tracks (statement : Expression) :
    Fresh.Tracks d statement.openAlls (shift d statement).openAlls := by
  rw [openAlls, openAlls, splitAlls_shift]
  obtain ⟨vs, body⟩ := statement.splitAlls
  refine (Fresh.Tracks.mapM Variable.refresh_tracks vs).bind fun slots ↦ ?_
  have hslots : ((shift d vs).zip (shift d slots)).map (fun p ↦ ⟨var p.1, hole p.2⟩) =
      shift d ((vs.zip slots).map fun p ↦ (⟨var p.1, hole p.2⟩ : Replacement)) := by
    rw [zip_shift]
    refine map_shift (fun _ ↦ ?_) (vs.zip slots)
    rfl
  dsimp only [shift_mk]
  rw [hslots]
  exact (substitute_tracks body _ .all).bind fun e ↦ .pure rfl

/-- A list of indices mentions no variables. -/
@[simp] theorem shift_ofOccurrences (chosen : Occurrences) :
    shift d (ofOccurrences chosen) = ofOccurrences chosen := by
  rw [ofOccurrences, shift_application, shift_eq_map, List.map_map]
  rfl

/-- The record of a replacement is the shifted record. -/
theorem recorded_shift (target : Expression) (replacements : List Replacement)
    (chosen : Occurrences) :
    (shift d target).recorded (shift d replacements) chosen =
      shift d (target.recorded replacements chosen) := by
  have hpairs : (shift d replacements).map (fun r ↦ application [r.key, r.value]) =
      shift d (replacements.map fun r ↦ application [r.key, r.value]) :=
    map_shift (fun r ↦ (shift_application [r.key, r.value]).symm) replacements
  rw [recorded, recorded, shift_call, hpairs, ← shift_application, shift_cons, shift_cons,
    shift_cons, shift_ofOccurrences]
  rfl

end Expression

/-! ### Inferences -/

namespace Inference

open Expression

/-- What follows by specialization from a shifted statement is what follows from the statement,
shifted. -/
theorem specialize?_tracks (target value : Expression) :
    Fresh.Tracks d (specialize? target value) (specialize? (shift d target) (shift d value)) := by
  cases target with
  | binder kind v body =>
    cases kind with
    | universal => exact instantiate?_tracks (all v body) value
    | _ => exact .pure rfl
  | application items =>
    rw [shift_application]
    exact .pure rfl
  | _ => exact .pure rfl

/-- A replacement concludes the equation of shifted record and shifted result. -/
theorem replacement_tracks (target : Expression) (replacements : List Replacement)
    (chosen : Occurrences) :
    Fresh.Tracks d (replacement target replacements chosen)
      (replacement (shift d target) (shift d replacements) chosen) := by
  refine (substitute_tracks target replacements chosen).bind fun result ↦ ?_
  rw [recorded_shift]
  exact .pure rfl

instance : Shift DetachmentError where
  shift d
    | .notARule => .notARule
    | .otherCondition expected => .otherCondition (shift d expected)

/-- Detachment compares the condition up to bound names, so it succeeds alike. -/
theorem detach_shift (rule condition : Expression) :
    detach (shift d rule) (shift d condition) = shift d (detach rule condition) := by
  cases rule with
  | implies expected conclusion =>
    rw [shift_implies, detach, detach, alphaEq_shift]
    split <;> rfl
  | application items =>
    rw [shift_application]
    rfl
  | _ => rfl

/-- Evaluation decides alike, so the same statements are verified. -/
theorem verify_shift (e : Expression) : verify (shift d e) = shift d (verify e) := by
  rw [verify, verify, evaluate_shift]
  refine bind_shift_constant e.evaluate fun holds ↦ ?_
  cases holds with
  | true => rfl
  | false => exact congrArg (fun e ↦ Except.ok (e, false)) (shift_negation e).symm

end Inference

end NaturalDeduction
