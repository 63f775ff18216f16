import NaturalDeduction.Proofs.Soundness

/-!
# Refused steps

A step of construction that is refused leaves all open deductions as they are: whatever a step looks
up and checks comes before it adds anything (`Building.Harmless`). Names and variables that were
drawn meanwhile are used up, but that is not seen on the stack.

Closing a deduction is the exception. It asks for the theorem first, and then takes the deduction
off the stack before it looks whether the name of the theorem is free in the deduction around. If
another statement has the name there, the step is refused and the deduction is lost
(`unchanged_of_refused`, `exists_deduction_lost`).

The proofs follow one pattern. A step is a row of looks with something that adds at its end, and a
row is harmless if its last step is (`Building.Looks.bind`). Closing is not of this shape, as it
leaves the deduction before it installs the theorem; what is refused and what is lost is therefore
told by a condition on the state (`ProofState.Barred`).
-/

namespace NaturalDeduction

/-! ### Computations that are harmless if refused -/

namespace Building

variable {α β : Type} {s : ProofState}

/-- Whether a computation leaves all open deductions as they are. -/
def Looks (act : Building α) (s : ProofState) : Prop := (act.run.run s).2.frames = s.frames

/-- Whether a computation leaves all open deductions as they are if it is refused. -/
def Harmless (act : Building α) (s : ProofState) : Prop :=
  ∀ refusal, (act.run.run s).1 = .error refusal → (act.run.run s).2.frames = s.frames

/-- A refusal by itself adds nothing. -/
theorem throw_harmless (refusal : Refusal) : Harmless (throw refusal : Building α) s :=
  fun _ _ ↦ rfl

theorem get_bind_harmless {next : ProofState → Building α} (h : Harmless (next s) s) :
    Harmless (get >>= next) s := h

theorem get_bind_looks {next : ProofState → Building α} (h : Looks (next s) s) :
    Looks (get >>= next) s := h

/-- What comes first must not add anything. -/
theorem Looks.bind {act : Building α} {next : α → Building β} (h : Looks act s)
    (hnext : ∀ a t, t.frames = s.frames → Harmless (next a) t) : Harmless (act >>= next) s := by
  unfold Looks Harmless at *
  rw [run_bind_eq]
  revert h
  rcases act.run.run s with ⟨⟨e⟩ | ⟨a⟩, t⟩ <;> intro h
  · exact fun _ _ ↦ h
  · exact fun refusal hrefusal ↦ (hnext a t h refusal hrefusal).trans h

/-- Looking twice is looking. -/
theorem Looks.bind_looks {act : Building α} {next : α → Building β} (h : Looks act s)
    (hnext : ∀ a t, Looks (next a) t) : Looks (act >>= next) s := by
  unfold Looks at *
  rw [run_bind_eq]
  revert h
  rcases act.run.run s with ⟨⟨e⟩ | ⟨a⟩, t⟩ <;> intro h
  · exact h
  · exact (hnext a t).trans h

/-! ### Looking things up -/

/-- The counters are no part of the stack. -/
theorem draw_looks (f : Fresh α) : Looks (draw f) s := rfl

theorem nameOrFresh_looks (name : Option String) : Looks (nameOrFresh name) s := by
  cases name <;> rfl

theorem lookup_looks (name : String) : Looks (lookup name) s := by
  unfold lookup
  refine get_bind_looks ?_
  split <;> rfl

theorem resolve_looks (r : Reference) : Looks (resolve r) s := by
  unfold resolve
  cases r with
  | name name => exact (lookup_looks name).bind_looks fun _ _ ↦ rfl
  | relative k =>
    refine get_bind_looks ?_
    split <;> rfl

/-! ### Steps that add -/

/-- Installing either finds the name taken, and is refused, or adds and succeeds. -/
theorem install_harmless (name : String) (e : Expression) (j : Justification) :
    Harmless (install name e j) s := by
  intro refusal hrefusal
  obtain ⟨-, hinstall⟩ | hinstall := install_run name e j s
  · rw [hinstall] at hrefusal
    cases hrefusal
  · rw [hinstall]

theorem conclude_harmless (e : Expression) (j : Justification) : Harmless (conclude e j) s :=
  (nameOrFresh_looks none).bind fun name _ _ ↦ install_harmless name e j

theorem suppose_harmless (name : Option String) (e : Expression) : Harmless (suppose name e) s :=
  (nameOrFresh_looks name).bind fun name _ _ ↦ install_harmless name e .supposition

/-- Whether a parameter is free is looked at before it is added. -/
theorem addParameter_harmless (v : Variable) : Harmless (addParameter v) s := by
  unfold addParameter
  refine get_bind_harmless ?_
  split
  · exact throw_harmless _
  · exact throw_harmless _
  · intro refusal hrefusal
    cases hrefusal

/-- Each inference looks its premises up first and concludes last. -/
theorem bind_harmless (target : Reference) (value : Expression) :
    Harmless (bind target value) s := by
  refine (resolve_looks target).bind fun name _ _ ↦ (lookup_looks name).bind fun statement _ _ ↦ ?_
  refine (draw_looks _).bind fun result _ _ ↦ ?_
  cases result with
  | some conclusion => exact conclude_harmless _ _
  | none => exact throw_harmless _

theorem apply_harmless (rule condition : Reference) : Harmless (apply rule condition) s := by
  refine (resolve_looks rule).bind fun rule _ _ ↦
    (resolve_looks condition).bind fun condition _ _ ↦ ?_
  refine (lookup_looks rule).bind fun _ _ _ ↦ (lookup_looks condition).bind fun _ _ _ ↦ ?_
  split
  · exact conclude_harmless _ _
  · exact throw_harmless _
  · exact throw_harmless _

theorem substitute_harmless (target : Expression) (replacements : List Replacement)
    (chosen : Occurrences) : Harmless (substitute target replacements chosen) s :=
  (draw_looks _).bind fun _ _ _ ↦ conclude_harmless _ _

theorem verify_harmless (e : Expression) : Harmless (verify e) s := by
  unfold verify
  split
  · exact conclude_harmless _ _
  · exact throw_harmless _

/-- At the root there is nothing to leave, and nothing is left. -/
theorem pop_harmless : Harmless pop s := by
  intro refusal hrefusal
  rw [pop_run] at hrefusal ⊢
  split at hrefusal
  · rfl
  · cases hrefusal

end Building

/-! ### Closing -/

/-- Whether the current deduction has a theorem, but its name stands for another statement in the
deduction around. The name is the given one, or that of the deduction. -/
def ProofState.Barred (s : ProofState) (name : Option String) : Prop :=
  ∃ f rest e existing, s.enclosing = f :: rest ∧ s.current.deduction.closedTheorem? = some e ∧
    f.deduction.get? (name.getD s.current.deduction.name) = some existing ∧
      existing.alphaEq e = false

namespace Building

variable {s : ProofState} {name : Option String}

/-- Another statement under the same name is refused without a change. -/
theorem install_run_error {n : String} {e existing : Expression} (j : Justification)
    (hname : s.current.deduction.get? n = some existing) (hne : existing.alphaEq e = false) :
    (install n e j).run.run s = (.error (.nameTaken n existing e), s) := by
  have hinsert : s.current.deduction.insert ⟨n, e, j⟩ = .error existing := by
    unfold Deduction.insert
    simp only [hname, hne]
    rfl
  unfold install
  rw [run_bind_ok (run_get_eq s), hinsert]
  rfl

/-- The same statement again, up to bound names, is not refused. -/
theorem install_run_of_agrees {n : String} {e : Expression} {j : Justification}
    (h : ∀ existing, s.current.deduction.get? n = some existing → existing.alphaEq e = true) :
    ((install n e j).run.run s).1 = .ok n := by
  have hinsert : ∃ d, s.current.deduction.insert ⟨n, e, j⟩ = .ok d := by
    unfold Deduction.insert
    cases hget : s.current.deduction.get? n with
    | none => exact ⟨_, rfl⟩
    | some existing =>
      simp only [h existing hget]
      exact ⟨_, rfl⟩
  obtain ⟨d, hinsert⟩ := hinsert
  unfold install
  rw [run_bind_ok (run_get_eq s), hinsert]
  rfl

/-- A deduction that is barred is lost when it is closed. -/
theorem close_run_of_barred (h : s.Barred name) : ∃ n existing e t,
    (close name).run.run s = (.error (.nameTaken n existing e), t) ∧ t.frames = s.enclosing := by
  obtain ⟨f, rest, e, existing, henclosing, htheorem, hname, hne⟩ := h
  refine ⟨name.getD s.current.deduction.name, existing, e, s.outside f rest, ?_, henclosing.symm⟩
  rw [close_run, henclosing, htheorem]
  exact install_run_error _ hname hne

/-- Closing is harmless unless the deduction is barred. -/
theorem close_harmless (h : ¬ s.Barred name) : Harmless (close name) s := by
  intro refusal hrefusal
  rw [close_run] at hrefusal ⊢
  split at hrefusal
  · rfl
  · rfl
  · rename_i f rest e henclosing htheorem
    have hinstalled := install_run_of_agrees (s := s.outside f rest)
      (n := name.getD s.current.deduction.name) (e := e) (j := .deduction s.current.deduction)
        fun existing hname ↦ by
          by_contra hne
          exact h ⟨f, rest, e, existing, henclosing, htheorem, hname, Bool.eq_false_iff.2 hne⟩
    rw [hinstalled] at hrefusal
    cases hrefusal

end Building

/-! ### The theorem -/

/-- The steps that add to the current deduction or close it. -/
inductive Primitive where
  | suppose (name : Option String) (statement : Expression)
  | bind (target : Reference) (value : Expression)
  | apply (rule condition : Reference)
  | substitute (target : Expression) (replacements : List Replacement) (chosen : Occurrences)
  | verify (statement : Expression)
  | addParameter (v : Variable)
  | pop
  | close (name : Option String)

namespace Primitive

/-- Takes the step. -/
def act : Primitive → Building PUnit
  | suppose name statement => discard (Building.suppose name statement)
  | bind target value => discard (Building.bind target value)
  | apply rule condition => discard (Building.apply rule condition)
  | substitute target replacements chosen =>
    discard (Building.substitute target replacements chosen)
  | verify statement => discard (Building.verify statement)
  | addParameter v => Building.addParameter v
  | pop => discard Building.pop
  | close name => discard (Building.close name)

/-- Whether the step is to close a deduction whose theorem is barred. -/
def Barred (s : ProofState) : Primitive → Prop
  | close name => s.Barred name
  | _ => False

end Primitive

namespace Building

variable {α : Type} {act : Building α} {s t : ProofState} {refusal : Refusal}

/-- Leaving the answer out does not change what is refused. -/
theorem discard_run_eq_error_iff :
    (Functor.discard act).run.run s = (.error refusal, t) ↔
      act.run.run s = (.error refusal, t) := by
  have hrun : (Functor.discard act).run.run s =
      (act >>= fun _ ↦ Pure.pure PUnit.unit).run.run s := rfl
  rw [hrun, run_bind_eq]
  rcases act.run.run s with ⟨⟨e⟩ | ⟨a⟩, u⟩
  · constructor <;> intro h <;> cases h <;> rfl
  · constructor <;> intro h <;> cases h

theorem Harmless.of_discard_run (h : Harmless act s)
    (hrun : (Functor.discard act).run.run s = (.error refusal, t)) : t.frames = s.frames := by
  have hact := discard_run_eq_error_iff.1 hrun
  have hframes := h refusal
  rw [hact] at hframes
  exact hframes rfl

end Building

/-- **A refused step changes nothing**: all open deductions, with their rules and abbreviations, are
as they were. Only a deduction whose theorem has a name that stands for another statement around it
is lost when it is closed, and nothing else is. -/
theorem unchanged_of_refused (step : Primitive) (s : ProofState) :
    (¬ step.Barred s → ∀ refusal t, step.act.run.run s = (.error refusal, t) →
      t.frames = s.frames) ∧
    (step.Barred s → ∃ n existing e t,
      step.act.run.run s = (.error (.nameTaken n existing e), t) ∧ t.frames = s.enclosing) := by
  constructor
  · intro hbarred refusal t hrun
    cases step with
    | suppose name statement => exact (Building.suppose_harmless name statement).of_discard_run hrun
    | bind target value => exact (Building.bind_harmless target value).of_discard_run hrun
    | apply rule condition => exact (Building.apply_harmless rule condition).of_discard_run hrun
    | substitute target replacements chosen =>
      exact (Building.substitute_harmless target replacements chosen).of_discard_run hrun
    | verify statement => exact (Building.verify_harmless statement).of_discard_run hrun
    | addParameter v =>
      have hframes := Building.addParameter_harmless v (s := s) refusal
      rw [show (Building.addParameter v).run.run s = (.error refusal, t) from hrun] at hframes
      exact hframes rfl
    | pop => exact Building.pop_harmless.of_discard_run hrun
    | close name => exact (Building.close_harmless hbarred).of_discard_run hrun
  · intro hbarred
    cases step with
    | close name =>
      obtain ⟨n, existing, e, t, hrun, hframes⟩ := Building.close_run_of_barred hbarred
      exact ⟨n, existing, e, t, Building.discard_run_eq_error_iff.2 hrun, hframes⟩
    | _ => exact hbarred.elim

/-- Inside a deduction, a rule is applied to a statement that is not its condition. -/
theorem unchanged_other_condition :
    let w := ((((Workbench.initial 1 16).perform (.suppose (some "r")
      (.implies (.symbol "p") (.symbol "q")))).perform (.push (some "T"))).perform
        (.suppose (some "s") (.symbol "s"))).perform (.newParameter "x")
    let step := Primitive.apply (.name "r") (.relative (-1))
    let t := (step.act.run.run w.state).2
    ¬ step.Barred w.state ∧
      step.act.run.run w.state =
        (.error (.otherCondition "r" (.symbol "p") (.symbol "s")), t) ∧
      t.frames = w.state.frames := by
  intro w step t
  have hbarred : ¬ step.Barred w.state := id
  have hrun : step.act.run.run w.state =
      (.error (.otherCondition "r" (.symbol "p") (.symbol "s")), t) := rfl
  exact ⟨hbarred, hrun, (unchanged_of_refused step w.state).1 hbarred _ t hrun⟩

/-- Something is proved in a deduction whose name stands for another statement around it. It cannot
be closed, and it is gone. -/
theorem exists_deduction_lost :
    ∃ w : Workbench, w.Reachable ∧ ∃ refusal t,
      (Primitive.close none).act.run.run w.state = (.error refusal, t) ∧
        t.frames ≠ w.state.frames := by
  let w := (((Workbench.initial 1 16).perform (.suppose (some "T") (.symbol "p"))).perform
    (.push (some "T"))).perform (.verify (.equals (.int 1) (.int 1)))
  have hreachable : w.Reachable :=
    (((Workbench.Reachable.initial 1 16).perform (.suppose (some "T") (.symbol "p"))
      trivial).perform (.push _) trivial).perform (.verify _) ⟨trivial, trivial⟩
  have hlength : ((Primitive.close none).act.run.run w.state).2.frames.length ≠
      w.state.frames.length := by decide +kernel
  have hrefused : ((Primitive.close none).act.run.run w.state).1.toOption = none := by
    decide +kernel
  refine ⟨w, hreachable, ?_⟩
  revert hlength hrefused
  rcases (Primitive.close none).act.run.run w.state with ⟨⟨refusal⟩ | ⟨a⟩, t⟩ <;>
    intro hlength hrefused
  · exact ⟨refusal, t, rfl, fun h ↦ hlength (congrArg List.length h)⟩
  · cases hrefused

end NaturalDeduction
