import Mathlib.Data.Set.Insert
import NaturalDeduction.Proofs.Runs

/-!
# Eigenvariables

When a deduction is closed, its theorem is quantified over its parameters. So these must not occur
free in anything that stays behind, that is, in a statement of a deduction around it. A parameter is
looked for there once, when it is taken, or is a variable that was just drawn.

Later on only one thing is added to a deduction from further in: the definition of an abbreviation,
which is supposed where the abbreviation is registered. Its arguments may mention the parameters of
all deductions that are open, and nothing is checked then. This is the one exception to the
eigenvariable condition: in every state that is reached from a new one, a statement that mentions a
parameter of a deduction further in is a definition (`eigenvariables_of_reachable`), and there are
such definitions (`exists_eigenvariable_in_definition`).

Abbreviations may be registered in any deduction here, at any time, and may mention variables that
were drawn before. They come from a collection `A`, and so do the definitions.

Main definitions and statements:

* `Entry.IsDefinition`: the exception, for abbreviations from a collection.
* `Eigenvariables`: the condition on all open deductions at once, read from the innermost
  outwards.
* `Step.eigenvariables`, `Move.eigenvariables`: one step, and one move of any kind, keep it.
* `Building.exists_mem_enclosing_of_close`: what the condition is for. A theorem that is closed is
  generalized over variables that nothing around mentions, definitions apart.
-/

namespace NaturalDeduction

variable {A : Set Abbreviation}

/-- The abbreviations of a collection may be registered, and their definitions be supposed, in any
deduction. -/
def Policy.anywhere (A : Set Abbreviation) : Policy where
  Registrable _ a := a ∈ A
  Definable _ definition := ∃ a ∈ A, a.Defines definition

instance : (Policy.anywhere A).Permissive where
  definable ha hdefines := ⟨_, ha, hdefines⟩

/-- Whether an entry supposes an instance of the definition of an abbreviation in a collection. -/
def Entry.IsDefinition (A : Set Abbreviation) (e : Entry) : Prop :=
  e.justification = .supposition ∧ ∃ a ∈ A, a.Defines e.statement

/-! ### The condition -/

/-- Whether the parameters of every deduction are mentioned around it only by definitions. -/
def Eigenvariables (A : Set Abbreviation) : List Frame → Prop
  | [] => True
  | f :: rest =>
    (∀ p ∈ f.deduction.parameters, ∀ g ∈ rest, ∀ e ∈ g.deduction.entries,
      e.statement.occursFree p = true → e.IsDefinition A) ∧ Eigenvariables A rest

namespace Eigenvariables

/-- The condition looks outwards only, so it holds of the frames around as well. -/
theorem of_append {inner outer : List Frame} (h : Eigenvariables A (inner ++ outer)) :
    Eigenvariables A outer := by
  induction inner with
  | nil => exact h
  | cons f rest ih => exact ih h.2

/-- A definition may be supposed in any deduction. -/
theorem define {inner outer : List Frame} {f : Frame} {d : Entry}
    (h : Eigenvariables A (inner ++ f :: outer)) (hd : d.IsDefinition A) :
    Eigenvariables A (inner ++ f.add d :: outer) := by
  induction inner with
  | nil => exact h
  | cons c rest ih =>
    refine ⟨fun p hp g hg e he hfree ↦ ?_, ih h.2⟩
    have hold : ∀ g' ∈ rest ++ f :: outer, e ∈ g'.deduction.entries → e.IsDefinition A :=
      fun g' hg' he' ↦ h.1 p hp g' hg' e he' hfree
    rcases List.mem_append.1 hg with hg | hg
    · exact hold g (List.mem_append_left _ hg) he
    · rcases List.mem_cons.1 hg with rfl | hg
      · rcases List.mem_cons.1 he with rfl | he
        · exact hd
        · exact hold f (List.mem_append_right _ List.mem_cons_self) he
      · exact hold g (List.mem_append_right _ (List.mem_cons_of_mem f hg)) he

end Eigenvariables

/-- An entry of an open deduction is visible. -/
theorem mem_visible_of_mem {frames : List Frame} {f : Frame} {e : Entry} (hf : f ∈ frames)
    (he : e ∈ f.deduction.entries) : e.statement ∈ visible (stackOf frames) :=
  List.mem_map_of_mem (List.mem_flatten.2 ⟨_, List.mem_map_of_mem hf, he⟩)

/-! ### Moves keep the condition -/

section Moves

variable {s t : ProofState}

/-- Steps of construction add parameters that nothing around mentions, and add entries only to the
current deduction, which no deduction is inside. -/
theorem Step.eigenvariables (h : Step false s t) (hs : Eigenvariables A s.frames) :
    Eigenvariables A t.frames := by
  cases h with
  | draw | generate | search | suppose | infer | register | abbreviate => exact hs
  | @parameter v h hfree =>
    refine ⟨fun p hp g hg e he hoccurs ↦ ?_, hs.2⟩
    rcases Deduction.mem_parameters_addParameter hp with hp | rfl
    · exact hs.1 p hp g hg e he hoccurs
    · have hnot := hfree e.statement (mem_visible_of_mem hg he)
      rw [hnot] at hoccurs
      exact absurd hoccurs Bool.false_ne_true
  | push name => exact ⟨fun p hp ↦ absurd hp List.not_mem_nil, hs⟩
  | pop h | close h =>
    have houter := hs.2
    rw [h] at houter
    exact houter
  | forget entries parameters rules abbreviations =>
    exact ⟨fun p hp ↦ hs.1 p (List.mem_of_mem_take hp), hs.2⟩
  | define h => cases h

/-- A move is a step, a definition or a registration, and only definitions are added further out. -/
theorem Move.eigenvariables (h : Move (.anywhere A) s t) (hs : Eigenvariables A s.frames) :
    Eigenvariables A t.frames := by
  cases h with
  | step h => exact h.eigenvariables hs
  | @define inner outer enclosing f current name e h hframes hname he hframes' =>
    show Eigenvariables A (current :: enclosing)
    rw [hframes']
    rw [hframes] at hs
    exact hs.define ⟨rfl, h⟩
  | abbreviate => exact hs

/-- By induction on the moves. -/
theorem Moves.eigenvariables (h : Moves (.anywhere A) s t) (hs : Eigenvariables A s.frames) :
    Eigenvariables A t.frames := by
  induction h with
  | refl => exact hs
  | tail _ hmove ih => exact hmove.eigenvariables ih

end Moves

/-! ### Runs -/

namespace Host

variable {μ : Type} {external : External μ} {h : Host μ}

/-- The invariant of all hosts whose definitions come from the collection. -/
theorem ReachableFor.eigenvariables (hA : Prelude.boundedQuantifier ∈ A)
    (hexternal : external.LawfulFor (.anywhere A))
    (hreachable : h.ReachableFor (.anywhere A) external) :
    Eigenvariables A h.bench.state.frames := by
  induction hreachable with
  | start nextVariable searchLimit memory =>
    have hadvances : (Workbench.initial nextVariable searchLimit).Advances (.anywhere A) _ :=
      start_advances hA nextVariable searchLimit memory
    exact hadvances.moves.eigenvariables ⟨fun p hp ↦ absurd hp List.not_mem_nil, trivial⟩
  | perform hreachable call hcall ih =>
    have htidy := hreachable.tidyFor (P := .anywhere A) hA hexternal
    exact (perform_advances hexternal htidy hcall).moves.eigenvariables ih

end Host

/-! ### Closing -/

/-- What is supposed in the deductions that are open after one was closed was supposed around it. -/
theorem Building.exists_mem_enclosing_of_close {s t : ProofState} {name : Option String}
    {installed : String} (h : (close name).run.run s = (.ok installed, t)) {g : Frame}
    (hg : g ∈ t.frames) {e : Entry} (he : e ∈ g.deduction.entries)
    (hcondition : e.isCondition = true) :
    ∃ f ∈ s.enclosing, e ∈ f.deduction.entries := by
  rw [close_run] at h
  cases henclosing : s.enclosing with
  | nil =>
    rw [henclosing] at h
    cases h
  | cons parent outer =>
    cases htheorem : s.current.deduction.closedTheorem? with
    | none =>
      rw [henclosing, htheorem] at h
      cases h
    | some statement =>
      rw [henclosing, htheorem] at h
      dsimp only at h
      have hinstall := install_run (name.getD s.current.deduction.name) statement
        (.deduction s.current.deduction) (s.outside parent outer)
      rw [h] at hinstall
      obtain ⟨-, hadd⟩ | hsame := hinstall
      · obtain ⟨-, rfl⟩ := Prod.mk.inj hadd
        rcases List.mem_cons.1 hg with rfl | hg
        · rcases List.mem_cons.1 he with rfl | he
          · cases hcondition
          · exact ⟨parent, List.mem_cons_self, he⟩
        · exact ⟨g, List.mem_cons_of_mem parent hg, he⟩
      · have hframes : t.frames = parent :: outer := congrArg ProofState.frames hsame
        exact ⟨g, hframes ▸ hg, he⟩

/-! ### The theorem -/

/-- **The eigenvariable condition**, up to definitions. In every state that is reached by calls, in
any order, a statement of a deduction that mentions a parameter of a deduction inside it is the
definition of an abbreviation. So closing a deduction generalizes over no variable that is free in
what is supposed in the deductions that stay open, unless that is a definition. -/
theorem eigenvariables_of_reachable {μ : Type} {external : External μ}
    (hA : Prelude.boundedQuantifier ∈ A) (hexternal : external.LawfulFor (.anywhere A)) {h : Host μ}
    (hreachable : h.ReachableFor (.anywhere A) external) :
    (∀ inner f outer, h.bench.state.frames = inner ++ f :: outer →
      ∀ p ∈ f.deduction.parameters, ∀ g ∈ outer, ∀ e ∈ g.deduction.entries,
        e.statement.occursFree p = true → e.IsDefinition A) ∧
    ∀ name installed t, (Building.close name).run.run h.bench.state = (.ok installed, t) →
      ∀ p ∈ h.bench.state.current.deduction.parameters, ∀ g ∈ t.frames,
        ∀ e ∈ g.deduction.entries, e.isCondition = true → e.statement.occursFree p = true →
          e.IsDefinition A := by
  have hcondition := hreachable.eigenvariables hA hexternal
  constructor
  · intro inner f outer hframes
    rw [hframes] at hcondition
    exact hcondition.of_append.1
  · intro name installed t hclose p hp g hg e he hsupposed hfree
    obtain ⟨f, hf, he⟩ := Building.exists_mem_enclosing_of_close hclose hg he hsupposed
    exact hcondition.1 p hp f hf e he hfree

/-- A deduction about any member of a set that it has as a parameter: the definition of the bounded
quantifier is written out, and closing goes through. -/
theorem eigenvariables_of_bounded_draft :
    let h := ((Host.start 0 16 ()).perform .none (.operate (.push (some "draft")))).perform .none
      (.script "(forall x) (suppose H (forall-in x (lambda (y) (in y x)))) (autobind H 5)")
    ∃ p ∈ h.bench.state.current.deduction.parameters, ∃ g ∈ h.bench.state.enclosing,
      ∃ e ∈ g.deduction.entries, e.statement.occursFree p = true ∧
        e.IsDefinition {Prelude.boundedQuantifier} := by
  intro h
  have hpushed : ((Host.start 0 16 ()).perform .none (.operate (.push (some "draft")))).ReachableFor
      (.anywhere {Prelude.boundedQuantifier}) .none :=
    (Host.ReachableFor.start 0 16 ()).perform _ trivial
  have hreachable : h.ReachableFor (.anywhere {Prelude.boundedQuantifier}) .none :=
    hpushed.perform (.script _) trivial
  obtain ⟨p, hp, g, hg, e, he, hfree⟩ : ∃ p ∈ h.bench.state.current.deduction.parameters,
      ∃ g ∈ h.bench.state.enclosing, ∃ e ∈ g.deduction.entries,
        e.statement.occursFree p = true := by
    decide +kernel
  obtain ⟨hcondition, -⟩ := eigenvariables_of_reachable (Set.mem_singleton _)
    (External.none_lawfulFor _) hreachable
  exact ⟨p, hp, g, hg, e, he, hfree, hcondition [] _ _ rfl p hp g hg e he hfree⟩

/-- There are such definitions. Here the bounded quantifier over a parameter is written out inside
the deduction that has the parameter. Its definition is supposed at the root, mentions the
parameter, and stays behind when the deduction is closed and its theorem quantified over the
parameter. -/
theorem exists_eigenvariable_in_definition :
    ∃ h : Host Unit, h.ReachableFor (.anywhere {Prelude.boundedQuantifier}) .none ∧
      ∃ p ∈ h.bench.state.current.deduction.parameters,
        (∃ g ∈ h.bench.state.enclosing, ∃ e ∈ g.deduction.entries,
          e.statement.occursFree p = true) ∧
        ∃ name t, (Building.close none).run.run h.bench.state = (.ok name, t) ∧
          ∃ g ∈ t.frames, ∃ e ∈ g.deduction.entries, e.isCondition = true ∧
            e.statement.occursFree p = true := by
  let pushed := (Host.start 0 16 ()).perform .none (.operate (.push (some "A")))
  let h := pushed.perform .none
    (.script "(forall x) (suppose H (forall-in x (lambda (y) (in y y)))) (autobind H 5)")
  have hpushed : pushed.ReachableFor (.anywhere {Prelude.boundedQuantifier}) .none :=
    (Host.ReachableFor.start 0 16 ()).perform _ trivial
  obtain ⟨p, hp, hfree, hbehind⟩ : ∃ p ∈ h.bench.state.current.deduction.parameters,
      (∃ g ∈ h.bench.state.enclosing, ∃ e ∈ g.deduction.entries, e.statement.occursFree p = true) ∧
      ∃ g ∈ ((Building.close none).run.run h.bench.state).2.frames, ∃ e ∈ g.deduction.entries,
        e.isCondition = true ∧ e.statement.occursFree p = true := by decide +kernel
  have hok (r : Except Refusal String × ProofState) (hr : r.1.toBool = true) :
      ∃ name, r = (.ok name, r.2) := by
    obtain ⟨_ | name, t⟩ := r
    · cases hr
    · exact ⟨name, rfl⟩
  obtain ⟨name, hclosed⟩ := hok ((Building.close none).run.run h.bench.state) (by decide +kernel)
  exact ⟨h, hpushed.perform _ trivial, p, hp, hfree, name, _, hclosed, hbehind⟩

end NaturalDeduction
