import Mathlib.Logic.Relation
import NaturalDeduction.ProofState.Basic
import NaturalDeduction.Proofs.Established

/-!
# Steps of a proof state

Everything that is done to a proof state is made of a few kinds of steps: counters move, an entry, a
parameter, a rule or an abbreviation is added to the current deduction, a deduction is opened,
dropped, or closed with its theorem, and what is newest is forgotten. `Step` lists them with the
conditions under which they are taken; nothing else needs to be known about the functions that take
them. An abbreviation is registered only at the root.

With `defining`, one more kind of step is possible: a supposition is added to the root, whatever
deduction is current. That is how definitions of abbreviations are supposed, and the variables of
such a definition may be parameters of the deductions inside. So the suppositions of the root are
axiomatic when these steps are allowed.

Two invariants are kept by every step. All variables of a state are numbered below its counter,
which is one part of what makes it *tidy*; that abbreviations stay where they belong is the other
part, and depends on where they may be registered. The frames of a state are *justified* if every
entry is established and the parameters of every open deduction are mentioned by no supposition
around it.

The counter enters the second invariant, too: a parameter that is drawn at the counter occurs in
nothing below it, so it is mentioned by no supposition around. That is why tidiness is shown first
(`Step.below`) and used in the other proof (`Step.justified`).
-/

namespace NaturalDeduction

/-! ### Tidy states -/

/-- Whether every variable of the statements in a tactic has a number below `n`. -/
def Tactic.Below (n : Nat) : Tactic → Prop
  | specialize _ values => ∀ e ∈ values, e.Below n
  | _ => True

/-- Whether every variable of a frame has a number below `n`. -/
structure Frame.Below (n : Nat) (f : Frame) : Prop where
  statements : ∀ e ∈ f.deduction.entries, e.statement.Below n
  parameters : ∀ p ∈ f.deduction.parameters, p.id < n
  rules : ∀ r ∈ f.rules, r.tactic.Below n

/-- What is below a counter is below every later one. -/
theorem Tactic.Below.mono {t : Tactic} {n m : Nat} (h : t.Below n) (hnm : n ≤ m) : t.Below m := by
  cases t with
  | specialize source values => exact fun e he ↦ (h e he).mono hnm
  | _ => trivial

/-- A frame below a counter is below every later one. -/
theorem Frame.Below.mono {f : Frame} {n m : Nat} (h : f.Below n) (hnm : n ≤ m) : f.Below m where
  statements e he := (h.statements e he).mono hnm
  parameters p hp := Nat.lt_of_lt_of_le (h.parameters p hp) hnm
  rules r hr := (h.rules r hr).mono hnm

/-- Whether the expansion of arguments whose variables are numbered below the counter moves it only
forwards and stays below it. -/
def Abbreviation.Lawful (a : Abbreviation) : Prop :=
  ∀ (args : List Expression) (n : Nat), (∀ e ∈ args, e.Below n) →
    n ≤ ((a.expand args).run n).2 ∧
      ∀ e, ((a.expand args).run n).1 = some e → e.Below ((a.expand args).run n).2

/-- Whether no frame but the outermost has abbreviations, and that one only lawful ones. -/
def Furnished : List Frame → Prop
  | [] => True
  | f :: rest =>
    (rest ≠ [] → f.abbreviations = []) ∧ (∀ a ∈ f.abbreviations, a.Lawful) ∧ Furnished rest

/-- All variables are below the counter, and abbreviations are lawful and belong to the root. -/
structure ProofState.Tidy (s : ProofState) : Prop where
  below : ∀ f ∈ s.frames, f.Below s.nextVariable
  furnished : Furnished s.frames

namespace Expression

/-- A quantification is below the counter if its variables and its body are. -/
theorem alls_below {parameters : List Variable} {e : Expression} {n : Nat}
    (hparameters : ∀ p ∈ parameters, p.id < n) (he : e.Below n) : (alls parameters e).Below n := by
  induction parameters with
  | nil => exact he
  | cons p rest ih =>
    exact ⟨hparameters p List.mem_cons_self, ih fun q hq ↦
      hparameters q (List.mem_cons_of_mem p hq)⟩

/-- A rule is below the counter if its conditions and its conclusion are. -/
theorem rules_below {conditions : List Expression} {e : Expression} {n : Nat}
    (hconditions : ∀ c ∈ conditions, c.Below n) (he : e.Below n) :
    (rules conditions e).Below n := by
  induction conditions with
  | nil => exact he
  | cons c rest ih =>
    exact ⟨hconditions c List.mem_cons_self, ih fun d hd ↦
      hconditions d (List.mem_cons_of_mem c hd)⟩

end Expression

/-- The theorem of a deduction below the counter is below it: it is made of its parameters, its
conditions and what was derived last. -/
theorem Frame.Below.closedTheorem {f : Frame} {n : Nat} {e : Expression} (h : f.Below n)
    (he : f.deduction.closedTheorem? = some e) : e.Below n := by
  obtain ⟨last, hlast, rfl⟩ := Option.map_eq_some_iff.1 he
  refine Expression.alls_below h.parameters (Expression.rules_below (fun c hc ↦ ?_) ?_)
  · obtain ⟨a, ha, rfl⟩ := List.mem_map.1 (List.mem_reverse.1 hc)
    exact h.statements a (List.mem_filter.1 ha).1
  · exact h.statements last (List.mem_of_find?_eq_some hlast)

/-! ### Steps -/

/-- The lists of entries of some frames. -/
def stackOf (frames : List Frame) : List (List Entry) := frames.map (·.deduction.entries)

/-- A frame with one more entry. -/
def Frame.add (f : Frame) (e : Entry) : Frame :=
  { f with deduction := { f.deduction with entries := e :: f.deduction.entries } }

/-- A state with one more entry in its current deduction. -/
def ProofState.add (s : ProofState) (e : Entry) : ProofState :=
  { s with current := s.current.add e }

/-- The state around the current deduction, if there is a frame `f` around it. -/
def ProofState.outside (s : ProofState) (f : Frame) (rest : List Frame) : ProofState :=
  { s with current := f, enclosing := rest }

/-- One step, from a state to the next one. -/
inductive Step (defining : Bool) : ProofState → ProofState → Prop
  | draw {s : ProofState} {n : Nat} (h : s.nextVariable ≤ n) :
      Step defining s { s with nextVariable := n }
  | generate {s : ProofState} {n : Nat} (h : s.nextName ≤ n) :
      Step defining s { s with nextName := n }
  | search {s : ProofState} (limit searching : Nat) :
      Step defining s { s with searchLimit := limit, searching := searching }
  | suppose {s : ProofState} {name : String} {e : Expression}
      (hname : s.current.deduction.get? name = none) (h : e.Below s.nextVariable) :
      Step defining s (s.add ⟨name, e, .supposition⟩)
  | infer {s : ProofState} {name : String} {e : Expression} {j : Justification}
      (hname : s.current.deduction.get? name = none) (h : e.Below s.nextVariable)
      (hinfers : Infers (visible (stackOf s.frames)) e j) : Step defining s (s.add ⟨name, e, j⟩)
  /-- No deduction around mentions the new parameter. -/
  | parameter {s : ProofState} {v : Variable} (h : v.id < s.nextVariable)
      (hfree : ∀ e ∈ visible (stackOf s.enclosing), e.occursFree v = false) :
      Step defining s (s.mapDeduction (·.addParameter v))
  | push {s : ProofState} (name : String) :
      Step defining s { s with current := { deduction := .empty name }, enclosing := s.frames }
  | pop {s : ProofState} {f : Frame} {rest : List Frame} (h : s.enclosing = f :: rest) :
      Step defining s (s.outside f rest)
  | close {s : ProofState} {f : Frame} {rest : List Frame} {e : Expression} {name : String}
      (h : s.enclosing = f :: rest) (hname : f.deduction.get? name = none)
      (htheorem : s.current.deduction.closedTheorem? = some e) :
      Step defining s ((s.outside f rest).add ⟨name, e, .deduction s.current.deduction⟩)
  | forget {s : ProofState} (entries parameters rules abbreviations : Nat) :
      Step defining s { s with
        current :=
          { deduction := s.current.deduction.truncate entries parameters
            rules := s.current.rules.take rules
            abbreviations := s.current.abbreviations.take abbreviations } }
  | define {s : ProofState} {inner : List Frame} {root current : Frame} {enclosing : List Frame}
      {name : String} {e : Expression} (h : defining = true) (hs : s.frames = inner ++ [root])
      (hname : root.deduction.get? name = none) (he : e.Below s.nextVariable)
      (hframes : current :: enclosing = inner ++ [root.add ⟨name, e, .supposition⟩]) :
      Step defining s { s with current := current, enclosing := enclosing }
  | register {s : ProofState} {r : Rule} (h : r.tactic.Below s.nextVariable) :
      Step defining s (s.addRule r)
  | abbreviate {s : ProofState} {a : Abbreviation} (h : s.enclosing = []) (ha : a.Lawful) :
      Step defining s (s.addAbbreviation a)

/-- Any number of steps. -/
abbrev Steps (defining : Bool) : ProofState → ProofState → Prop :=
  Relation.ReflTransGen (Step defining)

/-- No step takes the counter of variables back. -/
theorem Step.nextVariable_le {defining : Bool} {s s' : ProofState} (h : Step defining s s') :
    s.nextVariable ≤ s'.nextVariable := by
  cases h with
  | draw h => exact h
  | _ => exact Nat.le_refl _

/-! ### Steps keep variables below the counter -/

/-- Taking a parameter adds no entry. -/
theorem Deduction.entries_addParameter (d : Deduction) (v : Variable) :
    (d.addParameter v).entries = d.entries := by
  unfold addParameter
  split <;> rfl

/-- Taking a parameter adds that parameter at most. -/
theorem Deduction.mem_parameters_addParameter {d : Deduction} {v p : Variable}
    (h : p ∈ (d.addParameter v).parameters) : p ∈ d.parameters ∨ p = v := by
  unfold addParameter at h
  split at h
  · exact .inl h
  · exact (List.mem_append.1 h).imp_right List.mem_singleton.1

/-- An entry below the counter may be added to a frame below it. -/
theorem Frame.Below.add {f : Frame} {n : Nat} {e : Entry} (h : f.Below n)
    (he : e.statement.Below n) : (f.add e).Below n :=
  ⟨fun a ha ↦ (List.mem_cons.1 ha).elim (fun ha ↦ ha ▸ he) (h.statements a), h.parameters, h.rules⟩

variable {defining : Bool} {s s' : ProofState}

/-- What is below the counter stays there when the current frame is replaced. -/
theorem ProofState.below_replace {f : Frame} {n : Nat} (hs : ∀ g ∈ s.frames, g.Below n)
    (hf : f.Below n) : ∀ g ∈ ({ s with current := f } : ProofState).frames, g.Below n :=
  List.forall_mem_cons.2 ⟨hf, fun g hg ↦ hs g (List.mem_cons_of_mem _ hg)⟩

/-- What is around a deduction stays below the counter when the deduction is left. -/
theorem ProofState.below_outside {f : Frame} {rest : List Frame} {n : Nat}
    (hs : ∀ g ∈ s.frames, g.Below n) (henclosing : s.enclosing = f :: rest) :
    ∀ g ∈ (s.outside f rest).frames, g.Below n :=
  fun g hg ↦ hs g (List.mem_cons_of_mem _ (henclosing ▸ hg))

/-- Steps keep all variables below the counter. -/
theorem Step.below (h : Step defining s s') (hs : ∀ f ∈ s.frames, f.Below s.nextVariable) :
    ∀ f ∈ s'.frames, f.Below s'.nextVariable := by
  have hcurrent := hs s.current List.mem_cons_self
  cases h with
  | draw h => exact fun f hf ↦ (hs f hf).mono h
  | generate h | search limit searching => exact hs
  | suppose hname h | infer hname h hinfers => exact ProofState.below_replace hs (hcurrent.add h)
  | @parameter v h hfree =>
    refine ProofState.below_replace hs ⟨fun e he ↦ ?_, fun p hp ↦ ?_, hcurrent.rules⟩
    · exact hcurrent.statements e (s.current.deduction.entries_addParameter v ▸ he)
    · rcases Deduction.mem_parameters_addParameter hp with hp | rfl
      · exact hcurrent.parameters p hp
      · exact h
  | push name =>
    refine List.forall_mem_cons.2 ⟨⟨fun e he ↦ ?_, fun p hp ↦ ?_, fun r hr ↦ ?_⟩, hs⟩
    · exact absurd he List.not_mem_nil
    · exact absurd hp List.not_mem_nil
    · exact absurd hr List.not_mem_nil
  | pop h => exact ProofState.below_outside hs h
  | @close f rest e name h hname htheorem =>
    have houtside := ProofState.below_outside hs h
    have hf := houtside f List.mem_cons_self
    exact ProofState.below_replace houtside (hf.add (hcurrent.closedTheorem htheorem))
  | forget entries parameters rules abbreviations =>
    refine ProofState.below_replace hs ⟨fun e he ↦ ?_, fun p hp ↦ ?_, fun r hr ↦ ?_⟩
    · exact hcurrent.statements e (List.mem_of_mem_drop he)
    · exact hcurrent.parameters p (List.mem_of_mem_take hp)
    · exact hcurrent.rules r (List.mem_of_mem_take hr)
  | @define inner root current enclosing name e h hframes hname he hframes' =>
    intro f hf
    -- only the root has changed, by the definition
    have hf : f ∈ inner ++ [root.add ⟨name, e, .supposition⟩] := hframes' ▸ hf
    rcases List.mem_append.1 hf with hf | hf
    · exact hs f (hframes ▸ List.mem_append_left _ hf)
    · rw [List.mem_singleton.1 hf]
      exact (hs root (hframes ▸ List.mem_append_right _ List.mem_cons_self)).add he
  | register h =>
    refine ProofState.below_replace hs ⟨hcurrent.statements, hcurrent.parameters, fun r hr ↦ ?_⟩
    rcases List.mem_append.1 hr with hr | hr
    · exact hcurrent.rules r hr
    · exact List.mem_singleton.1 hr ▸ h
  | abbreviate h hlawful =>
    exact ProofState.below_replace hs ⟨hcurrent.statements, hcurrent.parameters, hcurrent.rules⟩

/-! ### Steps keep the frames justified -/

/-- Whether every entry is established and the parameters of every deduction are mentioned by no
supposition around it. -/
def Justified (axiomatic : Bool) : List Frame → Prop
  | [] => True
  | f :: rest =>
    Established axiomatic (stackOf rest) f.deduction.entries ∧
      Unmentioned axiomatic f.deduction.parameters (stackOf rest) ∧ Justified axiomatic rest

/-- A supposition at the root is visible from all deductions inside. -/
theorem visible_append_singleton_subset {inner : List Frame} {root : Frame} (e : Entry) :
    visible (stackOf (inner ++ [root])) ⊆ visible (stackOf (inner ++ [root.add e])) := by
  intro x hx
  simp only [stackOf, visible, List.map_append, List.flatten_append, List.mem_append] at hx ⊢
  refine hx.imp_right fun hx ↦ ?_
  simp only [List.map_cons, List.map_nil, List.flatten_cons, List.flatten_nil, List.append_nil]
    at hx ⊢
  exact List.mem_cons_of_mem _ hx

/-- Suppositions of the root are axiomatic, so one more makes no difference to what is assumed
inside. -/
theorem Justified.define {inner : List Frame} {root : Frame}
    (h : Justified true (inner ++ [root])) (name : String) (e : Expression) :
    Justified true (inner ++ [root.add ⟨name, e, .supposition⟩]) := by
  induction inner with
  | nil => exact ⟨h.1.supposition name e, h.2.1, trivial⟩
  | cons f rest ih =>
    have hext : Extends true (stackOf (rest ++ [root]))
        (stackOf (rest ++ [root.add ⟨name, e, .supposition⟩])) := by
      refine ⟨by simp [stackOf], visible_append_singleton_subset _, ?_⟩
      simp [assumed, stackOf]
    exact ⟨h.1.extend hext, h.2.1.extends hext, ih h.2.2⟩

/-- **Every step keeps the frames justified.** What is inferred is established by the inference, and
what closing installs is established by the deduction that was closed. There is one case for each
kind of step. -/
theorem Step.justified (h : Step defining s s') (hs : Justified defining s.frames) :
    Justified defining s'.frames := by
  cases h with
  | draw h | generate h | search limit searching | register h | abbreviate h ha => exact hs
  | @suppose name e hname h => exact ⟨hs.1.supposition name e, hs.2⟩
  | @infer name e j hname h hinfers => exact ⟨hs.1.inference hinfers name, hs.2⟩
  | @parameter v h hfree =>
    refine ⟨?_, fun p hp e he ↦ ?_, hs.2.2⟩
    · show Established _ _ (s.current.deduction.addParameter v).entries
      rw [Deduction.entries_addParameter]
      exact hs.1
    · rcases Deduction.mem_parameters_addParameter hp with hp | rfl
      · exact hs.2.1 p hp e he
      · exact hfree e (assumed_subset_visible he)
  | push name => exact ⟨.nil, fun p hp ↦ absurd hp List.not_mem_nil, hs⟩
  | pop h =>
    rw [ProofState.frames, h] at hs
    exact hs.2.2
  | @close f rest e name h hname htheorem =>
    rw [ProofState.frames, h] at hs
    obtain ⟨hinner, hfree, houter, hrest⟩ := hs
    exact ⟨houter.deduction hinner hfree htheorem name, hrest⟩
  | forget entries parameters rules abbreviations =>
    exact ⟨hs.1.drop _, fun p hp ↦ hs.2.1 p (List.mem_of_mem_take hp), hs.2.2⟩
  | @define inner root current enclosing name e h hframes hname he hframes' =>
    subst h
    show Justified true (current :: enclosing)
    rw [hframes']
    exact Justified.define (hframes ▸ hs) name e

/-- So any number of steps does. -/
theorem Steps.justified (h : Steps defining s s') (hs : Justified defining s.frames) :
    Justified defining s'.frames := by
  induction h with
  | refl => exact hs
  | tail _ hstep ih => exact hstep.justified ih

end NaturalDeduction
