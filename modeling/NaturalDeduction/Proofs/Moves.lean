import NaturalDeduction.Proofs.Steps

/-!
# Moves under a policy

Abbreviations may be registered in any deduction, and what one stands for is supposed in the
deduction that has it, whatever deduction is current. How much of this is allowed depends on what is
to be shown, so it is left to a `Policy`: which abbreviations may be registered in which deductions,
and which statements may be supposed in a deduction from further in.

A *move* under a policy is a step of construction, a supposition further out, or the registration of
an abbreviation. Steps themselves are the moves under the policies that keep abbreviations at the
root (`moves_root_iff`). Every move keeps a state tidy for its policy (`Move.tidyFor`), and so do
steps (`Steps.tidy`).

The lemmas of `Move` up to `register` give the moves that are steps, under any policy, in the form
in which functions take them. They are the interface of `Proofs.Building`, so that nothing there has
to open the definition of a step.

A property of single deductions that additions and forgetting keep is kept by all moves
(`Moves.invariant`). Distinct names and coherent tables are instances.
-/

namespace NaturalDeduction

/-! ### Abbreviations -/

/-- Whether the expansion of arguments whose variables are numbered below the counter moves it only
forwards and stays below it, if the counter has reached `n₀`. The expansion may mention variables
with numbers below `n₀` of its own. -/
def Abbreviation.LawfulFrom (n₀ : Nat) (a : Abbreviation) : Prop :=
  ∀ (args : List Expression) (n : Nat), n₀ ≤ n → (∀ e ∈ args, e.Below n) →
    n ≤ ((a.expand args).run n).2 ∧
      ∀ e, ((a.expand args).run n).1 = some e → e.Below ((a.expand args).run n).2

/-- Whether a statement is an instance of the definition of an abbreviation. -/
def Abbreviation.Defines (a : Abbreviation) (definition : Expression) : Prop :=
  ∃ (statement expansion : Expression) (n : Nat), statement.head? = some a.head ∧
    ((a.expand statement.args).run n).1 = some expansion ∧ definition = .equals statement expansion

namespace Abbreviation

variable {a : Abbreviation} {n m : Nat}

/-- An abbreviation that is lawful from some counter on is so from every later one. -/
theorem LawfulFrom.mono (h : a.LawfulFrom n) (hnm : n ≤ m) : a.LawfulFrom m :=
  fun args k hk ↦ h args k (Nat.le_trans hnm hk)

/-- What is lawful everywhere is lawful from any counter on. -/
theorem Lawful.lawfulFrom (h : a.Lawful) (n : Nat) : a.LawfulFrom n := fun args k _ ↦ h args k

end Abbreviation

/-! ### Policies -/

/-- What may be done with abbreviations. Deductions are meant by their index, counted from the
root. -/
structure Policy where
  /-- What may be registered in a deduction. -/
  Registrable : Nat → Abbreviation → Prop
  /-- What may be supposed in a deduction from further in. -/
  Definable : Nat → Expression → Prop

namespace Policy

/-- All abbreviations belong to the root, and anything may be supposed there, or nothing. -/
def root (defining : Bool) : Policy where
  Registrable index a := index = 0 ∧ a.Lawful
  Definable index _ := defining = true ∧ index = 0

/-- Whether the definition of an abbreviation may be supposed wherever the abbreviation may be
registered. -/
class Permissive (P : Policy) : Prop where
  definable {index : Nat} {a : Abbreviation} {definition : Expression} :
    P.Registrable index a → a.Defines definition → P.Definable index definition

instance : (root true).Permissive where
  definable h _ := ⟨rfl, h.1⟩

/-- Whether all frames only have abbreviations that may be registered in them, and that are lawful
from `n` on. -/
def Furnishes (P : Policy) (n : Nat) : List Frame → Prop
  | [] => True
  | f :: rest =>
    (∀ a ∈ f.abbreviations, P.Registrable rest.length a ∧ a.LawfulFrom n) ∧ P.Furnishes n rest

variable {P : Policy} {n m : Nat}

/-- Frames stay furnished when the counter moves on. -/
theorem Furnishes.mono {frames : List Frame} (h : P.Furnishes n frames) (hnm : n ≤ m) :
    P.Furnishes m frames := by
  induction frames with
  | nil => trivial
  | cons f rest ih => exact ⟨fun a ha ↦ ⟨(h.1 a ha).1, (h.1 a ha).2.mono hnm⟩, ih h.2⟩

/-- A frame may be replaced by one that has the same abbreviations. -/
theorem Furnishes.set {inner outer : List Frame} {f g : Frame}
    (h : P.Furnishes n (inner ++ f :: outer)) (hg : g.abbreviations = f.abbreviations) :
    P.Furnishes n (inner ++ g :: outer) := by
  induction inner with
  | nil => exact ⟨hg ▸ h.1, h.2⟩
  | cons c rest ih =>
    refine ⟨fun a ha ↦ ?_, ih h.2⟩
    have hlength : (rest ++ g :: outer).length = (rest ++ f :: outer).length := by simp
    show P.Registrable (rest ++ g :: outer).length a ∧ _
    rw [hlength]
    exact h.1 a ha

/-- What a frame may register depends on how many frames are around it. -/
theorem Furnishes.of_mem {inner outer : List Frame} {f : Frame}
    (h : P.Furnishes n (inner ++ f :: outer)) {a : Abbreviation} (ha : a ∈ f.abbreviations) :
    P.Registrable outer.length a ∧ a.LawfulFrom n := by
  induction inner with
  | nil => exact h.1 a ha
  | cons c rest ih => exact ih h.2

/-- The frames that are furnished for a policy about the root are those that have no abbreviations,
but for the outermost, which has lawful ones. -/
theorem furnishes_root_iff {defining : Bool} {frames : List Frame} :
    (root defining).Furnishes n frames ↔ Furnished frames := by
  induction frames with
  | nil => exact Iff.rfl
  | cons f rest ih =>
    constructor
    · intro ⟨hf, hrest⟩
      refine ⟨fun hne ↦ List.eq_nil_iff_forall_not_mem.2 fun a ha ↦ ?_, fun a ha ↦ ?_, ih.1 hrest⟩
      · exact hne (List.eq_nil_of_length_eq_zero (hf a ha).1.1)
      · exact (hf a ha).1.2
    · intro ⟨hinner, hlawful, hrest⟩
      refine ⟨fun a ha ↦ ⟨⟨?_, hlawful a ha⟩, (hlawful a ha).lawfulFrom n⟩, ih.2 hrest⟩
      by_cases hne : rest = []
      · rw [hne]
        rfl
      · rw [hinner hne] at ha
        exact absurd ha List.not_mem_nil

end Policy

/-- All variables are below the counter, and the frames are furnished as a policy wants it. -/
structure ProofState.TidyFor (P : Policy) (s : ProofState) : Prop where
  below : ∀ f ∈ s.frames, f.Below s.nextVariable
  furnished : P.Furnishes s.nextVariable s.frames

/-- For the policy that keeps abbreviations at the root, tidiness is the one of steps. -/
theorem ProofState.tidyFor_root_iff {defining : Bool} {s : ProofState} :
    s.TidyFor (.root defining) ↔ s.Tidy :=
  ⟨fun h ↦ ⟨h.below, Policy.furnishes_root_iff.1 h.furnished⟩,
    fun h ↦ ⟨h.below, Policy.furnishes_root_iff.2 h.furnished⟩⟩

/-! ### Moves -/

/-- One move under a policy. -/
inductive Move (P : Policy) : ProofState → ProofState → Prop
  /-- A step of construction that keeps the frames furnished. -/
  | step {s t : ProofState} (h : Step false s t)
      (hfurnished : P.Furnishes s.nextVariable s.frames → P.Furnishes t.nextVariable t.frames) :
      Move P s t
  /-- A supposition in any deduction, whatever deduction is current. -/
  | define {s : ProofState} {inner outer enclosing : List Frame} {f current : Frame} {name : String}
      {e : Expression} (h : P.Definable outer.length e) (hs : s.frames = inner ++ f :: outer)
      (hname : f.deduction.get? name = none) (he : e.Below s.nextVariable)
      (hframes : current :: enclosing = inner ++ f.add ⟨name, e, .supposition⟩ :: outer) :
      Move P s { s with current := current, enclosing := enclosing }
  | abbreviate {s : ProofState} {a : Abbreviation} (h : P.Registrable s.enclosing.length a)
      (ha : a.LawfulFrom s.nextVariable) : Move P s (s.addAbbreviation a)

/-- Any number of moves. -/
abbrev Moves (P : Policy) : ProofState → ProofState → Prop := Relation.ReflTransGen (Move P)

namespace Move

variable {P : Policy} {s t : ProofState}

/-- Drawing variables moves the counter of variables. -/
theorem draw {n : Nat} (h : s.nextVariable ≤ n) : Move P s { s with nextVariable := n } :=
  .step (.draw h) fun hs ↦ hs.mono h

/-- Generating names moves the counter of names. -/
theorem generate {n : Nat} (h : s.nextName ≤ n) : Move P s { s with nextName := n } :=
  .step (.generate h) id

/-- Levels of searching may be set to anything: no statement depends on them. -/
theorem search (limit searching : Nat) :
    Move P s { s with searchLimit := limit, searching := searching } :=
  .step (.search limit searching) id

/-- Anything may be supposed under a name that is free, if it is below the counter. -/
theorem suppose {name : String} {e : Expression} (hname : s.current.deduction.get? name = none)
    (h : e.Below s.nextVariable) : Move P s (s.add ⟨name, e, .supposition⟩) :=
  .step (.suppose hname h) id

/-- What the visible statements infer may be added under a name that is free. -/
theorem infer {name : String} {e : Expression} {j : Justification}
    (hname : s.current.deduction.get? name = none) (h : e.Below s.nextVariable)
    (hinfers : Infers (visible (stackOf s.frames)) e j) : Move P s (s.add ⟨name, e, j⟩) :=
  .step (.infer hname h hinfers) id

/-- A parameter may be taken if nothing visible around mentions it. -/
theorem parameter {v : Variable} (h : v.id < s.nextVariable)
    (hfree : ∀ e ∈ visible (stackOf s.enclosing), e.occursFree v = false) :
    Move P s (s.mapDeduction (·.addParameter v)) := .step (.parameter h hfree) id

/-- A deduction may be opened at any time. -/
theorem push (name : String) :
    Move P s { s with current := { deduction := .empty name }, enclosing := s.frames } :=
  .step (.push name) fun hs ↦ ⟨fun _ ha ↦ absurd ha List.not_mem_nil, hs⟩

/-- A deduction may be left without its theorem. -/
theorem pop {f : Frame} {rest : List Frame} (h : s.enclosing = f :: rest) :
    Move P s (s.outside f rest) := by
  refine .step (.pop h) fun hs ↦ ?_
  have houter := hs.2
  rw [h] at houter
  exact houter

/-- A deduction that has a theorem may be closed, under a name that is free around it. -/
theorem close {f : Frame} {rest : List Frame} {e : Expression} {name : String}
    (h : s.enclosing = f :: rest) (hname : f.deduction.get? name = none)
    (htheorem : s.current.deduction.closedTheorem? = some e) :
    Move P s ((s.outside f rest).add ⟨name, e, .deduction s.current.deduction⟩) := by
  refine .step (.close h hname htheorem) fun hs ↦ ?_
  have houter := hs.2
  rw [h] at houter
  exact houter

/-- What is newest in the current deduction may be forgotten, down to any counts. -/
theorem forget (entries parameters rules abbreviations : Nat) :
    Move P s { s with
      current :=
        { deduction := s.current.deduction.truncate entries parameters
          rules := s.current.rules.take rules
          abbreviations := s.current.abbreviations.take abbreviations } } :=
  .step (.forget entries parameters rules abbreviations) fun hs ↦
    ⟨fun a ha ↦ hs.1 a (List.mem_of_mem_take ha), hs.2⟩

/-- A rule may be registered if its tactic mentions nothing from above the counter. -/
theorem register {r : Rule} (h : r.tactic.Below s.nextVariable) : Move P s (s.addRule r) :=
  .step (.register h) id

/-- No move takes the counter of variables back. -/
theorem nextVariable_le (h : Move P s t) : s.nextVariable ≤ t.nextVariable := by
  cases h with
  | step h => exact h.nextVariable_le
  | define | abbreviate => exact Nat.le_refl _

/-- Moves keep a state tidy for their policy. -/
theorem tidyFor (h : Move P s t) (hs : s.TidyFor P) : t.TidyFor P := by
  cases h with
  | step h hfurnished => exact ⟨h.below hs.below, hfurnished hs.furnished⟩
  | @define inner outer enclosing f current name e h hframes hname he hframes' =>
    have hbelow := hs.below
    have hfurnished := hs.furnished
    rw [hframes] at hbelow hfurnished
    refine ⟨fun g hg ↦ ?_, ?_⟩
    -- only the frame in the middle has changed, by the definition
    · have hg : g ∈ inner ++ f.add ⟨name, e, .supposition⟩ :: outer := hframes' ▸ hg
      rcases List.mem_append.1 hg with hg | hg
      · exact hbelow g (List.mem_append_left _ hg)
      · rcases List.mem_cons.1 hg with rfl | hg
        · exact (hbelow f (List.mem_append_right _ List.mem_cons_self)).add he
        · exact hbelow g (List.mem_append_right _ (List.mem_cons_of_mem f hg))
    · show P.Furnishes s.nextVariable (current :: enclosing)
      rw [hframes']
      exact hfurnished.set rfl
  | @abbreviate a h ha =>
    have hcurrent := hs.below s.current List.mem_cons_self
    refine ⟨ProofState.below_replace hs.below ⟨hcurrent.statements, hcurrent.parameters,
      hcurrent.rules⟩, fun b hb ↦ ?_, hs.furnished.2⟩
    rcases List.mem_append.1 hb with hb | hb
    · exact hs.furnished.1 b hb
    · rw [List.mem_singleton.1 hb]
      exact ⟨h, ha⟩

end Move

namespace Moves

variable {P : Policy} {s t : ProofState}

/-- Nor does any number of moves. -/
theorem nextVariable_le (h : Moves P s t) : s.nextVariable ≤ t.nextVariable := by
  induction h with
  | refl => exact Nat.le_refl _
  | tail _ hmove ih => exact Nat.le_trans ih hmove.nextVariable_le

/-- Moves keep a state tidy, one after the other. -/
theorem tidyFor (h : Moves P s t) (hs : s.TidyFor P) : t.TidyFor P := by
  induction h with
  | refl => exact hs
  | tail _ hmove ih => exact hmove.tidyFor ih

end Moves

/-! ### What holds of every deduction -/

/-- Whether a property holds of a deduction in which nothing has happened, and is kept by whatever
adds to a deduction or forgets. -/
structure Deduction.Invariant (p : Deduction → Prop) : Prop where
  empty (name : String) : p (.empty name)
  add {d : Deduction} {e : Entry} (h : p d) (hname : d.get? e.name = none) :
    p { d with entries := e :: d.entries }
  addParameter {d : Deduction} (v : Variable) (h : p d) : p (d.addParameter v)
  truncate {d : Deduction} (entries parameters : Nat) (h : p d) : p (d.truncate entries parameters)

section Invariant

variable {P : Policy} {s t : ProofState} {p : Deduction → Prop}

/-- What holds of empty deductions and is kept by additions and by forgetting is kept by steps, in
every frame. -/
theorem Step.invariant {defining : Bool} (hp : Deduction.Invariant p) (h : Step defining s t)
    (hs : ∀ f ∈ s.frames, p f.deduction) : ∀ f ∈ t.frames, p f.deduction := by
  have hcurrent := hs s.current List.mem_cons_self
  have hreplace : ∀ f : Frame, p f.deduction →
      ∀ g ∈ ({ s with current := f } : ProofState).frames, p g.deduction :=
    fun f hf ↦ List.forall_mem_cons.2 ⟨hf, fun g hg ↦ hs g (List.mem_cons_of_mem _ hg)⟩
  cases h with
  | draw | generate | search => exact hs
  | suppose hname | infer hname => exact hreplace _ (hp.add hcurrent hname)
  | parameter => exact hreplace _ (hp.addParameter _ hcurrent)
  | push name => exact List.forall_mem_cons.2 ⟨hp.empty name, hs⟩
  | pop h => exact fun g hg ↦ hs g (List.mem_cons_of_mem _ (h ▸ hg))
  | @close f rest e name h hname htheorem =>
    rw [ProofState.frames, h] at hs
    obtain ⟨-, hf, hrest⟩ := List.forall_mem_cons.1 hs |>.imp id List.forall_mem_cons.1
    exact List.forall_mem_cons.2 ⟨hp.add hf hname, hrest⟩
  | forget => exact hreplace _ (hp.truncate _ _ hcurrent)
  | @define inner root current enclosing name e h hframes hname he hframes' =>
    intro g hg
    have hg : g ∈ inner ++ [root.add ⟨name, e, .supposition⟩] := hframes' ▸ hg
    rcases List.mem_append.1 hg with hg | hg
    · exact hs g (hframes ▸ List.mem_append_left _ hg)
    · rw [List.mem_singleton.1 hg]
      exact hp.add (hs root (hframes ▸ List.mem_append_right _ List.mem_cons_self)) hname
  | register | abbreviate => exact hreplace _ hcurrent

/-- It is kept by moves, as a supposition further out is an addition to a deduction. -/
theorem Move.invariant (hp : Deduction.Invariant p) (h : Move P s t)
    (hs : ∀ f ∈ s.frames, p f.deduction) : ∀ f ∈ t.frames, p f.deduction := by
  cases h with
  | step h => exact h.invariant hp hs
  | @define inner outer enclosing f current name e h hframes hname he hframes' =>
    intro g hg
    have hg : g ∈ inner ++ f.add ⟨name, e, .supposition⟩ :: outer := hframes' ▸ hg
    rw [hframes] at hs
    rcases List.mem_append.1 hg with hg | hg
    · exact hs g (List.mem_append_left _ hg)
    · rcases List.mem_cons.1 hg with rfl | hg
      · exact hp.add (hs f (List.mem_append_right _ List.mem_cons_self)) hname
      · exact hs g (List.mem_append_right _ (List.mem_cons_of_mem f hg))
  | abbreviate =>
    exact List.forall_mem_cons.2 ⟨hs s.current List.mem_cons_self,
      fun g hg ↦ hs g (List.mem_cons_of_mem _ hg)⟩

/-- So it holds of all deductions that moves lead to. -/
theorem Moves.invariant (hp : Deduction.Invariant p) (h : Moves P s t)
    (hs : ∀ f ∈ s.frames, p f.deduction) : ∀ f ∈ t.frames, p f.deduction := by
  induction h with
  | refl => exact hs
  | tail _ hmove ih => exact hmove.invariant hp ih

end Invariant

/-! ### Steps as moves -/

section Root

variable {defining : Bool} {s t : ProofState}

/-- A step that supposes nothing from further in is a step with such suppositions allowed. -/
theorem Step.of_not_defining (h : Step false s t) : Step defining s t := by
  cases h with
  | draw h => exact .draw h
  | generate h => exact .generate h
  | search limit searching => exact .search limit searching
  | suppose hname h => exact .suppose hname h
  | infer hname h hinfers => exact .infer hname h hinfers
  | parameter h hfree => exact .parameter h hfree
  | push name => exact .push name
  | pop h => exact .pop h
  | close h hname htheorem => exact .close h hname htheorem
  | forget entries parameters rules abbreviations =>
    exact .forget entries parameters rules abbreviations
  | register h => exact .register h
  | abbreviate h ha => exact .abbreviate h ha
  | define h => cases h

/-- Moves under the policy of the root are steps: there, a supposition further out is one at the
root. -/
theorem move_root_iff : Move (.root defining) s t ↔ Step defining s t := by
  constructor
  · intro h
    cases h with
    | step h => exact h.of_not_defining
    | @define inner outer enclosing f current name e h hframes hname he hframes' =>
      obtain ⟨hdefining, hindex⟩ := h
      obtain rfl := List.eq_nil_of_length_eq_zero hindex
      exact .define hdefining hframes hname he hframes'
    | abbreviate h ha => exact .abbreviate (List.eq_nil_of_length_eq_zero h.1) h.2
  · intro h
    cases h with
    | draw h => exact .draw h
    | generate h => exact .generate h
    | search limit searching => exact .search limit searching
    | suppose hname h => exact .suppose hname h
    | infer hname h hinfers => exact .infer hname h hinfers
    | parameter h hfree => exact .parameter h hfree
    | push name => exact .push name
    | pop h => exact .pop h
    | close h hname htheorem => exact .close h hname htheorem
    | forget entries parameters rules abbreviations =>
      exact .forget entries parameters rules abbreviations
    | register h => exact .register h
    | abbreviate h ha => exact .abbreviate ⟨congrArg List.length h, ha⟩ (ha.lawfulFrom _)
    | define h hframes hname he hframes' => exact .define ⟨h, rfl⟩ hframes hname he hframes'

/-- So runs of moves under this policy are runs of steps. -/
theorem moves_root_iff : Moves (.root defining) s t ↔ Steps defining s t := by
  have heq : Move (.root defining) = Step defining := by
    funext s t
    exact propext move_root_iff
  rw [Moves, heq]

/-- Steps of construction keep a state tidy. -/
theorem Steps.tidy (h : Steps defining s t) (hs : s.Tidy) : t.Tidy :=
  ProofState.tidyFor_root_iff.1 ((moves_root_iff.2 h).tidyFor (ProofState.tidyFor_root_iff.2 hs))

end Root

end NaturalDeduction
