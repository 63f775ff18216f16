import NaturalDeduction.ProofState.Goal
import NaturalDeduction.Proofs.Shifting.Drawing

/-!
# Shifting proof states

A proof state is shifted with all that it holds: statements, parameters, justifications, rules, and
the counter of variables. The counter of names stays, and so do abbreviations, which are functions;
what is asked of them is that they expand shifted arguments to shifted expressions
(`Abbreviation.Uniform`).

Whatever is looked up in a shifted state is what is found in the state, shifted. Names, depths and
numbers of entries mention no variables, so they are the same.

Most lemmas here are equations of one form, `f (shift d s) = shift d (f s)`, for what a state is
asked. Where the answer holds no variables, the right side is `f s`. The equations for fields are
simp lemmas, and the others follow by unfolding the question and moving the shift through searches
and folds of lists. The questions that need an argument are those that compare statements up to
bound names (`recall?_shift`) and those that look for free occurrences (`parameterObstacle?_shift`).
-/

namespace NaturalDeduction

variable {d : Nat}

instance : Shift Reference := .constant Reference
instance : Shift.Constant Reference := ⟨fun _ _ ↦ rfl⟩

/-! ### Deductions -/

mutual

/-- Raises the numbers of all variables that a justification mentions. -/
def Justification.raise (d : Nat) : Justification → Justification
  | .supposition => .supposition
  | .detachment rule condition => .detachment rule condition
  | .specialization target value => .specialization target (shift d value)
  | .replacement target replacements chosen =>
    .replacement (shift d target) (shift d replacements) chosen
  | .verification e holds => .verification (shift d e) holds
  | .deduction inner => .deduction (inner.raise d)

/-- The same for an entry. -/
def Entry.raise (d : Nat) : Entry → Entry
  | ⟨name, statement, justification⟩ => ⟨name, shift d statement, justification.raise d⟩

/-- The same for a list of entries. -/
def Entry.raiseAll (d : Nat) : List Entry → List Entry
  | [] => []
  | e :: rest => e.raise d :: Entry.raiseAll d rest

/-- The same for a deduction. -/
def Deduction.raise (d : Nat) : Deduction → Deduction
  | ⟨name, parameters, entries⟩ => ⟨name, shift d parameters, Entry.raiseAll d entries⟩

end

instance : Shift Justification := ⟨Justification.raise⟩
instance : Shift Entry := ⟨Entry.raise⟩
instance : Shift Deduction := ⟨Deduction.raise⟩

namespace Entry

/-- The recursion over entries is the shift of the list of entries. -/
theorem raiseAll_eq_shift (entries : List Entry) : raiseAll d entries = shift d entries := by
  induction entries with
  | nil => rfl
  | cons e rest ih => exact congrArg (e.raise d :: ·) ih

@[simp] theorem shift_mk (name : String) (statement : Expression) (j : Justification) :
    shift d (⟨name, statement, j⟩ : Entry) = ⟨name, shift d statement, shift d j⟩ := rfl

@[simp] theorem name_shift (e : Entry) : (shift d e).name = e.name := by cases e; rfl

@[simp] theorem statement_shift (e : Entry) : (shift d e).statement = shift d e.statement := by
  cases e
  rfl

@[simp] theorem isCondition_shift (e : Entry) : (shift d e).isCondition = e.isCondition := by
  obtain ⟨name, statement, justification⟩ := e
  cases justification <;> rfl

end Entry

namespace Deduction

@[simp] theorem shift_mk (name : String) (parameters : List Variable) (entries : List Entry) :
    shift d (⟨name, parameters, entries⟩ : Deduction) =
      ⟨name, shift d parameters, shift d entries⟩ :=
  congrArg (Deduction.mk name (shift d parameters)) (Entry.raiseAll_eq_shift entries)

@[simp] theorem name_shift (x : Deduction) : (shift d x).name = x.name := by cases x; rfl

@[simp] theorem parameters_shift (x : Deduction) :
    (shift d x).parameters = shift d x.parameters := by
  cases x
  rfl

@[simp] theorem entries_shift (x : Deduction) : (shift d x).entries = shift d x.entries := by
  cases x
  exact Entry.raiseAll_eq_shift _

/-- A name has its entry in the shifted deduction just if it has one, and that is the entry shifted.
-/
theorem find?_shift (x : Deduction) (name : String) :
    (shift d x).find? name = shift d (x.find? name) := by
  rw [find?, find?, entries_shift]
  refine NaturalDeduction.find?_shift (fun e ↦ ?_) x.entries
  rw [Entry.name_shift]

/-- What a name stands for is shifted with the deduction. -/
theorem get?_shift (x : Deduction) (name : String) :
    (shift d x).get? name = shift d (x.get? name) := by
  rw [get?, get?, find?_shift, option_map_shift Entry.statement_shift]

/-- Entries are added to the shifted deduction as to the deduction: only names decide. -/
theorem insert_shift (x : Deduction) (e : Entry) :
    (shift d x).insert (shift d e) = shift d (x.insert e) := by
  rw [insert, insert, Entry.name_shift, get?_shift]
  cases x.get? e.name with
  | none =>
    cases x
    simp
  | some existing =>
    rw [shift_some]
    dsimp only
    rw [Entry.statement_shift, Expression.alphaEq_shift]
    split <;> rfl

/-- Whether a parameter is new is decided by numbers, and shifting leaves their equality alone. -/
theorem addParameter_shift (x : Deduction) (v : Variable) :
    (shift d x).addParameter (shift d v) = shift d (x.addParameter v) := by
  have hany : (shift d x.parameters).any (·.id == (shift d v).id) =
      x.parameters.any (·.id == v.id) := any_shift fun w _ ↦ Variable.id_shift_beq w v
  rw [addParameter, addParameter, parameters_shift, hany]
  split
  · rfl
  · cases x
    simp

/-- The conditions are the entries that were supposed, and shifting changes no justification's sort.
-/
theorem conditions_shift (x : Deduction) : (shift d x).conditions = shift d x.conditions := by
  have hfilter : (shift d x.entries).filter (·.isCondition) =
      shift d (x.entries.filter (·.isCondition)) :=
    filter_shift (fun e ↦ e.isCondition_shift) x.entries
  rw [conditions, conditions, entries_shift, hfilter, map_shift Entry.statement_shift,
    reverse_shift]

/-- What was derived last is the same entry, shifted. -/
theorem lastDerived?_shift (x : Deduction) :
    (shift d x).lastDerived? = shift d x.lastDerived? := by
  rw [lastDerived?, lastDerived?, entries_shift]
  refine NaturalDeduction.find?_shift (fun e ↦ ?_) x.entries
  rw [Entry.isCondition_shift]

/-- Generalizing over shifted parameters and stating shifted conditions gives the theorem shifted.
-/
theorem closedTheorem?_shift (x : Deduction) :
    (shift d x).closedTheorem? = shift d x.closedTheorem? := by
  rw [closedTheorem?, closedTheorem?, lastDerived?_shift, conditions_shift, parameters_shift]
  cases x.lastDerived? <;> simp

/-- Cutting off entries and parameters goes by their numbers only. -/
theorem truncate_shift (x : Deduction) (numEntries numParameters : Nat) :
    (shift d x).truncate numEntries numParameters =
      shift d (x.truncate numEntries numParameters) := by
  cases x
  simp [truncate]

end Deduction

/-! ### Frames -/

instance : Shift Tactic where
  shift d
    | .specialize source values => .specialize source (shift d values)
    | .turnAround left right => .turnAround (shift d left) (shift d right)
    | .backwards source => .backwards source
    | .external key => .external key

@[simp] theorem Tactic.shift_specialize (source : String) (values : List Expression) :
    shift d (Tactic.specialize source values) = .specialize source (shift d values) := rfl

@[simp] theorem Tactic.shift_turnAround (left right : Variable) :
    shift d (Tactic.turnAround left right) = .turnAround (shift d left) (shift d right) := rfl

instance : Shift Rule := ⟨fun d r ↦ ⟨r.name, shift d r.pattern, shift d r.tactic⟩⟩

@[simp] theorem Rule.shift_mk (name : String) (pattern : Expression) (tactic : Tactic) :
    shift d (⟨name, pattern, tactic⟩ : Rule) = ⟨name, shift d pattern, shift d tactic⟩ := rfl

instance : Shift Frame := ⟨fun d f ↦ ⟨shift d f.deduction, shift d f.rules, f.abbreviations⟩⟩

namespace Frame

@[simp] theorem shift_mk (x : Deduction) (rules : List Rule) (abbreviations : List Abbreviation) :
    shift d (⟨x, rules, abbreviations⟩ : Frame) = ⟨shift d x, shift d rules, abbreviations⟩ := rfl

@[simp] theorem deduction_shift (f : Frame) : (shift d f).deduction = shift d f.deduction := rfl

@[simp] theorem rules_shift (f : Frame) : (shift d f).rules = shift d f.rules := rfl

@[simp] theorem abbreviations_shift (f : Frame) : (shift d f).abbreviations = f.abbreviations := rfl

end Frame

/-! ### Proof states -/

instance : Shift ProofState where
  shift d s :=
    { s with
      current := shift d s.current
      enclosing := shift d s.enclosing
      nextVariable := s.nextVariable + d }

namespace ProofState

variable (s : ProofState)

@[simp] theorem current_shift : (shift d s).current = shift d s.current := rfl

@[simp] theorem enclosing_shift : (shift d s).enclosing = shift d s.enclosing := rfl

@[simp] theorem nextVariable_shift : (shift d s).nextVariable = s.nextVariable + d := rfl

@[simp] theorem searchLimit_shift : (shift d s).searchLimit = s.searchLimit := rfl

@[simp] theorem searching_shift : (shift d s).searching = s.searching := rfl

@[simp] theorem frames_shift : (shift d s).frames = shift d s.frames := rfl

@[simp] theorem depth_shift : (shift d s).depth = s.depth :=
  congrArg (· + 1) (length_shift s.enclosing)

/-- Frames are searched from the inside, and each of them answers with its entry shifted. -/
theorem find?_shift (name : String) : (shift d s).find? name = shift d (s.find? name) := by
  rw [find?, find?, frames_shift]
  exact findSome?_shift (fun f ↦ f.deduction.find?_shift name) s.frames

/-- What a name stands for is shifted with the state. -/
theorem get?_shift (name : String) : (shift d s).get? name = shift d (s.get? name) := by
  rw [get?, get?, find?_shift, option_map_shift Entry.statement_shift]

/-- The visible entries are the same ones in the same order, shifted. -/
theorem history_shift : (shift d s).history = shift d s.history := by
  rw [history, history, frames_shift, flatMap_shift fun f ↦ f.deduction.entries_shift]

/-- An index refers to the same name, since it counts entries. -/
theorem nameAt?_shift (k : Int) : (shift d s).nameAt? k = s.nameAt? k := by
  rw [nameAt?, nameAt?, history_shift, getElem?_shift,
    option_map_shift Entry.name_shift (s.history[k.natAbs - 1]?), shift_constant]

/-- A shifted statement is recalled under the same name: equality up to bound names is decided
alike. -/
theorem recall?_shift (e : Expression) : (shift d s).«recall?» (shift d e) = s.«recall?» e := by
  have hfind : (shift d s.history).find? (·.statement.alphaEq (shift d e)) =
      shift d (s.history.find? (·.statement.alphaEq e)) := by
    refine NaturalDeduction.find?_shift (fun entry ↦ ?_) s.history
    rw [Entry.statement_shift, Expression.alphaEq_shift]
  rw [«recall?», «recall?», history_shift, hfind, option_map_shift Entry.name_shift, shift_constant]

/-- Frames are numbered alike, from the root. -/
theorem frameAt?_shift (index : Nat) : (shift d s).frameAt? index = shift d (s.frameAt? index) := by
  rw [frameAt?, frameAt?, frames_shift, reverse_shift, getElem?_shift]

/-- Exchanging a frame for a shifted one is exchanging it first and shifting then. -/
theorem setFrameAt_shift (index : Nat) (f : Frame) :
    (shift d s).setFrameAt index (shift d f) = shift d (s.setFrameAt index f) := by
  rw [setFrameAt, setFrameAt, enclosing_shift, length_shift]
  split
  · rfl
  · rw [set_shift]
    rfl

/-- Whatever forbids a parameter forbids the shifted parameter: free occurrences are shifted, too.
-/
theorem parameterObstacle?_shift (v : Variable) :
    (shift d s).parameterObstacle? (shift d v) = s.parameterObstacle? v := by
  rw [parameterObstacle?, parameterObstacle?, enclosing_shift, reverse_shift,
    ← shift_constant d (s.enclosing.reverse.findSome? _)]
  refine findSome?_shift (fun f ↦ ?_) s.enclosing.reverse
  have hany : (shift d f.deduction.parameters).any (·.id == (shift d v).id) =
      f.deduction.parameters.any (·.id == v.id) := any_shift fun w _ ↦ Variable.id_shift_beq w v
  have hfind : (shift d f.deduction.entries.reverse).find? (·.statement.occursFree (shift d v)) =
      shift d (f.deduction.entries.reverse.find? (·.statement.occursFree v)) := by
    refine NaturalDeduction.find?_shift (fun e ↦ ?_) _
    rw [Entry.statement_shift, Expression.occursFree_shift]
  rw [Frame.deduction_shift, Deduction.parameters_shift, hany, Deduction.entries_shift,
    reverse_shift, hfind]
  cases f.deduction.entries.reverse.find? (·.statement.occursFree v) <;> simp

/-- Generated names depend on the names in use only, and shifting leaves those alone. -/
theorem freeNumber_shift : (shift d s).freeNumber = s.freeNumber := by
  have htaken : (fun name ↦ ((shift d s).find? name).isSome) =
      fun name ↦ (s.find? name).isSome := by
    funext name
    rw [find?_shift]
    exact Option.isSome_map
  rw [freeNumber, freeNumber, htaken, history_shift, length_shift]
  rfl

/-- Discarding deductions goes by their depth. -/
theorem truncate_shift (depth : Nat) : (shift d s).truncate depth = shift d (s.truncate depth) := by
  rw [truncate, truncate, frames_shift, depth_shift, drop_shift]
  cases s.frames.drop (s.depth - max depth 1) <;> rfl

/-- A checkpoint holds counts and depths, none of which is shifted. -/
theorem checkpoint_shift : (shift d s).checkpoint = s.checkpoint := by
  simp [checkpoint]

/-- Going back to a checkpoint cuts off the same entries, rules and abbreviations. -/
theorem rollback_shift (c : Checkpoint) : (shift d s).rollback c = shift d (s.rollback c) := by
  rw [rollback, rollback, truncate_shift, current_shift, Frame.deduction_shift,
    Deduction.truncate_shift, Frame.rules_shift, take_shift]
  rfl

/-- A change of the current deduction that commutes with shifting does so in the state. -/
theorem mapDeduction_shift {f g : Deduction → Deduction} (h : ∀ x, g (shift d x) = shift d (f x)) :
    (shift d s).mapDeduction g = shift d (s.mapDeduction f) := by
  rw [mapDeduction, mapDeduction, current_shift, Frame.deduction_shift, h]
  rfl

/-- A rule that is registered shifted is registered with the rules shifted. -/
theorem addRule_shift (r : Rule) : (shift d s).addRule (shift d r) = shift d (s.addRule r) := by
  have h : shift d s.current.rules ++ [shift d r] = shift d (s.current.rules ++ [r]) :=
    (shift_append s.current.rules [r]).symm
  rw [addRule, addRule, current_shift, Frame.rules_shift, h]
  rfl

end ProofState

end NaturalDeduction
