import NaturalDeduction.Proofs.Reading
import NaturalDeduction.Proofs.Shifting.Search
import NaturalDeduction.Script.Interpreter

/-!
# Scripts on shifted states

Readings draw variables for the names that they meet, and the names of a script are given to the
variables that were drawn for them, so a script that is run on a shifted state reads shifted
expressions. What it does with them is in step with what it does on the state itself, command by
command (`Running.command_tracks`); this holds of commands that stop as well.

The one thing that does not agree is what a script shows, as statements are printed with the numbers
of their variables. Nothing that is shown is read again.

Two runs are compared by `Run.Follows`: the sessions are shifted, the names stand for shifted
variables, and what was reported agrees but for what was shown (`Output.Agrees`). The induction over
commands is the one that all properties of scripts are proved by. A command contains commands, so it
goes over the s-expression, and blocks take what is known about their commands as a hypothesis.
-/

namespace NaturalDeduction

variable {d : Nat} {μ α : Type} [Shift α]

instance : Shift Position := .constant Position
instance : Shift.Constant Position := ⟨fun _ _ ↦ rfl⟩
instance : Shift SyntaxError := .constant SyntaxError
instance : Shift.Constant SyntaxError := ⟨fun _ _ ↦ rfl⟩

/-! ### Readings -/

instance : Follow ReadState :=
  ⟨fun d s t ↦ t = { holes := shift d s.holes, next := s.next + d }⟩

/-- A list of named values is looked through by name. -/
theorem find?_shift_named {β : Type} [Shift β] (named : List (String × β)) (name : String) :
    (shift d named).find? (·.1 == name) = shift d (named.find? (·.1 == name)) :=
  find?_shift (fun _ ↦ rfl) named

/-- The innermost variable of a name is the same one, shifted. -/
theorem Scope.lookup?_shift (scope : Scope) (name : String) :
    Scope.lookup? (shift d scope) name = shift d (scope.lookup? name) := by
  have hfind := find?_shift_named (d := d) scope name
  rw [lookup?, lookup?, hfind]
  cases scope.find? (·.1 == name) <;> rfl

/-- A word that is no variable mentions none. -/
theorem Atom.shift_ofWord (word : String) : shift d (Atom.ofWord word) = Atom.ofWord word := by
  unfold ofWord
  dsimp only
  split <;> rfl

namespace Reading

/-- A variable is drawn at the counter of the reading. -/
theorem fresh_tracks (hint : String) : Tracks d (fresh hint) (fresh hint) := by
  refine .modifyGet ?_
  rintro s _ rfl
  exact ⟨rfl, congrArg (ReadState.mk (shift d s.holes)) (Nat.add_right_comm s.next d 1)⟩

/-- A hole that was met before is found again, and a new one is drawn. -/
theorem hole_tracks (name : String) : Tracks d (hole name) (hole name) := by
  refine .get_bind ?_
  rintro s _ rfl
  dsimp only
  rw [find?_shift_named]
  cases s.holes.find? (·.1 == name) with
  | some p => exact .pure rfl
  | none =>
    refine (fresh_tracks name).bind fun v ↦ Tracks.bind (.modify ?_) fun _ ↦ .pure rfl
    rintro s _ rfl
    rfl

/-- A word is a hole, a variable in scope, or an atom without variables. -/
theorem word_tracks (scope : Scope) (text : String) (position : Position) :
    Tracks d (word scope text position) (word (shift d scope) text position) := by
  rw [word, word, Scope.lookup?_shift]
  cases scope.lookup? text with
  | some v => exact .pure rfl
  | none =>
    dsimp only [shift_none]
    split
    · exact .throw rfl
    · exact (hole_tracks _).bind fun v ↦ .pure rfl
    · exact .pure (congrArg Expression.atom (Atom.shift_ofWord text).symm)

/-- Names are bound one after the other, each to a variable that is drawn for it. -/
theorem bindNames_tracks (scope : Scope) (names : List SExpr) :
    Tracks d (bindNames scope names) (bindNames (shift d scope) names) := by
  induction names generalizing scope with
  | nil => exact .pure rfl
  | cons e rest ih =>
    cases e with
    | word name position =>
      exact (fresh_tracks name).bind fun v ↦ (ih ((name, v) :: scope)).bind fun _ ↦ .pure rfl
    | quotation | list => exact .throw rfl

end Reading

/-- An arrow with several parts is the rule of its parts, shifted. -/
theorem Expression.rules_of_parts_shift (parts : List Expression) :
    rules (shift d parts).dropLast ((shift d parts).getLastD default) =
      shift d (rules parts.dropLast (parts.getLastD default)) := by
  rcases List.eq_nil_or_concat parts with rfl | ⟨init, last, rfl⟩
  · rfl
  · rw [List.concat_eq_append, shift_append, shift_cons, shift_nil, List.dropLast_concat,
      List.getLastD_concat, List.dropLast_concat, List.getLastD_concat, shift_rules]

namespace SExpr

open Reading

/-- Expressions are read one after the other. -/
theorem readAll_tracks {scope : Scope} {es : List SExpr}
    (h : ∀ e ∈ es, Tracks d (e.read scope) (e.read (shift d scope))) :
    Tracks d (readAll scope es) (readAll (shift d scope) es) := by
  induction es with
  | nil =>
    rw [readAll, readAll]
    exact .pure rfl
  | cons e rest ih =>
    obtain ⟨he, hrest⟩ := List.forall_mem_cons.1 h
    rw [readAll, readAll]
    exact he.bind fun a ↦ (ih hrest).bind fun as ↦ .pure rfl

/-- **A reading in a shifted scope reads shifted expressions.** -/
theorem read_tracks (scope : Scope) (e : SExpr) :
    Tracks d (e.read scope) (e.read (shift d scope)) := by
  induction e using formInduction generalizing scope with
  | word text position =>
    rw [read, read]
    exact word_tracks scope text position
  | quotation contents position =>
    rw [read, read]
    exact .pure rfl
  | unit position =>
    rw [read_unit, read_unit]
    exact .pure rfl
  | binder position head vars body kind hkind ih =>
    rw [read_binder hkind, read_binder hkind]
    split
    · exact .throw_bind rfl
    · refine (bindNames_tracks scope (binderNames vars)).bind fun p ↦ ?_
      refine (ih p.1).bind fun e ↦ .pure ?_
      exact (Expression.shift_binders _ p.2 e).symm
  | misshapen position head args kind hkind hargs =>
    rw [read_misshapen hkind hargs, read_misshapen hkind hargs]
    exact .throw rfl
  | arrow position head args hhead ih =>
    rw [read_arrow hhead, read_arrow hhead]
    split
    · exact .throw_bind rfl
    · refine (readAll_tracks fun e he ↦ ih e he scope).bind fun parts ↦ .pure ?_
      exact Expression.rules_of_parts_shift parts
  | equation position head args hhead ih =>
    rw [read_equation hhead, read_equation hhead]
    split
    · rename_i left right
      refine (ih left (by simp) scope).bind fun a ↦ ?_
      exact (ih right (by simp) scope).bind fun b ↦ .pure rfl
    · exact .throw rfl
  | application position head args hhead ih =>
    rw [read_application hhead, read_application hhead]
    refine (readAll_tracks fun e he ↦ ih e he scope).bind fun items ↦ .pure ?_
    exact (Expression.shift_application items).symm

end SExpr

namespace Script

/-! ### Runs -/

instance : Shift Stop where
  shift d
    | .refused refusal position => .refused (shift d refusal) position
    | .failed goal reason position => .failed (shift d goal) reason position
    | .unexpected expected actual position =>
      .unexpected (shift d expected) (shift d actual) position
    | stop => stop

/-- A setback stops a command at the same place. -/
theorem Stop.shift_ofSetback (position : Position) (e : Setback) :
    shift d (ofSetback position e) = ofSetback position (shift d e) := by
  cases e <;> rfl

@[simp] theorem Stop.line?_shift (stop : Stop) : (shift d stop).line? = stop.line? := by
  cases stop <;> rfl

/-- Two outputs that differ at most in what was shown. -/
structure Output.Agrees (o o' : Output) : Prop where
  proved : o'.proved = o.proved
  commands : o'.commands = o.commands
  aborted : o'.aborted = o.aborted

/-- A run, and the same run on a shifted session. -/
structure Run.Follows (d : Nat) (x y : Run μ) : Prop where
  session : NaturalDeduction.Follows d x.session y.session
  scope : y.scope = shift d x.scope
  output : x.output.Agrees y.output
  nesting : y.nesting = x.nesting

instance : Follow (Run μ) := ⟨Run.Follows⟩

namespace Running

/-! ### Steps -/

/-- An attempt of a command is in step if the attempt is. -/
theorem attempt_tracks (position : Position) {act act' : Attempt μ α} (h : Tracks d act act') :
    Tracks d (attempt position act) (attempt position act') := by
  intro x y hxy
  obtain ⟨hresult, hsession⟩ := h x.session y.session hxy.session
  refine ⟨?_, { hxy with session := hsession }⟩
  show (act'.run.run y.session).1.mapError (Stop.ofSetback position) =
    shift d ((act.run.run x.session).1.mapError (Stop.ofSetback position))
  rw [hresult]
  cases (act.run.run x.session).1 with
  | ok a => rfl
  | error e => exact congrArg Except.error (Stop.shift_ofSetback position e).symm

/-- A step of a command is in step if the step is. -/
theorem step_tracks (position : Position) {act act' : Building α} (h : Tracks d act act') :
    Tracks d (step position act : Running μ α) (step position act') :=
  attempt_tracks position (Attempt.step_tracks h)

/-- A change of the proof state in step is one of the run. -/
theorem modifyState_tracks {f g : ProofState → ProofState}
    (h : ∀ s, s.Uniform d → g (shift d s) = shift d (f s) ∧ (f s).Uniform d) :
    Tracks d (modifyState f : Running μ Unit) (modifyState g) := by
  refine .modify fun x y hxy ↦ { hxy with session := ?_ }
  obtain ⟨⟨hstate, hs⟩, hmemory⟩ := hxy.session
  obtain ⟨hf, hs'⟩ := h x.session.state hs
  exact ⟨⟨(congrArg g hstate).trans hf, hs'⟩, hmemory⟩

theorem outcome_tracks {act act' : Running μ α} (h : Tracks d act act') :
    Tracks d (outcome act) (outcome act') :=
  fun x y hxy ↦ ⟨congrArg Except.ok (h x y hxy).1, (h x y hxy).2⟩

/-- An outcome is passed on, shifted. -/
theorem ofOutcome_tracks (result : Except Stop α) :
    Tracks d (ofOutcome result : Running μ α) (ofOutcome (shift d result)) := by
  cases result with
  | ok a => exact .pure rfl
  | error e => exact .throw rfl

theorem count_tracks : Tracks d (count : Running μ Unit) count :=
  .modify fun _ _ hxy ↦
    { hxy with output := { hxy.output with commands := congrArg (· + 1) hxy.output.commands } }

/-- A name is given to the shifted variable. -/
theorem define_tracks (name : String) (v : Variable) :
    Tracks d (define name v : Running μ Unit) (define name (shift d v)) :=
  .modify fun _ _ hxy ↦ { hxy with scope := congrArg ((name, shift d v) :: ·) hxy.scope }

/-- A theorem is reported by its name, and only at the top level of the script. -/
theorem record_tracks (name : String) : Tracks d (record name : Running μ Unit) (record name) := by
  refine .modify fun x y hxy ↦ ?_
  by_cases h : x.nesting = 0
  · rw [if_pos h, if_pos (hxy.nesting.trans h)]
    exact { hxy with
      output := { hxy.output with proved := congrArg (· ++ [name]) hxy.output.proved } }
  · rwa [if_neg h, if_neg fun hy ↦ h (hxy.nesting.symm.trans hy)]

/-- What a command opened is discarded behind an error, in both alike. -/
theorem inside_tracks (depth : Nat) {act act' : Running μ α} (h : Tracks d act act') :
    Tracks d (inside depth act) (inside depth act') := by
  refine .get_bind fun x y hxy ↦ ?_
  refine Tracks.bind (.modify fun x y hxy ↦ { hxy with nesting := congrArg (· + 1) hxy.nesting })
    fun _ ↦ ?_
  refine (outcome_tracks h).bind fun result ↦ ?_
  refine Tracks.bind (.modify fun z w hzw ↦ ?_) fun _ ↦ ?_
  · exact { hzw with scope := hxy.scope, nesting := congrArg (· - 1) hzw.nesting }
  · cases result with
    | ok a => exact ofOutcome_tracks (.ok a)
    | error stop =>
      refine Tracks.bind (modifyState_tracks fun s hs ↦ ?_) fun _ ↦ ofOutcome_tracks (.error stop)
      exact ⟨s.truncate_shift _, hs.truncate _⟩

/-! ### Parts of commands -/

/-- A word that has to be there is missing in both or in neither. -/
theorem word_tracks (e : SExpr) (fault : Fault) :
    Tracks d (word e fault : Running μ String) (word e fault) := by
  unfold word
  split
  · exact .pure rfl
  · exact .throw rfl

/-- An expression is read with the scope and the counter of the run. -/
theorem expression_tracks (e : SExpr) :
    Tracks d (expression e : Running μ Expression) (expression e) := by
  intro x y hxy
  obtain ⟨⟨hstate, hs⟩, hmemory⟩ := hxy.session
  have hnext : y.session.state.nextVariable = x.session.state.nextVariable + d :=
    congrArg ProofState.nextVariable hstate
  have hread := SExpr.read_tracks x.scope e ⟨[], x.session.state.nextVariable⟩
    ⟨[], y.session.state.nextVariable⟩ (congrArg (ReadState.mk []) hnext)
  rw [← hxy.scope] at hread
  obtain ⟨hresult, hread⟩ := hread
  refine ⟨?_, { hxy with session := ⟨⟨?_, hs⟩, hmemory⟩ }⟩
  · show ((e.read y.scope).run.run ⟨[], y.session.state.nextVariable⟩).1.mapError Stop.unreadable =
      shift d (((e.read x.scope).run.run ⟨[], x.session.state.nextVariable⟩).1.mapError _)
    rw [hresult]
    cases ((e.read x.scope).run.run ⟨[], x.session.state.nextVariable⟩).1 <;> rfl
  · show ({ y.session.state with
        nextVariable := ((e.read y.scope).run.run ⟨[], y.session.state.nextVariable⟩).2.next } :
          ProofState) = _
    rw [hread, hstate]
    rfl

theorem expressions_tracks (es : List SExpr) :
    Tracks d (expressions es : Running μ (List Expression)) (expressions es) :=
  .mapM expression_tracks es

theorem reference_tracks (e : SExpr) :
    Tracks d (reference e : Running μ Reference) (reference e) :=
  (word_tracks e .notAReference).bind fun _ ↦ .pure rfl

/-- Indices are read off the text, which is the same. -/
theorem occurrences_tracks (es : List SExpr) :
    Tracks d (occurrences es : Running μ Occurrences) (occurrences es) := by
  refine Tracks.bind_constant (.mapM (fun e ↦ ?_) es) fun _ ↦ .pure rfl
  refine (word_tracks e .notAnIndex).bind_constant fun text ↦ ?_
  split
  · exact .pure rfl
  · exact .throw rfl

/-- Keys and values are read one after the other. -/
theorem replacements_tracks (es : List SExpr) :
    Tracks d (replacements es : Running μ (List Replacement)) (replacements es) := by
  refine .mapM (fun e ↦ ?_) es
  split
  · exact (expression_tracks _).bind fun key ↦ (expression_tracks _).bind fun value ↦ .pure rfl
  · exact .throw rfl

/-! ### Commands without inner commands -/

/-- A command without inner commands is in step. There is one case for each verb. -/
theorem simple_tracks {p : Prover μ} (hp : p.Uniform d) (e : SExpr) (head : String)
    (verb : Option Verb) (args : List SExpr) :
    Tracks d (simple p e head verb args) (simple p e head verb args) := by
  unfold simple
  dsimp only
  split
  · refine (word_tracks _ .notAName).bind_constant fun name ↦ ?_
    refine (expression_tracks _).bind fun statement ↦ ?_
    exact (step_tracks _ (Building.suppose_tracks (some name) statement)).discard
  · refine (expression_tracks _).bind fun statement ↦ ?_
    exact (step_tracks _ (Building.suppose_tracks none statement)).discard
  · refine (word_tracks _ .notAName).bind_constant fun name ↦ ?_
    refine (expression_tracks _).bind fun statement ↦ ?_
    exact (step_tracks _ (Building.suppose_tracks (some name) statement)).discard
  · refine .forM (fun name ↦ ?_) _
    refine (word_tracks name .notAVariableName).bind_constant fun name ↦ ?_
    exact (step_tracks _ (Building.newParameter_tracks name)).bind fun v ↦ define_tracks name v
  · refine (reference_tracks _).bind_constant fun target ↦ ?_
    refine (step_tracks _ (Building.resolve_tracks target)).bind_constant fun target ↦ ?_
    refine (expressions_tracks _).bind fun values ↦ ?_
    exact (step_tracks _ (Building.bindAll_tracks target values)).discard
  · refine (reference_tracks _).bind_constant fun rule ↦ ?_
    refine (reference_tracks _).bind_constant fun condition ↦ ?_
    exact (step_tracks _ (Building.apply_tracks rule condition)).discard
  · refine (expression_tracks _).bind fun target ↦ ?_
    split
    · exact .throw rfl
    · refine (replacements_tracks _).bind fun replacements ↦ ?_
      exact (step_tracks _ (Building.substitute_tracks target replacements .all)).discard
  · refine (expression_tracks _).bind fun target ↦ ?_
    split
    · exact .throw rfl
    · refine (replacements_tracks _).bind fun replacements ↦ ?_
      split
      · exact .throw rfl
      · refine (occurrences_tracks _).bind_constant fun chosen ↦ ?_
        exact (step_tracks _ (Building.substitute_tracks target replacements chosen)).discard
  · refine (expression_tracks _).bind fun statement ↦ ?_
    exact (step_tracks _ (Building.verify_tracks statement)).discard
  · exact .throw rfl
  · exact .throw rfl
  · refine (expression_tracks _).bind fun statement ↦ ?_
    exact (attempt_tracks _ (hp statement)).discard
  · refine (expressions_tracks _).bind fun values ↦ ?_
    refine (reference_tracks _).bind_constant fun target ↦ ?_
    exact (attempt_tracks _ (Prover.autobind_tracks hp target values)).discard
  · refine (reference_tracks _).bind_constant fun target ↦ ?_
    exact (attempt_tracks _ (Prover.autoapply_tracks hp target)).discard
  · refine (reference_tracks _).bind_constant fun target ↦ ?_
    refine (reference_tracks _).bind_constant fun equation ↦ ?_
    refine (occurrences_tracks _).bind_constant fun chosen ↦ ?_
    exact (step_tracks _ (Building.replaceEqual_tracks target equation chosen)).discard
  · refine (expression_tracks _).bind fun statement ↦ ?_
    refine (reference_tracks _).bind_constant fun source ↦ ?_
    exact (attempt_tracks _ (Prover.backwards_tracks hp source statement)).discard
  · refine (reference_tracks _).bind_constant fun source ↦ ?_
    exact step_tracks _ (Building.hint_tracks source)
  · refine (expression_tracks _).bind fun expected ↦ ?_
    refine (reference_tracks _).bind_constant fun target ↦ ?_
    refine (step_tracks _ (Building.proposition_tracks target)).bind fun actual ↦ ?_
    rw [Expression.alphaEq_shift]
    split
    · exact .throw rfl
    · exact .pure rfl
  · refine (reference_tracks _).bind_constant fun target ↦ ?_
    refine (step_tracks _ (Building.resolve_tracks target)).bind_constant fun name ↦ ?_
    refine (step_tracks _ (Building.lookup_tracks name)).bind fun statement ↦ .modify ?_
    -- what is shown is not compared
    exact fun x y hxy ↦ { hxy with output := { hxy.output with } }
  · exact .throw rfl
  · split <;> exact .throw rfl
  · exact .throw rfl

/-! ### Goals -/

/-- An introduction of a goal defines the same name, for the shifted parameter. -/
theorem introduce_tracks (g : Goal) (name : Option String) (position : Position) :
    Tracks d (introduce g name position : Running μ (Goal × Bool))
      (introduce (shift d g) name position) := by
  have hact : Tracks d
      (fun s ↦
        let ran := (Goal.introduce name).run.run (g, s)
        (ran.1.map (·, ran.2.1), ran.2.2) : Building (Introduction × Goal))
      (fun s ↦
        let ran := (Goal.introduce name).run.run (shift d g, s)
        (ran.1.map (·, ran.2.1), ran.2.2)) := by
    intro s t hst
    obtain ⟨hresult, hgoal, hstate⟩ :=
      Goal.introduce_tracks name (g, s) (shift d g, t) ⟨rfl, hst⟩
    refine ⟨?_, hstate⟩
    show ((Goal.introduce name).run.run (shift d g, t)).1.map
        (·, ((Goal.introduce name).run.run (shift d g, t)).2.1) =
      shift d (((Goal.introduce name).run.run (g, s)).1.map
        (·, ((Goal.introduce name).run.run (g, s)).2.1))
    rw [hresult, hgoal]
    cases ((Goal.introduce name).run.run (g, s)).1 <;> rfl
  refine (step_tracks position hact).bind fun ⟨introduction, g'⟩ ↦ ?_
  cases introduction with
  | parameter v => exact (define_tracks (name.getD v.hint) v).bind fun _ ↦ .pure rfl
  | hypothesis => exact .pure rfl
  | done => exact .pure rfl

/-- Introductions with given names are in step, one after the other. -/
theorem introduceNamed_tracks (g : Goal) (position : Position) (es : List SExpr) :
    Tracks d (introduceNamed g position es : Running μ Goal)
      (introduceNamed (shift d g) position es) := by
  induction es generalizing g with
  | nil => exact .pure rfl
  | cons e rest ih =>
    refine (word_tracks e .notAName).bind_constant fun name ↦ ?_
    refine (introduce_tracks g (some name) position).bind fun ⟨g', peeled⟩ ↦ ?_
    cases peeled with
    | true => exact ih g'
    | false => exact .throw rfl

/-- Introductions go on until the same one has nothing left to introduce. -/
theorem introduceRest_tracks (position : Position) (budget : Nat) (g : Goal) :
    Tracks d (introduceRest position budget g : Running μ Goal)
      (introduceRest position budget (shift d g)) := by
  induction budget generalizing g with
  | zero => exact .pure rfl
  | succ budget ih =>
    refine (introduce_tracks g none position).bind fun ⟨g', peeled⟩ ↦ ?_
    cases peeled with
    | true => exact ih g'
    | false => exact .pure rfl

/-! ### Commands -/

variable {p : Prover μ}

/-- A block is in step if each of its commands is. -/
theorem block_tracks {es : List SExpr} (h : ∀ e ∈ es, Tracks d (command p e) (command p e)) :
    Tracks d (block p es) (block p es) := by
  induction es with
  | nil =>
    rw [block]
    exact .pure rfl
  | cons e rest ih =>
    obtain ⟨he, hrest⟩ := List.forall_mem_cons.1 h
    rw [block]
    exact he.bind fun _ ↦ ih hrest

/-- A command in a goal is an introduction or a command like any other. -/
theorem goalCommand_tracks (g : Goal) {e : SExpr} (h : Tracks d (command p e) (command p e)) :
    Tracks d (goalCommand p g e) (goalCommand p (shift d g) e) := by
  rw [goalCommand.eq_def, goalCommand.eq_def]
  dsimp only
  split
  · refine count_tracks.bind fun _ ↦ ?_
    exact (introduce_tracks g none _).bind fun r ↦ .pure rfl
  · refine count_tracks.bind fun _ ↦ ?_
    refine (word_tracks _ .notAName).bind_constant fun name ↦ ?_
    exact (introduce_tracks g (some name) _).bind fun r ↦ .pure rfl
  · refine count_tracks.bind fun _ ↦ ?_
    refine (introduceNamed_tracks g _ _).bind fun g' ↦ ?_
    rw [Goal.remaining_shift, Expression.size_shift]
    exact introduceRest_tracks _ _ g'
  · exact h.bind fun _ ↦ .pure rfl

/-- The commands of a goal are in step, and what remains of the goal is the shifted remainder. -/
theorem goalBlock_tracks (g : Goal) {es : List SExpr}
    (h : ∀ e ∈ es, Tracks d (command p e) (command p e)) :
    Tracks d (goalBlock p g es) (goalBlock p (shift d g) es) := by
  induction es generalizing g with
  | nil =>
    rw [goalBlock, goalBlock]
    exact .pure rfl
  | cons e rest ih =>
    obtain ⟨he, hrest⟩ := List.forall_mem_cons.1 h
    rw [goalBlock, goalBlock]
    exact (goalCommand_tracks g he).bind fun g' ↦ ih g' hrest

/-- A deduction with a body is in step, also where the body ends with an error. -/
theorem deduction_tracks {body : List SExpr} (name : Option String) (position : Position)
    (h : ∀ e ∈ body, Tracks d (command p e) (command p e)) :
    Tracks d
      (do let depth ← step position (Building.push name)
          inside depth (block p body)
          record (← step position (Building.closeAt depth none)) : Running μ Unit)
      (do let depth ← step position (Building.push name)
          inside depth (block p body)
          record (← step position (Building.closeAt depth none))) := by
  refine (step_tracks position (Building.push_tracks name)).bind_constant fun depth ↦ ?_
  refine (inside_tracks depth (block_tracks h)).bind fun _ ↦ ?_
  exact (step_tracks position (Building.closeAt_tracks depth none)).bind_constant record_tracks

/-- **A command on a shifted state does what it does on the state**, whether it stops or not. -/
theorem command_tracks (hp : p.Uniform d) (e : SExpr) : Tracks d (command p e) (command p e) := by
  induction e with
  | word text position | quotation text position =>
    rw [command.eq_def]
    exact .throw rfl
  | list position items ih =>
    rw [command.eq_def]
    cases items with
    | nil => exact .throw rfl
    | cons first args =>
      obtain ⟨-, hargs⟩ := List.forall_mem_cons.1 ih
      cases first with
      | quotation | list => exact .throw rfl
      | word head place =>
        refine count_tracks.bind fun _ ↦ ?_
        split
        · rename_i name _ body _
          obtain ⟨-, hbody⟩ := List.forall_mem_cons.1 hargs
          exact deduction_tracks (some name) position hbody
        · exact deduction_tracks none position hargs
        · rename_i name statement body _
          obtain ⟨-, hargs⟩ := List.forall_mem_cons.1 hargs
          obtain ⟨-, hbody⟩ := List.forall_mem_cons.1 hargs
          refine (word_tracks name .notAName).bind_constant fun name ↦ ?_
          refine (expression_tracks statement).bind fun statement ↦ ?_
          refine (step_tracks position (Goal.start_tracks (some name) statement)).bind fun g ↦ ?_
          refine (inside_tracks g.depth (goalBlock_tracks g hbody)).bind fun g' ↦ ?_
          exact (step_tracks position (Goal.conclude_tracks g')).bind_constant record_tracks
        · refine .get_bind fun x y hxy ↦ ?_
          have hcheckpoint : y.session.state.checkpoint = x.session.state.checkpoint :=
            hxy.session.1.1 ▸ x.session.state.checkpoint_shift
          dsimp only
          rw [hcheckpoint]
          refine (outcome_tracks (block_tracks hargs)).bind fun result ↦ ?_
          cases result with
          | ok => exact .pure rfl
          | error stop =>
            cases stop with
            | aborted =>
              refine Tracks.bind (modifyState_tracks fun s hs ↦ ?_) fun _ ↦ .modify ?_
              · exact ⟨s.rollback_shift _, hs.rollback _⟩
              · exact fun z w hzw ↦ { hzw with scope := hxy.scope }
            | unreadable | malformed | refused | failed | unexpected => exact .throw rfl
        · exact simple_tracks hp _ head _ _

end Running

/-! ### Whole scripts -/

/-- Two results of a script: either both ran to the end, with outputs that agree, or both stopped,
and the second at the shifted stop. -/
def ResultsAgree (d : Nat) : Except Stop Output → Except Stop Output → Prop
  | .ok o, .ok o' => o.Agrees o'
  | .error stop, .error stop' => stop' = shift d stop
  | _, _ => False

/-- A command that stops ends the script, and one that does not is counted and followed by the rest.
-/
theorem runCommands_cons_run (p : Prover μ) (depth : Nat) (e : SExpr) (rest : List SExpr)
    (x : Run μ) : (runCommands p depth (e :: rest)).run.run x =
      match (Running.command p e).run.run x with
      | (.ok (), y) => (runCommands p depth rest).run.run y
      | (.error (.aborted abort), y) =>
        (.ok { y.output with aborted := some abort },
          { y with session.state := y.session.state.truncate depth })
      | (.error stop, y) =>
        (.error stop, { y with session.state := y.session.state.truncate depth }) := by
  have houtcome : (Running.outcome (Running.command p e)).run.run x =
      (.ok ((Running.command p e).run.run x).1, ((Running.command p e).run.run x).2) := rfl
  rw [runCommands, run_bind_eq, houtcome]
  rcases (Running.command p e).run.run x with ⟨stop | ⟨⟩, y⟩
  · cases stop <;> rfl
  · rfl

/-- The commands of a script are in step, and stop at the same one. -/
theorem runCommands_tracks {p : Prover μ} (hp : p.Uniform d) (depth : Nat) (es : List SExpr)
    {x y : Run μ} (hxy : Follows d x y) :
    ResultsAgree d ((runCommands p depth es).run.run x).1 ((runCommands p depth es).run.run y).1 ∧
      Follows d ((runCommands p depth es).run.run x).2 ((runCommands p depth es).run.run y).2 := by
  induction es generalizing x y with
  | nil => exact ⟨hxy.output, hxy⟩
  | cons e rest ih =>
    obtain ⟨hresult, hstate⟩ := Running.command_tracks hp e x y hxy
    rw [runCommands_cons_run, runCommands_cons_run]
    revert hresult hstate
    rcases (Running.command p e).run.run x with ⟨stop | ⟨⟩, x'⟩ <;>
      rcases (Running.command p e).run.run y with ⟨stop' | ⟨⟩, y'⟩ <;>
      intro hresult hstate <;> cases hresult
    · have htruncate : Tracks d (Running.modifyState (·.truncate depth) : Running μ Unit)
          (Running.modifyState (·.truncate depth)) :=
        Running.modifyState_tracks fun s hs ↦ ⟨s.truncate_shift depth, hs.truncate depth⟩
      have htruncated : Follows d { x' with session.state := x'.session.state.truncate depth }
          { y' with session.state := y'.session.state.truncate depth } :=
        (htruncate x' y' hstate).2
      cases stop with
      | aborted abort => exact ⟨{ hstate.output with aborted := rfl }, htruncated⟩
      | _ => exact ⟨rfl, htruncated⟩
    · exact ih hstate

/-- **A script on a shifted session does what it does on the session.** -/
theorem run_tracks {p : Prover μ} (hp : p.Uniform d) (text : String) {session session' : Session μ}
    (h : Follows d session session') :
    ResultsAgree d (run p text session).1 (run p text session').1 ∧
      Follows d (run p text session).2 (run p text session').2 := by
  unfold run
  split
  · exact ⟨rfl, h⟩
  · rename_i commands _
    have hdepth : session'.state.depth = session.state.depth :=
      h.1.1 ▸ session.state.depth_shift
    have hstart : Follows d (Run.start session) (Run.start session') :=
      ⟨h, rfl, ⟨rfl, rfl, rfl⟩, rfl⟩
    rw [hdepth]
    obtain ⟨hresult, hrun⟩ := runCommands_tracks hp session.state.depth commands hstart
    exact ⟨hresult, hrun.session⟩

end Script

end NaturalDeduction
