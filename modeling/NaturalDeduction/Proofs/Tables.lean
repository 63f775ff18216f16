import Mathlib.Data.Finmap
import NaturalDeduction.Proofs.ClosedTheorems

/-!
# Deductions in tables

To look a name up in a list of entries takes as long as the list. The other way to keep a deduction
is by tables: one from names to statements, one from names to justifications, and beside them the
list of the names, oldest first. Then three containers say which names there are, and every change
has to change all of them.

`Tables` is a deduction kept that way, with its own insertion and its own truncation. Whatever
sequence of changes it goes through, refused insertions among them, it holds what a `Deduction`
holds that goes through the same changes (`Tables.Represents`), and every change is answered alike.
The invariants of deductions are thereby those of tables: no name is listed twice, and the names
that are listed are the keys of the one table and of the other. So going through the list misses no
statement, and wherever a name is looked up in a stack of deductions, the statement and the
justification come from the same one.

The frames of every state that is reached are built by such changes (`Deduction.built_invariant`),
so they can be kept in tables.

Main statement: `Host.VisitedFor.tables_coherent`.
-/

namespace NaturalDeduction

/-- A deduction whose entries are kept in tables. -/
structure Tables where
  name : String
  /-- The variables that the theorem will quantify over, outermost first. -/
  parameters : List Variable
  /-- The names, oldest first. -/
  order : List String
  statements : Finmap fun _ : String ↦ Expression
  justifications : Finmap fun _ : String ↦ Justification

/-- One change of a deduction. -/
inductive Deduction.Change where
  | insert (e : Entry)
  | addParameter (v : Variable)
  | truncate (numEntries numParameters : Nat)

namespace Tables

/-! ### Changing tables -/

/-- Tables in which nothing has happened. -/
def empty (name : String) : Tables := ⟨name, [], [], ∅, ∅⟩

/-- Adds an entry, and says whether it is new. Nothing happens if its name stands for an equal
statement already; if it stands for another one, that statement is the error. -/
def insert (t : Tables) (e : Entry) : Except Expression (Tables × Bool) :=
  match t.statements.lookup e.name with
  | some existing => if existing.alphaEq e.statement then .ok (t, false) else .error existing
  | none =>
    .ok ({ t with
      order := t.order ++ [e.name]
      statements := t.statements.insert e.name e.statement
      justifications := t.justifications.insert e.name e.justification }, true)

/-- Adds a parameter, unless it is one already. -/
def addParameter (t : Tables) (v : Variable) : Tables :=
  if t.parameters.any (·.id == v.id) then t else { t with parameters := t.parameters ++ [v] }

/-- Forgets what a name stands for. -/
def forget (t : Tables) (name : String) : Tables :=
  { t with statements := t.statements.erase name, justifications := t.justifications.erase name }

/-- Forgets all but the first `numEntries` names and the first `numParameters` parameters. -/
def truncate (t : Tables) (numEntries numParameters : Nat) : Tables :=
  { (t.order.drop numEntries).foldl forget t with
    order := t.order.take numEntries
    parameters := t.parameters.take numParameters }

/-- The names with their statements, oldest first; nothing at all if one of them has none. -/
def items? (t : Tables) : Option (List (String × Expression)) :=
  t.order.mapM fun name ↦ (t.statements.lookup name).map fun e ↦ (name, e)

/-- One change of tables; a refused insertion changes nothing. -/
def change (t : Tables) : Deduction.Change → Tables
  | .insert e => match t.insert e with
    | .ok (t, _) => t
    | .error _ => t
  | .addParameter v => t.addParameter v
  | .truncate numEntries numParameters => t.truncate numEntries numParameters

/-- The tables that a sequence of changes leads to, the first change first. -/
def ofChanges (name : String) (changes : List Deduction.Change) : Tables :=
  changes.foldl change (empty name)

/-- Whether a sequence of changes leads to some tables. -/
def Built (t : Tables) : Prop := ∃ name changes, t = ofChanges name changes

/-! ### Looking names up in a stack -/

/-- The statement with a name in the innermost tables that have one. -/
def statement? (stack : List Tables) (name : String) : Option Expression :=
  stack.findSome? (·.statements.lookup name)

/-- The justification with a name in the innermost tables that have one. -/
def justification? (stack : List Tables) (name : String) : Option Justification :=
  stack.findSome? (·.justifications.lookup name)

end Tables

/-! ### Changing deductions -/

namespace Deduction

/-- One change of a deduction; a refused insertion changes nothing. -/
def change (d : Deduction) : Change → Deduction
  | .insert e => match d.insert e with
    | .ok d => d
    | .error _ => d
  | .addParameter v => d.addParameter v
  | .truncate numEntries numParameters => d.truncate numEntries numParameters

/-- The deduction that a sequence of changes leads to, the first change first. -/
def ofChanges (name : String) (changes : List Change) : Deduction :=
  changes.foldl change (empty name)

/-- Whether a sequence of changes leads to a deduction. -/
def Built (d : Deduction) : Prop := ∃ name changes, d = ofChanges name changes

/-- An insertion under a free name adds the entry in front. -/
theorem change_insert {d : Deduction} {e : Entry} (h : d.get? e.name = none) :
    d.change (.insert e) = { d with entries := e :: d.entries } := by
  simp only [change, insert, h]

/-- What holds of every deduction is kept by every change. -/
theorem Invariant.change {p : Deduction → Prop} (hp : Invariant p) {d : Deduction} (hd : p d)
    (c : Change) : p (d.change c) := by
  cases c with
  | insert e =>
    cases hname : d.get? e.name with
    | none => exact change_insert hname ▸ hp.add hd hname
    | some existing =>
      have hsame : d.change (.insert e) = d := by
        simp only [Deduction.change, Deduction.insert, hname]
        cases existing.alphaEq e.statement <;> rfl
      rwa [hsame]
  | addParameter v => exact hp.addParameter v hd
  | truncate numEntries numParameters => exact hp.truncate numEntries numParameters hd

/-- The last change is made last. -/
theorem ofChanges_append_singleton (name : String) (changes : List Change) (c : Change) :
    ofChanges name (changes ++ [c]) = (ofChanges name changes).change c := by
  rw [ofChanges, ofChanges, List.foldl_append, List.foldl_cons, List.foldl_nil]

/-- What every change keeps holds after all of them. -/
theorem Invariant.ofChanges {p : Deduction → Prop} (hp : Invariant p) (name : String)
    (changes : List Change) : p (ofChanges name changes) := by
  induction changes using List.reverseRecOn with
  | nil => exact hp.empty name
  | append_singleton changes c ih =>
    exact ofChanges_append_singleton name changes c ▸ hp.change ih c

/-- One change more. -/
theorem Built.change {d : Deduction} (h : d.Built) (c : Change) : (d.change c).Built := by
  obtain ⟨name, changes, rfl⟩ := h
  exact ⟨name, changes ++ [c], (ofChanges_append_singleton name changes c).symm⟩

/-- Whatever adds to a deduction or forgets is a change. -/
theorem built_invariant : Invariant Built where
  empty name := ⟨name, [], rfl⟩
  add {_ e} h hname := change_insert hname ▸ h.change (.insert e)
  addParameter v h := h.change (.addParameter v)
  truncate numEntries numParameters h := h.change (.truncate numEntries numParameters)

/-! ### Names -/

/-- A name is found if it is listed. -/
theorem isSome_find?_iff {d : Deduction} {n : String} :
    (d.find? n).isSome = true ↔ n ∈ d.names := by
  rw [names, List.mem_reverse, List.mem_map, find?, List.find?_isSome]
  simp only [beq_iff_eq]

/-- An entry is found by its name, since no name is listed twice. -/
theorem find?_of_mem {d : Deduction} (h : d.names.Nodup) {e : Entry} (he : e ∈ d.entries) :
    d.find? e.name = some e := by
  have hmem : e.name ∈ d.names := List.mem_reverse.2 (List.mem_map_of_mem he)
  obtain ⟨a, ha⟩ := Option.isSome_iff_exists.1 (isSome_find?_iff.2 hmem)
  rw [ha]
  rw [find?] at ha
  have hname : a.name = e.name := by simpa using List.find?_some ha
  rw [List.inj_on_of_nodup_map (List.nodup_reverse.1 h) (List.mem_of_find?_eq_some ha) he hname]

/-- Insertions under a name that is taken are refused. -/
theorem names_nodup_invariant : Invariant fun d ↦ d.names.Nodup := by
  simpa only [names, List.nodup_reverse] using names_invariant

/-- Truncation keeps the oldest names. -/
theorem names_truncate (d : Deduction) (numEntries numParameters : Nat) :
    (d.truncate numEntries numParameters).names = d.names.take numEntries := by
  rw [names, names, truncate, List.take_reverse, List.length_map, List.map_drop]

/-- Forgetting takes away the names that were added last, and keeps what the others stand for. -/
theorem find?_truncate {d : Deduction} (h : d.names.Nodup) (numEntries numParameters : Nat)
    (n : String) : (d.truncate numEntries numParameters).find? n =
      if n ∈ d.names.drop numEntries then none else d.find? n := by
  split
  · rename_i hdropped
    have hkept : n ∉ (d.truncate numEntries numParameters).names := by
      rw [names_truncate]
      rw [← List.take_append_drop numEntries d.names] at h
      exact fun hmem ↦ List.disjoint_of_nodup_append h hmem hdropped
    rwa [← isSome_find?_iff, Option.not_isSome_iff_eq_none] at hkept
  · rename_i hkept
    rw [names, List.drop_reverse, List.mem_reverse, List.length_map, ← List.map_take] at hkept
    have hnone : (d.entries.take (d.entries.length - numEntries)).find? (·.name == n) = none :=
      List.find?_eq_none.2 fun e he hn ↦ hkept (List.mem_map.2 ⟨e, he, beq_iff_eq.1 hn⟩)
    conv_rhs =>
      rw [find?, ← List.take_append_drop (d.entries.length - numEntries) d.entries,
        List.find?_append, hnone, Option.none_or]
    rfl

end Deduction

namespace Tables

/-! ### What tables stand for -/

/-- Whether tables hold what a deduction holds. -/
structure Represents (t : Tables) (d : Deduction) : Prop where
  name : t.name = d.name
  parameters : t.parameters = d.parameters
  order : t.order = d.names
  statement (n : String) : t.statements.lookup n = d.get? n
  justification (n : String) : t.justifications.lookup n = (d.find? n).map (·.justification)

variable {t : Tables} {d : Deduction}

/-- A new deduction has empty tables. -/
theorem represents_empty (name : String) : (empty name).Represents (.empty name) :=
  ⟨rfl, rfl, rfl, fun n ↦ Finmap.lookup_empty n, fun n ↦ Finmap.lookup_empty n⟩

/-- Adding an entry is answered alike, by an error or by what holds the entry; and the answer says
that the entry is new exactly if the deduction did not have its name. -/
theorem Represents.insert (h : t.Represents d) (e : Entry) :
    (∃ existing, t.insert e = .error existing ∧ d.insert e = .error existing) ∨
      ∃ t' d', t.insert e = .ok (t', (d.get? e.name).isNone) ∧ d.insert e = .ok d' ∧
        t'.Represents d' := by
  unfold Tables.insert Deduction.insert
  rw [h.statement]
  cases hname : d.get? e.name with
  | some existing =>
    dsimp only
    cases existing.alphaEq e.statement with
    | true => exact .inr ⟨t, d, rfl, rfl, h⟩
    | false => exact .inl ⟨existing, rfl, rfl⟩
  | none =>
    refine .inr ⟨_, _, rfl, rfl, h.name, h.parameters, ?_, fun n ↦ ?_, fun n ↦ ?_⟩
    · simp only [Deduction.names, List.map_cons, List.reverse_cons, h.order]
    all_goals
      by_cases hn : n = e.name
      · subst hn
        rw [Finmap.lookup_insert]
        simp [Deduction.get?, Deduction.find?]
      · rw [Finmap.lookup_insert_of_ne _ hn]
        simp [Deduction.get?, Deduction.find?, Ne.symm hn, h.statement, h.justification]

/-- Parameters are kept in one list in both. -/
theorem Represents.addParameter (h : t.Represents d) (v : Variable) :
    (t.addParameter v).Represents (d.addParameter v) := by
  unfold Tables.addParameter Deduction.addParameter
  rw [h.parameters]
  split
  · exact h
  · exact ⟨h.name, rfl, h.order, h.statement, h.justification⟩

/-- Names that are forgotten are gone from both tables, and no others are. -/
theorem forget_foldl (t : Tables) (names : List String) :
    (names.foldl forget t).name = t.name ∧
    (∀ n, (names.foldl forget t).statements.lookup n =
      if n ∈ names then none else t.statements.lookup n) ∧
    ∀ n, (names.foldl forget t).justifications.lookup n =
      if n ∈ names then none else t.justifications.lookup n := by
  induction names generalizing t with
  | nil => simp
  | cons m rest ih =>
    obtain ⟨hname, hstatements, hjustifications⟩ := ih (t.forget m)
    refine ⟨hname, fun n ↦ (hstatements n).trans ?_, fun n ↦ (hjustifications n).trans ?_⟩
    all_goals
      by_cases hn : n = m
      · subst hn
        simp [forget, Finmap.lookup_erase]
      · simp [forget, Finmap.lookup_erase_ne hn, hn]

/-- Truncation forgets in the tables what it drops from the list. -/
theorem Represents.truncate (h : t.Represents d) (hnames : d.names.Nodup)
    (numEntries numParameters : Nat) :
    (t.truncate numEntries numParameters).Represents (d.truncate numEntries numParameters) := by
  obtain ⟨hname, hstatements, hjustifications⟩ := forget_foldl t (t.order.drop numEntries)
  refine ⟨hname.trans h.name, congrArg _ h.parameters, ?_, fun n ↦ ?_, fun n ↦ ?_⟩
  · rw [Deduction.names_truncate, ← h.order]
    rfl
  · refine (hstatements n).trans ?_
    rw [Deduction.get?, Deduction.find?_truncate hnames, h.order, h.statement]
    split <;> rfl
  · refine (hjustifications n).trans ?_
    rw [Deduction.find?_truncate hnames, h.order, h.justification]
    split <;> rfl

/-- Every change is made alike. -/
theorem Represents.change (h : t.Represents d) (hnames : d.names.Nodup) (c : Deduction.Change) :
    (t.change c).Represents (d.change c) := by
  cases c with
  | insert e =>
    unfold Tables.change Deduction.change
    obtain ⟨existing, ht, hd⟩ | ⟨t', d', ht, hd, h'⟩ := h.insert e
    · simpa only [ht, hd] using h
    · simpa only [ht, hd] using h'
  | addParameter v => exact h.addParameter v
  | truncate numEntries numParameters => exact h.truncate hnames numEntries numParameters

/-- The same changes lead to tables and to the deduction that they stand for. -/
theorem represents_ofChanges (name : String) (changes : List Deduction.Change) :
    (ofChanges name changes).Represents (.ofChanges name changes) := by
  induction changes using List.reverseRecOn with
  | nil => exact represents_empty name
  | append_singleton changes c ih =>
    have hnames := Deduction.names_nodup_invariant.ofChanges name changes
    rw [Deduction.ofChanges_append_singleton, ofChanges, List.foldl_append]
    exact ih.change hnames c

/-! ### The containers are in step -/

/-- Whether the three containers list the same names, none of them twice, and no parameter is listed
twice. -/
structure Coherent (t : Tables) : Prop where
  nodup : t.order.Nodup
  mem_statements (n : String) : n ∈ t.statements ↔ n ∈ t.order
  mem_justifications (n : String) : n ∈ t.justifications ↔ n ∈ t.order
  parameters : (t.parameters.map (·.id)).Nodup

/-- Tables that represent a deduction are coherent. -/
theorem Represents.coherent (h : t.Represents d) (hnames : d.names.Nodup)
    (hparameters : (d.parameters.map (·.id)).Nodup) : t.Coherent where
  nodup := h.order ▸ hnames
  mem_statements n := by
    rw [← Finmap.lookup_isSome, h.statement, Deduction.get?, Option.isSome_map,
      Deduction.isSome_find?_iff, h.order]
  mem_justifications n := by
    rw [← Finmap.lookup_isSome, h.justification, Option.isSome_map, Deduction.isSome_find?_iff,
      h.order]
  parameters := h.parameters ▸ hparameters

/-- Going through the list of names misses no statement. -/
theorem Represents.items? (h : t.Represents d) (hnames : d.names.Nodup) :
    t.items? = some (d.entries.reverse.map fun e ↦ (e.name, e.statement)) := by
  have hitems : ∀ es : List Entry, (∀ e ∈ es, e ∈ d.entries) →
      (es.map (·.name)).mapM (fun n ↦ (t.statements.lookup n).map fun e ↦ (n, e)) =
        some (es.map fun e ↦ (e.name, e.statement)) := by
    intro es hes
    induction es with
    | nil => rfl
    | cons e rest ih =>
      obtain ⟨he, hrest⟩ := List.forall_mem_cons.1 hes
      rw [List.map_cons, List.mapM_cons, h.statement, Deduction.get?,
        Deduction.find?_of_mem hnames he, ih hrest]
      rfl
  rw [Tables.items?, h.order, Deduction.names, ← List.map_reverse]
  exact hitems _ fun e he ↦ List.mem_reverse.1 he

/-- In particular, all that are built are. -/
theorem coherent_ofChanges (name : String) (changes : List Deduction.Change) :
    (ofChanges name changes).Coherent :=
  (represents_ofChanges name changes).coherent
    (Deduction.names_nodup_invariant.ofChanges name changes)
    (Deduction.parameters_invariant.ofChanges name changes)

/-! ### One answer -/

/-- Whether a name is found nowhere in a stack, or its statement and its justification are found in
one and the same tables. -/
def AnsweredOnce (stack : List Tables) (n : String) : Prop :=
  statement? stack n = none ∧ justification? stack n = none ∨
    ∃ inner t outer e j, stack = inner ++ t :: outer ∧
      (∀ u ∈ inner, n ∉ u.statements ∧ n ∉ u.justifications) ∧
      t.statements.lookup n = some e ∧ t.justifications.lookup n = some j ∧
      statement? stack n = some e ∧ justification? stack n = some j

/-- In a stack of coherent tables, the statement of a name and its justification come from one of
them. -/
theorem answeredOnce {stack : List Tables} (h : ∀ t ∈ stack, t.Coherent) (n : String) :
    AnsweredOnce stack n := by
  induction stack with
  | nil => exact .inl ⟨rfl, rfl⟩
  | cons t rest ih =>
    obtain ⟨ht, hrest⟩ := List.forall_mem_cons.1 h
    by_cases hn : n ∈ t.order
    · obtain ⟨e, he⟩ := Finmap.mem_iff.1 ((ht.mem_statements n).2 hn)
      obtain ⟨j, hj⟩ := Finmap.mem_iff.1 ((ht.mem_justifications n).2 hn)
      exact .inr ⟨[], t, rest, e, j, rfl, by simp, he, hj, by simp [statement?, he],
        by simp [justification?, hj]⟩
    · have hstatement : n ∉ t.statements := fun hmem ↦ hn ((ht.mem_statements n).1 hmem)
      have hjustification : n ∉ t.justifications := fun hmem ↦ hn ((ht.mem_justifications n).1 hmem)
      have hskip : statement? (t :: rest) n = statement? rest n ∧
          justification? (t :: rest) n = justification? rest n := by
        simp [statement?, justification?, Finmap.lookup_eq_none.2 hstatement,
          Finmap.lookup_eq_none.2 hjustification]
      obtain ⟨hs, hj⟩ | ⟨inner, u, outer, e, j, rfl, hinner, he, hj, hes, hjs⟩ := ih hrest
      · exact .inl ⟨hskip.1.trans hs, hskip.2.trans hj⟩
      · exact .inr ⟨t :: inner, u, outer, e, j, rfl,
          List.forall_mem_cons.2 ⟨⟨hstatement, hjustification⟩, hinner⟩, he, hj, hskip.1.trans hes,
          hskip.2.trans hjs⟩

/-- Tables answer what the deductions answer that they stand for. -/
theorem lookups_eq {stack : List Tables} {frames : List Frame}
    (h : List.Forall₂ (fun t f ↦ t.Represents f.deduction) stack frames) (n : String) :
    statement? stack n = (frames.findSome? (·.deduction.find? n)).map (·.statement) ∧
      justification? stack n = (frames.findSome? (·.deduction.find? n)).map (·.justification) := by
  induction h with
  | nil => exact ⟨rfl, rfl⟩
  | @cons t f _ _ hf _ ih =>
    obtain ⟨hstatement, hjustification⟩ := ih
    rw [statement?] at hstatement ⊢
    rw [justification?] at hjustification ⊢
    rw [List.findSome?_cons, List.findSome?_cons, List.findSome?_cons, hf.statement,
      hf.justification, Deduction.get?]
    cases f.deduction.find? n with
    | some e => exact ⟨rfl, rfl⟩
    | none => exact ⟨hstatement, hjustification⟩

/-- Deductions that are built can be kept in tables. -/
theorem exists_stack {frames : List Frame} (h : ∀ f ∈ frames, f.deduction.Built) :
    ∃ stack : List Tables, (∀ t ∈ stack, t.Built) ∧
      List.Forall₂ (fun t f ↦ t.Represents f.deduction) stack frames := by
  induction frames with
  | nil => exact ⟨[], by simp, .nil⟩
  | cons f rest ih =>
    obtain ⟨⟨name, changes, hf⟩, hrest⟩ := List.forall_mem_cons.1 h
    obtain ⟨stack, hstack, hall⟩ := ih hrest
    refine ⟨ofChanges name changes :: stack,
      List.forall_mem_cons.2 ⟨⟨name, changes, rfl⟩, hstack⟩, .cons ?_ hall⟩
    exact hf ▸ represents_ofChanges name changes

end Tables

/-! ### The theorem -/

/-- **Tables are coherent.** Whatever changes tables go through, the names that they list are the
keys of the one table and of the other, none is listed twice, and no parameter is; going through the
list yields every entry, and the tables hold what the deduction holds that goes through the same
changes. So in a stack of such tables, whatever name is looked up, the statement and the
justification come from the same ones. And in every state that is reached, the deductions are kept
by such a stack, which answers what the state answers. -/
theorem Host.VisitedFor.tables_coherent {μ : Type} {P : Policy} [P.Permissive]
    {external : External μ} {h : Host μ} (hP : P.Registrable 0 Prelude.boundedQuantifier)
    (hexternal : external.LawfulFor P) (hvisited : h.VisitedFor P external) :
    (∀ name changes, (Tables.ofChanges name changes).Coherent ∧
      (Tables.ofChanges name changes).Represents (.ofChanges name changes) ∧
      (Tables.ofChanges name changes).items? =
        some ((Deduction.ofChanges name changes).entries.reverse.map
          fun e ↦ (e.name, e.statement))) ∧
    (∀ stack : List Tables, (∀ t ∈ stack, t.Built) → ∀ n, Tables.AnsweredOnce stack n) ∧
    ∃ stack : List Tables, (∀ t ∈ stack, t.Built) ∧
      List.Forall₂ (fun t f ↦ t.Represents f.deduction) stack h.bench.state.frames ∧
      ∀ n, Tables.statement? stack n = h.bench.state.get? n ∧
        Tables.justification? stack n = (h.bench.state.find? n).map (·.justification) := by
  refine ⟨fun name changes ↦ ?_, fun stack hstack n ↦ ?_, ?_⟩
  · have hrepresents := Tables.represents_ofChanges name changes
    have hnames := Deduction.names_nodup_invariant.ofChanges name changes
    exact ⟨Tables.coherent_ofChanges name changes, hrepresents, hrepresents.items? hnames⟩
  · refine Tables.answeredOnce (fun t ht ↦ ?_) n
    obtain ⟨name, changes, rfl⟩ := hstack t ht
    exact Tables.coherent_ofChanges name changes
  · obtain ⟨-, hbuilt⟩ := hvisited.tidyFor_invariant hP hexternal Deduction.built_invariant
    obtain ⟨stack, hstack, hrepresents⟩ := Tables.exists_stack hbuilt
    exact ⟨stack, hstack, hrepresents, Tables.lookups_eq hrepresents⟩

/-- A name that is used again further in. -/
theorem Host.VisitedFor.tables_coherent_shadowed :
    let h := [Call.operate (.suppose (some "h") (.symbol "p")), .operate (.push (some "A")),
      .operate (.suppose (some "h") (.symbol "q"))].foldl (Host.perform .none)
        (⟨.initial 0 16, ()⟩ : Host Unit)
    ∃ stack : List Tables,
      List.Forall₂ (fun t f ↦ t.Represents f.deduction) stack h.bench.state.frames ∧
      Tables.AnsweredOnce stack "h" ∧ Tables.statement? stack "h" = some (.symbol "q") := by
  intro h
  have hvisited : h.VisitedFor (.anywhere {Prelude.boundedQuantifier}) .none := by
    have h : Host.VisitedFor (.anywhere {Prelude.boundedQuantifier}) .none
        (⟨.initial 0 16, ()⟩ : Host Unit) := .bare 0 16 ()
    have h := h.perform (.operate (.suppose (some "h") (.symbol "p"))) trivial
    have h := h.perform (.operate (.push (some "A"))) trivial
    exact h.perform (.operate (.suppose (some "h") (.symbol "q"))) trivial
  obtain ⟨-, hanswered, stack, hbuilt, hrepresents, hlookups⟩ :=
    hvisited.tables_coherent (Set.mem_singleton _) (External.none_lawfulFor _)
  exact ⟨stack, hrepresents, hanswered stack hbuilt "h", (hlookups "h").1.trans rfl⟩

end NaturalDeduction
