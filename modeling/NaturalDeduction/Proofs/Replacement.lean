import Mathlib.Data.List.Forall2
import NaturalDeduction.Expression.Substitution
import NaturalDeduction.Proofs.Nameless

/-!
# Replacing subterms of nameless forms

On nameless forms a replacement needs no renaming: nothing is named by a binder, so nothing can be
captured. `Nameless.replace` is the walk of `Expression.walk` on forms, and this file shows that the
walk on expressions does what the walk on forms does.

The walk on expressions is followed under a scope. What carries the simulation through a binder:

* Keys and values in force mention no variable of the scope, so their forms do not depend on it.
* A replacement that goes out of force under a binder could not have matched there anyway. Its key
  mentions the bound variable as a free one, and no form below the binder does.
* A binder that is renamed keeps its form (`renameSized_run`).

Every variable is numbered below the counter (`Expression.Below`), and that is what makes a drawn
variable fresh. The walk keeps this up: its result is below the counter it ends at.

Main statements: `walk_run` for the walk under a scope, and `substitution_isCaptureAvoiding` for a
whole replacement.

Main definitions:

* `Nameless.replace`: the walk on forms, which says how many matches there were.
* `Expression.Below`: all variables are numbered below the counter, bound ones included.
* `Replacement.Avoids`: a replacement mentions no variable of the scope, so it is in force under
  it.
* `Expression.Simulates`: the invariant of the two walks.
-/

namespace NaturalDeduction

/-! ### Runs -/

/-- Draws in turn. -/
theorem Fresh.run_bind {α β : Type} {f : Fresh α} {g : α → Fresh β} {a : α} {n m : Nat}
    (h : f.run n = (a, m)) : (f >>= g).run n = (g a).run m := by
  rw [StateT.run_bind, h]
  rfl

namespace Nameless

/-! ### The walk on forms -/

mutual

/-- Walks through a form from the outside in and from left to right, and says which index the next
match has. A node equal to a key is a match, of the first pair with that key; the selected ones are
replaced, and no match is entered.

The keys and values are forms of whole expressions: they have no index that points outside. So a
key never equals a node that mentions a variable bound above it, and a value means the same at every
depth. -/
def replace (chosen : Occurrences) (pairs : List (Nameless × Nameless)) (t : Nameless)
    (index : Nat) : Nameless × Nat :=
  match pairs.find? fun p ↦ p.1 = t with
  | some p => (if chosen.selects index then p.2 else t, index + 1)
  | none =>
    match t with
    | binder kind body =>
      let (body, index) := replace chosen pairs body index
      (binder kind body, index)
    | implies a b =>
      let (a, index) := replace chosen pairs a index
      let (b, index) := replace chosen pairs b index
      (implies a b, index)
    | equals a b =>
      let (a, index) := replace chosen pairs a index
      let (b, index) := replace chosen pairs b index
      (equals a b, index)
    | application items =>
      let (items, index) := replaceAll chosen pairs items index
      (application items, index)
    | t => (t, index)

/-- Walks through a list of forms, one after the other. -/
def replaceAll (chosen : Occurrences) (pairs : List (Nameless × Nameless)) (ts : List Nameless)
    (index : Nat) : List Nameless × Nat :=
  match ts with
  | [] => ([], index)
  | t :: rest =>
    let (t, index) := replace chosen pairs t index
    let (rest, index) := replaceAll chosen pairs rest index
    (t :: rest, index)

end

variable {chosen : Occurrences} {pairs : List (Nameless × Nameless)}

/-- What happens at one node. -/
theorem replace_node (chosen : Occurrences) (pairs : List (Nameless × Nameless)) (t : Nameless)
    (index : Nat) :
    replace chosen pairs t index =
      match pairs.find? fun p ↦ p.1 = t with
      | some p => (if chosen.selects index then p.2 else t, index + 1)
      | none =>
        match t with
        | binder kind body =>
          let (body, index) := replace chosen pairs body index
          (binder kind body, index)
        | implies a b =>
          let (a, index) := replace chosen pairs a index
          let (b, index) := replace chosen pairs b index
          (implies a b, index)
        | equals a b =>
          let (a, index) := replace chosen pairs a index
          let (b, index) := replace chosen pairs b index
          (equals a b, index)
        | application items =>
          let (items, index) := replaceAll chosen pairs items index
          (application items, index)
        | t => (t, index) := by
  rw [replace.eq_def]

/-- A part that is a key is counted, and exchanged if it is selected. -/
theorem replace_match {t : Nameless} {p : Nameless × Nameless}
    (h : pairs.find? (fun p ↦ p.1 = t) = some p) (index : Nat) :
    replace chosen pairs t index = (if chosen.selects index then p.2 else t, index + 1) := by
  rw [replace_node, h]

/-- A part that is no key is walked through. -/
theorem replace_binder {kind : BinderKind} {body b : Nameless} {i j : Nat}
    (h : pairs.find? (fun p ↦ p.1 = binder kind body) = none)
    (hb : replace chosen pairs body i = (b, j)) :
    replace chosen pairs (binder kind body) i = (binder kind b, j) := by
  rw [replace_node, h]
  simp only [hb]

theorem replace_implies {a b a' b' : Nameless} {i j k : Nat}
    (h : pairs.find? (fun p ↦ p.1 = implies a b) = none)
    (ha : replace chosen pairs a i = (a', j)) (hb : replace chosen pairs b j = (b', k)) :
    replace chosen pairs (implies a b) i = (implies a' b', k) := by
  rw [replace_node, h]
  simp only [ha, hb]

theorem replace_equals {a b a' b' : Nameless} {i j k : Nat}
    (h : pairs.find? (fun p ↦ p.1 = equals a b) = none)
    (ha : replace chosen pairs a i = (a', j)) (hb : replace chosen pairs b j = (b', k)) :
    replace chosen pairs (equals a b) i = (equals a' b', k) := by
  rw [replace_node, h]
  simp only [ha, hb]

/-- The items of an application are walked through from the left to the right. -/
theorem replace_application {items items' : List Nameless} {i j : Nat}
    (h : pairs.find? (fun p ↦ p.1 = application items) = none)
    (ht : replaceAll chosen pairs items i = (items', j)) :
    replace chosen pairs (application items) i = (application items', j) := by
  rw [replace_node, h]
  simp only [ht]

/-- The index at the end counts the matches, whichever of them are selected. -/
theorem replace_index_eq (chosen chosen' : Occurrences) (pairs : List (Nameless × Nameless))
    (t : Nameless) (i : Nat) :
    (replace chosen pairs t i).2 = (replace chosen' pairs t i).2 := by
  induction t generalizing i with
  | application items ih =>
    have hall :
        ∀ i, (replaceAll chosen pairs items i).2 = (replaceAll chosen' pairs items i).2 := by
      induction items with
      | nil => intro i; rfl
      | cons t rest ih' =>
        intro i
        simp only [replaceAll]
        rw [ih t List.mem_cons_self, ih' fun u hu ↦ ih u (List.mem_cons_of_mem t hu)]
    rw [replace_node, replace_node chosen']
    split
    · rfl
    · exact hall i
  | binder kind body ih =>
    rw [replace_node, replace_node chosen']
    split
    · rfl
    · exact ih i
  | implies a b iha ihb | equals a b iha ihb =>
    rw [replace_node, replace_node chosen']
    split
    · rfl
    · simp only [iha i, ihb]
  | _ =>
    rw [replace_node, replace_node chosen']
    split <;> rfl

/-- A pair whose key mentions a variable that is not free in a form makes no difference there. -/
theorem replace_filter {id : Nat} {t : Nameless} (h : t.occurs id = false) (i : Nat) :
    replace chosen (pairs.filter fun p ↦ !p.1.occurs id) t i = replace chosen pairs t i := by
  -- a key that mentions the variable matches nothing that does not mention it
  have hfind : ∀ u : Nameless, u.occurs id = false →
      (pairs.filter fun p ↦ !p.1.occurs id).find? (fun p ↦ p.1 = u) =
        pairs.find? fun p ↦ p.1 = u := by
    intro u hu
    rw [List.find?_filter]
    refine congrArg (pairs.find? ·) (funext fun p ↦ ?_)
    by_cases hp : p.1 = u
    · simp [hp, hu]
    · simp [hp]
  induction t generalizing i with
  | application items ih =>
    have hitems : ∀ t ∈ items, t.occurs id = false := by
      simpa [occurs, occursIn_eq_any] using h
    have hall : ∀ i, replaceAll chosen (pairs.filter fun p ↦ !p.1.occurs id) items i =
        replaceAll chosen pairs items i := by
      clear h
      induction items with
      | nil => intro i; rfl
      | cons t rest ih' =>
        intro i
        simp only [replaceAll]
        rw [ih t List.mem_cons_self (hitems t List.mem_cons_self),
          ih' (fun u hu ↦ ih u (List.mem_cons_of_mem t hu))
            fun u hu ↦ hitems u (List.mem_cons_of_mem t hu)]
    rw [replace_node, replace_node chosen pairs, hfind _ h]
    simp only [hall]
  | binder kind body ih =>
    rw [replace_node, replace_node chosen pairs, hfind _ h]
    simp only [ih (by simpa [occurs] using h)]
  | implies a b iha ihb | equals a b iha ihb =>
    obtain ⟨ha, hb⟩ : a.occurs id = false ∧ b.occurs id = false := by simpa [occurs] using h
    rw [replace_node, replace_node chosen pairs, hfind _ h]
    simp only [iha ha, ihb hb]
  | _ => rw [replace_node, replace_node chosen pairs, hfind _ h]

end Nameless

namespace Expression

/-! ### Numbers below the counter -/

mutual

/-- Whether every variable, bound or free, has a number below `n`. Holes do not count. -/
def Below (n : Nat) : Expression → Prop
  | atom (.var v) => v.id < n
  | atom _ => True
  | binder _ v body => v.id < n ∧ Below n body
  | implies a b => Below n a ∧ Below n b
  | equals a b => Below n a ∧ Below n b
  | application items => AllBelow n items

/-- The same for each of the expressions. -/
def AllBelow (n : Nat) : List Expression → Prop
  | [] => True
  | e :: rest => Below n e ∧ AllBelow n rest

end

/-- Operands are below the counter one by one. -/
theorem allBelow_iff {n : Nat} {es : List Expression} :
    AllBelow n es ↔ ∀ e ∈ es, e.Below n := by
  induction es with
  | nil => simp [AllBelow]
  | cons e rest ih => simp [AllBelow, ih]

theorem Below.mono {e : Expression} {n m : Nat} (h : e.Below n) (hnm : n ≤ m) : e.Below m := by
  induction e with
  | atom a =>
    cases a with
    | var v => exact Nat.lt_of_lt_of_le h hnm
    | _ => trivial
  | binder kind v body ih => exact ⟨Nat.lt_of_lt_of_le h.1 hnm, ih h.2⟩
  | implies a b iha ihb | equals a b iha ihb => exact ⟨iha h.1, ihb h.2⟩
  | application items ih =>
    rw [Below, allBelow_iff] at h ⊢
    exact fun e he ↦ ih e he (h e he)

/-- Free variables are among those that are mentioned. -/
theorem Below.lt_of_occursFree {e : Expression} {n : Nat} {v : Variable} (h : e.Below n)
    (hv : e.occursFree v = true) : v.id < n := by
  induction e with
  | atom a =>
    cases a with
    | var w =>
      rw [occursFree, beq_iff_eq] at hv
      exact hv ▸ h
    | _ => simp [occursFree] at hv
  | binder kind w body ih =>
    rw [occursFree, Bool.and_eq_true] at hv
    exact ih h.2 hv.2
  | implies a b iha ihb | equals a b iha ihb =>
    rw [occursFree, Bool.or_eq_true] at hv
    exact hv.elim (iha h.1) (ihb h.2)
  | application items ih =>
    rw [occursFree, occursFreeIn_eq_any, List.any_eq_true] at hv
    obtain ⟨e, he, hv⟩ := hv
    exact ih e he (allBelow_iff.1 h e he) hv

/-! ### Renaming keeps the form

A binder is renamed to a variable that was just drawn, and whose number is above all others. So the
scope in front and the scope behind resolve every number alike, but for the two that are exchanged.
-/

/-- Two scopes that resolve alike, once `old` is called `new`. -/
def ResolveAlike (old new : Variable) (s t : List Nat) : Prop :=
  ∀ id ≠ new.id, resolve s (if id = old.id then new.id else id) = resolve t id

/-- Two scopes go on to resolve alike below a binder of a third variable. -/
theorem ResolveAlike.cons {old new v : Variable} {s t : List Nat} (h : ResolveAlike old new s t)
    (hold : v.id ≠ old.id) (hnew : v.id ≠ new.id) :
    ResolveAlike old new (v.id :: s) (v.id :: t) := by
  intro id hid
  by_cases hv : v.id = id
  · rw [if_neg fun hid ↦ hold (hv.trans hid), ← hv, resolve_cons_self, resolve_cons_self]
  · refine (resolve_cons_eq_iff ?_ hv).2 (h id hid)
    split
    · exact hnew
    · exact hv

/-- Where a binder over `old` is renamed to `new`, the scopes below it resolve alike. -/
theorem resolveAlike_cons_cons (old new : Variable) (s : List Nat) :
    ResolveAlike old new (new.id :: s) (old.id :: s) := by
  intro id hid
  by_cases hold : id = old.id
  · rw [if_pos hold, hold, resolve_cons_self, resolve_cons_self]
  · rw [if_neg hold]
    exact (resolve_cons_eq_iff hid.symm fun h ↦ hold h.symm).2 rfl

/-- What renaming `old` to `new` in `e` answers: an expression with no number above that of `new`,
whose form is that of `e` wherever the scopes resolve alike. -/
structure Renames (old new : Variable) (e r : Expression) : Prop where
  below : r.Below (new.id + 1)
  form : ∀ s t, ResolveAlike old new s t → r.namelessIn s = e.namelessIn t

/-- The step from operands to lists of them. -/
theorem renameAllSized_run {old new : Variable} {es : List Expression} {n : Nat}
    (h : ∀ e ∈ es, ∃ r hr, (renameSized old new e).run n = (⟨r, hr⟩, n) ∧ Renames old new e r) :
    ∃ rs hr, (renameAllSized old new es).run n = (⟨rs, hr⟩, n) ∧
      Renames old new (application es) (application rs) := by
  induction es with
  | nil => exact ⟨[], rfl, by rw [renameAllSized]; rfl, trivial, fun s t _ ↦ rfl⟩
  | cons e rest ih =>
    obtain ⟨r, hr, hrun, hbelow, hform⟩ := h e List.mem_cons_self
    obtain ⟨rs, hrs, hruns, hbelows, hforms⟩ := ih fun e he ↦ h e (List.mem_cons_of_mem _ he)
    refine ⟨r :: rs, by simp [sizes, hr, hrs], ?_, ⟨hbelow, hbelows⟩, fun s t hst ↦ ?_⟩
    · rw [renameAllSized]
      exact (Fresh.run_bind hrun).trans ((Fresh.run_bind hruns).trans rfl)
    · have hrest := hforms s t hst
      simp only [namelessIn, Nameless.application.injEq] at hrest
      rw [namelessIn, namelessIn, namelessAllIn, namelessAllIn, hform s t hst, hrest]

/-- Renaming to a number that does not occur draws nothing and keeps the form. -/
theorem renameSized_run (old new : Variable) {e : Expression} (h : e.Below new.id) (n : Nat) :
    ∃ r hr, (renameSized old new e).run n = (⟨r, hr⟩, n) ∧ Renames old new e r := by
  induction e with
  | atom a =>
    cases a with
    | var v =>
      refine ⟨_, _, by rw [renameSized]; rfl, ?_, fun s t hst ↦ ?_⟩
      · split
        · exact Nat.lt_succ_self _
        · exact Nat.lt_succ_of_lt h
      · have hv := hst v.id (Nat.ne_of_lt h)
        split <;> rename_i hold
        · rwa [if_pos hold] at hv
        · rwa [if_neg hold] at hv
    | symbol | text | number | hole =>
      refine ⟨_, _, by rw [renameSized]; rfl, ?_, fun s t _ ↦ rfl⟩
      exact trivial
  | binder kind v body ih =>
    by_cases hold : v.id = old.id
    -- the binder hides the old variable, so the body is kept as it is
    · refine ⟨binder kind v body, rfl, ?_, h.mono (Nat.le_succ _), fun s t hst ↦ ?_⟩
      · rw [renameSized, if_pos hold]
        rfl
      · rw [namelessIn, namelessIn, namelessIn_congr fun u hu ↦ ?_]
        by_cases hvu : v.id = u.id
        · rw [hvu, resolve_cons_self, resolve_cons_self]
        · have hs := hst u.id (Nat.ne_of_lt (h.2.lt_of_occursFree hu))
          rw [if_neg fun hu ↦ hvu (hold.trans hu.symm)] at hs
          exact (resolve_cons_eq_iff hvu hvu).2 hs
    · have hnew : v.id ≠ new.id := Nat.ne_of_lt h.1
      obtain ⟨r, hr, hrun, hbelow, hform⟩ := ih h.2
      refine ⟨binder kind v r, by simp [size, hr], ?_, ⟨Nat.lt_succ_of_lt h.1, hbelow⟩,
        fun s t hst ↦ ?_⟩
      · rw [renameSized, if_neg hold, if_neg hnew]
        exact (Fresh.run_bind hrun).trans rfl
      · rw [namelessIn, namelessIn, hform _ _ (hst.cons hold hnew)]
  | implies a b iha ihb =>
    obtain ⟨ra, hra, hruna, hbelowa, hforma⟩ := iha h.1
    obtain ⟨rb, hrb, hrunb, hbelowb, hformb⟩ := ihb h.2
    refine ⟨implies ra rb, by simp [size, hra, hrb], ?_, ⟨hbelowa, hbelowb⟩, fun s t hst ↦ ?_⟩
    · rw [renameSized]
      exact (Fresh.run_bind hruna).trans ((Fresh.run_bind hrunb).trans rfl)
    · rw [namelessIn, namelessIn, hforma s t hst, hformb s t hst]
  | equals a b iha ihb =>
    obtain ⟨ra, hra, hruna, hbelowa, hforma⟩ := iha h.1
    obtain ⟨rb, hrb, hrunb, hbelowb, hformb⟩ := ihb h.2
    refine ⟨equals ra rb, by simp [size, hra, hrb], ?_, ⟨hbelowa, hbelowb⟩, fun s t hst ↦ ?_⟩
    · rw [renameSized]
      exact (Fresh.run_bind hruna).trans ((Fresh.run_bind hrunb).trans rfl)
    · rw [namelessIn, namelessIn, hforma s t hst, hformb s t hst]
  | application items ih =>
    obtain ⟨rs, hrs, hruns, hrenames⟩ :=
      renameAllSized_run fun e he ↦ ih e he (allBelow_iff.1 h e he)
    refine ⟨application rs, by simp [size, hrs], ?_, hrenames⟩
    rw [renameSized]
    exact (Fresh.run_bind hruns).trans rfl

/-! ### One step of the walk -/

/-- Walks in turn, with the count and the counter handed on. -/
theorem Counting.run_bind {α β : Type} {f : Counting α} {g : α → Counting β} {a : α}
    {i j n m : Nat} (h : (f.run i).run n = ((a, j), m)) :
    ((f >>= g).run i).run n = ((g a).run j).run m := by
  rw [StateT.run_bind, StateT.run_bind, h]
  rfl

/-- A draw during a walk leaves the count. -/
theorem Counting.run_lift {α β : Type} {f : Fresh α} {g : α → Counting β} {a : α}
    {i n m : Nat} (h : f.run n = (a, m)) :
    (((f : Counting α) >>= g).run i).run n = ((g a).run i).run m := by
  refine Counting.run_bind ?_
  show ((f >>= fun a ↦ pure (a, i)) : Fresh (α × Nat)).run n = ((a, i), m)
  rw [Fresh.run_bind h]
  rfl

variable {chosen : Occurrences} {inForce : List Replacement} {i j k n m o : Nat}

/-- The walk on expressions goes by the same cases, with keys up to bound names. -/
theorem walk_match {e : Expression} {r : Replacement}
    (h : inForce.find? (·.key.alphaEq e) = some r) (i n : Nat) :
    ((walk chosen inForce e).run i).run n =
      ((if chosen.selects i then r.value else e, i + 1), n) := by
  rw [walk.eq_def, h]
  rfl

theorem walk_atom {a : Atom} (h : inForce.find? (·.key.alphaEq (atom a)) = none) (i n : Nat) :
    ((walk chosen inForce (atom a)).run i).run n = ((atom a, i), n) := by
  rw [walk.eq_def, h]
  rfl

theorem walk_implies {a b a' b' : Expression}
    (h : inForce.find? (·.key.alphaEq (implies a b)) = none)
    (ha : ((walk chosen inForce a).run i).run n = ((a', j), m))
    (hb : ((walk chosen inForce b).run j).run m = ((b', k), o)) :
    ((walk chosen inForce (implies a b)).run i).run n = ((implies a' b', k), o) := by
  rw [walk.eq_def, h]
  exact (Counting.run_bind ha).trans ((Counting.run_bind hb).trans rfl)

theorem walk_equals {a b a' b' : Expression}
    (h : inForce.find? (·.key.alphaEq (equals a b)) = none)
    (ha : ((walk chosen inForce a).run i).run n = ((a', j), m))
    (hb : ((walk chosen inForce b).run j).run m = ((b', k), o)) :
    ((walk chosen inForce (equals a b)).run i).run n = ((equals a' b', k), o) := by
  rw [walk.eq_def, h]
  exact (Counting.run_bind ha).trans ((Counting.run_bind hb).trans rfl)

theorem walk_application {items items' : List Expression}
    (h : inForce.find? (·.key.alphaEq (application items)) = none)
    (hitems : ((walkAll chosen inForce items).run i).run n = ((items', j), m)) :
    ((walk chosen inForce (application items)).run i).run n = ((application items', j), m) := by
  rw [walk.eq_def, h]
  exact (Counting.run_bind hitems).trans rfl

theorem walkAll_cons {e e' : Expression} {rest rest' : List Expression}
    (he : ((walk chosen inForce e).run i).run n = ((e', j), m))
    (hrest : ((walkAll chosen inForce rest).run j).run m = ((rest', k), o)) :
    ((walkAll chosen inForce (e :: rest)).run i).run n = ((e' :: rest', k), o) := by
  rw [walkAll.eq_def]
  exact (Counting.run_bind he).trans ((Counting.run_bind hrest).trans rfl)

variable {kind : BinderKind} {v : Variable} {body renamed body' : Expression}

/-- A binder whose variable no value in force mentions keeps it. -/
theorem walk_binder (h : inForce.find? (·.key.alphaEq (binder kind v body)) = none)
    (hfree : ((inForce.filter fun r ↦ !r.key.occursFree v).any fun r ↦ r.value.occursFree v) =
      false)
    (hbody : ((walk chosen (inForce.filter fun r ↦ !r.key.occursFree v) body).run i).run n =
      ((body', j), m)) :
    ((walk chosen inForce (binder kind v body)).run i).run n = ((binder kind v body', j), m) := by
  rw [walk.eq_def, h]
  dsimp only
  rw [hfree, if_neg Bool.false_ne_true]
  exact (Counting.run_bind hbody).trans rfl

/-- A binder whose variable a value in force mentions gets the next variable. -/
theorem walk_binder_renamed (h : inForce.find? (·.key.alphaEq (binder kind v body)) = none)
    (hfree : ((inForce.filter fun r ↦ !r.key.occursFree v).any fun r ↦ r.value.occursFree v) =
      true) {hsize : renamed.size = body.size}
    (hrenamed : (renameSized v ⟨v.hint, n⟩ body).run (n + 1) = (⟨renamed, hsize⟩, m))
    (hbody : ((walk chosen (inForce.filter fun r ↦ !r.key.occursFree v) renamed).run i).run m =
      ((body', j), o)) :
    ((walk chosen inForce (binder kind v body)).run i).run n =
      ((binder kind ⟨v.hint, n⟩ body', j), o) := by
  rw [walk.eq_def, h]
  dsimp only
  rw [if_pos hfree]
  refine (Counting.run_lift (v.refresh_run n)).trans ?_
  refine (Counting.run_lift hrenamed).trans ?_
  exact (Counting.run_bind hbody).trans rfl

end Expression

/-! ### Replacements in force -/

namespace Replacement

/-- The forms of the key and of the value. -/
def forms (r : Replacement) : Nameless × Nameless := (r.key.nameless, r.value.nameless)

/-- Whether every variable of the key and of the value has a number below `n`. -/
structure Below (n : Nat) (r : Replacement) : Prop where
  key : r.key.Below n
  value : r.value.Below n

/-- Keys and values stay below a counter that moves on. -/
theorem Below.mono {r : Replacement} {n m : Nat} (h : r.Below n) (hnm : n ≤ m) : r.Below m :=
  ⟨h.key.mono hnm, h.value.mono hnm⟩

/-- Whether neither the key nor the value mentions a variable of the scope. -/
structure Avoids (scope : List Nat) (r : Replacement) : Prop where
  key : ∀ v, r.key.occursFree v = true → v.id ∉ scope
  value : ∀ v, r.value.occursFree v = true → v.id ∉ scope

/-- Outside all binders nothing is avoided. -/
theorem avoids_nil (r : Replacement) : r.Avoids [] := ⟨by simp, by simp⟩

/-- A replacement stays in force under a binder whose number it does not mention. -/
theorem Avoids.cons_id {scope : List Nat} {r : Replacement} {id : Nat} (h : r.Avoids scope)
    (hkey : ∀ w, r.key.occursFree w = true → w.id ≠ id)
    (hvalue : ∀ w, r.value.occursFree w = true → w.id ≠ id) : r.Avoids (id :: scope) where
  key w hw hmem := (List.mem_cons.1 hmem).elim (hkey w hw) (h.key w hw)
  value w hw hmem := (List.mem_cons.1 hmem).elim (hvalue w hw) (h.value w hw)

theorem Avoids.cons {scope : List Nat} {r : Replacement} {v : Variable} (h : r.Avoids scope)
    (hkey : r.key.occursFree v = false) (hvalue : r.value.occursFree v = false) :
    r.Avoids (v.id :: scope) := by
  have hne {e : Expression} (he : e.occursFree v = false) (w : Variable)
      (hw : e.occursFree w = true) : w.id ≠ v.id := by
    intro hid
    rw [Expression.occursFree_congr hid, he] at hw
    cases hw
  exact h.cons_id (hne hkey) (hne hvalue)

/-- A fresh variable is mentioned nowhere. -/
theorem Avoids.cons_fresh {scope : List Nat} {r : Replacement} {n : Nat} (h : r.Avoids scope)
    (hbelow : r.Below n) : r.Avoids (n :: scope) :=
  h.cons_id (fun _ hw ↦ Nat.ne_of_lt (hbelow.key.lt_of_occursFree hw))
    fun _ hw ↦ Nat.ne_of_lt (hbelow.value.lt_of_occursFree hw)

variable {scope : List Nat} {inForce : List Replacement}

/-- The walk on forms finds the replacement that the walk on expressions finds. -/
theorem find?_map_forms (h : ∀ r ∈ inForce, r.Avoids scope) (e : Expression) :
    (inForce.map forms).find? (fun p ↦ p.1 = e.namelessIn scope) =
      (inForce.find? (·.key.alphaEq e)).map forms := by
  rw [List.find?_map]
  congr 1
  induction inForce with
  | nil => rfl
  | cons r rest ih =>
    have hr := h r List.mem_cons_self
    have hsame : decide ((forms r).1 = e.namelessIn scope) = r.key.alphaEq e := by
      rw [Bool.eq_iff_iff, decide_eq_true_iff, Expression.alphaEq_iff,
        ← Expression.namelessIn_eq_iff, Expression.namelessIn_of_forall_notMem hr.key]
      rfl
    rw [List.find?_cons, List.find?_cons, ih fun r hr ↦ h r (List.mem_cons_of_mem _ hr)]
    simp only [Function.comp_apply, hsame]

/-- Under a binder, the replacements that go out of force make no difference. -/
theorem replace_map_forms_filter {chosen : Occurrences} {v : Variable} {t : Nameless}
    (h : t.occurs v.id = false) (i : Nat) :
    t.replace chosen ((inForce.filter fun r ↦ !r.key.occursFree v).map forms) i =
      t.replace chosen (inForce.map forms) i := by
  have hfilter : (inForce.filter fun r ↦ !r.key.occursFree v).map forms =
      (inForce.map forms).filter fun p ↦ !p.1.occurs v.id := by
    rw [List.filter_map]
    congr 2
    funext r
    simp only [Function.comp_apply, forms, Expression.occurs_nameless]
  rw [hfilter, Nameless.replace_filter h]

end Replacement

namespace Expression

/-! ### The simulation -/

/-- An atom that is no key stays. -/
theorem replace_atom {chosen : Occurrences} {pairs : List (Nameless × Nameless)} {a : Atom}
    {scope : List Nat}
    (h : pairs.find? (fun p ↦ p.1 = (atom a).namelessIn scope) = none) (i : Nat) :
    ((atom a).namelessIn scope).replace chosen pairs i = ((atom a).namelessIn scope, i) := by
  rw [Nameless.replace_node, h]
  cases a with
  | var v =>
    obtain ⟨index, hv⟩ | hv := resolve_eq_bound_or_free scope v.id
    · simp only [namelessIn, hv]
    · simp only [namelessIn, hv]
  | _ => rfl

/-- The walk on an expression ends, at a counter that it has only moved forward, with an expression
below that counter; and its result and its index are those of the walk on the form. -/
def Simulates (chosen : Occurrences) (inForce : List Replacement) (scope : List Nat)
    (e : Expression) (i n : Nat) : Prop :=
  ∃ r j m, ((walk chosen inForce e).run i).run n = ((r, j), m) ∧ n ≤ m ∧ r.Below m ∧
    (e.namelessIn scope).replace chosen (inForce.map Replacement.forms) i = (r.namelessIn scope, j)

/-- The same for a list of expressions. -/
def SimulatesAll (chosen : Occurrences) (inForce : List Replacement) (scope : List Nat)
    (es : List Expression) (i n : Nat) : Prop :=
  ∃ rs j m, ((walkAll chosen inForce es).run i).run n = ((rs, j), m) ∧ n ≤ m ∧ AllBelow m rs ∧
    Nameless.replaceAll chosen (inForce.map Replacement.forms) (namelessAllIn scope es) i =
      (namelessAllIn scope rs, j)

section

variable {chosen : Occurrences} {inForce : List Replacement} {scope : List Nat} {n : Nat}

/-- A binder is followed through its body, whether it is renamed or not. -/
theorem Simulates.binder {kind : BinderKind} {v : Variable} {body : Expression}
    (h : inForce.find? (·.key.alphaEq (.binder kind v body)) = none)
    (hbody : (Expression.binder kind v body).Below n) (hbelow : ∀ r ∈ inForce, r.Below n)
    (havoids : ∀ r ∈ inForce, r.Avoids scope)
    (ih : ∀ (inForce : List Replacement) (scope : List Nat) (e : Expression) (i m : Nat),
      e.size = body.size → e.Below m → (∀ r ∈ inForce, r.Below m) →
      (∀ r ∈ inForce, r.Avoids scope) → Simulates chosen inForce scope e i m) (i : Nat) :
    Simulates chosen inForce scope (.binder kind v body) i n := by
  have hform : (inForce.map Replacement.forms).find?
      (fun p ↦ p.1 = .binder kind (body.namelessIn (v.id :: scope))) = none := by
    have := Replacement.find?_map_forms havoids (.binder kind v body)
    rwa [h] at this
  have hunbound : (body.namelessIn (v.id :: scope)).occurs v.id = false := by
    rw [Bool.eq_false_iff, Ne, occurs_namelessIn]
    exact fun hv ↦ hv.2 List.mem_cons_self
  let inner := inForce.filter fun r ↦ !r.key.occursFree v
  have hmem : ∀ r ∈ inner, r ∈ inForce ∧ r.key.occursFree v = false := fun r hr ↦ by
    simpa [inner] using hr
  cases hfree : inner.any fun r ↦ r.value.occursFree v with
  | false =>
    -- no value mentions the variable, so the binder may stay
    have hinner : ∀ r ∈ inner, r.Avoids (v.id :: scope) := fun r hr ↦
      (havoids r (hmem r hr).1).cons (hmem r hr).2
        (Bool.eq_false_iff.2 fun hv ↦ Bool.false_ne_true (hfree ▸ List.any_eq_true.2 ⟨r, hr, hv⟩))
    obtain ⟨r, j, m, hrun, hnm, hr, hreplace⟩ := ih inner (v.id :: scope) body i n rfl hbody.2
      (fun r hr ↦ hbelow r (hmem r hr).1) hinner
    refine ⟨.binder kind v r, j, m, walk_binder h hfree hrun, hnm,
      ⟨Nat.lt_of_lt_of_le hbody.1 hnm, hr⟩, Nameless.replace_binder hform ?_⟩
    rwa [Replacement.replace_map_forms_filter hunbound] at hreplace
  | true =>
    -- a value mentions the variable, so the walk goes on below a new one
    obtain ⟨renamed, hsize, hrenamed, hr⟩ :=
      renameSized_run v ⟨v.hint, n⟩ hbody.2 (n + 1)
    have hinner : ∀ r ∈ inner, r.Avoids (n :: scope) := fun r hr ↦
      (havoids r (hmem r hr).1).cons_fresh (hbelow r (hmem r hr).1)
    obtain ⟨r, j, m, hrun, hnm, hr', hreplace⟩ := ih inner (n :: scope) renamed i (n + 1) hsize
      hr.below (fun r hr ↦ (hbelow r (hmem r hr).1).mono (Nat.le_succ n)) hinner
    refine ⟨.binder kind ⟨v.hint, n⟩ r, j, m, walk_binder_renamed h hfree hrenamed hrun,
      Nat.le_of_succ_le hnm, ⟨hnm, hr'⟩, Nameless.replace_binder hform ?_⟩
    rw [hr.form _ _ (resolveAlike_cons_cons v ⟨v.hint, n⟩ scope),
      Replacement.replace_map_forms_filter hunbound] at hreplace
    exact hreplace

end

mutual

/-- **The walk on expressions does what the walk on forms does.** -/
theorem walk_run (chosen : Occurrences) (inForce : List Replacement) (scope : List Nat)
    (e : Expression) (i n : Nat) (he : e.Below n) (hbelow : ∀ r ∈ inForce, r.Below n)
    (havoids : ∀ r ∈ inForce, r.Avoids scope) : Simulates chosen inForce scope e i n := by
  have hfind := Replacement.find?_map_forms havoids e
  cases h : inForce.find? (·.key.alphaEq e) with
  | some r =>
    rw [h] at hfind
    -- a match: the value is free of the binders above, so its form is the same below them
    have hr := List.mem_of_find?_eq_some h
    refine ⟨_, _, _, walk_match h i n, Nat.le_refl n, ?_, ?_⟩
    · split
      · exact (hbelow r hr).value
      · exact he
    · rw [Nameless.replace_match hfind]
      split
      · rw [namelessIn_of_forall_notMem (havoids r hr).value]
        rfl
      · rfl
  | none =>
    rw [h] at hfind
    match e, he with
    | .atom a, he =>
      exact ⟨_, _, _, walk_atom h i n, Nat.le_refl n, he, replace_atom hfind i⟩
    -- the body may be renamed before the walk goes into it, so the hypothesis is about any
    -- expression of its size
    | .binder kind v body, he =>
      refine Simulates.binder h he hbelow havoids ?_ i
      intro inForce scope e i m hsize
      exact walk_run chosen inForce scope e i m
    | .implies a b, he =>
      obtain ⟨a', j, m, hruna, hnm, ha', hreplacea⟩ :=
        walk_run chosen inForce scope a i n he.1 hbelow havoids
      obtain ⟨b', k, o, hrunb, hmo, hb', hreplaceb⟩ := walk_run chosen inForce scope b j m
        (he.2.mono hnm) (fun r hr ↦ (hbelow r hr).mono hnm) havoids
      exact ⟨_, _, _, walk_implies h hruna hrunb, Nat.le_trans hnm hmo, ⟨ha'.mono hmo, hb'⟩,
        Nameless.replace_implies hfind hreplacea hreplaceb⟩
    | .equals a b, he =>
      obtain ⟨a', j, m, hruna, hnm, ha', hreplacea⟩ :=
        walk_run chosen inForce scope a i n he.1 hbelow havoids
      obtain ⟨b', k, o, hrunb, hmo, hb', hreplaceb⟩ := walk_run chosen inForce scope b j m
        (he.2.mono hnm) (fun r hr ↦ (hbelow r hr).mono hnm) havoids
      exact ⟨_, _, _, walk_equals h hruna hrunb, Nat.le_trans hnm hmo, ⟨ha'.mono hmo, hb'⟩,
        Nameless.replace_equals hfind hreplacea hreplaceb⟩
    | .application items, he =>
      obtain ⟨items', j, m, hrun, hnm, hitems', hreplace⟩ :=
        walkAll_run chosen inForce scope items i n he hbelow havoids
      exact ⟨_, _, _, walk_application h hrun, hnm, hitems',
        Nameless.replace_application hfind hreplace⟩
termination_by 2 * e.size
decreasing_by all_goals simp only [size] at *; omega

/-- The same for a list of expressions. -/
theorem walkAll_run (chosen : Occurrences) (inForce : List Replacement) (scope : List Nat)
    (es : List Expression) (i n : Nat) (hes : AllBelow n es) (hbelow : ∀ r ∈ inForce, r.Below n)
    (havoids : ∀ r ∈ inForce, r.Avoids scope) : SimulatesAll chosen inForce scope es i n := by
  match es, hes with
  | [], _ => exact ⟨[], i, n, by rw [walkAll.eq_def]; rfl, Nat.le_refl n, trivial, rfl⟩
  | e :: rest, hes =>
    obtain ⟨e', j, m, hrun, hnm, he', hreplace⟩ :=
      walk_run chosen inForce scope e i n hes.1 hbelow havoids
    obtain ⟨rest', k, o, hruns, hmo, hrest', hreplaces⟩ := walkAll_run chosen inForce scope rest j m
      (allBelow_iff.2 fun e he ↦ (allBelow_iff.1 hes.2 e he).mono hnm)
      (fun r hr ↦ (hbelow r hr).mono hnm) havoids
    refine ⟨_, _, _, walkAll_cons hrun hruns, Nat.le_trans hnm hmo, ⟨he'.mono hmo, hrest'⟩, ?_⟩
    simp only [namelessAllIn, Nameless.replaceAll, hreplace, hreplaces]
termination_by 2 * sizes es + 1
decreasing_by all_goals have := size_pos e; simp only [sizes]; omega

end

/-! ### Whole replacements -/

/-- The simulation with the empty scope and all replacements in force. -/
theorem substituteCounting_run {target : Expression} {replacements : List Replacement} {n : Nat}
    (htarget : target.Below n) (hbelow : ∀ r ∈ replacements, r.Below n) (chosen : Occurrences) :
    ∃ result count m, (target.substituteCounting replacements chosen).run n = ((result, count), m) ∧
      n ≤ m ∧ result.Below m ∧
      target.nameless.replace chosen (replacements.map Replacement.forms) 0 =
        (result.nameless, count) :=
  walk_run chosen replacements [] target 0 n htarget hbelow fun r _ ↦ r.avoids_nil

theorem substitute_of_substituteCounting {target : Expression} {replacements : List Replacement}
    {chosen : Occurrences} {result : Expression} {count n m : Nat}
    (h : (target.substituteCounting replacements chosen).run n = ((result, count), m)) :
    (target.substitute replacements chosen).run n = (result, m) := by
  rw [substitute, StateT.run_map, h]
  rfl

/-- The result of a replacement has the form that the walk on forms gives. -/
theorem substitute_run {target : Expression} {replacements : List Replacement} {n : Nat}
    (htarget : target.Below n) (hbelow : ∀ r ∈ replacements, r.Below n) (chosen : Occurrences) :
    ∃ result m, (target.substitute replacements chosen).run n = (result, m) ∧ n ≤ m ∧
      result.Below m ∧
      result.nameless =
        (target.nameless.replace chosen (replacements.map Replacement.forms) 0).1 := by
  obtain ⟨result, count, m, hrun, hnm, hresult, hreplace⟩ :=
    substituteCounting_run htarget hbelow chosen
  exact ⟨result, m, substitute_of_substituteCounting hrun, hnm, hresult, by rw [hreplace]⟩

/-- Replacements that are equal up to bound names have the same forms. -/
theorem map_forms_congr {rs rs' : List Replacement}
    (h : List.Forall₂ (fun r r' ↦ r.key.alphaEq r'.key ∧ r.value.alphaEq r'.value) rs rs') :
    rs.map Replacement.forms = rs'.map Replacement.forms := by
  induction h with
  | nil => rfl
  | cons hr _ ih =>
    rw [List.map_cons, List.map_cons, ih, Replacement.forms, Replacement.forms,
      alphaEq_iff.1 hr.1, alphaEq_iff.1 hr.2]

/-- **Replacing is capture-avoiding, and a function of expressions up to bound names.** Below the
counter, the form of the result and the number of matches are those of the walk on forms. So
targets, keys and values that are equal up to bound names have results that are, with as many
matches, at whatever counters the two walks begin; and the number of matches is the same whichever
of them are selected. -/
theorem substitution_isCaptureAvoiding {target : Expression} {replacements : List Replacement}
    {n : Nat} (htarget : target.Below n) (hbelow : ∀ r ∈ replacements, r.Below n)
    (chosen : Occurrences) :
    ∃ result count m, (target.substituteCounting replacements chosen).run n = ((result, count), m) ∧
      (target.substitute replacements chosen).run n = (result, m) ∧
      (result.nameless, count) =
        target.nameless.replace chosen (replacements.map Replacement.forms) 0 ∧
      (∀ target' replacements' n', target'.Below n' → (∀ r ∈ replacements', r.Below n') →
        target.alphaEq target' →
        List.Forall₂ (fun r r' ↦ r.key.alphaEq r'.key ∧ r.value.alphaEq r'.value)
          replacements replacements' →
        ∃ result' m',
          (target'.substituteCounting replacements' chosen).run n' = ((result', count), m') ∧
            result.alphaEq result') ∧
      ∀ chosen', ∃ result' m',
        (target.substituteCounting replacements chosen').run n = ((result', count), m') := by
  obtain ⟨result, count, m, hrun, -, -, hreplace⟩ := substituteCounting_run htarget hbelow chosen
  refine ⟨result, count, m, hrun, substitute_of_substituteCounting hrun, hreplace.symm, ?_, ?_⟩
  · intro target' replacements' n' htarget' hbelow' hsame hall
    obtain ⟨result', count', m', hrun', -, -, hreplace'⟩ :=
      substituteCounting_run htarget' hbelow' chosen
    rw [← alphaEq_iff.1 hsame, ← map_forms_congr hall, hreplace, Prod.mk.injEq] at hreplace'
    exact ⟨result', m', hreplace'.2 ▸ hrun', alphaEq_iff.2 hreplace'.1⟩
  · intro chosen'
    obtain ⟨result', count', m', hrun', -, -, hreplace'⟩ :=
      substituteCounting_run htarget hbelow chosen'
    have hcount := Nameless.replace_index_eq chosen chosen' (replacements.map Replacement.forms)
      target.nameless 0
    rw [hreplace, hreplace'] at hcount
    subst hcount
    exact ⟨result', m', hrun'⟩

/-- Under a binder over the very variable that is put in: the binder is renamed, and the variable
stays free. -/
theorem substitution_under_binder :
    ∃ result count m,
      (substituteCounting (.all ⟨"y", 1⟩ (.equals (.var ⟨"x", 0⟩) (.var ⟨"y", 1⟩)))
        [⟨.var ⟨"x", 0⟩, .var ⟨"y", 1⟩⟩] .all).run 2 = ((result, count), m) ∧ count = 1 ∧
      result.nameless = .binder .universal (.equals (.free 1) (.bound 0)) := by
  have htarget : (all ⟨"y", 1⟩ (equals (var ⟨"x", 0⟩) (var ⟨"y", 1⟩))).Below 2 :=
    ⟨Nat.one_lt_two, Nat.two_pos, Nat.one_lt_two⟩
  have hbelow : ∀ r ∈ [Replacement.mk (var ⟨"x", 0⟩) (var ⟨"y", 1⟩)], r.Below 2 := by
    intro r hr
    rw [List.mem_singleton.1 hr]
    exact ⟨Nat.two_pos, Nat.one_lt_two⟩
  obtain ⟨result, count, m, hrun, -, hreplace, -⟩ :=
    substitution_isCaptureAvoiding htarget hbelow .all
  refine ⟨result, count, m, hrun, ?_⟩
  obtain ⟨hform, hcount⟩ := Prod.mk.inj hreplace
  exact ⟨hcount.trans (by decide), hform.trans (by decide)⟩

end Expression

end NaturalDeduction
