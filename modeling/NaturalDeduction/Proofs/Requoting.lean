import NaturalDeduction.Proofs.Parsing

/-!
# Parsing what was printed

Items that were parsed from a text are printed with a space between each two, and the printed text
is parsed again. It always is parsed, and to items of the same shape: brackets, words and strings
come back where they were, and words come back with their texts (`SExpr.parse_printItems`).

Strings need not. A string is printed with escapes that the scanner does not all know, so what comes
back is `SExpr.reread`: a carriage return comes back as a letter, the character zero as a digit, and
a character written by number as the letter `u` with the number in braces. The items come back as
they were just if their strings have none of these characters.

Main definitions and statements:

* `SExpr.reread`: what comes back, string by string.
* `SExpr.Plain`: no string has a character that does not come back.
* `SExpr.parse_printItems`: printing and parsing again gives what `reread` says, and the items
  themselves exactly if they are plain.
-/

namespace NaturalDeduction

/-! ### The strings that come back -/

namespace Quoted

theorem reread_ne_nil (c : Char) : reread c ≠ [] := by
  unfold reread
  split_ifs <;> exact List.cons_ne_nil _ _

/-- A character comes back as itself exactly if it is plain. -/
theorem reread_eq_singleton_iff {c : Char} : reread c = [c] ↔ IsPlain c := by
  refine ⟨fun h ↦ ?_, reread_of_isPlain⟩
  unfold reread at h
  split_ifs at h with hplain hreturn hzero
  · exact hplain
  · subst hreturn
    exact absurd h (by decide)
  · subst hzero
    exact absurd h (by decide)
  · have hlength := congrArg List.length h
    simp at hlength

/-- Every character comes back as something, so no string comes back shorter. -/
theorem length_le_length_flatMap_reread (cs : List Char) :
    cs.length ≤ (cs.flatMap reread).length := by
  induction cs with
  | nil => exact Nat.le_refl _
  | cons c cs ih =>
    have hc : 0 < (reread c).length := List.length_pos_iff.2 (reread_ne_nil c)
    rw [List.flatMap_cons, List.length_append, List.length_cons]
    omega

/-- No character is read as nothing, so what is read for the others cannot make up for one that is
misread. -/
theorem flatMap_reread_eq_self_iff {cs : List Char} :
    cs.flatMap reread = cs ↔ ∀ c ∈ cs, IsPlain c := by
  refine ⟨fun h ↦ ?_, flatMap_reread_of_isPlain⟩
  induction cs with
  | nil => exact nofun
  | cons c cs ih =>
    have hrest := length_le_length_flatMap_reread cs
    obtain ⟨d, ds, hd⟩ := List.exists_cons_of_ne_nil (reread_ne_nil c)
    rw [List.flatMap_cons, hd, List.cons_append] at h
    obtain ⟨rfl, htail⟩ := List.cons.inj h
    have hlength := congrArg List.length htail
    rw [List.length_append] at hlength
    have hnil : ds = [] := List.length_eq_zero_iff.1 (by omega)
    subst hnil
    exact List.forall_mem_cons.2 ⟨reread_eq_singleton_iff.1 hd, ih htail⟩

end Quoted

namespace SExpr

open Scanner

mutual

/-- What comes back for an s-expression that is printed and parsed again, places aside. -/
def reread : SExpr → SExpr
  | word text position => word text position
  | quotation contents position =>
    quotation (String.ofList (contents.toList.flatMap Quoted.reread)) position
  | list position items => list position (rereadAll items)

/-- What comes back for items. -/
def rereadAll : List SExpr → List SExpr
  | [] => []
  | e :: rest => e.reread :: rereadAll rest

end

/-- Items come back one by one. -/
theorem rereadAll_eq_map (es : List SExpr) : rereadAll es = es.map reread := by
  induction es with
  | nil => rfl
  | cons e rest ih => rw [rereadAll, ih, List.map_cons]

/-! ### Scanning what was printed -/

/-- The first of several items has a space behind it. -/
theorem printItems_cons (e : SExpr) {rest : List SExpr} (hne : rest ≠ []) :
    (printItems (e :: rest)).toList = e.print.toList ++ ' ' :: (printItems rest).toList := by
  rw [printItems.eq_3 _ _ hne, String.toList_append, String.toList_append, List.append_assoc]
  rfl

/-- Items scan one behind the other, as a space ends each of them. -/
theorem scans_printItems {es : List SExpr}
    (h : ∀ e ∈ es, Scans e.print.toList e.reread.lexemes) :
    Scans (printItems es).toList (lexemesAll (rereadAll es)) := by
  induction es with
  | nil => exact .nil
  | cons e rest ih =>
    obtain ⟨he, hrest⟩ := List.forall_mem_cons.1 h
    rw [rereadAll, lexemesAll]
    rcases eq_or_ne rest [] with rfl | hne
    · rwa [printItems, rereadAll, lexemesAll, List.append_nil]
    · rw [printItems_cons e hne]
      exact he.append_blank (ih hrest)

/-- **A printed s-expression scans as what comes back for it**, if its words are words. -/
theorem scans_print {e : SExpr} (h : e.Worded) : Scans e.print.toList e.reread.lexemes := by
  induction e with
  | word text position =>
    cases h with
    | word _ hword => exact hword.scans
  | quotation contents position =>
    rw [print, quoted, String.toList_ofList]
    exact scans_encode contents.toList
  | list position items ih =>
    cases h with
    | list _ hitems =>
      have hscans := scans_printItems fun e he ↦ ih e he (hitems e he)
      rw [print, reread, lexemes, String.toList_append, String.toList_append]
      exact hscans.append_closing.opening

/-! ### What comes back as it was -/

/-- Whether every character of every string is read back as it is. -/
def Plain (es : List SExpr) : Prop :=
  ∀ contents, (TokenKind.quotation, contents) ∈ lexemesAll es → ∀ c ∈ contents.toList,
    Quoted.IsPlain c

theorem plain_cons {e : SExpr} {rest : List SExpr} :
    Plain (e :: rest) ↔ Plain [e] ∧ Plain rest := by
  simp only [Plain, lexemesAll, List.append_nil, List.mem_append, or_imp, forall_and]

theorem plain_iff_forall {es : List SExpr} : Plain es ↔ ∀ e ∈ es, Plain [e] := by
  induction es with
  | nil => exact ⟨nofun, fun _ ↦ nofun⟩
  | cons e rest ih => rw [plain_cons, ih, List.forall_mem_cons]

theorem plain_list {position : Position} {items : List SExpr} :
    Plain [list position items] ↔ Plain items := by
  simp [Plain, lexemesAll, lexemes]

/-- A string is plain if its characters are. -/
theorem plain_quotation {contents : String} {position : Position} :
    Plain [quotation contents position] ↔ ∀ c ∈ contents.toList, Quoted.IsPlain c := by
  simp [Plain, lexemesAll, lexemes]

/-- An s-expression comes back as it was just if its strings do. -/
theorem unplaced_reread_eq_iff {e : SExpr} : e.reread.unplaced = e.unplaced ↔ Plain [e] := by
  induction e with
  | word text position =>
    refine ⟨fun _ contents h ↦ ?_, fun _ ↦ rfl⟩
    simp [lexemesAll, lexemes] at h
  | quotation contents position =>
    rw [plain_quotation, ← Quoted.flatMap_reread_eq_self_iff, reread, unplaced, unplaced,
      SExpr.quotation.injEq, ← String.toList_inj, String.toList_ofList]
    simp only [and_true]
  | list position items ih =>
    rw [plain_list, plain_iff_forall, reread, unplaced, unplaced, SExpr.list.injEq,
      rereadAll_eq_map, unplacedAll_eq_map, unplacedAll_eq_map, List.map_map, List.map_inj_left]
    simp only [true_and]
    exact forall₂_congr ih

/-- **What was printed is always parsed again**, to items with the same brackets and the same words
and with each string reread. The items are the same, places aside, just if every character of every
string is read back. -/
theorem parse_printItems {text : String} {es : List SExpr} (h : parse text = .ok es) :
    ∃ es', parse (printItems es) = .ok es' ∧
      es'.map unplaced = (es.map reread).map unplaced ∧
      (es'.map unplaced = es.map unplaced ↔ Plain es) := by
  have hscans : Scans (printItems es).toList (lexemesAll (rereadAll es)) :=
    scans_printItems fun e he ↦ scans_print (worded_of_mem_parse h he)
  obtain ⟨es', hparse, hes'⟩ := exists_parse_of_scans hscans
  rw [rereadAll_eq_map] at hes'
  refine ⟨es', hparse, hes', ?_⟩
  rw [hes', List.map_map, List.map_inj_left, plain_iff_forall]
  exact forall₂_congr fun e _ ↦ unplaced_reread_eq_iff

/-- A string with a line feed comes back as it was, and one with a carriage return does not. -/
theorem parse_printItems_returned :
    parse "(f \"a\\n\") \"\r\"" =
        .ok [list ⟨1, 1⟩ [word "f" ⟨1, 2⟩, quotation "a\n" ⟨1, 4⟩], quotation "\r" ⟨1, 11⟩] ∧
      ∃ es', parse (printItems
          [list ⟨1, 1⟩ [word "f" ⟨1, 2⟩, quotation "a\n" ⟨1, 4⟩], quotation "\r" ⟨1, 11⟩]) =
            .ok es' ∧
        es'.map unplaced =
          [list .start [word "f" .start, quotation "a\n" .start], quotation "r" .start] := by
  have hparse : parse "(f \"a\\n\") \"\r\"" =
      .ok [list ⟨1, 1⟩ [word "f" ⟨1, 2⟩, quotation "a\n" ⟨1, 4⟩], quotation "\r" ⟨1, 11⟩] := rfl
  obtain ⟨es', hprinted, hes', -⟩ := parse_printItems hparse
  exact ⟨hparse, es', hprinted, hes'⟩

/-- A carriage return between quotes is a string of one character. It is printed with an escape that
the scanner does not know, and what is parsed from there is the string of one letter. -/
theorem exists_misread_string :
    ∃ (text : String) (es es' : List SExpr), parse text = .ok es ∧ parse (printItems es) = .ok es' ∧
      es'.map unplaced ≠ es.map unplaced := by
  refine ⟨"\"\r\"", [quotation "\r" ⟨1, 1⟩], [quotation "r" ⟨1, 1⟩], rfl, rfl, ?_⟩
  simp [unplaced]

end SExpr

end NaturalDeduction
