import SvelteTypings.Proofs.Script.Layout
import SvelteTypings.Proofs.Text.Trimming
import SvelteTypings.Script.Declaration

/-!
# Statements that are declared as they stand

An exported interface and the head of an exported class keep their text.
-/

namespace SvelteTypings.Script

/-! ## Ends of texts -/

theorem trimmed_of_ends {s : String} {c d : Char} (hfirst : s.toList.head? = some c)
    (hlast : s.toList.getLast? = some d) (hc : Text.isBlank c = false) (hd : Text.isBlank d = false) :
    trimmed s = s := by
  obtain ⟨cs, hcs⟩ := List.head?_eq_some_iff.1 hfirst
  have hstart : Text.trimStart s.toList = s.toList := by
    rw [Text.trimStart, hcs, List.dropWhile_cons_of_neg (by simp [hc])]
  rw [trimmed, Text.trim, hstart, Text.trimEnd_of_getLast? hlast hd, String.ofList_toList]

theorem lineStarts_ofList (text line : List Char) :
    lineStarts (String.ofList text) (String.ofList line) = text.isPrefixOf line := by
  rw [lineStarts, String.toList_ofList, String.toList_ofList]

theorem spanText?_of_ends {ts : List Token} {c d : Char}
    (hfirst : (Token.span ts).toList.head? = some c) (hlast : (Token.span ts).toList.getLast? = some d)
    (hc : Text.isBlank c = false) (hd : Text.isBlank d = false) :
    spanText? ts = some (Token.span ts) := by
  rw [spanText?, trimmed_of_ends hfirst hlast hc hd]
  refine if_neg fun hempty => ?_
  rw [String.isEmpty_iff.1 hempty] at hfirst
  exact absurd hfirst (by simp)

theorem terminate_of_getLast? {text : String} (h : text.toList.getLast? = some '\x7d') :
    terminate text = text := by
  have htrimmed : trimmedEnd text = text := by
    rw [trimmedEnd, Text.trimEnd_of_getLast? h (by decide), String.ofList_toList]
  unfold terminate
  simp only [htrimmed]
  rw [h]
  rfl

/-! ## Statements -/

theorem isWord_iff {t : Token} {word : String} : t.isWord word ↔ t.kind = .ident ∧ t.text = word := by
  simp [Token.isWord]

theorem significantAfter_cons {t : Token} (h : t.kind = .ident) (gap : String) (ts : List Token) :
    Token.significantAfter gap (t :: ts) =
      { t with gap := gap ++ t.gap } :: Token.significantAfter "" ts := by
  rw [Token.significantAfter, Token.isTrivia, h]
  rfl

/-- A statement that starts with `export interface` is declared as it stands. -/
theorem statementText?_of_interface (o : CompilerOptions) {s : Statement} {t u : Token}
    {ts : List Token} (h : s.tokens = t :: u :: ts) (ht : t.isWord "export")
    (hu : u.isWord "interface") : statementText? o s = some (terminate s.text) := by
  obtain ⟨htkind, httext⟩ := isWord_iff.1 ht
  obtain ⟨hukind, hutext⟩ := isWord_iff.1 hu
  have hsignificant : s.significant =
      { t with gap := "" ++ t.gap } :: { u with gap := "" ++ u.gap } ::
        Token.significantAfter "" ts := by
    rw [Statement.significant, Token.significant, h, significantAfter_cons htkind,
      significantAfter_cons hukind]
  rw [statementText?, hsignificant]
  simp [Token.isWord, htkind, httext, exportText?, hukind, hutext, Token.isOperator]

theorem exists_dropSemicolon_cons {t : Token} (ht : t.kind ≠ .semicolon) (ts : List Token) :
    ∃ more, dropSemicolon (t :: ts) = t :: more := by
  rw [dropSemicolon]
  split
  · next hlast =>
    cases ts with
    | nil => exact absurd hlast (by simp [ht])
    | cons u ts => exact ⟨(u :: ts).dropLast, List.dropLast_cons_cons⟩
  · exact ⟨ts, rfl⟩

/-- A statement that starts with `export default class` is declared as a class. -/
theorem statementText?_of_class (o : CompilerOptions) {s : Statement} {t u v : Token}
    {ts : List Token} (h : s.tokens = t :: u :: v :: ts) (ht : t.isWord "export")
    (hu : u.isWord "default") (hv : v.isWord "class") :
    statementText? o s = classText? o "export default " (v :: ts) := by
  obtain ⟨htkind, httext⟩ := isWord_iff.1 ht
  obtain ⟨hukind, hutext⟩ := isWord_iff.1 hu
  obtain ⟨hvkind, hvtext⟩ := isWord_iff.1 hv
  have hsignificant : s.significant =
      { t with gap := "" ++ t.gap } :: { u with gap := "" ++ u.gap } ::
        { v with gap := "" ++ v.gap } :: Token.significantAfter "" ts := by
    rw [Statement.significant, Token.significant, h, significantAfter_cons htkind,
      significantAfter_cons hukind, significantAfter_cons hvkind]
  -- a semicolon may be dropped at the end, but not in place of `class`
  obtain ⟨more, hmore⟩ := exists_dropSemicolon_cons (t := { v with gap := "" ++ v.gap })
    (by simp [hvkind]) (Token.significantAfter "" ts)
  have hdrop : Token.dropSignificant 2 s.tokens = v :: ts := by
    rw [h]
    simp [Token.dropSignificant, Token.isTrivia, htkind, hukind, Kind.isTrivia]
  rw [statementText?, hsignificant]
  simp only [Token.isWord, htkind, httext, exportText?, hukind, hutext, Token.isOperator, defaultText?,
    hdrop, List.drop_succ_cons, List.drop_zero, hmore]
  simp [hvtext]

end SvelteTypings.Script
