import SvelteTypings.Proofs.Script.Sequence
import SvelteTypings.Proofs.Text.Trimming
import SvelteTypings.Script.Declaration

/-!
# Lines that head a script

Reference directives are looked for among the blank lines and the lines of a comment that head a
script. A script of such lines alone holds no `;` that is a token (`exists_line_of_semicolon`), so
below a script that holds one no more directives are found (`referenceDirectives_append`). Its
declarations are then followed by those of what stands below (`declarations_append`).
-/

namespace SvelteTypings

namespace Text

variable {c : Char} {cs front rest : List Char} {p : Char → Bool}

/-! ## Lines -/

theorem lines_cons (hc : c ≠ '\n') :
    lines (c :: cs) =
      if c = '\r' ∧ cs.head? = some '\n' then lines cs else consLine c (lines cs) := by
  by_cases hend : c = '\r' ∧ cs.head? = some '\n'
  · obtain ⟨rfl, hhead⟩ := hend
    obtain ⟨cs, rfl⟩ := List.head?_eq_some_iff.1 hhead
    rfl
  · rw [if_neg hend, lines]
    · exact hc
    · rintro cs rfl rfl
      exact hend ⟨rfl, rfl⟩

theorem consLine_append (c : Char) {ls : List (List Char)} (h : ls ≠ []) (ls' : List (List Char)) :
    consLine c (ls ++ ls') = consLine c ls ++ ls' := by
  obtain ⟨l, ls, rfl⟩ := List.exists_cons_of_ne_nil h
  rfl

/-- Lines below a newline do not depend on what stands above it. -/
theorem lines_append (front rest : List Char) :
    lines (front ++ '\n' :: rest) = lines (front ++ ['\n']) ++ lines rest := by
  induction front with
  | nil => rfl
  | cons c front ih =>
    by_cases hc : c = '\n'
    · subst hc
      exact congrArg ([] :: ·) ih
    · have hhead : (front ++ '\n' :: rest).head? = (front ++ ['\n']).head? := by
        cases front <;> rfl
      rw [List.cons_append, List.cons_append, lines_cons hc, lines_cons hc, hhead, ih]
      split
      · rfl
      · exact consLine_append c (fun h => absurd ((lines_eq_nil_iff _).1 h) (by simp)) _

/-! ## Blank lines and comments -/

/-- A blank line, or one with nothing but a line comment. -/
def IsHeading (line : List Char) : Prop := trimStart line = [] ∨ ['/', '/'] <+: trimStart line

/-- Every line is blank or a line comment. -/
def AllHeading (cs : List Char) : Prop := ∀ line ∈ lines cs, IsHeading line

theorem allHeading_nil : AllHeading [] := fun _ h => absurd h (by simp [lines])

theorem isHeading_nil : IsHeading [] := Or.inl rfl

theorem IsHeading.of_cons (h : IsHeading (c :: cs)) (hc : c ≠ '/') : isBlank c ∧ IsHeading cs := by
  rw [IsHeading, trimStart, List.dropWhile_cons] at h
  cases hblank : isBlank c with
  | true =>
    rw [hblank, if_pos rfl] at h
    exact ⟨rfl, h⟩
  | false =>
    rw [hblank, if_neg Bool.false_ne_true] at h
    refine absurd h (not_or.2 ⟨by simp, fun hbegins => ?_⟩)
    exact hc (List.cons_prefix_cons.1 hbegins).1.symm

theorem AllHeading.of_cons (h : AllHeading (c :: cs)) (hc : c ≠ '/') :
    isBlank c ∧ AllHeading cs := by
  by_cases hnewline : c = '\n'
  · subst hnewline
    exact ⟨by decide, fun line hline => h line (List.mem_cons_of_mem _ hline)⟩
  · rw [AllHeading, lines_cons hnewline] at h
    split at h
    · next hend => exact ⟨by rw [hend.1]; decide, h⟩
    · cases hlines : lines cs with
      | nil =>
        rw [hlines] at h
        rw [(lines_eq_nil_iff _).1 hlines]
        exact ⟨((h [c] List.mem_cons_self).of_cons hc).1, allHeading_nil⟩
      | cons line ls =>
        rw [hlines] at h
        obtain ⟨hfirst, hrest⟩ := List.forall_mem_cons.1 h
        obtain ⟨hblank, hline⟩ := hfirst.of_cons hc
        rw [AllHeading, hlines]
        exact ⟨hblank, List.forall_mem_cons.2 ⟨hline, hrest⟩⟩

/-- A run of characters other than `/` can be dropped. -/
theorem AllHeading.dropWhile (h : AllHeading cs) (hp : p '/' = false) :
    AllHeading (cs.dropWhile p) := by
  induction cs with
  | nil => exact h
  | cons c cs ih =>
    rw [List.dropWhile_cons]
    split
    · next hc =>
      have hslash : c ≠ '/' := by
        rintro rfl
        exact absurd hc (by simp [hp])
      exact ih (h.of_cons hslash).2
    · exact h

theorem head?_lines (h : ∃ line ls, lines cs = (c :: line) :: ls) : cs.head? = some c := by
  obtain ⟨line, ls, hlines⟩ := h
  cases cs with
  | nil => exact absurd hlines (by simp [lines])
  | cons d cs =>
    by_cases hd : d = '\n'
    · subst hd
      exact absurd hlines (by simp [lines])
    · rw [lines_cons hd] at hlines
      split at hlines
      · next hend =>
        obtain ⟨cs, rfl⟩ := List.head?_eq_some_iff.1 hend.2
        exact absurd hlines (by simp [lines])
      · cases hrest : lines cs <;> simp_all [consLine]

/-- What stands below the first line. -/
theorem mem_lines_of_dropWhile {line : List Char}
    (h : line ∈ lines (cs.dropWhile (· ≠ '\n'))) : line = [] ∨ line ∈ (lines cs).tail := by
  induction cs with
  | nil => exact absurd h (by simp [lines])
  | cons c cs ih =>
    by_cases hc : c = '\n'
    · subst hc
      rw [List.dropWhile_cons_of_neg (by simp)] at h
      exact List.mem_cons.1 h
    · rw [List.dropWhile_cons_of_pos (by simpa using hc)] at h
      refine (ih h).imp_right fun hline => ?_
      rw [lines_cons hc]
      split
      · exact hline
      · cases hlines : lines cs with
        | nil => rw [hlines] at hline; exact absurd hline (by simp)
        | cons l ls => rw [hlines] at hline; exact hline

/-- A line that starts with `/` is a comment. -/
theorem AllHeading.comment (h : AllHeading ('/' :: cs)) :
    ∃ cs', cs = '/' :: cs' ∧ AllHeading (cs'.dropWhile (· ≠ '\n')) := by
  have hlines : lines ('/' :: cs) = consLine '/' (lines cs) := by
    rw [lines_cons (by decide), if_neg fun hend => absurd hend.1 (by decide)]
  have hhead : cs.head? = some '/' := by
    refine head?_lines ?_
    cases hrest : lines cs with
    | nil =>
      rw [hrest] at hlines
      have hfirst := h ['/'] (by rw [hlines]; exact List.mem_cons_self)
      exact absurd hfirst (not_or.2 ⟨by decide, by decide⟩)
    | cons line ls =>
      rw [hrest] at hlines
      have hfirst := h ('/' :: line) (by rw [hlines]; exact List.mem_cons_self)
      rw [IsHeading, trimStart, List.dropWhile_cons_of_neg (by decide)] at hfirst
      have hslash := (List.cons_prefix_cons.1 (hfirst.resolve_left (by simp))).2
      obtain ⟨line, rfl⟩ := hslash
      exact ⟨line, ls, rfl⟩
  obtain ⟨cs', rfl⟩ := List.head?_eq_some_iff.1 hhead
  refine ⟨cs', rfl, fun line hline => ?_⟩
  have hdrop : ('/' :: cs').dropWhile (· ≠ '\n') = cs'.dropWhile (· ≠ '\n') :=
    List.dropWhile_cons_of_pos (by decide)
  rw [← hdrop] at hline
  rcases mem_lines_of_dropWhile hline with rfl | hline
  · exact isHeading_nil
  · refine h line ?_
    rw [hlines]
    cases hrest : lines ('/' :: cs') with
    | nil => rw [hrest] at hline; exact absurd hline (by simp)
    | cons l ls => rw [hrest] at hline; exact List.mem_cons_of_mem _ hline

end Text

namespace Script

open Text (AllHeading isBlank)

namespace Lexeme

variable {c : Char} {cs : List Char} {p : Char → Bool} {cls : LexemeClass} {n : Nat}

theorem drop_runLength (p : Char → Bool) (cs : List Char) :
    cs.drop (runLength p cs) = cs.dropWhile p := by
  calc cs.drop (runLength p cs)
      = (cs.takeWhile p ++ cs.dropWhile p).drop (runLength p cs) := by
        rw [List.takeWhile_append_dropWhile]
    _ = cs.dropWhile p := List.drop_left

/-- A blank starts no `;`, and takes with it a run that no `/` belongs to. -/
theorem Classifies.of_isBlank (h : Classifies c cs cls n) (hc : isBlank c) :
    cls ≠ .token .semicolon ∧ ∃ p : Char → Bool, p '/' = false ∧ n = runLength p cs := by
  have hnone : 0 = runLength (fun _ => false) cs := by cases cs <;> rfl
  cases h with
  | run hr =>
    have hruns : ∀ r ∈ runClasses, r.cls ≠ .token .semicolon ∧ r.rest '/' = false := by decide
    exact ⟨(hruns _ hr).1, _, (hruns _ hr).2, rfl⟩
  | number hdigit =>
    have hprintable := Text.isBlank_of_isAlphanum (c := c) (by simp [Char.isAlphanum, hdigit])
    exact absurd hc (by simp [hprintable])
  | lineComment hslash => exact absurd hc (by rw [hslash]; decide)
  | blockComment hslash => exact absurd hc (by rw [hslash]; decide)
  | literal hquote =>
    have hquotes : ∀ q ∈ quotes, ¬ isBlank q.1 := by decide
    exact absurd hc (hquotes (c, _) hquote)
  | unclosed hquote =>
    have hquotes : ∀ q ∈ quotes, ¬ isBlank q.1 := by decide
    exact absurd hc (hquotes (c, _) hquote)
  | single hsingle =>
    have hsingles : ∀ s ∈ singles, isBlank s.1 → LexemeClass.token s.2 ≠ .token .semicolon := by
      decide
    exact ⟨hsingles _ hsingle hc, _, rfl, hnone⟩
  | mark hmark =>
    have hmarks : ∀ m ∈ marks, m.1.head?.all (!isBlank ·) := by decide
    exact absurd hc (by simpa using hmarks (c :: _, _) hmark)
  | control => exact ⟨by simp, _, rfl, hnone⟩

/-- Blank lines and line comments hold no `;` outside them. -/
theorem cls_of_allHeading (h : AllHeading cs) : ∀ l ∈ read cs, l.cls ≠ .token .semicolon := by
  fun_induction read cs with
  | case1 => exact fun _ hl => absurd hl List.not_mem_nil
  | case2 c cs cls n hclassify ih =>
    by_cases hc : c = '/'
    · subst hc
      obtain ⟨cs', rfl, hrest⟩ := h.comment
      have hcomment : classify '/' ('/' :: cs') =
          (.token .lineComment, 1 + runLength (· ≠ '\n') cs') := rfl
      obtain ⟨rfl, rfl⟩ := Prod.mk.inj (hclassify.symm.trans hcomment)
      rw [Nat.add_comm, List.drop_succ_cons, drop_runLength] at ih ⊢
      exact List.forall_mem_cons.2 ⟨by simp, ih hrest⟩
    · obtain ⟨hblank, hcs⟩ := h.of_cons hc
      obtain ⟨hcls, p, hp, rfl⟩ := (classifies_iff.2 hclassify).of_isBlank hblank
      refine List.forall_mem_cons.2 ⟨hcls, ih ?_⟩
      rw [drop_runLength]
      exact hcs.dropWhile hp

theorem exists_lexeme_of_mem {gap : List Char} {ls : List Lexeme} {t : Token}
    (h : t ∈ tokensAfter gap ls) : ∃ l ∈ ls, l.cls = .token t.kind := by
  induction ls generalizing gap with
  | nil => exact absurd h List.not_mem_nil
  | cons l ls ih =>
    obtain ⟨cls, x⟩ := l
    have hlater : ∀ {gap}, t ∈ tokensAfter gap ls →
        ∃ l ∈ (⟨cls, x⟩ :: ls : List Lexeme), l.cls = .token t.kind := fun hmem => by
      obtain ⟨l, hl, hcls⟩ := ih hmem
      exact ⟨l, List.mem_cons_of_mem _ hl, hcls⟩
    cases cls with
    | token k =>
      rcases List.mem_cons.1 h with rfl | h
      · exact ⟨_, List.mem_cons_self, rfl⟩
      · exact hlater h
    | blank => exact hlater h
    | stray => exact hlater h

end Lexeme

/-! ## Reference directives -/

variable {a : String} {t : Token}

/-- A line that may stand above a reference directive. -/
def isHeadingLine (line : String) : Bool := line.isEmpty || lineStarts "//" line

theorem isHeading_of_isHeadingLine {line : List Char}
    (h : isHeadingLine (trimmed (String.ofList line))) : Text.IsHeading line := by
  have htext : (trimmed (String.ofList line)).toList = Text.trimEnd (Text.trimStart line) := by
    rw [trimmed, String.toList_ofList, String.toList_ofList, Text.trim]
  rcases Bool.or_eq_true_iff.1 h with hempty | hstarts
  · rw [String.isEmpty_iff.1 hempty, String.toList_empty] at htext
    cases hstart : Text.trimStart line with
    | nil => exact Or.inl hstart
    | cons c cs =>
      rw [hstart] at htext
      have hfirst := List.head?_dropWhile_not isBlank line
      rw [← Text.trimStart, hstart] at hfirst
      exact absurd htext.symm (Text.trimEnd_cons_ne_nil (by simpa using hfirst) cs)
  · have hbegins := List.isPrefixOf_iff_prefix.1 hstarts
    rw [htext] at hbegins
    exact Or.inr (hbegins.trans (Text.trimEnd_isPrefixOf_self _))

/-- A line that starts with something else than a blank or `/` heads no script. -/
theorem referenceDirectives_eq_nil {source : String} {c : Char} {cs : List Char}
    (hsource : source.toList = c :: cs) (hc : Text.isBlank c = false) (hslash : c ≠ '/') :
    referenceDirectives source = [] := by
  have hnewline : c ≠ '\n' := by
    rintro rfl
    exact absurd hc (by decide)
  have hreturn : ¬ (c = '\r' ∧ cs.head? = some '\n') := by
    rintro ⟨rfl, -⟩
    exact absurd hc (by decide)
  obtain ⟨line, ls, hlines⟩ : ∃ line ls, Text.lines source.toList = (c :: line) :: ls := by
    rw [hsource, Text.lines_cons hnewline, if_neg hreturn]
    cases Text.lines cs with
    | nil => exact ⟨[], [], rfl⟩
    | cons line ls => exact ⟨line, ls, rfl⟩
  have hheading : isHeadingLine (trimmed (String.ofList (c :: line))) = false := by
    refine Bool.eq_false_iff.2 fun h => hslash ?_
    have hline := isHeading_of_isHeadingLine h
    rw [Text.IsHeading, Text.trimStart, List.dropWhile_cons_of_neg (by simp [hc])] at hline
    exact (List.cons_prefix_cons.1 (hline.resolve_left (by simp))).1.symm
  show (((linesOf source).map trimmed).takeWhile isHeadingLine).filter _ = []
  rw [linesOf, hlines, List.map_cons, List.map_cons,
    List.takeWhile_cons_of_neg (by rw [hheading]; exact Bool.false_ne_true), List.filter_nil]

/-- A script with a `;` has a line that no reference directive may stand below. -/
theorem exists_line_of_semicolon (h : t ∈ tokenize a) (ht : t.kind = .semicolon) :
    ∃ line ∈ (linesOf a).map trimmed, isHeadingLine line = false := by
  obtain ⟨l, hl, hcls⟩ := Lexeme.exists_lexeme_of_mem h
  have hnot : ¬ AllHeading a.toList := fun hall =>
    Lexeme.cls_of_allHeading hall l hl (by rw [hcls, ht])
  rw [Text.AllHeading] at hnot
  obtain ⟨line, hnot⟩ := Classical.not_forall.1 hnot
  obtain ⟨hline, hheading⟩ := Classical.not_imp.1 hnot
  refine ⟨trimmed (String.ofList line), List.mem_map_of_mem (List.mem_map_of_mem hline), ?_⟩
  exact Bool.eq_false_iff.2 fun h => hheading (isHeading_of_isHeadingLine h)

theorem linesOf_append (h : endsInNewline a) (b : String) :
    linesOf (a ++ b) = linesOf a ++ linesOf b := by
  obtain ⟨ls, -, htext⟩ := exists_read_of_newline h
  rw [linesOf, linesOf, linesOf, String.toList_append, ← List.map_append, htext, List.append_assoc]
  exact congrArg _ (Text.lines_append _ _)

/-- **Only the directives at the top count.** -/
theorem referenceDirectives_append (h : IsConcluded a) (b : String) :
    referenceDirectives (a ++ b) = referenceDirectives a := by
  obtain ⟨before, t, after, htokens, ht, -⟩ := endsInSemicolon_iff.1 h.semicolon
  have hmem : t ∈ tokenize a := htokens ▸ List.mem_append_right _ List.mem_cons_self
  obtain ⟨line, hline, hheading⟩ := exists_line_of_semicolon hmem ht
  have hlength : (((linesOf a).map trimmed).takeWhile isHeadingLine).length ≠
      ((linesOf a).map trimmed).length := by
    intro heq
    have hall := (List.takeWhile_prefix isHeadingLine).eq_of_length heq
    have hmem : line ∈ ((linesOf a).map trimmed).takeWhile isHeadingLine := by
      rw [hall]
      exact hline
    exact absurd (List.all_eq_true.1 List.all_takeWhile line hmem) (by simp [hheading])
  show (((linesOf (a ++ b)).map trimmed).takeWhile isHeadingLine).filter _ =
    (((linesOf a).map trimmed).takeWhile isHeadingLine).filter _
  rw [linesOf_append h.newline, List.map_append, List.takeWhile_append, if_neg hlength]

/-! ## Declarations -/

/-- What a script declares, one text a statement. -/
def declared (o : CompilerOptions) (source : String) : List String :=
  (scan source).filterMap (declaration? o)

/-- Declarations as a file has them. -/
def orPlaceholder : List String → List String
  | [] => [placeholder]
  | texts => texts

theorem declarations_eq (o : CompilerOptions) (source : String) :
    declarations o source =
      joinLines (referenceDirectives source ++ orPlaceholder (declared o source)) ++ "\n" := by
  rw [declarations, declarationLines, declared]
  cases (scan source).filterMap (declaration? o) <;> rfl

/-- What each of two scripts declares does not depend on the other. -/
theorem declared_append (h : IsConcluded a) (o : CompilerOptions) (b : String) :
    declared o (a ++ b) = declared o a ++ declared o b := by
  rw [declared, scan_append h, List.filterMap_append, declared, declared]

/-- **Scripts below each other are declared independently.** After a script that ends in a newline
and, newlines and line comments apart, in a `;` outside brackets, what stands below is read, split
and declared as it is alone; the tokens and statements only stand further down. The file is headed
by the directives of the first script, and has the placeholder if neither declares anything. -/
theorem append_of_isConcluded (h : IsConcluded a) (b : String) :
    tokenize (a ++ b) = tokenize a ++ tokenize b ∧
      Token.places (tokenize (a ++ b)) =
        Token.places (tokenize a) ++ (Token.places (tokenize b)).map (placeBelow a.utf8ByteSize) ∧
      scan (a ++ b) = scan a ++ scan b ∧
      placedScan (a ++ b) =
        placedScan a ++ (placedScan b).map (Statement.map (Token.below a)) ∧
      ∀ o, declarations o (a ++ b) =
        joinLines (referenceDirectives a ++ orPlaceholder (declared o a ++ declared o b)) ++
          "\n" := by
  refine ⟨tokenize_append h.newline b, places_tokenize_append h.newline b, scan_append h b,
    placedScan_append h b, fun o => ?_⟩
  rw [declarations_eq, referenceDirectives_append h, declared_append h]

/-- A script with a bracket in a template and a comment below its last `;`. -/
def upperScript : String :=
  "/// <reference types=\"x\" />\n/** What */\nexport const t = `(\n`; // [\n\n"

/-- A script whose first line would continue a statement. -/
def lowerScript : String :=
  "(0);\n/// <reference types=\"y\" />\nexport class C \x7b n = 1\n m() \x7b\x7d \x7d\n"

theorem append_upperScript : IsConcluded upperScript ∧
    declarations {} (upperScript ++ lowerScript) =
      "/// <reference types=\"x\" />\n/** What */\nexport declare const t: string;\n" ++
        "export declare class C \x7b\n    n: number;\n    m(): void;\n\x7d\n" := by
  have h : IsConcluded upperScript := by
    constructor
    · rw [endsInNewline, upperScript, String.toList_ofList]
      decide +kernel
    · rw [upperScript, tokenize_ofList]
      decide +kernel
  refine ⟨h, ?_⟩
  rw [(append_of_isConcluded h lowerScript).2.2.2.2]
  unfold referenceDirectives declared scan linesOf upperScript lowerScript
  rw [tokenize_ofList, tokenize_ofList, String.toList_ofList]
  decide +kernel

end Script

end SvelteTypings
