import SvelteTypings.Proofs.Script.Composition
import SvelteTypings.Proofs.Script.Heading

/-!
# Comments in declarations

A declaration file has two kinds of comments: the reference directives of the script, and the
documentation of statements and members with its lines moved to their indent. Either is a line, or
lines, of its own (`IsLine`): a documentation comment ends where it did, as no line of it is put
together with another.
-/

namespace SvelteTypings

namespace Text

variable {c d : Char} {cs l : List Char} {ls : List (List Char)}

/-- The first line starts like the text. -/
theorem head?_of_lines (h : lines cs = l :: ls) (hd : l.head? = some d) : cs.head? = some d := by
  cases cs with
  | nil => exact absurd h (by simp [lines])
  | cons c cs =>
    by_cases hc : c = '\n'
    · subst hc
      obtain rfl := (List.cons.inj h).1
      exact absurd hd (by simp)
    · rw [lines_cons hc] at h
      split at h
      · next hend =>
        obtain ⟨cs, rfl⟩ := List.head?_eq_some_iff.1 hend.2
        obtain rfl := (List.cons.inj h).1
        exact absurd hd (by simp)
      · have hl : l.head? = some c := by
          cases hlines : lines cs <;> rw [hlines] at h <;> rw [← (List.cons.inj h).1] <;> rfl
        rw [← hd, hl]
        rfl

end Text

namespace Script

open Lexeme

variable {text : String} {t : Token} {ts us : List Token} {c : Char} {cs rest x y : List Char}
  {ls : List (List Char)}

/-! ## Ends of comments -/

/-- No comment ends in the text. -/
def IsInside (cs : List Char) : Prop := ¬ ['*', '/'] <:+: cs

namespace IsInside

theorem nil : IsInside [] := by simp [IsInside]

theorem cons_iff : IsInside (c :: cs) ↔ ¬ (c = '*' ∧ cs.head? = some '/') ∧ IsInside cs := by
  rw [IsInside, IsInside, List.infix_cons_iff, not_or]
  refine and_congr_left fun _ => not_congr ?_
  cases cs with
  | nil => simp
  | cons d cs => simp [eq_comm]

theorem of_isInfix (h : IsInside cs) (hx : x <:+: cs) : IsInside x :=
  fun hend => h (hend.trans hx)

/-- No end of a comment goes over a character that is not part of it. -/
theorem append_cons (hx : IsInside x) (hc : c ≠ '*' ∧ c ≠ '/') (hy : IsInside y) :
    IsInside (x ++ c :: y) := by
  induction x with
  | nil => exact cons_iff.2 ⟨fun h => hc.1 h.1, hy⟩
  | cons d x ih =>
    obtain ⟨hstart, hx⟩ := cons_iff.1 hx
    rw [List.cons_append]
    refine cons_iff.2 ⟨?_, ih hx⟩
    rintro ⟨rfl, hhead⟩
    cases x with
    | nil => exact hc.2 (by simpa using hhead)
    | cons e x => exact hstart ⟨rfl, hhead⟩

theorem gaps_append (h : ∀ c ∈ x, isGap c) (hy : IsInside y) : IsInside (x ++ y) := by
  induction x with
  | nil => exact hy
  | cons c x ih =>
    obtain ⟨hc, hx⟩ := List.forall_mem_cons.1 h
    refine cons_iff.2 ⟨?_, ih hx⟩
    rintro ⟨rfl, -⟩
    exact absurd hc (by decide)

/-- A comment ends at its end. -/
theorem blockLength (h : IsInside x) (rest : List Char) :
    blockLength (x ++ '*' :: '/' :: rest) = x.length + 2 := by
  induction x with
  | nil => rfl
  | cons c x ih =>
    obtain ⟨hstart, hx⟩ := cons_iff.1 h
    rw [List.cons_append, Lexeme.blockLength, ih hx, List.length_cons]
    · rintro tail rfl htail
      cases x with
      | nil => exact absurd (List.cons.inj htail).1 (by decide)
      | cons d x => exact hstart ⟨rfl, by rw [(List.cons.inj htail).1]; rfl⟩

end IsInside

theorem blockLength_le_of_end (x y : List Char) :
    Lexeme.blockLength (x ++ '*' :: '/' :: y) ≤ x.length + 2 := by
  induction x with
  | nil => exact Nat.le_refl _
  | cons c x ih =>
    rw [List.cons_append, Lexeme.blockLength.eq_def, List.length_cons]
    split
    · omega
    · next heq =>
      obtain ⟨-, rfl⟩ := List.cons.inj heq
      omega
    · omega

/-- The last of the lines ends a comment, which does not end before. -/
inductive ClosesIn : List (List Char) → Prop where
  | last {x : List Char} (hx : IsInside x) : ClosesIn [x ++ ['*', '/']]
  | cons {x : List Char} {ls : List (List Char)} (hx : IsInside x) (hls : ClosesIn ls) :
      ClosesIn (x :: ls)

theorem closesIn_lines (h : IsInside x) : ClosesIn (Text.lines (x ++ ['*', '/'])) := by
  induction x with
  | nil => exact .last .nil
  | cons c x ih =>
    obtain ⟨hstart, hx⟩ := IsInside.cons_iff.1 h
    have hih := ih hx
    by_cases hc : c = '\n'
    · subst hc
      exact .cons .nil hih
    · rw [List.cons_append, Text.lines_cons hc]
      split
      · exact hih
      · have hline : ∀ l ls, Text.lines (x ++ ['*', '/']) = l :: ls → ¬ (c = '*' ∧ l.head? = some '/') := by
          rintro l ls hl ⟨rfl, hhead⟩
          refine hstart ⟨rfl, ?_⟩
          have htext := Text.head?_of_lines hl hhead
          cases x with
          | nil => exact absurd htext (by decide)
          | cons d x => exact htext
        generalize Text.lines (x ++ ['*', '/']) = lines at hih hline
        cases hih with
        | @last y hy =>
          refine .last (x := c :: y) (IsInside.cons_iff.2 ⟨?_, hy⟩)
          rintro ⟨rfl, hhead⟩
          refine hline _ [] rfl ⟨rfl, ?_⟩
          rw [List.head?_append, hhead]
          rfl
        | @cons y ls hy hls => exact .cons (IsInside.cons_iff.2 ⟨hline y ls rfl, hy⟩) hls

/-- Lines may be trimmed and moved. -/
theorem ClosesIn.reindent (h : ClosesIn ls) {f : List Char → List Char}
    (hf : ∀ l, ∃ gaps, (∀ c ∈ gaps, isGap c) ∧ f l = gaps ++ Text.trim l) : ClosesIn (ls.map f) := by
  induction h with
  | @last x hx =>
    obtain ⟨gaps, hgaps, hline⟩ := hf (x ++ ['*', '/'])
    have hstart : Text.trimStart (x ++ ['*', '/']) = Text.trimStart x ++ ['*', '/'] := by
      rw [Text.trimStart, List.dropWhile_append]
      split
      · next hempty => rw [Text.trimStart, List.isEmpty_iff.1 hempty]; rfl
      · rfl
    have htrim : Text.trim (x ++ ['*', '/']) = Text.trimStart x ++ ['*', '/'] := by
      rw [Text.trim, hstart]
      exact Text.trimEnd_of_getLast? (d := '/') (by simp) (by decide)
    have hy : IsInside (Text.trimStart x) := hx.of_isInfix (List.dropWhile_suffix _).isInfix
    rw [List.map_cons, List.map_nil, hline, htrim, ← List.append_assoc]
    exact .last (hy.gaps_append hgaps)
  | @cons x ls hx hls ih =>
    obtain ⟨gaps, hgaps, hline⟩ := hf x
    rw [List.map_cons, hline]
    exact .cons ((hx.of_isInfix (Text.trim_isInfix x)).gaps_append hgaps) ih

/-- Lines that are joined end the comment where the last one does. -/
theorem ClosesIn.exists_joinLines {lines : List String} (h : ClosesIn (lines.map String.toList)) :
    ∃ inside, IsInside inside ∧ (joinLines lines).toList = inside ++ ['*', '/'] := by
  induction lines with
  | nil => cases h
  | cons line lines ih =>
    rw [List.map_cons] at h
    cases hmap : lines.map String.toList with
    | nil =>
      obtain rfl := List.map_eq_nil_iff.1 hmap
      rw [hmap] at h
      generalize hline : line.toList = l at h
      cases h with
      | @last x hx => exact ⟨x, hx, hline⟩
      | cons _ hls => cases hls
    | cons l ls =>
      rw [hmap] at h ih
      generalize hline : line.toList = l' at h
      cases h with
      | @cons _ _ hx hls =>
        obtain ⟨inside, hinside, hjoin⟩ := ih hls
        have hne : lines ≠ [] := by
          rintro rfl
          exact absurd hmap (by simp)
        refine ⟨line.toList ++ '\n' :: inside, ?_, ?_⟩
        · rw [hline]
          exact hx.append_cons (by decide) hinside
        · rw [joinLines, String.intercalate_cons_of_ne_nil hne, String.toList_append,
            String.toList_append, ← joinLines, hjoin, List.append_assoc, List.append_assoc]
          rfl

/-! ## Lines of their own -/

/-- The brackets of the text are matched, if a newline follows. -/
def IsLine (text : String) : Prop :=
  ∃ us, isMatched us ∧
    ∀ rest, bracketsIn (text.toList ++ '\n' :: rest) = bracketsOf us ++ bracketsIn ('\n' :: rest)

theorem IsPaired.isLine (h : IsPaired text) : IsLine text := by
  obtain ⟨us, hus, htext⟩ := h
  exact ⟨us, hus, fun rest => htext _ rfl⟩

theorem bracketsIn_newline (cs : List Char) : bracketsIn ('\n' :: cs) = bracketsIn cs :=
  bracketsIn_of_punctuation (k := .newline) rfl

/-- A line may stand above a text. -/
theorem IsLine.append (h : IsLine text) {below : String} (hbelow : IsPaired below) :
    IsPaired (text ++ "\n" ++ below) := by
  obtain ⟨us, hus, htext⟩ := h
  obtain ⟨vs, hvs, hbelow⟩ := hbelow
  refine ⟨us ++ vs, isMatched_append hus hvs, fun rest hrest => ?_⟩
  have hsplit : (text ++ "\n" ++ below).toList ++ rest =
      text.toList ++ '\n' :: (below.toList ++ rest) := by simp
  rw [hsplit, htext, bracketsIn_newline, hbelow rest hrest, bracketsOf_append, List.append_assoc]

/-- Lines below each other are matched if each of them is. -/
theorem isPairedAnywhere_unlines {lines : List String} (h : ∀ line ∈ lines, IsLine line) :
    IsPairedAnywhere (unlines lines) := by
  induction lines with
  | nil => exact ⟨[], rfl, fun _ => rfl⟩
  | cons line lines ih =>
    obtain ⟨hline, hlines⟩ := List.forall_mem_cons.1 h
    obtain ⟨us, hus, htext⟩ := hline
    obtain ⟨vs, hvs, hbelow⟩ := ih hlines
    refine ⟨us ++ vs, isMatched_append hus hvs, fun rest => ?_⟩
    have hsplit : (unlines (line :: lines)).toList ++ rest =
        line.toList ++ '\n' :: ((unlines lines).toList ++ rest) := by
      rw [unlines_cons]
      simp
    rw [hsplit, htext, bracketsIn_newline, hbelow rest, bracketsOf_append, List.append_assoc]

theorem isMatched_tokenize (h : IsPairedAnywhere text) : isMatched (tokenize text) := by
  obtain ⟨us, hus, htext⟩ := h
  have hall := htext []
  rw [List.append_nil, ← bracketsOf_tokenize, bracketsIn_nil, List.append_nil] at hall
  rwa [isMatched_congr hall]

/-! ### Comments -/

theorem isLine_of_lineComment (h : text.toList = '/' :: '/' :: cs) (hcs : '\n' ∉ cs) : IsLine text := by
  refine ⟨[], rfl, fun rest => ?_⟩
  have hclassify : classify '/' (('/' :: cs) ++ '\n' :: rest) =
      (.token .lineComment, ('/' :: cs).length) := by
    have hrun : runLength (· ≠ '\n') (cs ++ '\n' :: rest) = cs.length :=
      runLength_of_all (fun x hx => by simpa using ne_of_mem_of_not_mem hx hcs) (by decide)
    show (LexemeClass.token Kind.lineComment, 1 + runLength (· ≠ '\n') (cs ++ '\n' :: rest)) = _
    rw [hrun, List.length_cons, Nat.add_comm]
  rw [h, List.cons_append, ← List.cons_append]
  exact bracketsIn_of_classify hclassify

theorem newline_not_mem_lines (h : x ∈ Text.lines cs) : '\n' ∉ x := by
  fun_induction Text.lines cs generalizing x with
  | case1 => exact absurd h List.not_mem_nil
  | case2 cs ih =>
    rcases List.mem_cons.1 h with rfl | h
    · exact List.not_mem_nil
    · exact ih h
  | case3 cs ih =>
    rcases List.mem_cons.1 h with rfl | h
    · exact List.not_mem_nil
    · exact ih h
  | case4 c cs hnewline _ ih =>
    generalize Text.lines cs = ls at h ih
    have hc : '\n' ≠ c := fun hc => hnewline hc.symm
    cases ls with
    | nil =>
      obtain rfl : x = [c] := by simpa [Text.consLine] using h
      simpa using hc
    | cons l ls =>
      rcases List.mem_cons.1 h with rfl | h
      · exact List.not_mem_cons_of_ne_of_not_mem hc (ih List.mem_cons_self)
      · exact ih (List.mem_cons_of_mem _ h)

/-- A reference directive is a line comment. -/
theorem isLine_of_mem_referenceDirectives {source line : String}
    (h : line ∈ referenceDirectives source) : IsLine line := by
  obtain ⟨hmem, hstarts⟩ := List.mem_filter.1 h
  obtain ⟨line', hline', rfl⟩ := List.mem_map.1 ((List.takeWhile_sublist _).subset hmem)
  obtain ⟨l, hl, rfl⟩ := List.mem_map.1 hline'
  obtain ⟨cs, hcs⟩ := List.isPrefixOf_iff_prefix.1 hstarts
  have htext : (trimmed (String.ofList l)).toList = '/' :: '/' :: ("/ <reference".toList ++ cs) :=
    hcs.symm
  refine isLine_of_lineComment htext fun hnewline => newline_not_mem_lines hl ?_
  apply (Text.trim_isInfix l).subset
  rw [trimmed, String.toList_ofList, String.toList_ofList] at htext
  rw [htext]
  exact List.mem_cons_of_mem _ (List.mem_cons_of_mem _ hnewline)

/-- The text is a block comment, to its end. -/
def IsBlockComment (text : String) : Prop :=
  ∃ inside, IsInside inside ∧ text.toList = '/' :: '*' :: (inside ++ ['*', '/'])

/-- A comment that is closed ends at its first end. -/
theorem exists_inside_of_blockLength (hlength : Lexeme.blockLength (cs ++ rest) = cs.length)
    (hclosed : ['*', '/'] <:+ cs) : ∃ inside, IsInside inside ∧ cs = inside ++ ['*', '/'] := by
  obtain ⟨inside, rfl⟩ := hclosed
  refine ⟨inside, ?_, rfl⟩
  rintro ⟨front, behind, rfl⟩
  have hle := blockLength_le_of_end front (behind ++ ['*', '/'] ++ rest)
  simp at hlength hle
  omega

/-- A block comment that another token follows is closed. -/
theorem isBlockComment_of_tokenize {source : String} {front behind : List Token}
    (h : tokenize source = front ++ t :: behind) (hbehind : behind ≠ [])
    (hkind : t.kind = .blockComment) : IsBlockComment t.text := by
  rw [tokenize, tokensAfter_eq] at h
  obtain ⟨ls₁, ls₂, gap, hread, -, hrest, -⟩ := exists_of_tokensExcept_eq_append h
  obtain ⟨ls₃, l, ls, rfl, hl, htext, hls⟩ := exists_of_tokensExcept_eq_cons hrest
  have hread' : read source.toList = ls₁ ++ ls₃ ++ (l :: ls) := by rw [hread, List.append_assoc]
  have hself := read_flatMap_text hread'
  have hcls : l.cls = .token .blockComment := by
    rcases kept?_cases (fun _ => false) l with ⟨k, hcls, -, hkept⟩ | ⟨hnone, -⟩
    · rw [hcls, ← hkind, ← Option.some.inj (hkept.symm.trans hl)]
    · exact absurd (hl.symm.trans hnone) (by simp)
  cases hcs : (l :: ls).flatMap (·.text) with
  | nil => exact absurd (hcs ▸ hself) (by simp [read_nil])
  | cons c cs =>
    rw [hcs, read_cons] at hself
    obtain ⟨rfl, hbelow⟩ := List.cons.inj hself
    have hread := classify_take c cs
    dsimp only at hcls
    rw [hcls] at hread
    obtain ⟨vs, rfl, htake, hlength, hclosed⟩ := leaves_of_classify hread
    have hxs : cs.drop (classify '/' cs).2 ≠ [] := by
      intro hnil
      rw [hnil, read_nil] at hbelow
      rw [← hbelow] at hls
      exact hbehind hls.symm
    obtain ⟨inside, hinside, rfl⟩ := exists_inside_of_blockLength hlength (hclosed hxs)
    exact ⟨inside, hinside, by rw [htext, htake, String.toList_ofList]⟩

/-- The documentation of a statement is a comment of its own. -/
theorem isBlockComment_of_doc {source : String} {s : Statement} {doc : String}
    (hts : ts <:+: tokenize source) (hs : s ∈ splitStatements ts) (hdoc : s.doc = some doc) :
    IsBlockComment doc := by
  obtain ⟨stretches, rest, hsplit, hcuts, -⟩ := splitStatements_cutsInto ts
  rw [hsplit] at hs
  obtain ⟨stretch, hstretch, rfl⟩ := List.mem_map.1 hs
  have hcut := hcuts.cut stretch hstretch
  rw [hcut.doc, lastDoc?] at hdoc
  obtain ⟨t, ht, rfl⟩ := Option.map_eq_some_iff.1 hdoc
  have hisDoc : isDoc t := List.find?_some ht
  have hkind : t.kind = .blockComment := by
    rw [isDoc, Bool.and_eq_true_iff, decide_eq_true_eq] at hisDoc
    exact hisDoc.1
  obtain ⟨front, behind, hbefore⟩ :=
    List.append_of_mem (List.mem_reverse.1 (List.mem_of_find?_eq_some ht))
  obtain ⟨first, hfirst, -⟩ := hcut.first
  obtain ⟨more, hmore⟩ := List.head?_eq_some_iff.1 hfirst
  obtain ⟨above, below, hflat⟩ := List.append_of_mem hstretch
  obtain ⟨above', below', hsource⟩ := hts
  have htokens : tokenize source = above' ++ above.flatMap Stretch.tokens ++ front ++ t ::
      (behind ++ first :: more ++ stretch.after ++ below.flatMap Stretch.tokens ++ rest ++ below') := by
    rw [← hsource, hcuts.tokens, hflat, List.flatMap_append, List.flatMap_cons, Stretch.tokens, hbefore,
      hmore]
    simp
  exact isBlockComment_of_tokenize htokens (by simp) hkind

/-- A line of documentation, trimmed and moved. -/
def reindentLine (indent line : List Char) : List Char :=
  (if (Text.trim line).head? = some '*' then indent ++ [' '] else indent) ++ Text.trim line

theorem toList_reindentDoc (indent doc : String) :
    ∃ lines : List String, reindentDoc indent doc = joinLines lines ∧
      lines.map String.toList = (Text.lines doc.toList).map (reindentLine indent.toList) := by
  refine ⟨_, rfl, ?_⟩
  rw [linesOf, List.map_map, List.map_map]
  refine List.map_congr_left fun line _ => ?_
  rw [Function.comp, Function.comp, trimmed, String.toList_ofList]
  dsimp only
  rw [String.toList_ofList, reindentLine]
  split <;> simp

theorem exists_gaps_reindentLine {indent : List Char} (hindent : ∀ c ∈ indent, isGap c)
    (line : List Char) :
    ∃ gaps, (∀ c ∈ gaps, isGap c) ∧ reindentLine indent line = gaps ++ Text.trim line := by
  refine ⟨_, ?_, rfl⟩
  split
  · intro c hc
    rcases List.mem_append.1 hc with hc | hc
    · exact hindent c hc
    · rw [List.mem_singleton.1 hc]
      rfl
  · exact hindent

theorem reindentLine_first (indent x : List Char) :
    reindentLine indent ('/' :: '*' :: x) = indent ++ '/' :: '*' :: Text.trimEnd x := by
  have htrim : Text.trim ('/' :: '*' :: x) = '/' :: '*' :: Text.trimEnd x := by
    rw [Text.trim, Text.trimStart, List.dropWhile_cons_of_neg (by decide), Text.trimEnd_cons (by decide),
      Text.trimEnd_cons (by decide)]
  rw [reindentLine, htrim, if_neg (by simp)]

/-- Documentation that is moved is still one comment. -/
theorem exists_inside_reindentDoc {doc indent : String} (h : IsBlockComment doc)
    (hindent : ∀ c ∈ indent.toList, isGap c) :
    ∃ inside, IsInside inside ∧
      (reindentDoc indent doc).toList = indent.toList ++ '/' :: '*' :: (inside ++ ['*', '/']) := by
  obtain ⟨inside, hinside, hdoc⟩ := h
  obtain ⟨lines, hjoin, hmap⟩ := toList_reindentDoc indent doc
  rw [hdoc, Text.lines_cons (by decide), if_neg (by simp), Text.lines_cons (by decide),
    if_neg (by simp)] at hmap
  have hcloses := closesIn_lines hinside
  generalize Text.lines (inside ++ ['*', '/']) = ls at hmap hcloses
  rw [hjoin]
  cases hcloses with
  | @last x hx =>
    have htrim : Text.trimEnd (x ++ ['*', '/']) = x ++ ['*', '/'] :=
      Text.trimEnd_of_getLast? (d := '/') (by simp) (by decide)
    rw [Text.consLine, Text.consLine, List.map_cons, reindentLine_first, htrim] at hmap
    obtain ⟨line, lines, rfl, hline, hlines⟩ := List.map_eq_cons_iff.1 hmap
    obtain rfl := List.map_eq_nil_iff.1 hlines
    exact ⟨x, hx, hline⟩
  | @cons x ls hx hls =>
    rw [Text.consLine, Text.consLine, List.map_cons, reindentLine_first] at hmap
    obtain ⟨line, lines, rfl, hline, hlines⟩ := List.map_eq_cons_iff.1 hmap
    have hbelow := hls.reindent (exists_gaps_reindentLine hindent)
    rw [← hlines] at hbelow
    obtain ⟨below, hinside, hbelow'⟩ := hbelow.exists_joinLines
    have hne : lines ≠ [] := by
      rintro rfl
      cases hbelow
    have hx' : IsInside (Text.trimEnd x) := hx.of_isInfix (Text.trimEnd_isPrefixOf_self x).isInfix
    refine ⟨Text.trimEnd x ++ '\n' :: below, hx'.append_cons (by decide) hinside, ?_⟩
    rw [joinLines, String.intercalate_cons_of_ne_nil hne, String.toList_append, String.toList_append,
      ← joinLines, hline, hbelow']
    simp

theorem isLine_reindentDoc {doc indent : String} (h : IsBlockComment doc)
    (hindent : ∀ c ∈ indent.toList, isGap c) : IsLine (reindentDoc indent doc) := by
  obtain ⟨inside, hinside, hdoc⟩ := exists_inside_reindentDoc h hindent
  refine ⟨[], rfl, fun rest => ?_⟩
  have hclassify : classify '/' (('*' :: (inside ++ ['*', '/'])) ++ '\n' :: rest) =
      (.token .blockComment, ('*' :: (inside ++ ['*', '/'])).length) := by
    have hblock := hinside.blockLength ('\n' :: rest)
    show (LexemeClass.token Kind.blockComment,
      1 + Lexeme.blockLength (inside ++ ['*', '/'] ++ '\n' :: rest)) = _
    rw [List.append_assoc, List.cons_append, List.cons_append, List.nil_append, hblock]
    simp
    omega
  rw [hdoc, List.append_assoc, bracketsIn_gaps hindent]
  exact bracketsIn_of_classify hclassify

end Script

end SvelteTypings
