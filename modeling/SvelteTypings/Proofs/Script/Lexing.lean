import SvelteTypings.Proofs.Script.Lexemes

/-!
# Reading line by line

Only a block comment and a template go on over the end of a line. So a text that ends in neither of
them is read in the same way whatever follows on the next line (`read_append_newline`). A text whose
last newline is read as one is such a text (`read_append`).
-/

namespace SvelteTypings.Script.Lexeme

variable {c quote : Char} {cs rest : List Char} {p : Char → Bool} {cls : LexemeClass} {n : Nat}

/-- A comment or a template that the text ends in. -/
def isOpen (l : Lexeme) : Bool :=
  match l.text with
  | '/' :: '*' :: cs => !(['*', '/'].isSuffixOf cs)
  | '`' :: _ => l.cls ≠ .token .template
  | _ => false

/-- The text does not end in a comment or a template. -/
def isEnded (cs : List Char) : Bool := (read cs).getLast?.all fun l => !l.isOpen

/-! ## Lengths -/

theorem runLength_append (hp : p '\n' = false) :
    runLength p (cs ++ '\n' :: rest) = runLength p cs := by
  rw [runLength, runLength, List.takeWhile_append]
  split
  · next h => rw [List.takeWhile_cons_of_neg (by simp [hp]), List.append_nil, h]
  · rfl

/-- A comment that is closed is read as it is wherever it stands. -/
theorem blockLength_take (h : ['*', '/'] <:+ cs.take (blockLength cs)) (rest : List Char) :
    blockLength (cs.take (blockLength cs) ++ rest) = blockLength cs := by
  fun_induction blockLength cs with
  | case1 cs => rfl
  | case2 c cs hc ih =>
    rw [List.take_succ_cons] at h
    cases cs with
    | nil => exact absurd (List.IsSuffix.length_le h) (by simp [blockLength])
    | cons d cs =>
      obtain ⟨n, hn⟩ : ∃ n, blockLength (d :: cs) = n + 1 := by
        rw [blockLength.eq_def]
        split
        · exact ⟨1, rfl⟩
        · exact ⟨_, rfl⟩
        · next hnil => exact absurd hnil (by simp)
      rw [hn, List.take_succ_cons] at h ih
      rcases List.suffix_cons_iff.1 h with heq | h
      · -- the end would begin at this very place
        obtain ⟨rfl, htake⟩ := List.cons.inj heq
        exact (hc cs rfl (by rw [(List.cons.inj htake).1])).elim
      · have hih := ih h
        rw [hn, List.take_succ_cons, List.take_succ_cons, List.cons_append, List.cons_append,
          blockLength]
        · rw [List.cons_append] at hih
          rw [hih]
        · intro tail hstar htail
          exact hc cs hstar (by rw [(List.cons.inj htail).1])
  | case3 => exact absurd (List.IsSuffix.length_le h) (by simp)

/-- A comment that is closed ends where it did. -/
theorem blockLength_append (h : ['*', '/'] <:+ cs.take (blockLength cs)) (x : List Char) :
    blockLength (cs ++ x) = blockLength cs := by
  have htake := blockLength_take h (cs.drop (blockLength cs) ++ x)
  rwa [← List.append_assoc, List.take_append_drop] at htake

theorem blockLength_of_open (h : ¬ ['*', '/'] <:+ cs.take (blockLength cs)) :
    blockLength cs = cs.length := by
  fun_induction blockLength cs with
  | case1 cs => exact absurd (List.suffix_refl _) h
  | case2 c cs _ ih =>
    rw [List.take_succ_cons] at h
    rw [ih fun hs => h (hs.trans (List.suffix_cons _ _)), List.length_cons]
  | case3 => rfl

/-- A comment that is not closed takes a newline at the end. -/
theorem blockLength_concat (h : ¬ ['*', '/'] <:+ cs.take (blockLength cs)) :
    blockLength (cs ++ ['\n']) = cs.length + 1 := by
  fun_induction blockLength cs with
  | case1 cs => exact absurd (List.suffix_refl _) h
  | case2 c cs hc ih =>
    rw [List.take_succ_cons] at h
    have hih := ih fun hs => h (hs.trans (List.suffix_cons _ _))
    rw [List.cons_append, blockLength, hih, List.length_cons]
    intro tail hstar htail
    cases cs with
    | nil => exact absurd (List.cons.inj htail).1 (by decide)
    | cons d cs => exact hc cs hstar (by rw [(List.cons.inj htail).1])
  | case3 => rfl

/-- What is left of a literal's characters when a backslash has been ruled out. -/
theorem ne_backslash (hnil : c = '\\' → cs = [] → False)
    (hcons : ∀ d cs', c = '\\' → cs = d :: cs' → False) : c ≠ '\\' := by
  intro hc
  cases cs with
  | nil => exact hnil hc rfl
  | cons d cs => exact hcons d cs hc rfl

theorem literalLength_cons (hc : c ≠ '\\') :
    literalLength quote (c :: cs) =
      if c = quote then (true, 1)
      else if c = '\n' ∧ quote ≠ '`' then (false, 0)
      else ((literalLength quote cs).1, (literalLength quote cs).2 + 1) := by
  rw [literalLength]
  · exact fun h => absurd h hc
  · exact fun _ _ h => absurd h hc

/-- A literal that is closed, or broken off within the text, ends where it did. -/
theorem literalLength_append (hquote : quote ≠ '\n')
    (h : (literalLength quote cs).1 = true ∨ quote ≠ '`' ∨ (literalLength quote cs).2 < cs.length) :
    literalLength quote (cs ++ '\n' :: rest) = literalLength quote cs := by
  fun_induction literalLength quote cs with
  | case1 =>
    have hbreaks : quote ≠ '`' := by simpa using h
    rw [List.nil_append, literalLength_cons (by decide), if_neg (Ne.symm hquote),
      if_pos ⟨rfl, hbreaks⟩]
  | case2 => rfl
  | case3 => rfl
  | case4 c cs hc closed n hcs ih =>
    rw [hcs] at ih
    have hih := ih (by simpa using h)
    rw [List.cons_append, List.cons_append, literalLength, if_neg hc, hih]
  | case5 cs hnil hcons =>
    have hc : quote ≠ '\\' := ne_backslash hnil hcons
    rw [List.cons_append, literalLength_cons hc, if_pos rfl]
  | case6 c cs _ _ hc hbreaks =>
    have hslash : c ≠ '\\' := by
      rw [hbreaks.1]
      decide
    rw [List.cons_append, literalLength_cons hslash, if_neg hc, if_pos hbreaks]
  | case7 c cs hnil hcons hc hbreaks closed n hcs ih =>
    have hslash : c ≠ '\\' := ne_backslash hnil hcons
    rw [hcs] at ih
    have hih := ih (by simpa using h)
    rw [List.cons_append, literalLength_cons hslash, if_neg hc, if_neg hbreaks, hih]

/-- A template that is not closed takes a newline at the end. -/
theorem literalLength_concat (hlength : (literalLength '`' cs).2 = cs.length)
    (hclosed : (literalLength '`' cs).1 = false) :
    (literalLength '`' (cs ++ ['\n'])).2 = cs.length + 1 := by
  generalize hquote : '`' = quote at hlength hclosed ⊢
  fun_induction literalLength quote cs with
  | case1 =>
    subst hquote
    rfl
  | case2 => exact absurd hlength (by simp)
  | case3 => exact absurd hlength (by simp)
  | case4 c cs hc closed n hcs ih =>
    rw [hcs] at ih
    have hih := ih (by simpa using hlength) hclosed
    rw [List.cons_append, List.cons_append, literalLength, if_neg hc]
    simp [hih]
  | case5 => exact absurd hclosed (by simp)
  | case6 c cs _ _ _ hbreaks => exact absurd hquote.symm hbreaks.2
  | case7 c cs hnil hcons hc hbreaks closed n hcs ih =>
    have hslash : c ≠ '\\' := ne_backslash hnil hcons
    rw [hcs] at ih
    have hih := ih (by simpa using hlength) hclosed
    rw [List.cons_append, literalLength_cons hslash, if_neg hc, if_neg hbreaks]
    simp [hih]

theorem numberLength_append : numberLength (cs ++ '\n' :: rest) = numberLength cs := by
  have hrun : runLength isNumberRest (cs ++ '\n' :: rest) = runLength isNumberRest cs :=
    runLength_append (by decide)
  rw [numberLength, numberLength, hrun, List.drop_append_of_le_length (runLength_le _ _)]
  cases hdrop : cs.drop (runLength isNumberRest cs) with
  | nil => rfl
  | cons d ds =>
    rw [List.cons_append]
    by_cases hdot : d = '.'
    · subst hdot
      simp only [runLength_append (show isNumberRest '\n' = false by decide)]
    · simp [hdot]

/-! ## One lexeme -/

theorem prefix_of_prefix_line {us : List Char} (h : us <+: cs ++ '\n' :: rest) (hus : '\n' ∉ us) :
    us <+: cs := by
  rcases List.prefix_or_prefix_of_prefix h (List.prefix_append cs _) with hstart | ⟨vs, rfl⟩
  · exact hstart
  · rw [List.prefix_append_right_inj] at h
    cases vs with
    | nil => exact (List.append_nil cs).symm ▸ List.prefix_rfl
    | cons v vs =>
      obtain rfl := (List.cons_prefix_cons.1 h).1
      exact absurd hus (by simp)

/-- A lexeme that is not left open at the end ends where it did. -/
theorem Classifies.append (h : Classifies c cs cls n)
    (hended : n = cs.length → isOpen ⟨cls, c :: cs⟩ = false) (rest : List Char) :
    Classifies c (cs ++ '\n' :: rest) cls n := by
  have hquotes : ∀ q ∈ quotes, q.1 ≠ '\n' := by decide
  cases h with
  | run hr hc =>
    have hline : ∀ r ∈ runClasses, r.rest '\n' = false := by decide
    rw [← runLength_append (hline _ hr)]
    exact .run hr hc
  | number hc =>
    rw [← numberLength_append]
    exact .number hc
  | lineComment hc hcs =>
    rw [← runLength_append (by decide)]
    exact .lineComment hc (by rw [hcs]; rfl)
  | @blockComment inner hc hcs =>
    -- what is not closed reaches to the end, where it is open
    have hclosed : ['*', '/'] <:+ inner.take (blockLength inner) := by
      refine Classical.byContradiction fun hnot => ?_
      have hlength := blockLength_of_open hnot
      rw [hc, hcs] at hended
      have hclosed : (!(['*', '/'].isSuffixOf inner)) = false :=
        hended (by rw [hlength, List.length_cons, Nat.add_comm])
      rw [hlength, List.take_length] at hnot
      rw [Bool.not_eq_false', List.isSuffixOf_iff_suffix] at hclosed
      exact hnot hclosed
    rw [← blockLength_append hclosed]
    exact .blockComment hc (by rw [hcs]; rfl)
  | literal hc hclosed =>
    have hsame : literalLength c (cs ++ '\n' :: rest) = literalLength c cs :=
      literalLength_append (hquotes _ hc) (Or.inl hclosed)
    rw [← hsame]
    exact .literal hc (by rw [hsame, hclosed])
  | unclosed hc hopen =>
    have hsame : literalLength c (cs ++ '\n' :: rest) = literalLength c cs := by
      refine literalLength_append (hquotes _ hc) (Or.inr (Decidable.or_iff_not_not_and_not.2 ?_))
      rintro ⟨htemplate, hlength⟩
      rw [not_not] at htemplate
      subst htemplate
      -- a template that reaches to the end is open there
      have hle := literalLength_le '`' cs
      exact absurd (hended (by omega)) (by simp [isOpen])
    rw [← hsame]
    exact .unclosed hc (by rw [hsame, hopen])
  | single hc halone =>
    have hline : ∀ m ∈ longer, '\n' ∉ m := by decide
    refine .single hc fun us hus hstart => halone us hus (prefix_of_prefix_line hstart ?_)
    exact fun hmem => hline _ hus (List.mem_cons_of_mem c hmem)
  | mark hc hcs => exact .mark hc (by rw [hcs, List.append_assoc])
  | control hc hgap => exact .control hc hgap

theorem classify_append
    (h : (classify c cs).2 = cs.length → isOpen ⟨(classify c cs).1, c :: cs⟩ = false) :
    classify c (cs ++ '\n' :: rest) = classify c cs :=
  ((classifies c cs).append h rest).eq

/-- A comment or template that the text ends in takes a newline at the end. -/
theorem classify_concat_of_open (hlength : (classify c cs).2 = cs.length)
    (hopen : isOpen ⟨(classify c cs).1, c :: cs⟩) :
    (classify c (cs ++ ['\n'])).2 = cs.length + 1 := by
  rw [isOpen] at hopen
  split at hopen
  · next cs' htext =>
    obtain ⟨rfl, rfl⟩ := List.cons.inj htext
    have hblock : blockLength cs' = cs'.length := by
      have hlength : 1 + blockLength cs' = cs'.length + 1 := hlength
      omega
    have hnot : ¬ ['*', '/'] <:+ cs'.take (blockLength cs') := by
      rw [hblock, List.take_length, ← List.isSuffixOf_iff_suffix, Bool.not_eq_true]
      simpa using hopen
    show 1 + blockLength (cs' ++ ['\n']) = _
    rw [blockLength_concat hnot, List.length_cons]
    omega
  · next htext =>
    obtain ⟨rfl, -⟩ := List.cons.inj htext
    have hclosed : (literalLength '`' cs).1 = false := by
      simpa [classify, literal, isGap, isIdentStart, isOperatorChar, isNonAscii] using hopen
    exact literalLength_concat hlength hclosed
  · exact absurd hopen (by simp)

/-! ## Whole texts -/

theorem read_newline (rest : List Char) :
    read ('\n' :: rest) = ⟨.token .newline, ['\n']⟩ :: read rest := by
  rw [read_cons]
  rfl

theorem isEnded_nil : isEnded [] := by
  rw [isEnded, read_nil]
  rfl

/-- **A newline separates what is read**, after a text that does not end in a comment or a template.
-/
theorem read_append_newline (h : isEnded cs) (rest : List Char) :
    read (cs ++ '\n' :: rest) = read cs ++ read ('\n' :: rest) := by
  fun_induction read cs with
  | case1 => rfl
  | case2 c cs cls n hclassify ih =>
    have hn : n ≤ cs.length := by
      have hle := classify_le c cs
      rw [hclassify] at hle
      exact hle
    rw [isEnded, read_cons, hclassify] at h
    have hsame : classify c (cs ++ '\n' :: rest) = (cls, n) := by
      rw [classify_append, hclassify]
      rw [hclassify]
      rintro rfl
      -- the lexeme reaches to the end, so it is the last one
      simpa [read_nil] using h
    have hrest : isEnded (cs.drop n) := by
      rw [isEnded]
      cases hread : read (cs.drop n) with
      | nil => rfl
      | cons l ls =>
        simp only [hread, List.getLast?_cons_cons] at h
        exact h
    rw [List.cons_append, read_cons, hsame, List.take_append_of_le_length hn,
      List.drop_append_of_le_length hn, ih hrest, List.cons_append]

/-- A text whose last newline is read as such does not end in a comment or a template. -/
theorem isEnded_of_newline (h : (read (cs ++ ['\n'])).getLast? = some ⟨.token .newline, ['\n']⟩) :
    isEnded cs := by
  fun_induction read cs with
  | case1 => exact isEnded_nil
  | case2 c cs cls n hclassify ih =>
    have hn : n ≤ cs.length := by
      have hle := classify_le c cs
      rwa [hclassify] at hle
    by_cases hopen : n = cs.length ∧ isOpen ⟨cls, c :: cs⟩
    · -- the lexeme would take the newline
      obtain ⟨rfl, hopen⟩ := hopen
      have hconcat : (classify c (cs ++ ['\n'])).2 = cs.length + 1 :=
        classify_concat_of_open (by rw [hclassify]) (by rw [hclassify]; exact hopen)
      rw [List.cons_append, read_cons, hconcat, List.drop_of_length_le (by simp), read_nil] at h
      simp at h
    · have hended : n = cs.length → isOpen ⟨cls, c :: cs⟩ = false := by
        intro heq
        simpa [heq] using hopen
      -- The lexeme is the same without the newline, so the rest is what has to be ended.
      have hsame : classify c (cs ++ ['\n']) = (cls, n) := by
        rw [classify_append, hclassify]
        rw [hclassify]
        exact hended
      rw [List.cons_append, read_cons, hsame, List.drop_append_of_le_length hn] at h
      have hrest : isEnded (cs.drop n) := by
        refine ih ?_
        cases hread : read (cs.drop n ++ ['\n']) with
        | nil =>
          have htext := flatMap_text_read (cs.drop n ++ ['\n'])
          rw [hread] at htext
          exact absurd htext.symm (by simp)
        | cons l ls => simpa [hread] using h
      rw [isEnded, read_cons, hclassify]
      cases hread : read (cs.drop n) with
      | nil =>
        have hall : n = cs.length := by
          have htext := flatMap_text_read (cs.drop n)
          rw [hread] at htext
          have hle := List.drop_eq_nil_iff.1 htext.symm
          omega
        subst hall
        simpa using hended rfl
      | cons l ls =>
        rw [isEnded, hread] at hrest
        simpa using hrest

/-- **What stands below a newline that is read as such is read as it is alone.** -/
theorem read_append (h : (read cs).getLast? = some ⟨.token .newline, ['\n']⟩) (rest : List Char) :
    read (cs ++ rest) = read cs ++ read rest := by
  obtain ⟨ls, hls⟩ := List.getLast?_eq_some_iff.1 h
  have htext := flatMap_text_read cs
  rw [hls, List.flatMap_append, List.flatMap_cons, List.flatMap_nil, List.append_nil] at htext
  generalize ls.flatMap (·.text) = front at htext
  subst htext
  have hended := isEnded_of_newline h
  have halone := read_append_newline hended []
  rw [List.append_assoc, halone, List.cons_append, List.nil_append, read_append_newline hended,
    read_newline, read_newline, read_nil, List.append_assoc]
  rfl

/-! ## Names and blanks -/

theorem runLength_of_all {word : List Char} (h : ∀ x ∈ word, p x) (hc : p c = false) :
    runLength p (word ++ c :: rest) = word.length := by
  rw [runLength, List.takeWhile_append_of_pos h, List.takeWhile_cons_of_neg (by simp [hc]),
    List.append_nil]

/-- A name of ASCII characters, which is read as one token. -/
def isName : List Char → Bool
  | [] => false
  | c :: cs => isIdentStart c && cs.all isIdentRest

theorem isName_append {word : List Char} (h : isName word) (hrest : rest.all isIdentRest) :
    isName (word ++ rest) := by
  cases word with
  | nil => exact absurd h (by simp [isName])
  | cons c cs =>
    obtain ⟨hstart, hcs⟩ := Bool.and_eq_true_iff.1 h
    rw [List.cons_append, isName, List.all_append, hstart, hcs, hrest]
    rfl

theorem read_name {word : List Char} (h : isName word) (hc : isIdentRest c = false)
    (rest : List Char) :
    read (word ++ c :: rest) = ⟨.token .ident, word⟩ :: read (c :: rest) := by
  cases word with
  | nil => exact absurd h (by simp [isName])
  | cons x word =>
    obtain ⟨hx, hword⟩ := Bool.and_eq_true_iff.1 h
    have hclassify : classify x (word ++ c :: rest) = (.token .ident, word.length) := by
      rw [classify_of_isIdentStart hx, runLength_of_all (List.all_eq_true.1 hword) hc]
    rw [List.cons_append, read_cons, hclassify]
    simp

theorem read_space (hc : isGap c = false) (rest : List Char) :
    read (' ' :: c :: rest) = ⟨.blank, [' ']⟩ :: read (c :: rest) := by
  have hclassify : classify ' ' (c :: rest) = (.blank, 0) := by
    have hrun : runLength isGap (c :: rest) = 0 := by
      rw [runLength, List.takeWhile_cons_of_neg (by simp [hc])]
      rfl
    rw [classify_of_isGap (by decide), hrun]
  rw [read_cons, hclassify]
  rfl

theorem read_space_name {word : List Char} (h : isName word) (rest : List Char) :
    read (' ' :: (word ++ rest)) = ⟨.blank, [' ']⟩ :: read (word ++ rest) := by
  cases word with
  | nil => exact absurd h (by simp [isName])
  | cons x word => exact read_space (isGap_of_isIdentStart (Bool.and_eq_true_iff.1 h).1) _

theorem read_punctuation {k : Kind} (h : classify c rest = (.token k, 0)) :
    read (c :: rest) = ⟨.token k, [c]⟩ :: read rest := by
  rw [read_cons, h]
  rfl

/-! ## Tokens -/

variable {gap : List Char} {kind : Kind} {text : List Char} {ls : List Lexeme}

/-- A token takes the gap in front of it, so those after it do not depend on what stands before. -/
theorem tokensAfter_append (gap : List Char) (ls : List Lexeme) (kind : Kind) (text : List Char)
    (ls' : List Lexeme) :
    ∃ g, tokensAfter gap (ls ++ ⟨.token kind, text⟩ :: ls') =
      tokensAfter gap ls ++ ⟨kind, g, String.ofList text⟩ :: tokensAfter [] ls' := by
  induction ls generalizing gap with
  | nil => exact ⟨String.ofList gap, rfl⟩
  | cons l ls ih =>
    obtain ⟨cls, x⟩ := l
    cases cls with
    | token k =>
      obtain ⟨g, hg⟩ := ih []
      exact ⟨g, congrArg (_ :: ·) hg⟩
    | blank => exact ih (gap ++ x)
    | stray => exact ih (gap ++ x)

/-- Tokens with their gaps are the text, if it ends with a token. -/
theorem join_spaced (gap : List Char) (ls : List Lexeme) (kind : Kind) (text : List Char) :
    String.join ((tokensAfter gap (ls ++ [⟨.token kind, text⟩])).map Token.spaced) =
      String.ofList (gap ++ (ls.flatMap Lexeme.text ++ text)) := by
  induction ls generalizing gap with
  | nil => simp [tokensAfter, Token.spaced]
  | cons l ls ih =>
    obtain ⟨cls, x⟩ := l
    cases cls with
    | token k => simp [tokensAfter, Token.spaced, ih, String.append_assoc]
    | blank => simpa [tokensAfter] using ih (gap ++ x)
    | stray => simpa [tokensAfter] using ih (gap ++ x)

end Lexeme

/-! ## Scripts -/

/-- A script that is written out is a list of characters for the unifier, so its tokens can be
computed without decoding its bytes. -/
theorem tokenize_ofList (cs : List Char) :
    tokenize (String.ofList cs) = Lexeme.tokensAfter [] (Lexeme.read cs) := by
  rw [tokenize, String.toList_ofList]

theorem read_line {s : String} (h : Lexeme.isEnded s.toList) (rest : String) :
    Lexeme.read (s ++ "\n" ++ rest).toList =
      Lexeme.read s.toList ++ ⟨.token .newline, ['\n']⟩ :: Lexeme.read rest.toList := by
  rw [← Lexeme.read_newline, ← Lexeme.read_append_newline h, String.toList_append,
    String.toList_append, List.append_assoc]
  rfl

/-- A newline is a token, after a text that does not end in a comment or a template. -/
theorem tokenize_line {s : String} (h : Lexeme.isEnded s.toList) (rest : String) :
    ∃ g, tokenize (s ++ "\n" ++ rest) = tokenize s ++ ⟨.newline, g, "\n"⟩ :: tokenize rest := by
  rw [tokenize, read_line h]
  exact Lexeme.tokensAfter_append [] _ .newline ['\n'] _

/-- A text that starts and ends with a token is the span of its tokens. -/
theorem span_tokenize {s : String} {k k' : Kind} {x y : List Char} {ls : List Lexeme}
    (hfirst : (Lexeme.read s.toList).head? = some ⟨.token k, x⟩)
    (hlast : Lexeme.read s.toList = ls ++ [⟨.token k', y⟩]) : Token.span (tokenize s) = s := by
  have htext := Lexeme.join_spaced [] ls k' y
  have hread := Lexeme.flatMap_text_read s.toList
  rw [hlast, List.flatMap_append, List.flatMap_cons, List.flatMap_nil, List.append_nil] at hread
  rw [← hlast, hread, List.nil_append, String.ofList_toList] at htext
  rw [tokenize]
  cases hcs : Lexeme.read s.toList with
  | nil => rw [hcs] at hfirst; exact absurd hfirst (by simp)
  | cons l ls' =>
    rw [hcs] at htext hfirst
    obtain rfl : l = ⟨.token k, x⟩ := by simpa using hfirst
    simpa [Lexeme.tokensAfter, Token.span, Token.spaced] using htext

end SvelteTypings.Script
