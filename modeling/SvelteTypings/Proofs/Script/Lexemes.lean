import Mathlib.Data.List.Basic
import SvelteTypings.Proofs.Text.Trimming
import SvelteTypings.Script.Lexer

/-!
# What a lexeme can be

The reader tells a lexeme by its first character; only behind a `/`, a `.` and a `=` does it look at
more. It checks the classes of characters in an order, but no character is in two of them. So what it
reads is told by a relation with one case for each kind of lexeme (`Classifies`), which holds of what
it reads and of nothing else (`classifies_iff`). Other modules take lexemes apart, and show what is
read, by this relation.
-/

namespace SvelteTypings.Script

/-- A control character that is no blank and ends no line, or any other one. -/
def isControl (c : Char) : Bool := (c.toNat < 0x20 || c.toNat = 0x7f) && c ≠ '\n'

namespace Lexeme

variable {c quote : Char} {cs : List Char} {cls : LexemeClass} {k : Kind} {n : Nat}

/-! ## Kinds of lexemes -/

/-- A run of characters: what it starts with, and what it goes on with. -/
structure RunClass where
  cls : LexemeClass
  first : Char → Bool
  rest : Char → Bool

/-- The runs but for numbers, which may have a point in them. -/
def runClasses : List RunClass :=
  [⟨.blank, isGap, isGap⟩, ⟨.token .ident, isIdentStart, isIdentRest⟩,
    ⟨.token .operator, isOperatorChar, isOperatorChar⟩, ⟨.token .nonAscii, isNonAscii, isNonAscii⟩]

theorem mem_runClasses_iff {first rest : Char → Bool} : ⟨cls, first, rest⟩ ∈ runClasses ↔
    cls = .blank ∧ first = isGap ∧ rest = isGap ∨
    cls = .token .ident ∧ first = isIdentStart ∧ rest = isIdentRest ∨
    cls = .token .operator ∧ first = isOperatorChar ∧ rest = isOperatorChar ∨
    cls = .token .nonAscii ∧ first = isNonAscii ∧ rest = isNonAscii := by
  simp [runClasses]

/-- The quotes, and what stands between them. -/
def quotes : List (Char × Kind) := [('"', .string), ('\'', .string), ('`', .template)]

/-- The tokens of one character. -/
def singles : List (Char × Kind) :=
  [('\n', .newline), ('/', .slash), ('{', .openBrace), ('}', .closeBrace), ('(', .openParen),
    (')', .closeParen), ('[', .openBracket), (']', .closeBracket), (';', .semicolon), (',', .comma),
    (':', .colon), ('.', .dot), ('?', .question), ('=', .equals), ('<', .less), ('>', .greater)]

/-- The tokens of some characters more. -/
def marks : List (List Char × Kind) := [(['.', '.', '.'], .spread), (['=', '>'], .arrow)]

/-- What starts like a token of one character, but is none. -/
def longer : List (List Char) := [['/', '/'], ['/', '*'], ['.', '.', '.'], ['=', '>']]

/-- The lexeme that starts with `c` is of a class, and takes `n` of the characters behind. -/
inductive Classifies (c : Char) (cs : List Char) : LexemeClass → Nat → Prop where
  | run {cls : LexemeClass} {first rest : Char → Bool} (hr : ⟨cls, first, rest⟩ ∈ runClasses)
    (hc : first c) : Classifies c cs cls (runLength rest cs)
  | number (hc : c.isDigit) : Classifies c cs (.token .number) (numberLength cs)
  | lineComment {rest : List Char} (hc : c = '/') (hcs : cs = '/' :: rest) :
    Classifies c cs (.token .lineComment) (1 + runLength (· ≠ '\n') rest)
  | blockComment {rest : List Char} (hc : c = '/') (hcs : cs = '*' :: rest) :
    Classifies c cs (.token .blockComment) (1 + blockLength rest)
  | literal {k : Kind} (hc : (c, k) ∈ quotes) (hclosed : (literalLength c cs).1 = true) :
    Classifies c cs (.token k) (literalLength c cs).2
  | unclosed {k : Kind} (hc : (c, k) ∈ quotes) (hopen : (literalLength c cs).1 = false) :
    Classifies c cs .stray (literalLength c cs).2
  | single {k : Kind} (hc : (c, k) ∈ singles) (halone : ∀ us, c :: us ∈ longer → ¬ us <+: cs) :
    Classifies c cs (.token k) 0
  | mark {k : Kind} {us rest : List Char} (hc : (c :: us, k) ∈ marks) (hcs : cs = us ++ rest) :
    Classifies c cs (.token k) us.length
  | control (hc : isControl c) (hgap : isGap c = false) : Classifies c cs .stray 0

/-! ## Lengths -/

theorem runLength_le (p : Char → Bool) (cs : List Char) : runLength p cs ≤ cs.length :=
  (List.takeWhile_prefix p).length_le

theorem blockLength_le (cs : List Char) : blockLength cs ≤ cs.length := by
  fun_induction blockLength cs with
  | case1 cs => simp
  | case2 c cs _ ih => simpa using ih
  | case3 => simp

theorem literalLength_le (quote : Char) (cs : List Char) :
    (literalLength quote cs).2 ≤ cs.length := by
  fun_induction literalLength quote cs with
  | case1 => exact Nat.le_refl 0
  | case2 => exact Nat.zero_le 1
  | case3 => exact Nat.zero_le _
  | case4 c cs _ closed n hcs ih =>
    rw [hcs] at ih
    exact Nat.add_le_add_right ih 2
  | case5 => exact Nat.le_add_left 1 _
  | case6 => exact Nat.zero_le _
  | case7 c cs _ _ _ _ closed n hcs ih =>
    rw [hcs] at ih
    exact Nat.add_le_add_right ih 1

theorem numberLength_le (cs : List Char) : numberLength cs ≤ cs.length := by
  have hrun := runLength_le isNumberRest cs
  rw [numberLength]
  cases hdrop : cs.drop (runLength isNumberRest cs) with
  | nil => exact hrun
  | cons d ds =>
    have hlength : (cs.drop (runLength isNumberRest cs)).length = ds.length + 1 := by
      rw [hdrop, List.length_cons]
    have hrest := runLength_le isNumberRest ds
    rw [List.length_drop] at hlength
    by_cases hdot : d = '.'
    · subst hdot
      simp only
      split <;> omega
    · simpa [hdot] using hrun

/-- No lexeme takes more than there is. -/
theorem Classifies.le (h : Classifies c cs cls n) : n ≤ cs.length := by
  cases h with
  | run => exact runLength_le _ cs
  | number => exact numberLength_le cs
  | @lineComment rest _ hcs =>
    have hle := runLength_le (fun d => decide (d ≠ '\n')) rest
    rw [hcs, List.length_cons]
    omega
  | @blockComment rest _ hcs =>
    have hle := blockLength_le rest
    rw [hcs, List.length_cons]
    omega
  | literal => exact literalLength_le c cs
  | unclosed => exact literalLength_le c cs
  | single => exact Nat.zero_le _
  | mark _ hcs =>
    rw [hcs, List.length_append]
    exact Nat.le_add_right _ _
  | control => exact Nat.zero_le _

/-! ## Classes of characters -/

/-- What holds of every character of ASCII. -/
theorem of_ascii {p : Char → Prop} (h : ∀ n < 0x80, p (Char.ofNat n)) (hc : c.toNat < 0x80) :
    p c := by
  have hp := h c.toNat hc
  rwa [Char.ofNat_toNat] at hp

theorem isGap_of_isIdentStart (h : isIdentStart c) : isGap c = false := by
  cases hgap : isGap c with
  | false => rfl
  | true =>
    simp only [isGap, Bool.or_eq_true, decide_eq_true_eq] at hgap
    rcases hgap with ((rfl | rfl) | rfl) | rfl <;> exact absurd h (by decide)

theorem toNat_lt_of_isAlphanum (h : c.isAlphanum) : c.toNat < 0x80 :=
  Nat.lt_of_le_of_lt (Text.printable_of_isAlphanum h).2 (by decide)

theorem toNat_lt_of_isGap (h : isGap c) : c.toNat < 0x80 := by
  simp only [isGap, Bool.or_eq_true, decide_eq_true_eq] at h
  rcases h with ((rfl | rfl) | rfl) | rfl <;> decide

theorem toNat_lt_of_isIdentStart (h : isIdentStart c) : c.toNat < 0x80 := by
  simp only [isIdentStart, Bool.or_eq_true, decide_eq_true_eq] at h
  rcases h with (h | rfl) | rfl
  · exact toNat_lt_of_isAlphanum (by simp [Char.isAlphanum, h])
  · decide
  · decide

theorem toNat_lt_of_isDigit (h : c.isDigit) : c.toNat < 0x80 :=
  toNat_lt_of_isAlphanum (by simp [Char.isAlphanum, h])

theorem toNat_lt_of_isOperatorChar (h : isOperatorChar c) : c.toNat < 0x80 := by
  have hascii : ['+', '-', '*', '%', '|', '&', '!', '^', '~', '@', '#', '\\'].all
      fun d => d.toNat < 0x80 := by decide
  exact of_decide_eq_true (List.all_eq_true.1 hascii c (List.contains_iff_mem.1 h))

/-- A digit is in no other class. -/
theorem of_isDigit (h : c.isDigit) :
    isGap c = false ∧ isIdentStart c = false ∧ isOperatorChar c = false :=
  of_ascii (p := fun c => c.isDigit → isGap c = false ∧ isIdentStart c = false ∧
    isOperatorChar c = false) (by decide) (toNat_lt_of_isDigit h) h

/-- Nor is a control character that is no gap. -/
theorem of_isControl (h : isControl c) (hgap : isGap c = false) :
    isIdentStart c = false ∧ c.isDigit = false ∧ isOperatorChar c = false ∧
      c ∉ (quotes ++ singles).map Prod.fst := by
  have hlt : c.toNat < 0x80 := by
    simp only [isControl, Bool.and_eq_true, Bool.or_eq_true, decide_eq_true_eq] at h
    omega
  exact of_ascii (p := fun c => isControl c → isGap c = false → isIdentStart c = false ∧
    c.isDigit = false ∧ isOperatorChar c = false ∧ c ∉ (quotes ++ singles).map Prod.fst)
    (by decide) hlt h hgap

/-- What every character of ASCII is for the reader. -/
theorem ascii_cases (hgap : isGap c = false) (hident : isIdentStart c = false)
    (hdigit : c.isDigit = false) (hoperator : isOperatorChar c = false)
    (hascii : isNonAscii c = false) :
    isControl c ∨ c ∈ (quotes ++ singles).map Prod.fst := by
  have hc := of_ascii (p := fun c => isGap c ∨ isIdentStart c ∨ c.isDigit ∨ isOperatorChar c ∨
    isControl c ∨ c ∈ (quotes ++ singles).map Prod.fst) (by decide)
    (by simpa [isNonAscii] using hascii)
  simpa only [hgap, hident, hdigit, hoperator, Bool.false_eq_true, false_or] using hc

/-! ## The reader -/

theorem classify_of_isGap (h : isGap c) (cs : List Char) :
    classify c cs = (.blank, runLength isGap cs) := by
  unfold classify
  exact if_pos h

theorem classify_of_isIdentStart (h : isIdentStart c) (cs : List Char) :
    classify c cs = (.token .ident, runLength isIdentRest cs) := by
  unfold classify
  rw [isGap_of_isIdentStart h, if_neg Bool.false_ne_true, if_pos h]

theorem classify_of_isDigit (h : c.isDigit) (cs : List Char) :
    classify c cs = (.token .number, numberLength cs) := by
  obtain ⟨hgap, hident, -⟩ := of_isDigit h
  unfold classify
  rw [hgap, hident, if_neg Bool.false_ne_true, if_neg Bool.false_ne_true, if_pos h]

theorem classify_of_isOperatorChar (h : isOperatorChar c) (cs : List Char) :
    classify c cs = (.token .operator, runLength isOperatorChar cs) := by
  simp only [isOperatorChar, List.contains_iff_mem, List.mem_cons, List.not_mem_nil, or_false] at h
  rcases h with rfl | rfl | rfl | rfl | rfl | rfl | rfl | rfl | rfl | rfl | rfl | rfl <;> rfl

theorem classify_nonAscii (h : isNonAscii c) (cs : List Char) :
    classify c cs = (.token .nonAscii, runLength isNonAscii cs) := by
  have hlarge : ¬ c.toNat < 0x80 := by simpa [isNonAscii] using h
  unfold classify
  rw [if_neg fun hc => hlarge (toNat_lt_of_isGap hc),
    if_neg fun hc => hlarge (toNat_lt_of_isIdentStart hc),
    if_neg fun hc => hlarge (toNat_lt_of_isDigit hc),
    if_neg fun hc => hlarge (toNat_lt_of_isOperatorChar hc), if_pos h]

theorem classify_of_quote (h : (c, k) ∈ quotes) (cs : List Char) :
    classify c cs = literal k c cs := by
  simp only [quotes, List.mem_cons, List.not_mem_nil, or_false, Prod.mk.injEq] at h
  rcases h with ⟨rfl, rfl⟩ | ⟨rfl, rfl⟩ | ⟨rfl, rfl⟩ <;> rfl

theorem literal_of_closed (h : (literalLength quote cs).1 = true) (k : Kind) :
    literal k quote cs = (.token k, (literalLength quote cs).2) := by
  simp [literal, h]

theorem literal_of_open (h : (literalLength quote cs).1 = false) (k : Kind) :
    literal k quote cs = (.stray, (literalLength quote cs).2) := by
  simp [literal, h]

theorem classify_slash (hline : cs.head? ≠ some '/') (hblock : cs.head? ≠ some '*') :
    classify '/' cs = (.token .slash, 0) := by
  cases cs with
  | nil => rfl
  | cons d cs =>
    have hd : d ≠ '/' := fun hd => hline (by rw [hd]; rfl)
    have hd' : d ≠ '*' := fun hd => hblock (by rw [hd]; rfl)
    simp [classify, hd, hd', isGap, isIdentStart, isOperatorChar, isNonAscii]

theorem classify_dot (h : ¬ ['.', '.'] <+: cs) : classify '.' cs = (.token .dot, 0) := by
  have hspread : ∀ rest, cs ≠ '.' :: '.' :: rest := fun rest hcs => h ⟨rest, hcs.symm⟩
  simp [classify, isGap, isIdentStart, isOperatorChar, isNonAscii]

theorem classify_equals (h : cs.head? ≠ some '>') : classify '=' cs = (.token .equals, 0) := by
  cases cs with
  | nil => rfl
  | cons d cs =>
    have hd : d ≠ '>' := fun hd => h (by rw [hd]; rfl)
    simp [classify, hd, isGap, isIdentStart, isOperatorChar, isNonAscii]

/-- A character that nothing longer starts with is a token. -/
theorem classify_of_single (hc : (c, k) ∈ singles) (halone : ∀ us, c :: us ∈ longer → ¬ us <+: cs) :
    classify c cs = (.token k, 0) := by
  have hhead : ∀ d, [c, d] ∈ longer → cs.head? ≠ some d := by
    rintro d hd hcs
    obtain ⟨rest, rfl⟩ := List.head?_eq_some_iff.1 hcs
    exact halone [d] hd ⟨rest, rfl⟩
  simp only [singles, List.mem_cons, List.not_mem_nil, or_false, Prod.mk.injEq] at hc
  rcases hc with ⟨rfl, rfl⟩ | ⟨rfl, rfl⟩ | ⟨rfl, rfl⟩ | ⟨rfl, rfl⟩ | ⟨rfl, rfl⟩ | ⟨rfl, rfl⟩ |
    ⟨rfl, rfl⟩ | ⟨rfl, rfl⟩ | ⟨rfl, rfl⟩ | ⟨rfl, rfl⟩ | ⟨rfl, rfl⟩ | ⟨rfl, rfl⟩ | ⟨rfl, rfl⟩ |
    ⟨rfl, rfl⟩ | ⟨rfl, rfl⟩ | ⟨rfl, rfl⟩
  case inr.inl => exact classify_slash (hhead _ (by decide)) (hhead _ (by decide))
  case inr.inr.inr.inr.inr.inr.inr.inr.inr.inr.inr.inl =>
    exact classify_dot (halone ['.', '.'] (by decide))
  case inr.inr.inr.inr.inr.inr.inr.inr.inr.inr.inr.inr.inr.inl =>
    exact classify_equals (hhead _ (by decide))
  all_goals rfl

theorem classify_of_isControl (hc : isControl c) (hgap : isGap c = false) (cs : List Char) :
    classify c cs = (.stray, 0) := by
  obtain ⟨hident, hdigit, hoperator, hother⟩ := of_isControl hc hgap
  have hascii : isNonAscii c = false := by
    simp only [isControl, Bool.and_eq_true, Bool.or_eq_true, decide_eq_true_eq] at hc
    simp only [isNonAscii, decide_eq_false_iff_not]
    omega
  unfold classify
  rw [hgap, hident, hdigit, hoperator, hascii]
  simp only [Bool.false_eq_true, if_false]
  split <;> first | rfl | exact absurd (by decide) hother

theorem Classifies.eq (h : Classifies c cs cls n) : classify c cs = (cls, n) := by
  cases h with
  | run hr hc =>
    rcases mem_runClasses_iff.1 hr with ⟨rfl, rfl, rfl⟩ | ⟨rfl, rfl, rfl⟩ | ⟨rfl, rfl, rfl⟩ | ⟨rfl, rfl, rfl⟩
    · exact classify_of_isGap hc cs
    · exact classify_of_isIdentStart hc cs
    · exact classify_of_isOperatorChar hc cs
    · exact classify_nonAscii hc cs
  | number hc => exact classify_of_isDigit hc cs
  | lineComment hc hcs =>
    rw [hc, hcs]
    rfl
  | blockComment hc hcs =>
    rw [hc, hcs]
    rfl
  | literal hc hclosed => rw [classify_of_quote hc, literal_of_closed hclosed]
  | unclosed hc hopen => rw [classify_of_quote hc, literal_of_open hopen]
  | single hc halone => exact classify_of_single hc halone
  | mark hc hcs =>
    simp only [marks, List.mem_cons, List.not_mem_nil, or_false, Prod.mk.injEq,
      List.cons.injEq] at hc
    rw [hcs]
    rcases hc with ⟨⟨rfl, rfl⟩, rfl⟩ | ⟨⟨rfl, rfl⟩, rfl⟩ <;> rfl
  | control hc hgap => exact classify_of_isControl hc hgap cs

theorem classifies_literal (hc : (c, k) ∈ quotes) (cs : List Char) :
    Classifies c cs (literal k c cs).1 (literal k c cs).2 := by
  cases hclosed : (literalLength c cs).1 with
  | true =>
    rw [literal_of_closed hclosed]
    exact .literal hc hclosed
  | false =>
    rw [literal_of_open hclosed]
    exact .unclosed hc hclosed

/-- **What the reader tells a lexeme by.** -/
theorem classifies (c : Char) (cs : List Char) :
    Classifies c cs (classify c cs).1 (classify c cs).2 := by
  -- One case for each branch of the reader; those of a single character are last.
  fun_cases classify c cs
  case case1 hc => exact .run (by simp [runClasses]) hc
  case case2 hc => exact .run (by simp [runClasses]) hc
  case case3 hc => exact .number hc
  case case4 hc => exact .run (by simp [runClasses]) hc
  case case5 hc => exact .run (by simp [runClasses]) hc
  case case7 => exact .lineComment rfl rfl
  case case8 => exact .blockComment rfl rfl
  case case9 hline hblock =>
    refine .single (by decide) ?_
    rintro us hus ⟨rest, hrest⟩
    rcases (by simpa [longer] using hus : us = ['/'] ∨ us = ['*']) with rfl | rfl
    · exact hline rest hrest.symm
    · exact hblock rest hrest.symm
  case case10 => exact classifies_literal (by decide) _
  case case11 => exact classifies_literal (by decide) _
  case case12 => exact classifies_literal (by decide) _
  case case22 => exact .mark (by decide : ('.' :: ['.', '.'], Kind.spread) ∈ marks) rfl
  case case23 hspread =>
    refine .single (by decide) ?_
    rintro us hus ⟨rest, hrest⟩
    obtain rfl : us = ['.', '.'] := by simpa [longer] using hus
    exact hspread rest hrest.symm
  case case25 => exact .mark (by decide : ('=' :: ['>'], Kind.arrow) ∈ marks) rfl
  case case26 harrow =>
    refine .single (by decide) ?_
    rintro us hus ⟨rest, hrest⟩
    obtain rfl : us = ['>'] := by simpa [longer] using hus
    exact harrow rest hrest.symm
  case case29 hgap hident hdigit hoperator hascii _ _ _ _ _ _ _ _ _ _ _ _ _ _ _ _ _ _ _ _ _ _ _ =>
    rw [Bool.not_eq_true] at hgap hident hdigit hoperator hascii
    refine .control ((ascii_cases hgap hident hdigit hoperator hascii).resolve_right ?_) hgap
    simp_all [quotes, singles]
  all_goals exact .single (by decide) (by simp [longer])

theorem classifies_iff : Classifies c cs cls n ↔ classify c cs = (cls, n) := by
  refine ⟨Classifies.eq, fun h => ?_⟩
  have hc := classifies c cs
  rwa [h] at hc

theorem classify_le (c : Char) (cs : List Char) : (classify c cs).2 ≤ cs.length :=
  (classifies c cs).le

end Lexeme

end SvelteTypings.Script
