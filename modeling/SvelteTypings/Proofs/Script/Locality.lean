import SvelteTypings.Proofs.Script.Lexing
import SvelteTypings.Proofs.Text.Trimming

/-!
# Reading a part elsewhere

Where a lexeme ends depends on no more than the two characters behind it. So lexemes that follow each
other are read as they are wherever their text stands (`read_flatMap_text`), if a *separator* follows:
a character that belongs to no lexeme in front of it.
-/

namespace SvelteTypings.Script.Lexeme

variable {c quote : Char} {cs xs ys us rest : List Char} {p : Char → Bool} {k : Kind}

/-! ## Separators -/

/-- A blank, newline or token of one character that no lexeme in front of it goes on over. -/
def isSeparator (c : Char) : Bool :=
  [' ', '\n', '(', ')', '{', '}', '[', ']', ';', ',', ':', '?', '<'].contains c

/-- Nothing, or a separator and more. -/
def startsApart (cs : List Char) : Bool := cs.head?.all isSeparator

/-- The second text starts like the first, up to a separator. -/
inductive GoesOnLike : List Char → List Char → Prop where
  | apart {xs ys : List Char} (h : startsApart ys) : GoesOnLike xs ys
  | cons {xs ys : List Char} (c : Char) (h : GoesOnLike xs ys) : GoesOnLike (c :: xs) (c :: ys)

theorem GoesOnLike.append (h : startsApart ys) (us xs : List Char) :
    GoesOnLike (us ++ xs) (us ++ ys) := by
  induction us with
  | nil => exact .apart h
  | cons c us ih => exact .cons c ih

/-- A run that ends in front of the first text ends in front of the second, if it does not go on over
separators. -/
theorem GoesOnLike.head (h : GoesOnLike xs ys) (hp : ∀ c, isSeparator c → p c = false)
    (hxs : ∀ x ∈ xs.head?, p x = false) : ∀ y ∈ ys.head?, p y = false := by
  cases h with
  | apart h => exact fun y hy => hp y ((Option.all_eq_true _ _).1 h y hy)
  | cons c h => exact hxs

theorem GoesOnLike.tail (h : GoesOnLike xs (c :: ys)) (hc : isSeparator c = false) :
    ∃ xs', xs = c :: xs' ∧ GoesOnLike xs' ys := by
  cases h with
  | apart h => exact absurd h (by simp [startsApart, hc])
  | cons c h => exact ⟨_, rfl, h⟩

theorem GoesOnLike.starts (h : GoesOnLike xs ys) (hus : ∀ c ∈ us, isSeparator c = false)
    (hstart : us <+: ys) : us <+: xs := by
  induction us generalizing xs ys with
  | nil => exact List.nil_prefix
  | cons c us ih =>
    obtain ⟨rest, rfl⟩ := hstart
    obtain ⟨hc, hus⟩ := List.forall_mem_cons.1 hus
    obtain ⟨xs', rfl, htail⟩ := h.tail hc
    exact List.cons_prefix_cons.2 ⟨rfl, ih htail hus (List.prefix_append us rest)⟩

/-- The separators. -/
def separators : List Char := [' ', '\n', '(', ')', '{', '}', '[', ']', ';', ',', ':', '?', '<']

theorem eq_false_of_isSeparator {p : Char → Bool} (h : separators.all (!p ·)) (c : Char)
    (hc : isSeparator c) : p c = false := by
  simpa using List.all_eq_true.1 h c (List.contains_iff_mem.1 hc)

/-! ## Lengths -/

theorem runLength_eq_length_iff :
    runLength p (us ++ xs) = us.length ↔ (∀ c ∈ us, p c) ∧ ∀ x ∈ xs.head?, p x = false := by
  induction us with
  | nil =>
    cases xs with
    | nil => simp [runLength]
    | cons x xs => cases hx : p x <;> simp [runLength, hx]
  | cons c us ih =>
    cases hc : p c with
    | false => simp [runLength, hc]
    | true =>
      have hcons : runLength p (c :: us ++ xs) = runLength p (us ++ xs) + 1 := by
        simp [runLength, hc]
      rw [hcons, List.length_cons, Nat.add_right_cancel_iff, ih]
      simp [hc]

theorem runLength_of_goesOnLike (h : GoesOnLike xs ys) (hp : ∀ c, isSeparator c → p c = false)
    (hxs : runLength p (us ++ xs) = us.length) : runLength p (us ++ ys) = us.length := by
  obtain ⟨hall, hhead⟩ := runLength_eq_length_iff.1 hxs
  exact runLength_eq_length_iff.2 ⟨hall, h.head hp hhead⟩

/-- A literal that is closed is read as it is wherever it stands. -/
theorem literalLength_take (h : (literalLength quote cs).1) (rest : List Char) :
    literalLength quote (cs.take (literalLength quote cs).2 ++ rest) = literalLength quote cs := by
  fun_induction literalLength quote cs with
  | case1 => exact absurd h (by simp)
  | case2 => exact absurd h (by simp)
  | case3 => exact absurd h (by simp)
  | case4 c cs hc closed n hcs ih =>
    rw [hcs] at ih
    have hih := ih h
    rw [List.take_succ_cons, List.take_succ_cons, List.cons_append, List.cons_append, literalLength,
      if_neg hc, hih]
  | case5 cs hnil hcons =>
    have hc : quote ≠ '\\' := ne_backslash hnil hcons
    rw [List.take_succ_cons, List.cons_append, literalLength_cons hc, if_pos rfl]
  | case6 => exact absurd h (by simp)
  | case7 c cs hnil hcons hc hbreaks closed n hcs ih =>
    have hslash : c ≠ '\\' := ne_backslash hnil hcons
    rw [hcs] at ih
    have hih := ih h
    rw [List.take_succ_cons, List.cons_append, literalLength_cons hslash, if_neg hc, if_neg hbreaks,
      hih]

theorem take_runLength (p : Char → Bool) (cs : List Char) :
    cs.take (runLength p cs) = cs.takeWhile p :=
  (List.prefix_iff_eq_take.1 (List.takeWhile_prefix p)).symm

/-- A number is a run of its characters, or two of them with a point between. -/
theorem numberLength_cases (h : numberLength (us ++ xs) = us.length) :
    (runLength isNumberRest (us ++ xs) = us.length ∧
      ∀ xs', xs = '.' :: xs' → runLength isNumberRest xs' = 0) ∨
    ∃ front after, us = front ++ '.' :: after ∧ (∀ c ∈ front, isNumberRest c) ∧ after ≠ [] ∧
      runLength isNumberRest (after ++ xs) = after.length := by
  have htake := take_runLength isNumberRest (us ++ xs)
  rw [numberLength] at h
  generalize hn : runLength isNumberRest (us ++ xs) = n at h htake
  dsimp only at h
  -- Either the first run ends the number, or a point and a second run follow it.
  by_cases hlength : n = us.length
  · refine Or.inl ⟨hlength, ?_⟩
    rintro xs' rfl
    rw [hlength, List.drop_left] at h
    refine Decidable.byContradiction fun hpoint => ?_
    replace h : us.length + 1 + runLength isNumberRest xs' = us.length := (if_neg hpoint).symm.trans h
    omega
  · right
    cases hdrop : (us ++ xs).drop n with
    | nil => exact absurd (by simpa [hdrop] using h) hlength
    | cons c rest =>
      by_cases hc : c = '.'
      · subst hc
        rw [hdrop] at h
        by_cases hpoint : runLength isNumberRest rest = 0
        · exact absurd ((if_pos hpoint).symm.trans h) hlength
        · replace h : n + 1 + runLength isNumberRest rest = us.length := (if_neg hpoint).symm.trans h
          have hle : n < us.length := by omega
          rw [List.take_append_of_le_length (Nat.le_of_lt hle)] at htake
          rw [List.drop_append_of_le_length (Nat.le_of_lt hle)] at hdrop
          obtain ⟨d, after, hafter⟩ := List.exists_cons_of_length_pos
            (l := us.drop n) (by rw [List.length_drop]; omega)
          rw [hafter, List.cons_append] at hdrop
          obtain ⟨rfl, rfl⟩ := List.cons.inj hdrop
          have hcount : after.length + 1 = us.length - n := by
            rw [← List.length_drop, hafter, List.length_cons]
          refine ⟨us.take n, after, by rw [← hafter, List.take_append_drop], ?_, ?_, by omega⟩
          · rw [htake]
            exact List.all_eq_true.1 List.all_takeWhile
          · rintro rfl
            exact hpoint (by simp at hcount; omega)
      · exact absurd (by simpa [hdrop, hc] using h) hlength

/-- A number goes on over a point only if one of its characters is behind it. -/
theorem numberLength_of_goesOnLike (h : GoesOnLike xs ys)
    (hxs : numberLength (us ++ xs) = us.length) : numberLength (us ++ ys) = us.length := by
  have hnumber : ∀ c, isSeparator c → isNumberRest c = false := eq_false_of_isSeparator (by decide)
  rcases numberLength_cases hxs with ⟨hrun, hpoint⟩ | ⟨front, after, rfl, hfront, hne, hafter⟩
  · have hrun' := runLength_of_goesOnLike h hnumber hrun
    rw [numberLength, hrun', List.drop_left]
    cases ys with
    | nil => rfl
    | cons c ys =>
      by_cases hc : c = '.'
      · subst hc
        obtain ⟨xs', rfl, htail⟩ := h.tail (by decide)
        have hrest : runLength isNumberRest ([] ++ ys) = 0 :=
          runLength_of_goesOnLike htail hnumber (hpoint xs' rfl)
        rw [List.nil_append] at hrest
        simp [hrest]
      · simp [hc]
  · have hafter' := runLength_of_goesOnLike h hnumber hafter
    have hrun : runLength isNumberRest (front ++ ('.' :: (after ++ ys))) = front.length :=
      runLength_eq_length_iff.2 ⟨hfront, by simp [isNumberRest]⟩
    rw [List.append_assoc, List.cons_append, numberLength, hrun, List.drop_left]
    simp [hafter', hne]
    omega

/-! ## One lexeme -/

/-- A comment has a character between the first one and what is counted. -/
theorem exists_cons_of_append {d : Char} {n : Nat} (hcs : us ++ xs = d :: cs)
    (hlength : 1 + n = us.length) : ∃ us', us = d :: us' ∧ cs = us' ++ xs ∧ n = us'.length := by
  cases us with
  | nil => exact absurd hlength (by rw [List.length_nil]; omega)
  | cons e us =>
    rw [List.cons_append] at hcs
    obtain ⟨rfl, rfl⟩ := List.cons.inj hcs
    rw [List.length_cons] at hlength
    exact ⟨us, rfl, rfl, by omega⟩

/-- **A lexeme ends where it did,** if what follows is like what followed, up to a separator. A line
comment needs the end of its line, and a block comment must be closed. -/
theorem classify_of_goesOnLike {cls : LexemeClass} (h : GoesOnLike xs ys)
    (hread : classify c (us ++ xs) = (cls, us.length)) (hblank : cls ≠ .blank)
    (hstray : cls ≠ .stray) (hline : cls = .token .lineComment → ys.head? = some '\n')
    (hblock : cls = .token .blockComment → ['*', '/'] <:+ us.drop 1) :
    classify c (us ++ ys) = (cls, us.length) := by
  rw [← classifies_iff] at hread ⊢
  generalize hn : us.length = n at hread
  -- Each kind of lexeme has its own reason to end where it does.
  cases hread with
  | run hr hc =>
    have hstops : ∀ r ∈ runClasses, r.cls ≠ .blank → separators.all (!r.rest ·) := by decide
    rw [← hn, ← runLength_of_goesOnLike h (eq_false_of_isSeparator (hstops _ hr hblank)) hn.symm]
    exact .run hr hc
  | number hc =>
    rw [← hn, ← numberLength_of_goesOnLike h hn.symm]
    exact .number hc
  | lineComment hc hcs =>
    obtain ⟨us, rfl, rfl, hcount⟩ := exists_cons_of_append hcs hn.symm
    have hcount' : runLength (· ≠ '\n') (us ++ ys) = us.length :=
      runLength_eq_length_iff.2 ⟨(runLength_eq_length_iff.1 hcount).1, by simp [hline rfl]⟩
    rw [hcount, ← hcount']
    exact .lineComment hc rfl
  | blockComment hc hcs =>
    obtain ⟨us, rfl, rfl, hcount⟩ := exists_cons_of_append hcs hn.symm
    have hclosed : ['*', '/'] <:+ (us ++ xs).take (blockLength (us ++ xs)) := by
      rw [hcount, List.take_left]
      exact hblock rfl
    have htake := blockLength_take hclosed ys
    rw [hcount, List.take_left] at htake
    rw [hcount, ← htake]
    exact .blockComment hc rfl
  | literal hc hclosed =>
    have hsame := literalLength_take hclosed ys
    rw [← hn, List.take_left] at hsame
    rw [← hsame]
    exact .literal hc (by rw [hsame, hclosed])
  | unclosed => exact absurd rfl hstray
  | single hc halone =>
    obtain rfl := List.length_eq_zero_iff.1 hn
    have hmarks : ∀ m ∈ longer, m.all (!isSeparator ·) := by decide
    refine .single hc fun vs hvs hstart => halone vs hvs (h.starts ?_ hstart)
    intro d hd
    simpa using List.all_eq_true.1 (hmarks _ hvs) d (List.mem_cons_of_mem c hd)
  | mark hc hcs =>
    obtain ⟨rfl, -⟩ := List.append_inj hcs hn
    exact .mark hc rfl
  | control => exact absurd rfl hstray

theorem classify_take (c : Char) (cs : List Char) :
    classify c (cs.take (classify c cs).2 ++ cs.drop (classify c cs).2) =
      ((classify c cs).1, (cs.take (classify c cs).2).length) := by
  rw [List.take_append_drop, List.length_take_of_le (classify_le c cs)]

/-- What is behind a lexeme that is not told by its first character alone. -/
def Leaves (c : Char) (us xs : List Char) : LexemeClass → Prop
  | .blank => ∀ x ∈ c :: us, isGap x
  | .token .lineComment => ∀ x ∈ xs.head?, x = '\n'
  | .token .blockComment => ∃ vs, c = '/' ∧ us = '*' :: vs ∧ blockLength (vs ++ xs) = vs.length ∧
      (xs ≠ [] → ['*', '/'] <:+ vs)
  | _ => True

theorem leaves_of_ne (hline : k ≠ .lineComment) (hblock : k ≠ .blockComment) :
    Leaves c us xs (.token k) := by
  unfold Leaves
  split <;> simp_all

/-- Blanks are blank, a line comment goes on to the end of the line, and a block comment that
something follows is closed. -/
theorem leaves_of_classify {cls : LexemeClass} (h : classify c (us ++ xs) = (cls, us.length)) :
    Leaves c us xs cls := by
  rw [← classifies_iff] at h
  generalize hn : us.length = n at h
  -- Only blanks and comments say something about what follows them.
  cases h with
  | run hr hc =>
    rcases mem_runClasses_iff.1 hr with ⟨rfl, rfl, rfl⟩ | ⟨rfl, -⟩ | ⟨rfl, -⟩ | ⟨rfl, -⟩
    · exact List.forall_mem_cons.2 ⟨hc, (runLength_eq_length_iff.1 hn.symm).1⟩
    all_goals trivial
  | number => trivial
  | lineComment hc hcs =>
    obtain ⟨us, rfl, rfl, hcount⟩ := exists_cons_of_append hcs hn.symm
    intro x hx
    simpa using (runLength_eq_length_iff.1 hcount).2 x hx
  | blockComment hc hcs =>
    obtain ⟨us, rfl, rfl, hcount⟩ := exists_cons_of_append hcs hn.symm
    refine ⟨us, hc, rfl, hcount, fun hxs => ?_⟩
    refine Decidable.byContradiction fun hopen => hxs ?_
    have hall : blockLength (us ++ xs) = (us ++ xs).length :=
      blockLength_of_open (by rw [hcount, List.take_left]; exact hopen)
    rw [hcount, List.length_append] at hall
    exact List.length_eq_zero_iff.1 (by omega)
  | literal hc =>
    have hquotes : ∀ q ∈ quotes, q.2 ≠ .lineComment ∧ q.2 ≠ .blockComment := by decide
    exact leaves_of_ne (hquotes _ hc).1 (hquotes _ hc).2
  | unclosed => trivial
  | single hc =>
    have hsingles : ∀ s ∈ singles, s.2 ≠ .lineComment ∧ s.2 ≠ .blockComment := by decide
    exact leaves_of_ne (hsingles _ hc).1 (hsingles _ hc).2
  | mark hc =>
    have hmarks : ∀ m ∈ marks, m.2 ≠ .lineComment ∧ m.2 ≠ .blockComment := by decide
    exact leaves_of_ne (hmarks _ hc).1 (hmarks _ hc).2
  | control => trivial

/-! ### Ends of a lexeme -/

theorem isBlank_of_isIdentRest (h : isIdentRest c) : Text.isBlank c = false := by
  simp only [isIdentRest, Bool.or_eq_true, decide_eq_true_eq] at h
  rcases h with (h | rfl) | rfl
  · exact Text.isBlank_of_isAlphanum h
  all_goals rfl

theorem isBlank_of_isOperatorChar (h : isOperatorChar c) : Text.isBlank c = false := by
  simp only [isOperatorChar, List.contains_iff_mem, List.mem_cons, List.not_mem_nil, or_false] at h
  rcases h with rfl | rfl | rfl | rfl | rfl | rfl | rfl | rfl | rfl | rfl | rfl | rfl <;> rfl

theorem isIdentRest_of_isIdentStart (h : isIdentStart c) : isIdentRest c := by
  simp only [isIdentStart, Bool.or_eq_true, decide_eq_true_eq] at h
  simp only [isIdentRest, Char.isAlphanum, Bool.or_eq_true, decide_eq_true_eq]
  exact h.imp_left fun h => h.imp_left Or.inl

theorem isIdentRest_of_isNumberRest (h : isNumberRest c) : isIdentRest c := by
  simp only [isNumberRest, Bool.or_eq_true, decide_eq_true_eq] at h
  simp only [isIdentRest, Bool.or_eq_true, decide_eq_true_eq]
  exact Or.inl h

theorem exists_getLast?_of_forall (h : ∀ x ∈ c :: us, p x) :
    ∃ x, (c :: us).getLast? = some x ∧ p x :=
  ⟨_, List.getLast?_eq_some_getLast (List.cons_ne_nil c us), h _ (List.getLast_mem _)⟩

theorem exists_getLast?_of_number (hc : c.isDigit) (hn : numberLength (us ++ xs) = us.length) :
    ∃ x, (c :: us).getLast? = some x ∧ isIdentRest x := by
  rcases numberLength_cases hn with ⟨hrun, -⟩ | ⟨front, after, rfl, -, hne, hafter⟩
  · refine exists_getLast?_of_forall (List.forall_mem_cons.2 ⟨?_, fun x hx => ?_⟩)
    · simp [isIdentRest, Char.isAlphanum, hc]
    · exact isIdentRest_of_isNumberRest ((runLength_eq_length_iff.1 hrun).1 x hx)
  · have hsplit : c :: (front ++ '.' :: after) = c :: front ++ ['.'] ++ after := by simp
    rw [hsplit, List.getLast?_append, List.getLast?_eq_some_getLast hne, Option.some_or]
    exact ⟨_, rfl, isIdentRest_of_isNumberRest
      ((runLength_eq_length_iff.1 hafter).1 _ (List.getLast_mem hne))⟩

/-- A literal ends with its quote. -/
theorem getLast?_literal (h : (literalLength quote cs).1) :
    (cs.take (literalLength quote cs).2).getLast? = some quote := by
  fun_induction literalLength quote cs with
  | case1 => exact absurd h (by simp)
  | case2 => exact absurd h (by simp)
  | case3 => exact absurd h (by simp)
  | case4 c cs hc closed n hcs ih =>
    rw [hcs] at ih
    rw [List.take_succ_cons, List.take_succ_cons, List.getLast?_cons, List.getLast?_cons, ih h]
    rfl
  | case5 => rfl
  | case6 => exact absurd h (by simp)
  | case7 c cs _ _ _ _ closed n hcs ih =>
    rw [hcs] at ih
    rw [List.take_succ_cons, List.getLast?_cons, ih h]
    rfl

/-- A character that a token of more than one can start or end with. -/
inductive Bounds (k : Kind) (c : Char) : Prop where
  | name (h : isIdentRest c)
  | operator (h : isOperatorChar c)
  | nonAscii (hk : k = .nonAscii) (h : isNonAscii c)
  | mark (h : c ∈ ['"', '\'', '`', '.', '=', '>'])

/-- **How a token starts and ends.** It is one character, or it starts and ends with characters of
its class. -/
theorem bounds_of_classify (hread : classify c (us ++ xs) = (.token k, us.length))
    (htrivia : k.isTrivia = false) :
    (us = [] ∧ (c, k) ∈ singles) ∨
      Bounds k c ∧ ∃ x, (c :: us).getLast? = some x ∧ Bounds k x := by
  rw [← classifies_iff] at hread
  generalize hn : us.length = n at hread
  cases hread with
  | run hr hc =>
    have hus := (runLength_eq_length_iff.1 hn.symm).1
    rcases mem_runClasses_iff.1 hr with ⟨h, -⟩ | ⟨-, rfl, rfl⟩ | ⟨-, rfl, rfl⟩ | ⟨hk, rfl, rfl⟩
    · exact absurd h (by simp)
    · have hc := isIdentRest_of_isIdentStart hc
      obtain ⟨x, hlast, hx⟩ := exists_getLast?_of_forall (List.forall_mem_cons.2 ⟨hc, hus⟩)
      exact Or.inr ⟨.name hc, x, hlast, .name hx⟩
    · obtain ⟨x, hlast, hx⟩ := exists_getLast?_of_forall (List.forall_mem_cons.2 ⟨hc, hus⟩)
      exact Or.inr ⟨.operator hc, x, hlast, .operator hx⟩
    · obtain ⟨x, hlast, hx⟩ := exists_getLast?_of_forall (List.forall_mem_cons.2 ⟨hc, hus⟩)
      have hk := LexemeClass.token.inj hk
      exact Or.inr ⟨.nonAscii hk hc, x, hlast, .nonAscii hk hx⟩
  | number hc =>
    obtain ⟨x, hlast, hx⟩ := exists_getLast?_of_number hc hn.symm
    have hc : isIdentRest c := by simp [isIdentRest, Char.isAlphanum, hc]
    exact Or.inr ⟨.name hc, x, hlast, .name hx⟩
  | lineComment => exact absurd htrivia (by decide)
  | blockComment => exact absurd htrivia (by decide)
  | literal hc hclosed =>
    have hquotes : ∀ q ∈ quotes, q.1 ∈ ['"', '\'', '`', '.', '=', '>'] := by decide
    have hlast := getLast?_literal hclosed
    rw [← hn, List.take_left] at hlast
    have hmark : Bounds k c := .mark (hquotes _ hc)
    exact Or.inr ⟨hmark, c, by rw [List.getLast?_cons, hlast]; rfl, hmark⟩
  | single hc => exact Or.inl ⟨List.length_eq_zero_iff.1 hn, hc⟩
  | mark hc hcs =>
    obtain ⟨rfl, -⟩ := List.append_inj hcs hn
    simp only [marks, List.mem_cons, List.not_mem_nil, or_false, Prod.mk.injEq,
      List.cons.injEq] at hc
    rcases hc with ⟨⟨rfl, rfl⟩, -⟩ | ⟨⟨rfl, rfl⟩, -⟩
    · exact Or.inr ⟨.mark (by decide), '.', rfl, .mark (by decide)⟩
    · exact Or.inr ⟨.mark (by decide), '>', rfl, .mark (by decide)⟩

theorem Bounds.isBlank (h : Bounds k c) (hascii : k = .nonAscii → Text.isBlank c = false) :
    Text.isBlank c = false := by
  have hmarks : ['"', '\'', '`', '.', '=', '>'].all (!Text.isBlank ·) := by decide
  cases h with
  | name h => exact isBlank_of_isIdentRest h
  | operator h => exact isBlank_of_isOperatorChar h
  | nonAscii hk => exact hascii hk
  | mark h => simpa using List.all_eq_true.1 hmarks c h

/-- No token but those outside ASCII starts or ends with a blank. -/
theorem isBlank_ends (hread : classify c (us ++ xs) = (.token k, us.length))
    (htrivia : k.isTrivia = false) (hascii : k = .nonAscii → ∀ x ∈ c :: us, Text.isBlank x = false) :
    Text.isBlank c = false ∧ ∀ x ∈ (c :: us).getLast?, Text.isBlank x = false := by
  rcases bounds_of_classify hread htrivia with ⟨rfl, hc⟩ | ⟨hfirst, x, hlast, hx⟩
  · have hsingles : ∀ s ∈ singles, s.2.isTrivia = false → Text.isBlank s.1 = false := by decide
    have hc := hsingles _ hc htrivia
    exact ⟨hc, by simpa using hc⟩
  · have hlast' := hx.isBlank fun hk => hascii hk x (List.mem_of_getLast? hlast)
    rw [hlast]
    exact ⟨hfirst.isBlank fun hk => hascii hk c List.mem_cons_self, by simpa using hlast'⟩

/-- A separator is a token whatever follows, but for blanks. -/
theorem exists_classify_separator (hc : isSeparator c) (hgap : isGap c = false) :
    ∃ k, ∀ cs, classify c cs = (.token k, 0) := by
  simp only [isSeparator, List.contains_iff_mem, List.mem_cons, List.not_mem_nil, or_false] at hc
  rcases hc with rfl | rfl | rfl | rfl | rfl | rfl | rfl | rfl | rfl | rfl | rfl | rfl | rfl
  · exact absurd hgap (by decide)
  all_goals exact ⟨_, fun _ => rfl⟩

end SvelteTypings.Script.Lexeme
