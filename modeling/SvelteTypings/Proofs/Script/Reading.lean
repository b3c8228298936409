import SvelteTypings.Proofs.Script.Declaring
import SvelteTypings.Proofs.Script.Locality
import SvelteTypings.Proofs.Script.Matching

/-!
# Brackets of a text

Whether the tokens of a text are matched is told by its brackets alone. A text that is put together
from parts has the brackets of the parts, if what follows each part starts with a separator
(`Reads.append`). A part may be any lexemes that follow each other in some text
(`bracketsIn_flatMap_text`).
-/

namespace SvelteTypings.Script

variable {t : Token} {ts us vs : List Token} {c : Char} {cs rest : List Char} {l : Lexeme}
  {ls : List Lexeme} {k : Kind}

/-! ## Brackets -/

/-- The bracket that a token of this kind is. -/
def Kind.brackets (k : Kind) : List Kind := if k.opens || k.closes then [k] else []

def bracketsOf (ts : List Token) : List Kind := ts.flatMap (·.kind.brackets)

def LexemeClass.brackets : LexemeClass → List Kind
  | .token k => k.brackets
  | _ => []

/-- The brackets among what is read. -/
def bracketsIn (cs : List Char) : List Kind := (Lexeme.read cs).flatMap (·.cls.brackets)

theorem bracketsOf_append (ts us : List Token) : bracketsOf (ts ++ us) = bracketsOf ts ++ bracketsOf us :=
  List.flatMap_append

theorem bracketsOf_cons (t : Token) (ts : List Token) :
    bracketsOf (t :: ts) = t.kind.brackets ++ bracketsOf ts :=
  List.flatMap_cons

theorem brackets_of_isTrivia (h : k.isTrivia) : k.brackets = [] := by
  cases k <;> first | rfl | exact absurd h (by decide)

theorem matchOver_eq_foldlM (p : List Kind) (ts : List Token) :
    matchOver p ts = (bracketsOf ts).foldlM matchStep p := by
  induction ts generalizing p with
  | nil => rfl
  | cons t ts ih =>
    rw [matchOver_cons, bracketsOf_cons, List.foldlM_append]
    cases hbracket : t.kind.opens || t.kind.closes with
    | false =>
      obtain ⟨hopens, hcloses⟩ := Bool.or_eq_false_iff.1 hbracket
      rw [matchStep_plain hopens hcloses, Kind.brackets, hbracket]
      exact ih p
    | true =>
      rw [Kind.brackets, hbracket, if_pos rfl, List.foldlM_cons]
      simp [ih]

/-- What is matched is told by brackets alone. -/
theorem isMatched_congr (h : bracketsOf ts = bracketsOf us) : isMatched ts = isMatched us := by
  rw [isMatched, isMatched, matchOver_eq_foldlM, matchOver_eq_foldlM, h]

theorem bracketsOf_significantAfter (gap : String) (ts : List Token) :
    bracketsOf (Token.significantAfter gap ts) = bracketsOf ts := by
  induction ts generalizing gap with
  | nil => rfl
  | cons t ts ih =>
    rw [Token.significantAfter]
    split
    · next htrivia => rw [ih, bracketsOf_cons, brackets_of_isTrivia htrivia, List.nil_append]
    · rw [bracketsOf_cons, ih, bracketsOf_cons]

theorem isMatched_significant (ts : List Token) : isMatched (Token.significant ts) = isMatched ts :=
  isMatched_congr (bracketsOf_significantAfter "" ts)

/-! ## Reading on -/

open Lexeme

theorem bracketsIn_nil : bracketsIn [] = [] := by
  rw [bracketsIn, read_nil]
  rfl

theorem bracketsIn_cons (c : Char) (cs : List Char) :
    bracketsIn (c :: cs) =
      (classify c cs).1.brackets ++ bracketsIn (cs.drop (classify c cs).2) := by
  rw [bracketsIn, read_cons, List.flatMap_cons]
  rfl

theorem bracketsIn_of_classify {cls : LexemeClass} {us : List Char}
    (h : classify c (us ++ rest) = (cls, us.length)) :
    bracketsIn (c :: us ++ rest) = cls.brackets ++ bracketsIn rest := by
  rw [List.cons_append, bracketsIn_cons, h, List.drop_left]

theorem bracketsIn_of_punctuation (h : classify c rest = (.token k, 0)) :
    bracketsIn (c :: rest) = k.brackets ++ bracketsIn rest := by
  rw [bracketsIn_cons, h]
  rfl

theorem classify_of_isGap (hc : isGap c) (cs : List Char) :
    classify c cs = (.blank, runLength isGap cs) :=
  if_pos hc

theorem bracketsIn_gap (hc : isGap c) (cs : List Char) : bracketsIn (c :: cs) = bracketsIn cs := by
  rw [bracketsIn_cons, classify_of_isGap hc]
  cases cs with
  | nil => rfl
  | cons d ds =>
    cases hd : isGap d with
    | false =>
      have hrun : runLength isGap (d :: ds) = 0 := by simp [runLength, hd]
      rw [hrun]
      rfl
    | true =>
      have hrun : runLength isGap (d :: ds) = runLength isGap ds + 1 := by simp [runLength, hd]
      rw [hrun, bracketsIn_cons, classify_of_isGap hd]
      rfl

theorem bracketsIn_gaps (h : ∀ c ∈ cs, isGap c) (rest : List Char) :
    bracketsIn (cs ++ rest) = bracketsIn rest := by
  induction cs with
  | nil => rfl
  | cons c cs ih =>
    obtain ⟨hc, hcs⟩ := List.forall_mem_cons.1 h
    rw [List.cons_append, bracketsIn_gap hc, ih hcs]

/-- What can stand in front of anything: nothing, or what ends with a separator. What else is no comment
can stand in front of a separator, and so can a block comment that is closed. -/
def EndsBefore (ls : List Lexeme) (rest : List Char) : Prop :=
  ∀ l ∈ ls.getLast?, (∃ c, isSeparator c ∧ l.text = [c]) ∨
    (startsApart rest ∧ l.cls ≠ .token .lineComment ∧
      (l.cls = .token .blockComment → ['*', '/'] <:+ l.text.drop 2))

theorem EndsBefore.of_cons (h : EndsBefore (l :: ls) rest) : EndsBefore ls rest := by
  cases ls with
  | nil => exact fun l hl => absurd hl (by simp)
  | cons l' ls => exact fun l'' hl => h l'' (by rwa [List.getLast?_cons_cons])

theorem EndsBefore.goesOnLike (h : EndsBefore ls rest) (hls : ls ≠ []) (xs : List Char) :
    GoesOnLike (ls.flatMap (·.text) ++ xs) (ls.flatMap (·.text) ++ rest) := by
  have hlast := List.getLast?_eq_some_getLast hls
  rcases h _ hlast with ⟨c, hc, htext⟩ | ⟨hrest, -⟩
  · obtain ⟨front, hfront⟩ := List.getLast?_eq_some_iff.1 hlast
    have hsplit : ls.flatMap (·.text) = front.flatMap (·.text) ++ [c] := by
      rw [hfront, List.flatMap_append, List.flatMap_cons, htext, List.flatMap_nil, List.append_nil]
    rw [hsplit, List.append_assoc, List.append_assoc]
    exact .append (by simpa [startsApart] using hc) _ _
  · exact .append hrest _ _

/-- A lexeme is read as it is in front of what is like what followed it. -/
theorem bracketsIn_text {us xs ys : List Char} {cls : LexemeClass}
    (hread : classify c (us ++ xs) = (cls, us.length)) (hstray : cls ≠ .stray)
    (h : (∃ d, isSeparator d ∧ c :: us = [d]) ∨ GoesOnLike xs ys ∧
      (cls = .token .lineComment → ys.head? = some '\n') ∧
      (cls = .token .blockComment → ['*', '/'] <:+ us.drop 1)) :
    bracketsIn (c :: us ++ ys) = cls.brackets ++ bracketsIn ys := by
  by_cases hblank : cls = .blank
  · subst hblank
    exact bracketsIn_gaps (leaves_of_classify hread) ys
  rcases h with ⟨d, hd, htext⟩ | ⟨hlike, hline, hblock⟩
  · obtain ⟨rfl, rfl⟩ := List.cons.inj htext
    have hgap : isGap c = false := by
      by_contra hgap
      rw [classify_of_isGap (by simpa using hgap)] at hread
      exact hblank (Prod.mk.inj hread).1.symm
    obtain ⟨k, hk⟩ := exists_classify_separator hd hgap
    rw [hk] at hread
    obtain ⟨rfl, -⟩ := Prod.mk.inj hread
    exact bracketsIn_of_punctuation (hk _)
  · exact bracketsIn_of_classify (classify_of_goesOnLike hlike hread hblank hstray hline hblock)

/-- **Lexemes are read as they are wherever their text stands,** brackets for brackets. -/
theorem bracketsIn_flatMap_text (hrun : ls <+: read cs) (hstray : ∀ l ∈ ls, l.cls ≠ .stray)
    (hends : EndsBefore ls rest) :
    bracketsIn (ls.flatMap (·.text) ++ rest) =
      ls.flatMap (·.cls.brackets) ++ bracketsIn rest := by
  -- Each lexeme of the run stops at the next one, and the last at what the run ends before.
  induction ls generalizing cs with
  | nil => rfl
  | cons l ls ih =>
    cases cs with
    | nil => exact absurd hrun (by simp [read_nil])
    | cons c cs =>
      obtain ⟨hl, hls⟩ := List.forall_mem_cons.1 hstray
      rw [read_cons] at hrun
      obtain ⟨rfl, hprefix⟩ := List.cons_prefix_cons.1 hrun
      have hih := ih hprefix hls hends.of_cons
      obtain ⟨behind, hbehind⟩ := hprefix
      have hread := classify_take c cs
      have hleaves := leaves_of_classify hread
      generalize classify c cs = out at hl hih hbehind hends hread hleaves ⊢
      obtain ⟨cls, n⟩ := out
      dsimp only at hl hih hbehind hends hread hleaves ⊢
      have htext : cs.drop n = ls.flatMap (·.text) ++ behind.flatMap (·.text) := by
        rw [← List.flatMap_append, hbehind, flatMap_text_read]
      rw [List.flatMap_cons, List.flatMap_cons, List.append_assoc, List.append_assoc, ← hih]
      refine bracketsIn_text hread hl ?_
      cases ls with
      | nil =>
        rcases hends _ rfl with hseparator | ⟨hrest, hline, hblock⟩
        · exact Or.inl hseparator
        · exact Or.inr ⟨.apart hrest, fun h => absurd h hline, hblock⟩
      | cons l ls =>
        have hmem : l ∈ read (cs.drop n) := by simp [← hbehind]
        have hne : l.text ≠ [] := text_ne_nil_of_mem_read hmem
        obtain ⟨d, ds, hd⟩ := List.exists_cons_of_ne_nil hne
        rw [htext] at hleaves ⊢
        refine Or.inr ⟨hends.of_cons.goesOnLike (by simp) _, ?_, ?_⟩
        · rintro rfl
          have hnewline : d = '\n' := hleaves d (by simp [hd])
          simp [hd, hnewline]
        · rintro rfl
          obtain ⟨us, -, hus, -, hclosed⟩ := hleaves
          rw [hus]
          exact hclosed (by simp [hd])

/-! ## Tokens among lexemes -/

namespace Lexeme

/-- The kind of a token that is not passed over. -/
def kept? (skips : Kind → Bool) (l : Lexeme) : Option Kind :=
  match l.cls with
  | .token k => if skips k then none else some k
  | _ => none

/-- The tokens that are not passed over; `gap` is the text passed over so far. -/
def tokensExcept (skips : Kind → Bool) (gap : List Char) : List Lexeme → List Token
  | [] => []
  | l :: ls =>
    match l.kept? skips with
    | some k => ⟨k, String.ofList gap, String.ofList l.text⟩ :: tokensExcept skips [] ls
    | none => tokensExcept skips (gap ++ l.text) ls

variable {skips : Kind → Bool} {gap : List Char}

theorem kept?_cases (skips : Kind → Bool) (l : Lexeme) :
    (∃ k, l.cls = .token k ∧ skips k = false ∧ l.kept? skips = some k) ∨
    (l.kept? skips = none ∧ ∀ k, l.cls = .token k → skips k) := by
  obtain ⟨cls, x⟩ := l
  cases cls with
  | token k =>
    cases hk : skips k with
    | true => exact Or.inr ⟨if_pos hk, by rintro _ ⟨⟩; exact hk⟩
    | false => exact Or.inl ⟨k, rfl, hk, if_neg (by simp [hk])⟩
  | blank => exact Or.inr ⟨rfl, by simp⟩
  | stray => exact Or.inr ⟨rfl, by simp⟩

theorem tokensExcept_kept (h : l.kept? skips = some k) (gap : List Char) (ls : List Lexeme) :
    tokensExcept skips gap (l :: ls) =
      ⟨k, String.ofList gap, String.ofList l.text⟩ :: tokensExcept skips [] ls := by
  rw [tokensExcept, h]

theorem tokensExcept_skipped (h : l.kept? skips = none) (gap : List Char) (ls : List Lexeme) :
    tokensExcept skips gap (l :: ls) = tokensExcept skips (gap ++ l.text) ls := by
  rw [tokensExcept, h]

theorem tokensAfter_eq (gap : List Char) (ls : List Lexeme) :
    tokensAfter gap ls = tokensExcept (fun _ => false) gap ls := by
  induction ls generalizing gap with
  | nil => rfl
  | cons l ls ih =>
    obtain ⟨cls, x⟩ := l
    cases cls with
    | token k => exact congrArg _ (ih [])
    | blank => exact ih (gap ++ x)
    | stray => exact ih (gap ++ x)

theorem significantAfter_tokensAfter (front gap : List Char) (ls : List Lexeme) :
    Token.significantAfter (String.ofList front) (tokensAfter gap ls) =
      tokensExcept Kind.isTrivia (front ++ gap) ls := by
  induction ls generalizing front gap with
  | nil => rfl
  | cons l ls ih =>
    obtain ⟨cls, x⟩ := l
    cases cls with
    | token k =>
      rw [tokensAfter, Token.significantAfter]
      split
      · next htrivia =>
        have hskipped : kept? Kind.isTrivia ⟨.token k, x⟩ = none := if_pos htrivia
        have hih := ih (front ++ gap ++ x) []
        rw [List.append_nil] at hih
        rw [tokensExcept_skipped hskipped, ← hih, Token.spaced, ← String.append_assoc,
          ← String.ofList_append, ← String.ofList_append]
      · next htrivia =>
        have hkept : kept? Kind.isTrivia ⟨.token k, x⟩ = some k := if_neg htrivia
        rw [tokensExcept_kept hkept, ← String.ofList_append]
        exact congrArg _ (ih [] [])
    | blank =>
      rw [tokensExcept_skipped rfl, List.append_assoc]
      exact ih front (gap ++ x)
    | stray =>
      rw [tokensExcept_skipped rfl, List.append_assoc]
      exact ih front (gap ++ x)

/-- Tokens that are cut are those of lexemes that are cut, behind the last of the first part. -/
theorem exists_of_tokensExcept_eq_append (h : tokensExcept skips gap ls = us ++ vs) :
    ∃ ls₁ ls₂ gap₂, ls = ls₁ ++ ls₂ ∧ tokensExcept skips gap ls₁ = us ∧
      tokensExcept skips gap₂ ls₂ = vs ∧ ∀ l ∈ ls₁.getLast?, (l.kept? skips).isSome := by
  -- Lexemes that are skipped go with the part whose token is still to come.
  induction ls generalizing gap us with
  | nil =>
    obtain ⟨rfl, rfl⟩ := List.append_eq_nil_iff.1 h.symm
    exact ⟨[], [], [], rfl, rfl, rfl, by simp⟩
  | cons l ls ih =>
    cases us with
    | nil => exact ⟨[], l :: ls, gap, rfl, rfl, h, by simp⟩
    | cons u us =>
      cases hl : l.kept? skips with
      | some k =>
        rw [tokensExcept_kept hl, List.cons_append] at h
        obtain ⟨rfl, hrest⟩ := List.cons.inj h
        obtain ⟨ls₁, ls₂, gap₂, rfl, hus, hvs, hlast⟩ := ih hrest
        refine ⟨l :: ls₁, ls₂, gap₂, rfl, by rw [tokensExcept_kept hl, hus], hvs, fun l' hl' => ?_⟩
        cases ls₁ with
        | nil =>
          obtain rfl : l = l' := by simpa using hl'
          rw [hl]
          rfl
        | cons l₁ ls₁ => exact hlast l' (by rwa [List.getLast?_cons_cons] at hl')
      | none =>
        rw [tokensExcept_skipped hl] at h
        obtain ⟨ls₁, ls₂, gap₂, rfl, hus, hvs, hlast⟩ := ih h
        refine ⟨l :: ls₁, ls₂, gap₂, rfl, (tokensExcept_skipped hl gap ls₁).trans hus, hvs,
          fun l' hl' => ?_⟩
        cases ls₁ with
        | nil => exact absurd hus (by simp [tokensExcept])
        | cons l₁ ls₁ => exact hlast l' (by rwa [List.getLast?_cons_cons] at hl')

theorem exists_of_tokensExcept_eq_cons (h : tokensExcept skips gap ls = t :: ts) :
    ∃ front l behind, ls = front ++ l :: behind ∧ l.kept? skips = some t.kind ∧
      t.text = String.ofList l.text ∧ tokensExcept skips [] behind = ts := by
  induction ls generalizing gap with
  | nil => exact absurd h (by simp [tokensExcept])
  | cons l ls ih =>
    cases hl : l.kept? skips with
    | some k =>
      rw [tokensExcept_kept hl] at h
      obtain ⟨rfl, rfl⟩ := List.cons.inj h
      exact ⟨[], l, ls, rfl, hl, rfl, rfl⟩
    | none =>
      rw [tokensExcept_skipped hl] at h
      obtain ⟨front, l', behind, rfl, hrest⟩ := ih h
      exact ⟨l :: front, l', behind, rfl, hrest⟩

/-- Tokens with their gaps are the text, if it ends with one of them. -/
theorem join_spaced_tokensExcept (hls : ls = [] → gap = [])
    (hlast : ∀ l ∈ ls.getLast?, (l.kept? skips).isSome) :
    String.join ((tokensExcept skips gap ls).map Token.spaced) =
      String.ofList (gap ++ ls.flatMap (·.text)) := by
  induction ls generalizing gap with
  | nil =>
    rw [hls rfl]
    rfl
  | cons l ls ih =>
    have hlast' : ∀ l' ∈ ls.getLast?, (l'.kept? skips).isSome := by
      intro l' hl'
      refine hlast l' ?_
      rw [List.getLast?_cons, Option.mem_def.1 hl']
      rfl
    cases hl : l.kept? skips with
    | some k =>
      rw [tokensExcept_kept hl, List.map_cons, String.join_cons, ih (fun _ => rfl) hlast']
      simp [Token.spaced, String.append_assoc]
    | none =>
      have hne : ls ≠ [] := by
        rintro rfl
        have hkept := hlast l (by simp)
        rw [hl] at hkept
        exact absurd hkept (by simp)
      rw [tokensExcept_skipped hl, ih (fun hnil => absurd hnil hne) hlast', List.append_assoc]
      rfl

end Lexeme

theorem bracketsOf_tokensExcept {skips : Kind → Bool} (hskips : ∀ k, skips k → k.brackets = [])
    (gap : List Char) (ls : List Lexeme) :
    bracketsOf (tokensExcept skips gap ls) = ls.flatMap (·.cls.brackets) := by
  induction ls generalizing gap with
  | nil => rfl
  | cons l ls ih =>
    rw [List.flatMap_cons]
    rcases kept?_cases skips l with ⟨k, hcls, -, hkept⟩ | ⟨hnone, hskipped⟩
    · rw [tokensExcept_kept hkept, bracketsOf_cons, ih, hcls]
      rfl
    · have hbrackets : l.cls.brackets = [] := by
        cases hcls : l.cls with
        | token k => exact hskips k (hskipped k hcls)
        | blank => rfl
        | stray => rfl
      rw [tokensExcept_skipped hnone, ih, hbrackets, List.nil_append]

/-- The tokens of a text have the brackets of the text. -/
theorem bracketsOf_tokenize (source : String) :
    bracketsOf (tokenize source) = bracketsIn source.toList := by
  rw [tokenize, tokensAfter_eq]
  exact bracketsOf_tokensExcept (by simp) [] _

end SvelteTypings.Script
