import SvelteTypings.Proofs.Script.Origin
import SvelteTypings.Proofs.Script.Reading

/-!
# Texts that are put together

A declaration is put together from spans of the script and from words. A span of a script without
stray input is read as the tokens that it was (`IsLegible.reads_span`), and a text whose parts are
matched is matched if the parts stand apart.
-/

namespace SvelteTypings.Script

open Lexeme

variable {t : Token} {ts us vs : List Token} {c : Char} {cs rest : List Char} {l : Lexeme}
  {ls : List Lexeme} {k : Kind}

/-! ## Legible runs -/

/-- Not stray input, and no token that has a blank in it from outside ASCII. -/
def Lexeme.isClean (l : Lexeme) : Bool :=
  l.cls ≠ .stray && (l.cls ≠ .token .nonAscii || l.text.all (!Text.isBlank ·))

/-- All of the text is tokens and blanks of ASCII. -/
def isClean (source : String) : Bool := (read source.toList).all Lexeme.isClean

/-- Tokens other than newlines and comments that follow each other in a clean text. -/
def IsLegible (us : List Token) : Prop :=
  ∃ cs gap ls, ls <+: read cs ∧ (∀ l ∈ ls, l.isClean) ∧ tokensExcept Kind.isTrivia gap ls = us

theorem read_flatMap_text {ls₁ ls₂ : List Lexeme} (h : read cs = ls₁ ++ ls₂) :
    read (ls₂.flatMap (·.text)) = ls₂ := by
  induction ls₁ generalizing cs with
  | nil =>
    have htext := flatMap_text_read cs
    rw [h, List.nil_append] at htext
    rw [htext, h, List.nil_append]
  | cons l ls₁ ih =>
    cases cs with
    | nil => exact absurd h (by simp [read_nil])
    | cons c cs =>
      rw [read_cons, List.cons_append] at h
      exact ih (List.cons.inj h).2

theorem prefix_of_append {ls₁ ls₂ : List Lexeme} (h : ls₁ ++ ls₂ <+: read cs) :
    ls₁ <+: read cs ∧ ∃ cs', ls₂ <+: read cs' := by
  obtain ⟨behind, hbehind⟩ := h
  rw [List.append_assoc] at hbehind
  refine ⟨⟨_, hbehind⟩, (ls₂ ++ behind).flatMap (·.text), ?_⟩
  rw [read_flatMap_text hbehind.symm]
  exact List.prefix_append _ _

namespace IsLegible

theorem of_append (h : IsLegible (us ++ vs)) : IsLegible us ∧ IsLegible vs := by
  obtain ⟨cs, gap, ls, hrun, hclean, htokens⟩ := h
  obtain ⟨ls₁, ls₂, gap₂, rfl, hus, hvs, -⟩ := exists_of_tokensExcept_eq_append htokens
  obtain ⟨hrun₁, cs₂, hrun₂⟩ := prefix_of_append hrun
  obtain ⟨hclean₁, hclean₂⟩ := List.forall_mem_append.1 hclean
  exact ⟨⟨cs, gap, ls₁, hrun₁, hclean₁, hus⟩, cs₂, gap₂, ls₂, hrun₂, hclean₂, hvs⟩

theorem of_isInfix (h : IsLegible vs) (hus : us <:+: vs) : IsLegible us := by
  obtain ⟨front, behind, rfl⟩ := hus
  exact h.of_append.1.of_append.2

theorem of_cons (h : IsLegible (t :: us)) : IsLegible us :=
  h.of_isInfix (List.suffix_cons t us).isInfix

theorem of_mem (h : IsLegible us) (ht : t ∈ us) : IsLegible [t] := by
  obtain ⟨front, behind, rfl⟩ := List.append_of_mem ht
  exact h.of_isInfix ⟨front, behind, by simp⟩

end IsLegible

/-- What is significant of a stretch of a clean script is legible. -/
theorem isLegible_significant {source : String} (hsource : isClean source)
    (h : ts <:+: tokenize source) : IsLegible (Token.significant ts) := by
  obtain ⟨front, behind, htokens⟩ := h
  rw [tokenize, tokensAfter_eq, List.append_assoc] at htokens
  obtain ⟨ls₁, ls₂, gap₂, hread, -, hrest, -⟩ := exists_of_tokensExcept_eq_append htokens.symm
  obtain ⟨ls₃, ls₄, gap₄, rfl, hts, -, -⟩ := exists_of_tokensExcept_eq_append hrest
  have hclean : ∀ l ∈ read source.toList, l.isClean := List.all_eq_true.1 hsource
  have hrun : ls₁ ++ ls₃ <+: read source.toList := ⟨ls₄, by rw [hread, List.append_assoc]⟩
  obtain ⟨-, cs, hprefix⟩ := prefix_of_append hrun
  refine ⟨cs, gap₂, ls₃, hprefix, fun l hl => hclean l ?_, ?_⟩
  · rw [hread]
    exact List.mem_append_right _ (List.mem_append_left _ hl)
  · rw [← tokensAfter_eq] at hts
    rw [← hts]
    exact (significantAfter_tokensAfter [] gap₂ ls₃).symm

/-! ### Spans -/

theorem not_isTrivia_of_kept (h : (l.kept? Kind.isTrivia).isSome) :
    ∃ k, l.cls = .token k ∧ k.isTrivia = false := by
  rcases kept?_cases Kind.isTrivia l with ⟨k, hcls, hk, -⟩ | ⟨hnone, -⟩
  · exact ⟨k, hcls, hk⟩
  · rw [hnone] at h
    exact absurd h (by simp)

/-- A legible run has the text and the brackets of some lexemes, from its first token to the last. -/
theorem IsLegible.exists_lexemes (h : IsLegible us) (hne : us ≠ []) :
    ∃ cs l ls, l :: ls <+: read cs ∧ (∀ l' ∈ l :: ls, l'.isClean) ∧
      (l.kept? Kind.isTrivia).isSome ∧ (∀ l' ∈ (l :: ls).getLast?, (l'.kept? Kind.isTrivia).isSome) ∧
      (Token.span us).toList = (l :: ls).flatMap (·.text) ∧
      bracketsOf us = (l :: ls).flatMap (·.cls.brackets) := by
  obtain ⟨cs, gap, ls, hrun, hclean, htokens⟩ := h
  obtain ⟨t, ts, rfl⟩ := List.exists_cons_of_ne_nil hne
  rw [← List.append_nil (t :: ts)] at htokens
  obtain ⟨ls, ls₂, gap₂, rfl, hts, -, hlast⟩ := exists_of_tokensExcept_eq_append htokens
  obtain ⟨front, l, behind, rfl, hl, htext, hbehind⟩ := exists_of_tokensExcept_eq_cons hts
  obtain ⟨-, cs', hrun'⟩ := prefix_of_append (prefix_of_append hrun).1
  have hlast' : ∀ l' ∈ (l :: behind).getLast?, (l'.kept? Kind.isTrivia).isSome := by
    simpa [List.getLast?_append] using hlast
  refine ⟨cs', l, behind, hrun', fun l' hl' => hclean l' ?_, by rw [hl]; rfl, hlast', ?_, ?_⟩
  · exact List.mem_append_left _ (List.mem_append_right _ hl')
  · have hjoin : String.join ((tokensExcept Kind.isTrivia [] behind).map Token.spaced) =
        String.ofList ([] ++ behind.flatMap (·.text)) :=
      join_spaced_tokensExcept (fun _ => rfl) fun l' hl' =>
        hlast' l' (by rw [List.getLast?_cons, Option.mem_def.1 hl']; rfl)
    rw [Token.span, htext, ← hbehind, hjoin]
    simp
  · have hbrackets := bracketsOf_tokensExcept (fun _ => brackets_of_isTrivia) [] (l :: behind)
    rw [tokensExcept_kept hl, hbehind, bracketsOf_cons] at hbrackets
    rw [bracketsOf_cons, hbrackets]

theorem isBlank_ends_of_isClean (hl : l ∈ read cs) (hclean : l.isClean)
    (hkept : (l.kept? Kind.isTrivia).isSome) :
    (∃ d ∈ l.text.head?, Text.isBlank d = false) ∧ ∃ d ∈ l.text.getLast?, Text.isBlank d = false := by
  obtain ⟨k, hcls, hk⟩ := not_isTrivia_of_kept hkept
  obtain ⟨c, cs', rfl⟩ := exists_classify_of_mem_read hl
  have hread := classify_take c cs'
  dsimp only at hcls
  rw [hcls] at hread
  have hends := isBlank_ends hread hk fun hascii => by
    simpa [Lexeme.isClean, hcls, hascii] using hclean
  exact ⟨⟨c, rfl, hends.1⟩, _, List.getLast?_cons, hends.2 _ List.getLast?_cons⟩

/-- A span of tokens neither starts nor ends with a blank. -/
theorem IsLegible.trimmed_span (h : IsLegible us) : trimmed (Token.span us) = Token.span us := by
  cases us with
  | nil => rfl
  | cons t ts =>
    obtain ⟨cs, l, ls, hrun, hclean, hfirst, hlast, htext, -⟩ := h.exists_lexemes (by simp)
    have hblank : ∀ l' ∈ l :: ls, (l'.kept? Kind.isTrivia).isSome → _ := fun l' hl' =>
      isBlank_ends_of_isClean (hrun.subset hl') (hclean l' hl')
    obtain ⟨⟨c, hc, hcblank⟩, -⟩ := hblank l List.mem_cons_self hfirst
    obtain ⟨l', hl'⟩ : ∃ l', (l :: ls).getLast? = some l' := ⟨_, List.getLast?_cons⟩
    obtain ⟨-, d, hd, hdblank⟩ := hblank l' (List.mem_of_getLast? hl') (hlast l' hl')
    refine trimmed_of_ends (c := c) (d := d) ?_ ?_ hcblank hdblank
    · rw [htext, List.flatMap_cons, List.head?_append, Option.mem_def.1 hc]
      rfl
    · obtain ⟨front, hfront⟩ := List.getLast?_eq_some_iff.1 hl'
      rw [htext, hfront, List.flatMap_append, List.flatMap_cons, List.flatMap_nil, List.append_nil,
        List.getLast?_append, Option.mem_def.1 hd]
      rfl

/-! ## Texts -/

/-- In front of a separator, the text has the brackets of the tokens. -/
def Reads (text : String) (us : List Token) : Prop :=
  ∀ rest, startsApart rest → bracketsIn (text.toList ++ rest) = bracketsOf us ++ bracketsIn rest

/-- In front of anything, the text has the brackets of the tokens. -/
def ReadsAnywhere (text : String) (us : List Token) : Prop :=
  ∀ rest, bracketsIn (text.toList ++ rest) = bracketsOf us ++ bracketsIn rest

/-- **A span of a clean script is read as it was.** -/
theorem IsLegible.reads_span (h : IsLegible us) : Reads (Token.span us) us := by
  intro rest hrest
  cases us with
  | nil => rfl
  | cons t ts =>
    obtain ⟨cs, l, ls, hrun, hclean, -, hlast, htext, hbrackets⟩ := h.exists_lexemes (by simp)
    rw [htext, hbrackets]
    refine bracketsIn_flatMap_text hrun (fun l' hl' hstray => ?_) fun l' hl' => Or.inr ⟨hrest, ?_⟩
    · have hcleared := hclean l' hl'
      simp [Lexeme.isClean, hstray] at hcleared
    · obtain ⟨k, hcls, hk⟩ := not_isTrivia_of_kept (hlast l' hl')
      rw [hcls]
      constructor
      · rintro ⟨⟩
        exact absurd hk (by decide)
      · rintro ⟨⟩
        exact absurd hk (by decide)

end SvelteTypings.Script
