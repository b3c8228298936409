import Mathlib.Data.List.Induction
import SvelteTypings.Proofs.Script.Angles
import SvelteTypings.Proofs.Script.Documentation
import SvelteTypings.Proofs.Script.Parameters

/-!
# Pieces of a declaration

A declaration is put together from spans of the script, and from words that are not in it. A span of
a matched run of a clean script is paired (`IsRun.isPaired`), with and without the question marks at
its end, which an optional parameter loses (`IsLegible.bracketsIn_unmarked`). So are type parameters
and parenthesized runs, which are cut where their brackets close.
-/

namespace SvelteTypings.Script

open Lexeme

variable {c : Char} {ds xs cs rest : List Char} {k : Kind} {l : Lexeme} {ls : List Lexeme}
  {t : Token} {ts us vs : List Token} {text : String}

/-! ## Question marks -/

namespace Lexeme

/-- Only a question mark ends with one. -/
theorem question_of_getLast? (hread : classify c (ds ++ xs) = (.token k, ds.length))
    (htrivia : k.isTrivia = false) (hlast : (c :: ds).getLast? = some '?') :
    k = .question ∧ ds = [] := by
  rcases bounds_of_classify hread htrivia with ⟨rfl, hc⟩ | ⟨-, x, hx, hbounds⟩
  · obtain rfl : c = '?' := by simpa using hlast
    exact ⟨by simpa [singles] using hc, rfl⟩
  · obtain rfl := Option.some.inj (hlast.symm.trans hx)
    cases hbounds with
    | name h => exact absurd h (by decide)
    | operator h => exact absurd h (by decide)
    | nonAscii _ h => exact absurd h (by decide)
    | mark h => exact absurd h (by decide)

theorem Classifies.eq_newline {n : Nat} (h : Classifies c cs (.token .newline) n) :
    c = '\n' ∧ n = 0 := by
  cases h with
  | run hr => exact absurd hr (by simp [runClasses])
  | literal hc => exact absurd hc (by simp [quotes])
  | single hc => exact ⟨by simpa [singles] using hc, rfl⟩
  | mark hc => exact absurd hc (by simp [marks])

/-- In front of a question mark, what is passed over does not end with one, nor is it a comment that
goes on. -/
theorem trivia_before_question (hread : classify c (ds ++ xs) = (.token k, ds.length))
    (htrivia : k.isTrivia) (hxs : xs.head? = some '?') :
    (c :: ds).getLast? ≠ some '?' ∧ k ≠ .lineComment ∧
      (k = .blockComment → ['*', '/'] <:+ ds.drop 1) := by
  have hleaves := leaves_of_classify hread
  cases k <;> first | exact absurd htrivia (by decide) | skip
  case newline =>
    refine ⟨?_, by simp, by simp⟩
    intro hlast
    obtain ⟨rfl, hlength⟩ := (classifies_iff.2 hread).eq_newline
    obtain rfl := List.length_eq_zero_iff.1 hlength
    exact absurd hlast (by simp)
  case lineComment => exact absurd (hleaves '?' hxs) (by decide)
  case blockComment =>
    obtain ⟨vs, rfl, rfl, -, hclosed⟩ := hleaves
    have hend := hclosed (by rintro rfl; exact absurd hxs (by simp))
    refine ⟨?_, by simp, fun _ => hend⟩
    obtain ⟨inside, rfl⟩ := hend
    simp [List.getLast?_cons, List.getLast?_append]

end Lexeme

/-- The end of a lexeme that is a token, or that a question mark follows. -/
theorem ends_of_read (hl : l ∈ read cs) (hstray : l.cls ≠ .stray)
    (hlast : (l.kept? Kind.isTrivia).isSome ∨ ∃ q, ls ++ [l] ++ [q] <+: read cs ∧ q.text = ['?']) :
    (l.text.getLast? = some '?' → l.cls = .token .question ∧ l.text = ['?']) ∧
      l.cls ≠ .token .lineComment ∧
      (l.cls = .token .blockComment → ['*', '/'] <:+ l.text.drop 2) := by
  cases hkept : l.kept? Kind.isTrivia with
  | some k =>
    obtain ⟨k, hcls, hk⟩ := not_isTrivia_of_kept (Option.isSome_of_mem hkept)
    obtain ⟨c, cs', rfl⟩ := exists_classify_of_mem_read hl
    have hread := classify_take c cs'
    dsimp only at hcls
    rw [hcls] at hread
    refine ⟨fun hmark => ?_, ?_, ?_⟩
    · obtain ⟨rfl, hus⟩ := question_of_getLast? hread hk hmark
      dsimp only at hmark ⊢
      rw [hus] at hmark ⊢
      exact ⟨hcls, by simpa using hmark⟩
    · rintro hline
      rw [hcls] at hline
      obtain rfl := LexemeClass.token.inj hline
      exact absurd hk (by decide)
    · rintro hblock
      rw [hcls] at hblock
      obtain rfl := LexemeClass.token.inj hblock
      exact absurd hk (by decide)
  | none =>
    -- It is no token, so a question mark follows it in the text.
    obtain ⟨q, hrun, hq⟩ := hlast.resolve_left (by simp [hkept])
    rw [List.append_assoc] at hrun
    obtain ⟨-, cs', behind, hbehind⟩ := prefix_of_append hrun
    cases cs' with
    | nil => exact absurd hbehind (by simp [read_nil])
    | cons c cs' =>
      rw [read_cons] at hbehind
      obtain ⟨rfl, hrest⟩ := List.cons.inj hbehind
      have hxs : (cs'.drop (classify c cs').2).head? = some '?' := by
        rw [← flatMap_text_read (cs'.drop (classify c cs').2), ← hrest]
        simp [hq]
      have hread := classify_take c cs'
      cases hcls : (classify c cs').1 with
      | stray => exact absurd hcls hstray
      | blank =>
        rw [hcls] at hread
        have hall : ∀ x ∈ c :: cs'.take (classify c cs').2, isGap x := leaves_of_classify hread
        refine ⟨fun hmark => ?_, by simp, by simp⟩
        exact absurd (hall _ (List.mem_of_getLast? hmark)) (by decide)
      | token k =>
        rw [hcls] at hread
        -- a comment or a newline, in front of the question mark
        have htrivia : k.isTrivia := by
          simpa [Lexeme.kept?, hcls] using hkept
        obtain ⟨hmark, hline, hblock⟩ := trivia_before_question hread htrivia hxs
        exact ⟨fun h => absurd h hmark, by simpa using hline, by simpa using hblock⟩

/-- The question marks at the end of a run that is followed by one, or by something significant. -/
theorem exists_unmarked (hrun : ls <+: read cs) (hclean : ∀ l ∈ ls, l.isClean)
    (hlast : ∀ l ∈ ls.getLast?, (l.kept? Kind.isTrivia).isSome ∨
      ∃ q, ls ++ [q] <+: read cs ∧ q.text = ['?']) (rest : List Char) :
    ∃ ms ns, ls = ms ++ ns ∧ (∀ n ∈ ns, n.cls = .token .question) ∧
      Text.dropEndWhile (· = '?') (ls.flatMap (·.text)) = ms.flatMap (·.text) ∧
      EndsBefore ms ('?' :: rest) := by
  -- Induction from the end, where the question marks are taken away.
  induction ls using List.reverseRecOn with
  | nil =>
    have hnil : ∀ n ∈ ([] : List Lexeme), n.cls = .token .question := fun _ h =>
      absurd h List.not_mem_nil
    exact ⟨[], [], rfl, hnil, rfl, fun _ h => absurd h (by simp)⟩
  | append_singleton ls l ih =>
    have hl : l ∈ read cs := hrun.subset (by simp)
    have hstray : l.cls ≠ .stray := fun hstray => by
      have := hclean l (by simp)
      simp [Lexeme.isClean, hstray] at this
    obtain ⟨hmark, hline, hblock⟩ :
        (l.text.getLast? = some '?' → l.cls = .token .question ∧ l.text = ['?']) ∧
        l.cls ≠ .token .lineComment ∧
        (l.cls = .token .blockComment → ['*', '/'] <:+ l.text.drop 2) :=
      ends_of_read hl hstray (by simpa using hlast)
    by_cases hq : l.text.getLast? = some '?'
    · obtain ⟨hcls, htext⟩ := hmark hq
      obtain ⟨ms, ns, rfl, hns, hdrop, hends⟩ := ih ((List.prefix_append _ _).trans hrun)
        (fun l' hl' => hclean l' (List.mem_append_left _ hl')) fun l' _ => Or.inr ⟨l, hrun, htext⟩
      refine ⟨ms, ns ++ [l], by simp, ?_, ?_, hends⟩
      · intro n hn
        rcases List.mem_append.1 hn with hn | hn
        · exact hns n hn
        · rw [List.mem_singleton.1 hn]
          exact hcls
      · rw [← hdrop, List.flatMap_append, List.flatMap_cons, List.flatMap_nil, htext]
        simp [Text.dropEndWhile]
    · refine ⟨ls ++ [l], [], by simp, fun _ h => absurd h List.not_mem_nil, ?_, ?_⟩
      · refine Text.dropEndWhile_eq_self fun c hc => ?_
        rw [List.flatMap_append, List.flatMap_cons, List.flatMap_nil, List.append_nil,
          List.getLast?_append, List.getLast?_eq_some_getLast (text_ne_nil_of_mem_read hl),
          Option.some_or] at hc
        rw [decide_eq_false_iff_not]
        rintro rfl
        exact hq ((List.getLast?_eq_some_getLast (text_ne_nil_of_mem_read hl)).trans hc)
      · intro l' hl'
        obtain rfl : l = l' := by simpa using hl'
        exact Or.inr ⟨rfl, hline, hblock⟩

/-- A run is read as it was, also without the question marks at its end, in front of one. -/
theorem IsLegible.bracketsIn_unmarked {us : List Token} (h : IsLegible us) (rest : List Char) :
    bracketsIn (Text.dropEndWhile (· = '?') (Token.span us).toList ++ '?' :: rest) =
      bracketsOf us ++ bracketsIn ('?' :: rest) := by
  cases us with
  | nil => rfl
  | cons t ts =>
    obtain ⟨cs, l, ls, hrun, hclean, -, hlast, htext, hbrackets⟩ := h.exists_lexemes (by simp)
    obtain ⟨ms, ns, hsplit, hns, hdrop, hends⟩ :=
      exists_unmarked hrun hclean (fun l' hl' => Or.inl (hlast l' hl')) rest
    have hmarks : ns.flatMap (·.cls.brackets) = [] := List.flatMap_eq_nil_iff.2 fun n hn => by
      rw [hns n hn]
      rfl
    have hstray : ∀ m ∈ ms, m.cls ≠ .stray := fun m hm hstray => by
      have hcleared := hclean m (hsplit ▸ List.mem_append_left _ hm)
      simp [Lexeme.isClean, hstray] at hcleared
    have hbefore : ms <+: read cs := (hsplit ▸ List.prefix_append ms ns).trans hrun
    rw [htext, hdrop, hbrackets, hsplit, List.flatMap_append, hmarks, List.append_nil]
    exact bracketsIn_flatMap_text hbefore hstray hends

/-! ## Runs -/

theorem brackets_eq_nil_iff : k.brackets = [] ↔ k.opens = false ∧ k.closes = false := by
  cases k <;> decide

theorem eq_of_spanText? (h : IsLegible us) (htext : spanText? us = some text) :
    text = Token.span us := by
  rw [spanText?, h.trimmed_span] at htext
  split at htext
  · exact absurd htext (by simp)
  · exact (Option.some.inj htext).symm

/-- A matched run of a clean script. -/
structure IsRun (us : List Token) : Prop where
  legible : IsLegible us
  matched : isMatched us

namespace IsRun

theorem of_append (h : IsRun (ts ++ us)) (hts : isBalanced ts) : IsRun ts ∧ IsRun us := by
  obtain ⟨hts, hus⟩ := isMatched_of_append h.matched hts
  exact ⟨⟨h.legible.of_append.1, hts⟩, h.legible.of_append.2, hus⟩

theorem of_cons (h : IsRun (t :: us)) (ht : t.kind.brackets = []) : IsRun us := by
  obtain ⟨hopens, hcloses⟩ := brackets_eq_nil_iff.1 ht
  exact ⟨h.legible.of_cons, isMatched_of_cons h.matched hopens hcloses⟩

theorem of_append_cons (h : IsRun (ts ++ t :: us)) (hts : isBalanced ts)
    (ht : t.kind.brackets = []) : IsRun ts ∧ IsRun us := by
  obtain ⟨hfront, hbehind⟩ := h.of_append hts
  exact ⟨hfront, hbehind.of_cons ht⟩

theorem isPaired (h : IsRun us) : IsPaired (Token.span us) := h.legible.isPaired_span h.matched

/-- The text of a token that is no bracket. -/
theorem isPaired_text (h : IsLegible us) (ht : t ∈ us) (hkind : t.kind.brackets = []) :
    IsPaired t.text := by
  have hpaired : IsPaired (Token.span [t]) := by
    obtain ⟨hopens, hcloses⟩ := brackets_eq_nil_iff.1 hkind
    exact (h.of_mem ht).isPaired_span (isMatched_plain (by simpa using ⟨hopens, hcloses⟩))
  rwa [Token.span, List.map_nil, String.join_nil, String.append_empty] at hpaired

theorem isPaired_spanText? (h : IsRun us) (htext : spanText? us = some text) : IsPaired text := by
  rw [eq_of_spanText? h.legible htext]
  exact h.isPaired

theorem dropSemicolon (h : IsRun us) : IsRun (dropSemicolon us) := by
  rw [Script.dropSemicolon]
  split
  · next hlast =>
    rcases List.eq_nil_or_concat us with rfl | ⟨us, t, rfl⟩
    · exact h
    rw [List.concat_eq_append] at h hlast ⊢
    rw [List.getLast?_concat, Option.any_some, decide_eq_true_eq] at hlast
    rw [List.dropLast_concat]
    obtain ⟨q, hq, hstep⟩ := exists_matchOver_of_append h.matched
    have hsemicolon : matchOver q [t] = some q :=
      matchOver_plain (by simp [hlast, Kind.opens, Kind.closes]) q
    obtain rfl : q = [] := Option.some.inj (hsemicolon.symm.trans hstep)
    exact ⟨h.legible.of_append.1, isMatched_iff.2 hq⟩
  · exact h

end IsRun

/-! ## Parts of types -/

theorem isWritten_of_isLegible (h : IsLegible us) (ht : t ∈ us) : t.IsWritten := by
  obtain ⟨cs, gap, ls, hrun, -, htokens⟩ := h.of_mem ht
  obtain ⟨front, l, behind, rfl, hl, htext, -⟩ := exists_of_tokensExcept_eq_cons htokens
  obtain ⟨k, hcls, -⟩ := not_isTrivia_of_kept (Option.isSome_of_mem hl)
  have hkind : k = t.kind := by
    rcases kept?_cases Kind.isTrivia l with ⟨k', hcls', -, hkept⟩ | ⟨hnone, -⟩
    · rw [hcls] at hcls'
      rw [LexemeClass.token.inj hcls', ← Option.some.inj (hkept.symm.trans hl)]
    · exact absurd (hl.symm.trans hnone) (by simp)
  have hread := hrun.subset (List.mem_append_right front List.mem_cons_self)
  obtain ⟨c, cs', rfl⟩ := exists_classify_of_mem_read hread
  exact ⟨c, cs', hkind ▸ hcls, htext⟩

theorem IsRun.isPaired_behindColon (h : IsRun us) (hcolon : startsWith .colon us)
    (htext : spanText? (us.drop 1) = some text) : IsPaired text := by
  cases us with
  | nil => exact absurd hcolon (by simp [startsWith])
  | cons colon type =>
    have hkind : colon.kind = .colon := by simpa [startsWith] using hcolon
    exact (h.of_cons (by rw [hkind]; rfl)).isPaired_spanText? htext

/-- Type parameters are cut outside brackets. -/
theorem IsRun.typeParams? {generics : String} (h : IsRun ts)
    (hg : typeParams? ts = some (generics, us)) :
    IsPaired generics ∧ startsApart generics.toList ∧ IsRun us ∧
      ∃ front, ts = front ++ us ∧ isBalanced front := by
  cases ts with
  | nil => exact absurd hg (by simp [Script.typeParams?])
  | cons t ts =>
    rw [Script.typeParams?] at hg
    split at hg
    · next hless =>
      obtain ⟨⟨inside, rest⟩, hcut, hg⟩ := Option.bind_eq_some_iff.1 hg
      obtain ⟨text, htext, hg⟩ := Option.bind_eq_some_iff.1 hg
      obtain ⟨rfl, rfl⟩ := Prod.mk.inj (Option.some.inj hg)
      have hplain : t.kind.brackets = [] := by rw [hless]; rfl
      obtain ⟨rfl, hbalanced⟩ := exists_of_cutAngle? hcut (h.of_cons hplain).matched
      have hfront : isBalanced (t :: inside) := by
        rw [isBalanced_iff, depthOver_cons, hless]
        exact isBalanced_iff.1 hbalanced
      rw [← List.cons_append] at h ⊢
      obtain ⟨hgenerics, hrest⟩ := h.of_append hfront
      refine ⟨hgenerics.isPaired_spanText? htext, ?_, hrest, t :: inside, rfl, hfront⟩
      have hstart := text_of_less (isWritten_of_isLegible h.legible List.mem_cons_self) hless
      rw [eq_of_spanText? hgenerics.legible htext, Token.span, hstart]
      simp [startsApart, isSeparator]
    · obtain ⟨rfl, rfl⟩ := Prod.mk.inj (Option.some.inj hg)
      exact ⟨isPaired_of_mem_fixedTexts (by decide), rfl, h, [], rfl, rfl⟩

theorem IsRun.parenthesized? {params after : List Token} (h : IsRun ts)
    (hp : parenthesized? ts = some (params, after)) :
    IsRun params ∧ IsRun after ∧ ∃ opening closing, ts = opening :: (params ++ closing :: after) ∧
      opening.kind = .openParen ∧ closing.kind = .closeParen := by
  cases ts with
  | nil => exact absurd hp (by simp [Script.parenthesized?])
  | cons t ts =>
    rw [Script.parenthesized?] at hp
    split at hp
    · next hkind =>
      obtain ⟨closing, rfl, hclosing, hparams, hafter⟩ :=
        exists_of_cutClosing? hp h.matched (by rw [hkind]; rfl)
      rw [hkind] at hclosing
      have hlegible := h.legible.of_cons.of_append
      exact ⟨⟨hlegible.1, hparams⟩, ⟨hlegible.2.of_cons, hafter⟩, t, closing, rfl, hkind, hclosing⟩
    · exact absurd hp (by simp)

end SvelteTypings.Script
