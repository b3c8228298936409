import SvelteTypings.Proofs.Script.Angles
import SvelteTypings.Proofs.Script.Pieces

/-!
# Regular runs

The searches that declare a variable or a parameter anew look for a `=` at the top level, for the
last `as` anywhere, and for the first `=>` behind the parameters. A run is regular (`IsRegular`) if
they find it outside brackets. What is inferred from a regular initializer is paired
(`isPaired_inferWithin`), and so are the parameters and the signature of a function whose
parentheses are regular (`isPaired_signature?`).
-/

namespace SvelteTypings.Script

open Lexeme

variable {c : Char} {cs : List Char} {k : Kind} {n : Nat} {t : Token} {ts us vs : List Token} {text : String}

/-! ## What may stand in an initializer -/

/-- The ways to cut a run at a token. -/
def cuts : List Token → List (List Token × Token × List Token)
  | [] => []
  | t :: ts => ([], t, ts) :: (cuts ts).map fun cut => (t :: cut.1, cut.2)

theorem mem_cuts_iff {front behind : List Token} :
    (front, t, behind) ∈ cuts ts ↔ ts = front ++ t :: behind := by
  induction ts generalizing front with
  | nil => simp [cuts]
  | cons u ts ih =>
    rw [cuts, List.mem_cons, List.mem_map]
    cases front with
    | nil => simp [eq_comm]
    | cons v front =>
      constructor
      · rintro (hfirst | ⟨⟨front', t', behind'⟩, hcut, heq⟩)
        · exact absurd hfirst (by simp)
        · obtain ⟨hfront, hbehind⟩ := Prod.mk.inj heq
          obtain ⟨rfl, rfl⟩ := List.cons.inj hfront
          obtain ⟨rfl, rfl⟩ := Prod.mk.inj hbehind
          rw [ih.1 hcut]
          rfl
      · intro hts
        obtain ⟨rfl, rfl⟩ := List.cons.inj hts
        exact Or.inr ⟨(front, t, behind), ih.2 rfl, rfl⟩

instance decidableForallCuts (ts : List Token) (P : List Token → Token → List Token → Prop)
    [∀ front t behind, Decidable (P front t behind)] :
    Decidable (∀ front t behind, ts = front ++ t :: behind → P front t behind) :=
  decidable_of_iff (∀ cut ∈ cuts ts, P cut.1 cut.2.1 cut.2.2)
    ⟨fun h front t behind hts => h (front, t, behind) (mem_cuts_iff.2 hts),
      fun h cut hcut => h cut.1 cut.2.1 cut.2.2 (mem_cuts_iff.1 hcut)⟩

/-- No bracket that opens in the run is open at its end, unless the run closes one in front of
it. -/
def isOutside (ts : List Token) : Bool := (depthOver 0 ts).all (· = 0)

/-- What is asserted of an initializer, and the result type of a function, are cut outside its
brackets: in front of an `as`, and behind the declared result of parameters, no bracket is open. -/
structure IsSettled (us : List Token) : Prop where
  asserts : ∀ front t behind, us = front ++ t :: behind → t.isWord "as" → isOutside front
  arrows : ∀ front closing rest, us = front ++ closing :: rest → closing.kind = .closeParen →
    isBalanced (front ++ [closing]) → startsWith .colon rest →
    ∀ result arrow behind, rest = result ++ arrow :: behind → arrow.kind = .arrow →
      (∀ t ∈ result, t.kind ≠ .arrow) → isOutside result

instance (us : List Token) : Decidable (IsSettled us) :=
  decidable_of_iff
    ((∀ front t behind, us = front ++ t :: behind → t.isWord "as" → isOutside front) ∧
      ∀ front closing rest, us = front ++ closing :: rest → closing.kind = .closeParen →
        isBalanced (front ++ [closing]) → startsWith .colon rest →
        ∀ result arrow behind, rest = result ++ arrow :: behind → arrow.kind = .arrow →
          (∀ t ∈ result, t.kind ≠ .arrow) → isOutside result)
    ⟨fun h => ⟨h.1, h.2⟩, fun h => ⟨h.asserts, h.arrows⟩⟩

/-- A run that is cut where it seems to be cut: it is well nested, and behind each `=` it is
settled. -/
structure IsRegular (ts : List Token) : Prop where
  nested : IsWellNested ts
  settled : ∀ front equals us, ts = front ++ equals :: us → equals.kind = .equals → IsSettled us

instance (ts : List Token) : Decidable (IsRegular ts) :=
  decidable_of_iff
    (IsWellNested ts ∧
      ∀ front equals us, ts = front ++ equals :: us → equals.kind = .equals → IsSettled us)
    ⟨fun h => ⟨h.1, h.2⟩, fun h => ⟨h.nested, h.settled⟩⟩

/-- Within a matched run, what is outside is balanced. -/
theorem isBalanced_of_isOutside (h : isMatched (ts ++ us)) (hts : isOutside ts) :
    isBalanced ts := by
  obtain ⟨d, hd⟩ := exists_depthOver_of_append h
  rw [isOutside, hd, Option.all_some, decide_eq_true_eq] at hts
  rw [isBalanced_iff, hd, hts]

namespace IsSettled

theorem of_append (h : IsSettled (us ++ vs)) : IsSettled us where
  asserts front t behind hus := h.asserts front t (behind ++ vs) (by rw [hus]; simp)
  arrows front closing rest hus hkind hbalanced hcolon result arrow behind hrest := by
    refine h.arrows front closing (rest ++ vs) (by rw [hus]; simp) hkind hbalanced ?_ result arrow
      (behind ++ vs) (by rw [hrest]; simp)
    cases rest with
    | nil => exact absurd hcolon (by simp [startsWith])
    | cons colon rest => exact hcolon

theorem of_append_right (h : IsSettled (ts ++ us)) (hts : isBalanced ts) : IsSettled us where
  asserts front t behind hus hword := by
    have houtside := h.asserts (ts ++ front) t behind (by rw [hus, List.append_assoc]) hword
    rwa [isOutside, depthOver_append, isBalanced_iff.1 hts] at houtside
  arrows front closing rest hus hkind hbalanced := by
    refine h.arrows (ts ++ front) closing rest (by rw [hus, List.append_assoc]) hkind ?_
    rw [List.append_assoc, isBalanced_iff, depthOver_append, isBalanced_iff.1 hts]
    exact isBalanced_iff.1 hbalanced

end IsSettled

theorem IsRegular.of_isInfix (h : IsRegular ts) (hus : us <:+: ts) (hmatched : isMatched us) :
    IsRegular us := by
  obtain ⟨front, behind, rfl⟩ := hus
  have hdepth := isBalanced_iff.1 (isBalanced_of_isMatched hmatched)
  refine ⟨h.nested.of_append.of_append_right hdepth, fun before equals rest hrest hequals => ?_⟩
  have hsettled := h.settled (front ++ before) equals (rest ++ behind) (by rw [hrest]; simp) hequals
  exact hsettled.of_append

/-! ## Types from initializers -/

theorem isPaired_fallbackType (o : CompilerOptions) : IsPaired (fallbackType o) := by
  rw [fallbackType]
  split <;> exact isPaired_of_mem_fixedTexts (by decide)

theorem isPaired_impliedResult (o : CompilerOptions) (isAsync yields : Bool) :
    IsPaired (impliedResult o isAsync yields) := by
  rw [impliedResult, fallbackType]
  cases o.isStrict <;> cases isAsync <;> cases yields <;>
    exact isPaired_of_mem_fixedTexts (by decide)

theorem isPaired_widening (constant : Bool) {widened : String} (htext : IsPaired text)
    (hwidened : IsPaired widened) : IsPaired (Inferred.widening constant text widened).text := by
  cases constant
  · exact hwidened
  · exact htext

theorem Lexeme.Classifies.isDigit (h : Classifies c cs (.token .number) n) : c.isDigit := by
  cases h with
  | run hr => exact absurd hr (by simp [runClasses])
  | number hc => exact hc
  | literal hc => exact absurd hc (by simp [quotes])
  | single hc => exact absurd hc (by simp [singles])
  | mark hc => exact absurd hc (by simp [marks])

/-- A number behind a minus. -/
theorem isPaired_minus (h : IsLegible us) (ht : t ∈ us) (hkind : t.kind = .number) :
    IsPaired ("-" ++ t.text) := by
  obtain ⟨vs, hvs, hreads⟩ := IsRun.isPaired_text h ht (by rw [hkind]; rfl)
  refine ⟨vs, hvs, fun rest hrest => ?_⟩
  obtain ⟨c, cs, n, hnumber, htext⟩ := (isWritten_of_isLegible h ht).classifies
  rw [hkind] at hnumber
  obtain ⟨-, -, hoperator⟩ := of_isDigit hnumber.isDigit
  have hsign : "-".toList = ['-'] := by decide
  rw [String.toList_append, hsign, List.append_assoc, ← hreads rest hrest, htext,
    String.toList_ofList]
  have hminus : classify '-' (c :: cs.take n ++ rest) = (.token .operator, 0) := by
    show (LexemeClass.token Kind.operator, runLength isOperatorChar (c :: _)) = _
    rw [runLength, List.takeWhile_cons_of_neg (by simp [hoperator])]
    rfl
  exact (bracketsIn_of_punctuation hminus).trans (List.nil_append _)

theorem isPaired_literal? {constant : Bool} {shown : Inferred} (h : IsLegible us)
    (hshown : literal? constant us = some shown) : IsPaired shown.text := by
  -- A literal is one token that shows itself, or a number behind a minus.
  unfold literal? at hshown
  split at hshown
  · next t =>
    split at hshown
    · next hkind =>
      rw [← Option.some.inj hshown]
      exact isPaired_widening constant
        (IsRun.isPaired_text h List.mem_cons_self (by rw [hkind]; rfl))
        (isPaired_of_mem_fixedTexts (by decide))
    · rw [← Option.some.inj hshown]
      exact isPaired_of_mem_fixedTexts (by decide)
    · next hkind =>
      rw [← Option.some.inj hshown]
      exact isPaired_widening constant
        (IsRun.isPaired_text h List.mem_cons_self (by rw [hkind]; rfl))
        (isPaired_of_mem_fixedTexts (by decide))
    · next hkind =>
      split at hshown
      · rw [← Option.some.inj hshown]
        exact isPaired_widening constant
          (IsRun.isPaired_text h List.mem_cons_self (by rw [hkind]; rfl))
          (isPaired_of_mem_fixedTexts (by decide))
      · exact absurd hshown (by simp)
    · exact absurd hshown (by simp)
  · next minus number =>
    split at hshown
    · next hminus =>
      rw [← Option.some.inj hshown]
      exact isPaired_widening constant (isPaired_minus h (by simp) hminus.2)
        (isPaired_of_mem_fixedTexts (by decide))
    · exact absurd hshown (by simp)
  · exact absurd hshown (by simp)

theorem exists_of_afterLast? {p : Token → Bool} (h : afterLast? p ts = some us) :
    ∃ front t, ts = front ++ t :: us ∧ p t := by
  rw [afterLast?] at h
  split at h
  · next hany =>
    have hus := Option.some.inj h
    have hsplit := ts.reverse.takeWhile_append_dropWhile (p := fun t => !p t)
    cases hdrop : ts.reverse.dropWhile fun t => !p t with
    | nil =>
      obtain ⟨t, ht, hpt⟩ := List.any_eq_true.1 hany
      have hnone := List.dropWhile_eq_nil_iff.1 hdrop t (List.mem_reverse.2 ht)
      exact absurd hpt (by simpa using hnone)
    | cons t rest =>
      refine ⟨rest.reverse, t, ?_, ?_⟩
      · rw [hdrop] at hsplit
        have hts := congrArg List.reverse hsplit
        rw [List.reverse_reverse] at hts
        rw [← hus]
        exact hts.symm.trans (by simp)
      · have hhead := List.head?_dropWhile_not (fun t => !p t) ts.reverse
        rw [hdrop] at hhead
        simpa using hhead
  · exact absurd h (by simp)

theorem isPaired_asserted? {shown : Inferred} (h : IsRun us) (hsettled : IsSettled us)
    (hshown : asserted? us = some shown) : IsPaired shown.text := by
  obtain ⟨target, htarget, hshown⟩ := Option.bind_eq_some_iff.1 hshown
  split at hshown
  · exact absurd hshown (by simp)
  · obtain ⟨text, htext, hshown⟩ := Option.bind_eq_some_iff.1 hshown
    obtain rfl := Option.some.inj hshown
    obtain ⟨front, t, rfl, hword⟩ := exists_of_afterLast? htarget
    have hfront := isBalanced_of_isOutside h.matched (hsettled.asserts front t target rfl hword)
    have hplain : t.kind.brackets = [] := by
      rw [(isWord_iff.1 hword).1]
      rfl
    exact (h.of_append_cons hfront hplain).2.isPaired_spanText? htext

theorem isPaired_constructed? {shown : Inferred} (h : IsLegible us)
    (hshown : constructed? us = some shown) : IsPaired shown.text := by
  unfold constructed? at hshown
  split at hshown
  · split at hshown
    · next hcls =>
      rw [← Option.some.inj hshown]
      exact IsRun.isPaired_text h (by simp) (by rw [hcls.2]; rfl)
    · exact absurd hshown (by simp)
  · exact absurd hshown (by simp)

theorem isPaired_shallowType? {constant : Bool} {shown : Inferred} (h : IsRun us)
    (hsettled : IsSettled us) (hshown : shallowType? constant us = some shown) :
    IsPaired shown.text := by
  unfold shallowType? at hshown
  cases hliteral : literal? constant us with
  | some found =>
    rw [hliteral] at hshown
    exact isPaired_literal? h.legible (hliteral.trans hshown)
  | none =>
    rw [hliteral] at hshown
    cases hasserted : asserted? us with
    | some found =>
      rw [hasserted] at hshown
      exact isPaired_asserted? h hsettled (hasserted.trans hshown)
    | none =>
      rw [hasserted] at hshown
      exact isPaired_constructed? h.legible hshown

/-! ## Parameters -/

theorem prefix_of_cutTop? (h : cutTop? k 0 ts = some (us, vs)) : ∃ t, ts = us ++ t :: vs := by
  rw [cutTop?_eq] at h
  obtain ⟨front, t, s', kept, hts, hkept, -, -, hfound⟩ := Search.exists_of_cut? h
  obtain rfl : kept = [] := (Option.some.inj hfound).symm
  obtain rfl : us = front := by simpa using hkept
  exact ⟨t, hts⟩

/-- A cut at the top level, in a regular run. -/
theorem IsRun.cutTop? (h : IsRun ts) (hnested : IsWellNested ts) (hk : k.brackets = [])
    (hcut : cutTop? k 0 ts = some (us, vs)) :
    ∃ t, t.kind = k ∧ ts = us ++ t :: vs ∧ isBalanced us ∧ IsRun us ∧ IsRun vs := by
  obtain ⟨u, hu⟩ := prefix_of_cutTop? hcut
  obtain ⟨t, ht, rfl, hus⟩ := exists_of_cutTop? hcut h.matched (hu ▸ hnested).of_append
  obtain ⟨hfront, hbehind⟩ := h.of_append_cons hus (ht ▸ hk)
  exact ⟨t, ht, rfl, hus, hfront, hbehind⟩

theorem IsRun.of_mem_splitTop (h : IsRun ts) (hregular : IsRegular ts) (hk : k.brackets = [])
    (hus : us ∈ splitTop k 0 ts) : IsRun us ∧ IsRegular us := by
  induction hlength : ts.length using Nat.strong_induction_on generalizing ts with
  | _ n ih =>
    rw [splitTop_eq] at hus
    cases hcut : Script.cutTop? k 0 ts with
    | none =>
      rw [hcut, List.mem_singleton] at hus
      exact hus ▸ ⟨h, hregular⟩
    | some parts =>
      obtain ⟨part, rest⟩ := parts
      obtain ⟨t, -, rfl, -, hpart, hrest⟩ := h.cutTop? hregular.nested hk hcut
      rw [hcut] at hus
      rcases List.mem_cons.1 hus with rfl | hus
      · exact ⟨hpart, hregular.of_isInfix (List.prefix_append _ _).isInfix hpart.matched⟩
      · have hinfix : rest <:+: part ++ t :: rest := ⟨part ++ [t], [], by simp⟩
        refine ih rest.length ?_ hrest (hregular.of_isInfix hinfix hrest.matched) hus rfl
        rw [← hlength, List.length_append, List.length_cons]
        omega

theorem exists_dropParamModifiers (ts : List Token) :
    ∃ front, ts = front ++ dropParamModifiers ts ∧ isBalanced front := by
  fun_induction dropParamModifiers ts with
  | case1 t u ts hword ih =>
    obtain ⟨front, hts, hfront⟩ := ih
    refine ⟨t :: front, by rw [List.cons_append, ← hts], ?_⟩
    rw [isBalanced_iff, depthOver_cons, hword.1]
    exact isBalanced_iff.1 hfront
  | case2 => exact ⟨[], rfl, rfl⟩
  | case3 => exact ⟨[], rfl, rfl⟩

/-- The name of an optional parameter, and its mark. -/
theorem IsRun.isPaired_marked (h : IsRun us) :
    IsPairedAnywhere
      (String.ofList (Text.dropEndWhile (· = '?') (Token.span us).toList) ++ "?: ") := by
  refine ⟨us, h.matched, fun rest => ?_⟩
  have hmark : "?: ".toList = ['?', ':', ' '] := by decide
  have hbehind : bracketsIn ('?' :: ':' :: ' ' :: rest) = bracketsIn rest := by
    have hgap : bracketsIn (' ' :: rest) = bracketsIn rest := bracketsIn_gap rfl rest
    have hcolon : bracketsIn (':' :: ' ' :: rest) = bracketsIn (' ' :: rest) :=
      bracketsIn_of_punctuation (k := .colon) rfl
    have hquestion : bracketsIn ('?' :: ':' :: ' ' :: rest) = bracketsIn (':' :: ' ' :: rest) :=
      bracketsIn_of_punctuation (k := .question) rfl
    rw [hquestion, hcolon, hgap]
  have hunmarked := h.legible.bracketsIn_unmarked (':' :: ' ' :: rest)
  rw [hbehind] at hunmarked
  rw [String.toList_append, String.toList_ofList, hmark, List.append_assoc]
  exact hunmarked

theorem isPaired_optionalParam? {type : String} (h : IsRun us) (hnested : IsWellNested us)
    (htype : IsPaired type) (htext : optionalParam? us type = some text) : IsPaired text := by
  rw [optionalParam?] at htext
  cases hcut : cutTop? .colon 0 us with
  | some parts =>
    obtain ⟨name, declared⟩ := parts
    obtain ⟨t, -, rfl, -, hname, hdeclared⟩ := h.cutTop? hnested rfl hcut
    rw [hcut] at htext
    obtain ⟨n, hn, htext⟩ := Option.bind_eq_some_iff.1 htext
    obtain ⟨d, hd, htext⟩ := Option.bind_eq_some_iff.1 htext
    rw [← Option.some.inj htext, eq_of_spanText? hname.legible hn]
    exact hname.isPaired_marked.append (hdeclared.isPaired_spanText? hd)
  | none =>
    rw [hcut] at htext
    obtain ⟨n, hn, htext⟩ := Option.bind_eq_some_iff.1 htext
    rw [← Option.some.inj htext]
    have hmark : IsPairedAnywhere "?: " := isPairedAnywhere_of_mem_joints (by decide)
    have hmarked : IsPairedAnywhere (n ++ "?: ") :=
      (h.isPaired_spanText? hn).append_anywhere hmark (by decide)
    exact hmarked.append htype

theorem isPaired_intercalate {between : String} {texts : List String}
    (hbetween : IsPairedAnywhere between) (hapart : between.toList.head?.any isSeparator)
    (h : ∀ text ∈ texts, IsPaired text) : IsPaired (String.intercalate between texts) := by
  induction texts with
  | nil =>
    rw [String.intercalate_nil]
    exact isPaired_of_mem_fixedTexts (by decide)
  | cons text texts ih =>
    obtain ⟨htext, htexts⟩ := List.forall_mem_cons.1 h
    by_cases hnil : texts = []
    · rw [hnil, String.intercalate_singleton]
      exact htext
    · rw [String.intercalate_cons_of_ne_nil hnil]
      exact (htext.append_anywhere hbetween hapart).append (ih htexts)

/-- Initializers are shown as paired texts. -/
def ShowsPaired (infer : List Token → Inferred) : Prop :=
  ∀ us, IsRun us → IsRegular us → IsSettled us → IsPaired (infer us).text

theorem isPaired_paramsWith {infer : List Token → Inferred} (hinfer : ShowsPaired infer)
    (h : IsRun ts) (hregular : IsRegular ts) : IsPaired (paramsWith infer ts) := by
  rw [paramsWith]
  refine isPaired_intercalate (isPairedAnywhere_of_mem_joints (by decide)) (by decide)
    fun text htext => ?_
  obtain ⟨param, hparam, htext⟩ := List.mem_filterMap.1 htext
  obtain ⟨hrun, hregular⟩ := h.of_mem_splitTop hregular rfl hparam
  obtain ⟨front, hdrop, hfront⟩ := exists_dropParamModifiers param
  generalize dropParamModifiers param = us at hdrop htext
  subst hdrop
  have hus := (hrun.of_append hfront).2
  replace hregular := hregular.of_isInfix (List.suffix_append front us).isInfix hus.matched
  dsimp only at htext
  cases hcut : cutTop? .equals 0 us with
  | none =>
    rw [hcut] at htext
    exact hus.isPaired_spanText? htext
  | some parts =>
    obtain ⟨head, init⟩ := parts
    obtain ⟨equals, hequals, rfl, -, hhead, hinit⟩ := hus.cutTop? hregular.nested rfl hcut
    rw [hcut] at htext
    have hsettled := hregular.settled head equals init rfl hequals
    have hbehind : init <:+: head ++ equals :: init := ⟨head ++ [equals], [], by simp⟩
    have htype := hinfer init hinit (hregular.of_isInfix hbehind hinit.matched) hsettled
    exact isPaired_optionalParam? hhead hregular.nested.of_append htype htext

/-! ## Functions -/

theorem startsApart_append {xs ys : List Char} (hxs : startsApart xs) (hys : startsApart ys) :
    startsApart (xs ++ ys) := by
  cases xs with
  | nil => exact hys
  | cons x xs => exact hxs

theorem isPairedAnywhere_head {generics params : String} (hgenerics : IsPaired generics)
    (hparams : IsPaired params) : IsPairedAnywhere (generics ++ "(" ++ params ++ ")") := by
  rw [String.append_assoc, String.append_assoc]
  exact hgenerics.append_anywhere hparams.parenthesized (by simp [isSeparator])

theorem isPaired_arrowAfter? {infer : List Token → Inferred} (hinfer : ShowsPaired infer)
    (o : CompilerOptions) (isAsync : Bool) (h : IsRun ts) (hregular : IsRegular ts)
    (hsettled : IsSettled ts) (htext : arrowAfter? infer o isAsync ts = some text) :
    IsPaired text := by
  obtain ⟨⟨generics, rest⟩, hgenerics, hrest⟩ := Option.bind_eq_some_iff.1 htext
  obtain ⟨⟨params, after⟩, hparams, hafter⟩ := Option.bind_eq_some_iff.1 hrest
  obtain ⟨⟨result, body⟩, hresult, hshown⟩ := Option.bind_eq_some_iff.1 hafter
  clear htext hrest hafter
  obtain ⟨hgpaired, -, hrest, front, rfl, hfront⟩ := h.typeParams? hgenerics
  obtain ⟨hrun, hafter, opening, closing, rfl, hopening, hclosing⟩ := hrest.parenthesized? hparams
  obtain ⟨arrow, rfl, harrow, hnone⟩ := exists_of_cutAt? hresult
  have hinfix : params <:+: front ++ opening :: (params ++ closing :: (result ++ arrow :: body)) :=
    ⟨front ++ [opening], closing :: (result ++ arrow :: body), by simp⟩
  have hpaired := isPaired_paramsWith hinfer hrun (hregular.of_isInfix hinfix hrun.matched)
  -- The result is the declared type, or else is implied by the body.
  obtain ⟨shown, hshownPaired, rfl⟩ : ∃ shown, IsPaired shown ∧
      generics ++ "(" ++ paramsWith infer params ++ ") => " ++ shown = text := by
    dsimp only at hshown
    split at hshown
    · next hcolon =>
      obtain ⟨shown, htype, htext⟩ := Option.bind_eq_some_iff.1 hshown
      refine ⟨shown, ?_, Option.some.inj htext⟩
      cases result with
      | nil => exact absurd hcolon (by simp [startsWith])
      | cons colon type =>
        have hcolon : colon.kind = .colon := by simpa [startsWith] using hcolon
        have hbehind := hafter.of_cons (by rw [hcolon]; rfl)
        -- The arrow is the first behind the parameters, so no bracket of the type is open at it.
        have houtside : isOutside (colon :: type) := by
          refine hsettled.arrows (front ++ opening :: params) closing _ (by simp) hclosing ?_
            (by simpa [startsWith] using hcolon) (colon :: type) arrow body rfl
            (by simpa using harrow) fun t ht => by simpa using hnone t ht
          have hblock := @isMatched_bracketed params opening closing hrun.matched
            (by rw [hopening]; rfl) (by rw [hopening, hclosing]; rfl)
          rw [List.append_assoc, isBalanced_iff, depthOver_append, isBalanced_iff.1 hfront]
          exact isBalanced_iff.1 (isBalanced_of_isMatched hblock)
        rw [isOutside, depthOver_cons, hcolon] at houtside
        have hbalanced := isBalanced_of_isOutside hbehind.matched houtside
        exact (hbehind.of_append hbalanced).1.isPaired_spanText? htype
    · exact ⟨_, isPaired_impliedResult o _ _, Option.some.inj hshown⟩
  have harrowText : IsPairedAnywhere " => " := isPairedAnywhere_of_mem_joints (by decide)
  have hsplit : generics ++ "(" ++ paramsWith infer params ++ ") => " ++ shown =
      generics ++ "(" ++ paramsWith infer params ++ ")" ++ (" => " ++ shown) := by
    have hword : ") => " = ")" ++ " => " := by decide
    rw [hword]
    simp only [String.append_assoc]
  rw [hsplit]
  exact (isPairedAnywhere_head hgpaired hpaired).append (harrowText.append hshownPaired)

theorem isPaired_arrowWith? {infer : List Token → Inferred} (hinfer : ShowsPaired infer)
    (o : CompilerOptions) (h : IsRun ts) (hregular : IsRegular ts) (hsettled : IsSettled ts)
    (htext : arrowWith? infer o ts = some text) : IsPaired text := by
  rw [arrowWith?_eq] at htext
  split at htext
  · next hasync =>
    cases ts with
    | nil => exact absurd hasync (by simp)
    | cons t ts =>
      have hkind : t.kind = .ident := by
        rw [List.head?_cons, Option.any_some] at hasync
        exact (isWord_iff.1 hasync).1
      have hfront : isBalanced [t] := by
        rw [isBalanced_iff, depthOver_cons, hkind]
        rfl
      have hts := h.of_cons (by rw [hkind]; rfl)
      have hregular' := hregular.of_isInfix (List.suffix_cons t ts).isInfix hts.matched
      replace hsettled : IsSettled ([t] ++ ts) := hsettled
      exact isPaired_arrowAfter? hinfer o true hts hregular' (hsettled.of_append_right hfront) htext
  · exact isPaired_arrowAfter? hinfer o false h hregular hsettled htext

theorem exists_dropSemicolon (ts : List Token) :
    ∃ us vs, dropSemicolon ts = us ∧ ts = us ++ vs := by
  rw [dropSemicolon]
  split
  · exact ⟨_, ts.drop (ts.length - 1), rfl, by rw [List.dropLast_eq_take, List.take_append_drop]⟩
  · exact ⟨ts, [], rfl, (List.append_nil ts).symm⟩

/-- **What a settled initializer shows is paired**, however deep the functions in it are looked
into. -/
theorem isPaired_inferWithin (o : CompilerOptions) (n : Nat) (constant : Bool) (h : IsRun us)
    (hregular : IsRegular us) (hsettled : IsSettled us) :
    IsPaired (inferWithin o n constant us).text := by
  induction n generalizing us constant with
  | zero => exact isPaired_fallbackType o
  | succ n ih =>
    have hrun := h.dropSemicolon
    obtain ⟨init, behind, hinit, rfl⟩ := exists_dropSemicolon us
    rw [hinit] at hrun
    replace hregular := hregular.of_isInfix (List.prefix_append init behind).isInfix hrun.matched
    replace hsettled := hsettled.of_append
    rw [inferWithin, hinit]
    cases hshown : shallowType? constant init with
    | some shown => exact isPaired_shallowType? hrun hsettled hshown
    | none =>
      dsimp only
      cases harrow : arrowWith? (inferWithin o n false) o init with
      | some signature =>
        exact isPaired_arrowWith? (fun us hus => ih false hus) o hrun hregular hsettled harrow
      | none => exact isPaired_fallbackType o

theorem showsPaired_infer (o : CompilerOptions) (constant : Bool) :
    ShowsPaired (infer o constant) :=
  fun us h hregular hsettled => isPaired_inferWithin o (us.length + 1) constant h hregular hsettled

/-- What stands in parentheses outside other brackets is regular. -/
def HasRegularParams (ts : List Token) : Prop :=
  ∀ front opening rest, ts = front ++ opening :: rest → isBalanced front →
    opening.kind = .openParen → ∀ parts ∈ cutClosing? 1 rest, IsRegular parts.1

instance (ts : List Token) : Decidable (HasRegularParams ts) :=
  inferInstanceAs (Decidable (∀ front opening rest, ts = front ++ opening :: rest →
    isBalanced front → opening.kind = .openParen →
      ∀ parts ∈ cutClosing? 1 rest, IsRegular parts.1))

theorem HasRegularParams.of_append_right (h : HasRegularParams (ts ++ us)) (hts : isBalanced ts) :
    HasRegularParams us := by
  intro front opening rest hus hfront
  refine h (ts ++ front) opening rest (by rw [hus, List.append_assoc]) ?_
  rw [isBalanced_iff, depthOver_append, isBalanced_iff.1 hts]
  exact isBalanced_iff.1 hfront

theorem HasRegularParams.of_append (h : HasRegularParams (ts ++ us)) : HasRegularParams ts := by
  intro front opening rest hts hfront hopening parts hparts
  refine h front opening (rest ++ us) (by rw [hts]; simp) hfront hopening
    (Search.extend us parts) ?_
  rw [Option.mem_def, cutClosing?_eq] at hparts ⊢
  exact Search.cut?_append_of_some hparts us

/-- Without the block at its end, a matched run is matched. -/
theorem IsRun.cutBody (h : IsRun us) : IsRun (cutBody us).1 := by
  by_cases hlast : us.getLast?.any (·.kind = .closeBrace)
  · obtain ⟨front, body, block, rfl, hblock, hfront, -⟩ := exists_block h.matched hlast
    rw [hblock.cutBody]
    exact ⟨h.legible.of_append.1, hfront⟩
  · rw [Script.cutBody, if_neg hlast]
    exact h

theorem isPrefix_cutBody (us : List Token) : (cutBody us).1 <+: us := by
  unfold cutBody
  split
  · split
    · exact List.take_prefix _ us
    · exact List.prefix_refl us
  · exact List.prefix_refl us

/-- The parts of a signature are paired. -/
structure Signature.IsPaired (s : Signature) : Prop where
  head : IsPairedAnywhere s.head
  apart : startsApart s.head.toList
  result : Script.IsPaired s.result

theorem HasRegularParams.of_parenthesized? {params after : List Token}
    (h : HasRegularParams (ts ++ us)) (hts : isBalanced ts)
    (hparams : parenthesized? us = some (params, after)) : IsRegular params := by
  cases us with
  | nil => exact absurd hparams (by simp [parenthesized?])
  | cons t us =>
    rw [parenthesized?] at hparams
    split at hparams
    · next hkind => exact h ts t us rfl hts hkind (params, after) hparams
    · exact absurd hparams (by simp)

/-- What a signature is made of. A result that is not declared is implied. -/
theorem exists_of_signature? {o : CompilerOptions} {isAsync isGenerator : Bool} {s : Signature}
    (h : signature? o isAsync isGenerator ts = some s) :
    ∃ generics rest params after, typeParams? ts = some (generics, rest) ∧
      parenthesized? rest = some (params, after) ∧
      s.head = generics ++ "(" ++ paramsText o params ++ ")" ∧
      ((startsWith .colon (cutBody (dropSemicolon after)).1 ∧
          spanText? ((cutBody (dropSemicolon after)).1.drop 1) = some s.result) ∨
        startsWith .colon (cutBody (dropSemicolon after)).1 = false ∧
          (s.result = fallbackType o ∨ ∃ yields, s.result = impliedResult o isAsync yields)) := by
  obtain ⟨⟨generics, rest⟩, hgenerics, hrest⟩ := Option.bind_eq_some_iff.1 h
  obtain ⟨⟨params, after⟩, hparams, hresult⟩ := Option.bind_eq_some_iff.1 hrest
  refine ⟨generics, rest, params, after, hgenerics, hparams, ?_⟩
  dsimp only at hresult
  split at hresult
  · next hcolon =>
    obtain ⟨shown, hshown, hs⟩ := Option.bind_eq_some_iff.1 hresult
    obtain rfl := Option.some.inj hs
    exact ⟨rfl, Or.inl ⟨hcolon, hshown⟩⟩
  · next hcolon =>
    split at hresult <;> obtain rfl := Option.some.inj hresult
    · exact ⟨rfl, Or.inr ⟨by simpa using hcolon, Or.inl rfl⟩⟩
    · exact ⟨rfl, Or.inr ⟨by simpa using hcolon, Or.inr ⟨_, rfl⟩⟩⟩

theorem isPaired_signature? {o : CompilerOptions} {isAsync isGenerator : Bool} {s : Signature}
    (h : IsRun ts) (hparams : HasRegularParams ts)
    (hsignature : signature? o isAsync isGenerator ts = some s) : s.IsPaired := by
  obtain ⟨generics, rest, params, after, hgenerics, hcut, hhead, hresult⟩ :=
    exists_of_signature? hsignature
  obtain ⟨hgpaired, hapart, hrest, front, rfl, hfront⟩ := h.typeParams? hgenerics
  obtain ⟨hrun, hafter, opening, closing, rfl, hopening, -⟩ := hrest.parenthesized? hcut
  have hregular := hparams.of_parenthesized? hfront hcut
  have hpaired : IsPaired (paramsText o params) :=
    isPaired_paramsWith (showsPaired_infer o false) hrun hregular
  refine ⟨?_, ?_, ?_⟩
  · rw [hhead]
    exact isPairedAnywhere_head hgpaired hpaired
  · rw [hhead, String.append_assoc, String.append_assoc, String.toList_append]
    exact startsApart_append hapart (by simp [startsApart, isSeparator])
  · rcases hresult with ⟨hcolon, htype⟩ | ⟨-, hresult | ⟨yields, hresult⟩⟩
    · exact hafter.dropSemicolon.cutBody.isPaired_behindColon hcolon htype
    · rw [hresult]
      exact isPaired_fallbackType o
    · rw [hresult]
      exact isPaired_impliedResult o _ _

/-- No implied result has a blank in it. -/
theorem blank_not_mem_result {o : CompilerOptions} {isAsync isGenerator : Bool} {s : Signature}
    (h : IsRun ts) (hsignature : signature? o isAsync isGenerator ts = some s)
    (hundeclared : ∀ front closing us, ts = front ++ closing :: us → closing.kind = .closeParen →
      isBalanced (front ++ [closing]) → startsWith .colon us = false) :
    ' ' ∉ s.result.toList := by
  obtain ⟨generics, rest, params, after, hgenerics, hcut, -, hresult⟩ :=
    exists_of_signature? hsignature
  obtain ⟨-, -, hrest, front, rfl, hfront⟩ := h.typeParams? hgenerics
  obtain ⟨hrun, hafter, opening, closing, rfl, hopening, hclosing⟩ := hrest.parenthesized? hcut
  -- A declared result is excluded, and the implied ones are a few words.
  rcases hresult with ⟨hcolon, -⟩ | ⟨-, hresult | ⟨yields, hresult⟩⟩
  · exfalso
    obtain ⟨us, vs, hus, rfl⟩ := exists_dropSemicolon after
    obtain ⟨behind, hbehind⟩ := (isPrefix_cutBody us).trans (List.prefix_append us vs)
    rw [hus] at hcolon
    cases hresult : (cutBody us).1 with
    | nil => exact absurd hcolon (by simp [hresult, startsWith])
    | cons colon type =>
      rw [hresult] at hcolon hbehind
      have hblock := @isMatched_bracketed params opening closing hrun.matched
        (by rw [hopening]; rfl) (by rw [hopening, hclosing]; rfl)
      have hbalanced : isBalanced (front ++ opening :: params ++ [closing]) := by
        rw [List.append_assoc, isBalanced_iff, depthOver_append, isBalanced_iff.1 hfront]
        exact isBalanced_iff.1 (isBalanced_of_isMatched hblock)
      have hnone := hundeclared (front ++ opening :: params) closing (us ++ vs) (by simp) hclosing
        hbalanced
      rw [← hbehind] at hnone
      exact absurd hcolon (by simpa [startsWith] using hnone)
  · rw [hresult, fallbackType]
    split <;> decide
  · rw [hresult, impliedResult, fallbackType]
    cases o.isStrict <;> cases isAsync <;> cases yields <;> decide

theorem Signature.IsPaired.isPaired_text {s : Signature} (h : s.IsPaired) :
    Script.IsPaired s.text := by
  have hcolon : IsPairedAnywhere ": " := isPairedAnywhere_of_mem_joints (by decide)
  rw [Signature.text, String.append_assoc]
  exact h.head.append (hcolon.append h.result)

theorem Signature.IsPaired.startsApart_text {s : Signature} (h : s.IsPaired) :
    startsApart s.text.toList := by
  rw [Signature.text, String.append_assoc, String.toList_append]
  exact startsApart_append h.apart (by simp [startsApart, isSeparator])

end SvelteTypings.Script
