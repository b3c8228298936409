import SvelteTypings.Proofs.Script.Regular

/-!
# Paired functions, variables and members

What is shown of a function, of variables and of a member of a class is paired, if the run it is
declared by is regular. A member has one way more to be cut for each kind of member
(`IsRegularMember`).
-/

namespace SvelteTypings.Script

open Lexeme

variable {t : Token} {ts us vs : List Token} {text start : String} {o : CompilerOptions}

/-! ## Functions -/

/-- A matched run whose parentheses are regular. -/
structure IsCallable (ts : List Token) : Prop where
  run : IsRun ts
  params : HasRegularParams ts

theorem IsCallable.drop_one (h : IsCallable ts) (hhead : ∀ t ∈ ts.head?, t.kind.brackets = []) :
    IsCallable (ts.drop 1) := by
  cases ts with
  | nil => exact h
  | cons t ts =>
    have ht := hhead t rfl
    have hfront : isBalanced [t] := by
      obtain ⟨hopens, hcloses⟩ := brackets_eq_nil_iff.1 ht
      exact isBalanced_of_isMatched (isMatched_plain (by simpa using ⟨hopens, hcloses⟩))
    have hparams : HasRegularParams ([t] ++ ts) := h.params
    exact ⟨h.run.of_cons ht, hparams.of_append_right hfront⟩

theorem IsCallable.dropIf {p : Token → Bool} (h : IsCallable ts)
    (hp : ∀ t, p t → t.kind.brackets = []) :
    IsCallable (if ts.head?.any p then ts.drop 1 else ts) := by
  split
  · next hhead =>
    exact h.drop_one fun t ht => hp t (by rwa [Option.mem_def.1 ht] at hhead)
  · exact h

theorem brackets_of_isWord {word : String} (h : t.isWord word) : t.kind.brackets = [] := by
  rw [(isWord_iff.1 h).1]
  rfl

theorem brackets_of_isOperator {op : String} (h : t.isOperator op) : t.kind.brackets = [] := by
  rw [Token.isOperator, Bool.and_eq_true_iff, decide_eq_true_eq] at h
  rw [h.1]
  rfl

theorem IsPaired.terminated (h : IsPaired text) : IsPaired (text ++ ";") :=
  h.append (isPaired_of_mem_fixedTexts (by decide)) (by decide)

theorem isPaired_functionText? (hstart : IsPairedAnywhere start) (h : IsCallable ts)
    (htext : functionText? o start ts = some text) : IsPaired text := by
  rw [functionText?] at htext
  have hfunction := h.dropIf (p := (·.isWord "async")) fun t => brackets_of_isWord
  dsimp only at htext
  generalize (if ts.head?.any (·.isWord "async") then ts.drop 1 else ts) = us at htext hfunction
  obtain ⟨keyword, hkeyword, hbehind⟩ := Option.bind_eq_some_iff.1 htext
  split at hbehind
  · exact absurd hbehind (by simp)
  next hword =>
  have hsignature := hfunction.drop_one fun t ht => by
    obtain rfl : keyword = t := Option.some.inj (hkeyword.symm.trans ht)
    exact brackets_of_isWord (by simpa using hword)
  replace hsignature := hsignature.dropIf (p := (·.isOperator "*")) fun t => brackets_of_isOperator
  generalize (if (us.drop 1).head?.any (·.isOperator "*") then (us.drop 1).drop 1
    else us.drop 1) = vs at hbehind hsignature
  obtain ⟨first, hfirst, hrest⟩ := Option.bind_eq_some_iff.1 hbehind
  obtain ⟨name, hname, hapart, rest, hcallable, s, hs, rfl⟩ : ∃ name, IsPaired name ∧
      startsApart name.toList ∧ ∃ rest, IsCallable rest ∧ ∃ s, signature? o
        (ts.head?.any (·.isWord "async")) ((us.drop 1).head?.any (·.isOperator "*")) rest = some s ∧
        start ++ "function" ++ name ++ s.text ++ ";" = text := by
    -- With a name the signature is behind it; without one it starts here.
    by_cases hident : first.kind = .ident
    · rw [if_pos hident] at hrest
      obtain ⟨s, hs, htext⟩ := Option.bind_eq_some_iff.1 hrest
      have hplain : first.kind.brackets = [] := by rw [hident]; rfl
      have hmem : first ∈ vs := List.mem_of_head? hfirst
      have hspace : IsPairedAnywhere " " := isPairedAnywhere_of_mem_joints (by decide)
      refine ⟨" " ++ first.text, ?_, by simp [startsApart, isSeparator], vs.drop 1, ?_, s, hs,
        Option.some.inj htext⟩
      · exact hspace.append (IsRun.isPaired_text hsignature.run.legible hmem hplain)
      · exact hsignature.drop_one fun t ht => by
          rwa [Option.some.inj (ht.symm.trans hfirst)]
    · rw [if_neg hident] at hrest
      obtain ⟨s, hs, htext⟩ := Option.bind_eq_some_iff.1 hrest
      exact ⟨"", isPaired_of_mem_fixedTexts (by decide), rfl, vs, hsignature, s, hs,
        Option.some.inj htext⟩
  have hpaired := isPaired_signature? hcallable.run hcallable.params hs
  have hkeywordText : IsPaired "function" := isPaired_of_mem_fixedTexts (by decide)
  exact (((hstart.append hkeywordText).append hname hapart).append hpaired.isPaired_text
    hpaired.startsApart_text).terminated

/-! ## Variables -/

/-- What stands behind the name of a variable. -/
theorem isPaired_suffix {shown : Inferred} (h : IsPaired shown.text) :
    IsPaired shown.suffix ∧ startsApart shown.suffix.toList := by
  have hequals : IsPairedAnywhere " = " := isPairedAnywhere_of_mem_joints (by decide)
  have hcolon : IsPairedAnywhere ": " := isPairedAnywhere_of_mem_joints (by decide)
  cases shown with
  | literal text => exact ⟨hequals.append h, by simp [Inferred.suffix, startsApart, isSeparator]⟩
  | type text => exact ⟨hcolon.append h, by simp [Inferred.suffix, startsApart, isSeparator]⟩

theorem isPaired_declaredType? {declared : String} (h : IsRun us)
    (hdeclared : (if startsWith .colon us then spanText? (us.drop 1) else none) = some declared) :
    IsPaired declared := by
  split at hdeclared
  · next hcolon => exact h.isPaired_behindColon hcolon hdeclared
  · exact absurd hdeclared (by simp)

/-- A variable is declared by its name and what is shown of it. -/
theorem isPaired_declaredVariable {keyword name : String} (shown : Inferred)
    (hkeyword : IsPaired keyword) (hname : IsPaired name) (hshown : IsPaired shown.text) :
    IsPaired ("export declare " ++ keyword ++ " " ++ name ++ shown.suffix ++ ";") := by
  obtain ⟨hsuffix, hapart⟩ := isPaired_suffix hshown
  have hexport : IsPairedAnywhere "export declare " :=
    isPairedAnywhere_of_mem_joints (by decide)
  have hspace : IsPairedAnywhere " " := isPairedAnywhere_of_mem_joints (by decide)
  have hfront := (hexport.append hkeyword).append_anywhere hspace (by decide)
  exact ((hfront.append hname).append hsuffix hapart).terminated

/-- The mark behind the name of a variable is passed over. -/
theorem isRegular_behindMark (h : IsRun ts) (hregular : IsRegular ts) :
    IsRun (if ts.head?.any (·.isOperator "!") then ts.drop 1 else ts) ∧
      IsRegular (if ts.head?.any (·.isOperator "!") then ts.drop 1 else ts) := by
  split
  · next hmark =>
    cases ts with
    | nil => exact absurd hmark (by simp)
    | cons mark rest =>
      have hrun := h.of_cons (brackets_of_isOperator (by simpa using hmark))
      exact ⟨hrun, hregular.of_isInfix (List.suffix_cons mark rest).isInfix hrun.matched⟩
  · exact ⟨h, hregular⟩

theorem isPaired_variableText? {keyword : String} (hkeyword : IsPaired keyword) (h : IsRun ts)
    (hregular : IsRegular ts) (htext : variableText? o keyword ts = some text) : IsPaired text := by
  cases ts with
  | nil => exact absurd htext (by simp [variableText?])
  | cons name rest =>
    rw [variableText?] at htext
    split at htext
    · exact absurd htext (by simp)
    next hident =>
    have hplain : name.kind.brackets = [] := by
      rw [Decidable.not_not.1 hident]
      rfl
    have hname := IsRun.isPaired_text h.legible List.mem_cons_self hplain
    have hrest := h.of_cons hplain
    obtain ⟨hus, hregular⟩ := isRegular_behindMark hrest
      (hregular.of_isInfix (List.suffix_cons name rest).isInfix hrest.matched)
    dsimp only at htext
    -- What follows is read alike with and without the mark, which is therefore forgotten.
    generalize (if rest.head?.any (·.isOperator "!") then rest.drop 1 else rest) = us
      at htext hus hregular
    cases hcut : cutTop? .equals 0 us with
    | none =>
      rw [hcut] at htext
      dsimp only at htext
      cases hdeclared : (if startsWith .colon us then spanText? (us.drop 1) else none) with
      | none =>
        rw [hdeclared] at htext
        rw [← Option.some.inj htext]
        exact isPaired_declaredVariable (.type (fallbackType o)) hkeyword hname
          (isPaired_fallbackType o)
      | some declared =>
        rw [hdeclared] at htext
        rw [← Option.some.inj htext]
        exact isPaired_declaredVariable (.type declared) hkeyword hname
          (isPaired_declaredType? hus hdeclared)
    | some parts =>
      obtain ⟨head, init⟩ := parts
      obtain ⟨equals, hequals, rfl, -, hhead, hinit⟩ := hus.cutTop? hregular.nested rfl hcut
      have hbehind : init <:+: head ++ equals :: init := ⟨head ++ [equals], [], by simp⟩
      have hsettled := hregular.settled head equals init rfl hequals
      rw [hcut] at htext
      dsimp only at htext
      cases hdeclared : (if startsWith .colon head then spanText? (head.drop 1) else none) with
      | none =>
        have hinfer := showsPaired_infer o (keyword = "const") init hinit
          (hregular.of_isInfix hbehind hinit.matched) hsettled
        rw [hdeclared] at htext
        rw [← Option.some.inj htext]
        exact isPaired_declaredVariable _ hkeyword hname hinfer
      | some declared =>
        rw [hdeclared] at htext
        rw [← Option.some.inj htext]
        exact isPaired_declaredVariable (.type declared) hkeyword hname
          (isPaired_declaredType? hhead hdeclared)

theorem isPaired_variablesText? {keyword : String} (hkeyword : IsPaired keyword) (h : IsRun ts)
    (hregular : IsRegular ts) (htext : variablesText? o keyword ts = some text) :
    IsPaired text := by
  have hrun := h.dropSemicolon
  obtain ⟨us, behind, hus, rfl⟩ := exists_dropSemicolon ts
  rw [variablesText?] at htext
  rw [hus] at hrun htext
  replace hregular := hregular.of_isInfix (List.prefix_append us behind).isInfix hrun.matched
  split at htext
  · exact absurd htext (by simp)
  · rw [← Option.some.inj htext, joinLines]
    refine isPaired_intercalate (isPairedAnywhere_of_mem_joints (by decide)) (by decide)
      fun line hline => ?_
    obtain ⟨part, hpart, hline⟩ := List.mem_filterMap.1 hline
    obtain ⟨hpartRun, hpartRegular⟩ := hrun.of_mem_splitTop hregular rfl hpart
    exact isPaired_variableText? hkeyword hpartRun hpartRegular hline

/-! ## Statements that stand as they are -/

theorem trimmedEnd_of_trimmed (h : trimmed text = text) : trimmedEnd text = text := by
  have hlist : Text.trimEnd (Text.trimStart text.toList) = text.toList := by
    rw [trimmed, Text.trim] at h
    rw [← String.toList_inj, String.toList_ofList] at h
    exact h
  have hstart : Text.trimStart text.toList = text.toList := by
    have hsuffix : Text.trimStart text.toList <:+ text.toList := List.dropWhile_suffix _
    refine hsuffix.eq_of_length (Nat.le_antisymm hsuffix.length_le ?_)
    have hle := (Text.trimEnd_isPrefixOf_self (Text.trimStart text.toList)).length_le
    rwa [hlist] at hle
  rw [trimmedEnd, ← hstart, hlist, String.ofList_toList]

theorem IsRun.isPaired_terminate (h : IsRun us) : IsPaired (terminate (Token.span us)) := by
  rw [terminate, trimmedEnd_of_trimmed h.legible.trimmed_span]
  split
  · exact h.isPaired
  · exact h.isPaired
  · exact h.isPaired.terminated

/-! ## Members -/

/-- A member is named, its parameters are regular, and so is what stands behind the colon or `=` of
a property. A constructor has no type parameters, and a setter declares no result. -/
structure IsRegularMember (ts : List Token) : Prop where
  named : ∀ first ∈ (cutModifiers ts).2.head?, first.kind ≠ .openParen
  params : HasRegularParams ts
  typed : ∀ front t us, ts = front ++ t :: us → (∀ u ∈ front, u.kind.brackets = []) →
    t.kind = .colon ∨ t.kind = .equals → IsRegular (t :: us)
  constructs : ∀ front t us, ts = front ++ t :: us → (∀ u ∈ front, u.kind.brackets = []) →
    t.kind = .less → ∀ u ∈ front, u.text ≠ "constructor"
  sets : "set" ∈ (cutModifiers ts).1 → ∀ front closing us, ts = front ++ closing :: us →
    closing.kind = .closeParen → isBalanced (front ++ [closing]) → startsWith .colon us = false

instance (ts : List Token) : Decidable (IsRegularMember ts) :=
  decidable_of_iff
    ((∀ first ∈ (cutModifiers ts).2.head?, first.kind ≠ .openParen) ∧ HasRegularParams ts ∧
      (∀ front t us, ts = front ++ t :: us → (∀ u ∈ front, u.kind.brackets = []) →
        t.kind = .colon ∨ t.kind = .equals → IsRegular (t :: us)) ∧
      (∀ front t us, ts = front ++ t :: us → (∀ u ∈ front, u.kind.brackets = []) →
        t.kind = .less → ∀ u ∈ front, u.text ≠ "constructor") ∧
      ("set" ∈ (cutModifiers ts).1 → ∀ front closing us, ts = front ++ closing :: us →
        closing.kind = .closeParen → isBalanced (front ++ [closing]) →
          startsWith .colon us = false))
    ⟨fun h => ⟨h.1, h.2.1, h.2.2.1, h.2.2.2.1, h.2.2.2.2⟩,
      fun h => ⟨h.named, h.params, h.typed, h.constructs, h.sets⟩⟩

theorem exists_cutModifiers (ts : List Token) :
    ∃ front, ts = front ++ (cutModifiers ts).2 ∧ (∀ t ∈ front, t.kind = .ident) ∧
      (cutModifiers ts).1 = front.map (·.text) := by
  fun_induction cutModifiers ts with
  | case1 t u ts hword modifiers rest hcut ih =>
    rw [hcut] at ih
    obtain ⟨front, hts, hfront, htexts⟩ := ih
    refine ⟨t :: front, by rw [List.cons_append, ← hts], ?_, by rw [List.map_cons, ← htexts]⟩
    exact List.forall_mem_cons.2 ⟨hword.1, hfront⟩
  | case2 => exact ⟨[], rfl, fun _ h => absurd h List.not_mem_nil, rfl⟩
  | case3 => exact ⟨[], rfl, fun _ h => absurd h List.not_mem_nil, rfl⟩

/-- A matched run does not start with a closing bracket. -/
theorem closes_of_isMatched (h : isMatched (t :: ts)) : t.kind.closes = false := by
  rw [isMatched_iff, matchOver_cons] at h
  obtain ⟨q, hstep, -⟩ := Option.bind_eq_some_iff.1 h
  rcases matchStep_cases hstep with ⟨hopens, -⟩ | ⟨-, -, o, ho, -⟩ | ⟨-, hcloses, -⟩
  · exact Kind.not_closes_of_opens hopens
  · exact absurd ho (by simp)
  · exact hcloses

/-- A matched run that opens no bracket at its start does not start with a bracket. -/
theorem brackets_of_isMatched (h : isMatched (t :: ts)) (hparen : t.kind ≠ .openParen)
    (hbrace : t.kind ≠ .openBrace) (hbracket : t.kind ≠ .openBracket) : t.kind.brackets = [] := by
  have hcloses := closes_of_isMatched h
  cases hkind : t.kind <;>
    first
    | rfl
    | exact absurd hkind hparen
    | exact absurd hkind hbrace
    | exact absurd hkind hbracket
    | exact absurd (hkind ▸ hcloses) (by decide)

/-- The modifiers of a member, or some of them. -/
theorem isPaired_modifiers {words : List String} (h : IsLegible ts)
    (hwords : ∀ word ∈ words, word ∈ (cutModifiers ts).1) :
    IsPaired (String.intercalate " " words) := by
  obtain ⟨front, hts, hfront, htexts⟩ := exists_cutModifiers ts
  refine isPaired_intercalate (isPairedAnywhere_of_mem_joints (by decide)) (by decide)
    fun word hword => ?_
  obtain ⟨t, ht, rfl⟩ := List.mem_map.1 (htexts ▸ hwords word hword)
  exact IsRun.isPaired_text h (hts ▸ List.mem_append_left _ ht) (by rw [hfront t ht]; rfl)

/-- What stands behind the name of a member. -/
structure IsMemberRest (o : CompilerOptions) (modifiers : List String) (name : String)
    (rest : List Token) : Prop where
  callable : IsCallable rest
  typed : ∀ t us, rest = t :: us → t.kind = .colon ∨ t.kind = .equals → IsRegular rest
  constructs : name = "constructor" → ∀ t ∈ rest.head?, t.kind ≠ .less
  sets : "set" ∈ modifiers → ∀ isAsync s, signature? o isAsync false rest = some s →
    ' ' ∉ s.result.toList

/-- What stands in front of a member, its name, and its mark. -/
structure IsMemberStart (start name mark : String) : Prop where
  front : IsPairedAnywhere start
  named : IsPaired name
  marked : IsPaired mark
  apart : startsApart mark.toList

namespace IsMemberStart

variable {name mark : String} (hfront : IsMemberStart start name mark)
include hfront

theorem isPaired : IsPaired (start ++ name ++ mark) :=
  (hfront.front.append hfront.named).append hfront.marked hfront.apart

theorem shown {shown : Inferred} (h : IsPaired shown.text) :
    IsPaired (start ++ name ++ mark ++ shown.suffix ++ ";") :=
  (hfront.isPaired.append (isPaired_suffix h).1 (isPaired_suffix h).2).terminated

theorem typed {type : String} (h : IsPaired type) :
    IsPaired (start ++ name ++ mark ++ ": " ++ type ++ ";") := by
  have hpaired := @IsMemberStart.shown _ _ _ hfront (.type type) h
  rwa [Inferred.suffix, ← String.append_assoc] at hpaired

end IsMemberStart

section Body

variable {modifiers kept : List String} {name mark : String}

theorem isPaired_constructorBody? (hkind : t.kind = .openParen) (h : IsCallable (t :: ts))
    (htext : memberBody? o modifiers kept start "constructor" mark (t :: ts) = some text) :
    IsPaired text := by
  rw [memberBody?, hkind] at htext
  obtain ⟨⟨params, after⟩, hcut, htext⟩ := Option.bind_eq_some_iff.1 htext
  have hparenthesized : parenthesized? (t :: ts) = some (params, after) := by
    rw [parenthesized?, if_pos hkind]
    exact hcut
  obtain ⟨hrun, -⟩ := h.run.parenthesized? hparenthesized
  have hregular : HasRegularParams ([] ++ t :: ts) := h.params
  replace hregular := hregular.of_parenthesized? rfl hparenthesized
  have hparams := isPaired_paramsWith (showsPaired_infer o false) hrun hregular
  have hword : IsPaired "constructor" := isPaired_of_mem_fixedTexts (by decide)
  have hsplit : "constructor(" ++ paramsText o params ++ ");" =
      "constructor" ++ ("(" ++ (paramsText o params ++ ")")) ++ ";" := by
    have hopen : "constructor(" = "constructor" ++ "(" := by decide
    have hclose : ");" = ")" ++ ";" := by decide
    rw [hopen, hclose]
    simp only [String.append_assoc]
  rw [← Option.some.inj htext, hsplit]
  have hshown := hword.append_anywhere hparams.parenthesized (by simp [isSeparator])
  exact hshown.isPaired.terminated

theorem isPaired_methodBody? (hfront : IsMemberStart start name mark) (hname : name ≠ "constructor")
    (hcall : t.kind = .less ∨ t.kind = .openParen) (hkept : ∀ word ∈ kept, word ∈ modifiers)
    (h : IsMemberRest o modifiers name (t :: ts))
    (htext : memberBody? o modifiers kept start name mark (t :: ts) = some text) :
    IsPaired text := by
  cases hs : signature? o (modifiers.contains "async") false (t :: ts) with
  | none =>
    rcases hcall with hkind | hkind <;>
      simp only [memberBody?, hkind, if_neg hname, hs, Option.bind_eq_bind,
        Option.bind_none, reduceCtorEq] at htext
  | some s =>
    have hpaired := isPaired_signature? h.callable.run h.callable.params hs
    rw [memberBody?_of_signature hcall hs hname] at htext
    split at htext
    · next hset =>
      have hblank := h.sets (hkept _ (List.contains_iff_mem.1 hset)) _ s hs
      have hhead : s.untilResult ++ ");" = s.head ++ ";" := by
        have hclose : ");" = ")" ++ ";" := by decide
        rw [Signature.untilResult_eq hblank, Signature.head, hclose, String.append_assoc]
        simp only [String.append_assoc]
      rw [← Option.some.inj htext, String.append_assoc, hhead, ← String.append_assoc]
      have hnamed := hfront.front.append hfront.named
      exact (hnamed.append hpaired.head.isPaired hpaired.apart).terminated
    · rw [← Option.some.inj htext]
      exact (hfront.isPaired.append hpaired.isPaired_text hpaired.startsApart_text).terminated

theorem isPaired_declaredBody? (hfront : IsMemberStart start name mark) (hkind : t.kind = .colon)
    (h : IsRun (t :: ts)) (hregular : IsRegular (t :: ts))
    (htext : memberBody? o modifiers kept start name mark (t :: ts) = some text) :
    IsPaired text := by
  have hrun := h.of_cons (by rw [hkind]; rfl)
  replace hregular := hregular.of_isInfix (List.suffix_cons t ts).isInfix hrun.matched
  rw [memberBody?, hkind] at htext
  obtain ⟨type, htype, htext⟩ := Option.bind_eq_some_iff.1 htext
  rw [← Option.some.inj htext]
  cases hcut : cutTop? .equals 0 ts with
  | none =>
    rw [hcut] at htype
    exact hfront.typed (hrun.isPaired_spanText? htype)
  | some parts =>
    obtain ⟨declared, init⟩ := parts
    obtain ⟨-, -, -, -, hdeclared, -⟩ := hrun.cutTop? hregular.nested rfl hcut
    rw [hcut] at htype
    exact hfront.typed (hdeclared.isPaired_spanText? htype)

theorem isPaired_initializedBody? (hfront : IsMemberStart start name mark)
    (hkind : t.kind = .equals) (h : IsRun (t :: ts)) (hregular : IsRegular (t :: ts))
    (htext : memberBody? o modifiers kept start name mark (t :: ts) = some text) :
    IsPaired text := by
  have hrun := h.of_cons (by rw [hkind]; rfl)
  have hpaired := hfront.shown (showsPaired_infer o (kept.contains "readonly") ts hrun
    (hregular.of_isInfix (List.suffix_cons t ts).isInfix hrun.matched)
    (hregular.settled [] t ts rfl hkind))
  rw [memberBody?, hkind] at htext
  dsimp only at htext
  cases hinferred : infer o (kept.contains "readonly") ts with
  | literal text =>
    rw [hinferred] at htext hpaired
    rw [← Option.some.inj htext]
    rwa [Inferred.suffix, ← String.append_assoc] at hpaired
  | type text =>
    rw [hinferred] at htext hpaired
    rw [← Option.some.inj htext]
    rwa [Inferred.suffix, ← String.append_assoc] at hpaired

theorem isPaired_memberBody? {rest : List Token} (hfront : IsMemberStart start name mark)
    (hkept : ∀ word ∈ kept, word ∈ modifiers) (h : IsMemberRest o modifiers name rest)
    (htext : memberBody? o modifiers kept start name mark rest = some text) : IsPaired text := by
  cases rest with
  | nil =>
    rw [memberBody?] at htext
    rw [← Option.some.inj htext]
    exact hfront.typed (isPaired_fallbackType o)
  | cons t ts =>
    by_cases hcall : t.kind = .less ∨ t.kind = .openParen
    · by_cases hname : name = "constructor"
      · have hkind := hcall.resolve_left (h.constructs hname t rfl)
        exact isPaired_constructorBody? hkind h.callable (hname ▸ htext)
      · exact isPaired_methodBody? hfront hname hcall hkept h htext
    · by_cases hcolon : t.kind = .colon
      · exact isPaired_declaredBody? hfront hcolon h.callable.run
          (h.typed t ts rfl (.inl hcolon)) htext
      · by_cases hequals : t.kind = .equals
        · exact isPaired_initializedBody? hfront hequals h.callable.run
            (h.typed t ts rfl (.inr hequals)) htext
        · rw [memberBody?] at htext
          split at htext <;> simp_all

end Body

/-- The tokens of a member, without the `;` at its end. -/
def Statement.bare (s : Statement) : List Token := dropSemicolon s.significant

/-- What stands behind the name and the mark of a member. -/
theorem IsRegularMember.isMemberRest {front marks rest : List Token} {name : String}
    (h : IsRegularMember ts) (hrun : IsRun ts) (hts : ts = front ++ (marks ++ rest))
    (hfront : ∀ u ∈ front, u.kind.brackets = []) (hmarks : ∀ u ∈ marks, u.kind.brackets = [])
    (hname : ∃ u ∈ front, u.text = name) : IsMemberRest o (cutModifiers ts).1 name rest := by
  have hall : ∀ u ∈ front ++ marks, u.kind.brackets = [] := fun u hu =>
    (List.mem_append.1 hu).elim (hfront u) (hmarks u)
  have hplain : isBalanced (front ++ marks) :=
    isBalanced_of_isMatched (isMatched_plain fun u hu => brackets_eq_nil_iff.1 (hall u hu))
  rw [← List.append_assoc] at hts
  have hrest : IsRun rest := ((hts ▸ hrun).of_append hplain).2
  refine ⟨⟨hrest, (hts ▸ h.params).of_append_right hplain⟩, ?_, ?_, ?_⟩
  · rintro t us rfl hkind
    exact h.typed (front ++ marks) t us hts hall hkind
  · rintro hconstructor t ht hless
    obtain ⟨us, rfl⟩ := List.head?_eq_some_iff.1 ht
    obtain ⟨u, hu, htext⟩ := hname
    exact h.constructs (front ++ marks) t us hts hall hless u (List.mem_append_left _ hu)
      (htext.trans hconstructor)
  · intro hset isAsync s hs
    refine blank_not_mem_result hrest hs fun before closing us hrest hclosing hbalanced => ?_
    refine h.sets hset (front ++ marks ++ before) closing us (by rw [hts, hrest]; simp) hclosing ?_
    rw [List.append_assoc, isBalanced_iff, depthOver_append, isBalanced_iff.1 hplain]
    exact isBalanced_iff.1 hbalanced

theorem exists_cutMark (ts : List Token) :
    ∃ marks, ts = marks ++ (cutMark ts).2 ∧ (∀ t ∈ marks, t.kind.brackets = []) ∧
      IsPaired (cutMark ts).1 ∧ startsApart (cutMark ts).1.toList := by
  have hempty : IsPaired "" := isPaired_of_mem_fixedTexts (by decide)
  have hnil : ∀ t ∈ ([] : List Token), t.kind.brackets = [] := fun t ht =>
    absurd ht List.not_mem_nil
  cases ts with
  | nil => exact ⟨[], rfl, hnil, hempty, rfl⟩
  | cons t ts =>
    rw [cutMark]
    split
    · next hkind =>
      have hmark : IsPaired "?" := isPaired_of_mem_fixedTexts (by decide)
      have hapart : startsApart "?".toList := by decide
      exact ⟨[t], rfl, by simp [hkind, Kind.brackets, Kind.opens, Kind.closes], hmark, hapart⟩
    · split
      · next hmark => exact ⟨[t], rfl, by simpa using brackets_of_isOperator hmark, hempty, rfl⟩
      · exact ⟨[], rfl, hnil, hempty, rfl⟩

theorem isPaired_memberText? {member : Statement} (hrun : IsRun member.significant)
    (hmember : member.text = Token.span member.significant) (h : IsRegularMember member.bare)
    (htext : memberText? o member = some text) : IsPaired text := by
  have hbare : IsRun member.bare := hrun.dropSemicolon
  have hwhole : IsPaired (terminate member.text) := hmember ▸ hrun.isPaired_terminate
  obtain ⟨front, hts, hfront, -⟩ := exists_cutModifiers member.bare
  have hplain : ∀ t ∈ front, t.kind.brackets = [] := fun t ht => by rw [hfront t ht]; rfl
  have hmodifiers := @isPaired_modifiers member.bare
  have hnamed := h.named
  have hrest := @IsRegularMember.isMemberRest member.bare o
  cases hcut : cutModifiers member.bare with | mk modifiers rest =>
  rw [hcut] at hts hmodifiers hnamed hrest
  dsimp only at hts hmodifiers hnamed hrest
  have hkept : ∀ w ∈ keptModifiers modifiers, w ∈ modifiers := fun w hw => List.mem_of_mem_filter hw
  have hspace : IsPairedAnywhere " " := isPairedAnywhere_of_mem_joints (by decide)
  -- The cases are those of the reader: no name, one that hides the member, one that keeps it whole.
  cases rest with
  | nil =>
    have hnone : memberText? o member = none := by
      unfold memberText?
      rw [Statement.bare] at hcut
      simp only [hcut]
    exact absurd htext (by simp [hnone])
  | cons first ts =>
    rw [memberText?_eq hcut] at htext
    split at htext
    · exact absurd htext (by simp)
    next hhash =>
    split at htext
    · split at htext
      · exact absurd htext (by simp)
      · exact Option.some.inj htext ▸ hwhole
    next hbracket =>
    split at htext
    · exact Option.some.inj htext ▸ hwhole
    -- From here on the name holds no bracket, and is shown before what the member is read as.
    have hbalanced : isBalanced front :=
      isBalanced_of_isMatched (isMatched_plain fun u hu => brackets_eq_nil_iff.1 (hplain u hu))
    have hfirst : first.kind.brackets = [] :=
      brackets_of_isMatched ((hts ▸ hbare).of_append hbalanced).2.matched (hnamed first rfl)
        (fun hkind => hhash (Or.inr hkind)) hbracket
    have hname : IsPaired first.text :=
      IsRun.isPaired_text hbare.legible (hts ▸ List.mem_append_right _ List.mem_cons_self) hfirst
    obtain ⟨marks, hmarks, hmarkPlain, hmark, hapart⟩ := exists_cutMark ts
    split at htext
    · rw [← Option.some.inj htext]
      have hvisible := @hmodifiers
        ((keptModifiers modifiers).filter fun m => ["private", "static", "readonly"].contains m)
        hbare.legible fun w hw => hkept w (List.mem_of_mem_filter hw)
      exact (((hvisible.append_anywhere hspace (by decide)).append hname).append hmark
        hapart).terminated
    · have hstart : IsPairedAnywhere (modifiersText modifiers) := by
        rw [modifiersText]
        split
        · exact isPairedAnywhere_of_mem_joints (by decide)
        · exact (hmodifiers hbare.legible hkept).append_anywhere hspace (by decide)
      have hsplit : member.bare = (front ++ [first]) ++ (marks ++ (cutMark ts).2) := by
        rw [hts, ← hmarks]
        simp
      refine isPaired_memberBody? ⟨hstart, hname, hmark, hapart⟩ hkept
        (hrest h hbare hsplit ?_ hmarkPlain ⟨first, by simp, rfl⟩) htext
      intro u hu
      rcases List.mem_append.1 hu with hu | hu
      · exact hplain u hu
      · rwa [List.mem_singleton.1 hu]

end SvelteTypings.Script
