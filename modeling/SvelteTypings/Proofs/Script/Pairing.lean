import SvelteTypings.Proofs.Script.Paired

/-!
# Matched declarations

The statements of a matched script are matched, and so is what stands in the braces of its classes.
If moreover what is declared anew is regular (`Statement.IsRegular`), each line of the declarations
is paired, and the declarations are matched (`isMatched_declarations`). Without that they need not
be: an assertion in brackets is taken with the brackets that close behind it
(`not_isMatched_of_assertion`).
-/

namespace SvelteTypings.Script

open Lexeme

variable {d e : Nat} {t : Token} {ts : List Token} {text start : String} {o : CompilerOptions}

/-! ## Statements of a matched run -/

theorem bracketDepth_eq (h : depthOver d ts = some e) : bracketDepth d ts = e := by
  induction ts generalizing d with
  | nil => exact Option.some.inj h
  | cons t ts ih =>
    rw [depthOver_cons] at h
    obtain ⟨d₁, hstep, hrest⟩ := Option.bind_eq_some_iff.1 h
    have hbracket : bracketStep d t.kind = d₁ := by
      unfold depthStep at hstep
      unfold bracketStep
      split at hstep
      · next hopens => rw [if_pos hopens, Option.some.inj hstep]
      next hopens =>
      rw [if_neg hopens]
      split at hstep
      · next hcloses =>
        rw [if_pos hcloses]
        split at hstep
        · exact absurd hstep (by simp)
        · exact Option.some.inj hstep
      · next hcloses => rw [if_neg hcloses, Option.some.inj hstep]
    exact (congrArg (bracketDepth · ts) hbracket).trans (ih hrest)

theorem brackets_of_forall (h : ∀ t ∈ ts, t.isTrivia) : ∀ t ∈ ts, t.kind.brackets = [] :=
  fun t ht => brackets_of_isTrivia (h t ht)

theorem isBalanced_of_brackets (h : ∀ t ∈ ts, t.kind.brackets = []) : isBalanced ts :=
  isBalanced_of_isMatched (isMatched_plain fun t ht => brackets_eq_nil_iff.1 (h t ht))

/-- The stretches of a matched run are matched. -/
theorem CutsInto.isMatched {stretches : List Stretch} {rest : List Token} {s : Stretch}
    (h : CutsInto ts stretches rest) (hmatched : isMatched ts) (hs : s ∈ stretches) :
    isMatched s.tokens := by
  obtain ⟨above, below, rfl⟩ := List.append_of_mem hs
  have hsplit : ts = above.flatMap Stretch.tokens ++
      (s.tokens ++ (below.flatMap Stretch.tokens ++ rest)) := by
    rw [h.tokens]
    simp
  -- A statement ends at depth zero, so what is above one, and up to it, is balanced.
  have houtside : ∀ {us vs : List Token}, ts = us ++ vs → bracketDepth 0 us = 0 →
      isBalanced us := by
    rintro us vs rfl hdepth
    obtain ⟨d, hd⟩ := exists_depthOver_of_append hmatched
    rw [isBalanced_iff, hd, ← bracketDepth_eq hd, hdepth]
  have habove : isBalanced (above.flatMap Stretch.tokens) := by
    by_cases hnil : above = []
    · rw [hnil]
      rfl
    · exact houtside hsplit (h.ends above (s :: below) rfl hnil (Or.inl (by simp))).depth
  have hbehind := (isMatched_of_append (hsplit ▸ hmatched) habove).2
  by_cases hlast : below ≠ [] ∨ rest ≠ []
  · have hends := h.ends (above ++ [s]) below (by simp) (by simp) hlast
    have hupTo : isBalanced (above.flatMap Stretch.tokens ++ s.tokens) := by
      have hrest : ts = (above.flatMap Stretch.tokens ++ s.tokens) ++
          (below.flatMap Stretch.tokens ++ rest) := by rw [hsplit, List.append_assoc]
      exact houtside hrest (by simpa using hends.depth)
    have hstretch : isBalanced s.tokens := by
      rwa [isBalanced_iff, depthOver_append, isBalanced_iff.1 habove, Option.bind_some,
        ← isBalanced_iff] at hupTo
    exact (isMatched_of_append hbehind hstretch).1
  · -- The last stretch is all that is left of a run that is matched.
    obtain ⟨hbelow, hrest⟩ := not_or.1 hlast
    rw [not_not.1 hbelow, not_not.1 hrest] at hbehind
    simpa using hbehind

theorem join_significantAfter (gap : String) (hlast : ∀ t ∈ ts.getLast?, t.isTrivia = false)
    (hgap : ts = [] → gap = "") :
    String.join ((Token.significantAfter gap ts).map Token.spaced) =
      gap ++ String.join (ts.map Token.spaced) := by
  induction ts generalizing gap with
  | nil => rw [hgap rfl]; rfl
  | cons t ts ih =>
    have hlater : ∀ u ∈ ts.getLast?, u.isTrivia = false := by
      cases ts with
      | nil => exact fun u hu => absurd hu (by simp)
      | cons u us => rwa [List.getLast?_cons_cons] at hlast
    rw [Token.significantAfter, List.map_cons, String.join_cons, ← String.append_assoc]
    split
    · next ht =>
      refine ih (gap ++ t.spaced) hlater ?_
      rintro rfl
      exact absurd ht (by simp [hlast t rfl])
    · rw [List.map_cons, String.join_cons, ih "" hlater fun _ => rfl, String.empty_append]
      simp only [Token.spaced, String.append_assoc]

/-- A run that neither starts nor ends with a newline or comment has the text of its significant
tokens. -/
theorem span_significant (hfirst : ∀ t ∈ ts.head?, t.isTrivia = false)
    (hlast : ∀ t ∈ ts.getLast?, t.isTrivia = false) :
    Token.span (Token.significant ts) = Token.span ts := by
  cases ts with
  | nil => rfl
  | cons t ts =>
    have ht := hfirst t rfl
    have hlater : ∀ u ∈ ts.getLast?, u.isTrivia = false := by
      cases ts with
      | nil => exact fun u hu => absurd hu (by simp)
      | cons u us => rwa [List.getLast?_cons_cons] at hlast
    rw [Token.significant, Token.significantAfter, if_neg (by simp [ht]), Token.span, Token.span,
      join_significantAfter "" hlater fun _ => rfl]
    simp only [String.empty_append]

section Source

variable {source : String} (hsource : isClean source)

/-- A statement of a matched stretch of a clean script. -/
structure Statement.IsCutFrom (s : Statement) (source : String) : Prop where
  run : IsRun s.significant
  tokens : s.tokens <:+: tokenize source
  matched : isMatched s.tokens
  text : s.text = Token.span s.significant
  doc : ∀ doc, s.doc = some doc → IsBlockComment doc

include hsource

theorem isCutFrom_of_mem (hts : ts <:+: tokenize source) (hmatched : isMatched ts) {s : Statement}
    (hs : s ∈ splitStatements ts) : s.IsCutFrom source := by
  obtain ⟨stretches, rest, hsplit, hcuts, -⟩ := splitStatements_cutsInto ts
  have hs' := hs
  rw [hsplit] at hs'
  obtain ⟨stretch, hstretch, rfl⟩ := List.mem_map.1 hs'
  have hcut := hcuts.cut stretch hstretch
  have hstretchMatched := hcuts.isMatched hmatched hstretch
  -- Between the statements there is nothing but trivia, so the statement has all brackets.
  have hbefore := isBalanced_of_brackets (brackets_of_forall hcut.before)
  have hafter : isMatched stretch.after :=
    isMatched_plain fun t ht => brackets_eq_nil_iff.1 (brackets_of_forall hcut.after t ht)
  rw [Stretch.tokens, List.append_assoc] at hstretchMatched
  have hbehind := (isMatched_of_append hstretchMatched hbefore).2
  obtain ⟨q, hq, hend⟩ := exists_matchOver_of_append hbehind
  obtain rfl : q = [] := by
    have hplain := matchOver_plain
      (fun t ht => brackets_eq_nil_iff.1 (brackets_of_forall hcut.after t ht)) q
    exact Option.some.inj (hplain.symm.trans hend)
  have htokens : isMatched stretch.statement.tokens := isMatched_iff.2 hq
  have hwithin : stretch.statement.tokens <:+: tokenize source := by
    refine List.IsInfix.trans ?_ hts
    obtain ⟨above, below, habove⟩ := List.append_of_mem hstretch
    refine ⟨above.flatMap Stretch.tokens ++ stretch.before,
      stretch.after ++ (below.flatMap Stretch.tokens ++ rest), ?_⟩
    rw [hcuts.tokens, habove]
    simp [Stretch.tokens]
  obtain ⟨first, hfirst, hfirstTrivia⟩ := hcut.first
  obtain ⟨last, hlast, hlastTrivia⟩ := hcut.last
  refine ⟨⟨isLegible_significant hsource hwithin, ?_⟩, hwithin, htokens, ?_, fun doc hdoc =>
    isBlockComment_of_doc hts hs hdoc⟩
  · rw [Statement.significant, isMatched_significant]
    exact htokens
  · refine (span_significant (fun t ht => ?_) fun t ht => ?_).symm
    · rwa [← Option.some.inj (hfirst.symm.trans ht)]
    · rwa [← Option.some.inj (hlast.symm.trans ht)]

end Source

theorem isPairedAnywhere_of_gaps (h : ∀ c ∈ text.toList, isGap c) : IsPairedAnywhere text :=
  ⟨[], rfl, fun rest => bracketsIn_gaps h rest⟩

theorem isPaired_withDoc {indent : String} (hindent : ∀ c ∈ indent.toList, isGap c)
    {doc? : Option String} (hdoc : ∀ doc, doc? = some doc → IsBlockComment doc)
    (h : IsPaired text) : IsPaired (withDoc o indent doc? text) := by
  cases doc? with
  | none => exact h
  | some doc =>
    rw [withDoc]
    split
    · exact h
    · exact (isLine_reindentDoc (hdoc doc rfl) hindent).append h

/-! ## Classes -/

/-- The word `class` is outside brackets, the head is well nested, and the members are regular. -/
structure IsRegularClass (ts : List Token) : Prop where
  named : ∀ parts ∈ cutAt? (·.isWord "class") ts, isBalanced parts.1
  head : ∀ parts ∈ cutClass? ts, IsWellNested parts.1
  members : ∀ parts ∈ cutClass? ts, ∀ member ∈ splitStatements parts.2, IsRegularMember member.bare

instance (ts : List Token) : Decidable (IsRegularClass ts) :=
  decidable_of_iff
    ((∀ parts ∈ cutAt? (·.isWord "class") ts, isBalanced parts.1) ∧
      (∀ parts ∈ cutClass? ts, IsWellNested parts.1) ∧
      ∀ parts ∈ cutClass? ts, ∀ member ∈ splitStatements parts.2, IsRegularMember member.bare)
    ⟨fun h => ⟨h.1, h.2.1, h.2.2⟩, fun h => ⟨h.named, h.head, h.members⟩⟩

/-- The head of a regular class, and the body in its braces. -/
theorem IsRegularClass.exists_of_cutClass? {head body : List Token} (h : IsRegularClass ts)
    (hmatched : isMatched ts) (hcut : cutClass? ts = some (head, body)) :
    isMatched head ∧ isMatched body ∧
      ∃ opening behind, ts = head ++ opening :: (body ++ behind) := by
  have hnested := h.head (head, body) hcut
  obtain ⟨⟨before, after⟩, hclass, hcut⟩ := Option.bind_eq_some_iff.1 hcut
  obtain ⟨⟨heritage, rest⟩, hbrace, hcut⟩ := Option.bind_eq_some_iff.1 hcut
  obtain ⟨⟨inside, behind⟩, hclosing, hcut⟩ := Option.bind_eq_some_iff.1 hcut
  obtain ⟨hhead, rfl⟩ := Prod.mk.inj (Option.some.inj hcut)
  have hbefore := h.named (before, after) hclass
  -- The word, the brace that opens the body and the one that closes it part the tokens.
  obtain ⟨word, rfl, hword, -⟩ := exists_of_cutAt? hclass
  have hplain := brackets_of_isWord hword
  obtain ⟨hopens, hcloses⟩ := brackets_eq_nil_iff.1 hplain
  obtain ⟨hbeforeMatched, hafter⟩ := isMatched_of_append_cons hmatched hbefore hopens hcloses
  obtain ⟨opening, rfl⟩ := prefix_of_cutTop? hbrace
  have hsplit : before ++ word :: (heritage ++ opening :: rest) =
      (before ++ word :: heritage) ++ opening :: rest := by simp
  obtain rfl : before ++ word :: heritage = head := by
    rw [← hhead, hsplit]
    exact (List.take_left' (by simp [Nat.add_assoc, Nat.add_comm 1])).symm
  obtain ⟨d, hd⟩ := exists_depthOver_of_append hafter
  have hword' : before ++ word :: heritage = (before ++ [word]) ++ heritage := by simp
  have hheritage : IsWellNested heritage := (hword' ▸ hnested).of_append_right hd
  obtain ⟨brace, hkind, heq, hbalanced⟩ := exists_of_cutTop? hbrace hafter hheritage
  obtain ⟨rfl, -⟩ := List.cons.inj (List.append_cancel_left heq)
  obtain ⟨hheritageMatched, hbraced⟩ := isMatched_of_append hafter hbalanced
  obtain ⟨closing, rfl, -, hbody, -⟩ := exists_of_cutClosing? hclosing hbraced (by rw [hkind]; rfl)
  have hwordMatched : isMatched [word] := isMatched_plain (by simpa using ⟨hopens, hcloses⟩)
  refine ⟨?_, hbody, opening, closing :: behind, by simp⟩
  exact isMatched_append hbeforeMatched (isMatched_append hwordMatched hheritageMatched)

theorem isPaired_classText? {source : String} (hsource : isClean source)
    (hts : ts <:+: tokenize source) (hmatched : isMatched ts) (h : IsRegularClass ts)
    (hstart : IsPairedAnywhere start) (htext : classText? o start ts = some text) :
    IsPaired text := by
  obtain ⟨⟨head, body⟩, hcut, hrest⟩ := Option.bind_eq_some_iff.1 htext
  obtain ⟨headText, hheadText, hshown⟩ := Option.bind_eq_some_iff.1 hrest
  obtain ⟨hhead, hbody, opening, behind, rfl⟩ := h.exists_of_cutClass? hmatched hcut
  have hheadInfix : head <:+: tokenize source := (List.prefix_append _ _).isInfix.trans hts
  have hbodyInfix : body <:+: tokenize source :=
    List.IsInfix.trans ⟨head ++ [opening], behind, by simp⟩ hts
  have hheadRun : IsRun (Token.significant head) :=
    ⟨isLegible_significant hsource hheadInfix, by rwa [isMatched_significant]⟩
  have hheadPaired := hheadRun.isPaired_spanText? hheadText
  -- Each member stands on a line of its own, below its comment.
  have hmembers : IsPairedAnywhere (unlines ((splitStatements body).filterMap fun member =>
      (memberText? o member).map fun text =>
        withDoc o memberIndent member.doc (memberIndent ++ text))) := by
    refine isPairedAnywhere_unlines fun line hline => ?_
    obtain ⟨member, hmember, hline⟩ := List.mem_filterMap.1 hline
    obtain ⟨shown, hmemberText, rfl⟩ := Option.map_eq_some_iff.1 hline
    have hcutFrom := isCutFrom_of_mem hsource hbodyInfix hbody hmember
    have hregular := h.members (head, body) hcut member hmember
    have hshownPaired := isPaired_memberText? hcutFrom.run hcutFrom.text hregular hmemberText
    have hindent : ∀ c ∈ memberIndent.toList, isGap c := by simp [memberIndent, isGap]
    have hmember := (isPairedAnywhere_of_gaps hindent).append hshownPaired
    exact (isPaired_withDoc hindent hcutFrom.doc hmember).isLine
  have hnewline : IsPairedAnywhere "\n" := isPairedAnywhere_of_mem_joints (by decide)
  have hspace : IsPairedAnywhere " " := isPairedAnywhere_of_mem_joints (by decide)
  have hblock := (hnewline.append_anywhere hmembers).isPaired.braced
  have hfront := (hstart.append hheadPaired).append_anywhere hspace (by decide)
  rw [← Option.some.inj hshown]
  have hpaired := (hfront.append_anywhere hblock).isPaired
  rw [unlines] at hpaired
  have hopen : " \x7b\n" = " " ++ ("\x7b" ++ "\n") := by decide
  rw [hopen]
  simpa only [String.append_assoc] using hpaired

/-! ## Statements -/

/-- No bracket has more than one character. -/
theorem brackets_of_text (h : t.IsWritten) (hlength : t.text.toList.length ≠ 1) :
    t.kind.brackets = [] := by
  obtain ⟨c, cs, n, hreads, htext⟩ := h.classifies
  rw [htext, String.toList_ofList] at hlength
  generalize t.kind = k at hreads
  cases hreads with
  | run hr =>
    rcases mem_runClasses_iff.1 hr with ⟨hk, -⟩ | ⟨hk, -⟩ | ⟨hk, -⟩ | ⟨hk, -⟩
    · exact absurd hk (by simp)
    all_goals
      obtain rfl := LexemeClass.token.inj hk
      rfl
  | number => rfl
  | lineComment => rfl
  | blockComment => rfl
  | literal hc =>
    have hquotes : ∀ q ∈ quotes, q.2.brackets = [] := by decide
    exact hquotes (c, k) hc
  | single => exact absurd rfl hlength
  | mark hc =>
    have hmarks : ∀ m ∈ marks, m.2.brackets = [] := by decide
    exact hmarks (_, k) hc

/-- The tokens behind the first significant ones. -/
theorem exists_dropSignificant {gap : String} {n : Nat}
    (h : ∀ t ∈ (Token.significantAfter gap ts).take n, t.kind.brackets = []) :
    ∃ front, ts = front ++ Token.dropSignificant n ts ∧ ∀ t ∈ front, t.kind.brackets = [] := by
  fun_induction Token.dropSignificant n ts generalizing gap with
  | case1 => exact ⟨[], rfl, fun _ h => absurd h List.not_mem_nil⟩
  | case2 => exact ⟨[], rfl, fun _ h => absurd h List.not_mem_nil⟩
  | case3 n t ts ht ih =>
    rw [Token.significantAfter, if_pos ht] at h
    obtain ⟨front, hts, hfront⟩ := ih h
    exact ⟨t :: front, by rw [List.cons_append, ← hts],
      List.forall_mem_cons.2 ⟨brackets_of_isTrivia ht, hfront⟩⟩
  | case4 n t ts ht ih =>
    rw [Token.significantAfter, if_neg ht, List.take_succ_cons] at h
    obtain ⟨hhead, hrest⟩ := List.forall_mem_cons.1 h
    obtain ⟨front, hts, hfront⟩ := ih hrest
    exact ⟨t :: front, by rw [List.cons_append, ← hts], List.forall_mem_cons.2 ⟨hhead, hfront⟩⟩

/-- What a statement that is declared anew has to be like. -/
structure Statement.IsRegular (s : Statement) : Prop where
  values : ∀ t ∈ s.significant[1]?, t.text ∈ ["const", "let", "var"] →
    Script.IsRegular s.significant
  functions : ∀ n ∈ [1, 2], ∀ t ∈ s.significant[n]?, t.text ∈ ["function", "async"] →
    HasRegularParams s.significant
  classes : ∀ n ∈ [1, 2], ∀ t ∈ s.significant[n]?, t.text ∈ ["class", "abstract"] →
    IsRegularClass (Token.dropSignificant n s.tokens)

instance (s : Statement) : Decidable s.IsRegular :=
  decidable_of_iff
    ((∀ t ∈ s.significant[1]?, t.text ∈ ["const", "let", "var"] → Script.IsRegular s.significant) ∧
      (∀ n ∈ [1, 2], ∀ t ∈ s.significant[n]?, t.text ∈ ["function", "async"] →
        HasRegularParams s.significant) ∧
      ∀ n ∈ [1, 2], ∀ t ∈ s.significant[n]?, t.text ∈ ["class", "abstract"] →
        IsRegularClass (Token.dropSignificant n s.tokens))
    ⟨fun h => ⟨h.1, h.2.1, h.2.2⟩, fun h => ⟨h.values, h.functions, h.classes⟩⟩

section Source

variable {source : String} {s : Statement} (hs : s.IsCutFrom source)
include hs

theorem Statement.IsCutFrom.isPaired_terminate : IsPaired (terminate s.text) := by
  rw [hs.text]
  exact hs.run.isPaired_terminate

theorem Statement.IsCutFrom.isWritten (ht : t ∈ s.significant) : t.IsWritten :=
  isWritten_of_isLegible hs.run.legible ht

/-- A class behind the first tokens of a statement. -/
theorem isPaired_classBehind? (hsource : isClean source) (hregular : s.IsRegular)
    {front : List Token} (hsignificant : s.significant = front ++ t :: ts)
    (hlength : front.length ∈ [1, 2]) (hplain : ∀ t ∈ front, t.kind.brackets = [])
    (hword : t.text ∈ ["class", "abstract"]) (hstart : IsPairedAnywhere start)
    (htext : classText? o start (Token.dropSignificant front.length s.tokens) = some text) :
    IsPaired text := by
  have hclass := hregular.classes front.length hlength t (by simp [hsignificant]) hword
  have hfront : ∀ t ∈ s.significant.take front.length, t.kind.brackets = [] := by
    rwa [hsignificant, List.take_left]
  obtain ⟨skipped, htokens, hskipped⟩ := exists_dropSignificant hfront
  have hmatched := hs.matched
  rw [htokens] at hmatched
  have hbehind := (isMatched_of_append hmatched (isBalanced_of_brackets hskipped)).2
  have hwithin : Token.dropSignificant front.length s.tokens <:+: s.tokens :=
    ⟨skipped, [], by simp [← htokens]⟩
  exact isPaired_classText? hsource (hwithin.trans hs.tokens) hbehind hclass hstart htext

omit hs in
/-- A function behind the first tokens of a statement. -/
theorem isPaired_functionBehind? (hregular : s.IsRegular) {front behind : List Token}
    (hsignificant : s.significant = front ++ (t :: ts ++ behind))
    (hlength : front.length ∈ [1, 2]) (hplain : ∀ t ∈ front, t.kind.brackets = [])
    (hword : t.text ∈ ["function", "async"]) (hrun : IsRun (t :: ts))
    (hstart : IsPairedAnywhere start) (htext : functionText? o start (t :: ts) = some text) :
    IsPaired text := by
  have hparams := hregular.functions front.length hlength t (by simp [hsignificant]) hword
  rw [hsignificant] at hparams
  have hbehind := hparams.of_append_right (isBalanced_of_brackets hplain)
  exact isPaired_functionText? hstart ⟨hrun, hbehind.of_append⟩ htext

/-- Variables behind the first two tokens of a statement. -/
theorem isPaired_variablesBehind? (hregular : s.IsRegular) {first second : Token} {keyword : String}
    (hsignificant : s.significant = first :: second :: ts) (hfirst : first.kind.brackets = [])
    (hkeyword : second.text = keyword) (hword : keyword ∈ ["const", "let", "var"])
    (hkind : second.kind.brackets = []) (htext : variablesText? o keyword ts = some text) :
    IsPaired text := by
  have hvalues := hregular.values second (by rw [hsignificant]; rfl) (hkeyword ▸ hword)
  have hrun : IsRun ts := ((hsignificant ▸ hs.run).of_cons hfirst).of_cons hkind
  have hpaired : IsPaired keyword :=
    hkeyword ▸ IsRun.isPaired_text hs.run.legible (by rw [hsignificant]; simp) hkind
  have hwithin : ts <:+: s.significant := by
    rw [hsignificant]
    exact ⟨[first, second], [], by simp⟩
  exact isPaired_variablesText? hpaired hrun (hvalues.of_isInfix hwithin hrun.matched) htext

theorem isPaired_defaultText? (hsource : isClean source) (hregular : s.IsRegular)
    {first second : Token} (hsignificant : s.significant = first :: second :: ts)
    (hfirst : first.kind.brackets = []) (hsecond : second.kind.brackets = [])
    (htext : defaultText? o s s.significant = some text) : IsPaired text := by
  have hstart : IsPairedAnywhere "export default " :=
    isPairedAnywhere_of_mem_joints (by decide)
  have hbehind : IsRun ts := ((hsignificant ▸ hs.run).of_cons hfirst).of_cons hsecond
  have hrun := hbehind.dropSemicolon
  obtain ⟨us, vs, hus, rfl⟩ := exists_dropSemicolon ts
  have hdrop : dropSemicolon (s.significant.drop 2) = us := by rw [hsignificant]; exact hus
  rw [hus] at hrun
  rw [defaultText?, hdrop] at htext
  cases us with
  | nil => exact absurd htext (by simp)
  | cons third more =>
    have hplain : ∀ t ∈ [first, second], t.kind.brackets = [] := by simpa using ⟨hfirst, hsecond⟩
    have hclass : third.text ∈ ["class", "abstract"] →
        classText? o "export default " (Token.dropSignificant 2 s.tokens) = some text →
          IsPaired text := fun hword hshown =>
      isPaired_classBehind? hs hsource hregular hsignificant (by simp) hplain hword hstart hshown
    have hfunction : third.text ∈ ["function", "async"] →
        functionText? o "export default " (third :: more) = some text → IsPaired text :=
      fun hword hshown =>
        isPaired_functionBehind? hregular hsignificant (by simp) hplain hword hrun hstart hshown
    -- The word behind decides: a class, a function, a statement that is kept, or an expression.
    dsimp only at htext
    split at htext
    · next hword => exact hclass (by simp [hword]) htext
    · next hword => exact hclass (by simp [hword]) htext
    · next hword => exact hfunction (by simp [hword]) htext
    · next hword => exact hfunction (by simp [hword]) htext
    · exact Option.some.inj htext ▸ hs.isPaired_terminate
    · split at htext
      · exact Option.some.inj htext ▸ hs.isPaired_terminate
      · rw [← Option.some.inj htext, fallbackType]
        split <;> exact isPaired_of_isWritten (by decide +kernel)

theorem isPaired_exportText? (hsource : isClean source) (hregular : s.IsRegular) {first : Token}
    (hsignificant : s.significant = first :: ts) (hfirst : first.kind.brackets = [])
    (htext : exportText? o s s.significant = some text) : IsPaired text := by
  have hstart : IsPairedAnywhere "export declare " :=
    isPairedAnywhere_of_mem_joints (by decide)
  have hbehind : IsRun ts := (hsignificant ▸ hs.run).of_cons hfirst
  have hdrop : s.significant.drop 1 = ts := by rw [hsignificant]; rfl
  rw [exportText?, hdrop] at htext
  cases ts with
  | nil => exact absurd htext (by simp)
  | cons second rest =>
    have hfront : ∀ t ∈ [first], t.kind.brackets = [] := by simpa using hfirst
    have hplain : ∀ {word : String}, second.text = word → word.toList.length ≠ 1 →
        second.kind.brackets = [] := fun hword hlength =>
      brackets_of_text (hs.isWritten (by rw [hsignificant]; simp)) (hword ▸ hlength)
    have hdeclared : IsPaired ("export declare " ++ s.textFrom 1) := by
      rw [Statement.textFrom, hdrop]
      exact hstart.append hbehind.isPaired
    have hvariables : ∀ {keyword}, second.text = keyword → keyword ∈ ["const", "let", "var"] →
        second.kind.brackets = [] → variablesText? o keyword rest = some text → IsPaired text :=
      isPaired_variablesBehind? hs hregular hsignificant hfirst
    have hclass : second.text ∈ ["class", "abstract"] →
        classText? o "export declare " (Token.dropSignificant 1 s.tokens) = some text →
          IsPaired text := fun hword hshown =>
      isPaired_classBehind? hs hsource hregular hsignificant (by simp) hfront hword hstart hshown
    have hfunction : second.text ∈ ["function", "async"] →
        functionText? o "export declare " (second :: rest) = some text → IsPaired text := by
      intro hword hshown
      have hwhole : s.significant = [first] ++ (second :: rest ++ []) := by simpa using hsignificant
      exact isPaired_functionBehind? hregular hwhole (by simp) hfront hword hbehind hstart hshown
    have hkept : some (terminate s.text) = some text → IsPaired text := fun hshown =>
      Option.some.inj hshown ▸ hs.isPaired_terminate
    -- One case for each word that can follow the keyword, in the order in which they are tried.
    dsimp only at htext
    split at htext
    · exact hkept htext
    split at htext
    · next hword =>
      exact isPaired_defaultText? hs hsource hregular hsignificant hfirst
        (hplain hword (by decide)) htext
    · exact hkept htext
    · exact hkept htext
    · exact hkept htext
    · exact hkept htext
    · exact Option.some.inj htext ▸ hdeclared
    · exact Option.some.inj htext ▸ hdeclared
    · exact Option.some.inj htext ▸ hdeclared
    · next hword =>
      split at htext
      · exact Option.some.inj htext ▸ hdeclared
      · exact hvariables hword (by decide) (hplain hword (by decide)) htext
    · next hword => exact hvariables hword (by decide) (hplain hword (by decide)) htext
    · next hword => exact hvariables hword (by decide) (hplain hword (by decide)) htext
    · next hword => exact hfunction (by simp [hword]) htext
    · next hword => exact hfunction (by simp [hword]) htext
    · next hword => exact hclass (by simp [hword]) htext
    · next hword => exact hclass (by simp [hword]) htext
    · exact absurd htext (by simp)

theorem isPaired_declaration? (hsource : isClean source) (hregular : s.IsRegular)
    (htext : declaration? o s = some text) : IsPaired text := by
  obtain ⟨shown, hshown, rfl⟩ := Option.map_eq_some_iff.1 htext
  refine isPaired_withDoc (fun c hc => absurd hc (by simp)) hs.doc ?_
  rw [statementText?] at hshown
  split at hshown
  · exact absurd hshown (by simp)
  next first rest hsignificant =>
  have hkept : some (terminate s.text) = some shown → IsPaired shown := fun h =>
    Option.some.inj h ▸ hs.isPaired_terminate
  split at hshown
  · split at hshown
    · exact absurd hshown (by simp)
    · exact hkept hshown
  · split at hshown
    · next hexport =>
      rw [← hsignificant] at hshown
      exact isPaired_exportText? hs hsource hregular hsignificant (brackets_of_isWord hexport)
        hshown
    · split at hshown
      · exact hkept hshown
      · exact absurd hshown (by simp)

end Source

/-! ## Scripts -/

theorem isLine_of_mem_declarationLines {statements : List Statement}
    (h : ∀ s ∈ statements, ∀ text, declaration? o s = some text → IsPaired text) {line : String}
    (hline : line ∈ declarationLines o statements) : IsLine line := by
  rw [declarationLines] at hline
  split at hline
  · rw [List.mem_singleton.1 hline]
    have hplaceholder : IsPaired placeholder := isPaired_of_isWritten (by decide +kernel)
    exact hplaceholder.isLine
  · obtain ⟨s, hs, hshown⟩ := List.mem_filterMap.1 hline
    exact (h s hs line hshown).isLine

/-- **Declarations of a matched script are matched**, if the script is clean and what is declared
anew is regular. -/
theorem isMatched_declarations {source : String} (hsource : isClean source)
    (hmatched : isMatched (tokenize source)) (hregular : ∀ s ∈ scan source, s.IsRegular)
    (o : CompilerOptions) : isMatched (tokenize (declarations o source)) := by
  have hne : referenceDirectives source ++ declarationLines o (scan source) ≠ [] := by
    rw [declarationLines]
    split <;> simp_all
  rw [declarations, ← unlines_eq hne]
  refine isMatched_tokenize (isPairedAnywhere_unlines fun line hline => ?_)
  rcases List.mem_append.1 hline with hline | hline
  · exact isLine_of_mem_referenceDirectives hline
  · refine isLine_of_mem_declarationLines (fun s hs text htext => ?_) hline
    have hcut := isCutFrom_of_mem hsource (List.infix_refl _) hmatched hs
    exact isPaired_declaration? hcut hsource (hregular s hs) htext

/-- An assertion, a generic class, an arrow function, and a setter. -/
theorem isMatched_declarations_members : isMatched (tokenize (declarations {}
    "export let a = [f()] as P;\nexport class C<T> \x7b x = (y) => y; set z(w) \x7b \x7d \x7d")) :=
  isMatched_declarations (by decide +kernel) (by decide +kernel) (by decide +kernel) _

/-- **The type of an assertion is taken up to the end of the initializer**, also where the assertion
stands in brackets: the bracket that closes them is taken with it. -/
theorem not_isMatched_of_assertion :
    isMatched (tokenize "export const x = f(y as T);") ∧
      declarations {} "export const x = f(y as T);" = "export declare const x: T);\n" ∧
      isMatched (tokenize (declarations {} "export const x = f(y as T);")) = false := by
  decide +kernel

end SvelteTypings.Script
