import Mathlib.Data.List.Forall2
import SvelteTypings.Proofs.Script.LineEnds
import SvelteTypings.Proofs.Script.Members

/-!
# Exported classes

The body of a class is split as a script is. Where every member has lines of its own, each is a
statement (`IsBody.splitStatements`), so the declaration of the class lists the members in their
order, each once (`declarations_of_class`).
-/

namespace SvelteTypings.Script

variable {t : Token} {ts : List Token} {s : Statement} {o : CompilerOptions}

/-! ## Bodies -/

/-- A run of members on lines of their own. A member ends with a `;`, or with its last line if what
follows does not go on. In front of it stand newlines and comments. -/
inductive IsBody : List Token → List Statement → Prop where
  | nil {before : List Token} (hbefore : ∀ t ∈ before, t.isTrivia) : IsBody before []
  | semicolon {before member rest : List Token} {members : List Statement}
      (hbefore : ∀ t ∈ before, t.isTrivia) (hmember : splitStatements member = [⟨member, none⟩])
      (hend : endsInSemicolon member) (hrest : IsBody rest members) :
      IsBody (before ++ (member ++ rest)) (⟨member, lastDoc? before⟩ :: members)
  | line {before member after rest : List Token} {members : List Statement}
      (hbefore : ∀ t ∈ before, t.isTrivia) (hmember : splitStatements member = [⟨member, none⟩])
      (hlast : member.getLast?.any fun t => endsLine t.kind) (hdepth : bracketDepth 0 member = 0)
      (hafter : ∀ t ∈ after, t.isTrivia ∧ t.kind ≠ .newline)
      (hline : rest.head?.all (·.kind = .newline)) (hcontinues : continues rest = false)
      (hrest : IsBody rest members) :
      IsBody (before ++ (member ++ (after ++ rest))) (⟨member, lastDoc? before⟩ :: members)

/-- A statement alone starts with a significant token. -/
theorem exists_cons_of_alone {member : List Token} {doc : Option String}
    (h : splitStatements member = [⟨member, doc⟩]) :
    ∃ t ts, member = t :: ts ∧ t.isTrivia = false := by
  obtain ⟨stretch, rest, hstatement, hcuts⟩ := exists_cutsInto_singleton h
  obtain ⟨t, ht, hsignificant⟩ := (hcuts.cut stretch List.mem_cons_self).first
  rw [hstatement] at ht
  obtain ⟨ts, hts⟩ := List.head?_eq_some_iff.1 ht
  exact ⟨t, ts, hts, hsignificant⟩

/-- The last comment in front of a member is its documentation. -/
theorem splitStatements_before {before member rest : List Token} {doc : Option String}
    {members : List Statement} (hbefore : ∀ t ∈ before, t.isTrivia)
    (hmember : splitStatements member = [⟨member, doc⟩])
    (hrest : splitStatements (member ++ rest) = ⟨member, doc⟩ :: members) :
    splitStatements (before ++ (member ++ rest)) = ⟨member, lastDoc? before⟩ :: members := by
  obtain ⟨t, ts, hcons, ht⟩ := exists_cons_of_alone hmember
  have hbetween := splitFrom_between hbefore none (member ++ rest)
  rw [Option.or_none] at hbetween
  unfold splitStatements at hrest ⊢
  rw [hcons, List.cons_append] at hbetween hrest ⊢
  refine hbetween.trans ?_
  rw [splitFrom_pending ht, hrest]
  rfl

theorem belowLine_eq_nil (h : ∀ t ∈ ts, t.isTrivia ∧ t.kind ≠ .newline) : belowLine ts = [] :=
  List.dropWhile_eq_nil_iff.2 fun t ht => by simpa using (h t ht).2

/-- A member that ends with its line is a statement. -/
theorem splitStatements_line {member after rest : List Token}
    (hmember : splitStatements member = [⟨member, none⟩])
    (hlast : member.getLast?.any fun t => endsLine t.kind) (hdepth : bracketDepth 0 member = 0)
    (hafter : ∀ t ∈ after, t.isTrivia ∧ t.kind ≠ .newline)
    (hline : rest.head?.all (·.kind = .newline)) (hcontinues : continues rest = false) :
    splitStatements (member ++ (after ++ rest)) = ⟨member, none⟩ :: splitStatements rest := by
  obtain ⟨last, hlast, hend⟩ := (Option.any_eq_true _ _).1 hlast
  obtain ⟨front, behind, hrun, ht, hbehind, hfollows⟩ :=
    splitStatements_finished_append hmember hlast hend hdepth
  -- the last token is significant, so nothing stands behind it
  obtain rfl : behind = [] := by
    by_contra hne
    have hlast' := List.getLast?_eq_some_getLast hne
    rw [hrun, List.getLast?_append, List.getLast?_cons, hlast', Option.getD_some, Option.some_or,
      Option.some.injEq] at hlast
    have htrivia := hbehind _ (List.getLast_mem hne)
    rw [hlast, ht] at htrivia
    exact absurd htrivia Bool.false_ne_true
  rw [hfollows after rest (fun t ht => (hafter t ht).1) hline hcontinues, List.nil_append,
    belowLine_eq_nil hafter]
  rfl

/-- **Each member is a statement.** -/
theorem IsBody.splitStatements {members : List Statement} (h : IsBody ts members) :
    splitStatements ts = members := by
  induction h with
  | @nil before hbefore =>
    have hbetween := splitFrom_between hbefore none []
    rw [List.append_nil] at hbetween
    exact hbetween
  | semicolon hbefore hmember hend _ ih =>
    apply splitStatements_before hbefore hmember
    rw [splitStatements_append hend, hmember, ih]
    rfl
  | line hbefore hmember hlast hdepth hafter hline hcontinues _ ih =>
    apply splitStatements_before hbefore hmember
    rw [splitStatements_line hmember hlast hdepth hafter hline hcontinues, ih]

/-! ## Classes -/

/-- An exported class, with all newlines and comments. -/
structure ClassParts where
  exporting : Token
  /-- The word `default` and what stands in front of it. -/
  toDefault : Option (List Token × Token)
  /-- What stands in front of the word `class`. -/
  before : List Token
  keyword : Token
  /-- The name and all that follows it up to the body. -/
  heritage : List Token
  opening : Token
  body : List Token
  closing : Token
  after : List Token

/-- The members that are listed, one below the other, with their documentation. -/
def membersText (o : CompilerOptions) (members : List Statement) : String :=
  String.join ((members.filterMap fun m => (memberText? o m).map fun text =>
    withDoc o memberIndent m.doc (memberIndent ++ text)).map (· ++ "\n"))

namespace ClassParts

variable {c : ClassParts}

def defaultTokens (c : ClassParts) : List Token :=
  match c.toDefault with
  | some (gap, word) => gap ++ [word]
  | none => []

/-- The run from the word `class` on, or from what stands in front of it. -/
def declared (c : ClassParts) : List Token :=
  c.before ++ c.keyword :: (c.heritage ++ c.opening :: (c.body ++ c.closing :: c.after))

def tokens (c : ClassParts) : List Token := c.exporting :: (c.defaultTokens ++ c.declared)

structure IsClass (c : ClassParts) : Prop where
  exporting : c.exporting.isWord "export"
  toDefault : ∀ gap word, c.toDefault = some (gap, word) →
    (∀ t ∈ gap, t.isTrivia) ∧ word.isWord "default"
  before : ∀ t ∈ c.before, t.isTrivia ∨ t.isWord "abstract"
  keyword : c.keyword.isWord "class"
  /-- The body is behind the first brace at the top level. -/
  heritage : cutTop? .openBrace 0 (c.heritage ++ [c.opening]) = some (c.heritage, [])
  body : isBalanced c.body
  closing : c.closing.kind = .closeBrace

/-- What a declaration starts with. -/
def start (c : ClassParts) : String :=
  if c.toDefault.isSome then "export default " else "export declare "

/-- The text up to the body, from `abstract` or `class` on. -/
def head (c : ClassParts) : String :=
  trimmed (Token.span (Token.significant (c.before ++ c.keyword :: c.heritage)))

theorem cutClass?_declared (hc : c.IsClass) :
    cutClass? c.declared = some (c.before ++ c.keyword :: c.heritage, c.body) := by
  have hnotClass : ∀ t ∈ c.before, t.isWord "class" = false := by
    intro t ht
    rcases hc.before t ht with htrivia | hword
    · cases hkind : t.kind <;> simp_all [Token.isTrivia, Kind.isTrivia, Token.isWord]
    · simp [Token.isWord, (isWord_iff.1 hword).2]
  have hkeyword : cutAt? (·.isWord "class") c.declared =
      some (c.before, c.heritage ++ c.opening :: (c.body ++ c.closing :: c.after)) :=
    cutAt?_append_cons (cutAt?_eq_none hnotClass) hc.keyword _
  have hheritage := hc.heritage
  rw [cutTop?_eq] at hheritage
  have hbrace := Search.cut?_append_of_some hheritage (c.body ++ c.closing :: c.after)
  rw [List.append_assoc, List.singleton_append, ← cutTop?_eq] at hbrace
  have hbody := cutClosing?_of_isBalanced hc.body
    (by rw [hc.closing]; exact ⟨rfl, rfl⟩ : c.closing.kind.opens = false ∧ c.closing.kind.closes)
    c.after
  have htake : c.declared.take (c.before.length + 1 + c.heritage.length) =
      c.before ++ c.keyword :: c.heritage := by
    have hlength : c.before.length + 1 + c.heritage.length =
        (c.before ++ c.keyword :: c.heritage).length := by simp; omega
    have hdeclared : c.declared = (c.before ++ c.keyword :: c.heritage) ++
        c.opening :: (c.body ++ c.closing :: c.after) := by simp [declared]
    rw [hlength, hdeclared, List.take_left]
  simp only [cutClass?, hkeyword, hbrace, Search.extend, List.nil_append, hbody, htake,
    Option.bind_eq_bind, Option.bind_some]
  rfl

theorem hasText_head (hc : c.IsClass) :
    HasText (Token.significant (c.before ++ c.keyword :: c.heritage)) := by
  obtain ⟨hkind, htext⟩ := isWord_iff.1 hc.keyword
  have hkeyword : c.keyword.bare ∈
      (Token.significant (c.before ++ c.keyword :: c.heritage)).map Token.bare := by
    rw [Token.significant, map_bare_significantAfter]
    apply List.mem_map_of_mem
    simp [Token.isTrivia, hkind, Kind.isTrivia]
  obtain ⟨t, ht, hbare⟩ := List.mem_map.1 hkeyword
  refine hasText_of_mem ht ?_
  have hword : t.text = "class" := (Token.mk.inj hbare).2.2.trans htext
  have hspan : Token.span [t] = "class" := by
    rw [← hword]
    exact String.append_empty
  unfold HasText
  rw [hspan]
  decide

theorem classText?_declared (hc : c.IsClass) (o : CompilerOptions) :
    classText? o c.start c.declared = some (c.start ++ c.head ++ " \x7b\n" ++
      membersText o (splitStatements c.body) ++ "\x7d") := by
  simp only [classText?, cutClass?_declared hc, spanText?_of_hasText (hasText_head hc),
    Option.bind_eq_bind, Option.bind_some]
  rfl

/-- Newlines and comments are passed over. -/
theorem exists_significantAfter_append {before : List Token} (hbefore : ∀ t ∈ before, t.isTrivia)
    (gap : String) (ts : List Token) :
    ∃ gap', Token.significantAfter gap (before ++ ts) = Token.significantAfter gap' ts := by
  induction before generalizing gap with
  | nil => exact ⟨gap, rfl⟩
  | cons t before ih =>
    obtain ⟨ht, hrest⟩ := List.forall_mem_cons.1 hbefore
    rw [List.cons_append, Token.significantAfter, if_pos ht]
    exact ih hrest _

/-- The first word of what is declared. -/
theorem exists_significantAfter_declared (hc : c.IsClass) (gap : String) :
    ∃ t ts, Token.significantAfter gap c.declared = t :: ts ∧ t.kind = .ident ∧
      (t.text = "class" ∨ t.text = "abstract") := by
  unfold declared
  have hbefore := hc.before
  generalize c.before = before at hbefore ⊢
  induction before generalizing gap with
  | nil =>
    obtain ⟨hkind, htext⟩ := isWord_iff.1 hc.keyword
    rw [List.nil_append, significantAfter_cons hkind]
    exact ⟨_, _, rfl, hkind, Or.inl htext⟩
  | cons t before ih =>
    obtain ⟨ht, hrest⟩ := List.forall_mem_cons.1 hbefore
    rcases ht with htrivia | hword
    · rw [List.cons_append, Token.significantAfter, if_pos htrivia]
      exact ih _ hrest
    · obtain ⟨hkind, htext⟩ := isWord_iff.1 hword
      rw [List.cons_append, significantAfter_cons hkind]
      exact ⟨_, _, rfl, hkind, Or.inr htext⟩

theorem dropSignificant_before {before : List Token} (hbefore : ∀ t ∈ before, t.isTrivia)
    (n : Nat) (ts : List Token) :
    Token.dropSignificant (n + 1) (before ++ ts) = Token.dropSignificant (n + 1) ts := by
  induction before with
  | nil => rfl
  | cons t before ih =>
    obtain ⟨ht, hrest⟩ := List.forall_mem_cons.1 hbefore
    rw [List.cons_append, Token.dropSignificant, if_pos ht, ih hrest]

theorem dropSignificant_cons {word : Token} (hword : word.kind = .ident) (n : Nat)
    (ts : List Token) :
    Token.dropSignificant (n + 1) (word :: ts) = Token.dropSignificant n ts := by
  rw [Token.dropSignificant, if_neg]
  simp [Token.isTrivia, hword, Kind.isTrivia]

theorem dropSignificant_zero (ts : List Token) : Token.dropSignificant 0 ts = ts := by
  cases ts <;> rfl

/-- An exported class is declared from `abstract` or `class` on. -/
theorem statementText?_eq_classText? (hc : c.IsClass) (hs : s.tokens = c.tokens)
    (o : CompilerOptions) : statementText? o s = classText? o c.start c.declared := by
  obtain ⟨hkind, htext⟩ := isWord_iff.1 hc.exporting
  have hsignificant : s.significant = { c.exporting with gap := "" ++ c.exporting.gap } ::
      Token.significantAfter "" (c.defaultTokens ++ c.declared) := by
    rw [Statement.significant, hs, tokens, Token.significant, significantAfter_cons hkind]
  rw [statementText?, hsignificant]
  unfold defaultTokens start
  cases hdefault : c.toDefault with
  | none =>
    obtain ⟨t, ts, hfirst, htkind, httext⟩ := exists_significantAfter_declared hc ""
    have hdrop : Token.dropSignificant 1 s.tokens = c.declared := by
      rw [hs, tokens, dropSignificant_cons hkind, dropSignificant_zero]
      simp [defaultTokens, hdefault]
    rcases httext with httext | httext <;>
      simp [hfirst, Token.isWord, hkind, htext, exportText?, htkind, httext, Token.isOperator, hdrop]
  | some toDefault =>
    obtain ⟨gap, word⟩ := toDefault
    obtain ⟨hgap, hword⟩ := hc.toDefault gap word hdefault
    obtain ⟨hwkind, hwtext⟩ := isWord_iff.1 hword
    obtain ⟨gap', hpassed⟩ := exists_significantAfter_append hgap "" (word :: c.declared)
    obtain ⟨t, ts, hfirst, htkind, httext⟩ := exists_significantAfter_declared hc ""
    obtain ⟨more, hmore⟩ := exists_dropSemicolon_cons (t := t) (by simp [htkind]) ts
    have hdrop : Token.dropSignificant 2 s.tokens = c.declared := by
      have hdefaultTokens : c.defaultTokens = gap ++ [word] := by simp [defaultTokens, hdefault]
      rw [hs, tokens, dropSignificant_cons hkind, hdefaultTokens, List.append_assoc,
        dropSignificant_before hgap, List.singleton_append, dropSignificant_cons hwkind,
        dropSignificant_zero]
    dsimp only
    rw [List.append_assoc, List.singleton_append, hpassed, significantAfter_cons hwkind, hfirst]
    rcases httext with httext | httext <;>
      simp [Token.isWord, hkind, htext, exportText?, hwkind, hwtext, Token.isOperator, defaultText?,
        hmore, httext, hdrop]

end ClassParts

/-! ## The script -/

/-- **Every member of a class is listed once, in order.** The declaration of an exported class has
the text up to the body, and in braces those members that are listed, each below its documentation.
A member is listed by its name, or as it stands. Members named with `#`, static blocks, members that
start with `[` and end with a brace, and generators are not listed. -/
theorem declarations_of_class {source : String} {above below : List Statement}
    (hscan : scan source = above ++ s :: below) {c : ClassParts} (hc : c.IsClass)
    (hs : s.tokens = c.tokens) {members : List Statement} (hbody : IsBody c.body members)
    {listings : List Listing}
    (hshows : List.Forall₂ (fun m => Shows (dropSemicolon m.significant)) members listings)
    (o : CompilerOptions) :
    declarations o source = joinLines (referenceDirectives source ++
        (above.filterMap (declaration? o) ++
          withDoc o "" s.doc (c.start ++ c.head ++ " \x7b\n" ++ membersText o members ++ "\x7d") ::
          below.filterMap (declaration? o))) ++ "\n" ∧
      List.Forall₂ (fun m listing => listing.IsListed m (memberText? o m)) members listings := by
  constructor
  · have hstatement := ClassParts.statementText?_eq_classText? hc hs o
    rw [ClassParts.classText?_declared hc, hbody.splitStatements] at hstatement
    rw [declarations_of_scan_append hscan, declaration?, hstatement]
    have hplaceholder : ∀ (before : List String) (text : String) (after : List String),
        orPlaceholder (before ++ text :: after) = before ++ text :: after := by
      intro before text after
      cases before <;> rfl
    exact congrArg (fun texts => joinLines (referenceDirectives source ++ texts) ++ "\n")
      (hplaceholder _ _ _)
  · -- the tokens of the members are among those of the script
    have hwritten : ∀ m ∈ members, ∀ t ∈ dropSemicolon m.significant, t.IsWritten := by
      intro m hm t ht
      have htokens : ∀ u ∈ m.tokens, u ∈ tokenize source := by
        intro u hu
        have hu' := mem_of_mem_splitStatements (hbody.splitStatements ▸ hm) hu
        apply mem_of_mem_splitStatements (s := s)
        · rw [← scan, hscan]
          simp
        · rw [hs]
          simp [ClassParts.tokens, ClassParts.declared, hu']
      exact isWritten_of_mem_significant htokens (mem_of_mem_dropSemicolon ht)
    have hboth := (List.forall₂_and_left _ _).2 ⟨hwritten, hshows⟩
    exact hboth.imp fun m listing h => isListed_of_shows h.2 rfl h.1 o

/-- The newline in front of a line. -/
def lineStart : Token := ⟨.newline, "", "\n"⟩

/-- A class with members of several kinds. -/
def classSource : String :=
  "export class A \x7b\n a = 1\n static 'b'<T>(c: T): T \x7b\x7d // d\n /** e */\n" ++
    " private get e() \x7b\x7d\n #f;\n [g]() \x7b\x7d\n constructor(h = 3) \x7b\x7d\n static \x7b\x7d\n\x7d"

/-- Its members, and the documentation of each. -/
def classMembers : List Statement :=
  [⟨tokenize " a = 1", none⟩, ⟨tokenize " static 'b'<T>(c: T): T \x7b\x7d", none⟩,
    ⟨tokenize " private get e() \x7b\x7d", some "/** e */"⟩, ⟨tokenize " #f;", none⟩,
    ⟨tokenize " [g]() \x7b\x7d", none⟩, ⟨tokenize " constructor(h = 3) \x7b\x7d", none⟩,
    ⟨tokenize " static \x7b\x7d", none⟩]

def classListings : List Listing :=
  [.named "" "a", .named "static " "'b'", .named "private " "e", .hidden, .hidden,
    .named "" "constructor", .hidden]

/-- The tokens of the class. -/
def classParts : ClassParts where
  exporting := ⟨.ident, "", "export"⟩
  toDefault := none
  before := []
  keyword := ⟨.ident, " ", "class"⟩
  heritage := tokenize " A"
  opening := ⟨.openBrace, " ", "\x7b"⟩
  body := [lineStart] ++ (tokenize " a = 1" ++ ([] ++ ([lineStart] ++
    (tokenize " static 'b'<T>(c: T): T \x7b\x7d" ++ (tokenize " // d" ++
    ((lineStart :: tokenize " /** e */\n") ++
    (tokenize " private get e() \x7b\x7d" ++ ([] ++ ([lineStart] ++
    (tokenize " #f;" ++ ([lineStart] ++
    (tokenize " [g]() \x7b\x7d" ++ ([] ++ ([lineStart] ++
    (tokenize " constructor(h = 3) \x7b\x7d" ++ ([] ++ ([lineStart] ++
    (tokenize " static \x7b\x7d" ++ ([] ++ [lineStart])))))))))))))))))))
  closing := ⟨.closeBrace, "", "\x7d"⟩
  after := []

theorem isBody_classParts : IsBody classParts.body classMembers := by
  have hbefore : ∀ t ∈ [lineStart], t.isTrivia := by decide
  have hafter : ∀ t ∈ ([] : List Token), t.isTrivia ∧ t.kind ≠ .newline := by simp
  have hdoc : some "/** e */" = lastDoc? (lineStart :: tokenize " /** e */\n") := by
    rw [tokenize_ofList]
    decide +kernel
  unfold classParts classMembers
  dsimp only
  rw [hdoc]
  refine .line hbefore ?_ ?_ ?_ hafter rfl ?_ <| .line hbefore ?_ ?_ ?_ ?_ rfl ?_ <|
    .line ?_ ?_ ?_ ?_ hafter rfl ?_ <| .semicolon hbefore ?_ ?_ <|
    .line hbefore ?_ ?_ ?_ hafter rfl ?_ <| .line hbefore ?_ ?_ ?_ hafter rfl ?_ <|
    .line hbefore ?_ ?_ ?_ hafter rfl ?_ <| .nil hbefore
  all_goals
    repeat rw [tokenize_ofList]
    try decide +kernel

/-- What stands in front of the body of the method, and its result. -/
def classHeader : Header where
  generics := ⟨.less, "", "<"⟩ :: tokenize "T>"
  opening := ⟨.openParen, "", "("⟩
  params := tokenize "c: T"
  closing := ⟨.closeParen, "", ")"⟩
  resultType := some (⟨.colon, "", ":"⟩, tokenize " T")

theorem isHeader_classHeader : classHeader.IsHeader := by
  refine ⟨.angles rfl (by decide +kernel) (by decide +kernel), rfl, by decide +kernel, rfl, ?_⟩
  rintro colon type ⟨rfl, rfl⟩
  exact ⟨rfl, by decide +kernel⟩

theorem shows_classMembers :
    List.Forall₂ (fun m => Shows (dropSemicolon m.significant)) classMembers classListings := by
  have hstarts : ∀ {modifiers rest : List Token} {first : Token},
      (modifiers.all fun t => t.kind = .ident ∧ t.text ∈ memberModifiers) →
      startsMemberName first → rest.head?.any startsMemberName = false →
      StartsMember modifiers first rest := fun hmodifiers hfirst hrest =>
    ⟨by simpa using hmodifiers, Or.inl hfirst, fun _ => hrest⟩
  have hshows : ∀ {ts us : List Token} {listing listing' : Listing}, Shows us listing' →
      ts = us → listing = listing' → Shows ts listing := by
    rintro _ _ _ _ h rfl rfl
    exact h
  have hblock : IsBlock [] [⟨.openBrace, " ", "\x7b"⟩, ⟨.closeBrace, "", "\x7d"⟩] :=
    ⟨rfl, _, _, rfl, rfl, rfl⟩
  refine .cons (hshows (@Shows.ofName [] _ ⟨.ident, " ", "a"⟩ none (hstarts ?_ ?_ ?_) rfl ?_ ?_
      (by simp) (@IsMemberBody.initialized _ _ ⟨.equals, " ", "="⟩ (tokenize " 1") rfl)) ?_ ?_) <|
    .cons (hshows (@Shows.ofName (tokenize " static") _ ⟨.string, " ", "'b'"⟩ none
      (hstarts ?_ ?_ ?_) rfl ?_ ?_ (by simp) (.method isHeader_classHeader hblock ?_ ?_)) ?_ ?_) <|
    .cons (hshows (@Shows.ofPrivate (tokenize " private get") (tokenize "() \x7b\x7d")
      ⟨.ident, " ", "e"⟩ (hstarts ?_ ?_ ?_) rfl ?_ ?_) ?_ ?_) <|
    .cons (hshows (@Shows.hash [] (tokenize "f") ⟨.operator, " ", "#"⟩
      ⟨by simp, Or.inr rfl, by simp⟩ rfl ?_) ?_ ?_) <|
    .cons (hshows (@Shows.computedBody [] (tokenize "g]() \x7b\x7d") ⟨.openBracket, " ", "["⟩
      ⟨by simp, Or.inr rfl, by simp⟩ rfl ?_) ?_ ?_) <|
    .cons (hshows (@Shows.ofConstructor [] (tokenize "h = 3") (tokenize " \x7b\x7d")
      ⟨.ident, " ", "constructor"⟩ ⟨.openParen, "", "("⟩ ⟨.closeParen, "", ")"⟩ (hstarts ?_ ?_ ?_) ?_
      ?_ ?_ rfl ?_ rfl) ?_ ?_) <|
    .cons (hshows (@Shows.staticBlock ⟨.ident, " ", "static"⟩ ⟨.openBrace, " ", "\x7b"⟩
      [⟨.closeBrace, "", "\x7d"⟩] ?_ rfl) ?_ ?_) .nil
  all_goals
    repeat rw [tokenize_ofList]
    try decide +kernel

/-- Members of every kind, of which four are listed. -/
theorem declarations_of_class_kinds :
    scan classSource = [] ++ ⟨classParts.tokens, none⟩ :: [] ∧
      classParts.IsClass ∧ IsBody classParts.body classMembers ∧
      List.Forall₂ (fun m => Shows (dropSemicolon m.significant)) classMembers classListings ∧
      declarations {} classSource = "export declare class A \x7b\n    a: number;\n" ++
        "    static 'b'<T>(c: T): T;\n    /** e */\n    private e;\n" ++
        "    constructor(h?: number);\n\x7d\n" ∧
      List.Forall₂ (fun m listing => listing.IsListed m (memberText? {} m)) classMembers
        classListings := by
  have hscan : scan classSource = [] ++ ⟨classParts.tokens, none⟩ :: [] := by
    unfold scan classSource classParts ClassParts.tokens
    rw [← String.ofList_append]
    repeat rw [tokenize_ofList]
    decide +kernel
  have hc : classParts.IsClass := by
    refine ⟨by decide, by simp [classParts], by simp [classParts], by decide, ?_, ?_, rfl⟩
    all_goals
      unfold classParts
      repeat rw [tokenize_ofList]
      decide +kernel
  obtain ⟨hdeclarations, hlisted⟩ :=
    declarations_of_class hscan hc rfl isBody_classParts shows_classMembers {}
  refine ⟨hscan, hc, isBody_classParts, shows_classMembers, ?_, hlisted⟩
  have hdirectives : referenceDirectives classSource = [] := by
    have hsource : classSource.toList = 'e' :: _ :=
      String.toList_append.trans (congrArg (· ++ _) String.toList_ofList)
    exact referenceDirectives_eq_nil hsource (by decide) (by decide)
  rw [hdeclarations, hdirectives]
  unfold classParts classMembers
  repeat rw [tokenize_ofList]
  decide +kernel

/-- A class has the member, which is no static block and is not named with `#`, and its declaration
lists none. -/
def Omits (member : String) : Prop :=
  splitStatements (tokenize member) = [⟨tokenize member, none⟩] ∧
    ((tokenize member).head?.any fun t => startsMemberName t && !startsWithHash t) ∧
    scan ("export class A \x7b\n" ++ member ++ "\n\x7d") =
      [⟨tokenize "export class A \x7b\n" ++ (tokenize member ++ tokenize "\n\x7d"), none⟩] ∧
    declarations {} ("export class A \x7b\n" ++ member ++ "\n\x7d") =
      "export declare class A \x7b\n\x7d\n"

/-- Generators are not listed, nor are index signatures with an object type, which is taken for the
body of a computed member. -/
theorem omits_members :
    Omits "*items() \x7b \x7d" ∧ Omits "[key: string]: \x7b a: A \x7d;" := by
  refine ⟨⟨?_, ?_, ?_, ?_⟩, ⟨?_, ?_, ?_, ?_⟩⟩
  all_goals
    try rw [declarations]
    try rw [scan]
    repeat rw [← String.ofList_append]
    repeat rw [tokenize_ofList]
    decide +kernel

end SvelteTypings.Script
