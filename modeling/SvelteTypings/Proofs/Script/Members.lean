import SvelteTypings.Proofs.Script.Origin
import SvelteTypings.Proofs.Script.Overloads

/-!
# Members of classes

What a declaration shows of a member is told by its first token that is no modifier and by what
stands behind its name: nothing, the member as it stands, or its name behind the modifiers that are
kept (`isListed_of_shows`). A generator is not shown, as its star is taken for its name.
-/

namespace SvelteTypings.Script

variable {t : Token} {ts : List Token} {o : CompilerOptions} {s : Statement}

/-! ## Texts that are not blank -/

theorem trimmed_ne_empty {text : String} {c : Char} (hc : c ∈ text.toList)
    (hblank : Text.isBlank c = false) : trimmed text ≠ "" := by
  intro hempty
  have hnil : Text.trim text.toList = [] := by
    rw [← String.toList_ofList (l := Text.trim text.toList)]
    exact congrArg String.toList hempty
  unfold Text.trim at hnil
  cases hstart : Text.trimStart text.toList with
  | nil => exact absurd (List.dropWhile_eq_nil_iff.1 hstart c hc) (by simp [hblank])
  | cons d rest =>
    have hfirst := List.head?_dropWhile_not Text.isBlank text.toList
    rw [← Text.trimStart, hstart] at hfirst
    rw [hstart] at hnil
    exact Text.trimEnd_cons_ne_nil (by simpa using hfirst) rest hnil

theorem exists_of_trimmed_ne_empty {text : String} (h : trimmed text ≠ "") :
    ∃ c ∈ text.toList, Text.isBlank c = false := by
  by_contra hnone
  apply h
  have hall : ∀ c ∈ text.toList, Text.isBlank c := by simpa using hnone
  have hstart : Text.trimStart text.toList = [] := List.dropWhile_eq_nil_iff.2 hall
  rw [trimmed, Text.trim, hstart]
  rfl

theorem mem_toList_span {c : Char} (ht : t ∈ ts) (hc : c ∈ t.text.toList) :
    c ∈ (Token.span ts).toList := by
  cases ts with
  | nil => exact absurd ht List.not_mem_nil
  | cons u ts =>
    rw [Token.span, String.toList_append]
    rcases List.mem_cons.1 ht with rfl | ht
    · exact List.mem_append_left _ hc
    · apply List.mem_append_right
      have hspaced : c ∈ t.spaced.toList := by
        rw [Token.spaced, String.toList_append]
        exact List.mem_append_right _ hc
      rw [String.toList_join]
      exact List.mem_flatMap.2 ⟨t.spaced, List.mem_map_of_mem ht, hspaced⟩

/-- A run has text if one of its tokens does. -/
theorem hasText_of_mem (ht : t ∈ ts) (h : HasText [t]) : HasText ts := by
  obtain ⟨c, hc, hblank⟩ := exists_of_trimmed_ne_empty h
  refine trimmed_ne_empty (mem_toList_span ht ?_) hblank
  simpa [Token.span] using hc

/-! ## Words and names -/

/-- The run goes on from the name, or from what stands in its place. -/
structure StartsMember (modifiers : List Token) (first : Token) (rest : List Token) : Prop where
  isModifier : ∀ t ∈ modifiers, t.kind = .ident ∧ t.text ∈ memberModifiers
  startsName : startsMemberName first ∨ modifiers = []
  /-- Else the name would be a modifier itself. -/
  notName : first.kind = .ident → rest.head?.any startsMemberName = false

/-- A name that is a token of its own. -/
def Kind.isName (k : Kind) : Bool := k = .ident || k = .string || k = .number || k = .nonAscii

theorem Kind.ne_of_isName {k k' : Kind} (h : k.isName) (hk' : k'.isName = false) : k ≠ k' := by
  rintro rfl
  exact absurd h (by simp [hk'])

/-- The words that stand in front of a member. -/
def wordsOf (modifiers : List Token) : List String := modifiers.map Token.text

/-- What stands behind a name: nothing, a type, an initializer, or parameters. A method has a body
or only its result, a setter has no result. -/
inductive IsMemberBody (name : String) (isSetter : Bool) : List Token → Prop where
  | bare : IsMemberBody name isSetter []
  | typed {colon first : Token} {rest : List Token} (hcolon : colon.kind = .colon)
      (hfirst : first.kind ≠ .equals) (htext : HasText [first]) :
      IsMemberBody name isSetter (colon :: first :: rest)
  | initialized {equals : Token} {init : List Token} (hequals : equals.kind = .equals) :
      IsMemberBody name isSetter (equals :: init)
  | method {h : Header} {body block : List Token} (hh : h.IsHeader) (hblock : IsBlock body block)
      (hname : name ≠ "constructor") (hset : isSetter → h.resultType = none) :
      IsMemberBody name isSetter (h.tokens ++ block)
  | bodiless {h : Header} (hh : h.IsHeader)
      (hresult : ∀ colon type, h.resultType = some (colon, type) →
        isMatched type ∧ HasText (typeRead type))
      (hlast : h.resultTokens.getLast?.any (·.kind = .semicolon) = false)
      (hname : name ≠ "constructor") (hset : isSetter → h.resultType = none) :
      IsMemberBody name isSetter h.tokens

/-! ## Listings -/

/-- How a member is listed: not at all, as it stands, or by its name behind some words. -/
inductive Listing where
  | hidden
  | whole
  | named (words name : String)
deriving DecidableEq

/-- No more of a name follows. -/
def endsName (text : String) : Bool :=
  text.toList.head?.any [' ', '?', ':', ';', '(', '<'].contains

/-- The text declares the member in this way. -/
def Listing.IsListed (s : Statement) (text? : Option String) : Listing → Prop
  | hidden => text? = none
  | whole => text? = some (terminate s.text)
  | named words name => ∃ rest, text? = some (words ++ name ++ rest) ∧ endsName rest

/-- How a member is listed, by its significant tokens. -/
inductive Shows : List Token → Listing → Prop where
  | hash {modifiers rest : List Token} {first : Token} (h : StartsMember modifiers first rest)
      (hkind : first.kind = .operator) (hhash : startsWithHash first) :
      Shows (modifiers ++ first :: rest) .hidden
  | staticBlock {word opening : Token} {rest : List Token} (hword : word.isWord "static")
      (hopening : opening.kind = .openBrace) : Shows (word :: opening :: rest) .hidden
  | computedBody {modifiers rest : List Token} {first : Token}
      (h : StartsMember modifiers first rest) (hkind : first.kind = .openBracket)
      (hlast : rest.getLast?.any (·.kind = .closeBrace)) :
      Shows (modifiers ++ first :: rest) .hidden
  | computed {modifiers rest : List Token} {first : Token}
      (h : StartsMember modifiers first rest) (hkind : first.kind = .openBracket)
      (hlast : rest.getLast?.any (·.kind = .closeBrace) = false) :
      Shows (modifiers ++ first :: rest) .whole
  | generator {modifiers rest : List Token} {star name : Token}
      (h : StartsMember modifiers star (name :: rest)) (hstar : star.isOperator "*")
      (hname : name.kind.isName ∨ name.kind = .openBracket)
      (habstract : "abstract" ∉ wordsOf modifiers) (hprivate : "private" ∉ wordsOf modifiers) :
      Shows (modifiers ++ star :: name :: rest) .hidden
  | ofAbstract {modifiers rest : List Token} {name : Token} (h : StartsMember modifiers name rest)
      (hname : name.kind.isName) (habstract : "abstract" ∈ wordsOf modifiers) :
      Shows (modifiers ++ name :: rest) .whole
  | ofPrivate {modifiers rest : List Token} {name : Token} (h : StartsMember modifiers name rest)
      (hname : name.kind.isName) (habstract : "abstract" ∉ wordsOf modifiers)
      (hprivate : "private" ∈ wordsOf modifiers) :
      Shows (modifiers ++ name :: rest) (.named (privateText (wordsOf modifiers)) name.text)
  | ofConstructor {modifiers params rest : List Token} {name opening closing : Token}
      (h : StartsMember modifiers name (opening :: (params ++ closing :: rest)))
      (hname : name.isWord "constructor") (habstract : "abstract" ∉ wordsOf modifiers)
      (hprivate : "private" ∉ wordsOf modifiers) (hopening : opening.kind = .openParen)
      (hparams : isBalanced params) (hclosing : closing.kind = .closeParen) :
      Shows (modifiers ++ name :: opening :: (params ++ closing :: rest)) (.named "" "constructor")
  | ofName {modifiers rest : List Token} {name : Token} {mark : Option Token}
      (h : StartsMember modifiers name (mark.toList ++ rest)) (hname : name.kind.isName)
      (habstract : "abstract" ∉ wordsOf modifiers) (hprivate : "private" ∉ wordsOf modifiers)
      (hmark : ∀ t ∈ mark, t.kind = .question ∨ t.isOperator "!")
      (hbody : IsMemberBody name.text ((keptModifiers (wordsOf modifiers)).contains "set") rest) :
      Shows (modifiers ++ name :: (mark.toList ++ rest))
        (.named (modifiersText (wordsOf modifiers)) name.text)

/-! ## What a member is listed as -/

/-- The modifiers of a member, and what stands behind them. -/
theorem StartsMember.cutModifiers {modifiers rest : List Token} {first : Token}
    (h : StartsMember modifiers first rest)
    (hs : dropSemicolon s.significant = modifiers ++ first :: rest) :
    cutModifiers (dropSemicolon s.significant) = (wordsOf modifiers, first :: rest) := by
  rw [hs]
  exact cutModifiers_append h.isModifier h.startsName h.notName

theorem memberText?_of_isName {modifiers : List String} {name : Token}
    (hcut : cutModifiers (dropSemicolon s.significant) = (modifiers, name :: ts))
    (hname : name.kind.isName) (o : CompilerOptions) :
    memberText? o s =
      if "abstract" ∈ modifiers then some (terminate s.text)
      else if "private" ∈ modifiers then
        some (privateText modifiers ++ name.text ++ (cutMark ts).1 ++ ";")
      else memberBody? o modifiers (keptModifiers modifiers) (modifiersText modifiers) name.text
        (cutMark ts).1 (cutMark ts).2 := by
  have hoperator : name.kind ≠ .operator := Kind.ne_of_isName hname rfl
  have hbrace : name.kind ≠ .openBrace := Kind.ne_of_isName hname rfl
  have hbracket : name.kind ≠ .openBracket := Kind.ne_of_isName hname rfl
  rw [memberText?_eq hcut, if_neg (by simp [hoperator, hbrace]), if_neg hbracket]

theorem memberText?_of_openBracket {modifiers rest : List Token} {first : Token}
    (h : StartsMember modifiers first rest) (hkind : first.kind = .openBracket)
    (hs : dropSemicolon s.significant = modifiers ++ first :: rest) (o : CompilerOptions) :
    memberText? o s =
      if rest.getLast?.any (·.kind = .closeBrace) then none else some (terminate s.text) := by
  have hlast : (modifiers ++ first :: rest).getLast?.any (·.kind = .closeBrace) =
      rest.getLast?.any (·.kind = .closeBrace) := by
    rw [List.getLast?_append, List.getLast?_cons]
    cases hrest : rest.getLast? <;> simp [hkind]
  rw [memberText?_eq (h.cutModifiers hs), if_neg (by simp [hkind]), if_pos hkind, hs, hlast]

/-- The star of a generator is taken for its name. -/
theorem memberText?_of_star {modifiers rest : List Token} {star name : Token}
    (h : StartsMember modifiers star (name :: rest)) (hstar : star.isOperator "*")
    (hname : name.kind.isName ∨ name.kind = .openBracket)
    (habstract : "abstract" ∉ wordsOf modifiers) (hprivate : "private" ∉ wordsOf modifiers)
    (hs : dropSemicolon s.significant = modifiers ++ star :: name :: rest) (o : CompilerOptions) :
    memberText? o s = none := by
  obtain ⟨hkind, htext⟩ := isOperator_iff.1 hstar
  have hhash : startsWithHash star = false := by simp [startsWithHash, htext]
  obtain ⟨hquestion, hoperator, hbody⟩ : name.kind ≠ .question ∧ name.kind ≠ .operator ∧
      [Kind.openParen, .less, .colon, .equals].contains name.kind = false := by
    rcases hname with hname | hname
    · refine ⟨Kind.ne_of_isName hname rfl, Kind.ne_of_isName hname rfl, ?_⟩
      cases hkind : name.kind <;> rw [hkind] at hname <;>
        first | rfl | exact absurd hname (by decide)
    · simp [hname]
  have hmark : cutMark (name :: rest) = ("", name :: rest) := by
    simp [cutMark, hquestion, Token.isOperator, hoperator]
  rw [memberText?_eq (h.cutModifiers hs), if_neg (by simp [hkind, hhash]), if_neg (by simp [hkind]),
    if_neg habstract, if_neg hprivate, hmark]
  exact memberBody?_eq_none hbody o _ _ _ _ _

theorem memberText?_of_staticBlock {word opening : Token} {rest : List Token}
    (hword : word.isWord "static") (hopening : opening.kind = .openBrace)
    (hs : dropSemicolon s.significant = word :: opening :: rest) (o : CompilerOptions) :
    memberText? o s = none := by
  have h : StartsMember [] word (opening :: rest) :=
    ⟨by simp, Or.inr rfl, fun _ => by simp [startsMemberName, hopening]⟩
  have hmark : cutMark (opening :: rest) = ("", opening :: rest) := by
    simp [cutMark, Token.isOperator, hopening]
  rw [memberText?_of_cutModifiers (h.cutModifiers hs) (kind_ne_of_name (Or.inl (isWord_iff.1 hword).1))
    (by simp [wordsOf]) (by simp [wordsOf]), hmark]
  exact memberBody?_eq_none (by simp [hopening]) o _ _ _ _ _

theorem endsName_mark (ts : List Token) : endsName ((cutMark ts).1 ++ ";") := by
  have hmark : (cutMark ts).1 = "?" ∨ (cutMark ts).1 = "" := by
    fun_cases cutMark ts <;> simp
  rcases hmark with hmark | hmark <;> rw [hmark] <;> decide

/-! ### Signatures -/

/-- Type parameters start with `<`. -/
theorem head?_generics {generics : List Token} (h : IsTypeParams generics)
    (hwritten : ∀ t ∈ generics, t.IsWritten) :
    trimmed (Token.span generics) = "" ∨
      (trimmed (Token.span generics)).toList.head? = some '<' := by
  cases h with
  | none => exact Or.inl (by decide)
  | @angles less inside hless =>
    right
    have htext := text_of_less (hwritten less List.mem_cons_self) hless
    have hspan : (Token.span (less :: inside)).toList =
        '<' :: (String.join (inside.map Token.spaced)).toList := by
      rw [Token.span, htext, String.toList_append]
      rfl
    have hstart : Text.trimStart (Token.span (less :: inside)).toList =
        (Token.span (less :: inside)).toList := by
      rw [hspan]
      exact List.dropWhile_cons_of_neg (by decide)
    obtain ⟨front, hfront⟩ := Text.trimEnd_isPrefixOf_self (Token.span (less :: inside)).toList
    rw [trimmed, String.toList_ofList, Text.trim, hstart]
    rw [hspan] at hfront ⊢
    cases htrim : Text.trimEnd ('<' :: (String.join (inside.map Token.spaced)).toList) with
    | nil => exact absurd htrim (Text.trimEnd_cons_ne_nil (by decide) _)
    | cons c cs =>
      rw [htrim] at hfront
      rw [(List.cons.inj hfront).1, List.head?_cons]

theorem endsName_generics {generics : String}
    (h : generics = "" ∨ generics.toList.head? = some '<') (rest : String) :
    endsName (generics ++ "(" ++ rest) := by
  unfold endsName
  rw [String.toList_append, String.toList_append]
  rcases h with rfl | h
  · simp
  · obtain ⟨cs, hcs⟩ := List.head?_eq_some_iff.1 h
    simp [hcs]

theorem endsName_mark_append {mark : Option Token} {text : String} (h : endsName text) :
    endsName ((if mark.any (·.kind = .question) then "?" else "") ++ text) := by
  split
  · unfold endsName
    rw [String.toList_append]
    simp
  · rwa [String.empty_append]

/-- A header with nothing behind it but, perhaps, a `;` is a signature too. -/
theorem exists_signature? {h : Header} (hh : h.IsHeader)
    (hresult : ∀ colon type, h.resultType = some (colon, type) →
      isMatched type ∧ HasText (typeRead type)) {ending : List Token}
    (hending : dropSemicolon (h.resultTokens ++ ending) = h.resultTokens) (o : CompilerOptions)
    (isAsync isGenerator : Bool) :
    ∃ signature, signature? o isAsync isGenerator (h.tokens ++ ending) = some signature ∧
      signature.generics = trimmed (Token.span h.generics) ∧
      (h.resultType = none → signature = h.signature o isAsync isGenerator false) := by
  cases htyped : h.resultType with
  | some resultType =>
    obtain ⟨colon, type⟩ := resultType
    obtain ⟨hmatched, htext⟩ := hresult colon type htyped
    have hresultTokens : h.resultTokens = colon :: type := by simp [Header.resultTokens, htyped]
    rw [hresultTokens, List.cons_append] at hending
    have hsignature := signature?_of_bodiless hh htyped hmatched hending o isAsync isGenerator
    rw [spanText?_of_hasText htext] at hsignature
    exact ⟨_, hsignature, rfl, fun hnone => absurd hnone (by simp)⟩
  | none =>
    have hresultTokens : h.resultTokens = [] := by simp [Header.resultTokens, htyped]
    rw [hresultTokens, List.nil_append] at hending
    have htypes : typeParams? (h.tokens ++ ending) = some (trimmed (Token.span h.generics),
        h.opening :: (h.params ++ h.closing :: ending)) := by
      rw [Header.tokens, hresultTokens, List.append_assoc, List.cons_append,
        typeParams?_cons hh.opening hh.generics]
      simp
    have hparams := parenthesized?_cons hh.opening hh.params hh.closing ending
    refine ⟨h.signature o isAsync isGenerator false, ?_, rfl, fun _ => rfl⟩
    simp [signature?, htypes, hparams, hending, cutBody, startsWith, returnsValue,
      Header.signature, Header.result, htyped]
    cases isGenerator <;> rfl

/-- What a method is listed as, by its signature. -/
theorem isListed_of_signature {h : Header} (hh : h.IsHeader)
    (hwritten : ∀ t ∈ h.generics, t.IsWritten) {modifiers : List String} {signature : Signature}
    (hgenerics : signature.generics = trimmed (Token.span h.generics)) {name : String}
    (hname : name ≠ "constructor") {mark : Option Token} {rest : List Token}
    (hsignature : signature? o (modifiers.contains "async") false (h.tokens ++ rest) = some signature)
    (hset : (keptModifiers modifiers).contains "set" → ' ' ∉ signature.result.toList) :
    (Listing.named (modifiersText modifiers) name).IsListed s
      (memberBody? o modifiers (keptModifiers modifiers) (modifiersText modifiers) name
        (if mark.any (·.kind = .question) then "?" else "") (h.tokens ++ rest)) := by
  obtain ⟨t, ts, hheader, ht⟩ := hh.exists_cons rest
  have hstarts := head?_generics hh.generics hwritten
  rw [← hgenerics] at hstarts
  rw [hheader] at hsignature ⊢
  rw [memberBody?_of_signature ht hsignature hname]
  split
  · next hsetter =>
    rw [Signature.untilResult_eq (hset hsetter)]
    exact ⟨signature.generics ++ "(" ++ (signature.params ++ ");"), by simp [String.append_assoc],
      endsName_generics hstarts _⟩
  · refine ⟨_, by rw [String.append_assoc, String.append_assoc], endsName_mark_append ?_⟩
    have htext : signature.text ++ ";" =
        signature.generics ++ "(" ++ (signature.params ++ "): " ++ signature.result ++ ";") := by
      simp [Signature.text, Signature.head, String.append_assoc]
    rw [htext]
    exact endsName_generics hstarts _

theorem IsMemberBody.head? {name : String} {isSetter : Bool} (h : IsMemberBody name isSetter ts) :
    ts.head?.all fun t => [Kind.openParen, .less, .colon, .equals].contains t.kind := by
  have hheader : ∀ {h : Header} (_ : h.IsHeader) (rest : List Token),
      (h.tokens ++ rest).head?.all fun t => [Kind.openParen, .less, .colon, .equals].contains t.kind := by
    intro h hh rest
    obtain ⟨t, ts, hcons, ht⟩ := hh.exists_cons rest
    rw [hcons]
    rcases ht with ht | ht <;> simp [ht]
  cases h with
  | bare => rfl
  | typed hcolon => simp [hcolon]
  | initialized hequals => simp [hequals]
  | method hh => exact hheader hh _
  | @bodiless h hh =>
    rw [← List.append_nil h.tokens]
    exact hheader hh []

/-- What stands behind a name starts no other. -/
theorem IsMemberBody.notName {name : String} {isSetter : Bool} (h : IsMemberBody name isSetter ts) :
    ts.head?.any startsMemberName = false := by
  have hhead := h.head?
  cases ts with
  | nil => rfl
  | cons t ts =>
    have hkind : [Kind.openParen, .less, .colon, .equals].contains t.kind := by simpa using hhead
    cases ht : t.kind <;> simp_all [startsMemberName]

theorem IsMemberBody.cutMark {name : String} {isSetter : Bool} (h : IsMemberBody name isSetter ts)
    {mark : Option Token} (hmark : ∀ t ∈ mark, t.kind = .question ∨ t.isOperator "!") :
    cutMark (mark.toList ++ ts) = (if mark.any (·.kind = .question) then "?" else "", ts) := by
  apply cutMark_append hmark
  have hhead := h.head?
  cases ts with
  | nil => rfl
  | cons t ts =>
    have hkind : [Kind.openParen, .less, .colon, .equals].contains t.kind := by simpa using hhead
    cases ht : t.kind <;> simp_all [Token.isOperator]

/-- A field is listed by its name and the mark behind it. -/
theorem isListed_of_field {words name rest : String} (mark : Option Token) (hrest : endsName rest) :
    (Listing.named words name).IsListed s
      (some (words ++ name ++ (if mark.any (·.kind = .question) then "?" else "") ++ rest)) :=
  ⟨_, by rw [String.append_assoc], endsName_mark_append hrest⟩

theorem isListed_of_isMemberBody {modifiers : List String} {name : String}
    (h : IsMemberBody name ((keptModifiers modifiers).contains "set") ts)
    (hwritten : ∀ t ∈ ts, t.IsWritten) (mark : Option Token) (o : CompilerOptions) :
    (Listing.named (modifiersText modifiers) name).IsListed s
      (memberBody? o modifiers (keptModifiers modifiers) (modifiersText modifiers) name
        (if mark.any (·.kind = .question) then "?" else "") ts) := by
  have hfield : ∀ rest, endsName rest → (Listing.named (modifiersText modifiers) name).IsListed s
      (some (modifiersText modifiers ++ name ++
        (if mark.any (·.kind = .question) then "?" else "") ++ rest)) :=
    fun _ hrest => isListed_of_field mark hrest
  have hgenerics : ∀ (h : Header) (rest : List Token), (∀ t ∈ h.tokens ++ rest, t.IsWritten) →
      ∀ t ∈ h.generics, t.IsWritten := fun h rest hall t ht =>
    hall t (List.mem_append_left _ (List.mem_append_left _ ht))
  cases h with
  | bare =>
    have hlisted := hfield (": " ++ (fallbackType o ++ ";")) (by simp [endsName])
    simpa [memberBody?, String.append_assoc] using hlisted
  | @typed colon first rest hcolon hfirst htext =>
    have hcut : cutTop? .equals 0 (first :: rest) =
        (cutTop? .equals (depthAfter 0 first.kind) rest).map (consBefore first) := by
      rw [cutTop?, if_neg fun h => hfirst h.1]
    -- the type has at least its first token
    have htype : ∀ more, spanText? (first :: more) = some (trimmed (Token.span (first :: more))) :=
      fun more => spanText?_of_hasText (hasText_of_mem List.mem_cons_self htext)
    have hlisted : ∀ type, (Listing.named (modifiersText modifiers) name).IsListed s
        (some (modifiersText modifiers ++ name ++
          (if mark.any (·.kind = .question) then "?" else "") ++ ": " ++ type ++ ";")) := fun type => by
      have hlisted := hfield (": " ++ (type ++ ";")) (by simp [endsName])
      simpa [String.append_assoc] using hlisted
    simp only [memberBody?, hcolon, hcut]
    cases cutTop? .equals (depthAfter 0 first.kind) rest with
    | none =>
      simp only [Option.map_none, htype, Option.bind_eq_bind, Option.bind_some]
      exact hlisted _
    | some parts =>
      simp only [Option.map_some, consBefore, htype, Option.bind_eq_bind, Option.bind_some]
      exact hlisted _
  | @initialized equals init hequals =>
    simp only [memberBody?, hequals]
    cases infer o ((keptModifiers modifiers).contains "readonly") init with
    | literal text =>
      have hlisted := hfield (" = " ++ (text ++ ";")) (by simp [endsName])
      simpa [String.append_assoc] using hlisted
    | type text =>
      have hlisted := hfield (": " ++ (text ++ ";")) (by simp [endsName])
      simpa [String.append_assoc] using hlisted
  | @method h body block hh hblock hname hset =>
    have hsignature := signature?_of_isHeader hh hblock o (modifiers.contains "async") false
    exact isListed_of_signature hh (hgenerics h block hwritten) rfl hname hsignature fun hsetter =>
      Header.blank_not_mem_result (hset hsetter) o _ _ _
  | @bodiless h hh hresult hlast hname hset =>
    have hending : dropSemicolon (h.resultTokens ++ []) = h.resultTokens := by
      rw [List.append_nil, dropSemicolon, if_neg (by simp [hlast])]
    obtain ⟨signature, hsignature, hsame, himplied⟩ :=
      exists_signature? hh hresult hending o (modifiers.contains "async") false
    rw [← List.append_nil h.tokens] at hwritten ⊢
    refine isListed_of_signature hh (hgenerics h [] hwritten) hsame hname hsignature fun hsetter => ?_
    rw [himplied (hset hsetter)]
    exact Header.blank_not_mem_result (hset hsetter) o _ _ _

/-- A constructor is declared by its parameters. -/
theorem memberBody?_of_constructor {params rest : List Token} {opening closing : Token}
    (hopening : opening.kind = .openParen) (hparams : isBalanced params)
    (hclosing : closing.kind = .closeParen) (o : CompilerOptions) (modifiers kept : List String)
    (start mark : String) :
    memberBody? o modifiers kept start "constructor" mark
        (opening :: (params ++ closing :: rest)) =
      some ("constructor(" ++ paramsText o params ++ ");") := by
  have hcut := parenthesized?_cons hopening hparams hclosing rest
  rw [parenthesized?, if_pos hopening] at hcut
  have hopens : opening.kind.opens := by rw [hopening]; rfl
  simp [memberBody?, hopening, Kind.opens, hcut]

/-- **A member is listed as its shape says.** -/
theorem isListed_of_shows {listing : Listing} (h : Shows ts listing)
    (hs : dropSemicolon s.significant = ts) (hwritten : ∀ t ∈ ts, t.IsWritten)
    (o : CompilerOptions) : listing.IsListed s (memberText? o s) := by
  cases h with
  | hash h hkind hhash =>
    rw [memberText?_eq (h.cutModifiers hs), if_pos (Or.inl ⟨hkind, hhash⟩)]
    rfl
  | staticBlock hword hopening => exact memberText?_of_staticBlock hword hopening hs o
  | computedBody h hkind hlast =>
    rw [memberText?_of_openBracket h hkind hs, if_pos hlast]
    rfl
  | computed h hkind hlast =>
    rw [memberText?_of_openBracket h hkind hs, if_neg (by simp [hlast])]
    rfl
  | generator h hstar hname habstract hprivate =>
    exact memberText?_of_star h hstar hname habstract hprivate hs o
  | ofAbstract h hname habstract =>
    rw [memberText?_of_isName (h.cutModifiers hs) hname, if_pos habstract]
    rfl
  | ofPrivate h hname habstract hprivate =>
    rw [memberText?_of_isName (h.cutModifiers hs) hname, if_neg habstract, if_pos hprivate]
    exact ⟨_, by rw [String.append_assoc], endsName_mark _⟩
  | @ofConstructor modifiers params rest name opening closing h hname habstract hprivate hopening
      hparams hclosing =>
    obtain ⟨hkind, htext⟩ := isWord_iff.1 hname
    -- A constructor has no mark, and its parameters are listed with it.
    have hmark : cutMark (opening :: (params ++ closing :: rest)) =
        ("", opening :: (params ++ closing :: rest)) := by
      simp [cutMark, Token.isOperator, hopening]
    rw [memberText?_of_isName (h.cutModifiers hs) (by rw [hkind]; rfl), if_neg habstract,
      if_neg hprivate, hmark, htext, memberBody?_of_constructor hopening hparams hclosing]
    refine ⟨"(" ++ (paramsText o params ++ ");"), ?_, by simp [endsName]⟩
    have hsplit : "constructor(" = "constructor" ++ "(" := by decide
    rw [hsplit]
    simp only [String.append_assoc, String.empty_append]
  | @ofName modifiers rest name mark h hname habstract hprivate hmark hbody =>
    rw [memberText?_of_isName (h.cutModifiers hs) hname, if_neg habstract, if_neg hprivate,
      hbody.cutMark hmark]
    refine isListed_of_isMemberBody hbody (fun t ht => hwritten t ?_) mark o
    exact List.mem_append_right _ (List.mem_cons_of_mem _ (List.mem_append_right _ ht))

end SvelteTypings.Script
