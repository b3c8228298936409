import SvelteTypings.Proofs.Script.Bodies
import SvelteTypings.Proofs.Script.Declaring

/-!
# Signatures of functions and methods

A signature is read from two ends: type parameters and parameters from the start, the body from the
last brace. The two meet where the body starts, whatever the type between them is
(`signature?_of_isHeader`), so what is declared does not depend on a body but for whether it returns
a value (`declared?_of_isCallable`).
-/

namespace SvelteTypings

namespace Text

/-- A pattern is found behind a text that has not its first character. -/
theorem cut?_of_not_mem {p : Char} {ps before : List Char} (h : p ∉ before) (after : List Char) :
    cut? (p :: ps) (before ++ p :: ps ++ after) = some (before, after) := by
  induction before with
  | nil =>
    have hstart := (afterStart?_eq_some_iff (p :: ps) (p :: ps ++ after) after).2 rfl
    rw [List.nil_append, cut?.eq_def, hstart]
  | cons c before ih =>
    obtain ⟨hc, hbefore⟩ := not_or.1 (mt List.mem_cons.2 h)
    have hstart : afterStart? (p :: ps) (c :: (before ++ p :: ps ++ after)) = none := by
      rw [afterStart?, if_neg hc]
    rw [List.cons_append, List.cons_append, cut?, hstart]
    dsimp only
    rw [ih hbefore]
    rfl

end Text

namespace Script

variable {ts body block : List Token} {o : CompilerOptions}

/-! ## Headers -/

/-- The text of a run is not blank. -/
def HasText (ts : List Token) : Prop := trimmed (Token.span ts) ≠ ""

instance (ts : List Token) : Decidable (HasText ts) :=
  inferInstanceAs (Decidable (trimmed (Token.span ts) ≠ ""))

theorem spanText?_of_hasText (h : HasText ts) : spanText? ts = some (trimmed (Token.span ts)) := by
  rw [spanText?]
  exact if_neg fun hempty => h (String.isEmpty_iff.1 hempty)

/-- Nothing, or a run from `<` to the `>` that closes it. -/
inductive IsTypeParams : List Token → Prop where
  | none : IsTypeParams []
  | angles {less : Token} {inside : List Token} (hless : less.kind = .less)
      (hinside : cutAngle? 1 0 inside = some (inside, [])) (htext : HasText (less :: inside)) :
      IsTypeParams (less :: inside)

/-- What stands between the name of a function or method and its body. -/
structure Header where
  generics : List Token
  opening : Token
  params : List Token
  closing : Token
  /-- The colon and the type of the result. -/
  resultType : Option (Token × List Token)

namespace Header

def resultTokens (h : Header) : List Token :=
  match h.resultType with
  | some (colon, type) => colon :: type
  | none => []

def tokens (h : Header) : List Token :=
  h.generics ++ h.opening :: (h.params ++ h.closing :: h.resultTokens)

structure IsHeader (h : Header) : Prop where
  generics : IsTypeParams h.generics
  opening : h.opening.kind = .openParen
  params : isBalanced h.params
  closing : h.closing.kind = .closeParen
  resultType : ∀ colon type, h.resultType = some (colon, type) → colon.kind = .colon ∧ HasText type

/-- The result that is declared: that of the annotation, or what is implied. -/
def result (h : Header) (o : CompilerOptions) (isAsync isGenerator yields : Bool) : String :=
  match h.resultType with
  | some (_, type) => trimmed (Token.span type)
  | none => if isGenerator then fallbackType o else impliedResult o isAsync yields

def signature (h : Header) (o : CompilerOptions) (isAsync isGenerator yields : Bool) : Signature :=
  ⟨trimmed (Token.span h.generics), paramsText o h.params, h.result o isAsync isGenerator yields⟩

end Header

theorem typeParams?_cons {t : Token} (ht : t.kind = .openParen) (h : IsTypeParams ts)
    (rest : List Token) :
    typeParams? (ts ++ t :: rest) = some (trimmed (Token.span ts), t :: rest) := by
  cases h with
  | none =>
    have hempty : trimmed (Token.span []) = "" := by decide
    rw [List.nil_append, typeParams?, if_neg (by simp [ht]), hempty]
  | @angles less inside hless hinside htext =>
    rw [cutAngle?_eq] at hinside
    have hcut := Search.cut?_append_of_some hinside (t :: rest)
    rw [List.cons_append, typeParams?, if_pos hless, cutAngle?_eq, hcut]
    simp [Search.extend, spanText?_of_hasText htext]

/-- A balanced run ends at the bracket that closes it. -/
theorem cutClosing?_of_isBalanced {closing : Token} (hts : isBalanced ts)
    (hclosing : closing.kind.opens = false ∧ closing.kind.closes) (rest : List Token) :
    cutClosing? 1 (ts ++ closing :: rest) = some (ts, rest) := by
  have hpast : closingSearch.past 0 ts = some 0 := isBalanced_iff.1 hts
  have hstep : closingSearch.step 0 closing = none := by
    simp [closingSearch, depthStep, hclosing.1, hclosing.2]
  rw [cutClosing?_eq, Search.cut?_append_of_past hpast, Search.cut?, hstep]
  simp [closingSearch]

theorem parenthesized?_cons {opening closing : Token} (hopening : opening.kind = .openParen)
    (hts : isBalanced ts) (hclosing : closing.kind = .closeParen) (rest : List Token) :
    parenthesized? (opening :: (ts ++ closing :: rest)) = some (ts, rest) := by
  rw [parenthesized?, if_pos hopening]
  exact cutClosing?_of_isBalanced hts (by rw [hclosing]; exact ⟨rfl, rfl⟩) rest

/-- **A signature is that of the header,** but for what is implied by the body. -/
theorem signature?_of_isHeader {h : Header} (hh : h.IsHeader) (hblock : IsBlock body block)
    (o : CompilerOptions) (isAsync isGenerator : Bool) :
    signature? o isAsync isGenerator (h.tokens ++ block) =
      some (h.signature o isAsync isGenerator (returnsValue body)) := by
  have htypes : typeParams? (h.tokens ++ block) = some (trimmed (Token.span h.generics),
      h.opening :: (h.params ++ h.closing :: (h.resultTokens ++ block))) := by
    rw [Header.tokens, List.append_assoc, List.cons_append, typeParams?_cons hh.opening hh.generics]
    simp
  have hparams := parenthesized?_cons hh.opening hh.params hh.closing (h.resultTokens ++ block)
  simp only [signature?, htypes, hparams, Option.bind_eq_bind, Option.bind_some,
    hblock.dropSemicolon, hblock.cutBody, hblock.returnsValue, Header.signature, Header.result]
  cases htyped : h.resultType with
  | none => cases isGenerator <;> simp [Header.resultTokens, htyped, startsWith]
  | some resultType =>
    obtain ⟨colon, type⟩ := resultType
    obtain ⟨hcolon, htype⟩ := hh.resultType colon type htyped
    simp [Header.resultTokens, htyped, startsWith, hcolon, spanText?_of_hasText htype]

/-- A header starts with `<` or `(`. -/
theorem Header.IsHeader.exists_cons {h : Header} (hh : h.IsHeader) (rest : List Token) :
    ∃ t ts, h.tokens ++ rest = t :: ts ∧ (t.kind = .less ∨ t.kind = .openParen) := by
  obtain ⟨generics, opening, params, closing, resultType⟩ := h
  cases hh.generics with
  | none => exact ⟨_, _, rfl, Or.inr hh.opening⟩
  | angles hless => exact ⟨_, _, rfl, Or.inl hless⟩

/-! ## Functions -/

/-- The words of an exported function up to its name. -/
structure FunctionHead where
  exporting : Token
  isDefault : Option Token
  async : Option Token
  keyword : Token
  star : Option Token
  name : Option Token

namespace FunctionHead

/-- The words from `async` or `function` on. -/
def function (f : FunctionHead) : List Token :=
  f.async.toList ++ f.keyword :: (f.star.toList ++ f.name.toList)

def tokens (f : FunctionHead) : List Token := f.exporting :: (f.isDefault.toList ++ f.function)

structure IsFunction (f : FunctionHead) : Prop where
  exporting : f.exporting.isWord "export"
  isDefault : ∀ t ∈ f.isDefault, t.isWord "default"
  async : ∀ t ∈ f.async, t.isWord "async"
  keyword : f.keyword.isWord "function"
  star : ∀ t ∈ f.star, t.isOperator "*"
  name : ∀ t ∈ f.name, t.kind = .ident

/-- What a declaration starts with. -/
def start (f : FunctionHead) : String :=
  if f.isDefault.isSome then "export default " else "export declare "

/-- What a declaration has in front of the signature. -/
def before (f : FunctionHead) : String :=
  f.start ++ "function" ++ (f.name.elim "" fun t => " " ++ t.text)

end FunctionHead

/-- A word that may be left out is seen if it is there. -/
theorem head?_optional {word : Option Token} {p : Token → Bool} (hword : ∀ t ∈ word, p t)
    (hts : ts.head?.any p = false) : (word.toList ++ ts).head?.any p = word.isSome := by
  cases word with
  | none => exact hts
  | some t => exact hword t rfl

theorem drop_optional (word : Option Token) (ts : List Token) :
    (if word.isSome then (word.toList ++ ts).drop 1 else word.toList ++ ts) = ts := by
  cases word <;> rfl

/-- A function is declared with the signature behind its name. -/
theorem functionText?_eq {f : FunctionHead} (hf : f.IsFunction) {t : Token}
    (ht : t.kind = .less ∨ t.kind = .openParen) (ts : List Token) (o : CompilerOptions)
    (start : String) :
    functionText? o start (f.function ++ t :: ts) =
      (signature? o f.async.isSome f.star.isSome (t :: ts)).map fun s =>
        start ++ "function" ++ (f.name.elim "" fun t => " " ++ t.text) ++ s.text ++ ";" := by
  obtain ⟨hkind, htext⟩ := isWord_iff.1 hf.keyword
  have hasync : (f.keyword :: (f.star.toList ++ (f.name.toList ++ t :: ts))).head?.any
      (·.isWord "async") = false := by simp [Token.isWord, htext]
  have hstar : (f.name.toList ++ t :: ts).head?.any (·.isOperator "*") = false := by
    cases hname : f.name with
    | none => rcases ht with ht | ht <;> simp [Token.isOperator, ht]
    | some name => simp [Token.isOperator, hf.name name hname]
  have hfunction : f.function ++ t :: ts =
      f.async.toList ++ f.keyword :: (f.star.toList ++ (f.name.toList ++ t :: ts)) := by
    simp [FunctionHead.function]
  simp only [functionText?, hfunction, head?_optional hf.async hasync, drop_optional,
    List.head?_cons, hf.keyword, List.drop_succ_cons, List.drop_zero, head?_optional hf.star hstar,
    Option.bind_eq_bind, Option.bind_some]
  cases hname : f.name with
  | none =>
    rcases ht with ht | ht <;> simp [ht] <;>
      cases signature? o f.async.isSome f.star.isSome (t :: ts) <;> rfl
  | some name =>
    simp [hf.name name hname]
    cases signature? o f.async.isSome f.star.isSome (t :: ts) <;> rfl

theorem functionText?_of_isFunction {f : FunctionHead} (hf : f.IsFunction) {h : Header}
    (hh : h.IsHeader) (hblock : IsBlock body block) (o : CompilerOptions) (start : String) :
    functionText? o start (f.function ++ (h.tokens ++ block)) =
      some (start ++ "function" ++ (f.name.elim "" fun t => " " ++ t.text) ++
        (h.signature o f.async.isSome f.star.isSome (returnsValue body)).text ++ ";") := by
  have hsignature := signature?_of_isHeader hh hblock o f.async.isSome f.star.isSome
  obtain ⟨t, ts, hheader, ht⟩ := hh.exists_cons block
  rw [hheader] at hsignature ⊢
  rw [functionText?_eq hf ht, hsignature]
  rfl

theorem FunctionHead.IsFunction.exists_cons {f : FunctionHead} (hf : f.IsFunction) :
    ∃ t ts, f.function = t :: ts ∧ t.kind = .ident ∧ (t.text = "function" ∨ t.text = "async") := by
  obtain ⟨hkind, htext⟩ := isWord_iff.1 hf.keyword
  cases hasync : f.async with
  | none => exact ⟨f.keyword, _, by rw [FunctionHead.function, hasync]; rfl, hkind, Or.inl htext⟩
  | some t =>
    obtain ⟨hkind, htext⟩ := isWord_iff.1 (hf.async t hasync)
    exact ⟨t, _, by rw [FunctionHead.function, hasync]; rfl, hkind, Or.inr htext⟩

/-- An exported function is declared from `async` or `function` on. -/
theorem statementText?_eq_functionText? {f : FunctionHead} (hf : f.IsFunction) (o : CompilerOptions)
    {s : Statement} (hs : s.significant = f.tokens ++ ts) :
    statementText? o s = functionText? o f.start
      (if f.isDefault.isSome then dropSemicolon (f.function ++ ts) else f.function ++ ts) := by
  have himport : f.exporting.isWord "import" = false := by
    simp [Token.isWord, (isWord_iff.1 hf.exporting).2]
  obtain ⟨t, us, hfirst, hkind, htext⟩ := hf.exists_cons
  have hstar : t.isOperator "*" = false := by simp [Token.isOperator, hkind]
  obtain ⟨more, hdrop⟩ := exists_dropSemicolon_cons (t := t) (by simp [hkind]) (us ++ ts)
  rw [statementText?, hs, FunctionHead.tokens, hfirst]
  cases hdefault : f.isDefault with
  | none =>
    have hstart : f.start = "export declare " := by rw [FunctionHead.start, hdefault]; rfl
    rcases htext with htext | htext <;>
      simp [himport, hf.exporting, exportText?, hkind, htext, hstar, hstart]
  | some word =>
    obtain ⟨hword, hwordText⟩ := isWord_iff.1 (hf.isDefault word hdefault)
    have hstart : f.start = "export default " := by rw [FunctionHead.start, hdefault]; rfl
    have hwordStar : word.isOperator "*" = false := by simp [Token.isOperator, hword]
    rcases htext with htext | htext <;>
      simp [himport, hf.exporting, exportText?, hword, hwordText, hwordStar, hstart, defaultText?,
        hdrop, htext]

theorem statementText?_of_isFunction {f : FunctionHead} (hf : f.IsFunction) {h : Header}
    (hh : h.IsHeader) (hblock : IsBlock body block) (o : CompilerOptions) {s : Statement}
    (hs : s.significant = f.tokens ++ (h.tokens ++ block)) :
    statementText? o s = some (f.before ++
        (h.signature o f.async.isSome f.star.isSome (returnsValue body)).text ++ ";") := by
  have hdrop := hblock.dropSemicolon (f.function ++ h.tokens)
  rw [List.append_assoc] at hdrop
  rw [statementText?_eq_functionText? hf o hs, hdrop, ite_self,
    functionText?_of_isFunction hf hh hblock]
  rfl

/-! ## Methods -/

/-- The modifiers that a declaration keeps. -/
def keptModifiers (modifiers : List String) : List String :=
  modifiers.filter fun w => !droppedModifiers.contains w

/-- What a declaration has in front of the name. -/
def modifiersText (modifiers : List String) : String :=
  if (keptModifiers modifiers).isEmpty then "" else String.intercalate " " (keptModifiers modifiers) ++ " "

/-- The words of a method or accessor up to its name and the mark behind it. -/
structure MethodHead where
  modifiers : List Token
  name : Token
  /-- What there is of the name behind its first token. -/
  nameParts : List Token
  mark : Option Token

namespace MethodHead

def tokens (m : MethodHead) : List Token :=
  m.modifiers ++ m.name :: (m.nameParts ++ m.mark.toList)

structure IsMethod (m : MethodHead) : Prop where
  modifiers : ∀ t ∈ m.modifiers, t.kind = .ident ∧ t.text ∈ memberModifiers ∧
    t.text ≠ "private" ∧ t.text ≠ "abstract"
  name : m.name.kind = .ident ∨ m.name.kind = .nonAscii
  nameParts : ∀ t ∈ m.nameParts, t.kind.isNamePart
  /-- ASCII characters that follow each other are one token. -/
  parted : m.name.kind = .ident → ∀ t ∈ m.nameParts.head?, t.kind = .nonAscii
  other : m.nameParts = [] → m.name.text ≠ "constructor"
  mark : ∀ t ∈ m.mark, t.kind = .question ∨ t.isOperator "!"

def words (m : MethodHead) : List String := m.modifiers.map Token.text

/-- The name is read as such. One with characters outside ASCII is so only if it has no others and
no modifier stands in front of it. -/
def isNamed (m : MethodHead) : Bool :=
  m.nameParts.isEmpty && (m.name.kind = .ident || m.modifiers.isEmpty)

def isSetter (m : MethodHead) : Bool := (keptModifiers m.words).contains "set"

def markText (m : MethodHead) : String :=
  if m.mark.any (·.kind = .question) then "?" else ""

end MethodHead

theorem isOperator_iff {t : Token} {op : String} :
    t.isOperator op ↔ t.kind = .operator ∧ t.text = op := by
  simp [Token.isOperator]

/-- A modifier is one if a name follows. -/
theorem cutModifiers_append {modifiers : List Token} {name : Token}
    (hmodifiers : ∀ t ∈ modifiers, t.kind = .ident ∧ t.text ∈ memberModifiers)
    (hname : startsMemberName name ∨ modifiers = [])
    (hts : name.kind = .ident → ts.head?.any startsMemberName = false) :
    cutModifiers (modifiers ++ name :: ts) = (modifiers.map Token.text, name :: ts) := by
  induction modifiers with
  | nil =>
    cases ts with
    | nil => rfl
    | cons t ts =>
      have hnot :
          ¬ (name.kind = .ident ∧ memberModifiers.contains name.text ∧ startsMemberName t) :=
        fun h => absurd (hts h.1) (by simp [h.2.2])
      rw [List.nil_append, cutModifiers, if_neg hnot, List.map_nil]
  | cons t modifiers ih =>
    obtain ⟨⟨hkind, htext⟩, hrest⟩ := List.forall_mem_cons.1 hmodifiers
    have hfirst : startsMemberName name := hname.resolve_right (List.cons_ne_nil _ _)
    obtain ⟨u, us, hus, hu⟩ : ∃ u us, modifiers ++ name :: ts = u :: us ∧ startsMemberName u := by
      cases modifiers with
      | nil => exact ⟨name, ts, rfl, hfirst⟩
      | cons u modifiers =>
        exact ⟨u, _, rfl, by simp [startsMemberName, (hrest u List.mem_cons_self).1]⟩
    have hcut := ih hrest (Or.inl hfirst)
    rw [hus] at hcut
    rw [List.cons_append, hus, cutModifiers, if_pos ⟨hkind, List.contains_iff_mem.2 htext, hu⟩, hcut]
    rfl

theorem startsMemberName_of_ident {t : Token} (h : t.kind = .ident) : startsMemberName t := by
  simp [startsMemberName, h]

/-- The mark behind a name, and the run after it. -/
def cutMark : List Token → String × List Token
  | [] => ("", [])
  | t :: ts =>
    if t.kind = .question then ("?", ts)
    else if t.isOperator "!" then ("", ts)
    else ("", t :: ts)

/-- What a declaration has in front of the name of a private member. -/
def privateText (modifiers : List String) : String :=
  String.intercalate " " ((keptModifiers modifiers).filter fun m =>
    ["private", "static", "readonly"].contains m) ++ " "

/-- What a member declares, by its first token that is no modifier. -/
theorem memberText?_eq {s : Statement} {modifiers : List String} {first : Token}
    (hcut : cutModifiers (dropSemicolon s.significant) = (modifiers, first :: ts))
    (o : CompilerOptions) :
    memberText? o s =
      if (first.kind = .operator ∧ startsWithHash first) ∨ first.kind = .openBrace then none
      else if first.kind = .openBracket then
        if (dropSemicolon s.significant).getLast?.any (·.kind = .closeBrace) then none
        else some (terminate s.text)
      else if "abstract" ∈ modifiers then some (terminate s.text)
      else if "private" ∈ modifiers then
        some (privateText modifiers ++ first.text ++ (cutMark ts).1 ++ ";")
      else memberBody? o modifiers (keptModifiers modifiers) (modifiersText modifiers) first.text
        (cutMark ts).1 (cutMark ts).2 := by
  have hprivate : "private" ∈ (modifiers.filter fun m => !droppedModifiers.contains m) ↔
      "private" ∈ modifiers := by simp [droppedModifiers]
  unfold memberText?
  simp only [hcut, List.contains_iff_mem, hprivate]
  cases ts <;> rfl

theorem memberText?_of_cutModifiers {s : Statement} {modifiers : List String} {first : Token}
    (hcut : cutModifiers (dropSemicolon s.significant) = (modifiers, first :: ts))
    (hfirst : first.kind ≠ .operator ∧ first.kind ≠ .openBrace ∧ first.kind ≠ .openBracket)
    (habstract : "abstract" ∉ modifiers) (hprivate : "private" ∉ modifiers) (o : CompilerOptions) :
    memberText? o s = memberBody? o modifiers (keptModifiers modifiers) (modifiersText modifiers)
      first.text (cutMark ts).1 (cutMark ts).2 := by
  rw [memberText?_eq hcut, if_neg (by simp [hfirst.1, hfirst.2.1]), if_neg hfirst.2.2,
    if_neg habstract, if_neg hprivate]

theorem kind_ne_of_name {first : Token} (h : first.kind = .ident ∨ first.kind = .nonAscii) :
    first.kind ≠ .operator ∧ first.kind ≠ .openBrace ∧ first.kind ≠ .openBracket := by
  rcases h with h | h <;> simp [h]

section Mark

variable {mark : Option Token} (hmark : ∀ t ∈ mark, t.kind = .question ∨ t.isOperator "!")
include hmark

/-- No name starts with a mark. -/
theorem head?_mark_append (hts : ts.head?.any startsMemberName = false) :
    (mark.toList ++ ts).head?.any startsMemberName = false := by
  cases mark with
  | none => exact hts
  | some t =>
    rcases hmark t rfl with hkind | hoperator
    · simp [startsMemberName, hkind]
    · obtain ⟨hkind, htext⟩ := isOperator_iff.1 hoperator
      simp [startsMemberName, hkind, htext, startsWithHash]

theorem cutMark_append (hts : ts.head?.all fun t => t.kind ≠ .question && !t.isOperator "!") :
    cutMark (mark.toList ++ ts) = (if mark.any (·.kind = .question) then "?" else "", ts) := by
  cases mark with
  | none =>
    cases ts with
    | nil => rfl
    | cons t ts =>
      obtain ⟨hkind, hoperator⟩ : t.kind ≠ .question ∧ t.isOperator "!" = false := by simpa using hts
      simp [cutMark, hkind, hoperator]
  | some t =>
    rcases hmark t rfl with hkind | hoperator
    · simp [cutMark, hkind]
    · simp [cutMark, (isOperator_iff.1 hoperator).1, hoperator]

end Mark

theorem cutMark_of_isNamePart {u : Token} (hu : u.kind.isNamePart) :
    cutMark (u :: ts) = ("", u :: ts) := by
  have hquestion : u.kind ≠ .question := Kind.ne_of_isNamePart hu rfl
  have hoperator : u.kind ≠ .operator := Kind.ne_of_isNamePart hu rfl
  simp [cutMark, hquestion, Token.isOperator, hoperator]

/-- Behind a name stands a type, an initializer, or what a signature starts with. -/
theorem memberBody?_eq_none {t : Token}
    (ht : [Kind.openParen, .less, .colon, .equals].contains t.kind = false) (o : CompilerOptions)
    (modifiers kept : List String) (start name mark : String) :
    memberBody? o modifiers kept start name mark (t :: ts) = none := by
  cases hkind : t.kind <;> simp_all [memberBody?]

namespace MethodHead.IsMethod

variable {m : MethodHead} (hm : m.IsMethod)
include hm

theorem isModifier : ∀ t ∈ m.modifiers, t.kind = .ident ∧ t.text ∈ memberModifiers :=
  fun t ht => ⟨(hm.modifiers t ht).1, (hm.modifiers t ht).2.1⟩

theorem not_mem_words {word : String} (hword : word = "abstract" ∨ word = "private") :
    word ∉ m.words := by
  intro hmem
  obtain ⟨t, ht, rfl⟩ := List.mem_map.1 hmem
  obtain ⟨-, -, hprivate, habstract⟩ := hm.modifiers t ht
  exact hword.elim habstract hprivate

/-- No other name starts behind the name. -/
theorem head?_mark {t : Token} (ht : t.kind = .less ∨ t.kind = .openParen) (ts : List Token) :
    (m.mark.toList ++ t :: ts).head?.any startsMemberName = false := by
  apply head?_mark_append hm.mark
  rcases ht with ht | ht <;> simp [startsMemberName, ht]

theorem cutMark {t : Token} (ht : t.kind = .less ∨ t.kind = .openParen) (ts : List Token) :
    cutMark (m.mark.toList ++ t :: ts) = (m.markText, t :: ts) := by
  apply cutMark_append hm.mark
  rcases ht with ht | ht <;> simp [ht, Token.isOperator]

end MethodHead.IsMethod

/-- A method whose name is read as such. -/
theorem memberText?_of_isNamed {m : MethodHead} (hm : m.IsMethod) (hnamed : m.isNamed) {h : Header}
    (hh : h.IsHeader) (hblock : IsBlock body block) (o : CompilerOptions) {s : Statement}
    (hs : s.significant = m.tokens ++ (h.tokens ++ block)) :
    memberText? o s = memberBody? o m.words (keptModifiers m.words) (modifiersText m.words)
      m.name.text m.markText (h.tokens ++ block) := by
  obtain ⟨t, ts, hheader, ht⟩ := hh.exists_cons block
  obtain ⟨hparts, hplain⟩ : m.nameParts = [] ∧ (m.name.kind = .ident ∨ m.modifiers = []) := by
    simpa [MethodHead.isNamed] using hnamed
  have hcut := cutModifiers_append hm.isModifier (hplain.imp_left startsMemberName_of_ident)
    fun _ => hm.head?_mark ht ts
  have hsignificant : dropSemicolon s.significant =
      m.modifiers ++ m.name :: (m.mark.toList ++ t :: ts) := by
    rw [hs, ← List.append_assoc, hblock.dropSemicolon, List.append_assoc, hheader, MethodHead.tokens,
      hparts]
    simp
  rw [← hsignificant] at hcut
  rw [memberText?_of_cutModifiers hcut (kind_ne_of_name hm.name) (hm.not_mem_words (Or.inl rfl))
    (hm.not_mem_words (Or.inr rfl)), hm.cutMark ht ts, hheader]
  rfl

/-- A name that goes on is none. -/
theorem memberText?_of_isNamePart {s : Statement} {modifiers : List String} {first u : Token}
    (hcut : cutModifiers (dropSemicolon s.significant) = (modifiers, first :: u :: ts))
    (hu : u.kind.isNamePart) (hfirst : first.kind = .ident ∨ first.kind = .nonAscii)
    (habstract : "abstract" ∉ modifiers) (hprivate : "private" ∉ modifiers) (o : CompilerOptions) :
    memberText? o s = none := by
  rw [memberText?_of_cutModifiers hcut (kind_ne_of_name hfirst) habstract hprivate, cutMark_of_isNamePart hu]
  apply memberBody?_eq_none
  cases hkind : u.kind <;> rw [hkind] at hu <;> first | rfl | exact absurd hu (by decide)

/-- A method whose name is not read as such is not declared. -/
theorem memberText?_of_not_isNamed {m : MethodHead} (hm : m.IsMethod) (hnamed : m.isNamed = false)
    {h : Header} (hblock : IsBlock body block) (o : CompilerOptions)
    {s : Statement} (hs : s.significant = m.tokens ++ (h.tokens ++ block)) :
    memberText? o s = none := by
  have hsignificant : dropSemicolon s.significant =
      m.modifiers ++ m.name :: (m.nameParts ++ (m.mark.toList ++ (h.tokens ++ block))) := by
    rw [hs, ← List.append_assoc, hblock.dropSemicolon, MethodHead.tokens]
    simp
  have habstract := hm.not_mem_words (Or.inl rfl)
  have hprivate := hm.not_mem_words (Or.inr rfl)
  generalize m.mark.toList ++ (h.tokens ++ block) = rest at hsignificant
  by_cases hplain : m.name.kind = .ident ∨ m.modifiers = []
  · -- the first part of the name is taken for the whole
    obtain ⟨p, parts, hparts⟩ : ∃ p parts, m.nameParts = p :: parts := by
      refine List.exists_cons_of_ne_nil fun hnil => ?_
      rcases hplain with hplain | hplain <;> simp [MethodHead.isNamed, hnil, hplain] at hnamed
    have hp := hm.nameParts p (hparts ▸ List.mem_cons_self)
    have hstarts : m.name.kind = .ident →
        (p :: (parts ++ rest)).head?.any startsMemberName = false := fun hkind => by
      simp [startsMemberName, hm.parted hkind p (by rw [hparts]; rfl)]
    have hcut := cutModifiers_append hm.isModifier (hplain.imp_left startsMemberName_of_ident)
      hstarts
    rw [hparts, List.cons_append] at hsignificant
    rw [← hsignificant] at hcut
    exact memberText?_of_isNamePart hcut hp hm.name habstract hprivate o
  · -- the last modifier is taken for the name
    obtain ⟨hident, hmodifiers⟩ := not_or.1 hplain
    have hkind := hm.name.resolve_left hident
    obtain ⟨modifiers, last, hconcat⟩ : ∃ modifiers last, m.modifiers = modifiers ++ [last] :=
      ⟨_, _, (List.dropLast_concat_getLast hmodifiers).symm⟩
    have hisModifier := hm.isModifier
    rw [MethodHead.words, hconcat, List.map_append] at habstract hprivate
    rw [hconcat] at hisModifier hsignificant
    have hlast := (hisModifier last (by simp)).1
    have hcut := cutModifiers_append
      (fun t ht => hisModifier t (List.mem_append_left _ ht))
      (Or.inl (startsMemberName_of_ident hlast))
      fun _ => show (m.name :: (m.nameParts ++ rest)).head?.any startsMemberName = false by
        simp [startsMemberName, hkind]
    rw [List.append_assoc, List.singleton_append] at hsignificant
    rw [← hsignificant] at hcut
    exact memberText?_of_isNamePart hcut (by rw [hkind]; rfl) (Or.inl hlast)
      (fun hmem => habstract (List.mem_append_left _ hmem))
      (fun hmem => hprivate (List.mem_append_left _ hmem)) o

/-! ## Setters -/

/-- A signature up to the parenthesis in front of its result. -/
def Signature.untilResult (s : Signature) : String :=
  match Text.cutLast? "): ".toList s.text.toList with
  | some (head, _) => String.ofList head
  | none => s.text

/-- A result that has no blank in it is found. -/
theorem Signature.untilResult_eq {s : Signature} (h : ' ' ∉ s.result.toList) :
    s.untilResult = s.generics ++ "(" ++ s.params := by
  have htext : s.text.toList.reverse =
      s.result.toList.reverse ++ ' ' :: [':', ')'] ++
        (s.generics ++ "(" ++ s.params).toList.reverse := by
    simp [Signature.text, Signature.head]
  have hcut : Text.cut? [' ', ':', ')'] s.text.toList.reverse =
      some (s.result.toList.reverse, (s.generics ++ "(" ++ s.params).toList.reverse) := by
    rw [htext]
    exact Text.cut?_of_not_mem (mt List.mem_reverse.1 h) _
  have hlast : Text.cutLast? "): ".toList s.text.toList =
      some ((s.generics ++ "(" ++ s.params).toList, s.result.toList) := by
    have hpattern : "): ".toList.reverse = [' ', ':', ')'] := by decide
    rw [Text.cutLast?, hpattern, hcut]
    simp
  rw [Signature.untilResult, hlast]
  exact String.ofList_toList

/-- A method is declared with the signature behind its name. A setter is declared without its
result. -/
theorem memberBody?_of_signature {t : Token} (ht : t.kind = .less ∨ t.kind = .openParen)
    {modifiers : List String} {signature : Signature}
    (hsignature : signature? o (modifiers.contains "async") false (t :: ts) = some signature)
    {name : String} (hname : name ≠ "constructor") (kept : List String) (start mark : String) :
    memberBody? o modifiers kept start name mark (t :: ts) =
      if kept.contains "set" then some (start ++ name ++ signature.untilResult ++ ");")
      else some (start ++ name ++ mark ++ signature.text ++ ";") := by
  unfold Signature.untilResult
  rcases ht with ht | ht <;>
    simp only [memberBody?, ht, if_neg hname, hsignature, Option.bind_eq_bind, Option.bind_some] <;>
    cases kept.contains "set" <;>
    cases Text.cutLast? "): ".toList signature.text.toList <;> rfl

theorem memberBody?_of_isHeader {h : Header} (hh : h.IsHeader) (hblock : IsBlock body block)
    (o : CompilerOptions) {name : String} (hname : name ≠ "constructor") (modifiers kept : List String)
    (start mark : String) :
    memberBody? o modifiers kept start name mark (h.tokens ++ block) =
      let signature := h.signature o (modifiers.contains "async") false (returnsValue body)
      if kept.contains "set" then some (start ++ name ++ signature.untilResult ++ ");")
      else some (start ++ name ++ mark ++ signature.text ++ ";") := by
  have hsignature := signature?_of_isHeader hh hblock o (modifiers.contains "async") false
  obtain ⟨t, ts, hheader, ht⟩ := hh.exists_cons block
  rw [hheader] at hsignature ⊢
  exact memberBody?_of_signature ht hsignature hname kept start mark

/-- No result that is implied has a blank in it. -/
theorem Header.blank_not_mem_result {h : Header} (htyped : h.resultType = none)
    (o : CompilerOptions) (isAsync isGenerator yields : Bool) :
    ' ' ∉ (h.result o isAsync isGenerator yields).toList := by
  have hfallback : ' ' ∉ (fallbackType o).toList := by
    rw [fallbackType]
    split <;> decide
  rw [Header.result, htyped]
  cases isGenerator with
  | true => exact hfallback
  | false => cases isAsync <;> cases yields <;> simp [impliedResult, hfallback]

/-! ## Bodies -/

/-- A function or a method, but for what stands behind its name. -/
inductive Callable where
  | function (head : FunctionHead)
  | method (head : MethodHead)

namespace Callable

def tokens : Callable → List Token
  | function f => f.tokens
  | method m => m.tokens

def IsCallable : Callable → Prop
  | function f => f.IsFunction
  | method m => m.IsMethod

def isAsync : Callable → Bool
  | function f => f.async.isSome
  | method m => m.words.contains "async"

def isGenerator : Callable → Bool
  | function f => f.star.isSome
  | method _ => false

def isSetter : Callable → Bool
  | function _ => false
  | method m => m.isSetter

/-- The name is read as such. -/
def isNamed : Callable → Bool
  | function _ => true
  | method m => m.isNamed

/-- What a declaration has in front of the signature. The mark of a setter is dropped. -/
def before : Callable → String
  | function f => f.before
  | method m => modifiersText m.words ++ m.name.text ++ if m.isSetter then "" else m.markText

/-- The declaration with the signature. A setter is declared without its result. -/
def text (c : Callable) (s : Signature) : String :=
  if c.isSetter then c.before ++ s.untilResult ++ ");" else c.before ++ s.text ++ ";"

/-- What a statement, or a member of a class, declares. -/
def declared? (o : CompilerOptions) : Callable → Statement → Option String
  | function _, s => statementText? o s
  | method _, s => memberText? o s

/-- **What is declared is the signature of the header.** -/
theorem declared?_eq {c : Callable} (hc : c.IsCallable) {h : Header} (hh : h.IsHeader)
    (hblock : IsBlock body block) (o : CompilerOptions) {s : Statement}
    (hs : s.significant = c.tokens ++ (h.tokens ++ block)) :
    c.declared? o s =
      if c.isNamed then some (c.text (h.signature o c.isAsync c.isGenerator (returnsValue body)))
      else none := by
  cases c with
  | function f => exact statementText?_of_isFunction hc hh hblock o hs
  | method m =>
    cases hnamed : m.isNamed with
    | false => simp [declared?, isNamed, hnamed, memberText?_of_not_isNamed hc hnamed hblock o hs]
    | true =>
      have hname : m.name.text ≠ "constructor" := by
        simp only [MethodHead.isNamed, Bool.and_eq_true, List.isEmpty_iff] at hnamed
        exact hc.other hnamed.1
      have hmember := memberText?_of_isNamed hc hnamed hh hblock o hs
      rw [memberBody?_of_isHeader hh hblock o hname] at hmember
      rw [declared?, hmember, isNamed, hnamed, if_pos rfl, text, before, isSetter,
        MethodHead.isSetter]
      cases (keptModifiers m.words).contains "set" <;> simp [isAsync, isGenerator]

end Callable

/-- **Bodies are not declared.** The declaration of a function or method is the same with any two
balanced bodies that agree on whether they return a value, and the result of an annotation is
declared with its text. A setter is declared without one. -/
theorem declared?_of_isCallable {c : Callable} (hc : c.IsCallable) {h : Header} (hh : h.IsHeader)
    {body₁ body₂ block₁ block₂ : List Token} (h₁ : IsBlock body₁ block₁) (h₂ : IsBlock body₂ block₂)
    (hreturns : returnsValue body₁ = returnsValue body₂) {s₁ s₂ : Statement}
    (hs₁ : s₁.significant = c.tokens ++ (h.tokens ++ block₁))
    (hs₂ : s₂.significant = c.tokens ++ (h.tokens ++ block₂)) (o : CompilerOptions) :
    c.declared? o s₁ = c.declared? o s₂ ∧ (c.declared? o s₁).isSome = c.isNamed ∧
      ∀ text, c.declared? o s₁ = some text →
        (∀ colon type, h.resultType = some (colon, type) → c.isSetter = false →
          text = c.before ++ trimmed (Token.span h.generics) ++ "(" ++ paramsText o h.params ++ "): " ++
            trimmed (Token.span type) ++ ";") ∧
        (h.resultType = none → c.isSetter →
          text = c.before ++ trimmed (Token.span h.generics) ++ "(" ++ paramsText o h.params ++
            ");") := by
  rw [Callable.declared?_eq hc hh h₁ o hs₁, Callable.declared?_eq hc hh h₂ o hs₂, hreturns]
  refine ⟨rfl, by cases c.isNamed <;> rfl, fun text htext => ?_⟩
  cases hnamed : c.isNamed with
  | false =>
    rw [hnamed] at htext
    exact absurd htext (by simp)
  | true =>
    rw [hnamed, if_pos rfl, Option.some.injEq] at htext
    subst htext
    refine ⟨fun colon type htyped hsetter => ?_, fun htyped hsetter => ?_⟩
    · simp [Callable.text, hsetter, Header.signature, Header.result, htyped, Signature.text,
        Signature.head, String.append_assoc]
    · have hblank := Header.blank_not_mem_result htyped o c.isAsync c.isGenerator
        (returnsValue body₂)
      rw [Callable.text, if_pos hsetter, Signature.untilResult_eq hblank]
      simp [Header.signature, String.append_assoc]

/-- A function without a name, whose result is written with braces and an arrow. -/
theorem declared?_of_isCallable_nameless :
    let c : Callable := .function ⟨⟨.ident, "", "export"⟩, some ⟨.ident, " ", "default"⟩,
      some ⟨.ident, " ", "async"⟩, ⟨.ident, " ", "function"⟩, none, none⟩
    let h : Header := ⟨⟨.less, " ", "<"⟩ :: tokenize "T>", ⟨.openParen, "", "("⟩, tokenize "a: T, b = 1",
      ⟨.closeParen, "", ")"⟩, some (⟨.colon, "", ":"⟩, tokenize " Promise<\x7b c: () => T \x7d>")⟩
    let block (body : String) : List Token :=
      ⟨.openBrace, " ", "\x7b"⟩ :: (tokenize body ++ [⟨.closeBrace, " ", "\x7d"⟩])
    let s (body : String) : Statement := ⟨c.tokens ++ (h.tokens ++ block body), none⟩
    scan "export default async function <T>(a: T, b = 1): Promise<\x7b c: () => T \x7d> \x7b return a; \x7d" =
        [s " return a;"] ∧
      c.declared? {} (s " return a;") =
        some "export default function<T>(a: T, b?: number): Promise<\x7b c: () => T \x7d>;" ∧
      c.declared? {} (s " if (b) \x7b return (); \x7d") =
        some "export default function<T>(a: T, b?: number): Promise<\x7b c: () => T \x7d>;" := by
  intro c h block s
  have hc : c.IsCallable := ⟨rfl, by simp; rfl, by simp; rfl, rfl, by simp, by simp⟩
  have hh : h.IsHeader := by
    refine ⟨.angles rfl (by decide +kernel) (by decide +kernel), rfl, by decide +kernel, rfl, ?_⟩
    rintro colon type ⟨rfl, rfl⟩
    refine ⟨rfl, ?_⟩
    rw [tokenize_ofList]
    decide +kernel
  have hblock : ∀ body, isBalanced (tokenize body) → IsBlock (tokenize body) (block body) :=
    fun _ hbody => ⟨hbody, _, _, rfl, rfl, rfl⟩
  have hs : ∀ body, Token.significant (s body).tokens = (s body).tokens →
      (s body).significant = c.tokens ++ (h.tokens ++ block body) := fun _ htokens => htokens
  obtain ⟨hsame, hsome, htext⟩ := declared?_of_isCallable hc hh
    (hblock " return a;" (by decide +kernel))
    (hblock " if (b) \x7b return (); \x7d" (by decide +kernel))
    (by decide +kernel) (hs " return a;" (by decide +kernel))
    (hs " if (b) \x7b return (); \x7d" (by decide +kernel)) {}
  obtain ⟨text, h₁⟩ := Option.isSome_iff_exists.1 hsome
  rw [← hsame, h₁, (htext text h₁).1 _ _ rfl rfl]
  refine ⟨?_, ?_, ?_⟩
  · unfold s c h block
    rw [scan]
    repeat rw [tokenize_ofList]
    decide +kernel
  all_goals
    unfold h
    repeat rw [tokenize_ofList]
    decide +kernel

end Script

end SvelteTypings
