import SvelteTypings.Proofs.Script.Heading
import SvelteTypings.Proofs.Script.Matching
import SvelteTypings.Proofs.Script.Signatures

/-!
# Signatures without a body

Whether a signature has a body is told by its last brace. A result type that ends in braces is taken
for one: of the type only what stands in front of them is declared, and nothing at all if there is
nothing (`declarations_of_bodiless`). All other types are declared as they stand.
-/

namespace SvelteTypings.Script

variable {type : List Token} {o : CompilerOptions}

/-- What is read of a result type. A block in braces at its end is taken for a body. -/
def typeRead (type : List Token) : List Token := (cutBody type).1

theorem typeRead_of_last (h : type.getLast?.any (·.kind = .closeBrace) = false) :
    typeRead type = type := by
  unfold typeRead cutBody
  rw [if_neg (by simp [h])]

theorem IsBlock.typeRead {body block : List Token} (h : IsBlock body block) (front : List Token) :
    typeRead (front ++ block) = front :=
  congrArg Prod.fst (h.cutBody front)

theorem exists_typeRead (h : isMatched type) (hlast : type.getLast?.any (·.kind = .closeBrace)) :
    ∃ body block, type = typeRead type ++ block ∧ IsBlock body block := by
  obtain ⟨front, body, block, rfl, hblock, -, -⟩ := exists_block h hlast
  exact ⟨body, block, by rw [hblock.typeRead], hblock⟩

/-- The body that is seen behind a colon is seen behind the type. -/
theorem cutBody_cons {colon : Token} (hcolon : colon.kind = .colon) (h : isMatched type) :
    (cutBody (colon :: type)).1 = colon :: typeRead type := by
  cases hlast : type.getLast?.any (·.kind = .closeBrace) with
  | true =>
    obtain ⟨front, body, block, rfl, hblock, -, -⟩ := exists_block h hlast
    rw [hblock.typeRead, ← List.cons_append, hblock.cutBody]
  | false =>
    have hcons : (colon :: type).getLast?.any (·.kind = .closeBrace) = false := by
      cases type with
      | nil => simp [hcolon]
      | cons t type => rwa [List.getLast?_cons_cons]
    rw [typeRead_of_last hlast]
    exact typeRead_of_last hcons

/-- The signature of a header with nothing behind it but, perhaps, a `;`. -/
theorem signature?_of_bodiless {h : Header} (hh : h.IsHeader) {colon : Token}
    (htyped : h.resultType = some (colon, type)) (hmatched : isMatched type) {ending : List Token}
    (hending : dropSemicolon (colon :: (type ++ ending)) = colon :: type) (o : CompilerOptions)
    (isAsync isGenerator : Bool) :
    signature? o isAsync isGenerator (h.tokens ++ ending) =
      (spanText? (typeRead type)).map fun result =>
        ⟨trimmed (Token.span h.generics), paramsText o h.params, result⟩ := by
  obtain ⟨hcolon, -⟩ := hh.resultType colon type htyped
  have htypes : typeParams? (h.tokens ++ ending) = some (trimmed (Token.span h.generics),
      h.opening :: (h.params ++ h.closing :: (colon :: (type ++ ending)))) := by
    rw [Header.tokens, List.append_assoc, List.cons_append, typeParams?_cons hh.opening hh.generics]
    simp [Header.resultTokens, htyped]
  have hparams := parenthesized?_cons hh.opening hh.params hh.closing (colon :: (type ++ ending))
  have hresult := cutBody_cons hcolon hmatched
  simp only [signature?, htypes, hparams, Option.bind_eq_bind, Option.bind_some, hending, hresult]
  simp only [startsWith, List.head?_cons, Option.any_some, hcolon, decide_true, if_true,
    List.drop_succ_cons, List.drop_zero]
  cases spanText? (typeRead type) <;> rfl

/-- What a bodiless signature declares, if of its result type this much is read. -/
def FunctionHead.overload (f : FunctionHead) (h : Header) (o : CompilerOptions) (result : String) :
    String :=
  f.before ++ trimmed (Token.span h.generics) ++ "(" ++ paramsText o h.params ++ "): " ++ result ++ ";"

theorem statementText?_of_bodiless {f : FunctionHead} (hf : f.IsFunction) {h : Header}
    (hh : h.IsHeader) {colon : Token} (htyped : h.resultType = some (colon, type))
    (hmatched : isMatched type) {semicolon : Token} (hsemicolon : semicolon.kind = .semicolon)
    (hlast : type.getLast?.any (·.kind = .semicolon) = false) (o : CompilerOptions) {s : Statement}
    (hs : s.significant = f.tokens ++ (h.tokens ++ [semicolon])) :
    statementText? o s = (spanText? (typeRead type)).map (f.overload h o) := by
  have hcolon := (hh.resultType colon type htyped).1
  -- the `;` is dropped in front of the signature of a default export, and behind all others
  have hsignature : ∀ ending, dropSemicolon (colon :: (type ++ ending)) = colon :: type →
      functionText? o f.start (f.function ++ (h.tokens ++ ending)) =
        (spanText? (typeRead type)).map (f.overload h o) := by
    intro ending hending
    have hsignature := signature?_of_bodiless hh htyped hmatched hending o f.async.isSome
      f.star.isSome
    obtain ⟨t, ts, hheader, ht⟩ := hh.exists_cons ending
    rw [hheader] at hsignature ⊢
    rw [functionText?_eq hf ht, hsignature, Option.map_map]
    apply congrArg (Option.map · _)
    funext result
    simp [FunctionHead.overload, FunctionHead.before, Signature.text, Signature.head,
      String.append_assoc]
  have hdropped : dropSemicolon (colon :: type) = colon :: type := by
    unfold dropSemicolon
    cases type with
    | nil => simp [hcolon]
    | cons t type =>
      rw [List.getLast?_cons_cons, if_neg]
      simpa using hlast
  rw [statementText?_eq_functionText? hf o hs]
  cases f.isDefault with
  | none => exact hsignature [semicolon] (dropSemicolon_concat hsemicolon (colon :: type))
  | some word =>
    have hdrop : dropSemicolon (f.function ++ (h.tokens ++ [semicolon])) =
        f.function ++ (h.tokens ++ []) := by
      rw [← List.append_assoc, dropSemicolon_concat hsemicolon, List.append_nil]
    rw [hdrop]
    exact hsignature [] (by rw [List.append_nil, hdropped])

/-! ## The script -/

/-- What a script declares around one of its statements. -/
theorem declarations_of_scan_append {source : String} {above below : List Statement} {s : Statement}
    (hscan : scan source = above ++ s :: below) (o : CompilerOptions) :
    declarations o source = joinLines (referenceDirectives source ++
      orPlaceholder (above.filterMap (declaration? o) ++
        ((declaration? o s).toList ++ below.filterMap (declaration? o)))) ++ "\n" := by
  have hdeclared : declared o source = above.filterMap (declaration? o) ++
      ((declaration? o s).toList ++ below.filterMap (declaration? o)) := by
    unfold declared
    rw [hscan, List.filterMap_append, List.filterMap_cons]
    cases declaration? o s <;> rfl
  rw [declarations_eq, hdeclared]

/-- **A signature without a body is declared with its parameters and its result.** The result type
is read whole, whatever it is, unless it ends in braces: then only what stands in front of them is
read, and if that is nothing, the statement is not declared. -/
theorem declarations_of_bodiless {source : String} {above below : List Statement} {s : Statement}
    (hscan : scan source = above ++ s :: below) {f : FunctionHead} (hf : f.IsFunction) {h : Header}
    (hh : h.IsHeader) {colon : Token} (htyped : h.resultType = some (colon, type))
    (hmatched : isMatched type) {semicolon : Token} (hsemicolon : semicolon.kind = .semicolon)
    (hlast : type.getLast?.any (·.kind = .semicolon) = false)
    (hs : s.significant = f.tokens ++ (h.tokens ++ [semicolon])) (o : CompilerOptions) :
    declarations o source = joinLines (referenceDirectives source ++
        orPlaceholder (above.filterMap (declaration? o) ++
          (((spanText? (typeRead type)).map fun result =>
              withDoc o "" s.doc (f.before ++ trimmed (Token.span h.generics) ++ "(" ++
                paramsText o h.params ++ "): " ++ result ++ ";")).toList ++
            below.filterMap (declaration? o)))) ++ "\n" ∧
      (type.getLast?.any (·.kind = .closeBrace) = false → typeRead type = type) ∧
      (type.getLast?.any (·.kind = .closeBrace) →
        ∃ body block, type = typeRead type ++ block ∧ IsBlock body block) := by
  refine ⟨?_, typeRead_of_last, exists_typeRead hmatched⟩
  have hstatement := statementText?_of_bodiless hf hh htyped hmatched hsemicolon hlast o hs
  rw [declarations_of_scan_append hscan, declaration?, hstatement, Option.map_map]
  rfl

/-- A function without a body: its name with type parameters and parameters, and its result type. -/
def overloadSource (signature result : String) : String :=
  "export function " ++ (signature ++ (":" ++ (result ++ ";")))

/-- The statement of the function `f`. -/
def overloadStatement (h : Header) : Statement :=
  ⟨⟨.ident, "", "export"⟩ :: ⟨.ident, " ", "function"⟩ :: ⟨.ident, " ", "f"⟩ ::
    (h.tokens ++ [⟨.semicolon, "", ";"⟩]), none⟩

def overloadHead : FunctionHead :=
  ⟨⟨.ident, "", "export"⟩, none, none, ⟨.ident, " ", "function"⟩, none, some ⟨.ident, " ", "f"⟩⟩

theorem isFunction_overloadHead : overloadHead.IsFunction :=
  ⟨rfl, by simp [overloadHead], by simp [overloadHead], rfl, by simp [overloadHead],
    by simp [overloadHead]⟩

/-- The script is a function without a body, and its brackets match. -/
structure IsOverload (signature result : String) (h : Header) : Prop where
  header : h.IsHeader
  typed : h.resultType = some (⟨.colon, "", ":"⟩, tokenize result)
  matched : isMatched (tokenize result)
  statement : scan (overloadSource signature result) = [] ++ overloadStatement h :: []
  significant : (overloadStatement h).significant =
    overloadHead.tokens ++ (h.tokens ++ [⟨.semicolon, "", ";"⟩])

/-- A result type with an object type within it. -/
theorem declarations_of_bodiless_object :
    let result := " Promise<\x7b a: T \x7d>"
    let h : Header := ⟨⟨.less, "", "<"⟩ :: tokenize "T>", ⟨.openParen, "", "("⟩, tokenize "a: T, b = 1",
      ⟨.closeParen, "", ")"⟩, some (⟨.colon, "", ":"⟩, tokenize result)⟩
    IsOverload "f<T>(a: T, b = 1)" result h ∧
      declarations {} (overloadSource "f<T>(a: T, b = 1)" result) =
        "export declare function f<T>(a: T, b?: number): Promise<\x7b a: T \x7d>;\n" := by
  intro result h
  have hh : h.IsHeader := by
    refine ⟨.angles rfl ?_ ?_, rfl, ?_, rfl, ?typed⟩
    case typed =>
      rintro colon type ⟨rfl, rfl⟩
      refine ⟨rfl, ?_⟩
      rw [tokenize_ofList]
      decide +kernel
    all_goals
      try unfold h
      repeat rw [tokenize_ofList]
      decide +kernel
  have hoverload : IsOverload "f<T>(a: T, b = 1)" result h := by
    refine ⟨hh, rfl, ?_, ?_, ?_⟩
    all_goals
      try unfold overloadSource scan
      try unfold h
      -- the script becomes one list of characters
      repeat rw [← String.ofList_append]
      repeat rw [tokenize_ofList]
      decide +kernel
  have hsource : (overloadSource "f<T>(a: T, b = 1)" result).toList = 'e' :: _ :=
    String.toList_append.trans (congrArg (· ++ _) String.toList_ofList)
  obtain ⟨hdeclarations, hwhole, -⟩ := declarations_of_bodiless hoverload.statement
    isFunction_overloadHead hh hoverload.typed hoverload.matched rfl (by decide +kernel)
    hoverload.significant {}
  rw [hdeclarations, hwhole (by decide +kernel),
    referenceDirectives_eq_nil hsource (by decide) (by decide)]
  refine ⟨hoverload, ?_⟩
  unfold h result
  repeat rw [tokenize_ofList]
  decide +kernel

/-- What is declared is not the function with the result that it has. -/
def CutsResult (signature result : String) : Prop :=
  ∃ h, IsOverload signature result h ∧ declarations {} (overloadSource signature result) ≠
    overloadHead.overload h {} (trimmed (Token.span (tokenize result))) ++ "\n"

/-- A function whose result is an object type is not declared, and of a type that ends in one only
the start is. -/
theorem cutsResult_object :
    CutsResult "f(a: A)" " \x7b b: B \x7d" ∧ CutsResult "f(a: A)" " B | \x7b b: B \x7d" := by
  let h (result : String) : Header := ⟨[], ⟨.openParen, "", "("⟩, tokenize "a: A",
    ⟨.closeParen, "", ")"⟩, some (⟨.colon, "", ":"⟩, tokenize result)⟩
  have hh : ∀ result, HasText (tokenize result) → (h result).IsHeader := by
    intro result hresult
    refine ⟨.none, rfl, show isBalanced (tokenize "a: A") by decide +kernel, rfl, ?_⟩
    rintro colon type ⟨rfl, rfl⟩
    exact ⟨rfl, hresult⟩
  refine ⟨⟨h _, ⟨hh _ ?_, rfl, ?_, ?_, ?_⟩, ?_⟩, h _, ⟨hh _ ?_, rfl, ?_, ?_, ?_⟩, ?_⟩
  all_goals
    try unfold declarations referenceDirectives linesOf
    try unfold scan
    try unfold overloadSource
    try unfold h
    repeat rw [← String.ofList_append]
    repeat rw [tokenize_ofList]
    try rw [String.toList_ofList]
    decide +kernel

end SvelteTypings.Script
