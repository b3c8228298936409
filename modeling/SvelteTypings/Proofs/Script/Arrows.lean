import SvelteTypings.Proofs.Script.Initializers
import SvelteTypings.Proofs.Script.Declaring
import SvelteTypings.Proofs.Script.Heading
import SvelteTypings.Proofs.Script.LineEnds

/-!
# Bodies of arrow functions

What an exported function written with an arrow declares comes from what stands in front of the
arrow, and from whether the body returns a value (`declarations_of_arrow`). Two searches do not keep
to that: the word `as` is looked for in the whole initializer, and a comparison in a body closes a
bracket for the search for the next variable (`leaks_arrowScripts`). So the body is to hold no
`as`, and no comma that is found.
-/

namespace SvelteTypings.Script

variable {arrow : Token} {us front body₁ body₂ block₁ block₂ : List Token} {o : CompilerOptions}

/-! ## The head of an arrow function -/

theorem typeParams?_append (hus : ∀ s, (angleSearch.past s us).isSome) (hfront : front ≠ []) :
    typeParams? (front ++ us) =
      (typeParams? front).map fun (text, rest) => (text, rest ++ us) := by
  obtain ⟨t, front, rfl⟩ := List.exists_cons_of_ne_nil hfront
  rw [List.cons_append, typeParams?, typeParams?]
  split
  · rw [cutAngle?_eq, cutAngle?_eq, Search.cut?_append hus]
    cases angleSearch.cut? (1, 0) front with
    | none => rfl
    | some parts =>
      simp only [Search.extend, Option.map_some, Option.bind_eq_bind, Option.bind_some]
      cases spanText? (t :: parts.1) <;> rfl
  · rfl

theorem parenthesized?_append (hus : ∀ d, (depthOver d us).isSome)
    (hhead : startsWith .openParen us = false) (front : List Token) :
    parenthesized? (front ++ us) = (parenthesized? front).map (Search.extend us) := by
  cases front with
  | nil =>
    cases us with
    | nil => rfl
    | cons u us =>
      have hkind : u.kind ≠ .openParen := by simpa [startsWith] using hhead
      rw [List.nil_append, parenthesized?, if_neg hkind]
      rfl
  | cons t front =>
    rw [List.cons_append, parenthesized?, parenthesized?]
    split
    · rw [cutClosing?_eq, cutClosing?_eq]
      exact Search.cut?_append hus 0 front
    · rfl

/-- The type of an arrow function after `async`. -/
def arrowAfter? (infer : List Token → Inferred) (o : CompilerOptions) (isAsync : Bool)
    (ts : List Token) : Option String := do
  let (generics, rest) ← typeParams? ts
  let (params, after) ← parenthesized? rest
  let (result, body) ← cutAt? (·.kind = .arrow) after
  let result ←
    if startsWith .colon result then spanText? (result.drop 1)
    else some (impliedResult o isAsync (!startsWith .openBrace body || returnsValue body))
  return generics ++ "(" ++ paramsWith infer params ++ ") => " ++ result

theorem arrowWith?_eq (infer : List Token → Inferred) (o : CompilerOptions) (ts : List Token) :
    arrowWith? infer o ts =
      if ts.head?.any (·.isWord "async") then arrowAfter? infer o true (ts.drop 1)
      else arrowAfter? infer o false ts := by
  rw [arrowWith?]
  cases ts.head?.any (·.isWord "async") <;> rfl

/-! ## Two bodies -/

/-- The arrow and, behind it, the body in braces. -/
structure IsArrowBody (arrow : Token) (body us : List Token) : Prop where
  kind : arrow.kind = .arrow
  block : ∃ block, us = arrow :: block ∧ IsBlock body block

namespace IsArrowBody

variable {body us : List Token} (h : IsArrowBody arrow body us)
include h

theorem depthOver (d : Nat) : depthOver d us = some d := by
  obtain ⟨block, rfl, hblock⟩ := h.block
  have hstep : depthStep d arrow.kind = some d := by
    rw [h.kind]
    rfl
  rw [depthOver_cons, hstep]
  exact hblock.depthOver d

theorem past_angleSearch (s : Nat × Nat) : angleSearch.past s us = some s := by
  obtain ⟨block, rfl, hblock⟩ := h.block
  have hstep : angleSearch.step s arrow = some s := by
    simp [angleSearch, h.kind, Kind.opens, Kind.closes]
  rw [Search.past_cons, hstep]
  exact hblock.past_angleSearch s

theorem startsWith {k : Kind} (hk : k ≠ .arrow) (front : List Token) :
    startsWith k (front ++ us) = startsWith k front := by
  obtain ⟨block, rfl, -⟩ := h.block
  cases front with
  | nil => simp [Script.startsWith, h.kind, Ne.symm hk]
  | cons t front => rfl

theorem returnsValue (front : List Token) :
    returnsValue (front ++ us) =
      (returnsValue (front ++ [arrow]) || returnsValue body) := by
  obtain ⟨block, rfl, hblock⟩ := h.block
  have hword : arrow.isWord "return" = false := by simp [Token.isWord, h.kind]
  rw [returnsValue_append_cons, returnsValue_cons hword, hblock.returnsValue]

end IsArrowBody

/-- What is in front of the first arrow, whether a block is behind it, and whether a value is
returned, depend on the body in the last point only. -/
theorem cutAt?_arrow (arrow : Token) (front : List Token) :
    ∃ result isBlock returns, ∀ {body us}, IsArrowBody arrow body us →
      ∃ rest, cutAt? (·.kind = .arrow) (front ++ us) = some (result, rest) ∧
        startsWith .openBrace rest = isBlock ∧
        returnsValue rest = (returns || returnsValue body) := by
  cases hcut : cutAt? (·.kind = .arrow) front with
  | some parts =>
    refine ⟨parts.1, _, _, fun {body us} hus => ⟨parts.2 ++ us, ?_, hus.startsWith (by decide) _,
      hus.returnsValue parts.2⟩⟩
    rw [cutAt?_eq] at hcut ⊢
    exact Search.cut?_append_of_some hcut us
  | none =>
    refine ⟨front, true, false, fun {body us} hus => ?_⟩
    obtain ⟨block, rfl, hblock⟩ := hus.block
    refine ⟨block, cutAt?_append_cons hcut (by simp [hus.kind]) block, ?_, ?_⟩
    · obtain ⟨opening, closing, rfl, hopening, -⟩ := hblock.braces
      simp [startsWith, hopening]
    · rw [hblock.returnsValue, Bool.false_or]

theorem arrowAfter?_of_body {body us : List Token} (h : IsArrowBody arrow body us)
    (infer : List Token → Inferred) (isAsync : Bool) : arrowAfter? infer o isAsync us = none := by
  obtain ⟨block, rfl, -⟩ := h.block
  simp [arrowAfter?, typeParams?, parenthesized?, h.kind]

/-- **An arrow function shows nothing of its body** but whether it returns a value. -/
theorem exists_arrowAfter? (infer : List Token → Inferred) (o : CompilerOptions) (isAsync : Bool)
    (arrow : Token) (front : List Token) :
    ∃ shown : Bool → Option String, ∀ {body us}, IsArrowBody arrow body us →
      arrowAfter? infer o isAsync (front ++ us) = shown (returnsValue body) := by
  by_cases hfront : front = []
  · exact ⟨fun _ => none, fun hus => by rw [hfront]; exact arrowAfter?_of_body hus infer isAsync⟩
  -- None of the three searches looks behind the arrow, so each ends alike for every body.
  cases hgenerics : typeParams? front with
  | none =>
    refine ⟨fun _ => none, fun {body us} hus => ?_⟩
    have happend := typeParams?_append (fun s => by rw [hus.past_angleSearch]; rfl) hfront
    rw [arrowAfter?, happend, hgenerics]
    rfl
  | some pair =>
    obtain ⟨generics, rest⟩ := pair
    have happend : ∀ {body us}, IsArrowBody arrow body us →
        typeParams? (front ++ us) = some (generics, rest ++ us) := fun hus => by
      rw [typeParams?_append (fun s => by rw [hus.past_angleSearch]; rfl) hfront, hgenerics]
      rfl
    have hparens : ∀ {body us}, IsArrowBody arrow body us →
        parenthesized? (rest ++ us) = (parenthesized? rest).map (Search.extend us) :=
      fun {_ us} hus =>
      have hhead : startsWith .openParen us = false := hus.startsWith (by decide) []
      parenthesized?_append (fun d => by rw [hus.depthOver]; rfl) hhead rest
    cases hparams : parenthesized? rest with
    | none =>
      refine ⟨fun _ => none, fun {body us} hus => ?_⟩
      have hnone := hparens hus
      rw [hparams] at hnone
      simp [arrowAfter?, happend hus, hnone]
    | some parts =>
      obtain ⟨params, after⟩ := parts
      obtain ⟨result, isBlock, returns, hcut⟩ := cutAt?_arrow arrow after
      refine ⟨fun yields => do
        let result ← if startsWith .colon result then spanText? (result.drop 1)
          else some (impliedResult o isAsync (!isBlock || (returns || yields)))
        return generics ++ "(" ++ paramsWith infer params ++ ") => " ++ result,
        fun {body us} hus => ?_⟩
      obtain ⟨rest', hrest, hbrace, hreturns⟩ := hcut hus
      have hsome := hparens hus
      rw [hparams] at hsome
      simp [arrowAfter?, happend hus, hsome, Search.extend, hrest, hbrace, hreturns]

theorem exists_arrowWith? (infer : List Token → Inferred) (o : CompilerOptions) (arrow : Token)
    (front : List Token) : ∃ shown : Bool → Option String, ∀ {body us}, IsArrowBody arrow body us →
      arrowWith? infer o (front ++ us) = shown (returnsValue body) := by
  cases front with
  | nil =>
    obtain ⟨shown, hshown⟩ := exists_arrowAfter? infer o false arrow []
    refine ⟨shown, fun {body us} hus => ?_⟩
    have hasync : us.head?.any (·.isWord "async") = false := by
      obtain ⟨block, rfl, -⟩ := hus.block
      simp [Token.isWord, hus.kind]
    rw [arrowWith?_eq, ← hshown hus, List.nil_append, if_neg (by simp [hasync])]
  | cons t front =>
    cases hasync : t.isWord "async" with
    | true =>
      obtain ⟨shown, hshown⟩ := exists_arrowAfter? infer o true arrow front
      exact ⟨shown, fun hus => by rw [arrowWith?_eq, ← hshown hus]; simp [hasync]⟩
    | false =>
      obtain ⟨shown, hshown⟩ := exists_arrowAfter? infer o false arrow (t :: front)
      exact ⟨shown, fun hus => by rw [arrowWith?_eq, ← hshown hus]; simp [hasync]⟩

/-! ## The initializer -/

theorem IsArrowBody.length {body us : List Token} (h : IsArrowBody arrow body us) :
    3 ≤ us.length := by
  obtain ⟨block, rfl, hblock⟩ := h.block
  obtain ⟨opening, closing, rfl, -⟩ := hblock.braces
  simp

theorem IsArrowBody.dropSemicolon {body us : List Token} (h : IsArrowBody arrow body us)
    (front : List Token) : dropSemicolon (front ++ us) = front ++ us := by
  obtain ⟨block, rfl, hblock⟩ := h.block
  have hdrop := hblock.dropSemicolon (front ++ [arrow])
  rwa [List.append_assoc] at hdrop

theorem literal?_of_length {ts : List Token} (h : 3 ≤ ts.length) (constant : Bool) :
    literal? constant ts = none := by
  match ts, h with
  | _ :: _ :: _ :: _, _ => rfl

theorem asserted?_of_forall {ts : List Token} (h : ∀ t ∈ ts, t.isWord "as" = false) :
    asserted? ts = none := by
  have hany : ts.any (·.isWord "as") = false := List.any_eq_false.2 fun t ht => by simp [h t ht]
  rw [asserted?, afterLast?, hany]
  rfl

/-- What is constructed stands in the first two tokens. -/
theorem exists_constructed? (arrow : Token) (front : List Token) :
    ∃ shown, ∀ {body us}, IsArrowBody arrow body us → constructed? (front ++ us) = shown := by
  match front with
  | [] =>
    refine ⟨none, fun {body us} hus => ?_⟩
    obtain ⟨block, rfl, hblock⟩ := hus.block
    obtain ⟨opening, closing, rfl, -⟩ := hblock.braces
    simp [constructed?, Token.isWord, hus.kind]
  | [t] =>
    refine ⟨none, fun {body us} hus => ?_⟩
    obtain ⟨block, rfl, -⟩ := hus.block
    simp [constructed?, hus.kind]
  | t :: u :: front => exact ⟨constructed? [t, u], fun _ => rfl⟩

/-- **An initializer that asserts no type shows nothing of the body** but whether it returns a
value. -/
theorem exists_infer (o : CompilerOptions) (constant : Bool) (arrow : Token) (front : List Token) :
    ∃ shown : Bool → Inferred, ∀ {body us}, IsArrowBody arrow body us →
      (∀ t ∈ front ++ us, t.isWord "as" = false) →
        infer o constant (front ++ us) = shown (returnsValue body) := by
  obtain ⟨signature, hsignature⟩ := exists_arrowWith? (infer o false) o arrow front
  obtain ⟨built, hbuilt⟩ := exists_constructed? arrow front
  refine ⟨fun yields => (built.or ((signature yields).map .type)).getD (.type (fallbackType o)),
    fun {body us} hus has => ?_⟩
  have hlength : 3 ≤ (front ++ us).length :=
    Nat.le_trans hus.length (by rw [List.length_append]; exact Nat.le_add_left _ _)
  rw [infer_eq, hus.dropSemicolon, shallowType?, literal?_of_length hlength,
    asserted?_of_forall has, hbuilt hus, hsignature hus]
  rfl

/-! ## The variable -/

theorem cutTop?_append_cons {t : Token} {k : Kind} (h : (topSearch k).past 0 front = some 0)
    (ht : t.kind = k) (us : List Token) : cutTop? k 0 (front ++ t :: us) = some (front, us) := by
  have hstep : (topSearch k).step 0 t = none := by simp [topSearch, ht]
  rw [cutTop?_eq, Search.cut?_append_of_past h, Search.cut?, hstep]
  simp [topSearch]

theorem past_topSearch_nameParts {k : Kind} (hk : k.isNamePart = false)
    (h : ∀ t ∈ front, t.kind.isNamePart) (d : Nat) : (topSearch k).past d front = some d := by
  induction front with
  | nil => rfl
  | cons t front ih =>
    obtain ⟨ht, hrest⟩ := List.forall_mem_cons.1 h
    have hne : t.kind ≠ k := Kind.ne_of_isNamePart ht hk
    have hdepth : depthAfter d t.kind = d := by
      cases hkind : t.kind <;> rw [hkind] at ht <;> first | rfl | exact absurd ht (by decide)
    have hstep : (topSearch k).step d t = some d := by simp [topSearch, hne, hdepth]
    rw [Search.past_cons, hstep]
    exact ih hrest

/-- What a declaration has behind the name. -/
def Inferred.suffix : Inferred → String
  | .literal text => " = " ++ text
  | .type text => ": " ++ text

theorem exists_variableText? (o : CompilerOptions) (keyword : String) (name : Token)
    {parts : List Token} {equals : Token} (hparts : ∀ t ∈ parts, t.kind.isNamePart)
    (hequals : equals.kind = .equals) (arrow : Token) (front : List Token) :
    ∃ shown : Bool → Option String, ∀ {body us}, IsArrowBody arrow body us →
      (∀ t ∈ front ++ us, t.isWord "as" = false) →
        variableText? o keyword (name :: (parts ++ equals :: (front ++ us))) =
          shown (returnsValue body) := by
  obtain ⟨shown, hshown⟩ := exists_infer o (keyword = "const") arrow front
  refine ⟨fun yields =>
    if name.kind ≠ .ident then none
    else some ("export declare " ++ keyword ++ " " ++ name.text ++ (shown yields).suffix ++ ";"),
    fun {body us} hus has => ?_⟩
  have hmark : (parts ++ equals :: (front ++ us)).head?.any (·.isOperator "!") = false := by
    cases parts with
    | nil => simp [Token.isOperator, hequals]
    | cons t parts =>
      have hne : t.kind ≠ .operator := Kind.ne_of_isNamePart (hparts t List.mem_cons_self) rfl
      simp [Token.isOperator, hne]
  have hcolon : startsWith .colon parts = false := by
    cases parts with
    | nil => rfl
    | cons t parts =>
      have hne : t.kind ≠ .colon := Kind.ne_of_isNamePart (hparts t List.mem_cons_self) rfl
      simp [startsWith, hne]
  have hcut : cutTop? .equals 0 (parts ++ equals :: (front ++ us)) = some (parts, front ++ us) :=
    cutTop?_append_cons (past_topSearch_nameParts rfl hparts 0) hequals _
  rw [variableText?]
  simp only [hmark, Bool.false_eq_true, if_false, hcut, hcolon, hshown hus has]
  rfl

/-! ## The statement -/

/-- What an exported function has in front of its arrow, as in `export const f = (x): T =>`. The
tokens between `=` and the arrow may be any. -/
structure ArrowHead where
  exporting : Token
  keyword : Token
  name : Token
  /-- What there is of the name behind its first token. -/
  nameParts : List Token
  equals : Token
  function : List Token
  arrow : Token

namespace ArrowHead

structure IsExported (h : ArrowHead) : Prop where
  exporting : h.exporting.isWord "export"
  keyword : ∃ word ∈ ["const", "let", "var"], h.keyword.isWord word
  name : h.name.kind.isNamePart ∧ h.name.isWord "enum" = false
  nameParts : ∀ t ∈ h.nameParts, t.kind.isNamePart
  equals : h.equals.kind = .equals

/-- The declaration of the variable, whose initializer ends in the body. -/
def declarator (h : ArrowHead) (us : List Token) : List Token :=
  h.name :: (h.nameParts ++ h.equals :: (h.function ++ us))

/-- The statement that exports the function. -/
def statement (h : ArrowHead) (us : List Token) (semicolon : Token) : List Token :=
  h.exporting :: h.keyword :: (h.declarator us ++ [semicolon])

/-- The script is one statement, the exported function with the body. -/
structure IsScript (h : ArrowHead) (source : String) (body us : List Token) : Prop where
  starts : lineStarts "export" source
  statement : ∃ s semicolon, scan source = [s] ∧ semicolon.kind = .semicolon ∧
    s.significant = h.statement us semicolon
  body : IsArrowBody h.arrow body us

/-- Nothing of the body is taken for a type or for a variable: the initializer has no word `as`, and
no comma splits the declarator, with `<` and `>` counted as brackets wherever they stand. -/
structure IsWhole (h : ArrowHead) (us : List Token) : Prop where
  unasserted : ∀ t ∈ h.function ++ us, t.isWord "as" = false
  single : cutTop? .comma 0 (h.declarator us) = none

end ArrowHead

theorem exists_variablesText? {h : ArrowHead} (hh : h.IsExported) (o : CompilerOptions)
    (keyword : String) : ∃ shown : Bool → Option String, ∀ {body us semicolon},
      IsArrowBody h.arrow body us → h.IsWhole us → semicolon.kind = .semicolon →
        variablesText? o keyword (h.declarator us ++ [semicolon]) = shown (returnsValue body) := by
  obtain ⟨shown, hshown⟩ :=
    exists_variableText? o keyword h.name hh.nameParts hh.equals h.arrow h.function
  refine ⟨fun yields => (shown yields).map fun line => joinLines [line],
    fun {body us semicolon} hus hwhole hsemicolon => ?_⟩
  have hvariable := hshown hus hwhole.unasserted
  rw [variablesText?, dropSemicolon_concat hsemicolon, splitTop_of_cutTop? hwhole.single,
    ArrowHead.declarator, List.filterMap_cons, hvariable]
  cases hbody : shown (returnsValue body) <;> simp [hbody]

theorem exists_statementText? {h : ArrowHead} (hh : h.IsExported) (o : CompilerOptions) :
    ∃ shown : Bool → Option String, ∀ {body us semicolon s},
      IsArrowBody h.arrow body us → h.IsWhole us → semicolon.kind = .semicolon →
        s.significant = h.statement us semicolon →
          statementText? o s = shown (returnsValue body) := by
  obtain ⟨word, hword, hkeyword⟩ := hh.keyword
  obtain ⟨hkind, htext⟩ := isWord_iff.1 hkeyword
  obtain ⟨shown, hshown⟩ := exists_variablesText? hh o word
  refine ⟨shown, fun {body us semicolon s} hus hwhole hsemicolon hs => ?_⟩
  have himport : h.exporting.isWord "import" = false := by
    simp [Token.isWord, (isWord_iff.1 hh.exporting).2]
  have hstar : h.keyword.isOperator "*" = false := by simp [Token.isOperator, hkind]
  have henum : (h.declarator us ++ [semicolon]).head?.any (·.isWord "enum") = false := hh.name.2
  rw [← hshown hus hwhole hsemicolon, statementText?, hs, ArrowHead.statement]
  simp only [List.mem_cons, List.not_mem_nil, or_false] at hword
  rcases hword with rfl | rfl | rfl <;>
    simp [-List.head?_append, himport, hh.exporting, exportText?, hkind, htext, hstar, henum]

/-! ## The script -/

theorem lineStarts_append (line rest : String) : lineStarts line (line ++ rest) := by
  rw [lineStarts, String.toList_append]
  exact List.isPrefixOf_iff_prefix.2 (List.prefix_append _ _)

/-- A statement with which a script starts has no documentation. -/
theorem doc_of_scan {source : String} {s : Statement} {t : Token} {ts : List Token}
    (hscan : scan source = [s]) (hsource : tokenize source = t :: ts) (ht : t.isTrivia = false) :
    s.doc = none := by
  obtain ⟨stretch, rest, rfl, hcuts⟩ := exists_cutsInto_singleton hscan
  have hcut := hcuts.cut stretch List.mem_cons_self
  have hbefore : stretch.before = [] := by
    cases hbefore : stretch.before with
    | nil => rfl
    | cons u us =>
      have htokens := hcuts.tokens
      rw [hsource, List.flatMap_singleton, Stretch.tokens, hbefore] at htokens
      have hu := hcut.before u (hbefore ▸ List.mem_cons_self)
      rw [← (List.cons.inj htokens).1, ht] at hu
      exact absurd hu Bool.false_ne_true
  rw [hcut.doc, hbefore]
  rfl

/-- A script that is one exporting statement has nothing else to declare. -/
theorem declarations_of_scan {source : String} {s : Statement}
    (hstarts : lineStarts "export" source) (hscan : scan source = [s]) (o : CompilerOptions) :
    declarations o source = joinLines (orPlaceholder (statementText? o s).toList) ++ "\n" := by
  have hmodule : startsModule source := Bool.or_eq_true_iff.2 (Or.inl hstarts)
  obtain ⟨t, ts, hsource, ht, -⟩ := exists_tokenize_of_startsModule hmodule
  obtain ⟨cs, hcs⟩ := List.isPrefixOf_iff_prefix.1 hstarts
  have hdirectives : referenceDirectives source = [] :=
    referenceDirectives_eq_nil hcs.symm (by decide) (by decide)
  rw [declarations_eq, hdirectives, List.nil_append, declared, hscan, List.filterMap_cons,
    declaration?, doc_of_scan hscan hsource ht]
  cases statementText? o s <;> rfl

/-- **What an exported function declares does not depend on its body**, only on whether it returns a
value, if nothing of the body is taken for a type or a variable. -/
theorem declarations_of_arrow {h : ArrowHead} (hh : h.IsExported)
    {source₁ source₂ : String} {us₁ us₂ : List Token}
    (h₁ : h.IsScript source₁ body₁ us₁) (h₂ : h.IsScript source₂ body₂ us₂)
    (hw₁ : h.IsWhole us₁) (hw₂ : h.IsWhole us₂)
    (hreturns : returnsValue body₁ = returnsValue body₂) (o : CompilerOptions) :
    declarations o source₁ = declarations o source₂ := by
  obtain ⟨shown, hshown⟩ := exists_statementText? hh o
  obtain ⟨s₁, semicolon₁, hscan₁, hsemicolon₁, hs₁⟩ := h₁.statement
  obtain ⟨s₂, semicolon₂, hscan₂, hsemicolon₂, hs₂⟩ := h₂.statement
  rw [declarations_of_scan h₁.starts hscan₁, declarations_of_scan h₂.starts hscan₂,
    hshown h₁.body hw₁ hsemicolon₁ hs₁, hshown h₂.body hw₂ hsemicolon₂ hs₂, hreturns]

/-- `export const f =`, what is between that and the arrow, and the arrow. -/
def arrowHead (function : String) : ArrowHead where
  exporting := ⟨.ident, "", "export"⟩
  keyword := ⟨.ident, " ", "const"⟩
  name := ⟨.ident, " ", "f"⟩
  nameParts := []
  equals := ⟨.equals, " ", "="⟩
  function := tokenize function
  arrow := ⟨.arrow, " ", "=>"⟩

/-- The script with the head and the body, and the tokens from the arrow on. -/
def arrowScript (function body : String) : String :=
  "export" ++ (" const f =" ++ function ++ " => \x7b" ++ body ++ " \x7d;")

def arrowBody (body : String) : List Token :=
  ⟨.arrow, " ", "=>"⟩ :: ⟨.openBrace, " ", "\x7b"⟩ :: (tokenize body ++ [⟨.closeBrace, " ", "\x7d"⟩])

theorem isExported_arrowHead (function : String) : (arrowHead function).IsExported :=
  ⟨rfl, ⟨"const", by decide, rfl⟩, ⟨rfl, rfl⟩, fun _ ht => absurd ht List.not_mem_nil, rfl⟩

/-- The tokens of the script. -/
def arrowStatement (function body : String) : List Token :=
  (arrowHead function).statement (arrowBody body) ⟨.semicolon, "", ";"⟩

/-- The script has these tokens, and they are one statement. -/
structure IsArrowScript (function body : String) : Prop where
  tokens : tokenize (arrowScript function body) = arrowStatement function body
  statement : splitStatements (arrowStatement function body) = [⟨arrowStatement function body, none⟩]
  significant : Token.significant (arrowStatement function body) = arrowStatement function body
  balanced : isBalanced (tokenize body)

namespace IsArrowScript

variable {function body : String} (h : IsArrowScript function body)
include h

theorem scan_eq : scan (arrowScript function body) = [⟨arrowStatement function body, none⟩] :=
  (congrArg splitStatements h.tokens).trans h.statement

theorem isScript :
    (arrowHead function).IsScript (arrowScript function body) (tokenize body) (arrowBody body) :=
  ⟨lineStarts_append _ _, ⟨_, _, h.scan_eq, rfl, h.significant⟩, rfl,
    ⟨_, rfl, h.balanced, _, _, rfl, rfl, rfl⟩⟩

theorem declarations_eq (o : CompilerOptions) :
    declarations o (arrowScript function body) =
      joinLines (orPlaceholder (statementText? o ⟨arrowStatement function body, none⟩).toList) ++
        "\n" :=
  declarations_of_scan (lineStarts_append _ _) h.scan_eq o

end IsArrowScript

theorem isWhole_arrowBody {function body : String}
    (h : ((tokenize function ++ arrowBody body).all fun t => !t.isWord "as") ∧
      cutTop? .comma 0 ((arrowHead function).declarator (arrowBody body)) = none) :
    (arrowHead function).IsWhole (arrowBody body) :=
  ⟨fun t ht => by simpa using List.all_eq_true.1 h.1 t ht, h.2⟩

/-- A head with a function among the parameters, and two bodies that return something. -/
theorem declarations_of_arrow_generic :
    let function := " async <T>(a: T, b = (c) => c)"
    let body₁ := " return a;"
    let body₂ := " if (a < 1) \x7b return b(a, 1); \x7d"
    IsArrowScript function body₁ ∧ IsArrowScript function body₂ ∧
      declarations {} (arrowScript function body₁) =
        "export declare const f: <T>(a: T, b?: (c) => any) => Promise<any>;\n" ∧
      ∀ o, declarations o (arrowScript function body₁) = declarations o (arrowScript function body₂) := by
  intro function body₁ body₂
  obtain ⟨h₁, h₂⟩ : IsArrowScript function body₁ ∧ IsArrowScript function body₂ := by
    refine ⟨⟨?_, ?_, ?_, ?_⟩, ?_, ?_, ?_, ?_⟩
    all_goals
      try unfold arrowScript
      try unfold arrowStatement arrowHead arrowBody
      -- the script becomes one list of characters
      repeat rw [← String.ofList_append]
      repeat rw [tokenize_ofList]
      decide +kernel
  refine ⟨h₁, h₂, ?_, declarations_of_arrow (isExported_arrowHead function) h₁.isScript h₂.isScript
    (isWhole_arrowBody ?_) (isWhole_arrowBody ?_) ?_⟩
  · rw [h₁.declarations_eq]
    unfold arrowStatement arrowHead arrowBody
    repeat rw [tokenize_ofList]
    decide +kernel
  all_goals
    try unfold arrowHead arrowBody
    repeat rw [tokenize_ofList]
    decide +kernel

/-- Two bodies that return the same and are declared differently. -/
def Leaks (function body₁ body₂ : String) : Prop :=
  IsArrowScript function body₁ ∧ IsArrowScript function body₂ ∧
    returnsValue (tokenize body₁) = returnsValue (tokenize body₂) ∧
    declarations {} (arrowScript function body₁) ≠ declarations {} (arrowScript function body₂)

/-- What is asserted in a body is taken for the type of the function, and below a comparison a comma
in a body declares a variable. -/
theorem leaks_arrowScripts :
    Leaks " ()" "" " let x = y as T;" ∧ Leaks " ()" "" " if (a > 0) b(); let x, y;" := by
  obtain ⟨h₀, h₁, h₂⟩ : IsArrowScript " ()" "" ∧ IsArrowScript " ()" " let x = y as T;" ∧
      IsArrowScript " ()" " if (a > 0) b(); let x, y;" := by
    refine ⟨⟨?_, ?_, ?_, ?_⟩, ⟨?_, ?_, ?_, ?_⟩, ?_, ?_, ?_, ?_⟩
    all_goals
      try unfold arrowScript
      try unfold arrowStatement arrowHead arrowBody
      repeat rw [← String.ofList_append]
      repeat rw [tokenize_ofList]
      decide +kernel
  refine ⟨⟨h₀, h₁, ?_, ?_⟩, h₀, h₂, ?_, ?_⟩
  all_goals
    try rw [h₀.declarations_eq]
    try rw [h₁.declarations_eq]
    try rw [h₂.declarations_eq]
    try unfold arrowStatement arrowHead arrowBody
    repeat rw [tokenize_ofList]
    decide +kernel

end SvelteTypings.Script
