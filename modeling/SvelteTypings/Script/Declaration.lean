import SvelteTypings.Compiler.Options
import SvelteTypings.Script.Nesting
import SvelteTypings.Text.Blank
import SvelteTypings.Text.Lines
import SvelteTypings.Text.Search

/-!
# Declarations of a script

Each statement of a script is reduced to what it declares: bodies and initializers are dropped, and
types are taken from annotations or, if there is none, from what an initializer shows. Statements
that declare nothing for others are left out.
-/

namespace SvelteTypings.Script

/-- The type of what nothing is known about. -/
def fallbackType (o : CompilerOptions) : String := if o.isStrict then "unknown" else "any"

/-- The text of a run of tokens without the blanks at its ends, if anything is left. -/
def spanText? (ts : List Token) : Option String :=
  let text := trimmed (Token.span ts)
  if text.isEmpty then none else some text

/-- Ends a text with `;` unless it ends a declaration already. -/
def terminate (text : String) : String :=
  let text := trimmedEnd text
  match text.toList.getLast? with
  | some ';' => text
  | some '}' => text
  | _ => text ++ ";"

/-- The first token is of the given kind. -/
def startsWith (k : Kind) (ts : List Token) : Bool := ts.head?.any (·.kind = k)

/-- A `return` is followed by something else than `;` or `}`. -/
def returnsValue : List Token → Bool
  | t :: u :: ts =>
    (t.isWord "return" && u.kind != .semicolon && u.kind != .closeBrace) || returnsValue (u :: ts)
  | _ => false

/-- The result type of a function without annotation. -/
def impliedResult (o : CompilerOptions) (isAsync yields : Bool) : String :=
  let base := if yields then fallbackType o else "void"
  if isAsync then "Promise<" ++ base ++ ">" else base

/-- Type parameters at the start of a run: their text, or the empty text, and the run after them. -/
def typeParams? (ts : List Token) : Option (String × List Token) :=
  match ts with
  | [] => none
  | t :: rest =>
    if t.kind = .less then do
      let (inside, rest) ← cutAngle? 1 0 rest
      let text ← spanText? (t :: inside)
      return (text, rest)
    else some ("", ts)

/-- The run between the parentheses at the start of a run, and the run after them. -/
def parenthesized? : List Token → Option (List Token × List Token)
  | t :: ts => if t.kind = .openParen then cutClosing? 1 ts else none
  | [] => none

/-! ## Types from initializers -/

/-- What an initializer shows: a literal that can stand for itself, or a type. -/
inductive Inferred where
  | literal (text : String)
  | type (text : String)

def Inferred.text : Inferred → String
  | .literal text => text
  | .type text => text

/-- A literal, which a constant keeps and anything else widens to a type. -/
def Inferred.widening (constant : Bool) (text widened : String) : Inferred :=
  if constant then .literal text else .type widened

/-- What a single literal shows. -/
def literal? (constant : Bool) (ts : List Token) : Option Inferred :=
  match ts with
  | [t] =>
    match t.kind with
    | .string => some (.widening constant t.text "string")
    | .template => some (.type "string")
    | .number => some (.widening constant t.text "number")
    | .ident =>
      if t.text = "true" ∨ t.text = "false" then some (.widening constant t.text "boolean")
      else none
    | _ => none
  | [minus, number] =>
    if minus.text = "-" ∧ number.kind = .number then
      some (.widening constant ("-" ++ number.text) "number")
    else none
  | _ => none

/-- The type of an assertion `value as T`; `as const` asserts none. -/
def asserted? (ts : List Token) : Option Inferred := do
  let target ← afterLast? (·.isWord "as") ts
  if target.length = 1 ∧ target.any (·.isWord "const") then none
  else
    let text ← spanText? target
    return .type text

def constructed? (ts : List Token) : Option Inferred :=
  match ts with
  | new :: cls :: _ =>
    if new.isWord "new" ∧ cls.kind = .ident then some (.type cls.text) else none
  | _ => none

/-- Words for how a parameter becomes a member of its class. -/
def paramModifiers : List String := ["public", "private", "protected", "readonly", "override"]

/-- Drops the modifiers in front of a parameter. -/
def dropParamModifiers : List Token → List Token
  | t :: u :: ts =>
    if t.kind = .ident ∧ paramModifiers.contains t.text ∧
        [Kind.ident, .openBrace, .openBracket, .spread].contains u.kind then
      dropParamModifiers (u :: ts)
    else t :: u :: ts
  | ts => ts

/-- A parameter that has an initializer, as an optional one. `type` gives the type when there is no
annotation. -/
def optionalParam? (head : List Token) (type : String) : Option String :=
  match cutTop? .colon 0 head with
  | some (name, declared) => do
    let name ← spanText? name
    let declared ← spanText? declared
    return String.ofList (Text.dropEndWhile (· = '?') name.toList) ++ "?: " ++ declared
  | none => do
    let name ← spanText? head
    return name ++ "?: " ++ type

/-- The type of a run without looking into functions. -/
def shallowType? (constant : Bool) (ts : List Token) : Option Inferred :=
  literal? constant ts <|> asserted? ts <|> constructed? ts

/-- Parameters as a declaration lists them: those with an initializer are optional, and modifiers
are dropped. -/
def paramsWith (infer : List Token → Inferred) (ts : List Token) : String :=
  String.intercalate ", " <| (splitTop .comma 0 ts).filterMap fun param =>
    let param := dropParamModifiers param
    match cutTop? .equals 0 param with
    | none => spanText? param
    | some (head, init) => optionalParam? head (infer init).text

/-- The type of a function written with an arrow. -/
def arrowWith? (infer : List Token → Inferred) (o : CompilerOptions) (init : List Token) :
    Option String := do
  let isAsync := init.head?.any (·.isWord "async")
  let (generics, rest) ← typeParams? (if isAsync then init.drop 1 else init)
  let (params, after) ← parenthesized? rest
  let (result, body) ← cutAt? (·.kind = .arrow) after
  let result ←
    if startsWith .colon result then spanText? (result.drop 1)
    else some (impliedResult o isAsync (!startsWith .openBrace body || returnsValue body))
  return generics ++ "(" ++ paramsWith infer params ++ ") => " ++ result

/-- The type or literal that an initializer shows, looking into the parameters of functions no
deeper than the bound. -/
def inferWithin (o : CompilerOptions) : Nat → Bool → List Token → Inferred
  | 0, _, _ => .type (fallbackType o)
  | n + 1, constant, init =>
    let init := dropSemicolon init
    match shallowType? constant init with
    | some found => found
    | none =>
      match arrowWith? (inferWithin o n false) o init with
      | some signature => .type signature
      | none => .type (fallbackType o)

/-- The type or literal that an initializer shows. An initializer of a parameter has fewer tokens
than the function, so their number bounds the depth. -/
def infer (o : CompilerOptions) (constant : Bool) (init : List Token) : Inferred :=
  inferWithin o (init.length + 1) constant init

def paramsText (o : CompilerOptions) (ts : List Token) : String := paramsWith (infer o false) ts

/-! ## Functions -/

/-- The type parameters, the parameters and the result of a function or method: what stands before
its parameters, the parameters, and the result. -/
structure Signature where
  generics : String
  params : String
  result : String

def Signature.head (s : Signature) : String := s.generics ++ "(" ++ s.params ++ ")"

def Signature.text (s : Signature) : String := s.head ++ ": " ++ s.result

/-- The signature of a function or method, from its type parameters or parameters on. -/
def signature? (o : CompilerOptions) (isAsync isGenerator : Bool) (ts : List Token) :
    Option Signature := do
  let (generics, rest) ← typeParams? ts
  let (params, after) ← parenthesized? rest
  let (result, body) := cutBody (dropSemicolon after)
  let result ←
    if startsWith .colon result then spanText? (result.drop 1)
    else if isGenerator then some (fallbackType o)
    else some (impliedResult o isAsync (returnsValue body))
  return ⟨generics, paramsText o params, result⟩

/-- The declaration of a function, from `async` or `function` on. -/
def functionText? (o : CompilerOptions) (start : String) (ts : List Token) : Option String := do
  let isAsync := ts.head?.any (·.isWord "async")
  let ts := if isAsync then ts.drop 1 else ts
  let keyword ← ts.head?
  if !keyword.isWord "function" then none
  else
    let ts := ts.drop 1
    let isGenerator := ts.head?.any (·.isOperator "*")
    let ts := if isGenerator then ts.drop 1 else ts
    let first ← ts.head?
    let (name, ts) := if first.kind = .ident then (" " ++ first.text, ts.drop 1) else ("", ts)
    let signature ← signature? o isAsync isGenerator ts
    return start ++ "function" ++ name ++ signature.text ++ ";"

/-! ## Variables -/

/-- The declaration of one variable. Patterns have no single name to declare. -/
def variableText? (o : CompilerOptions) (keyword : String) (ts : List Token) : Option String :=
  match ts with
  | [] => none
  | name :: rest =>
    if name.kind ≠ .ident then none
    else
      let rest := if rest.head?.any (·.isOperator "!") then rest.drop 1 else rest
      let (head, init?) := match cutTop? .equals 0 rest with
        | some (head, init) => (head, some init)
        | none => (rest, none)
      let declared? := if startsWith .colon head then spanText? (head.drop 1) else none
      let suffix := match declared?, init? with
        | some declared, _ => ": " ++ declared
        | none, some init =>
          match infer o (keyword = "const") init with
          | .literal text => " = " ++ text
          | .type text => ": " ++ text
        | none, none => ": " ++ fallbackType o
      some ("export declare " ++ keyword ++ " " ++ name.text ++ suffix ++ ";")

/-- The declarations of the variables of one statement. -/
def variablesText? (o : CompilerOptions) (keyword : String) (ts : List Token) : Option String :=
  match (splitTop .comma 0 (dropSemicolon ts)).filterMap (variableText? o keyword) with
  | [] => none
  | lines => some (joinLines lines)

/-! ## Documentation -/

/-- A documentation comment with its lines moved to `indent`. -/
def reindentDoc (indent doc : String) : String :=
  joinLines <| (linesOf doc).map fun line =>
    let line := trimmed line
    if line.toList.head? = some '*' then indent ++ " " ++ line else indent ++ line

def withDoc (o : CompilerOptions) (indent : String) (doc? : Option String) (text : String) :
    String :=
  match doc? with
  | some doc => if o.removesComments then text else reindentDoc indent doc ++ "\n" ++ text
  | none => text

/-! ## Classes -/

/-- Words that can stand in front of a member's name. -/
def memberModifiers : List String :=
  ["public", "private", "protected", "static", "readonly", "abstract", "declare", "override",
    "async", "accessor", "get", "set"]

/-- Modifiers that a declaration does not repeat. -/
def droppedModifiers : List String := ["async", "public", "override", "declare", "accessor"]

def startsWithHash (t : Token) : Bool := t.text.toList.head? = some '#'

/-- A token with which the name of a member can start. -/
def startsMemberName (t : Token) : Bool :=
  match t.kind with
  | .ident | .string | .number | .openBracket => true
  | .operator => startsWithHash t || t.text = "*"
  | _ => false

/-- The modifiers in front of a member's name, and the run from the name on. -/
def cutModifiers : List Token → List String × List Token
  | t :: u :: ts =>
    if t.kind = .ident ∧ memberModifiers.contains t.text ∧ startsMemberName u then
      let (modifiers, rest) := cutModifiers (u :: ts)
      (t.text :: modifiers, rest)
    else ([], t :: u :: ts)
  | ts => ([], ts)

/-- A member after its modifiers, name and mark. `start` is what a declaration keeps of them. -/
def memberBody? (o : CompilerOptions) (modifiers kept : List String) (start name mark : String)
    (rest : List Token) : Option String :=
  match rest with
  | [] => some (start ++ name ++ mark ++ ": " ++ fallbackType o ++ ";")
  | t :: ts =>
    match t.kind with
    | .openParen | .less =>
      if name = "constructor" then do
        let (params, _) ← cutClosing? (if t.kind.opens then 1 else 0) ts
        return "constructor(" ++ paramsText o params ++ ");"
      else do
        let signature ← signature? o (modifiers.contains "async") false rest
        if kept.contains "set" then
          -- A setter is declared without its result.
          let text := signature.text
          let head := match Text.cutLast? "): ".toList text.toList with
            | some (head, _) => String.ofList head
            | none => text
          return start ++ name ++ head ++ ");"
        else return start ++ name ++ mark ++ signature.text ++ ";"
    | .colon => do
      let declared := match cutTop? .equals 0 ts with
        | some (declared, _) => declared
        | none => ts
      let type ← spanText? declared
      return start ++ name ++ mark ++ ": " ++ type ++ ";"
    | .equals =>
      match infer o (kept.contains "readonly") ts with
      | .literal text => some (start ++ name ++ mark ++ " = " ++ text ++ ";")
      | .type text => some (start ++ name ++ mark ++ ": " ++ text ++ ";")
    | _ => none

/-- The declaration of a member of a class. Members named with `#` and static blocks are not seen
from outside. -/
def memberText? (o : CompilerOptions) (member : Statement) : Option String :=
  let ts := dropSemicolon member.significant
  let (modifiers, rest) := cutModifiers ts
  match rest with
  | [] => none
  | first :: rest =>
    if (first.kind = .operator ∧ startsWithHash first) ∨ first.kind = .openBrace then none
    else if first.kind = .openBracket then
      if ts.getLast?.any (·.kind = .closeBrace) then none else some (terminate member.text)
    else if modifiers.contains "abstract" then some (terminate member.text)
    else
      let (mark, rest) := match rest with
        | t :: ts =>
          if t.kind = .question then ("?", ts)
          else if t.isOperator "!" then ("", ts)
          else ("", rest)
        | [] => ("", rest)
      let kept := modifiers.filter fun m => !droppedModifiers.contains m
      if kept.contains "private" then
        let visible := kept.filter fun m => ["private", "static", "readonly"].contains m
        some (String.intercalate " " visible ++ " " ++ first.text ++ mark ++ ";")
      else
        let start := if kept.isEmpty then "" else String.intercalate " " kept ++ " "
        memberBody? o modifiers kept start first.text mark rest

def memberIndent : String := "    "

/-- The head of a class and the run between its braces. `ts` starts at `class` or a word before it;
newlines and comments are among the tokens. -/
def cutClass? (ts : List Token) : Option (List Token × List Token) := do
  let (before, after) ← cutAt? (·.isWord "class") ts
  let (heritage, rest) ← cutTop? .openBrace 0 after
  let (body, _) ← cutClosing? 1 rest
  return (ts.take (before.length + 1 + heritage.length), body)

def classText? (o : CompilerOptions) (start : String) (ts : List Token) : Option String := do
  let (head, body) ← cutClass? ts
  let head ← spanText? (Token.significant head)
  let members := (splitStatements body).filterMap fun member =>
    (memberText? o member).map fun text => withDoc o memberIndent member.doc (memberIndent ++ text)
  return start ++ head ++ " \x7b\n" ++ String.join (members.map (· ++ "\n")) ++ "\x7d"

/-! ## Statements -/

def defaultText? (o : CompilerOptions) (s : Statement) (ts : List Token) : Option String :=
  let rest := dropSemicolon (ts.drop 2)
  match rest with
  | [] => none
  | first :: more =>
    match first.text with
    | "class" | "abstract" => classText? o "export default " (Token.dropSignificant 2 s.tokens)
    | "function" | "async" => functionText? o "export default " rest
    | "interface" => some (terminate s.text)
    | _ =>
      if more.isEmpty ∧ first.kind = .ident then some (terminate s.text)
      else some ("declare const _default: " ++ fallbackType o ++ ";\nexport default _default;")

/-- The declaration of an exporting statement with the significant tokens `ts`. -/
def exportText? (o : CompilerOptions) (s : Statement) (ts : List Token) : Option String :=
  match ts.drop 1 with
  | [] => none
  | second :: rest =>
    if second.kind = .openBrace ∨ second.kind = .equals ∨ second.isOperator "*" then
      some (terminate s.text)
    else
      match second.text with
      | "default" => defaultText? o s ts
      | "type" | "interface" | "declare" | "import" => some (terminate s.text)
      | "enum" | "namespace" | "module" => some ("export declare " ++ s.textFrom 1)
      | "const" =>
        if rest.head?.any (·.isWord "enum") then some ("export declare " ++ s.textFrom 1)
        else variablesText? o "const" rest
      | "let" => variablesText? o "let" rest
      | "var" => variablesText? o "var" rest
      | "function" | "async" => functionText? o "export declare " (ts.drop 1)
      | "class" | "abstract" => classText? o "export declare " (Token.dropSignificant 1 s.tokens)
      | _ => none

/-- The declaration of a statement, if it declares anything. -/
def statementText? (o : CompilerOptions) (s : Statement) : Option String :=
  match s.significant with
  | [] => none
  | first :: rest =>
    if first.isWord "import" then
      -- A call `import(...)` and `import.meta` are expressions.
      if startsWith .openParen rest ∨ startsWith .dot rest then none else some (terminate s.text)
    else if first.isWord "export" then exportText? o s (first :: rest)
    else if first.isWord "interface" ∨ first.isWord "declare" ∨
        (first.isWord "type" ∧ startsWith .ident rest) then
      some (terminate s.text)
    else none

/-- A statement's declaration below its documentation. -/
def declaration? (o : CompilerOptions) (s : Statement) : Option String :=
  (statementText? o s).map (withDoc o "" s.doc)

/-! ## Scripts -/

def lineStarts (text line : String) : Bool := text.toList.isPrefixOf line.toList

/-- The reference directives among the blank lines and comments that head a script. -/
def referenceDirectives (source : String) : List String :=
  (((linesOf source).map trimmed).takeWhile fun line => line.isEmpty || lineStarts "//" line).filter
    (lineStarts "/// <reference")

/-- What stands in a declaration file that declares nothing. -/
def placeholder : String := "export \x7b\x7d;"

/-- The lines of the declaration file for some statements. -/
def declarationLines (o : CompilerOptions) (statements : List Statement) : List String :=
  match statements.filterMap (declaration? o) with
  | [] => [placeholder]
  | texts => texts

/-- The declaration file of a script. -/
def declarations (o : CompilerOptions) (source : String) : String :=
  joinLines (referenceDirectives source ++ declarationLines o (scan source)) ++ "\n"

end SvelteTypings.Script
