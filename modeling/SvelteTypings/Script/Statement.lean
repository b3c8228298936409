import SvelteTypings.Script.Lexer

/-!
# Statements of a script

A run of tokens, a whole script or the body of a class, is cut into statements. A statement ends
with a `;` outside brackets, or before a newline outside brackets if its last token can end a line
and the next line does not continue it. Newlines and comments between statements belong to none; the
last documentation comment in front of a statement is kept with it.
-/

namespace SvelteTypings.Script

structure Statement where
  /-- The tokens from the first to the last that is no newline or comment. -/
  tokens : List Token
  /-- The `/** ... */` comment in front. -/
  doc : Option String
deriving DecidableEq

namespace Statement

/-- The tokens without newlines and comments. -/
def significant (s : Statement) : List Token := Token.significant s.tokens

def text (s : Statement) : String := Token.span s.tokens

/-- The text from the `i`-th significant token to the end. -/
def textFrom (s : Statement) (i : Nat) : String := Token.span (s.significant.drop i)

/-- The text from the `i`-th significant token to the `j`-th. -/
def slice (s : Statement) (i j : Nat) : String :=
  Token.span ((s.significant.take (j + 1)).drop i)

end Statement

/-! ## Ends of lines -/

/-- A token after which a line can end a statement. -/
def endsLine : Kind → Bool
  | .ident | .number | .string | .template | .closeBrace | .closeParen | .closeBracket
  | .greater | .nonAscii => true
  | _ => false

/-- Words that continue the statement of the line before. -/
def continuationWords : List String :=
  ["as", "satisfies", "extends", "implements", "in", "instanceof", "of"]

/-- A token that continues the statement of the line before. -/
def Token.continuesLine (t : Token) : Bool :=
  match t.kind with
  | .dot | .comma | .question | .colon | .equals | .arrow | .less | .greater | .slash
  | .openParen | .openBracket | .closeParen | .closeBracket | .closeBrace | .template => true
  | .operator => !(['!', '@', '#'].any fun c => t.text.toList.head? = some c)
  | .ident => continuationWords.contains t.text
  | _ => false

/-- The next token that is no newline or comment. -/
def nextSignificant? (ts : List Token) : Option Token := ts.find? (!·.isTrivia)

/-- The statement of the line before goes on. -/
def continues (ts : List Token) : Bool := (nextSignificant? ts).any Token.continuesLine

/-! ## Splitting -/

/-- A statement that is being read. -/
structure Draft where
  /-- Its tokens so far, last one first. -/
  taken : List Token
  depth : Nat
  /-- The documentation comment in front of it. -/
  doc : Option String
  /-- A documentation comment that waits for a statement. -/
  pending : Option String

namespace Draft

def start : Draft := ⟨[], 0, none, none⟩

/-- A newline here may end the statement. -/
def mayEnd (p : Draft) : Bool :=
  p.depth = 0 && (p.taken.find? (!·.isTrivia)).any fun t => endsLine t.kind

/-- The statement read, without newlines and comments at its end, if there is one. -/
def finish (p : Draft) : List Statement :=
  match p.taken.dropWhile Token.isTrivia with
  | [] => []
  | ts => [⟨ts.reverse, p.doc⟩]

/-- The state after a statement has been finished. -/
def reset (p : Draft) : Draft := { p with taken := [], doc := none }

/-- Takes a token that is neither between statements nor the end of one. -/
def push (p : Draft) (t : Token) : Draft := { p with taken := t :: p.taken }

/-- Takes a token that is no newline, and no comment between statements. -/
def take (p : Draft) (t : Token) : Draft :=
  let p := if p.taken.isEmpty then { p with doc := p.pending, pending := none } else p
  let depth := if t.kind.opens then p.depth + 1 else if t.kind.closes then p.depth - 1 else p.depth
  { p with taken := t :: p.taken, depth }

end Draft

/-- Documentation starts with two stars. -/
def isDoc (t : Token) : Bool :=
  t.kind = .blockComment && ['/', '*', '*'].isPrefixOf t.text.toList

/-- Splits the tokens that follow what has been read. -/
def splitFrom (p : Draft) : List Token → List Statement
  | [] => p.finish
  | t :: ts =>
    if t.kind = .newline then
      if p.taken.isEmpty then splitFrom p ts
      else if p.mayEnd ∧ ¬continues ts then p.finish ++ splitFrom p.reset ts
      else splitFrom (p.push t) ts
    else if t.isTrivia ∧ p.taken.isEmpty then
      splitFrom (if isDoc t then { p with pending := some t.text } else p) ts
    else
      let p := p.take t
      if t.kind = .semicolon ∧ p.depth = 0 then p.finish ++ splitFrom p.reset ts
      else splitFrom p ts

def splitStatements (ts : List Token) : List Statement := splitFrom .start ts

def scan (source : String) : List Statement := splitStatements (tokenize source)

end SvelteTypings.Script
