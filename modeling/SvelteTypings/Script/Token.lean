/-!
# Tokens of a script

The lexer tells apart what splitting a script into statements needs: brackets, separators, names,
literals and comments. All other operators are of one kind.
-/

namespace SvelteTypings.Script

inductive Kind where
  | newline
  | lineComment
  | blockComment
  | string
  | template
  | ident
  | number
  | openBrace
  | closeBrace
  | openParen
  | closeParen
  | openBracket
  | closeBracket
  | semicolon
  | comma
  | colon
  | dot
  | spread
  | question
  | equals
  | arrow
  | less
  | greater
  | slash
  | operator
  | nonAscii
deriving DecidableEq

namespace Kind

def isTrivia : Kind → Bool
  | .newline | .lineComment | .blockComment => true
  | _ => false

/-- An opening parenthesis, bracket or brace. -/
def opens : Kind → Bool
  | .openBrace | .openParen | .openBracket => true
  | _ => false

/-- A closing parenthesis, bracket or brace. -/
def closes : Kind → Bool
  | .closeBrace | .closeParen | .closeBracket => true
  | _ => false

/-- No bracket both opens and closes. -/
theorem not_closes_of_opens {k : Kind} (h : k.opens) : k.closes = false := by
  cases k <;> simp_all [opens, closes]

end Kind

/-- A token and the text that was passed over since the token before it. -/
structure Token where
  kind : Kind
  /-- Blanks, and input that is no token, in front of the token. -/
  gap : String
  text : String
deriving DecidableEq

namespace Token

def isTrivia (t : Token) : Bool := t.kind.isTrivia

/-- The token is the given name or keyword. -/
def isWord (t : Token) (word : String) : Bool := t.kind = .ident && t.text = word

def isOperator (t : Token) (op : String) : Bool := t.kind = .operator && t.text = op

def spaced (t : Token) : String := t.gap ++ t.text

/-- The text from the first of some tokens that follow each other to the last. -/
def span : List Token → String
  | [] => ""
  | t :: ts => t.text ++ String.join (ts.map spaced)

/-- Drops newlines and comments. Their text goes into the gap of the next token, so that the span of
the rest is still the text of the script. -/
def significantAfter (gap : String) : List Token → List Token
  | [] => []
  | t :: ts =>
    if t.isTrivia then significantAfter (gap ++ t.spaced) ts
    else { t with gap := gap ++ t.gap } :: significantAfter "" ts

/-- The tokens that are not newlines or comments. -/
def significant (ts : List Token) : List Token := significantAfter "" ts

/-- Drops tokens up to and including the first `n` significant ones. -/
def dropSignificant : Nat → List Token → List Token
  | 0, ts => ts
  | _, [] => []
  | n + 1, t :: ts => if t.isTrivia then dropSignificant (n + 1) ts else dropSignificant n ts

/-- The places of the tokens in the text, as byte offsets of their start and end. -/
def placesFrom (offset : Nat) : List Token → List (Nat × Nat)
  | [] => []
  | t :: ts =>
    let start := offset + t.gap.utf8ByteSize
    let stop := start + t.text.utf8ByteSize
    (start, stop) :: placesFrom stop ts

def places (ts : List Token) : List (Nat × Nat) := placesFrom 0 ts

end Token

end SvelteTypings.Script
