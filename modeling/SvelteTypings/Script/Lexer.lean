import SvelteTypings.Script.Token

/-!
# Reading tokens

A script is cut into *lexemes*, which lose nothing: tokens, blanks, and input that is no token.
`Lexeme.read` takes the longest lexeme at each place. A literal that is not closed where it must be
is passed over as a whole, up to the character at which it can no longer be one: a quote does not
reach over a newline, and a backslash must have a character after it.
-/

namespace SvelteTypings.Script

/-- What a lexeme is. -/
inductive LexemeClass where
  | token (kind : Kind)
  | blank
  /-- Input that no token matches. -/
  | stray
deriving DecidableEq

structure Lexeme where
  cls : LexemeClass
  text : List Char
deriving DecidableEq

namespace Lexeme

/-! ## Classes of characters -/

def isGap (c : Char) : Bool := c = ' ' || c = '\t' || c = '\r' || c = '\x0c'

def isIdentStart (c : Char) : Bool := c.isAlpha || c = '_' || c = '$'

def isIdentRest (c : Char) : Bool := c.isAlphanum || c = '_' || c = '$'

def isNumberRest (c : Char) : Bool := c.isAlphanum || c = '_'

def isOperatorChar (c : Char) : Bool :=
  ['+', '-', '*', '%', '|', '&', '!', '^', '~', '@', '#', '\\'].contains c

def isNonAscii (c : Char) : Bool := 0x80 ≤ c.toNat

/-! ## Lengths

Each function counts the characters that a lexeme has after its first one. -/

/-- How many characters satisfy `p` before the first that does not. -/
def runLength (p : Char → Bool) (cs : List Char) : Nat := (cs.takeWhile p).length

/-- The rest of a block comment: to its end, or to the end of the text. -/
def blockLength : List Char → Nat
  | '*' :: '/' :: _ => 2
  | _ :: cs => blockLength cs + 1
  | [] => 0

/-- The rest of a literal that ends with `quote`, and whether it is closed. Only a template goes on
over newlines. -/
def literalLength (quote : Char) : List Char → Bool × Nat
  | [] => (false, 0)
  | '\\' :: [] => (false, 0)
  | '\\' :: c :: cs =>
    if c = '\n' then (false, 0)
    else
      let (closed, n) := literalLength quote cs
      (closed, n + 2)
  | c :: cs =>
    if c = quote then (true, 1)
    else if c = '\n' ∧ quote ≠ '`' then (false, 0)
    else
      let (closed, n) := literalLength quote cs
      (closed, n + 1)

/-- The rest of a number: digits and letters, and once more after a point. -/
def numberLength (cs : List Char) : Nat :=
  let n := runLength isNumberRest cs
  match cs.drop n with
  | '.' :: rest =>
    let m := runLength isNumberRest rest
    if m = 0 then n else n + 1 + m
  | _ => n

/-! ## Reading -/

/-- A literal, or what is passed over in place of it. -/
def literal (kind : Kind) (quote : Char) (cs : List Char) : LexemeClass × Nat :=
  let (closed, n) := literalLength quote cs
  (if closed then .token kind else .stray, n)

/-- The class of the lexeme that starts with `c`, and how many of the next characters belong to
it. -/
def classify (c : Char) (cs : List Char) : LexemeClass × Nat :=
  if isGap c then (.blank, runLength isGap cs)
  else if isIdentStart c then (.token .ident, runLength isIdentRest cs)
  else if c.isDigit then (.token .number, numberLength cs)
  else if isOperatorChar c then (.token .operator, runLength isOperatorChar cs)
  else if isNonAscii c then (.token .nonAscii, runLength isNonAscii cs)
  else
    match c, cs with
    | '\n', _ => (.token .newline, 0)
    | '/', '/' :: cs => (.token .lineComment, 1 + runLength (· ≠ '\n') cs)
    | '/', '*' :: cs => (.token .blockComment, 1 + blockLength cs)
    | '/', _ => (.token .slash, 0)
    | '"', cs => literal .string '"' cs
    | '\'', cs => literal .string '\'' cs
    | '`', cs => literal .template '`' cs
    | '{', _ => (.token .openBrace, 0)
    | '}', _ => (.token .closeBrace, 0)
    | '(', _ => (.token .openParen, 0)
    | ')', _ => (.token .closeParen, 0)
    | '[', _ => (.token .openBracket, 0)
    | ']', _ => (.token .closeBracket, 0)
    | ';', _ => (.token .semicolon, 0)
    | ',', _ => (.token .comma, 0)
    | ':', _ => (.token .colon, 0)
    | '.', '.' :: '.' :: _ => (.token .spread, 2)
    | '.', _ => (.token .dot, 0)
    | '?', _ => (.token .question, 0)
    | '=', '>' :: _ => (.token .arrow, 1)
    | '=', _ => (.token .equals, 0)
    | '<', _ => (.token .less, 0)
    | '>', _ => (.token .greater, 0)
    | _, _ => (.stray, 0)

def read : List Char → List Lexeme
  | [] => []
  | c :: cs =>
    let (cls, n) := classify c cs
    ⟨cls, c :: cs.take n⟩ :: read (cs.drop n)
termination_by cs => cs.length
decreasing_by simp only [List.length_drop, List.length_cons]; omega

theorem read_nil : read [] = [] := by rw [read]

theorem read_cons (c : Char) (cs : List Char) :
    read (c :: cs) =
      ⟨(classify c cs).1, c :: cs.take (classify c cs).2⟩ :: read (cs.drop (classify c cs).2) := by
  rw [read]

/-- Lexemes are the text, cut. -/
theorem flatMap_text_read (cs : List Char) : (read cs).flatMap (·.text) = cs := by
  fun_induction read cs with
  | case1 => rfl
  | case2 c cs cls n _ ih => simp [ih]

/-- No lexeme is empty. -/
theorem text_ne_nil_of_mem_read {cs : List Char} {l : Lexeme} (h : l ∈ read cs) : l.text ≠ [] := by
  fun_induction read cs with
  | case1 => simp at h
  | case2 c cs cls n _ ih =>
    rcases List.mem_cons.1 h with rfl | h
    · simp
    · exact ih h

/-- The tokens among lexemes; `gap` is the text passed over so far. -/
def tokensAfter (gap : List Char) : List Lexeme → List Token
  | [] => []
  | ⟨.token kind, text⟩ :: ls =>
    ⟨kind, String.ofList gap, String.ofList text⟩ :: tokensAfter [] ls
  | ⟨_, text⟩ :: ls => tokensAfter (gap ++ text) ls

end Lexeme

/-- The tokens of a script. Blanks and stray input are in the gaps between them. -/
def tokenize (source : String) : List Token :=
  Lexeme.tokensAfter [] (Lexeme.read source.toList)

end SvelteTypings.Script
