import SvelteTypings.Json.Number

/-!
# JSON tokens

A JSON text as a list of tokens. White space between tokens leaves no trace in the list, so two
texts that differ in white space alone have the same tokens.

A string may hold escapes that make no character (half of a surrogate pair) and a number may lie
beyond every double. Their tokens carry `none`: they are well formed, but they have no value.
-/

namespace SvelteTypings.Json

inductive Token where
  | openBrace
  | closeBrace
  | openBracket
  | closeBracket
  | comma
  | colon
  | null
  | bool (b : Bool)
  | number (value : Option Json)
  | string (text : Option String)
deriving Inhabited

def isSpace (c : Char) : Bool := c = ' ' || c = '\n' || c = '\t' || c = '\r'

/-! ## Strings -/

/-- A part of a string: a character, or a code unit given by an escape. -/
inductive Piece where
  | char (c : Char)
  | unit (n : Nat)

def hexValue? (c : Char) : Option Nat :=
  if c.isDigit then some (c.toNat - 0x30)
  else if 'a' ≤ c ∧ c ≤ 'f' then some (c.toNat - 0x57)
  else if 'A' ≤ c ∧ c ≤ 'F' then some (c.toNat - 0x37)
  else none

/-- The code unit written by four hexadecimal digits. -/
def codeUnit? (a b c d : Char) : Option Nat := do
  let a ← hexValue? a
  let b ← hexValue? b
  let c ← hexValue? c
  let d ← hexValue? d
  return ((a * 16 + b) * 16 + c) * 16 + d

/-- The character that stands after the backslash of a short escape. -/
def shortEscape? (c : Char) : Option Char :=
  match c with
  | '"' => some '"'
  | '\\' => some '\\'
  | '/' => some '/'
  | 'b' => some '\x08'
  | 'f' => some '\x0c'
  | 'n' => some '\n'
  | 'r' => some '\r'
  | 't' => some '\t'
  | _ => none

/-- Reads a string after its opening quote. Controls must be escaped. -/
def readString : List Char → Option (List Piece × List Char)
  | '"' :: cs => some ([], cs)
  | '\\' :: 'u' :: a :: b :: c :: d :: cs => do
    let n ← codeUnit? a b c d
    let (pieces, rest) ← readString cs
    return (.unit n :: pieces, rest)
  | '\\' :: e :: cs => do
    let c ← shortEscape? e
    let (pieces, rest) ← readString cs
    return (.char c :: pieces, rest)
  | c :: cs =>
    if c.toNat < 0x20 ∨ c = '\\' then none
    else do
      let (pieces, rest) ← readString cs
      return (.char c :: pieces, rest)
  | [] => none

/-- The first half of a surrogate pair. -/
def isLeadUnit (n : Nat) : Bool := 0xD800 ≤ n && n < 0xDC00

/-- The second half of a surrogate pair. -/
def isTrailUnit (n : Nat) : Bool := 0xDC00 ≤ n && n < 0xE000

/-- The characters of a string, if each code unit belongs to one. -/
def joinPieces : List Piece → Option (List Char)
  | [] => some []
  | .char c :: ps => (joinPieces ps).map (c :: ·)
  | .unit n :: .unit m :: ps =>
    if isLeadUnit n ∧ isTrailUnit m then
      (joinPieces ps).map (Char.ofNat (0x10000 + (n - 0xD800) * 0x400 + (m - 0xDC00)) :: ·)
    else if isLeadUnit n ∨ isTrailUnit n then none
    else (joinPieces (.unit m :: ps)).map (Char.ofNat n :: ·)
  | .unit n :: ps =>
    if isLeadUnit n ∨ isTrailUnit n then none else (joinPieces ps).map (Char.ofNat n :: ·)

/-! ## Reading a token -/

/-- Reads the token that starts with `c`, which is no white space. -/
def readToken (c : Char) (cs : List Char) : Option (Token × List Char) :=
  match c, cs with
  | '{', cs => some (.openBrace, cs)
  | '}', cs => some (.closeBrace, cs)
  | '[', cs => some (.openBracket, cs)
  | ']', cs => some (.closeBracket, cs)
  | ',', cs => some (.comma, cs)
  | ':', cs => some (.colon, cs)
  | '"', cs =>
    (readString cs).map fun (pieces, rest) =>
      (.string ((joinPieces pieces).map String.ofList), rest)
  | 'n', 'u' :: 'l' :: 'l' :: cs => some (.null, cs)
  | 't', 'r' :: 'u' :: 'e' :: cs => some (.bool true, cs)
  | 'f', 'a' :: 'l' :: 's' :: 'e' :: cs => some (.bool false, cs)
  | c, cs => (readNumber (c :: cs)).map fun (value, rest) => (.number value, rest)

/-- The tokens of a text. The bound is the length of the text: each token takes a character. -/
def tokensFrom : Nat → List Char → Option (List Token)
  | _, [] => some []
  | 0, _ :: _ => none
  | n + 1, c :: cs =>
    if isSpace c then tokensFrom n cs
    else do
      let (token, rest) ← readToken c cs
      let tokens ← tokensFrom n rest
      return token :: tokens

/-- The tokens of a text, if it consists of tokens and white space. -/
def tokens (s : String) : Option (List Token) := tokensFrom s.length s.toList

end SvelteTypings.Json
