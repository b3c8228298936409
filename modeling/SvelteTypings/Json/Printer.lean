import SvelteTypings.Json.Basic
import SvelteTypings.Text.Quoted

/-!
# Writing JSON values

Values are written on one line, in ASCII alone. A double is written by its exact decimal expansion,
so that it reads back as the same double.
-/

namespace SvelteTypings.Json

/-! ## Numbers -/

def paddedDigits (width n : Nat) : List Char :=
  let digits := (toString n).toList
  List.replicate (width - digits.length) '0' ++ digits

/-- The decimal expansion of `m / 2 ^ k`, with at least one digit after the point. -/
def binaryFraction (m k : Nat) : String :=
  let whole := m / Nat.pow 2 k
  let digits := (paddedDigits k (m % Nat.pow 2 k * Nat.pow 5 k)).reverse.dropWhile (· = '0')
  let fraction := if k = 0 ∨ digits.isEmpty then ['0'] else digits.reverse
  toString whole ++ "." ++ String.ofList fraction

/-- A finite double. Its bits give a sign, a significand `m` and a power of two. -/
def realText (x : Float) : String :=
  let bits := x.toBits.toNat
  let sign := if bits / Nat.pow 2 63 = 1 then "-" else ""
  let e := bits / Nat.pow 2 52 % Nat.pow 2 11
  let f := bits % Nat.pow 2 52
  let (m, q) := if e = 0 then (f, 1) else (f + Nat.pow 2 52, e)
  sign ++
    if 1075 ≤ q then toString (m * Nat.pow 2 (q - 1075)) ++ ".0" else binaryFraction m (1075 - q)

/-! ## Texts -/

/-- A UTF-16 code unit as an escape. -/
def unitEscape (n : Nat) : List Char :=
  ['\\', 'u', Text.hexDigit (n / 4096 % 16), Text.hexDigit (n / 256 % 16),
    Text.hexDigit (n / 16 % 16), Text.hexDigit (n % 16)]

/-- A character of a string in ASCII. -/
def asciiChar (c : Char) : List Char :=
  let n := c.toNat
  if n < 0x7F then Text.jsonChar c
  else if n < 0x10000 then unitEscape n
  else unitEscape (0xD800 + (n - 0x10000) / 0x400) ++ unitEscape (0xDC00 + (n - 0x10000) % 0x400)

def stringText (s : String) : String :=
  String.ofList ('"' :: s.toList.flatMap asciiChar ++ ['"'])

/-! ## Values -/

mutual

def render : Json → String
  | .null => "null"
  | .bool true => "true"
  | .bool false => "false"
  | .integer n => toString n
  | .real x => realText x
  | .string s => stringText s
  | .array items => "[" ++ String.intercalate "," (renderItems items) ++ "]"
  | .object members => "\x7b" ++ String.intercalate "," (renderMembers members) ++ "\x7d"

def renderItems : List Json → List String
  | [] => []
  | v :: vs => render v :: renderItems vs

/-- The texts of the members of an object, each with its key. -/
def renderMembers : List (String × Json) → List String
  | [] => []
  | (k, v) :: ms => (stringText k ++ ":" ++ render v) :: renderMembers ms

end

end SvelteTypings.Json
