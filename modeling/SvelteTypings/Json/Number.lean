import SvelteTypings.Json.Basic

/-!
# JSON numbers

A number without fraction and exponent that fits in 64 bits stays an integer. Every other number
becomes a double: as many leading digits as fit in 64 bits are taken as they are, the rest is
counted into the exponent, and the significand is then scaled by a power of ten. A number beyond the
largest double is refused; minus zero is a double.
-/

namespace SvelteTypings.Json

/-- The largest significand that is kept exactly. -/
def maxSignificand : Nat := Nat.pow 2 64 - 1

/-- The largest exponent that is read. -/
def maxExponent : Nat := Nat.pow 2 31 - 1

/-- The largest power of ten that a double holds. -/
def maxPower : Nat := 308

def powerOfTen (n : Nat) : Float := Float.ofScientific 1 false n

/-- The significand as a double. -/
def Float.ofSignificand (n : Nat) : Float := n.toUInt64.toFloat

def digitValue (c : Char) : Nat := c.toNat - 0x30

/-! ## Scaling -/

/-- `x` divided by ten to the power `n`, in steps of the largest power. -/
def scaleDown (x : Float) (n : Nat) : Float :=
  if n ≤ maxPower then x / powerOfTen n
  else if x == 0 then x
  else scaleDown (x / powerOfTen maxPower) (n - maxPower)
termination_by n
decreasing_by simp only [maxPower] at *; omega

/-- `x` times ten to the power `n`, if that is a double. -/
def scaleUp? (x : Float) (n : Nat) : Option Float :=
  if n ≤ maxPower then
    let y := x * powerOfTen n
    if y.isInf then none else some y
  else if x == 0 then some x
  else none

/-- The double for a significand and a power of ten, if there is one. -/
def scaled? (negative : Bool) (significand : Nat) (exponent : Int) : Option Json :=
  let x := Float.ofSignificand significand
  let y? := if 0 ≤ exponent then scaleUp? x exponent.toNat else some (scaleDown x exponent.natAbs)
  y?.map fun y => .real (if negative then -y else y)

/-! ## Reading digits -/

/-- Takes digits into a significand as long as it stays exact. Gives the significand, how many
digits were taken, and the text that follows. -/
def takeDigits (significand taken : Nat) : List Char → Nat × Nat × List Char
  | [] => (significand, taken, [])
  | c :: cs =>
    if c.isDigit ∧ significand * 10 + digitValue c ≤ maxSignificand then
      takeDigits (significand * 10 + digitValue c) (taken + 1) cs
    else (significand, taken, c :: cs)

def exponentOf (digits : List Char) : Option Nat :=
  digits.foldl (fun n? c => n?.bind fun n =>
    let n := n * 10 + digitValue c
    if n ≤ maxExponent then some n else none) (some 0)

/-- A number as far as it is read: the inner `none` is a number without a double. -/
abbrev Reading := Option (Option Json × List Char)

/-- Reads the exponent, after its letter. -/
def readExponent (negative : Bool) (significand : Nat) (exponent : Int) (cs : List Char) :
    Reading :=
  let (down, cs) := match cs with
    | '+' :: cs => (false, cs)
    | '-' :: cs => (true, cs)
    | cs => (false, cs)
  let digits := cs.takeWhile Char.isDigit
  let rest := cs.dropWhile Char.isDigit
  if digits.isEmpty then none
  else match exponentOf digits with
    | some n =>
      some (scaled? negative significand (if down then exponent - n else exponent + n), rest)
    | none =>
      if significand ≠ 0 ∧ ¬down then some (none, rest)
      else some (some (.real (if negative then -0.0 else 0.0)), rest)

def readScale (negative : Bool) (significand : Nat) (exponent : Int) (cs : List Char) : Reading :=
  match cs with
  | 'e' :: cs => readExponent negative significand exponent cs
  | 'E' :: cs => readExponent negative significand exponent cs
  | cs => some (scaled? negative significand exponent, cs)

/-- Reads the digits after the point. Those that no longer fit are passed over. -/
def readFraction (negative : Bool) (significand : Nat) (exponent : Int) (cs : List Char) :
    Reading :=
  if (cs.takeWhile Char.isDigit).isEmpty then none
  else
    let (significand, taken, rest) := takeDigits significand 0 cs
    readScale negative significand (exponent - taken) (rest.dropWhile Char.isDigit)

def integerValue (negative : Bool) (significand : Nat) : Json :=
  if ¬negative then .integer significand
  else if 0 < significand ∧ significand ≤ Nat.pow 2 63 then .integer (-significand)
  else .real (-Float.ofSignificand significand)

def readUnsigned (negative : Bool) (cs : List Char) : Reading :=
  match cs with
  | '0' :: c :: rest =>
    if c.isDigit then none
    else if c = '.' then readFraction negative 0 0 rest
    else if c = 'e' ∨ c = 'E' then readExponent negative 0 0 rest
    else some (some (integerValue negative 0), c :: rest)
  | c :: _ =>
    if ¬c.isDigit then none
    else
      let (significand, _, rest) := takeDigits 0 0 cs
      let exponent := (rest.takeWhile Char.isDigit).length
      match rest.dropWhile Char.isDigit with
      | '.' :: rest => readFraction negative significand exponent rest
      | rest =>
        if exponent = 0 ∧ rest.head? ≠ some 'e' ∧ rest.head? ≠ some 'E' then
          some (some (integerValue negative significand), rest)
        else readScale negative significand exponent rest
  | [] => none

/-- Reads a number and gives the text after it. -/
def readNumber (cs : List Char) : Reading :=
  match cs with
  | '-' :: cs => readUnsigned true cs
  | cs => readUnsigned false cs

end SvelteTypings.Json
