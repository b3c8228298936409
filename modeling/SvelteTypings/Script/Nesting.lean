import SvelteTypings.Script.Statement

/-!
# Nesting

Cutting a run of tokens where brackets are balanced. Two notions of depth are in use. *Brackets* are
`()`, `[]` and `{}`, counted without regard to their kind. At the *top level* of a type, `<` and `>`
count as brackets too, and a closing bracket without an opening one is passed over.

Every function gives the parts themselves, so that nothing is lost but the token cut at.
-/

namespace SvelteTypings.Script

/-- Puts a token in front of the first part. -/
def consBefore (t : Token) (parts : List Token × List Token) : List Token × List Token :=
  (t :: parts.1, parts.2)

/-! ## Ends of runs -/

/-- Drops a `;` at the end. -/
def dropSemicolon (ts : List Token) : List Token :=
  if ts.getLast?.any (·.kind = .semicolon) then ts.dropLast else ts

/-- The run before and after the first token that satisfies `p`. -/
def cutAt? (p : Token → Bool) : List Token → Option (List Token × List Token)
  | [] => none
  | t :: ts => if p t then some ([], ts) else (cutAt? p ts).map (consBefore t)

/-- The run after the last token that satisfies `p`. -/
def afterLast? (p : Token → Bool) (ts : List Token) : Option (List Token) :=
  if ts.any p then some (ts.reverse.takeWhile fun t => !p t).reverse else none

/-! ## Brackets -/

/-- The run up to the bracket that closes `depth` open ones, and the run after it. -/
def cutClosing? (depth : Nat) : List Token → Option (List Token × List Token)
  | [] => none
  | t :: ts =>
    if t.kind.opens then (cutClosing? (depth + 1) ts).map (consBefore t)
    else if t.kind.closes then
      match depth with
      | 0 => none
      | 1 => some ([], ts)
      | depth + 2 => (cutClosing? (depth + 1) ts).map (consBefore t)
    else (cutClosing? depth ts).map (consBefore t)

/-- The run up to the `>` that closes `angles` open `<`, that one included, and the run after it.
What stands in brackets does not count. -/
def cutAngle? (angles brackets : Nat) : List Token → Option (List Token × List Token)
  | [] => none
  | t :: ts =>
    if t.kind.opens then (cutAngle? angles (brackets + 1) ts).map (consBefore t)
    else if t.kind.closes then (cutAngle? angles (brackets - 1) ts).map (consBefore t)
    else if t.kind = .less ∧ brackets = 0 then
      (cutAngle? (angles + 1) brackets ts).map (consBefore t)
    else if t.kind = .greater ∧ brackets = 0 then
      match angles with
      | 0 => none
      | 1 => some ([t], ts)
      | angles + 2 => (cutAngle? (angles + 1) brackets ts).map (consBefore t)
    else (cutAngle? angles brackets ts).map (consBefore t)

/-- How many of the tokens, read from the end, reach back to the bracket that opens a trailing
block. -/
def blockLength? (depth : Nat) : List Token → Option Nat
  | [] => none
  | t :: ts =>
    if t.kind.closes then (blockLength? (depth + 1) ts).map (· + 1)
    else if t.kind.opens then
      match depth with
      | 0 => none
      | 1 => some 1
      | depth + 2 => (blockLength? (depth + 1) ts).map (· + 1)
    else (blockLength? depth ts).map (· + 1)

/-- A run without the block at its end, and that block; the block is empty if the run does not end
in one. -/
def cutBody (ts : List Token) : List Token × List Token :=
  if ts.getLast?.any (·.kind = .closeBrace) then
    match blockLength? 0 ts.reverse with
    | some n => (ts.take (ts.length - n), ts.drop (ts.length - n))
    | none => (ts, [])
  else (ts, [])

/-! ## The top level -/

/-- A bracket that opens, or `<`. -/
def Kind.descends (k : Kind) : Bool := k.opens || k = .less

/-- A bracket that closes, or `>`. -/
def Kind.ascends (k : Kind) : Bool := k.closes || k = .greater

/-- The depth after a token. -/
def depthAfter (depth : Nat) (k : Kind) : Nat :=
  if k.descends then depth + 1 else if k.ascends then depth - 1 else depth

/-- The runs before and after the first token of a kind at the top level. -/
def cutTop? (k : Kind) (depth : Nat) : List Token → Option (List Token × List Token)
  | [] => none
  | t :: ts =>
    if t.kind = k ∧ depth = 0 then some ([], ts)
    else (cutTop? k (depthAfter depth t.kind) ts).map (consBefore t)

/-- Puts a token in front of the first run. -/
def consRun (t : Token) : List (List Token) → List (List Token)
  | [] => [[t]]
  | r :: rs => (t :: r) :: rs

/-- The runs between the tokens of a kind at the top level. -/
def splitTop (k : Kind) (depth : Nat) : List Token → List (List Token)
  | [] => [[]]
  | t :: ts =>
    if t.kind = k ∧ depth = 0 then [] :: splitTop k depth ts
    else consRun t (splitTop k (depthAfter depth t.kind) ts)

end SvelteTypings.Script
