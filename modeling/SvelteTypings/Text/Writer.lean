import SvelteTypings.Text.Blank
import SvelteTypings.Text.Lines
import SvelteTypings.Text.Utf8

/-!
# Writing indented text

A writer appends lines at the current level of indentation. A block of lines is moved there as a
whole: the indentation that all its lines share is taken off, and what one line is indented beyond
another stays.
-/

namespace SvelteTypings.Text

structure Writer where
  text : String
  level : Nat
deriving DecidableEq

namespace Writer

def empty : Writer := ⟨"", 0⟩

def add (w : Writer) (text : String) : Writer := { w with text := w.text ++ text }

def indentation (w : Writer) : String := String.ofList (List.replicate (2 * w.level) ' ')

/-- Appends a line; an empty one is not indented. -/
def addLine (w : Writer) (line : String) : Writer :=
  if line.isEmpty then w.add "\n" else w.add (w.indentation ++ line ++ "\n")

def addLines (w : Writer) (lines : List String) : Writer := lines.foldl addLine w

def indent (w : Writer) : Writer := { w with level := w.level + 1 }

def dedent (w : Writer) : Writer := { w with level := w.level - 1 }

/-! ## Blocks -/

def isBlankLine (line : List Char) : Bool := line.all isBlank

/-- The bytes of the blanks in front of a line. -/
def leading (line : List Char) : Nat := byteLength (line.takeWhile isBlank)

/-- The least indentation of the lines that are not blank. -/
def margin (lines : List (List Char)) : Nat :=
  ((lines.filter fun line => !isBlankLine line).map leading).min?.getD 0

/-- The text after the first `n` bytes, if no character stands across. -/
def dropBytes? : Nat → List Char → Option (List Char)
  | 0, cs => some cs
  | _ + 1, [] => none
  | n + 1, c :: cs => if c.utf8Size ≤ n + 1 then dropBytes? (n + 1 - c.utf8Size) cs else none

/-- A line of a block without the margin and the blanks at its end. -/
def shifted (margin : Nat) (line : List Char) : List Char :=
  if isBlankLine line then []
  else trimEnd ((dropBytes? margin line).getD (trimStart line))

/-- Appends the lines of a block, moved to the current level. -/
def addBlock (w : Writer) (block : List Char) : Writer :=
  let ls := lines block
  let m := margin ls
  w.addLines (ls.map fun line => String.ofList (shifted m line))

end Writer

end SvelteTypings.Text
