/-!
# Lines

A line ends at a newline or at the end of the text. A carriage return right before the newline
belongs to the line end, and a text that ends in a newline has no empty line after it.
-/

namespace SvelteTypings.Text

/-- Puts a character in front of the first line. -/
def consLine (c : Char) : List (List Char) → List (List Char)
  | [] => [[c]]
  | line :: lines => (c :: line) :: lines

/-- The lines of a text, without their ends. -/
def lines : List Char → List (List Char)
  | [] => []
  | '\n' :: cs => [] :: lines cs
  | '\r' :: '\n' :: cs => [] :: lines cs
  | c :: cs => consLine c (lines cs)

/-- Only the empty text has no line. -/
theorem lines_eq_nil_iff (cs : List Char) : lines cs = [] ↔ cs = [] := by
  fun_cases lines cs
  · simp
  · simp
  · simp
  · rename_i c cs _ _
    cases h : lines cs <;> simp [consLine]

end SvelteTypings.Text

namespace SvelteTypings

/-- The lines of a text, without their ends. -/
def linesOf (s : String) : List String := (Text.lines s.toList).map String.ofList

/-- The lines of a text joined by newlines. -/
def joinLines (lines : List String) : String := String.intercalate "\n" lines

end SvelteTypings
