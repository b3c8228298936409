/-!
# White space

The characters with the Unicode property White_Space, and trimming. A text is handled as its list
of characters; the `String` versions at the end are the ones other modules mostly call.
-/

namespace SvelteTypings.Text

/-- A character with the Unicode property White_Space. -/
def isBlank (c : Char) : Bool :=
  let n := c.toNat
  (9 ≤ n && n ≤ 13) || n == 0x20 || n == 0x85 || n == 0xA0 || n == 0x1680 ||
    (0x2000 ≤ n && n ≤ 0x200A) || n == 0x2028 || n == 0x2029 || n == 0x202F || n == 0x205F ||
    n == 0x3000

/-- Every ASCII blank of the core library is a blank here. -/
theorem isBlank_of_isWhitespace {c : Char} (h : c.isWhitespace) : isBlank c := by
  simp only [Char.isWhitespace, Bool.or_eq_true, decide_eq_true_eq] at h
  rcases h with ((rfl | rfl) | rfl) | rfl <;> decide

/-! ## Trimming -/

/-- Drops the characters at the end that satisfy `p`. -/
def dropEndWhile (p : Char → Bool) (cs : List Char) : List Char :=
  (cs.reverse.dropWhile p).reverse

def trimStart (cs : List Char) : List Char := cs.dropWhile isBlank

def trimEnd (cs : List Char) : List Char := dropEndWhile isBlank cs

def trim (cs : List Char) : List Char := trimEnd (trimStart cs)

end SvelteTypings.Text

namespace SvelteTypings

/-- The text without the blanks at both ends. -/
def trimmed (s : String) : String := String.ofList (Text.trim s.toList)

/-- The text without the blanks at its end. -/
def trimmedEnd (s : String) : String := String.ofList (Text.trimEnd s.toList)

end SvelteTypings
