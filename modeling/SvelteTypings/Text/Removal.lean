/-!
# Removing parts of a text

`removeAll` takes the parts that a matcher finds out of a text, from left to right. A matcher looks
at the text from one place on and says how many characters of it are to go.
-/

namespace SvelteTypings.Text

/-- The number of characters that are matched at the start of a text, `none` if nothing is. -/
abbrev Matcher := List Char → Option Nat

/-- Removes what is matched, after `skip` characters of a match that are still to go. -/
def removeFrom (m : Matcher) : Nat → List Char → List Char
  | _, [] => []
  | skip + 1, _ :: cs => removeFrom m skip cs
  | 0, c :: cs =>
    match m (c :: cs) with
    | some (n + 1) => removeFrom m n cs
    | _ => c :: removeFrom m 0 cs

def removeAll (m : Matcher) (cs : List Char) : List Char := removeFrom m 0 cs

/-- What is to be skipped leaves no trace. -/
theorem removeFrom_eq_drop (m : Matcher) (n : Nat) (cs : List Char) :
    removeFrom m n cs = removeFrom m 0 (cs.drop n) := by
  induction n generalizing cs with
  | zero => simp
  | succ n ih =>
    cases cs with
    | nil => simp [removeFrom]
    | cons c cs => simp [removeFrom, ih]

/-- A text in which nothing is matched stays as it is. -/
theorem removeAll_eq_self {m : Matcher} (h : ∀ cs, m cs = none) (cs : List Char) :
    removeAll m cs = cs := by
  induction cs with
  | nil => rfl
  | cons c cs ih => simpa [removeAll, removeFrom, h] using ih

end SvelteTypings.Text
