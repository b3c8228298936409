/-!
# Nested brackets

A text in which the brackets `()`, `[]`, `{}` and `<>` nest. The scan keeps the brackets that are
open on a stack, so that each is closed by its own kind. The `>` of an arrow is no bracket.
-/

namespace SvelteTypings.Text

variable {ok : Char → List Char → Bool} {prev c : Char} {stack stack' cs : List Char}

/-- The bracket that closes a bracket. -/
def closing? : Char → Option Char
  | '(' => some ')'
  | '[' => some ']'
  | '{' => some '}'
  | '<' => some '>'
  | _ => none

/-- A character that closes a bracket. The `>` of an arrow closes nothing. -/
def isClosing (prev c : Char) : Bool := c = ')' || c = ']' || c = '}' || (c = '>' && prev ≠ '=')

/-- The brackets that are open behind a character, the innermost first. Each is given by the one
that is to close it. -/
def openBehind? (prev : Char) (stack : List Char) (c : Char) : Option (List Char) :=
  match closing? c with
  | some d => some (d :: stack)
  | none =>
    if isClosing prev c then
      if stack.head? = some c then some stack.tail else none
    else some stack

/-- The brackets of a text nest, where `stack` is open in front of it. Outside brackets `ok` holds
of each character and the text behind it. -/
def nests (ok : Char → List Char → Bool) (prev : Char) (stack : List Char) : List Char → Bool
  | [] => stack.isEmpty
  | c :: cs =>
    (!stack.isEmpty || ok c cs) && (openBehind? prev stack c).any fun stack => nests ok c stack cs

theorem nests_cons_iff :
    nests ok prev stack (c :: cs) ↔
      (stack = [] → ok c cs) ∧ ∃ stack', openBehind? prev stack c = some stack' ∧
        nests ok c stack' cs := by
  rw [nests, Bool.and_eq_true, Option.any_eq_true]
  refine and_congr_left fun _ => ?_
  cases stack <;> simp

/-- What a character does to the brackets that are open: it opens one, it closes the innermost one,
or it is no bracket. -/
theorem openBehind?_cases (h : openBehind? prev stack c = some stack') :
    (∃ d, closing? c = some d ∧ stack' = d :: stack) ∨
      (closing? c = none ∧ isClosing prev c ∧ stack = c :: stack') ∨
      (closing? c = none ∧ isClosing prev c = false ∧ stack' = stack) := by
  rw [openBehind?] at h
  split at h
  · next d hd => exact .inl ⟨d, hd, (Option.some.inj h).symm⟩
  · next hopen =>
    split at h
    · next hclose =>
      split at h
      · next hhead =>
        obtain ⟨rest, rfl⟩ := List.head?_eq_some_iff.1 hhead
        exact .inr (.inl ⟨hopen, hclose, congrArg (c :: ·) (Option.some.inj h)⟩)
      · exact absurd h (by simp)
    · next hclose => exact .inr (.inr ⟨hopen, Bool.eq_false_iff.2 hclose, (Option.some.inj h).symm⟩)

/-! ## Text without brackets -/

def brackets : List Char := ['(', ')', '[', ']', '{', '}', '<', '>']

theorem openBehind?_of_not_mem (prev : Char) (stack : List Char) (h : c ∉ brackets) :
    openBehind? prev stack c = some stack := by
  have hopen : closing? c = none := by
    unfold closing?
    split
    iterate 4 exact absurd (by decide) h
    · rfl
  have hclose : isClosing prev c = false := by
    have hne : ∀ d ∈ brackets, c ≠ d := fun d hd => ne_of_mem_of_not_mem hd h |>.symm
    simp [isClosing, hne ')' (by decide), hne ']' (by decide), hne '}' (by decide),
      hne '>' (by decide)]
  rw [openBehind?, hopen, hclose]
  rfl

/-- A run of characters that are no brackets may stand in front. -/
theorem nests_append {xs : List Char} (hxs : ∀ c ∈ xs, c ∉ brackets)
    (hok : ∀ c ∈ xs, ∀ cs, ok c cs) (h : nests ok (xs.getLastD prev) stack cs) :
    nests ok prev stack (xs ++ cs) := by
  induction xs generalizing prev with
  | nil => exact h
  | cons c xs ih =>
    rw [List.getLastD_cons] at h
    have hrest := ih (fun d hd => hxs d (List.mem_cons_of_mem _ hd))
      (fun d hd => hok d (List.mem_cons_of_mem _ hd)) h
    exact nests_cons_iff.2 ⟨fun _ => hok c List.mem_cons_self _, stack,
      openBehind?_of_not_mem prev stack (hxs c List.mem_cons_self), hrest⟩

/-- What stands in front of a text matters only if it may be half of an arrow. -/
theorem nests_of_prev {prev' : Char} (hprev : prev ≠ '=') (hprev' : prev' ≠ '=')
    (h : nests ok prev stack cs) : nests ok prev' stack cs := by
  cases cs with
  | nil => exact h
  | cons c cs =>
    have hclose : isClosing prev c = isClosing prev' c := by simp [isClosing, hprev, hprev']
    rw [nests, openBehind?, ← hclose]
    exact h

end SvelteTypings.Text
