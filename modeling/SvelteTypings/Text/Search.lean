/-!
# Searching a text

Cutting a text at the first occurrence of a pattern, and at the last one.
-/

namespace SvelteTypings.Text

/-- What follows `pat` at the start of a text. -/
def afterStart? : List Char → List Char → Option (List Char)
  | [], cs => some cs
  | p :: ps, c :: cs => if p = c then afterStart? ps cs else none
  | _ :: _, [] => none

theorem afterStart?_eq_some_iff (pat cs rest : List Char) :
    afterStart? pat cs = some rest ↔ cs = pat ++ rest := by
  induction pat generalizing cs with
  | nil => simp [afterStart?, eq_comm]
  | cons p ps ih =>
    cases cs with
    | nil => simp [afterStart?]
    | cons c cs =>
      by_cases h : p = c
      · simp [afterStart?, h, ih]
      · simp [afterStart?, h, Ne.symm h]

/-- The text before and after the first occurrence of `pat`. -/
def cut? (pat : List Char) (cs : List Char) : Option (List Char × List Char) :=
  match afterStart? pat cs with
  | some rest => some ([], rest)
  | none =>
    match cs with
    | [] => none
    | c :: cs => (cut? pat cs).map fun (before, after) => (c :: before, after)

/-- A cut loses nothing but the pattern. -/
theorem eq_append_of_cut? {pat cs before after : List Char}
    (h : cut? pat cs = some (before, after)) : cs = before ++ pat ++ after := by
  induction cs generalizing before with
  | nil =>
    unfold cut? at h
    split at h
    · next hr => simp_all [afterStart?_eq_some_iff]
    · simp at h
  | cons c cs ih =>
    unfold cut? at h
    split at h
    · next hr => simp_all [afterStart?_eq_some_iff]
    · simp only [Option.map_eq_some_iff, Prod.mk.injEq, Prod.exists] at h
      obtain ⟨b, a, hcut, rfl, rfl⟩ := h
      simp [ih hcut]

/-- A cut leaves less, as something is cut out. -/
theorem length_lt_of_cut? {pat cs before after : List Char} (hpat : pat ≠ [])
    (h : cut? pat cs = some (before, after)) : after.length < cs.length := by
  have hpos := List.length_pos_iff.2 hpat
  rw [eq_append_of_cut? h]
  simp only [List.length_append]
  omega

def containsText (pat cs : List Char) : Bool := (cut? pat cs).isSome

/-- The text before and after the last occurrence of `pat`. -/
def cutLast? (pat cs : List Char) : Option (List Char × List Char) :=
  (cut? pat.reverse cs.reverse).map fun (after, before) => (before.reverse, after.reverse)

end SvelteTypings.Text
