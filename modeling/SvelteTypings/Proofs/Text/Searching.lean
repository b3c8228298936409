import Mathlib.Data.List.Infix
import SvelteTypings.Text.Search

/-!
# The first occurrence of a text

A cut is told by what it leaves: the part in front does not hold the pattern (`cut?_eq_some_iff`).
This takes a pattern that does not overlap with itself, as the ends of tags and comments, which have
their last character nowhere else.
-/

namespace SvelteTypings.Text

variable {pat cs before after : List Char}

/-- The last character of a pattern occurs nowhere else in it. -/
def EndsOnce (pat : List Char) : Prop := ∃ front last, pat = front ++ [last] ∧ last ∉ front

theorem afterStart?_eq_none_iff : afterStart? pat cs = none ↔ ¬ pat <+: cs := by
  rw [Option.eq_none_iff_forall_ne_some]
  constructor
  · rintro h ⟨rest, hrest⟩
    exact h rest ((afterStart?_eq_some_iff _ _ _).2 hrest.symm)
  · rintro h rest hrest
    exact h ⟨rest, ((afterStart?_eq_some_iff _ _ _).1 hrest).symm⟩

theorem cut?_of_isPrefix (h : pat <+: cs) : cut? pat cs = some ([], cs.drop pat.length) := by
  obtain ⟨rest, rfl⟩ := h
  have hstart := (afterStart?_eq_some_iff pat (pat ++ rest) rest).2 rfl
  rw [cut?.eq_def, hstart, List.drop_left]

theorem cut?_cons (c : Char) (h : ¬ pat <+: c :: cs) :
    cut? pat (c :: cs) = (cut? pat cs).map fun (before, after) => (c :: before, after) := by
  rw [cut?, afterStart?_eq_none_iff.2 h]

theorem cut?_eq_none_iff : cut? pat cs = none ↔ ¬ pat <:+: cs := by
  induction cs with
  | nil =>
    by_cases h : pat <+: []
    · simp [cut?_of_isPrefix h, h.isInfix]
    · rw [cut?, afterStart?_eq_none_iff.2 h, List.infix_nil, ← List.prefix_nil]
      simpa using h
  | cons c cs ih =>
    by_cases h : pat <+: c :: cs
    · simp [cut?_of_isPrefix h, h.isInfix]
    · rw [cut?_cons c h, Option.map_eq_none_iff, ih, List.infix_cons_iff]
      simp [h]

theorem containsText_iff : containsText pat cs ↔ pat <:+: cs := by
  rw [containsText, Option.isSome_iff_ne_none, ne_eq, cut?_eq_none_iff, Classical.not_not]

/-- The pattern does not occur in front of its first occurrence. -/
theorem not_isInfix_of_cut? (hpat : pat ≠ []) (h : cut? pat cs = some (before, after)) :
    ¬ pat <:+: before := by
  induction cs generalizing before with
  | nil =>
    have hnone : cut? pat [] = none := cut?_eq_none_iff.2 (by simpa using hpat)
    exact absurd (hnone.symm.trans h) (by simp)
  | cons c cs ih =>
    by_cases hstart : pat <+: c :: cs
    · rw [cut?_of_isPrefix hstart] at h
      obtain ⟨rfl, -⟩ := Prod.mk.inj (Option.some.inj h)
      simpa using hpat
    · rw [cut?_cons c hstart] at h
      obtain ⟨⟨b, a⟩, hcut, heq⟩ := Option.map_eq_some_iff.1 h
      obtain ⟨rfl, rfl⟩ := Prod.mk.inj heq
      rw [List.infix_cons_iff, not_or]
      refine ⟨fun hprefix => hstart ?_, ih hcut⟩
      rw [eq_append_of_cut? hcut, List.append_assoc, ← List.cons_append]
      exact hprefix.trans (List.prefix_append _ _)

theorem EndsOnce.ne_nil (h : EndsOnce pat) : pat ≠ [] := by
  obtain ⟨front, last, rfl, -⟩ := h
  exact List.concat_ne_nil _ _

/-- A pattern begins in front of another occurrence only if it ends in front of it, too. -/
theorem EndsOnce.isPrefix_of_isPrefix_append (hpat : EndsOnce pat) (hbefore : before ≠ [])
    (h : pat <+: before ++ (pat ++ after)) : pat <+: before := by
  obtain ⟨front, last, rfl, hlast⟩ := hpat
  have hpos := List.length_pos_iff.2 hbefore
  by_cases hle : (front ++ [last]).length ≤ before.length
  · exact List.prefix_of_prefix_length_le h (List.prefix_append _ _) hle
  · -- the last character would stand in the second occurrence, before its end
    rw [List.length_append, List.length_singleton] at hle
    have hindex : front.length - before.length < (front ++ [last]).length := by
      rw [List.length_append, List.length_singleton]
      omega
    have hget := h.getElem (i := front.length) (by simp)
    rw [List.getElem_concat_length rfl, List.getElem_append_right (by omega),
      List.getElem_append_left hindex, List.getElem_append_left (by omega)] at hget
    exact absurd (hget ▸ List.getElem_mem _) hlast

/-- **A text is cut at the first occurrence.** -/
theorem cut?_eq_some_iff (hpat : EndsOnce pat) :
    cut? pat cs = some (before, after) ↔ cs = before ++ (pat ++ after) ∧ ¬ pat <:+: before := by
  constructor
  · intro h
    exact ⟨by rw [← List.append_assoc, ← eq_append_of_cut? h], not_isInfix_of_cut? hpat.ne_nil h⟩
  · rintro ⟨rfl, hbefore⟩
    induction before with
    | nil => rw [List.nil_append, cut?_of_isPrefix (List.prefix_append _ _), List.drop_left]
    | cons c before ih =>
      rw [List.infix_cons_iff, not_or] at hbefore
      have hstart : ¬ pat <+: c :: (before ++ (pat ++ after)) := fun h =>
        hbefore.1 (hpat.isPrefix_of_isPrefix_append (List.cons_ne_nil c before) h)
      rw [List.cons_append, cut?_cons c hstart, ih hbefore.2, Option.map_some]

/-- A text is cut at the first occurrence of a character. -/
theorem cut?_singleton_eq_some_iff {c : Char} :
    cut? [c] cs = some (before, after) ↔ cs = before ++ c :: after ∧ c ∉ before := by
  have hends : EndsOnce [c] := ⟨[], c, rfl, List.not_mem_nil⟩
  rw [cut?_eq_some_iff hends, List.singleton_infix_iff]
  rfl

end SvelteTypings.Text
