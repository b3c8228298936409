import SvelteTypings.Text.Removal

/-!
# Parts taken out of a text

What `removeAll` leaves of a text, without a matcher: from left to right each part is taken out
where the first one begins, and all else stays (`strips_iff`). A text in which no part is left open
can be handled apart from what follows it (`removeAll_append`).
-/

namespace SvelteTypings.Text

variable {m : Matcher} {isPart opens : List Char → Prop} {c : Char} {p cs out xs ys : List Char}

/-- From left to right, the parts of the first text are taken out, and the second is left. -/
inductive Strips (isPart : List Char → Prop) : List Char → List Char → Prop
  | nil : Strips isPart [] []
  | part {p cs out : List Char} : isPart p → Strips isPart cs out → Strips isPart (p ++ cs) out
  | keep {c : Char} {cs out : List Char} : (∀ p, isPart p → ¬ p <+: c :: cs) →
      Strips isPart cs out → Strips isPart (c :: cs) (c :: out)

/-- A matcher finds the parts of a kind, with their length. -/
structure Finds (m : Matcher) (isPart : List Char → Prop) : Prop where
  ne_nil : ∀ {p}, isPart p → p ≠ []
  eq_some_iff : ∀ {cs n}, m cs = some n ↔ ∃ p, isPart p ∧ p <+: cs ∧ p.length = n

namespace Finds

theorem removeAll_part (h : Finds m isPart) (hp : isPart p) (cs : List Char) :
    removeAll m (p ++ cs) = removeAll m cs := by
  obtain ⟨c, p, rfl⟩ := List.exists_cons_of_ne_nil (h.ne_nil hp)
  have hm : m (c :: (p ++ cs)) = some (p.length + 1) :=
    h.eq_some_iff.2 ⟨c :: p, hp, List.prefix_append _ _, rfl⟩
  rw [List.cons_append, removeAll, removeFrom, hm]
  show removeFrom m p.length (p ++ cs) = _
  rw [removeFrom_eq_drop, List.drop_left, removeAll]

theorem removeAll_keep (h : Finds m isPart) (hkeep : ∀ p, isPart p → ¬ p <+: c :: cs) :
    removeAll m (c :: cs) = c :: removeAll m cs := by
  have hm : m (c :: cs) = none := by
    rw [Option.eq_none_iff_forall_ne_some]
    intro n hn
    obtain ⟨p, hp, hprefix, -⟩ := h.eq_some_iff.1 hn
    exact hkeep p hp hprefix
  rw [removeAll, removeFrom, hm]
  rfl

theorem removeAll_of_strips (h : Finds m isPart) (hout : Strips isPart cs out) :
    removeAll m cs = out := by
  induction hout with
  | nil => rfl
  | part hp _ ih => rw [h.removeAll_part hp, ih]
  | keep hkeep _ ih => rw [h.removeAll_keep hkeep, ih]

theorem strips_removeAll (h : Finds m isPart) (cs : List Char) :
    Strips isPart cs (removeAll m cs) := by
  by_cases hpart : ∃ p, isPart p ∧ p <+: cs
  · obtain ⟨p, hp, rest, rfl⟩ := hpart
    have hlt : rest.length < (p ++ rest).length := by
      have := List.length_pos_iff.2 (h.ne_nil hp)
      rw [List.length_append]
      omega
    rw [h.removeAll_part hp]
    exact .part hp (h.strips_removeAll rest)
  · cases cs with
    | nil => exact .nil
    | cons c cs =>
      have hkeep : ∀ p, isPart p → ¬ p <+: c :: cs := fun p hp hprefix => hpart ⟨p, hp, hprefix⟩
      rw [h.removeAll_keep hkeep]
      exact .keep hkeep (h.strips_removeAll cs)
termination_by cs.length

/-- **What is left of a text** without its parts. -/
theorem strips_iff (h : Finds m isPart) : Strips isPart cs out ↔ removeAll m cs = out :=
  ⟨h.removeAll_of_strips, fun heq => heq ▸ h.strips_removeAll cs⟩

end Finds

/-! ## Texts with nothing left open -/

/-- From left to right, each part of a text that is opened is closed. -/
inductive Closes (isPart opens : List Char → Prop) : List Char → Prop
  | nil : Closes isPart opens []
  | part {p cs : List Char} : isPart p → Closes isPart opens cs → Closes isPart opens (p ++ cs)
  | keep {c : Char} {cs : List Char} : ¬ opens (c :: cs) → Closes isPart opens cs →
      Closes isPart opens (c :: cs)

/-- Where nothing is opened, nothing is left open. -/
theorem Closes.append_left (hys : Closes isPart opens ys)
    (hxs : ∀ zs, zs <:+ xs → zs ≠ [] → ¬ opens (zs ++ ys)) : Closes isPart opens (xs ++ ys) := by
  induction xs with
  | nil => exact hys
  | cons c xs ih =>
    exact .keep (hxs _ (List.suffix_refl _) (List.cons_ne_nil _ _))
      (ih fun zs hzs => hxs zs (hzs.trans (List.suffix_cons _ _)))

/-- A text in which no part begins stays as it is. -/
theorem Finds.removeAll_eq_self (h : Finds m isPart)
    (hxs : ∀ zs, zs <:+ xs → zs ≠ [] → ∀ p, isPart p → ¬ p <+: zs) : removeAll m xs = xs := by
  induction xs with
  | nil => rfl
  | cons c xs ih =>
    rw [h.removeAll_keep (hxs _ (List.suffix_refl _) (List.cons_ne_nil _ _)),
      ih fun zs hzs => hxs zs (hzs.trans (List.suffix_cons _ _))]

/-- A text in which no part is left open is stripped apart from what follows it. -/
theorem Finds.removeAll_append (h : Finds m isPart)
    (hopens : ∀ {p cs}, isPart p → p <+: cs → opens cs) (hxs : Closes isPart opens xs)
    (hacross : ∀ zs, zs <:+ xs → zs ≠ [] → opens (zs ++ ys) → opens zs) :
    removeAll m (xs ++ ys) = removeAll m xs ++ removeAll m ys := by
  induction hxs with
  | nil => rfl
  | @part p cs hp _ ih =>
    have hcs := ih fun zs hzs => hacross zs (hzs.trans (List.suffix_append _ _))
    rw [List.append_assoc, h.removeAll_part hp, h.removeAll_part hp, hcs]
  | @keep c cs hc _ ih =>
    have hcs := ih fun zs hzs => hacross zs (hzs.trans (List.suffix_cons _ _))
    have hself := hacross (c :: cs) (List.suffix_refl _) (List.cons_ne_nil _ _)
    have hkeep : ∀ p, isPart p → ¬ p <+: c :: cs := fun p hp hprefix => hc (hopens hp hprefix)
    have hbefore : ∀ p, isPart p → ¬ p <+: c :: (cs ++ ys) := fun p hp hprefix =>
      hc (hself (hopens hp hprefix))
    rw [List.cons_append, h.removeAll_keep hbefore, hcs, h.removeAll_keep hkeep, List.cons_append]

end SvelteTypings.Text
