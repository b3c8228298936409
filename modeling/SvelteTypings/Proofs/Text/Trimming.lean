import Mathlib.Data.List.TakeWhile
import SvelteTypings.Text.Blank
import SvelteTypings.Text.Word

/-!
# Trimming

Blanks around a text do not change what trimming leaves of it (`trim_append_left`,
`trim_append_right`), and trimming does not change which character that is no blank is the last one
(`lastNonBlank?_trim`).
-/

namespace SvelteTypings.Text

variable {p : Char → Bool} {c : Char} {cs xs ys : List Char}

/-! ## Characters -/

theorem isBlank_of_printable (h : 33 ≤ c.toNat ∧ c.toNat ≤ 126) : isBlank c = false := by
  simp [isBlank]
  omega

theorem printable_of_isAlphanum (h : c.isAlphanum) : 33 ≤ c.toNat ∧ c.toNat ≤ 126 := by
  have hrange : ∀ {lo hi : UInt32}, lo ≤ c.val ∧ c.val ≤ hi → 33 ≤ lo.toNat → hi.toNat ≤ 126 →
      33 ≤ c.toNat ∧ c.toNat ≤ 126 := fun h hlo hhi =>
    ⟨Nat.le_trans hlo (UInt32.le_iff_toNat_le.1 h.1),
      Nat.le_trans (UInt32.le_iff_toNat_le.1 h.2) hhi⟩
  rcases Bool.or_eq_true_iff.1 h with h | h
  · rcases Bool.or_eq_true_iff.1 h with h | h
    · exact hrange (of_decide_eq_true h) (by decide) (by decide)
    · obtain ⟨hlo, hhi⟩ := Bool.and_eq_true_iff.1 h
      exact hrange ⟨of_decide_eq_true hlo, of_decide_eq_true hhi⟩ (by decide) (by decide)
  · obtain ⟨hlo, hhi⟩ := Bool.and_eq_true_iff.1 h
    exact hrange ⟨of_decide_eq_true hlo, of_decide_eq_true hhi⟩ (by decide) (by decide)

theorem isBlank_of_isAlphanum (h : c.isAlphanum) : isBlank c = false :=
  isBlank_of_printable (printable_of_isAlphanum h)

theorem isWord_of_isBlank (h : isBlank c) : isWord c = false := by
  by_cases hlt : c.toNat < 0x80
  · have halnum : c.isAlphanum = false := by
      rw [← Bool.not_eq_true]
      intro halnum
      exact absurd h (by simp [isBlank_of_isAlphanum halnum])
    have hne : c ≠ '_' := by
      rintro rfl
      exact absurd h (by decide)
    simp [isWord, hlt, halnum, hne]
  · -- behind ASCII, the blanks are few enough to be looked up in the table
    have hmem : c.toNat ∈ [0x85, 0xA0, 0x1680] ++ List.range' 0x2000 11 ++
        [0x2028, 0x2029, 0x202F, 0x205F, 0x3000] := by
      simp [isBlank] at h
      simp only [List.mem_append, List.mem_range'_1, List.mem_cons, List.not_mem_nil, or_false]
      omega
    have hnone : ∀ n ∈ [0x85, 0xA0, 0x1680] ++ List.range' 0x2000 11 ++
        [0x2028, 0x2029, 0x202F, 0x205F, 0x3000], inRanges wordRanges n = false := by
      decide +kernel
    rw [isWord, if_neg hlt, hnone _ hmem]

/-! ## The end of a text -/

theorem dropEndWhile_eq_self (h : ∀ c ∈ cs.getLast?, p c = false) : dropEndWhile p cs = cs := by
  rw [dropEndWhile, List.reverse_eq_iff]
  cases hcs : cs.reverse with
  | nil => rfl
  | cons c rest =>
    have hc : c ∈ cs.getLast? := by rw [List.getLast?_eq_head?_reverse, hcs]; rfl
    rw [List.dropWhile_cons_of_neg (by simp [h c hc])]

theorem dropEndWhile_append (h : ∀ c ∈ ys, p c) :
    dropEndWhile p (xs ++ ys) = dropEndWhile p xs := by
  rw [dropEndWhile, List.reverse_append,
    List.dropWhile_append_of_pos fun c hc => h c (List.mem_reverse.1 hc)]
  rfl

theorem trimEnd_of_getLast? {d : Char} (h : cs.getLast? = some d) (hd : isBlank d = false) :
    trimEnd cs = cs := by
  refine dropEndWhile_eq_self fun c hc => ?_
  rw [h, Option.mem_some_iff] at hc
  exact hc ▸ hd

theorem dropEndWhile_isPrefix (p : Char → Bool) (cs : List Char) : dropEndWhile p cs <+: cs := by
  have hsuffix : cs.reverse.dropWhile p <:+ cs.reverse := List.dropWhile_suffix _
  have hbegins := List.reverse_prefix.2 hsuffix
  rwa [List.reverse_reverse] at hbegins

theorem trimEnd_isPrefixOf_self (cs : List Char) : trimEnd cs <+: cs := dropEndWhile_isPrefix _ cs

/-- A text that starts with something else than a blank keeps it. -/
theorem trimEnd_cons (hc : isBlank c = false) (cs : List Char) :
    trimEnd (c :: cs) = c :: trimEnd cs := by
  rw [trimEnd, dropEndWhile, trimEnd, dropEndWhile, List.reverse_cons, List.dropWhile_append]
  split
  · next hempty =>
    rw [List.isEmpty_iff.1 hempty, List.dropWhile_cons_of_neg (by simp [hc])]
    rfl
  · rw [List.reverse_append]
    rfl

theorem trimEnd_cons_ne_nil (hc : isBlank c = false) (cs : List Char) : trimEnd (c :: cs) ≠ [] := by
  rw [trimEnd_cons hc]
  exact List.cons_ne_nil _ _

/-! ## Both ends -/

theorem trim_isInfix (cs : List Char) : trim cs <:+: cs :=
  (trimEnd_isPrefixOf_self _).isInfix.trans (List.dropWhile_suffix _).isInfix

theorem trim_append_left (h : ∀ c ∈ xs, isBlank c) : trim (xs ++ cs) = trim cs := by
  rw [trim, trimStart, List.dropWhile_append_of_pos h]
  rfl

theorem trim_append_right (h : ∀ c ∈ ys, isBlank c) : trim (cs ++ ys) = trim cs := by
  rw [trim, trimStart, List.dropWhile_append, trim, trimStart]
  split
  · next hempty =>
    have hys : ys.dropWhile isBlank = [] := List.dropWhile_eq_nil_iff.2 h
    rw [hys, List.isEmpty_iff.1 hempty]
  · exact dropEndWhile_append h

/-- A text without blanks at its ends is left as it is. -/
theorem trim_of_ends (hhead : ∀ c ∈ cs.head?, isBlank c = false)
    (hlast : ∀ c ∈ cs.getLast?, isBlank c = false) : trim cs = cs := by
  have hstart : trimStart cs = cs := by
    cases cs with
    | nil => rfl
    | cons c cs => rw [trimStart, List.dropWhile_cons_of_neg (by simp [hhead c rfl])]
  rw [trim, hstart, trimEnd, dropEndWhile_eq_self hlast]

theorem isBlank_head_of_trim (h : trim cs = cs) (hc : c ∈ cs.head?) : isBlank c = false := by
  obtain ⟨rest, rfl⟩ := List.head?_eq_some_iff.1 hc
  rw [← Bool.not_eq_true]
  intro hblank
  -- the text that is left would be shorter
  have hle : (trim rest).length ≤ rest.length := (trim_isInfix rest).length_le
  rw [← List.singleton_append, trim_append_left (by simpa using hblank)] at h
  rw [h, List.singleton_append, List.length_cons] at hle
  omega

theorem isBlank_getLast_of_trim (h : trim cs = cs) (hc : c ∈ cs.getLast?) : isBlank c = false := by
  obtain ⟨front, rfl⟩ := List.getLast?_eq_some_iff.1 hc
  rw [← Bool.not_eq_true]
  intro hblank
  have hle : (trim front).length ≤ front.length := (trim_isInfix front).length_le
  rw [trim_append_right (by simpa using hblank)] at h
  rw [h, List.length_append, List.length_singleton] at hle
  omega

/-! ## The last character that is no blank -/

def lastNonBlank? (cs : List Char) : Option Char := cs.reverse.find? fun c => !isBlank c

theorem getLast?_trimEnd (cs : List Char) : (trimEnd cs).getLast? = lastNonBlank? cs := by
  rw [trimEnd, dropEndWhile, List.getLast?_reverse, lastNonBlank?,
    List.find?_not_eq_head?_dropWhile]

theorem lastNonBlank?_append (xs ys : List Char) :
    lastNonBlank? (xs ++ ys) = (lastNonBlank? ys).or (lastNonBlank? xs) := by
  rw [lastNonBlank?, List.reverse_append, List.find?_append]
  rfl

theorem lastNonBlank?_cons (c : Char) (cs : List Char) :
    lastNonBlank? (c :: cs) = (lastNonBlank? cs).or (if isBlank c then none else some c) := by
  rw [← List.singleton_append, lastNonBlank?_append]
  cases hc : isBlank c <;> simp [lastNonBlank?, hc]

theorem lastNonBlank?_eq_none (h : ∀ c ∈ cs, isBlank c) : lastNonBlank? cs = none := by
  refine List.find?_eq_none.2 fun c hc => ?_
  simp [h c (List.mem_reverse.1 hc)]

theorem lastNonBlank?_trimStart (cs : List Char) :
    lastNonBlank? (trimStart cs) = lastNonBlank? cs := by
  have hstart : ∀ c ∈ cs.takeWhile isBlank, isBlank c := fun c hc => List.mem_takeWhile_imp hc
  calc lastNonBlank? (trimStart cs)
      = lastNonBlank? (cs.takeWhile isBlank ++ cs.dropWhile isBlank) := by
        rw [lastNonBlank?_append, lastNonBlank?_eq_none hstart, Option.or_none, trimStart]
    _ = lastNonBlank? cs := by rw [List.takeWhile_append_dropWhile]

theorem lastNonBlank?_trimEnd (cs : List Char) : lastNonBlank? (trimEnd cs) = lastNonBlank? cs := by
  have hend : (cs.reverse.takeWhile isBlank).find? (fun c => !isBlank c) = none :=
    List.find?_eq_none.2 fun c hc => by simp [List.mem_takeWhile_imp hc]
  calc lastNonBlank? (trimEnd cs)
      = (cs.reverse.takeWhile isBlank ++ cs.reverse.dropWhile isBlank).find? (!isBlank ·) := by
        rw [List.find?_append, hend, Option.none_or, lastNonBlank?, trimEnd, dropEndWhile,
          List.reverse_reverse]
    _ = lastNonBlank? cs := by rw [List.takeWhile_append_dropWhile, lastNonBlank?]

theorem lastNonBlank?_trim (cs : List Char) : lastNonBlank? (trim cs) = lastNonBlank? cs := by
  rw [trim, lastNonBlank?_trimEnd, lastNonBlank?_trimStart]

end SvelteTypings.Text
