import SvelteTypings.Proofs.Path.Map
import SvelteTypings.Proofs.Path.Rooted
import SvelteTypings.Proofs.Text.Utf8

/-!
# Two spellings of one path

A suffix is appended to bytes and stripped from bytes, while paths are compared by their components.
So of two spellings of one path only one may end in a suffix: `a.tsx` does and `a.tsx/` does not.
This cannot happen to a path whose last segment names something (`hasSuffix_of_same`). And if two
spellings do have a suffix, then without it they are two spellings of one path again, with the same
last segment (`alike_of_same_appendSuffix`), so they are shown with the same ending
(`Alike.isSuffix_display_iff`).
-/

namespace SvelteTypings.Path

open Text (encode decodeLossy)

/-! ## The last segment -/

/-- The path ends in a segment that names nothing: a separator or a `.` stands at its end. -/
def EndsVoid (p : Path) : Prop := ∃ front last, split p.bytes = front ++ [last] ∧ isVoid last

variable {p q : Path} {s : String} {front front' : List Segment} {last last' : Segment}

theorem components_of_split (hsplit : split p.bytes = front ++ [last])
    (hlast : front = [] → last ≠ [dot]) :
    p.components = (leadOf front).components ++ front.filterMap Component.ofSegment? ++
      (Component.ofSegment? last).toList := by
  rw [components_eq_split, lead_of_split hsplit hlast, hsplit, List.filterMap_append,
    ← List.append_assoc]
  cases hcomponent : Component.ofSegment? last <;> simp [hcomponent]

/-- A spelling of a path with a suffix has the suffix itself, unless it ends in a void segment. -/
theorem hasSuffix_of_same (hs : IsSuffix (encode s)) (h : p.same (q.appendSuffix s))
    (hp : ¬ p.EndsVoid) : p.hasSuffix s := by
  obtain ⟨front, last, hsplit⟩ := exists_split_eq p.bytes
  obtain ⟨front', last', hsplit'⟩ := exists_split_eq q.bytes
  have hvoid : isVoid last = false := by
    rw [← Bool.not_eq_true]
    exact fun hvoid => hp ⟨front, last, hsplit, hvoid⟩
  have hdot : last ≠ [dot] := by
    rintro rfl
    exact absurd hvoid (by decide)
  have hcomponent : Component.ofSegment? last =
      some (if last = [dot, dot] then .parent else .name last) := by
    rw [Component.ofSegment?, if_neg (by rw [hvoid]; decide)]
    split <;> rfl
  -- both paths have the same last component, and that of the suffixed one is a name
  rw [same_iff, components_of_split hsplit fun _ => hdot, components_appendSuffix hsplit' hs,
    hcomponent] at h
  have hname := (List.append_inj' h rfl).2
  obtain rfl : last = last' ++ encode s := by
    split at hname
    · exact absurd hname (by simp)
    · simpa using hname
  have hbytes : p.bytes = joined (front ++ [last']) ++ encode s := by
    rw [← joined_append_last, ← hsplit, joined_split]
  rw [hasSuffix_iff, hbytes]
  exact List.suffix_append _ _

/-- A name with a suffix is not void. -/
theorem not_endsVoid_of_hasSuffix (hs : IsSuffix (encode s)) (h : p.hasSuffix s) : ¬ p.EndsVoid := by
  rintro ⟨front, last, hsplit, hvoid⟩
  obtain ⟨b, hb⟩ := hasSuffix_iff.1 h
  obtain ⟨front', last', hsplit'⟩ := exists_split_eq b
  rw [← hb, split_append hsplit' hs.separator_not_mem] at hsplit
  obtain ⟨-, hlast⟩ := List.append_inj' hsplit rfl
  have hname : Component.ofSegment? last = some (.name last) := by
    rw [← List.singleton_inj.1 hlast]
    exact ofSegment?_append hs last'
  rw [Component.ofSegment?, if_pos hvoid] at hname
  exact absurd hname (by simp)

/-! ## Spellings with a suffix -/

theorem eq_nil_of_components_front
    (h : (leadOf front).components ++ front.filterMap Component.ofSegment? = []) : front = [] := by
  cases front with
  | nil => rfl
  | cons t front =>
    obtain ⟨hlead, hnames⟩ := List.append_eq_nil_iff.1 h
    -- a void first segment is a lead, and any other one a component
    by_cases hnil : t = []
    · rw [leadOf, if_pos hnil] at hlead
      exact absurd hlead (by decide)
    · by_cases hdot : t = [dot]
      · rw [leadOf, if_neg hnil, if_pos hdot] at hlead
        exact absurd hlead (by decide)
      · have hvoid : isVoid t = false := by simp [isVoid, hnil, hdot]
        have hne : Component.ofSegment? t ≠ none := by
          rw [Component.ofSegment?, if_neg (by rw [hvoid]; decide)]
          split <;> simp
        obtain ⟨component, hcomponent⟩ := Option.ne_none_iff_exists'.1 hne
        rw [List.filterMap_cons_some hcomponent] at hnames
        exact absurd hnames (by simp)

/-- Two spellings of one path that end in the same segment. -/
inductive Alike : Path → Path → Prop where
  | refl (p : Path) : Alike p p
  | ending {p q : Path} (a b : List UInt8) (last : Segment) (hp : p.bytes = a ++ separator :: last)
      (hq : q.bytes = b ++ separator :: last) (h : p.same q) : Alike p q

theorem startsWith_congr {base : Path} (h : p.same q) : p.startsWith base = q.startsWith base := by
  rw [same_iff] at h
  rw [startsWith, startsWith, h]

theorem Alike.same (h : Alike p q) : p.same q := by
  cases h with
  | refl => exact same_refl p
  | ending a b last hp hq h => exact h

/-- **Spellings with a suffix are spellings without it**, and their last segments are the same. -/
theorem alike_of_same_appendSuffix (hs : IsSuffix (encode s))
    (h : (p.appendSuffix s).same (q.appendSuffix s)) : Alike p q := by
  obtain ⟨front, last, hsplit⟩ := exists_split_eq p.bytes
  obtain ⟨front', last', hsplit'⟩ := exists_split_eq q.bytes
  obtain ⟨hfront, rfl⟩ := (appendSuffix_same_iff hsplit hsplit' hs).1 h
  have hp : p.bytes = joined (front ++ [last]) := by rw [← hsplit, joined_split]
  have hq : q.bytes = joined (front' ++ [last]) := by rw [← hsplit', joined_split]
  by_cases hnil : front = []
  · -- a single segment is spelled in one way only
    rw [hnil] at hfront hp
    have hnil' : front' = [] := eq_nil_of_components_front hfront.symm
    have heq : p = q := by
      obtain ⟨b⟩ := p
      exact congrArg Path.mk (hp.trans (by rw [hq, hnil']))
    rw [heq]
    exact .refl q
  · have hnil' : front' ≠ [] := by
      rintro rfl
      exact hnil (eq_nil_of_components_front hfront)
    rw [joined_concat hnil] at hp
    rw [joined_concat hnil'] at hq
    refine .ending _ _ last hp hq ?_
    rw [same_iff, components_of_split hsplit fun h => absurd h hnil,
      components_of_split hsplit' fun h => absurd h hnil', hfront]

/-! ## Endings -/

/-- An ending without `x` lies behind the last `x`. -/
theorem isSuffix_append_cons_iff {α : Type} {x : α} {e a l : List α} (he : x ∉ e) :
    e <:+ a ++ x :: l ↔ e <:+ l := by
  refine ⟨?_, ?_⟩
  · intro h
    rcases List.suffix_or_suffix_of_suffix h (List.suffix_append a (x :: l)) with h | h
    · rcases List.suffix_cons_iff.1 h with rfl | h
      · exact absurd List.mem_cons_self he
      · exact h
    · exact absurd (h.mem List.mem_cons_self) he
  · intro h
    exact (h.trans (List.suffix_cons x l)).trans (List.suffix_append a (x :: l))

/-- How a path is shown ends as its last segment is shown, for an ending within a segment. -/
theorem isSuffix_display_iff {e : List UInt8} (he : separator ∉ e) {a : List UInt8}
    (hp : p.bytes = a ++ separator :: last) :
    e <:+ encode p.display ↔ e <:+ encode (decodeLossy last) := by
  rw [display, hp, Text.encode_decodeLossy_append (by decide)]
  exact isSuffix_append_cons_iff he

theorem Alike.isSuffix_display_iff {e : List UInt8} (h : Alike p q) (he : separator ∉ e) :
    e <:+ encode p.display ↔ e <:+ encode q.display := by
  cases h with
  | refl => exact Iff.rfl
  | ending a b last hp hq _ => rw [Path.isSuffix_display_iff he hp, Path.isSuffix_display_iff he hq]

/-- A text without `/` has no separator among its bytes. -/
theorem separator_not_mem_encode (h : '/' ∉ s.toList) : separator ∉ encode s := by
  rw [Text.mem_encode_ascii_iff (by decide)]
  rintro ⟨c, hc, hvalue⟩
  have hslash : c = '/' := Char.toNat_inj.1 hvalue
  exact h (hslash ▸ hc)

/-- What is shown with an ending of its own, one that no void segment and no `..` has, names
something at its end. So if the path is rooted with a suffix, it is without one. -/
theorem isRooted_of_isSuffix_display {e : List UInt8} (hs : IsSuffix (encode s))
    (hp : IsRooted (p.appendSuffix s)) (he : separator ∉ e) (hne : e ≠ [])
    (hlast : e.getLast? ≠ some dot) (hshown : e <:+ encode p.display) : IsRooted p := by
  obtain ⟨front, last, hfront, hseparator, rfl⟩ := exists_written_of_isRooted hs hp
  -- whatever stands in front of the last segment ends in a separator
  obtain ⟨a, ha⟩ : ∃ a, (written true (front ++ [last])).bytes = a ++ separator :: last := by
    by_cases hnil : front = []
    · exact ⟨[], by rw [hnil]; rfl⟩
    · exact ⟨separator :: joined front, by rw [written, joined_concat hnil]; rfl⟩
  rw [isSuffix_display_iff he ha] at hshown
  have hends : ∀ bytes : List UInt8, (∀ b ∈ bytes, b = dot) → last ≠ bytes := by
    rintro bytes hdots rfl
    rw [Text.encode_decodeLossy_of_ascii fun b hb => by rw [hdots b hb]; decide] at hshown
    obtain ⟨b, hb⟩ := Option.ne_none_iff_exists'.1 (mt List.getLast?_eq_none_iff.1 hne)
    have hdot : b = dot := hdots b (hshown.mem (List.mem_of_getLast? hb))
    exact hlast (hdot ▸ hb)
  have hplain : Plain last := by
    refine ⟨?_, hseparator⟩
    simp [isVoid, hends [] (by simp), hends [dot] (by simp)]
  have hup : last ≠ upward := hends [dot, dot] (by simp)
  have htidy : Tidy (front ++ [last]) := tidy_concat hfront hplain fun _ => hup
  exact ⟨⟨true, _, htidy, rfl⟩, isAbsolute_written htidy.plain⟩

end SvelteTypings.Path
