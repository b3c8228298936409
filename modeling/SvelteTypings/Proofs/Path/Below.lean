import SvelteTypings.Proofs.Path.Rooted

/-!
# Taking a path from one root to another

What lies below a rooted path is named by the segments that come after those of the root
(`IsRooted.exists_below`). Joined to another root and with a suffix after it, it lies below that
root (`join_appendSuffix_written`), and it can be told what was joined (`suffixed_injective`). The
part below can be empty, when the path is the root itself: the suffix alone is the name then.
-/

namespace SvelteTypings.Path

variable {absolute : Bool} {ss ss' rest rest' : List Segment}

/-! ## Segments below a root -/

theorem ofPlain_eq_parent_iff {s : Segment} : Component.ofPlain s = .parent ↔ s = upward := by
  rw [Component.ofPlain]
  split
  · next h => simp [h]
  · next h => simp [h]

theorem map_ofPlain_injective (h : ss.map Component.ofPlain = ss'.map Component.ofPlain) :
    ss = ss' :=
  (List.map_inj_right fun _ _ => ofPlain_injective).1 h

theorem dropNamed_zero (h : ∀ s ∈ ss, Plain s) : dropNamed 0 ss = ss := by
  cases ss with
  | nil => rfl
  | cons s ss =>
    rw [dropNamed, (h s List.mem_cons_self).not_void, if_neg Bool.false_ne_true]

theorem dropNamed_append (h : ∀ s ∈ ss, Plain s) (rest : List Segment) :
    dropNamed ss.length (ss ++ rest) = dropNamed 0 rest := by
  induction ss with
  | nil => rfl
  | cons s ss ih =>
    rw [List.forall_mem_cons] at h
    rw [List.cons_append, List.length_cons, dropNamed, h.1.not_void, if_neg Bool.false_ne_true]
    exact ih h.2

theorem startsWith_written_iff (h : ∀ s ∈ ss, Plain s) (h' : ∀ s ∈ ss', Plain s) :
    (written true ss').startsWith (written true ss) ↔ ∃ rest, ss' = ss ++ rest := by
  rw [startsWith, List.isPrefixOf_iff_prefix, components_written h, components_written h']
  refine ⟨?_, ?_⟩
  · rintro ⟨cs, hcs⟩
    -- the components of the longer path split where those of the shorter one end
    obtain ⟨-, hmap⟩ := List.cons.inj hcs
    obtain ⟨front, rest, rfl, hfront, -⟩ := List.map_eq_append_iff.1 hmap.symm
    exact ⟨rest, by rw [map_ofPlain_injective hfront]⟩
  · rintro ⟨rest, rfl⟩
    rw [List.map_append, ← List.append_assoc]
    exact List.prefix_append _ _

theorem below?_written (h : ∀ s ∈ ss ++ rest, Plain s) :
    (written true (ss ++ rest)).below? (written true ss) = some (written false rest) := by
  rw [List.forall_mem_append] at h
  have hall : ∀ s ∈ ss ++ rest, Plain s := List.forall_mem_append.2 h
  have hlength : (written true ss).components.length = ss.length + 1 := by
    rw [components_written h.1]
    simp
  have hdropped : dropNamed ss.length (written true (ss ++ rest)).segments = rest := by
    rw [segments_written hall]
    split
    · next hnil =>
      -- the root has one empty segment, which names nothing
      obtain ⟨rfl, rfl⟩ := List.append_eq_nil_iff.1 hnil
      rfl
    · rw [dropNamed_append h.1, dropNamed_zero h.2]
  have hlead : (written true (ss ++ rest)).lead ≠ .none := by
    rw [lead_written hall]
    decide
  rw [below?, if_pos ((startsWith_written_iff h.1 hall).2 ⟨rest, rfl⟩), hlength]
  simp only [if_neg hlead]
  rw [hdropped, dropVoidEnd_of_plain h.2]
  rfl

/-- **What lies below a rooted path**, by segments. -/
theorem IsRooted.exists_below {p base : Path} (hp : IsRooted p) (hbase : IsRooted base)
    (h : p.startsWith base) :
    ∃ ss rest, Tidy (ss ++ rest) ∧ base = written true ss ∧ p = written true (ss ++ rest) ∧
      p.below? base = some (written false rest) := by
  obtain ⟨ss', htidy', rfl⟩ := hp.exists_segments
  obtain ⟨ss, htidy, rfl⟩ := hbase.exists_segments
  obtain ⟨rest, rfl⟩ := (startsWith_written_iff htidy.plain htidy'.plain).1 h
  exact ⟨ss, rest, htidy', rfl, rfl, below?_written htidy'.plain⟩

/-! ## Joining what lies below -/

theorem joined_append (hss : ss ≠ []) (hrest : rest ≠ []) :
    joined (ss ++ rest) = joined ss ++ separator :: joined rest := by
  induction ss with
  | nil => exact absurd rfl hss
  | cons s ss ih =>
    by_cases hnil : ss = []
    · rw [hnil, List.singleton_append, joined_cons hrest]
      rfl
    · rw [List.cons_append, joined_cons (by simp [hnil]), ih hnil, joined_cons hnil,
        List.append_assoc, List.cons_append]

/-- Segments with a suffix on the last one. Where there is none, the suffix stands alone. -/
def suffixed (rest : List Segment) (suffix : Segment) : List Segment :=
  rest.dropLast ++ [rest.getLast?.getD [] ++ suffix]

theorem suffixed_concat (front : List Segment) (last suffix : Segment) :
    suffixed (front ++ [last]) suffix = front ++ [last ++ suffix] := by
  rw [suffixed, List.dropLast_concat, List.getLast?_concat, Option.getD_some]

/-- The segment that the suffix is put on becomes a name. -/
theorem mem_suffixed {suffix s : Segment} (h : ∀ t ∈ rest, Plain t) (hs : IsSuffix suffix)
    (hmem : s ∈ suffixed rest suffix) : s ∈ rest ∨ (Plain s ∧ s ≠ upward) := by
  rcases List.mem_append.1 hmem with hmem | hmem
  · exact Or.inl ((List.dropLast_sublist rest).mem hmem)
  · have hlast : separator ∉ rest.getLast?.getD [] := by
      cases hlast : rest.getLast? with
      | none => exact List.not_mem_nil
      | some last => exact (h last (List.mem_of_getLast? hlast)).separator_not_mem
    rw [List.mem_singleton.1 hmem]
    exact Or.inr (hs.plain hlast)

theorem plain_suffixed {suffix : Segment} (h : ∀ s ∈ rest, Plain s) (hs : IsSuffix suffix) :
    ∀ s ∈ suffixed rest suffix, Plain s :=
  fun s hmem => (mem_suffixed h hs hmem).elim (h s) And.left

/-- What the suffix was put on can be told, since no segment that names something is empty. -/
theorem suffixed_injective {suffix : Segment} (h : ∀ s ∈ rest, Plain s) (h' : ∀ s ∈ rest', Plain s)
    (heq : suffixed rest suffix = suffixed rest' suffix) : rest = rest' := by
  obtain ⟨hfront, hlast⟩ := List.append_inj' heq rfl
  have hend : rest.getLast?.getD [] = rest'.getLast?.getD [] :=
    List.append_cancel_right (List.singleton_inj.1 hlast)
  cases hrest : rest.getLast? with
  | none =>
    cases hrest' : rest'.getLast? with
    | none => rw [List.getLast?_eq_none_iff.1 hrest, List.getLast?_eq_none_iff.1 hrest']
    | some last' =>
      rw [hrest, hrest'] at hend
      exact absurd hend.symm (h' last' (List.mem_of_getLast? hrest')).ne_nil
  | some last =>
    cases hrest' : rest'.getLast? with
    | none =>
      rw [hrest, hrest'] at hend
      exact absurd hend (h last (List.mem_of_getLast? hrest)).ne_nil
    | some last' =>
      rw [hrest, hrest'] at hend
      obtain ⟨front, rfl⟩ := List.getLast?_eq_some_iff.1 hrest
      obtain ⟨front', rfl⟩ := List.getLast?_eq_some_iff.1 hrest'
      rw [List.dropLast_concat, List.dropLast_concat] at hfront
      rw [hfront, show last = last' from hend]

theorem join_written_written (h : ∀ t ∈ ss, Plain t) (hrest : ∀ t ∈ rest, Plain t)
    (hne : rest ≠ []) : (written absolute ss).join (written false rest) =
      written absolute (ss ++ rest) := by
  rw [join, isAbsolute_written hrest, if_neg Bool.false_ne_true]
  by_cases hss : ss = []
  · rw [if_pos ((ends_written_iff h).2 hss), hss]
    cases absolute <;> rfl
  · rw [if_neg (mt (ends_written_iff h).1 hss)]
    simp [written, joined_append hss hne]

/-- A part that lies below one root, joined to another and with a suffix after it. -/
theorem join_appendSuffix_written {s : String} (h : ∀ t ∈ ss, Plain t)
    (hrest : ∀ t ∈ rest, Plain t) :
    ((written absolute ss).join (written false rest)).appendSuffix s =
      written absolute (ss ++ suffixed rest (Text.encode s)) := by
  by_cases hne : rest = []
  · -- joining nothing leaves a separator behind, unless there is nothing to separate
    rw [hne, join, isAbsolute_written (List.forall_mem_nil _), if_neg Bool.false_ne_true]
    by_cases hss : ss = []
    · rw [if_pos ((ends_written_iff h).2 hss), hss]
      cases absolute <;> rfl
    · rw [if_neg (mt (ends_written_iff h).1 hss)]
      simp [appendSuffix, written, suffixed, joined, joined_concat hss]
  · obtain ⟨front, last, rfl⟩ : ∃ front last, rest = front ++ [last] :=
      ⟨rest.dropLast, rest.getLast hne, (List.dropLast_concat_getLast hne).symm⟩
    rw [join_written_written h hrest hne, suffixed_concat, ← List.append_assoc,
      ← List.append_assoc, written_appendSuffix]

end SvelteTypings.Path
