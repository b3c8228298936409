import SvelteTypings.Proofs.Path.Rooted

/-!
# The segments that name something

Spellings of one path name the same segments. A path that a suffix makes canonical is written from
the segments that any of its spellings name, with at most one void segment after them: the suffix
stands on the last segment, and every segment before it names something (`mem_spellingsBefore`).
-/

namespace SvelteTypings.Path

variable {p q : Path} {s : String}

/-! ## Named segments -/

/-- The segment that a component is written as, if it is one. -/
def Component.segment? : Component → Option Segment
  | .name n => some n
  | .parent => some upward
  | _ => none

/-- The segments of a path that name something. -/
def named (p : Path) : List Segment := p.components.filterMap Component.segment?

theorem segment?_ofPlain (s : Segment) : (Component.ofPlain s).segment? = some s := by
  rw [Component.ofPlain]
  split
  · next h => rw [h]; rfl
  · rfl

theorem filterMap_segment?_ofPlain (ss : List Segment) :
    (ss.map Component.ofPlain).filterMap Component.segment? = ss := by
  induction ss with
  | nil => rfl
  | cons s ss ih => rw [List.map_cons, List.filterMap_cons_some (segment?_ofPlain s), ih]

theorem named_congr (h : p.same q) : p.named = q.named := by
  rw [same_iff] at h
  rw [named, named, h]

theorem named_written {absolute : Bool} {ss : List Segment} (h : ∀ s ∈ ss, Plain s) :
    (written absolute ss).named = ss := by
  rw [named, components_written h, List.filterMap_append, filterMap_segment?_ofPlain]
  cases absolute <;> rfl

/-- The segments that are not void are named. -/
theorem named_eq_split (p : Path) : p.named = (split p.bytes).filter fun s => !isVoid s := by
  have hlead : p.lead.components.filterMap Component.segment? = [] := by cases p.lead <;> rfl
  have hsegments : ∀ ss : List Segment, (ss.filterMap Component.ofSegment?).filterMap
      Component.segment? = ss.filter fun s => !isVoid s := by
    intro ss
    induction ss with
    | nil => rfl
    | cons s ss ih =>
      cases hvoid : isVoid s with
      | true =>
        have hnone : Component.ofSegment? s = none := if_pos hvoid
        rw [List.filterMap_cons_none hnone, List.filter_cons_of_neg (by simp [hvoid]), ih]
      | false =>
        have hsome : Component.ofSegment? s = some (Component.ofPlain s) := by
          rw [Component.ofSegment?, if_neg (by simp [hvoid]), Component.ofPlain]
          split <;> rfl
        rw [List.filterMap_cons_some hsome, List.filterMap_cons_some (segment?_ofPlain s),
          List.filter_cons_of_pos (by simp [hvoid]), ih]
  rw [named, components_eq_split, List.filterMap_append, hlead, hsegments, List.nil_append]

/-- A path is absolute under all of its spellings or under none. -/
theorem isAbsolute_congr (h : p.same q) : p.isAbsolute = q.isAbsolute := by
  have hroot : ∀ p : Path, p.isAbsolute = decide (.root ∈ p.components) := by
    intro p
    have hsegments : .root ∉ p.segments.filterMap Component.ofSegment? := by
      intro hmem
      obtain ⟨s, -, hs⟩ := List.mem_filterMap.1 hmem
      rw [Component.ofSegment?] at hs
      split at hs
      · exact absurd hs (by simp)
      · split at hs <;> exact absurd hs (by simp)
    rw [isAbsolute_eq_lead, components]
    cases p.lead <;> simp [Lead.components, hsegments]
  rw [same_iff] at h
  rw [hroot, hroot, h]

/-! ## Spellings before a suffix -/

/-- The spellings under which a path can stand before a suffix: as it is, or with a separator or a
`.` after it. -/
def spellingsBefore (p : Path) : List Path :=
  [written p.isAbsolute p.named, written p.isAbsolute (p.named ++ [[]]),
    written p.isAbsolute (p.named ++ [[dot]])]

/-- **A path that a suffix makes canonical is spelled in one of three ways.** -/
theorem mem_spellingsBefore (hs : IsSuffix (Text.encode s)) (hp : IsCanonical (p.appendSuffix s))
    (hsame : q.same p) : p ∈ q.spellingsBefore := by
  obtain ⟨absolute, front, last, hfront, hlast, rfl⟩ := exists_written_of_appendSuffix hp hs
  have hsep : ∀ t ∈ front ++ [last], separator ∉ t := by
    intro t ht
    rcases List.mem_append.1 ht with ht | ht
    · exact (hfront.plain t ht).separator_not_mem
    · rw [List.mem_singleton.1 ht]
      exact hlast
  have habsolute : (written absolute (front ++ [last])).isAbsolute = absolute := by
    have hplain : ∀ t ∈ front ++ [last ++ Text.encode s], Plain t := by
      intro t ht
      rcases List.mem_append.1 ht with ht | ht
      · exact hfront.plain t ht
      · rw [List.mem_singleton.1 ht]
        exact (hs.plain hlast).1
    rw [← isAbsolute_appendSuffix hs, written_appendSuffix, isAbsolute_written hplain]
  have hnamed : (written absolute (front ++ [last])).named =
      front ++ [last].filter fun s => !isVoid s := by
    have hkept : (front.filter fun s => !isVoid s) = front :=
      List.filter_eq_self.2 fun t ht => by simp [(hfront.plain t ht).not_void]
    have hsplit : split (joined (front ++ [last])) = front ++ [last] := split_joined (by simp) hsep
    rw [named_eq_split]
    cases absolute with
    | true =>
      show (split (separator :: joined (front ++ [last]))).filter _ = _
      rw [split_separator, hsplit, List.filter_cons_of_neg (by decide), List.filter_append, hkept]
    | false =>
      show (split (joined (front ++ [last]))).filter _ = _
      rw [hsplit, List.filter_append, hkept]
  rw [spellingsBefore, named_congr hsame, isAbsolute_congr hsame, habsolute, hnamed]
  cases hvoid : isVoid last with
  | true =>
    -- nothing but an empty segment or a `.` is void
    rw [List.filter_cons_of_neg (by simp [hvoid]), List.filter_nil, List.append_nil]
    simp only [isVoid, Bool.or_eq_true, decide_eq_true_eq] at hvoid
    rcases hvoid with rfl | rfl
    · simp
    · simp
  | false => simp [hvoid]

/-! ## Rooted spellings -/

/-- A rooted path is written from the segments that any of its spellings name. -/
theorem IsRooted.eq_written (h : IsRooted p) (hsame : q.same p) : p = written true q.named := by
  obtain ⟨ss, htidy, rfl⟩ := h.exists_segments
  rw [named_congr hsame, named_written htidy.plain]

/-- The spellings under which an absolute path can stand before a suffix. -/
def beforeSuffix (p : Path) : List Path :=
  [written true p.named, written true (p.named ++ [[]]), written true (p.named ++ [[dot]])]

theorem mem_beforeSuffix (hs : IsSuffix (Text.encode s)) (hp : IsRooted (p.appendSuffix s))
    (hsame : q.same p) : p ∈ q.beforeSuffix := by
  have habsolute : q.isAbsolute = true := by
    rw [isAbsolute_congr hsame, ← isAbsolute_appendSuffix hs, hp.absolute]
  have hmem := mem_spellingsBefore hs hp.canonical hsame
  rw [spellingsBefore, habsolute] at hmem
  exact hmem

end SvelteTypings.Path
