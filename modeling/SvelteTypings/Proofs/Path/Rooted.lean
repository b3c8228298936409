import SvelteTypings.Proofs.Path.Canonical

/-!
# Rooted paths

A path is *rooted* if it is absolute and canonical. The files of a program are rooted: normalising
an absolute path gives a rooted path, and what module resolution does to a rooted path keeps it
rooted, whether it appends a suffix, exchanges one or adds a file name.
-/

namespace SvelteTypings.Path

/-! ## Suffixes of canonical paths -/

/-- Tidy segments with a suffix on the last one are written canonically. -/
theorem isCanonical_written_suffix {absolute : Bool} {front : List Segment} {last suffix : Segment}
    (hfront : Tidy front) (hlast : separator ∉ last) (h : IsSuffix suffix) :
    IsCanonical (written absolute (front ++ [last ++ suffix])) :=
  ⟨absolute, front ++ [last ++ suffix],
    tidy_concat hfront (h.plain hlast).1 fun _ => (h.plain hlast).2, rfl⟩

/-- The segments that a suffix was appended to. -/
theorem exists_written_of_appendSuffix {p : Path} {s : String} (h : IsCanonical (p.appendSuffix s))
    (hs : IsSuffix (Text.encode s)) :
    ∃ absolute front last, Tidy front ∧ separator ∉ last ∧
      p = written absolute (front ++ [last]) := by
  obtain ⟨absolute, ss, htidy, heq⟩ := h
  have hbytes : p.bytes ++ Text.encode s = (if absolute then [separator] else []) ++ joined ss :=
    congrArg Path.bytes heq
  -- the separator of an absolute path stands in front of the suffix
  obtain ⟨r, hr, hjoined⟩ : ∃ r, p.bytes = (if absolute then [separator] else []) ++ r ∧
      r ++ Text.encode s = joined ss := by
    cases absolute with
    | false => exact ⟨p.bytes, rfl, hbytes⟩
    | true =>
      cases hp : p.bytes with
      | nil =>
        rw [hp, List.nil_append] at hbytes
        exact absurd (hbytes ▸ List.mem_cons_self) hs.separator_not_mem
      | cons x b =>
        rw [hp] at hbytes
        obtain ⟨rfl, hb⟩ := List.cons.inj hbytes
        exact ⟨b, rfl, hb⟩
  have hne : ss ≠ [] := by
    rintro rfl
    have hlength := congrArg List.length hjoined
    have hs' := hs.length
    simp only [joined, List.length_append, List.length_nil] at hlength
    omega
  obtain ⟨front, last, hsplit⟩ := exists_split_eq r
  have hss : ss = front ++ [last ++ Text.encode s] := by
    rw [← split_joined_of_plain htidy.plain hne, ← hjoined]
    exact split_append hsplit hs.separator_not_mem
  refine ⟨absolute, front, last, tidy_of_concat (hss ▸ htidy), ?_, ?_⟩
  · exact separator_not_mem_of_mem_split (hsplit ▸ List.mem_append_right _ List.mem_cons_self)
  · rw [written, ← hsplit, joined_split, ← hr]

theorem written_appendSuffix (absolute : Bool) (front : List Segment) (last : Segment) (s : String) :
    (written absolute (front ++ [last])).appendSuffix s =
      written absolute (front ++ [last ++ Text.encode s]) := by
  rw [appendSuffix, written, written, joined_append_last, List.append_assoc]

theorem IsCanonical.appendSuffix {p : Path} {s : String} (h : IsCanonical p)
    (hs : IsSuffix (Text.encode s)) : IsCanonical (p.appendSuffix s) := by
  obtain ⟨absolute, ss, htidy, rfl⟩ := h
  by_cases hss : ss = []
  · have hroot : (written absolute ss).appendSuffix s =
        written absolute ([] ++ [[] ++ Text.encode s]) := by
      rw [hss]
      cases absolute <;> rfl
    rw [hroot]
    exact isCanonical_written_suffix tidy_nil List.not_mem_nil hs
  · obtain ⟨front, last, rfl⟩ : ∃ front last, ss = front ++ [last] :=
      ⟨ss.dropLast, ss.getLast hss, (List.dropLast_concat_getLast hss).symm⟩
    rw [written_appendSuffix]
    exact isCanonical_written_suffix (tidy_of_concat htidy)
      (htidy.plain last (by simp)).separator_not_mem hs

/-- A suffix may be exchanged for another. -/
theorem IsCanonical.exchangeSuffix {p : Path} {s t : String} (h : IsCanonical (p.appendSuffix s))
    (hs : IsSuffix (Text.encode s)) (ht : IsSuffix (Text.encode t)) :
    IsCanonical (p.appendSuffix t) := by
  obtain ⟨absolute, front, last, hfront, hlast, rfl⟩ := exists_written_of_appendSuffix h hs
  rw [written_appendSuffix]
  exact isCanonical_written_suffix hfront hlast ht

theorem IsCanonical.join {p : Path} {n : Segment} (h : IsCanonical p) (hn : Plain n)
    (hup : n ≠ upward) : IsCanonical (p.join ⟨n⟩) := by
  obtain ⟨absolute, ss, htidy, rfl⟩ := h
  rw [join_written htidy.plain hn]
  exact ⟨absolute, ss ++ [n], tidy_concat htidy hn fun _ => hup, rfl⟩

/-! ## Absolute paths -/

theorem isAbsolute_append {p : Path} (b : List UInt8) (h : p.isAbsolute) :
    (⟨p.bytes ++ b⟩ : Path).isAbsolute := by
  obtain ⟨bytes⟩ := p
  cases bytes with
  | nil => exact absurd h (by decide)
  | cons x rest => exact h

theorem isAbsolute_join {p : Path} (q : Path) (h : p.isAbsolute) : (p.join q).isAbsolute := by
  rw [join]
  split
  · assumption
  · split <;> exact isAbsolute_append _ h

theorem lead_of_isAbsolute {p : Path} (h : p.isAbsolute) : p.lead = .absolute := by
  rwa [isAbsolute_eq_lead, decide_eq_true_iff] at h

/-- An absolute path lies in an absolute directory. -/
theorem isAbsolute_of_parent? {p directory : Path} (h : p.isAbsolute)
    (hparent : p.parent? = some directory) : directory.isAbsolute := by
  rw [parent?, lead_of_isAbsolute h] at hparent
  split at hparent
  · exact absurd hparent (by simp)
  · rw [← Option.some.inj hparent]
    rfl

/-- What an absolute path lies in is absolute. -/
theorem isAbsolute_of_mem_ancestors {p q : Path} (h : p.isAbsolute) (hq : q ∈ p.ancestors) :
    q.isAbsolute := by
  unfold ancestors at hq
  generalize p.components.length = n at hq
  induction n generalizing p with
  | zero => exact List.mem_singleton.1 hq ▸ h
  | succ n ih =>
    unfold ancestorsFrom at hq
    split at hq
    · next directory hparent =>
      rcases List.mem_cons.1 hq with rfl | hq
      · exact h
      · exact ih (isAbsolute_of_parent? h hparent) hq
    · exact List.mem_singleton.1 hq ▸ h

/-- A suffix does not begin with a separator, so it makes no path absolute. -/
theorem isAbsolute_appendSuffix {p : Path} {s : String} (hs : IsSuffix (Text.encode s)) :
    (p.appendSuffix s).isAbsolute = p.isAbsolute := by
  obtain ⟨bytes⟩ := p
  cases bytes with
  | nil =>
    have hhead : (Text.encode s).head? ≠ some separator := fun hh =>
      hs.separator_not_mem (List.mem_of_mem_head? hh)
    exact decide_eq_false hhead
  | cons x rest => rfl

/-- The path is absolute and canonical. -/
structure IsRooted (p : Path) : Prop where
  canonical : IsCanonical p
  absolute : p.isAbsolute

theorem isRooted_normalize {p : Path} (h : p.isAbsolute) : IsRooted p.normalize :=
  ⟨isCanonical_normalize p, by rw [isAbsolute_normalize]; exact h⟩

/-- An absolute path that is written normalised is rooted. -/
theorem isRooted_of_normalize_eq {p : Path} (h : p.isAbsolute) (hnormal : p.normalize = p) :
    IsRooted p :=
  hnormal ▸ isRooted_normalize h

theorem IsRooted.appendSuffix {p : Path} {s : String} (h : IsRooted p)
    (hs : IsSuffix (Text.encode s)) : IsRooted (p.appendSuffix s) :=
  ⟨h.canonical.appendSuffix hs, by rw [isAbsolute_appendSuffix hs]; exact h.absolute⟩

theorem IsRooted.exchangeSuffix {p : Path} {s t : String} (h : IsRooted (p.appendSuffix s))
    (hs : IsSuffix (Text.encode s)) (ht : IsSuffix (Text.encode t)) :
    IsRooted (p.appendSuffix t) := by
  refine ⟨h.canonical.exchangeSuffix hs ht, ?_⟩
  rw [isAbsolute_appendSuffix ht, ← isAbsolute_appendSuffix hs]
  exact h.absolute

theorem IsRooted.join {p : Path} {n : Segment} (h : IsRooted p) (hn : Plain n)
    (hup : n ≠ upward) : IsRooted (p.join ⟨n⟩) :=
  ⟨h.canonical.join hn hup, isAbsolute_join _ h.absolute⟩

theorem IsRooted.eq_of_same {p q : Path} (hp : IsRooted p) (hq : IsRooted q) (h : p.same q) :
    p = q :=
  hp.canonical.eq_of_same hq.canonical h

/-- Rooted paths are taken as they are, wherever relative ones would start. -/
theorem map_normalize_join (directory : Path) {ps : List Path} (h : ∀ p ∈ ps, IsRooted p) :
    ps.map (fun p => (directory.join p).normalize) = ps := by
  refine (List.map_congr_left fun p hp => ?_).trans (List.map_id ps)
  have hrooted := h p hp
  rw [Path.join, if_pos hrooted.absolute]
  exact hrooted.canonical.normalize_eq

/-- A rooted path is written from tidy segments. -/
theorem IsRooted.exists_segments {p : Path} (h : IsRooted p) :
    ∃ ss, Tidy ss ∧ p = written true ss := by
  obtain ⟨⟨absolute, ss, htidy, rfl⟩, habsolute⟩ := h
  rw [isAbsolute_written htidy.plain] at habsolute
  exact ⟨ss, htidy, by rw [habsolute]⟩

/-- A rooted path other than the root lies in an absolute directory. -/
theorem IsRooted.exists_parent {p : Path} (h : IsRooted p) (hne : p ≠ Path.root) :
    ∃ directory, p.parent? = some directory ∧ directory.isAbsolute := by
  obtain ⟨ss, htidy, rfl⟩ := h.exists_segments
  have hss : ss ≠ [] := by
    rintro rfl
    exact hne rfl
  have hfront : ∀ s ∈ ss.dropLast, Plain s := fun s hs =>
    htidy.plain s ((List.dropLast_sublist ss).mem hs)
  refine ⟨written true ss.dropLast, ?_, isAbsolute_written hfront⟩
  rw [parent?_written htidy.plain, if_neg hss]

/-- The components of an absolute path, by its segments. The last one may be void. -/
theorem components_concat {front : List Segment} {last : Segment} (hfront : ∀ s ∈ front, Plain s)
    (hlast : separator ∉ last) :
    (written true (front ++ [last])).components =
      (.root :: front.map Component.ofPlain) ++ (Component.ofSegment? last).toList := by
  have hsep : ∀ s ∈ front ++ [last], separator ∉ s := by
    intro s hs
    rcases List.mem_append.1 hs with hs | hs
    · exact (hfront s hs).separator_not_mem
    · rw [List.mem_singleton.1 hs]
      exact hlast
  show .root :: (split (joined (front ++ [last]))).filterMap Component.ofSegment? = _
  rw [split_joined (by simp) hsep, List.filterMap_append, filterMap_ofSegment?_of_plain hfront,
    List.cons_append]
  cases hcomponent : Component.ofSegment? last <;> simp [hcomponent]

theorem not_void_of_ofSegment? {s : Segment} {component : Component}
    (h : Component.ofSegment? s = some component) : isVoid s = false := by
  cases hv : isVoid s with
  | false => rfl
  | true =>
    rw [Component.ofSegment?, if_pos hv] at h
    exact absurd h (by simp)

/-- The segments that a suffix was appended to, when the path is rooted with the suffix. -/
theorem exists_written_of_isRooted {p : Path} {s : String} (hs : IsSuffix (Text.encode s))
    (hp : IsRooted (p.appendSuffix s)) :
    ∃ front last, Tidy front ∧ separator ∉ last ∧ p = written true (front ++ [last]) := by
  obtain ⟨absolute, front, last, hfront, hlast, rfl⟩ := exists_written_of_appendSuffix hp.canonical hs
  have hplain : ∀ t ∈ front ++ [last ++ Text.encode s], Plain t := by
    intro t ht
    rcases List.mem_append.1 ht with ht | ht
    · exact hfront.plain t ht
    · rw [List.mem_singleton.1 ht]
      exact (hs.plain hlast).1
  have habsolute := hp.absolute
  rw [written_appendSuffix, isAbsolute_written hplain] at habsolute
  exact ⟨front, last, hfront, hlast, by rw [habsolute]⟩

/-- What a path lies below it lies below with a suffix, unless it is the path itself, which then is
canonically spelled already. -/
theorem startsWith_appendSuffix {p base : Path} {s : String} (hs : IsSuffix (Text.encode s))
    (hp : IsRooted (p.appendSuffix s)) (h : p.startsWith base) :
    (p.appendSuffix s).startsWith base ∨
      (p.same base ∧ ∀ q, IsCanonical q → q.same p → q = p) := by
  obtain ⟨front, last, hfront, hlast, rfl⟩ := exists_written_of_isRooted hs hp
  have hsuffix : separator ∉ last ++ Text.encode s := (hs.plain hlast).1.separator_not_mem
  have hcomponents := components_concat hfront.plain hlast
  have hsuffixed := components_concat hfront.plain hsuffix
  -- both paths have the components of the front, and one more at most
  rw [startsWith, List.isPrefixOf_iff_prefix, hcomponents] at h
  rw [startsWith, List.isPrefixOf_iff_prefix, written_appendSuffix, hsuffixed]
  cases hcomponent : Component.ofSegment? last with
  | none =>
    rw [hcomponent, Option.toList_none, List.append_nil] at h
    exact Or.inl (h.trans (List.prefix_append _ _))
  | some component =>
    rw [hcomponent, Option.toList_some] at h
    rcases List.prefix_concat_iff.1 h with heq | hbelow
    · -- no component is void here, so the segments are those of a canonical spelling
      have hall : ∀ t ∈ front ++ [last], Plain t := by
        intro t ht
        rcases List.mem_append.1 ht with ht | ht
        · exact hfront.plain t ht
        · rw [List.mem_singleton.1 ht]
          exact ⟨not_void_of_ofSegment? hcomponent, hlast⟩
      have hsame : (written true (front ++ [last])).same base := by
        rw [same_iff, hcomponents, hcomponent, heq, Option.toList_some]
      refine Or.inr ⟨hsame, ?_⟩
      intro q hq hqp
      obtain ⟨absolute, ss, hss, rfl⟩ := hq
      rw [same_iff] at hqp
      exact written_eq_of_components_eq hss.plain hall hqp
    · exact Or.inl (hbelow.trans (List.prefix_append _ _))

/-- What a path lies below with a suffix it lies below without, unless it is the path itself. -/
theorem startsWith_of_appendSuffix {p base : Path} {s : String} (hs : IsSuffix (Text.encode s))
    (hp : IsRooted (p.appendSuffix s)) (h : (p.appendSuffix s).startsWith base) :
    p.startsWith base ∨ (p.appendSuffix s).same base := by
  obtain ⟨front, last, hfront, hlast, rfl⟩ := exists_written_of_isRooted hs hp
  have hplain := (hs.plain hlast).1
  have hcomponents := components_concat hfront.plain hlast
  have hsuffixed := components_concat hfront.plain hplain.separator_not_mem
  rw [ofSegment?_append hs, Option.toList_some] at hsuffixed
  rw [startsWith, List.isPrefixOf_iff_prefix, written_appendSuffix, hsuffixed] at h
  rw [startsWith, List.isPrefixOf_iff_prefix, written_appendSuffix, same_iff, hcomponents,
    hsuffixed]
  rcases List.prefix_concat_iff.1 h with heq | hbelow
  · exact Or.inr heq.symm
  · exact Or.inl (hbelow.trans (List.prefix_append _ _))

theorem appendSuffix_ne_root {p : Path} {s : String} (hs : IsSuffix (Text.encode s)) :
    p.appendSuffix s ≠ Path.root := by
  intro heq
  have hlength := congrArg (fun q => q.bytes.length) heq
  have hs' := hs.length
  simp only [Path.appendSuffix, Path.root, List.length_append, List.length_cons,
    List.length_nil] at hlength
  omega

end SvelteTypings.Path
