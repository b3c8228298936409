import SvelteTypings.Proofs.Path.Segments
import SvelteTypings.Proofs.Path.Map

/-!
# Canonical spelling

A path is *canonical* if it is written from segments that all name something, with one separator
between them, and a `..` at the front at most. Normalisation gives canonical paths and leaves them
as they are (`isCanonical_normalize`, `IsCanonical.normalize_eq`), a suffix keeps a path canonical,
and canonical paths that are one path are one sequence of bytes (`IsCanonical.eq_of_same`). So among
canonical paths the comparison by components is equality.
-/

namespace SvelteTypings.Path

/-! ## Plain segments -/

/-- A segment that names something. -/
structure Plain (s : Segment) : Prop where
  not_void : isVoid s = false
  separator_not_mem : separator ∉ s

/-- The segment that names the parent directory. -/
abbrev upward : Segment := [dot, dot]

theorem plain_upward : Plain upward := ⟨by decide, by decide⟩

theorem Plain.ne_nil {s : Segment} (h : Plain s) : s ≠ [] := by
  rintro rfl
  exact absurd h.not_void (by decide)

theorem Plain.ne_dot {s : Segment} (h : Plain s) : s ≠ [dot] := by
  rintro rfl
  exact absurd h.not_void (by decide)

/-- The component of a plain segment. -/
def Component.ofPlain (s : Segment) : Component := if s = upward then .parent else .name s

theorem ofSegment?_of_plain {s : Segment} (h : Plain s) :
    Component.ofSegment? s = some (Component.ofPlain s) := by
  rw [Component.ofSegment?, if_neg (by rw [h.not_void]; decide), Component.ofPlain]
  split <;> rfl

theorem filterMap_ofSegment?_of_plain {ss : List Segment} (h : ∀ s ∈ ss, Plain s) :
    ss.filterMap Component.ofSegment? = ss.map Component.ofPlain := by
  induction ss with
  | nil => rfl
  | cons s ss ih =>
    rw [List.forall_mem_cons] at h
    rw [List.filterMap_cons_some (ofSegment?_of_plain h.1), ih h.2, List.map_cons]

theorem ofPlain_injective {s t : Segment} (h : Component.ofPlain s = Component.ofPlain t) :
    s = t := by
  rw [Component.ofPlain, Component.ofPlain] at h
  split at h <;> split at h
  · next hs ht => rw [hs, ht]
  · exact absurd h (by simp)
  · exact absurd h (by simp)
  · simpa using h

theorem ofPlain_ne_root (s : Segment) : Component.ofPlain s ≠ .root := by
  rw [Component.ofPlain]
  split <;> simp

/-- The names among the components of a path are plain and no `..`. -/
theorem plain_of_name_mem_components {p : Path} {n : Segment} (h : .name n ∈ p.components) :
    Plain n ∧ n ≠ upward := by
  rw [components_eq_split, List.mem_append] at h
  rcases h with h | h
  · cases hl : p.lead <;> simp [hl, Lead.components] at h
  · obtain ⟨s, hs, hname⟩ := List.mem_filterMap.1 h
    rw [Component.ofSegment?] at hname
    split at hname
    · exact absurd hname (by simp)
    · next hvoid =>
      split at hname
      · exact absurd hname (by simp)
      · next hup =>
        have heq : s = n := by simpa using hname
        rw [← heq]
        exact ⟨⟨by simpa using hvoid, separator_not_mem_of_mem_split hs⟩, hup⟩

/-! ## Written paths -/

/-- The path of some segments, written with one separator between them. -/
def written (absolute : Bool) (ss : List Segment) : Path :=
  ⟨(if absolute then [separator] else []) ++ joined ss⟩

variable {absolute : Bool} {ss : List Segment}

theorem split_joined_of_plain (h : ∀ s ∈ ss, Plain s) (hne : ss ≠ []) : split (joined ss) = ss :=
  split_joined hne fun s hs => (h s hs).separator_not_mem

theorem lead_written (h : ∀ s ∈ ss, Plain s) :
    (written absolute ss).lead = if absolute then .absolute else .none := by
  cases absolute with
  | true => rfl
  | false =>
    by_cases hss : ss = []
    · rw [hss]
      rfl
    · have hsplit : split (written false ss).bytes = ss.dropLast ++ [ss.getLast hss] := by
        rw [List.dropLast_concat_getLast]
        exact split_joined_of_plain h hss
      rw [lead_of_split hsplit fun _ => (h _ (List.getLast_mem hss)).ne_dot]
      cases hfront : ss.dropLast with
      | nil => rfl
      | cons s front =>
        have hs : Plain s := h s ((List.dropLast_sublist ss).mem (hfront ▸ List.mem_cons_self))
        rw [leadOf, if_neg hs.ne_nil, if_neg hs.ne_dot]
        rfl

theorem cutLead_of_lead_eq_none {b : List UInt8} (h : (cutLead b).1 = .none) :
    (cutLead b).2 = b := by
  cases b with
  | nil => rfl
  | cons x b =>
    rw [cutLead] at h ⊢
    split at h
    · exact absurd h (by simp)
    · split at h
      · exact absurd h (by simp)
      · next hx hhere => rw [if_neg hx, if_neg hhere]

theorem segments_written (h : ∀ s ∈ ss, Plain s) :
    (written absolute ss).segments = if ss = [] then [[]] else ss := by
  have hsegments : (written absolute ss).segments = split (joined ss) := by
    cases absolute with
    | true => rfl
    | false =>
      have hlead : (cutLead (written false ss).bytes).1 = .none := lead_written h
      rw [segments, cutLead_of_lead_eq_none hlead]
      rfl
  rw [hsegments]
  by_cases hss : ss = []
  · rw [hss]
    rfl
  · rw [if_neg hss, split_joined_of_plain h hss]

theorem components_written (h : ∀ s ∈ ss, Plain s) :
    (written absolute ss).components =
      (if absolute then [.root] else []) ++ ss.map Component.ofPlain := by
  have hlead : (written absolute ss).lead.components = if absolute then [.root] else [] := by
    rw [lead_written h]
    cases absolute <;> rfl
  rw [components, hlead, segments_written h, ← filterMap_ofSegment?_of_plain h]
  by_cases hss : ss = []
  · rw [hss]
    rfl
  · rw [if_neg hss]

theorem isAbsolute_eq_lead (p : Path) : p.isAbsolute = decide (p.lead = .absolute) := by
  obtain ⟨b⟩ := p
  cases b with
  | nil => rfl
  | cons x b =>
    by_cases hx : x = separator
    · rw [hx]
      rfl
    · have hlead : (cutLead (x :: b)).1 ≠ .absolute := by
        rw [cutLead, if_neg hx]
        split <;> simp
      rw [lead, decide_eq_false hlead]
      simpa [isAbsolute] using hx

theorem isAbsolute_written (h : ∀ s ∈ ss, Plain s) :
    (written absolute ss).isAbsolute = absolute := by
  rw [isAbsolute_eq_lead, lead_written h]
  cases absolute <;> rfl

/-- Written paths with the same components are written from the same segments. -/
theorem written_eq_of_components_eq {absolute' : Bool} {ss' : List Segment}
    (h : ∀ s ∈ ss, Plain s) (h' : ∀ s ∈ ss', Plain s)
    (heq : (written absolute ss).components = (written absolute' ss').components) :
    written absolute ss = written absolute' ss' := by
  have hroot : ∀ ts : List Segment, .root ∉ ts.map Component.ofPlain := by
    intro ts hmem
    obtain ⟨s, -, hs⟩ := List.mem_map.1 hmem
    exact ofPlain_ne_root s hs
  have hinj : ∀ ts ts' : List Segment,
      ts.map Component.ofPlain = ts'.map Component.ofPlain → ts = ts' :=
    fun _ _ => (List.map_inj_right fun _ _ => ofPlain_injective).1
  -- a root on one side only would have to be a plain segment on the other
  rw [components_written h, components_written h'] at heq
  cases absolute <;> cases absolute'
  · rw [hinj ss ss' heq]
  · have hmap : ss.map Component.ofPlain = .root :: ss'.map Component.ofPlain := heq
    exact absurd (hmap ▸ List.mem_cons_self) (hroot ss)
  · have hmap : .root :: ss.map Component.ofPlain = ss'.map Component.ofPlain := heq
    exact absurd (hmap ▸ List.mem_cons_self) (hroot ss')
  · rw [hinj ss ss' (List.cons.inj heq).2]

/-! ## Steps of the normalisation -/

theorem ends_written_iff (h : ∀ s ∈ ss, Plain s) :
    ((written absolute ss).bytes = [] ∨ (written absolute ss).bytes.getLast? = some separator) ↔
      ss = [] := by
  refine ⟨?_, ?_⟩
  · intro hend
    refine Classical.byContradiction fun hss => ?_
    obtain ⟨front, last, rfl⟩ : ∃ front last, ss = front ++ [last] :=
      ⟨ss.dropLast, ss.getLast hss, (List.dropLast_concat_getLast hss).symm⟩
    have hlast : Plain last := h last (by simp)
    -- the bytes end in the last segment, which is not empty and has no separator
    obtain ⟨b, hb⟩ : ∃ b, (written absolute (front ++ [last])).bytes = b ++ last := by
      by_cases hfront : front = []
      · exact ⟨if absolute then [separator] else [], by rw [hfront]; rfl⟩
      · refine ⟨(if absolute then [separator] else []) ++ (joined front ++ [separator]), ?_⟩
        rw [written, joined_concat hfront]
        simp
    rw [hb] at hend
    rcases hend with hend | hend
    · exact hlast.ne_nil (List.append_eq_nil_iff.1 hend).2
    · rw [List.getLast?_append, List.getLast?_eq_some_getLast hlast.ne_nil, Option.some_or,
        Option.some.injEq] at hend
      exact hlast.separator_not_mem (hend ▸ List.getLast_mem _)
  · rintro rfl
    cases absolute with
    | true => exact Or.inr rfl
    | false => exact Or.inl rfl

theorem join_written {n : Segment} (h : ∀ s ∈ ss, Plain s) (hn : Plain n) :
    (written absolute ss).join ⟨n⟩ = written absolute (ss ++ [n]) := by
  have hrelative : (⟨n⟩ : Path).isAbsolute = false := by
    have hhead : n.head? ≠ some separator := fun hh =>
      hn.separator_not_mem (List.mem_of_mem_head? hh)
    simpa [isAbsolute] using hhead
  rw [join, hrelative, if_neg (by decide)]
  by_cases hss : ss = []
  · rw [if_pos ((ends_written_iff h).2 hss), hss]
    cases absolute <;> rfl
  · rw [if_neg (mt (ends_written_iff h).1 hss), written, written, joined_concat hss]
    simp

theorem dropVoidEnd_of_plain (h : ∀ s ∈ ss, Plain s) : dropVoidEnd ss = ss := by
  have hhead : ss.reverse.dropWhile isVoid = ss.reverse := by
    cases hr : ss.reverse with
    | nil => rfl
    | cons s rest =>
      have hs : s ∈ ss := List.mem_reverse.1 (hr ▸ List.mem_cons_self)
      rw [List.dropWhile_cons_of_neg (by rw [(h s hs).not_void]; decide)]
  rw [dropVoidEnd, hhead, List.reverse_reverse]

theorem parent?_written (h : ∀ s ∈ ss, Plain s) :
    (written absolute ss).parent? =
      if ss = [] then none else some (written absolute ss.dropLast) := by
  have hlead : (written absolute ss).lead ≠ .here := by
    rw [lead_written h]
    cases absolute <;> simp
  have hbytes : (written absolute ss).lead.bytes = if absolute then [separator] else [] := by
    rw [lead_written h]
    cases absolute <;> rfl
  have hfront : ∀ s ∈ ss.dropLast, Plain s := fun s hs => h s ((List.dropLast_sublist ss).mem hs)
  rw [parent?, segments_written h]
  by_cases hss : ss = []
  · rw [if_pos hss, if_pos hss]
    show (if _ then _ else _) = _
    rw [if_neg hlead]
  · rw [if_neg hss, if_neg hss, dropVoidEnd_of_plain h]
    obtain ⟨s, rest, rfl⟩ := List.exists_cons_of_ne_nil hss
    show some _ = some _
    rw [hbytes, dropVoidEnd_of_plain hfront, written]

/-- What a component does to the segments written so far. -/
def pushed (ss : List Segment) : Component → List Segment
  | .name n => ss ++ [n]
  | .parent => if ss = [] then [upward] else ss.dropLast
  | _ => ss

theorem step_written {c : Component} (h : ∀ s ∈ ss, Plain s) (hroot : c ≠ .root)
    (hname : ∀ n, c = .name n → Plain n) :
    step (written absolute ss) c = written absolute (pushed ss c) := by
  cases c with
  | root => exact absurd rfl hroot
  | current => rfl
  | parent =>
    show ((written absolute ss).parent?).getD _ = written absolute (if _ then _ else _)
    rw [parent?_written h]
    split
    · next hss => exact (join_written h plain_upward).trans (by rw [hss]; rfl)
    · rfl
  | name n => exact join_written h (hname n rfl)

/-! ## Tidy segments -/

/-- Plain segments with a `..` at the front at most. -/
structure Tidy (ss : List Segment) : Prop where
  plain : ∀ s ∈ ss, Plain s
  upward : upward ∉ ss.tail

theorem tidy_nil : Tidy [] := ⟨by simp, by simp⟩

theorem tidy_concat {s : Segment} (h : Tidy ss) (hs : Plain s) (hup : ss ≠ [] → s ≠ upward) :
    Tidy (ss ++ [s]) := by
  refine ⟨?_, ?_⟩
  · intro t ht
    rcases List.mem_append.1 ht with ht | ht
    · exact h.plain t ht
    · rw [List.mem_singleton.1 ht]
      exact hs
  · cases ss with
    | nil => simp
    | cons t ss =>
      rw [List.cons_append, List.tail_cons, List.mem_append, not_or, List.mem_singleton]
      exact ⟨h.upward, Ne.symm (hup (by simp))⟩

theorem tidy_of_concat {s : Segment} (h : Tidy (ss ++ [s])) : Tidy ss := by
  refine ⟨?_, ?_⟩
  · exact fun t ht => h.plain t (List.mem_append_left _ ht)
  · cases ss with
    | nil => simp
    | cons t ss => exact fun hmem => h.upward (List.mem_append_left _ hmem)

theorem tidy_pushed {c : Component} (h : Tidy ss)
    (hname : ∀ n, c = .name n → Plain n ∧ n ≠ upward) : Tidy (pushed ss c) := by
  cases c with
  | root => exact h
  | current => exact h
  | parent =>
    rw [pushed]
    split
    · exact tidy_concat tidy_nil plain_upward (absurd rfl)
    · next hss =>
      refine tidy_of_concat (s := ss.getLast hss) ?_
      rw [List.dropLast_concat_getLast]
      exact h
  | name n => exact tidy_concat h (hname n rfl).1 fun _ => (hname n rfl).2

/-! ## Normalisation -/

theorem tidy_foldl_pushed {cs : List Component} (h : Tidy ss)
    (hname : ∀ n, .name n ∈ cs → Plain n ∧ n ≠ upward) : Tidy (cs.foldl pushed ss) := by
  induction cs generalizing ss with
  | nil => exact h
  | cons c cs ih =>
    refine ih (tidy_pushed h ?_) fun n hn => hname n (List.mem_cons_of_mem c hn)
    rintro n rfl
    exact hname n List.mem_cons_self

theorem foldl_step_written {cs : List Component} (h : Tidy ss) (hroot : .root ∉ cs)
    (hname : ∀ n, .name n ∈ cs → Plain n ∧ n ≠ upward) :
    cs.foldl step (written absolute ss) = written absolute (cs.foldl pushed ss) := by
  induction cs generalizing ss with
  | nil => rfl
  | cons c cs ih =>
    rw [List.mem_cons, not_or] at hroot
    have hc : ∀ n, c = .name n → Plain n ∧ n ≠ upward := by
      rintro n rfl
      exact hname n List.mem_cons_self
    rw [List.foldl_cons, List.foldl_cons,
      step_written h.plain (Ne.symm hroot.1) fun n hn => (hc n hn).1]
    exact ih (tidy_pushed h hc) hroot.2 fun n hn => hname n (List.mem_cons_of_mem c hn)

/-- Normalisation writes the segments that are left when every component has taken effect. -/
theorem normalize_eq_written (p : Path) :
    p.normalize = written p.isAbsolute (p.components.foldl pushed []) := by
  have hroot : .root ∉ p.segments.filterMap Component.ofSegment? := by
    intro hmem
    obtain ⟨s, -, hs⟩ := List.mem_filterMap.1 hmem
    rw [Component.ofSegment?] at hs
    split at hs
    · exact absurd hs (by simp)
    · split at hs <;> exact absurd hs (by simp)
  have hname : ∀ n, .name n ∈ p.segments.filterMap Component.ofSegment? →
      Plain n ∧ n ≠ upward := fun n hn =>
    plain_of_name_mem_components (List.mem_append_right _ hn)
  -- the lead only decides whether the path is absolute
  have hstart : p.lead.components.foldl step empty = written p.isAbsolute [] ∧
      p.lead.components.foldl pushed [] = [] := by
    rw [isAbsolute_eq_lead]
    cases p.lead <;> exact ⟨rfl, rfl⟩
  rw [normalize, components, List.foldl_append, List.foldl_append, hstart.1, hstart.2]
  exact foldl_step_written tidy_nil hroot hname

theorem foldl_pushed_names {ts : List Segment} (h : upward ∉ ts) :
    (ts.map Component.ofPlain).foldl pushed ss = ss ++ ts := by
  induction ts generalizing ss with
  | nil => simp
  | cons t ts ih =>
    rw [List.mem_cons, not_or] at h
    have ht : pushed ss (Component.ofPlain t) = ss ++ [t] := by
      rw [Component.ofPlain, if_neg (Ne.symm h.1)]
      rfl
    rw [List.map_cons, List.foldl_cons, ht, ih h.2, List.append_assoc]
    rfl

/-- Tidy segments are left as they are: only the first of them can be a `..`, and that one stays. -/
theorem foldl_pushed_of_tidy (h : Tidy ss) : (ss.map Component.ofPlain).foldl pushed [] = ss := by
  cases ss with
  | nil => rfl
  | cons s ss =>
    have hs : pushed [] (Component.ofPlain s) = [s] := by
      rw [Component.ofPlain]
      split
      · next hup => rw [hup]; rfl
      · rfl
    have hrest : upward ∉ ss := h.upward
    rw [List.map_cons, List.foldl_cons, hs, foldl_pushed_names hrest]
    rfl

/-! ## Canonical paths -/

/-- The path is written as normalisation writes paths. -/
def IsCanonical (p : Path) : Prop := ∃ absolute ss, Tidy ss ∧ p = written absolute ss

theorem isCanonical_normalize (p : Path) : IsCanonical p.normalize :=
  ⟨_, _, tidy_foldl_pushed tidy_nil fun _ => plain_of_name_mem_components, normalize_eq_written p⟩

@[simp] theorem isAbsolute_normalize (p : Path) : p.normalize.isAbsolute = p.isAbsolute := by
  rw [normalize_eq_written]
  exact isAbsolute_written (tidy_foldl_pushed tidy_nil fun _ => plain_of_name_mem_components).plain

theorem IsCanonical.normalize_eq {p : Path} (h : IsCanonical p) : p.normalize = p := by
  obtain ⟨absolute, ss, htidy, rfl⟩ := h
  have hfold : (written absolute ss).components.foldl pushed [] = ss := by
    rw [components_written htidy.plain, List.foldl_append, ← foldl_pushed_of_tidy htidy]
    cases absolute <;> simp [pushed, foldl_pushed_of_tidy htidy]
  rw [normalize_eq_written, isAbsolute_written htidy.plain, hfold]

/-- Among canonical paths, spellings of one path are one path. -/
theorem IsCanonical.eq_of_same {p q : Path} (hp : IsCanonical p) (hq : IsCanonical q)
    (h : p.same q) : p = q := by
  obtain ⟨absolute, ss, hss, rfl⟩ := hp
  obtain ⟨absolute', ss', hss', rfl⟩ := hq
  rw [same_iff] at h
  exact written_eq_of_components_eq hss.plain hss'.plain h

/-- A canonical path is what its spellings are normalised to. -/
theorem IsCanonical.eq_normalize {p q : Path} (hp : IsCanonical p) (h : q.same p) :
    p = q.normalize := by
  rw [same_iff] at h
  rw [normalize, h]
  exact hp.normalize_eq.symm

theorem IsSuffix.plain {suffix : List UInt8} (h : IsSuffix suffix) {s : Segment}
    (hs : separator ∉ s) : Plain (s ++ suffix) ∧ s ++ suffix ≠ upward := by
  have hname := ofSegment?_append h s
  have hsep : separator ∉ s ++ suffix := by
    rw [List.mem_append, not_or]
    exact ⟨hs, h.separator_not_mem⟩
  rw [Component.ofSegment?] at hname
  split at hname
  · exact absurd hname (by simp)
  · next hvoid =>
    split at hname
    · exact absurd hname (by simp)
    · next hup => exact ⟨⟨by simpa using hvoid, hsep⟩, hup⟩

end SvelteTypings.Path
