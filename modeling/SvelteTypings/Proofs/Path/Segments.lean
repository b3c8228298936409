import SvelteTypings.Path.Suffix

/-!
# Splitting and joining

`split` and `joined` undo each other. A suffix without a separator goes to the last segment of a
path, so it decides the last component and leaves the others: two paths that are one with a suffix
appended are one with any other suffix appended (`same_appendSuffix_congr`).
-/

namespace SvelteTypings.Path

/-! ## Segments -/

theorem split_ne_nil (b : List UInt8) : split b ≠ [] := by
  cases b with
  | nil => simp [split]
  | cons x b =>
    rw [split]
    split
    · simp
    · cases split b <;> simp [consByte]

@[simp] theorem split_separator (b : List UInt8) : split (separator :: b) = [] :: split b := by
  simp [split]

theorem split_cons {x : UInt8} (h : x ≠ separator) (b : List UInt8) :
    split (x :: b) = consByte x (split b) := by
  simp [split, h]

theorem separator_not_mem_of_mem_split {b : List UInt8} {s : Segment} (h : s ∈ split b) :
    separator ∉ s := by
  induction b generalizing s with
  | nil =>
    rw [split, List.mem_singleton] at h
    simp [h]
  | cons x b ih =>
    by_cases hx : x = separator
    · rw [hx, split_separator] at h
      rcases List.mem_cons.1 h with rfl | h
      · exact List.not_mem_nil
      · exact ih h
    · rw [split_cons hx] at h
      cases hs : split b with
      | nil => exact absurd hs (split_ne_nil b)
      | cons s' ss =>
        rw [hs, consByte] at h
        rcases List.mem_cons.1 h with rfl | h
        · rw [List.mem_cons, not_or]
          exact ⟨Ne.symm hx, ih (hs ▸ List.mem_cons_self)⟩
        · exact ih (hs ▸ List.mem_cons_of_mem s' h)

theorem joined_cons {s : Segment} {ss : List Segment} (h : ss ≠ []) :
    joined (s :: ss) = s ++ separator :: joined ss := by
  cases ss with
  | nil => exact absurd rfl h
  | cons t ss => rfl

theorem joined_consByte (x : UInt8) {ss : List Segment} (h : ss ≠ []) :
    joined (consByte x ss) = x :: joined ss := by
  cases ss with
  | nil => exact absurd rfl h
  | cons s ss => cases ss <;> rfl

theorem joined_split (b : List UInt8) : joined (split b) = b := by
  induction b with
  | nil => rfl
  | cons x b ih =>
    by_cases hx : x = separator
    · rw [hx, split_separator, joined_cons (split_ne_nil b), ih, List.nil_append]
    · rw [split_cons hx, joined_consByte x (split_ne_nil b), ih]

/-- A segment in front of a separator is split off whole. -/
theorem split_append_separator {s : Segment} (h : separator ∉ s) (b : List UInt8) :
    split (s ++ separator :: b) = s :: split b := by
  induction s with
  | nil => exact split_separator b
  | cons x s ih =>
    rw [List.mem_cons, not_or] at h
    rw [List.cons_append, split_cons (Ne.symm h.1), ih h.2, consByte]

theorem split_eq_singleton {s : Segment} (h : separator ∉ s) : split s = [s] := by
  induction s with
  | nil => rfl
  | cons x s ih =>
    rw [List.mem_cons, not_or] at h
    rw [split_cons (Ne.symm h.1), ih h.2, consByte]

theorem split_joined {ss : List Segment} (hne : ss ≠ []) (h : ∀ s ∈ ss, separator ∉ s) :
    split (joined ss) = ss := by
  induction ss with
  | nil => exact absurd rfl hne
  | cons s ss ih =>
    have hs : separator ∉ s := h s List.mem_cons_self
    by_cases hss : ss = []
    · rw [hss, joined, split_eq_singleton hs]
    · rw [joined_cons hss, split_append_separator hs,
        ih hss fun t ht => h t (List.mem_cons_of_mem s ht)]

/-! ## The last segment -/

theorem joined_concat {ss : List Segment} (h : ss ≠ []) (s : Segment) :
    joined (ss ++ [s]) = joined ss ++ separator :: s := by
  induction ss with
  | nil => exact absurd rfl h
  | cons t ss ih =>
    by_cases hss : ss = []
    · rw [hss]
      rfl
    · rw [List.cons_append, joined_cons (by simp), ih hss, joined_cons hss, List.append_assoc,
        List.cons_append]

theorem joined_append_last (front : List Segment) (last suffix : Segment) :
    joined (front ++ [last ++ suffix]) = joined (front ++ [last]) ++ suffix := by
  induction front with
  | nil => rfl
  | cons s front ih =>
    rw [List.cons_append, List.cons_append, joined_cons (by simp), joined_cons (by simp), ih,
      List.append_assoc, List.cons_append]

/-- What is appended without a separator goes to the last segment. -/
theorem split_append {b suffix : List UInt8} {front : List Segment} {last : Segment}
    (hsplit : split b = front ++ [last]) (h : separator ∉ suffix) :
    split (b ++ suffix) = front ++ [last ++ suffix] := by
  have hmem : ∀ s ∈ front ++ [last], separator ∉ s := fun s hs =>
    separator_not_mem_of_mem_split (hsplit ▸ hs)
  have hlast : separator ∉ last ++ suffix := by
    rw [List.mem_append, not_or]
    exact ⟨hmem last (by simp), h⟩
  have hall : ∀ s ∈ front ++ [last ++ suffix], separator ∉ s := by
    intro s hs
    rcases List.mem_append.1 hs with hs | hs
    · exact hmem s (List.mem_append_left _ hs)
    · rw [List.mem_singleton.1 hs]
      exact hlast
  -- join what was split, append to the last segment there, and split again
  calc split (b ++ suffix)
      = split (joined (front ++ [last]) ++ suffix) := by rw [← hsplit, joined_split]
    _ = split (joined (front ++ [last ++ suffix])) := by rw [joined_append_last]
    _ = front ++ [last ++ suffix] := split_joined (by simp) hall

theorem exists_split_eq (b : List UInt8) : ∃ front last, split b = front ++ [last] :=
  ⟨(split b).dropLast, (split b).getLast (split_ne_nil b),
    (List.dropLast_concat_getLast (split_ne_nil b)).symm⟩

/-! ## Components -/

@[simp] theorem ofSegment?_nil : Component.ofSegment? [] = none := rfl

@[simp] theorem ofSegment?_dot : Component.ofSegment? [dot] = none := rfl

/-- The lead takes no component away from the segments. -/
theorem components_eq_split (p : Path) :
    p.components = p.lead.components ++ (split p.bytes).filterMap Component.ofSegment? := by
  obtain ⟨b⟩ := p
  have hsegments : (split (cutLead b).2).filterMap Component.ofSegment? =
      (split b).filterMap Component.ofSegment? := by
    cases b with
    | nil => rfl
    | cons x b =>
      rw [cutLead]
      split
      · next hx => rw [hx, split_separator, List.filterMap_cons_none ofSegment?_nil]
      · split
        · next hx hhere =>
          obtain ⟨rfl, hb⟩ := hhere
          cases b with
          | nil => rfl
          | cons y b =>
            have hy : y = separator := by simpa using hb
            rw [split_cons hx, hy, split_separator, consByte,
              List.filterMap_cons_none ofSegment?_nil, List.filterMap_cons_none ofSegment?_dot]
        · rfl
  rw [components, segments, hsegments]

/-- A suffix that makes a name of every segment it is appended to: it has no separator, and is too
long to stop at `.` or `..`. -/
structure IsSuffix (suffix : List UInt8) : Prop where
  separator_not_mem : separator ∉ suffix
  length : 2 < suffix.length

instance (suffix : List UInt8) : Decidable (IsSuffix suffix) :=
  decidable_of_iff (separator ∉ suffix ∧ 2 < suffix.length)
    ⟨fun h => ⟨h.1, h.2⟩, fun h => ⟨h.separator_not_mem, h.length⟩⟩

theorem ofSegment?_append {suffix : List UInt8} (h : IsSuffix suffix) (s : Segment) :
    Component.ofSegment? (s ++ suffix) = some (.name (s ++ suffix)) := by
  have hlength : 2 < (s ++ suffix).length := by
    rw [List.length_append]
    exact Nat.lt_add_left _ h.length
  have hnil : s ++ suffix ≠ [] := fun heq => by simp [heq] at hlength
  have hdot : s ++ suffix ≠ [dot] := fun heq => by simp [heq] at hlength
  have hdots : s ++ suffix ≠ [dot, dot] := fun heq => by simp [heq] at hlength
  simp only [Component.ofSegment?, isVoid, decide_eq_false hnil, decide_eq_false hdot,
    if_neg hdots, Bool.or_false]
  rfl

/-- The lead of a path with a suffix is told by the segments before the last. -/
def leadOf : List Segment → Lead
  | [] => .none
  | s :: _ => if s = [] then .absolute else if s = [dot] then .here else .none

theorem lead_of_split {p : Path} {front : List Segment} {last : Segment}
    (hsplit : split p.bytes = front ++ [last]) (hlast : front = [] → last ≠ [dot]) :
    p.lead = leadOf front := by
  have hbytes : p.bytes = joined (front ++ [last]) := by rw [← hsplit, joined_split]
  have hmem : ∀ s ∈ front ++ [last], separator ∉ s := fun s hs =>
    separator_not_mem_of_mem_split (hsplit ▸ hs)
  rw [lead, hbytes]
  cases front with
  | nil =>
    -- one segment alone: only a lone `.` would be a lead
    have hs : separator ∉ last := hmem last List.mem_cons_self
    cases last with
    | nil => rfl
    | cons x rest =>
      rw [List.mem_cons, not_or] at hs
      have hhead : rest.head? ≠ some separator := fun h => hs.2 (List.mem_of_mem_head? h)
      have hhere : ¬ (x = dot ∧ (rest = [] ∨ rest.head? = some separator)) := by
        rintro ⟨rfl, rfl | h⟩
        · exact hlast rfl rfl
        · exact hhead h
      simp only [List.nil_append, joined, cutLead, leadOf, if_neg (Ne.symm hs.1), if_neg hhere]
  | cons s front =>
    have hs : separator ∉ s := hmem s (List.mem_cons_self)
    rw [List.cons_append, joined_cons (by simp)]
    cases s with
    | nil => rfl
    | cons x rest =>
      rw [List.mem_cons, not_or] at hs
      rw [List.cons_append, cutLead, if_neg (Ne.symm hs.1), leadOf, if_neg (List.cons_ne_nil _ _)]
      cases rest with
      | nil => by_cases hx : x = dot <;> simp [hx]
      | cons y rest =>
        have hy : y ≠ separator := fun h => hs.2 (h ▸ List.mem_cons_self)
        simp [hy]

/-- A suffix makes a name of the last segment and leaves the components in front of it. -/
theorem components_appendSuffix {p : Path} {front : List Segment} {last : Segment} {suffix : String}
    (hsplit : split p.bytes = front ++ [last]) (h : IsSuffix (Text.encode suffix)) :
    (p.appendSuffix suffix).components =
      (leadOf front).components ++ front.filterMap Component.ofSegment? ++
        [.name (last ++ Text.encode suffix)] := by
  have hsplit' : split (p.appendSuffix suffix).bytes = front ++ [last ++ Text.encode suffix] :=
    split_append hsplit h.separator_not_mem
  have hdot : last ++ Text.encode suffix ≠ [dot] := by
    intro heq
    have hlength := h.length
    have htotal := congrArg List.length heq
    simp only [List.length_append, List.length_cons, List.length_nil] at htotal
    omega
  rw [components_eq_split, lead_of_split hsplit' fun _ => hdot, hsplit', List.filterMap_append,
    List.filterMap_cons_some (ofSegment?_append h last), List.filterMap_nil, List.append_assoc]

/-- Paths with one suffix are compared by the segments that they had before. -/
theorem appendSuffix_same_iff {p q : Path} {front front' : List Segment} {last last' : Segment}
    {suffix : String} (hp : split p.bytes = front ++ [last])
    (hq : split q.bytes = front' ++ [last']) (h : IsSuffix (Text.encode suffix)) :
    (p.appendSuffix suffix).same (q.appendSuffix suffix) ↔
      ((leadOf front).components ++ front.filterMap Component.ofSegment? =
        (leadOf front').components ++ front'.filterMap Component.ofSegment?) ∧ last = last' := by
  rw [same_iff, components_appendSuffix hp h, components_appendSuffix hq h]
  refine ⟨?_, ?_⟩
  · intro heq
    obtain ⟨hfront, hname⟩ := List.append_inj' heq rfl
    rw [List.cons.injEq, Component.name.injEq] at hname
    exact ⟨hfront, List.append_cancel_right hname.1⟩
  · rintro ⟨hfront, rfl⟩
    rw [hfront]

/-- Whether two paths are one with a suffix appended does not depend on the suffix. -/
theorem same_appendSuffix_congr {p q : Path} {s t : String} (hs : IsSuffix (Text.encode s))
    (ht : IsSuffix (Text.encode t)) :
    (p.appendSuffix s).same (q.appendSuffix s) ↔ (p.appendSuffix t).same (q.appendSuffix t) := by
  obtain ⟨front, last, hp⟩ := exists_split_eq p.bytes
  obtain ⟨front', last', hq⟩ := exists_split_eq q.bytes
  rw [appendSuffix_same_iff hp hq hs, appendSuffix_same_iff hp hq ht]

/-- A path is told by what it is with a suffix. -/
theorem appendSuffix_injective {p q : Path} {s : String} (h : p.appendSuffix s = q.appendSuffix s) :
    p = q := by
  have hp := stripSuffix?_appendSuffix p s
  rw [h, stripSuffix?_appendSuffix, Option.some.injEq] at hp
  exact hp.symm

theorem isSuffix_intermediate : IsSuffix (Text.encode intermediateSuffix) :=
  ⟨by decide, by decide⟩

theorem isSuffix_typed : IsSuffix (Text.encode typedSuffix) := ⟨by decide, by decide⟩

theorem isSuffix_declaration : IsSuffix (Text.encode declarationSuffix) := ⟨by decide, by decide⟩

end SvelteTypings.Path
