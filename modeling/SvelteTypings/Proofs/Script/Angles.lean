import Mathlib.Algebra.GroupWithZero.Nat
import SvelteTypings.Proofs.Script.Arrows
import SvelteTypings.Proofs.Script.Initializers
import SvelteTypings.Proofs.Script.Matching

/-!
# Where a matched run is cut

A search at the top level counts `<` and `>` as brackets, and does not go below zero. In a run in
which no `>` within brackets is without its `<` (`IsWellNested`) it counts at least the brackets
that are open, so it ends outside them (`exists_of_cutTop?`). Searches for a closing bracket, or for
the `>` that ends type parameters, do so in every matched run.
-/

namespace SvelteTypings.Script

variable {t : Token} {ts us vs front behind : List Token} {k : Kind} {d e : Nat} {s : List Nat}
  {σ : Type}

/-! ## Angle brackets -/

/-- How many `<` are open after a token in each bracket that is open, the last one first. Outside
all brackets none is counted. -/
def angleStep (s : List Nat) (k : Kind) : Option (List Nat) :=
  if k.opens then some (0 :: s)
  else if k.closes then some s.tail
  else if k = .less then some (s.modifyHead (· + 1))
  else if k = .greater then (if s.head? = some 0 then none else some (s.modifyHead (· - 1)))
  else some s

def anglesOver (s : List Nat) (ts : List Token) : Option (List Nat) :=
  ts.foldlM (fun s t => angleStep s t.kind) s

/-- Within brackets, each `>` has a `<` in front of it in the same brackets. -/
def IsWellNested (ts : List Token) : Prop := (anglesOver [] ts).isSome

instance (ts : List Token) : Decidable (IsWellNested ts) :=
  inferInstanceAs (Decidable ((anglesOver [] ts).isSome = true))

theorem anglesOver_cons (s : List Nat) (t : Token) (ts : List Token) :
    anglesOver s (t :: ts) = (angleStep s t.kind).bind fun s' => anglesOver s' ts := rfl

theorem anglesOver_append (s : List Nat) (ts us : List Token) :
    anglesOver s (ts ++ us) = (anglesOver s ts).bind fun s' => anglesOver s' us :=
  List.foldlM_append

/-- What is open in front of a run does not count in it. -/
theorem angleStep_above {q r : List Nat} (h : angleStep (q ++ s) k = some r)
    (hdepth : depthStep q.length k = some d) :
    ∃ q' s', angleStep q k = some q' ∧ r = q' ++ s' ∧ q'.length = d := by
  -- Both steps ask the same of the kind, and differ only in what lies below.
  unfold angleStep at h ⊢
  unfold depthStep at hdepth
  split at h
  · next hopens =>
    rw [if_pos hopens] at hdepth ⊢
    exact ⟨_, s, rfl, (Option.some.inj h).symm, Option.some.inj hdepth⟩
  next hopens =>
  rw [if_neg hopens] at hdepth ⊢
  split at h
  · next hcloses =>
    rw [if_pos hcloses] at hdepth ⊢
    cases q with
    | nil => exact absurd hdepth (by simp)
    | cons n q => exact ⟨q, s, rfl, (Option.some.inj h).symm, by simpa using hdepth⟩
  next hcloses =>
  rw [if_neg hcloses] at hdepth ⊢
  obtain rfl := Option.some.inj hdepth
  split at h
  · next hless =>
    rw [if_pos hless]
    cases q with
    | nil => exact ⟨[], _, rfl, (Option.some.inj h).symm, rfl⟩
    | cons n q => exact ⟨_, s, rfl, (Option.some.inj h).symm, rfl⟩
  next hless =>
  rw [if_neg hless]
  split at h
  · next hgreater =>
    rw [if_pos hgreater]
    cases q with
    | nil => exact ⟨[], r, rfl, rfl, rfl⟩
    | cons n q =>
      rw [List.cons_append, List.head?_cons] at h
      split at h
      · exact absurd h (by simp)
      · next hn => exact ⟨_, s, if_neg hn, (Option.some.inj h).symm, rfl⟩
  · next hgreater => exact ⟨q, s, if_neg hgreater, (Option.some.inj h).symm, rfl⟩

theorem anglesOver_above {q r : List Nat} (h : anglesOver (q ++ s) ts = some r)
    (hdepth : depthOver q.length ts = some d) :
    ∃ q' s', anglesOver q ts = some q' ∧ r = q' ++ s' ∧ q'.length = d := by
  induction ts generalizing q s with
  | nil => exact ⟨q, s, rfl, (Option.some.inj h).symm, Option.some.inj hdepth⟩
  | cons t ts ih =>
    rw [anglesOver_cons] at h
    rw [depthOver_cons] at hdepth
    obtain ⟨r₁, hstep, hrest⟩ := Option.bind_eq_some_iff.1 h
    obtain ⟨d₁, hdstep, hdrest⟩ := Option.bind_eq_some_iff.1 hdepth
    obtain ⟨q₁, s₁, hq₁, rfl, rfl⟩ := angleStep_above hstep hdstep
    obtain ⟨q', s', hq', hr, hlength⟩ := ih hrest hdrest
    exact ⟨q', s', by rw [anglesOver_cons, hq₁, Option.bind_some, hq'], hr, hlength⟩

namespace IsWellNested

theorem of_append (h : IsWellNested (ts ++ us)) : IsWellNested ts := by
  rw [IsWellNested, anglesOver_append] at h
  obtain ⟨r, hr⟩ := Option.isSome_iff_exists.1 h
  obtain ⟨s', hs', -⟩ := Option.bind_eq_some_iff.1 hr
  exact Option.isSome_of_mem hs'

/-- A run that closes no bracket in front of it is well nested on its own. -/
theorem of_append_right (h : IsWellNested (ts ++ us)) (hus : depthOver 0 us = some d) :
    IsWellNested us := by
  rw [IsWellNested, anglesOver_append] at h
  obtain ⟨r, hr⟩ := Option.isSome_iff_exists.1 h
  obtain ⟨s', -, hs'⟩ := Option.bind_eq_some_iff.1 hr
  obtain ⟨q', -, hq', -⟩ := anglesOver_above (q := []) hs' hus
  exact Option.isSome_of_mem hq'

end IsWellNested

/-! ## The top level -/

/-- The depth at the top level is at least that of brackets and angle brackets. -/
theorem depthAfter_ge (h : angleStep s k = some s') (hd : s.length + s.sum ≤ d) :
    s'.length + s'.sum ≤ depthAfter d k := by
  unfold angleStep at h
  unfold depthAfter Kind.descends Kind.ascends
  -- An opening bracket, a closing one, each of the angle brackets, and all others.
  split at h
  · next hopens =>
    obtain rfl := Option.some.inj h
    simp [hopens]
    omega
  next hopens =>
  split at h
  · next hcloses =>
    obtain rfl := Option.some.inj h
    have hless : k ≠ .less := by rintro rfl; exact absurd hcloses (by decide)
    rw [if_neg (by simp [hopens, hless]), if_pos (by simp [hcloses])]
    cases s with
    | nil => simp
    | cons n s => simp at hd ⊢; omega
  next hcloses =>
  split at h
  · next hless =>
    obtain rfl := Option.some.inj h
    rw [if_pos (by simp [hless])]
    cases s with
    | nil => simp
    | cons n s => simp at hd ⊢; omega
  next hless =>
  rw [if_neg (by simp [hopens, hless])]
  split at h
  · next hgreater =>
    rw [if_pos (by simp [hgreater])]
    split at h
    · exact absurd h (by simp)
    · next hn =>
      obtain rfl := Option.some.inj h
      cases s with
      | nil => simp
      | cons n s => simp at hd hn ⊢; omega
  · next hgreater =>
    rw [if_neg (by simp [hcloses, hgreater]), ← Option.some.inj h]
    exact hd

theorem past_topSearch_ge (h : (topSearch k).past d ts = some e) (hs : anglesOver s ts = some s')
    (hd : s.length + s.sum ≤ d) : s'.length + s'.sum ≤ e := by
  induction ts generalizing d s with
  | nil =>
    obtain rfl := Option.some.inj h
    obtain rfl := Option.some.inj hs
    exact hd
  | cons t ts ih =>
    rw [Search.past_cons] at h
    rw [anglesOver_cons] at hs
    obtain ⟨d₁, hstep, hrest⟩ := Option.bind_eq_some_iff.1 h
    obtain ⟨s₁, hangle, hangles⟩ := Option.bind_eq_some_iff.1 hs
    have hdepth : depthAfter d t.kind = d₁ := by
      simp only [topSearch] at hstep
      split at hstep
      · exact absurd hstep (by simp)
      · exact Option.some.inj hstep
    exact ih hrest hangles (hdepth ▸ depthAfter_ge hangle hd)

/-- **A well nested run is cut at depth zero.** -/
theorem isBalanced_of_past (h : (topSearch k).past 0 front = some 0) (hnested : IsWellNested front)
    (hdepth : depthOver 0 front = some d) : isBalanced front := by
  obtain ⟨s, hs⟩ := Option.isSome_iff_exists.1 hnested
  have hge := past_topSearch_ge h hs (Nat.le_refl 0)
  obtain ⟨q, s', hq, -, hlength⟩ := anglesOver_above (q := []) (s := []) hs hdepth
  obtain rfl : s = q := Option.some.inj (hs.symm.trans hq)
  obtain rfl : d = 0 := by omega
  exact isBalanced_iff.2 hdepth

/-! ## Cuts -/

/-- Where a search cuts a run. -/
theorem Search.exists_of_cut? {S : Search σ} {s : σ} {parts : List Token × List Token}
    (h : S.cut? s ts = some parts) :
    ∃ front t s' kept, ts = front ++ t :: parts.2 ∧ parts.1 = front ++ kept ∧
      S.past s front = some s' ∧ S.step s' t = none ∧ S.found s' t = some kept := by
  induction ts generalizing s parts with
  | nil => exact absurd h (by simp [cut?])
  | cons t ts ih =>
    rw [cut?] at h
    cases hstep : S.step s t with
    | some s₁ =>
      rw [hstep] at h
      obtain ⟨rest, hrest, rfl⟩ := Option.map_eq_some_iff.1 h
      obtain ⟨front, u, s', kept, rfl, hkept, hpast, hstop, hfound⟩ := ih hrest
      refine ⟨t :: front, u, s', kept, rfl, ?_, ?_, hstop, hfound⟩
      · rw [consBefore, hkept]
        rfl
      · rw [past_cons, hstep]
        exact hpast
    | none =>
      rw [hstep] at h
      obtain ⟨kept, hkept, rfl⟩ := Option.map_eq_some_iff.1 h
      exact ⟨[], t, s, kept, rfl, rfl, rfl, hstep, hkept⟩

theorem exists_of_cutAt? {p : Token → Bool} (h : cutAt? p ts = some (front, behind)) :
    ∃ t, ts = front ++ t :: behind ∧ p t ∧ ∀ u ∈ front, p u = false := by
  induction ts generalizing front with
  | nil => exact absurd h (by simp [cutAt?])
  | cons t ts ih =>
    rw [cutAt?] at h
    split at h
    · next ht =>
      obtain ⟨rfl, rfl⟩ := Prod.mk.inj (Option.some.inj h)
      exact ⟨t, rfl, ht, fun u hu => absurd hu List.not_mem_nil⟩
    · next ht =>
      obtain ⟨parts, hparts, heq⟩ := Option.map_eq_some_iff.1 h
      obtain ⟨rfl, rfl⟩ := Prod.mk.inj heq
      obtain ⟨u, rfl, hu, hfront⟩ := ih hparts
      exact ⟨u, rfl, hu, List.forall_mem_cons.2 ⟨by simpa using ht, hfront⟩⟩

theorem exists_of_cutTop? (h : cutTop? k 0 ts = some (front, behind)) (hmatched : isMatched ts)
    (hnested : IsWellNested front) :
    ∃ t, t.kind = k ∧ ts = front ++ t :: behind ∧ isBalanced front := by
  rw [cutTop?_eq] at h
  obtain ⟨before, t, e, kept, hts, hkept, hpast, hstop, hfound⟩ := Search.exists_of_cut? h
  obtain rfl : kept = [] := (Option.some.inj hfound).symm
  obtain rfl : front = before := by simpa using hkept
  have ht : t.kind = k ∧ e = 0 := by
    simp only [topSearch] at hstop
    split at hstop
    · assumption
    · exact absurd hstop (by simp)
  obtain ⟨d, hd⟩ := exists_depthOver_of_append (hts ▸ hmatched)
  exact ⟨t, ht.1, hts, isBalanced_of_past (ht.2 ▸ hpast) hnested hd⟩

theorem splitTop_eq (k : Kind) (d : Nat) (ts : List Token) :
    splitTop k d ts = match cutTop? k d ts with
      | some (part, rest) => part :: splitTop k 0 rest
      | none => [ts] := by
  induction ts generalizing d with
  | nil => rfl
  | cons t ts ih =>
    rw [splitTop, cutTop?]
    split
    · next h => rw [h.2]
    · rw [ih]
      cases cutTop? k (depthAfter d t.kind) ts <;> rfl

theorem matchStep_above {p q r : List Kind} (h : matchStep (p ++ r) k = some q)
    (hdepth : depthStep p.length k = some d) :
    ∃ p', matchStep p k = some p' ∧ q = p' ++ r ∧ p'.length = d := by
  unfold depthStep at hdepth
  rcases matchStep_cases h with ⟨hopens, rfl⟩ | ⟨hopens, hcloses, o, hp, hcloser⟩ |
    ⟨hopens, hcloses, rfl⟩
  · rw [if_pos hopens] at hdepth
    exact ⟨k :: p, matchStep_of_opens hopens p, rfl, Option.some.inj hdepth⟩
  · rw [if_neg (by simp [hopens]), if_pos hcloses] at hdepth
    cases p with
    | nil => exact absurd hdepth (by simp)
    | cons o' p =>
      obtain ⟨rfl, rfl⟩ := List.cons.inj hp
      exact ⟨p, matchStep_of_closes hopens hcloses hcloser p, rfl, by simpa using hdepth⟩
  · rw [if_neg (by simp [hopens]), if_neg (by simp [hcloses])] at hdepth
    exact ⟨p, matchStep_plain hopens hcloses p, rfl, Option.some.inj hdepth⟩

/-- What is open in front of a run does not count, if the run does not close it. -/
theorem matchOver_above {p q r : List Kind} (h : matchOver (p ++ r) ts = some q)
    (hdepth : depthOver p.length ts = some d) :
    ∃ p', matchOver p ts = some p' ∧ q = p' ++ r ∧ p'.length = d := by
  induction ts generalizing p with
  | nil => exact ⟨p, rfl, (Option.some.inj h).symm, Option.some.inj hdepth⟩
  | cons t ts ih =>
    rw [matchOver_cons] at h
    rw [depthOver_cons] at hdepth
    obtain ⟨q₁, hstep, hrest⟩ := Option.bind_eq_some_iff.1 h
    obtain ⟨d₁, hdstep, hdrest⟩ := Option.bind_eq_some_iff.1 hdepth
    obtain ⟨p₁, hp₁, rfl, rfl⟩ := matchStep_above hstep hdstep
    obtain ⟨p', hp', hq, hlength⟩ := ih hrest hdrest
    exact ⟨p', by rw [matchOver_cons, hp₁, Option.bind_some, hp'], hq, hlength⟩

/-- A bracket, what stands in it, and what closes it, in front of a matched run. -/
theorem isMatched_of_block {opening closing : Token} (hopens : opening.kind.opens)
    (hcloses : closing.kind.closes) (hinside : isBalanced us)
    (h : isMatched (opening :: (us ++ closing :: vs))) :
    closing.kind = opening.kind.closer ∧ isMatched us ∧ isMatched vs := by
  rw [isMatched_iff, matchOver_cons, matchStep_of_opens hopens, Option.bind_some,
    matchOver_append] at h
  obtain ⟨q, hq, hrest⟩ := Option.bind_eq_some_iff.1 h
  obtain ⟨p, hp, rfl, hlength⟩ := matchOver_above (p := []) hq (isBalanced_iff.1 hinside)
  obtain rfl := List.length_eq_zero_iff.1 hlength
  rw [List.nil_append, matchOver_cons] at hrest
  obtain ⟨r, hstep, hvs⟩ := Option.bind_eq_some_iff.1 hrest
  have hcopens : closing.kind.opens = false := by
    cases hkind : closing.kind <;> rw [hkind] at hcloses <;>
      first | rfl | exact absurd hcloses (by decide)
  rcases matchStep_cases hstep with ⟨hopens', -⟩ | ⟨-, -, o, ho, hcloser⟩ | ⟨-, hcloses', -⟩
  · exact absurd hopens' (by simp [hcopens])
  · obtain ⟨rfl, rfl⟩ := List.cons.inj ho
    exact ⟨hcloser.symm, isMatched_iff.2 hp, isMatched_iff.2 hvs⟩
  · exact absurd hcloses' (by simp [hcloses])

/-- The bracket that closes the first one, and the matched runs in it and behind it. -/
theorem exists_of_cutClosing? (h : cutClosing? 1 ts = some (front, behind))
    (hmatched : isMatched (t :: ts)) (hopens : t.kind.opens) :
    ∃ closing, ts = front ++ closing :: behind ∧ closing.kind = t.kind.closer ∧ isMatched front ∧
      isMatched behind := by
  rw [cutClosing?_eq] at h
  obtain ⟨before, closing, e, kept, hts, hkept, hpast, hstop, hfound⟩ := Search.exists_of_cut? h
  obtain rfl : kept = [] := (Option.some.inj hfound).symm
  obtain rfl : front = before := by simpa using hkept
  have hdepth : depthOver 0 front = some e := hpast
  have hcloses : closing.kind.closes ∧ e = 0 := by
    have hstop : depthStep e closing.kind = none := hstop
    unfold depthStep at hstop
    split at hstop
    · exact absurd hstop (by simp)
    split at hstop
    · next hcloses => exact ⟨hcloses, by simpa using hstop⟩
    · exact absurd hstop (by simp)
  obtain ⟨hcloses, rfl⟩ := hcloses
  have hblock := isMatched_of_block hopens hcloses (isBalanced_iff.2 hdepth) (hts ▸ hmatched)
  exact ⟨closing, hts, hblock⟩

/-- A search for `>` counts the brackets of a run that closes none in front of it. -/
theorem depth_of_angleSearch {a b a' b' : Nat} (h : angleSearch.past (a, b) ts = some (a', b'))
    (hdepth : depthOver b ts = some d) : b' = d := by
  induction ts generalizing a b with
  | nil =>
    obtain ⟨-, rfl⟩ := Prod.mk.inj (Option.some.inj h)
    exact Option.some.inj hdepth
  | cons t ts ih =>
    rw [Search.past_cons] at h
    rw [depthOver_cons] at hdepth
    obtain ⟨⟨a₁, b₁⟩, hstep, hrest⟩ := Option.bind_eq_some_iff.1 h
    obtain ⟨d₁, hdstep, hdrest⟩ := Option.bind_eq_some_iff.1 hdepth
    refine ih hrest ?_
    rw [show b₁ = d₁ from ?_]
    · exact hdrest
    · unfold depthStep at hdstep
      simp only [angleSearch] at hstep
      split at hstep
      · next hopens => simp_all
      next hopens =>
      rw [if_neg hopens] at hdstep
      split at hstep
      · next hcloses =>
        rw [if_pos hcloses] at hdstep
        split at hdstep
        · exact absurd hdstep (by simp)
        · simp_all
      next hcloses =>
      rw [if_neg hcloses] at hdstep
      split at hstep
      · simp_all
      split at hstep
      · split at hstep <;> simp_all
      · simp_all

/-- The `>` that closes a `<` is outside the brackets behind it. -/
theorem exists_of_cutAngle? (h : cutAngle? 1 0 ts = some (front, behind))
    (hmatched : isMatched ts) : ts = front ++ behind ∧ isBalanced front := by
  rw [cutAngle?_eq] at h
  obtain ⟨before, t, ⟨a, b⟩, kept, hts, hkept, hpast, hstop, hfound⟩ := Search.exists_of_cut? h
  obtain ⟨d, hd⟩ := exists_depthOver_of_append (hts ▸ hmatched)
  obtain rfl := depth_of_angleSearch hpast hd
  have ht : t.kind = .greater ∧ b = 0 := by
    simp only [angleSearch] at hstop
    split at hstop
    · exact absurd hstop (by simp)
    split at hstop
    · exact absurd hstop (by simp)
    split at hstop
    · exact absurd hstop (by simp)
    split at hstop
    · assumption
    · exact absurd hstop (by simp)
  obtain rfl : kept = [t] := by
    simp only [angleSearch] at hfound
    split at hfound
    · exact (Option.some.inj hfound).symm
    · exact absurd hfound (by simp)
  dsimp only at hts hkept
  subst hkept
  refine ⟨by simp [hts], isBalanced_iff.2 ?_⟩
  have hstep : depthStep 0 t.kind = some 0 := by
    rw [ht.1]
    rfl
  rw [depthOver_append, hd, ht.2, Option.bind_some, depthOver_cons, hstep]
  rfl

end SvelteTypings.Script
