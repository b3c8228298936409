import SvelteTypings.Proofs.Script.Bodies

/-!
# Matched brackets

Depth counts brackets without regard to their kind. In a run whose brackets match, kinds take care of
themselves: what is cut off at depth zero is matched, and so is the rest (`isMatched_of_append`). So
it is enough to know of each search where it ends. A search for a closing bracket or a `>` ends at
depth zero in every matched run; one for a comma, a colon or `=` does so if no `>` within brackets
is without its `<` (`IsWellNested`).
-/

namespace SvelteTypings.Script

variable {k : Kind} {t : Token} {ts us front : List Token} {p q : List Kind} {d e : Nat}

/-! ## Kinds of brackets -/

/-- The bracket that closes an opening one. -/
def Kind.closer : Kind → Kind
  | .openBrace => .closeBrace
  | .openParen => .closeParen
  | .openBracket => .closeBracket
  | k => k

/-- The brackets that are open after a token, last one first, unless it closes another than the
last. -/
def matchStep (p : List Kind) (k : Kind) : Option (List Kind) :=
  if k.opens then some (k :: p)
  else if k.closes then
    match p with
    | [] => none
    | o :: p => if o.closer = k then some p else none
  else some p

/-- The brackets that are open after a run. -/
def matchOver (p : List Kind) (ts : List Token) : Option (List Kind) :=
  ts.foldlM (fun p t => matchStep p t.kind) p

/-- Every bracket closes the last one that is open, which is of its kind, and none stays open. -/
def isMatched (ts : List Token) : Bool := matchOver [] ts = some []

theorem isMatched_iff : isMatched ts ↔ matchOver [] ts = some [] := by simp [isMatched]

theorem matchOver_nil (p : List Kind) : matchOver p [] = some p := rfl

theorem matchOver_cons (p : List Kind) (t : Token) (ts : List Token) :
    matchOver p (t :: ts) = (matchStep p t.kind).bind fun q => matchOver q ts := rfl

theorem matchOver_append (p : List Kind) (ts us : List Token) :
    matchOver p (ts ++ us) = (matchOver p ts).bind fun q => matchOver q us :=
  List.foldlM_append

/-- A bracket opens, it closes the last one that is open, or there is none. -/
theorem matchStep_cases (h : matchStep p k = some q) :
    (k.opens ∧ q = k :: p) ∨
    (k.opens = false ∧ k.closes ∧ ∃ o, p = o :: q ∧ o.closer = k) ∨
    (k.opens = false ∧ k.closes = false ∧ q = p) := by
  unfold matchStep at h
  cases hopens : k.opens with
  | true =>
    rw [if_pos hopens] at h
    exact Or.inl ⟨rfl, (Option.some.inj h).symm⟩
  | false =>
    rw [if_neg (by simp [hopens])] at h
    cases hcloses : k.closes with
    | false =>
      rw [if_neg (by simp [hcloses])] at h
      exact Or.inr (Or.inr ⟨rfl, rfl, (Option.some.inj h).symm⟩)
    | true =>
      rw [if_pos hcloses] at h
      cases p with
      | nil => exact absurd h (by simp)
      | cons o p =>
        by_cases hcloser : o.closer = k
        · refine Or.inr (Or.inl ⟨rfl, rfl, o, ?_, hcloser⟩)
          rw [Option.some.inj ((if_pos hcloser).symm.trans h)]
        · exact absurd ((if_neg hcloser).symm.trans h) (by simp)

theorem matchStep_of_opens (h : k.opens) (p : List Kind) : matchStep p k = some (k :: p) := if_pos h

theorem matchStep_of_closes (hopens : k.opens = false) (hcloses : k.closes) {o : Kind}
    (hcloser : o.closer = k) (p : List Kind) : matchStep (o :: p) k = some p := by
  simp [matchStep, hopens, hcloses, hcloser]

theorem matchStep_plain (hopens : k.opens = false) (hcloses : k.closes = false) (p : List Kind) :
    matchStep p k = some p := by
  simp [matchStep, hopens, hcloses]

theorem matchOver_plain (h : ∀ t ∈ ts, t.kind.opens = false ∧ t.kind.closes = false)
    (p : List Kind) : matchOver p ts = some p := by
  induction ts with
  | nil => rfl
  | cons t ts ih =>
    obtain ⟨ht, hts⟩ := List.forall_mem_cons.1 h
    rw [matchOver_cons, matchStep_plain ht.1 ht.2, Option.bind_some, ih hts]

/-- A run without brackets is matched. -/
theorem isMatched_plain (h : ∀ t ∈ ts, t.kind.opens = false ∧ t.kind.closes = false) :
    isMatched ts :=
  isMatched_iff.2 (matchOver_plain h [])

/-! ### Depth -/

theorem depthStep_of_matchStep (h : matchStep p k = some q) :
    depthStep p.length k = some q.length := by
  unfold depthStep
  rcases matchStep_cases h with ⟨hopens, rfl⟩ | ⟨hopens, hcloses, o, rfl, -⟩ | ⟨hopens, hcloses, rfl⟩
  · simp [hopens]
  · simp [hopens, hcloses]
  · simp [hopens, hcloses]

theorem depthOver_of_matchOver (h : matchOver p ts = some q) :
    depthOver p.length ts = some q.length := by
  induction ts generalizing p with
  | nil =>
    rw [matchOver_nil, Option.some.injEq] at h
    rw [depthOver_nil, h]
  | cons t ts ih =>
    rw [matchOver_cons] at h
    obtain ⟨r, hstep, hrest⟩ := Option.bind_eq_some_iff.1 h
    rw [depthOver_cons, depthStep_of_matchStep hstep]
    exact ih hrest

/-- What is matched is balanced. -/
theorem isBalanced_of_isMatched (h : isMatched ts) : isBalanced ts :=
  isBalanced_iff.2 (depthOver_of_matchOver (isMatched_iff.1 h))

theorem exists_matchOver_of_append (h : isMatched (ts ++ us)) :
    ∃ q, matchOver [] ts = some q ∧ matchOver q us = some [] := by
  rw [isMatched_iff, matchOver_append] at h
  exact Option.bind_eq_some_iff.1 h

/-- A matched run has a depth wherever it is cut. -/
theorem exists_depthOver_of_append (h : isMatched (ts ++ us)) : ∃ d, depthOver 0 ts = some d := by
  obtain ⟨q, hq, -⟩ := exists_matchOver_of_append h
  exact ⟨q.length, depthOver_of_matchOver hq⟩

/-- **A matched run that is cut at depth zero is matched on both sides.** -/
theorem isMatched_of_append (h : isMatched (ts ++ us)) (hts : isBalanced ts) :
    isMatched ts ∧ isMatched us := by
  obtain ⟨q, hq, hrest⟩ := exists_matchOver_of_append h
  have hlength : some q.length = some 0 := by
    rw [← isBalanced_iff.1 hts]
    exact (depthOver_of_matchOver hq).symm
  obtain rfl : q = [] := List.length_eq_zero_iff.1 (Option.some.inj hlength)
  exact ⟨isMatched_iff.2 hq, isMatched_iff.2 hrest⟩

theorem isMatched_append (hts : isMatched ts) (hus : isMatched us) : isMatched (ts ++ us) := by
  rw [isMatched_iff, matchOver_append, isMatched_iff.1 hts]
  exact isMatched_iff.1 hus

theorem isMatched_of_cons (h : isMatched (t :: ts)) (hopens : t.kind.opens = false)
    (hcloses : t.kind.closes = false) : isMatched ts := by
  rwa [isMatched_iff, matchOver_cons, matchStep_plain hopens hcloses, Option.bind_some,
    ← isMatched_iff] at h

/-- A token that is no bracket, at depth zero, separates matched runs. -/
theorem isMatched_of_append_cons (h : isMatched (ts ++ t :: us)) (hts : isBalanced ts)
    (hopens : t.kind.opens = false) (hcloses : t.kind.closes = false) :
    isMatched ts ∧ isMatched us := by
  obtain ⟨hts, hrest⟩ := isMatched_of_append h hts
  exact ⟨hts, isMatched_of_cons hrest hopens hcloses⟩

/-! ### Within brackets -/

theorem matchStep_below (h : matchStep p k = some q) (r : List Kind) :
    matchStep (p ++ r) k = some (q ++ r) := by
  rcases matchStep_cases h with ⟨hopens, rfl⟩ | ⟨hopens, hcloses, o, rfl, hcloser⟩ |
    ⟨hopens, hcloses, rfl⟩
  · exact matchStep_of_opens hopens _
  · exact matchStep_of_closes hopens hcloses hcloser _
  · exact matchStep_plain hopens hcloses _

/-- Brackets that are open in front of a run stay open over it. -/
theorem matchOver_below (h : matchOver p ts = some q) (r : List Kind) :
    matchOver (p ++ r) ts = some (q ++ r) := by
  induction ts generalizing p with
  | nil =>
    rw [matchOver_nil, Option.some.injEq] at h
    rw [matchOver_nil, h]
  | cons t ts ih =>
    rw [matchOver_cons] at h
    obtain ⟨p', hstep, hrest⟩ := Option.bind_eq_some_iff.1 h
    rw [matchOver_cons, matchStep_below hstep r]
    exact ih hrest

/-- A matched run in brackets is matched. -/
theorem isMatched_bracketed {opening closing : Token} (hts : isMatched ts)
    (hopens : opening.kind.opens) (hcloser : opening.kind.closer = closing.kind) :
    isMatched (opening :: (ts ++ [closing])) := by
  have hcloses : closing.kind.opens = false ∧ closing.kind.closes := by
    rw [← hcloser]
    cases hkind : opening.kind <;> rw [hkind] at hopens <;>
      first | exact ⟨rfl, rfl⟩ | exact absurd hopens (by decide)
  have hopening : matchStep [] opening.kind = some [opening.kind] := if_pos hopens
  have hinside := matchOver_below (isMatched_iff.1 hts) [opening.kind]
  have hclosing : matchStep [opening.kind] closing.kind = some [] := by
    simp [matchStep, hcloses.1, hcloses.2, hcloser]
  rw [isMatched_iff, matchOver_cons, hopening, Option.bind_some, matchOver_append]
  rw [List.nil_append] at hinside
  rw [hinside, Option.bind_some, matchOver_cons, hclosing]
  rfl

/-- The last bracket that is open, and the matched run behind it. -/
theorem exists_opening {o : Kind} (h : matchOver [] ts = some (o :: p)) :
    ∃ front opening inside, ts = front ++ opening :: inside ∧ opening.kind = o ∧
      opening.kind.opens ∧ matchOver [] front = some p ∧ isMatched inside := by
  -- a bracket at the end leads to the one it closes, and from there on to the front
  induction hlength : ts.length using Nat.strong_induction_on generalizing ts o p with
  | _ n ih =>
    rcases List.eq_nil_or_concat ts with rfl | ⟨ts, t, rfl⟩
    · exact absurd h (by simp [matchOver_nil])
    rw [List.concat_eq_append] at h hlength ⊢
    rw [List.length_append, List.length_singleton] at hlength
    rw [matchOver_append] at h
    obtain ⟨q, hq, hstep⟩ := Option.bind_eq_some_iff.1 h
    replace hstep : matchStep q t.kind = some (o :: p) := by simpa [matchOver] using hstep
    rcases matchStep_cases hstep with ⟨hopens, hcons⟩ | ⟨hopens, hcloses, o', rfl, hcloser⟩ |
      ⟨hopens, hcloses, rfl⟩
    · obtain ⟨rfl, rfl⟩ := List.cons.inj hcons
      exact ⟨ts, t, [], rfl, rfl, hopens, hq, rfl⟩
    · obtain ⟨front', opening', inside', rfl, hkind', hopens', hfront', hinside'⟩ :=
        ih ts.length (by omega) hq rfl
      rw [List.length_append] at hlength
      obtain ⟨front, opening, inside, rfl, hkind, hopens, hfront, hinside⟩ :=
        ih front'.length (by omega) hfront' rfl
      have hblock : isMatched (opening' :: (inside' ++ [t])) :=
        isMatched_bracketed hinside' hopens' (hkind' ▸ hcloser)
      exact ⟨front, opening, inside ++ opening' :: (inside' ++ [t]), by simp, hkind, hopens, hfront,
        isMatched_append hinside hblock⟩
    · obtain ⟨front, opening, inside, rfl, hkind, hopens', hfront, hinside⟩ :=
        ih ts.length (by omega) hq rfl
      have hlast : isMatched [t] := isMatched_plain (by simpa using ⟨hopens, hcloses⟩)
      exact ⟨front, opening, inside ++ [t], by simp, hkind, hopens', hfront, isMatched_append hinside hlast⟩

/-- A matched run that ends with `}` ends with a block. -/
theorem exists_block (h : isMatched ts) (hlast : ts.getLast?.any (·.kind = .closeBrace)) :
    ∃ front body block, ts = front ++ block ∧ IsBlock body block ∧ isMatched front ∧
      isMatched body := by
  rcases List.eq_nil_or_concat ts with rfl | ⟨ts, closing, rfl⟩
  · exact absurd hlast (by simp)
  rw [List.concat_eq_append] at h hlast ⊢
  have hclosing : closing.kind = .closeBrace := by simpa using hlast
  obtain ⟨q, hq, hstep⟩ := exists_matchOver_of_append h
  replace hstep : matchStep q closing.kind = some [] := by simpa [matchOver] using hstep
  obtain ⟨o, rfl, hcloser⟩ : ∃ o, q = [o] ∧ o.closer = .closeBrace := by
    rw [hclosing] at hstep
    rcases matchStep_cases hstep with ⟨hopens, -⟩ | ⟨-, -, o, rfl, hcloser⟩ | ⟨-, hcloses, -⟩
    · exact absurd hopens (by decide)
    · exact ⟨o, rfl, hcloser⟩
    · exact absurd hcloses (by decide)
  obtain ⟨front, opening, body, rfl, rfl, hopens, hfront, hbody⟩ := exists_opening hq
  have hopening : opening.kind = .openBrace := by
    cases hkind : opening.kind <;> rw [hkind] at hopens hcloser <;>
      first | rfl | exact absurd hopens (by decide) | exact absurd hcloser (by decide)
  exact ⟨front, body, opening :: (body ++ [closing]), by simp,
    ⟨isBalanced_of_isMatched hbody, opening, closing, rfl, hopening, hclosing⟩,
    isMatched_iff.2 hfront, hbody⟩

end SvelteTypings.Script
