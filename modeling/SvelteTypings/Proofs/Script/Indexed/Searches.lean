import Mathlib.Data.List.Forall2
import Mathlib.Data.List.TakeDrop
import SvelteTypings.Proofs.Script.Indexed.Slices
import SvelteTypings.Script.Declaration

/-!
# Searches for positions

Each search comes to a position in a run, or to none. Where it comes to is where the run is cut
(`Search.position?_cases`), so what is in front of the position and behind it are slices. A search
that steps over some of the tokens comes to the same token without them
(`Search.position?_filter_cases`).
-/

namespace SvelteTypings.Script

variable {σ : Type} {source : String} {ps ts : List Token} {p t : Token} {i j k n : Nat}

open Indexed Outcome

/-! ## Positions of searches -/

namespace Search

variable {S : Search σ} {s : σ}

/-- The position at which a search ends; `i` is the position of the first token. -/
def position? (S : Search σ) (s : σ) (i : Nat) : List Token → Option Nat
  | [] => none
  | t :: ts =>
    match S.step s t with
    | some s' => S.position? s' (i + 1) ts
    | none => (S.found s t).map fun _ => i

/-- What stands in front of a token does not count. -/
def Respects (S : Search σ) : Prop :=
  ∀ s p t, SameToken p t → S.step s p = S.step s t ∧ (S.found s p).isSome = (S.found s t).isSome

/-- **A search ends where it cuts**, at a token that it does not go on over, also among some of the
tokens only, if it steps over the others. -/
theorem position?_filter_cases (hS : S.Respects) (keep : Token → Bool)
    (hkeep : ∀ p t, SameToken p t → keep p = keep t)
    (hskip : ∀ s t, keep t = false → S.step s t = some s)
    (h : ps.map Token.bare = ts.map Token.bare) (s : σ) (i : Nat) :
    (S.cut? s ts = none ∧ S.position? s i (ps.filter keep) = none) ∨
      ∃ n s' t kept, ts[n]? = some t ∧ S.step s' t = none ∧ S.found s' t = some kept ∧
        S.cut? s ts = some (ts.take n ++ kept, ts.drop (n + 1)) ∧
        S.position? s i (ps.filter keep) = some (i + ((ps.take n).filter keep).length) := by
  induction ts generalizing ps s i with
  | nil =>
    obtain rfl : ps = [] := List.map_eq_nil_iff.1 h
    exact Or.inl ⟨rfl, rfl⟩
  | cons t ts ih =>
    obtain ⟨p, ps, rfl, hp, hps⟩ := List.map_eq_cons_iff.1 h
    have hsame : SameToken p t := hp
    obtain ⟨hstep, hfound⟩ := hS s p t hsame
    -- A token that is left out counts in no index, but the search steps over it all the same.
    by_cases ht : keep t
    · have hcount : ∀ n, ((List.take (n + 1) (p :: ps)).filter keep).length =
          ((ps.take n).filter keep).length + 1 := fun n => by
        rw [List.take_succ_cons, List.filter_cons_of_pos (by rw [hkeep p t hsame, ht]),
          List.length_cons]
      rw [cut?, List.filter_cons_of_pos (by rw [hkeep p t hsame, ht]), position?, hstep]
      cases hs : S.step s t with
      | some s' =>
        dsimp only
        rcases ih hps s' (i + 1) with ⟨hcut, hpos⟩ | ⟨n, s'', u, kept, hu, hstop, hkept, hcut, hpos⟩
        · exact Or.inl ⟨by rw [hcut]; rfl, hpos⟩
        · refine Or.inr ⟨n + 1, s'', u, kept, hu, hstop, hkept, by rw [hcut]; rfl, hpos.trans ?_⟩
          rw [hcount, Nat.add_right_comm, Nat.add_assoc]
      | none =>
        dsimp only
        cases hf : S.found s t with
        | none =>
          rw [hf, Option.isSome_none, Option.isSome_eq_false_iff, Option.isNone_iff_eq_none] at hfound
          exact Or.inl ⟨rfl, by rw [hfound]; rfl⟩
        | some kept =>
          rw [hf, Option.isSome_some] at hfound
          obtain ⟨kept', hkept'⟩ := Option.isSome_iff_exists.1 hfound
          exact Or.inr ⟨0, s, t, kept, rfl, hs, hf, rfl, by rw [hkept']; rfl⟩
    · have hp : ¬keep p := by rwa [hkeep p t hsame]
      have hcount : ∀ n, (List.take (n + 1) (p :: ps)).filter keep = (ps.take n).filter keep :=
        fun n => by rw [List.take_succ_cons, List.filter_cons_of_neg hp]
      rw [cut?, hskip s t (by simpa using ht), List.filter_cons_of_neg hp]
      dsimp only
      rcases ih hps s i with ⟨hcut, hpos⟩ | ⟨n, s', u, kept, hu, hstop, hkept, hcut, hpos⟩
      · exact Or.inl ⟨by rw [hcut]; rfl, hpos⟩
      · refine Or.inr ⟨n + 1, s', u, kept, hu, hstop, hkept, by rw [hcut]; rfl, ?_⟩
        rw [hcount]
        exact hpos

theorem position?_cases (hS : S.Respects) (h : ps.map Token.bare = ts.map Token.bare) (s : σ)
    (i : Nat) :
    (S.cut? s ts = none ∧ S.position? s i ps = none) ∨
      ∃ n s' t kept, ts[n]? = some t ∧ S.step s' t = none ∧ S.found s' t = some kept ∧
        S.cut? s ts = some (ts.take n ++ kept, ts.drop (n + 1)) ∧
        S.position? s i ps = some (i + n) := by
  have hlength : ps.length = ts.length := by simpa using congrArg List.length h
  rcases position?_filter_cases hS (fun _ => true) (fun _ _ _ => rfl)
      (fun _ _ hfalse => absurd hfalse (by simp)) h s i with
    ⟨hcut, hpos⟩ | ⟨n, s', t, kept, ht, hstop, hkept, hcut, hpos⟩
  · exact Or.inl ⟨hcut, by rwa [List.filter_true] at hpos⟩
  · have hn : n ≤ ps.length := hlength ▸ Nat.le_of_lt (List.getElem?_eq_some_iff.1 ht).1
    rw [List.filter_true, List.filter_true, List.length_take_of_le hn] at hpos
    exact Or.inr ⟨n, s', t, kept, ht, hstop, hkept, hcut, hpos⟩

/-- A search that began at a position has stopped at another, and keeps nothing of the token
there. -/
structure StopsAt (S : Search σ) (ts : List Token) (start stop : Nat)
    (parts : List Token × List Token) : Prop where
  le : start ≤ stop
  lt : stop < ts.length
  stops : ∃ s t, ts[stop]? = some t ∧ S.step s t = none
  before : parts.1 = (ts.take stop).drop start
  behind : parts.2 = ts.drop (stop + 1)

theorem lt_length_of_getElem? (h : (ts.drop i)[n]? = some t) : i + n < ts.length := by
  rw [List.getElem?_drop] at h
  exact (List.getElem?_eq_some_iff.1 h).1

theorem position?_agrees (hS : S.Respects) (hkept : ∀ s t kept, S.found s t = some kept → kept = [])
    (h : PlacedIn source ps ts) (s : σ) (i : Nat) :
    Agrees (S.StopsAt ts i) (ofOption (S.position? s i (ps.drop i))) (S.cut? s (ts.drop i)) := by
  rcases position?_cases hS (h.drop i).map_bare s i with
    ⟨hcut, hpos⟩ | ⟨n, s', t, kept, ht, hstop, hfound, hcut, hpos⟩
  · rw [hcut, hpos]
    exact .nothing
  · rw [hcut, hpos, hkept s' t kept hfound, List.append_nil]
    refine .found ⟨Nat.le_add_right _ _, lt_length_of_getElem? ht, ⟨s', t, ?_, hstop⟩, ?_, ?_⟩
    · rw [← List.getElem?_drop, ht]
    · rw [List.drop_take, Nat.add_sub_cancel_left]
    · rw [List.drop_drop, Nat.add_assoc]

end Search

/-! ## Brackets -/

/-- The bracket that closes the first one that opens; the state is how many are open. -/
def bracketSearch : Search Nat where
  step := fun d t =>
    if t.kind.opens then some (d + 1)
    else if t.kind.closes then (if d ≤ 1 then none else some (d - 1))
    else some d
  found := fun d _ => if d = 1 then some [] else none

theorem cutClosing?_eq_bracketSearch (d : Nat) (ts : List Token) :
    cutClosing? d ts = bracketSearch.cut? d ts := by
  induction ts generalizing d with
  | nil => rfl
  | cons t ts ih =>
    unfold cutClosing?
    rw [Search.cut?]
    simp only [ih]
    by_cases hopens : t.kind.opens
    · simp [bracketSearch, hopens]
    by_cases hcloses : t.kind.closes
    · rcases d with _ | _ | d <;> simp [bracketSearch, hopens, hcloses]
    · simp [bracketSearch, hopens, hcloses]

theorem respects_bracketSearch : bracketSearch.Respects := fun s p t h => by
  simp only [bracketSearch, h.kind, and_self]

theorem respects_angleSearch : angleSearch.Respects := fun s p t h => by
  refine ⟨by simp only [angleSearch, h.kind], ?_⟩
  simp only [angleSearch]
  split <;> rfl

theorem respects_topSearch (k : Kind) : (topSearch k).Respects := fun s p t h => by
  simp only [topSearch, h.kind, and_self]

theorem respects_firstSearch {q : Token → Bool} (hq : ∀ p t, SameToken p t → q p = q t) :
    (firstSearch q).Respects := fun s p t h => by
  simp only [firstSearch, hq p t h, and_self]

theorem kept_bracketSearch (d : Nat) (t : Token) (kept : List Token)
    (h : bracketSearch.found d t = some kept) : kept = [] := by
  simp only [bracketSearch] at h
  split at h
  · exact (Option.some.inj h).symm
  · exact absurd h (by simp)

namespace Indexed

/-- The position of the bracket that closes the first one that opens from a position on. -/
def matchBracket? (ts : List Token) (i : Nat) : Option Nat :=
  bracketSearch.position? 0 i (ts.drop i)

/-- The position of the `>` that closes the `<` at a position. -/
def matchAngle? (ts : List Token) (i : Nat) : Option Nat :=
  angleSearch.position? (0, 0) i (ts.drop i)

/-- The position of the first token of a kind at the top level, from a position on. -/
def topPosition? (k : Kind) (ts : List Token) (i : Nat) : Option Nat :=
  (topSearch k).position? 0 i (ts.drop i)

/-- The position of the first token that satisfies `q`. -/
def firstPosition? (q : Token → Bool) (ts : List Token) : Option Nat :=
  (firstSearch q).position? () 0 ts

theorem matchBracket?_agrees (h : PlacedIn source ps ts) (i : Nat) :
    Agrees (bracketSearch.StopsAt ts i) (ofOption (matchBracket? ps i))
      (cutClosing? 0 (ts.drop i)) := by
  rw [cutClosing?_eq_bracketSearch]
  exact Search.position?_agrees respects_bracketSearch kept_bracketSearch h 0 i

theorem topPosition?_agrees (k : Kind) (h : PlacedIn source ps ts) (i : Nat) :
    Agrees ((topSearch k).StopsAt ts i) (ofOption (topPosition? k ps i))
      (cutTop? k 0 (ts.drop i)) := by
  rw [cutTop?_eq]
  exact Search.position?_agrees (respects_topSearch k) (fun _ _ _ h => (Option.some.inj h).symm) h 0 i

theorem firstPosition?_agrees {q : Token → Bool} (hq : ∀ p t, SameToken p t → q p = q t)
    (h : PlacedIn source ps ts) :
    Agrees ((firstSearch q).StopsAt ts 0) (ofOption (firstPosition? q ps)) (cutAt? q ts) := by
  rw [cutAt?_eq]
  exact Search.position?_agrees (respects_firstSearch hq) (fun _ _ _ h => (Option.some.inj h).symm)
    h () 0

/-! ### Where they stop -/

theorem kind_of_topSearch {k : Kind} {d : Nat} (h : (topSearch k).step d t = none) : t.kind = k := by
  simp only [topSearch] at h
  split at h
  · next hk => exact hk.1
  · exact absurd h (by simp)

theorem closes_of_bracketSearch {d : Nat} (h : bracketSearch.step d t = none) :
    t.kind.opens = false ∧ t.kind.closes := by
  simp only [bracketSearch] at h
  cases hopens : t.kind.opens <;> cases hcloses : t.kind.closes <;> simp_all

theorem of_firstSearch {q : Token → Bool} (h : (firstSearch q).step () t = none) : q t := by
  simp only [firstSearch] at h
  split at h
  · assumption
  · exact absurd h (by simp)

/-! ## Bodies -/

/-- The position, among tokens that are read from the end, of the bracket that opens a trailing
block. -/
def openingIn? (depth : Nat) : List (Token × Nat) → Option Nat
  | [] => none
  | (t, i) :: ts =>
    if t.kind.closes then openingIn? (depth + 1) ts
    else if t.kind.opens then
      match depth with
      | 0 => none
      | 1 => some i
      | depth + 2 => openingIn? (depth + 1) ts
    else openingIn? depth ts

/-- The position at which a trailing block starts. -/
def bodyStart? (ts : List Token) : Option Nat :=
  if ts.getLast?.any (·.kind = .closeBrace) then openingIn? 0 ts.zipIdx.reverse else none

theorem openingIn?_eq (d : Nat) (ts : List Token) :
    openingIn? d ts.zipIdx.reverse = (blockLength? d ts.reverse).map (ts.length - ·) := by
  induction ts using List.reverseRecOn generalizing d with
  | nil => rfl
  | append_singleton ts t ih =>
    have hmap : ∀ x : Option Nat, (x.map (· + 1)).map ((ts ++ [t]).length - ·) =
        x.map (ts.length - ·) := fun x => by
      rw [Option.map_map]
      refine congrArg (Option.map · x) (funext fun n => ?_)
      rw [Function.comp_apply, List.length_append, List.length_singleton, Nat.add_sub_add_right]
    rw [List.zipIdx_append, List.reverse_append, List.reverse_concat, List.zipIdx_singleton,
      List.reverse_singleton, List.singleton_append, openingIn?.eq_def, blockLength?.eq_def]
    simp only [ih]
    split
    · exact (hmap _).symm
    · split
      · rcases d with _ | _ | d
        · rfl
        · simp
        · exact (hmap _).symm
      · exact (hmap _).symm

/-- A trailing block starts with a bracket. -/
theorem opens_of_blockLength? {d : Nat} (h : blockLength? d ts = some n) :
    ∃ m t, n = m + 1 ∧ ts[m]? = some t ∧ t.kind.opens := by
  induction ts generalizing d n with
  | nil => exact absurd h (by simp [blockLength?])
  | cons t ts ih =>
    have hrest : ∀ {d : Nat}, (blockLength? d ts).map (· + 1) = some n →
        ∃ m u, n = m + 1 ∧ (t :: ts)[m]? = some u ∧ u.kind.opens := fun h => by
      obtain ⟨n', hn', rfl⟩ := Option.map_eq_some_iff.1 h
      obtain ⟨m, u, rfl, hu, hopens⟩ := ih hn'
      exact ⟨m + 1, u, rfl, hu, hopens⟩
    rw [blockLength?.eq_def] at h
    dsimp only at h
    split at h
    · exact hrest h
    · split at h
      · next hopens =>
        rcases d with _ | _ | d
        · exact absurd h (by simp)
        · exact ⟨0, t, (Option.some.inj h).symm, rfl, hopens⟩
        · exact hrest h
      · exact hrest h

theorem blockLength?_congr (h : ps.map Token.bare = ts.map Token.bare) (d : Nat) :
    blockLength? d ps = blockLength? d ts := by
  induction ts generalizing ps d with
  | nil => rw [List.map_eq_nil_iff.1 h]
  | cons t ts ih =>
    obtain ⟨p, ps, rfl, hp, hps⟩ := List.map_eq_cons_iff.1 h
    rw [blockLength?.eq_def, blockLength?.eq_def d]
    simp only [SameToken.kind (show SameToken p t from hp), ih hps]

theorem getLast?_any_kind (h : ps.map Token.bare = ts.map Token.bare) (k : Kind) :
    (ps.getLast?.any fun t => t.kind = k) = ts.getLast?.any fun t => t.kind = k := by
  have hany : ∀ us : List Token, (us.getLast?.any fun t => t.kind = k) =
      (us.map Token.bare).getLast?.any fun t => t.kind = k := fun us => by
    rw [List.getLast?_map]
    cases us.getLast? <;> rfl
  rw [hany, h, ← hany]

theorem bodyStart?_congr (h : ps.map Token.bare = ts.map Token.bare) :
    bodyStart? ps = bodyStart? ts := by
  have hlength : ps.length = ts.length := by simpa using congrArg List.length h
  have hreverse : ps.reverse.map Token.bare = ts.reverse.map Token.bare := by
    rw [List.map_reverse, h, List.map_reverse]
  rw [bodyStart?, bodyStart?, getLast?_any_kind h, openingIn?_eq, openingIn?_eq, hlength,
    blockLength?_congr hreverse]

/-- **A body is cut where it starts**, at a bracket. -/
theorem cutBody_cases (ts : List Token) :
    (bodyStart? ts = none ∧ cutBody ts = (ts, [])) ∨
      ∃ i t, bodyStart? ts = some i ∧ ts[i]? = some t ∧ t.kind.opens ∧
        cutBody ts = (ts.take i, ts.drop i) := by
  rw [bodyStart?, cutBody, openingIn?_eq]
  split
  · cases hn : blockLength? 0 ts.reverse with
    | none => exact Or.inl ⟨rfl, rfl⟩
    | some n =>
      obtain ⟨m, t, rfl, ht, hopens⟩ := opens_of_blockLength? hn
      refine Or.inr ⟨ts.length - (m + 1), t, rfl, ?_, hopens, rfl⟩
      have hm : m < ts.length := by
        simpa using (List.getElem?_eq_some_iff.1 ht).1
      rwa [List.getElem?_reverse hm, Nat.sub_right_comm, ← Nat.sub_add_eq] at ht
  · exact Or.inl ⟨rfl, rfl⟩

/-! ## The last token of some kind -/

/-- The position of the last token that satisfies `q`; `i` is the position of the first one. -/
def lastPosition? (q : Token → Bool) (i : Nat) : List Token → Option Nat
  | [] => none
  | t :: ts => (lastPosition? q (i + 1) ts).or (if q t then some i else none)

theorem afterLast?_cons (q : Token → Bool) (t : Token) (ts : List Token) :
    afterLast? q (t :: ts) = (afterLast? q ts).or (if q t then some ts else none) := by
  rw [afterLast?, afterLast?, List.any_cons, List.reverse_cons, List.takeWhile_append]
  by_cases hts : ts.any q
  · obtain ⟨u, hu, hq⟩ := List.any_eq_true.1 hts
    have hne : ts.reverse.takeWhile (fun t => !q t) ≠ ts.reverse := fun h => by
      have hall := List.all_takeWhile (p := fun t => !q t) (l := ts.reverse)
      rw [h] at hall
      exact absurd (List.all_eq_true.1 hall u (List.mem_reverse.2 hu)) (by simp [hq])
    have hlength : (ts.reverse.takeWhile fun t => !q t).length ≠ ts.reverse.length := fun h =>
      hne ((List.takeWhile_prefix _).eq_of_length h)
    rw [if_pos (by simp [hts]), if_pos hts, if_neg hlength]
    rfl
  · have hall : ∀ u ∈ ts.reverse, (!q u) = true := fun u hu => by
      have hany := List.any_eq_false.1 (Bool.eq_false_iff.2 hts) u (List.mem_reverse.1 hu)
      simpa using hany
    have hwhole : ts.reverse.takeWhile (fun t => !q t) = ts.reverse := List.takeWhile_eq_self_iff.2 hall
    rw [if_neg hts, hwhole, if_pos rfl]
    cases hq : q t with
    | true => simp [hq]
    | false => simp [hts]

theorem lastPosition?_cases {q : Token → Bool} (hq : ∀ p t, SameToken p t → q p = q t)
    (h : ps.map Token.bare = ts.map Token.bare) (i : Nat) :
    (afterLast? q ts = none ∧ lastPosition? q i ps = none) ∨
      ∃ n, n < ts.length ∧ afterLast? q ts = some (ts.drop (n + 1)) ∧
        lastPosition? q i ps = some (i + n) := by
  induction ts generalizing ps i with
  | nil =>
    obtain rfl : ps = [] := List.map_eq_nil_iff.1 h
    exact Or.inl ⟨rfl, rfl⟩
  | cons t ts ih =>
    obtain ⟨p, ps, rfl, hp, hps⟩ := List.map_eq_cons_iff.1 h
    rw [afterLast?_cons, lastPosition?, hq p t hp]
    rcases ih hps (i + 1) with ⟨hnone, hpos⟩ | ⟨n, hn, hsome, hpos⟩
    · rw [hnone, hpos, Option.none_or, Option.none_or]
      split
      · exact Or.inr ⟨0, Nat.succ_pos _, rfl, rfl⟩
      · exact Or.inl ⟨rfl, rfl⟩
    · rw [hsome, hpos]
      refine Or.inr ⟨n + 1, Nat.succ_lt_succ hn, rfl, ?_⟩
      rw [Option.some_or, Nat.add_right_comm, Nat.add_assoc]

/-! ## Splitting -/

/-- The slices between the tokens of a kind at the top level of a run. The last one started at
`start`, and the rest of the run starts at `i`. -/
def slicesFrom (k : Kind) (run : List Token) (start i depth : Nat) :
    List Token → Outcome (List (List Token))
  | [] => do
    let part ← tokensFrom run start
    return [part]
  | t :: ts =>
    if t.kind = k ∧ depth = 0 then do
      let part ← tokens run start i
      let parts ← slicesFrom k run (i + 1) (i + 1) depth ts
      return part :: parts
    else slicesFrom k run start (i + 1) (depthAfter depth t.kind) ts

/-- The slices between the tokens of a kind at the top level that are not empty. -/
def split (k : Kind) (ts : List Token) : Outcome (List (List Token)) := do
  let parts ← slicesFrom k ts 0 0 0 ts
  return parts.filter fun part => !part.isEmpty

/-- Puts a run in front of the first part. -/
def prependRun (front : List Token) : List (List Token) → List (List Token)
  | [] => []
  | part :: parts => (front ++ part) :: parts

theorem prependRun_consRun (front : List Token) (t : Token) {parts : List (List Token)}
    (h : parts ≠ []) : prependRun front (consRun t parts) = prependRun (front ++ [t]) parts := by
  cases parts with
  | nil => exact absurd rfl h
  | cons part parts => simp [consRun, prependRun]

theorem splitTop_ne_nil (k : Kind) (d : Nat) (ts : List Token) : splitTop k d ts ≠ [] := by
  cases ts with
  | nil => simp [splitTop]
  | cons t ts =>
    rw [splitTop]
    split
    · simp
    · cases splitTop k (depthAfter d t.kind) ts <;> simp [consRun]

theorem slicesFrom_eq (k : Kind) (h : PlacedIn source ps ts) {start i : Nat} (hstart : start ≤ i)
    (hi : i ≤ ts.length) (d : Nat) :
    ∃ qss, slicesFrom k ps start i d (ps.drop i) = .found qss ∧
      List.Forall₂ (PlacedIn source) qss
        (prependRun ((ts.take i).drop start) (splitTop k d (ts.drop i))) := by
  -- Induction on the tokens that are left; the open slice begins at `start`.
  induction hn : ts.length - i generalizing start i d with
  | zero =>
    obtain rfl : i = ts.length := Nat.le_antisymm hi (Nat.le_of_sub_eq_zero hn)
    obtain ⟨qs, hqs, hplaced⟩ := h.tokensFrom (i := start) hstart
    refine ⟨[qs], ?_, ?_⟩
    · rw [List.drop_eq_nil_of_le (h.length_eq ▸ Nat.le_refl _), slicesFrom, hqs]
      rfl
    · rw [List.drop_length, List.take_length]
      simpa [splitTop, prependRun] using hplaced
  | succ n ih =>
    have hlt : i < ts.length := by omega
    have hps : i < ps.length := h.length_eq ▸ hlt
    have hsame : ps[i].kind = ts[i].kind := by
      have hget := h.getElem? i
      rw [List.getElem?_eq_getElem hlt, List.getElem?_eq_getElem hps] at hget
      exact SameToken.kind (Option.some.inj hget)
    rw [List.drop_eq_getElem_cons hps, List.drop_eq_getElem_cons hlt, slicesFrom, splitTop, hsame]
    split
    · obtain ⟨qs, hqs, hplaced⟩ := h.tokens hstart hi
      obtain ⟨qss, hqss, hparts⟩ := ih (Nat.le_refl (i + 1)) hlt d (by omega)
      refine ⟨qs :: qss, by rw [hqs, hqss]; rfl, ?_⟩
      rw [List.drop_eq_nil_of_le (List.length_take_le _ _)] at hparts
      refine .cons ?_ ?_
      · rwa [List.append_nil]
      · cases hsplit : splitTop k d (ts.drop (i + 1)) with
        | nil => exact absurd hsplit (splitTop_ne_nil k d _)
        | cons part parts => rwa [hsplit] at hparts
    · have hstart' : start ≤ i + 1 := Nat.le_succ_of_le hstart
      obtain ⟨qss, hqss, hparts⟩ := ih hstart' hlt
        (depthAfter d ts[i].kind) (by omega)
      refine ⟨qss, hqss, ?_⟩
      rw [prependRun_consRun _ _ (splitTop_ne_nil k _ _)]
      rwa [List.take_succ_eq_append_getElem hlt, List.drop_append_of_le_length (by simp; omega)]
        at hparts

/-- The slices are the parts that are not empty. -/
theorem split_eq (k : Kind) (h : PlacedIn source ps ts) :
    ∃ qss, split k ps = .found qss ∧
      List.Forall₂ (PlacedIn source) qss ((splitTop k 0 ts).filter fun part => !part.isEmpty) := by
  obtain ⟨qss, hqss, hparts⟩ := slicesFrom_eq k h (Nat.le_refl 0) (Nat.zero_le _) 0
  refine ⟨qss.filter fun part => !part.isEmpty, ?_, ?_⟩
  · rw [List.drop_zero] at hqss
    rw [split, hqss]
    rfl
  · have hsplit : prependRun ((ts.take 0).drop 0) (splitTop k 0 (ts.drop 0)) = splitTop k 0 ts := by
      rw [List.take_zero, List.drop_nil, List.drop_zero]
      cases splitTop k 0 ts <;> rfl
    rw [hsplit] at hparts
    refine List.rel_filter (fun qs part hplaced => ?_) hparts
    simpa using not_congr hplaced.nil_iff

end Indexed

end SvelteTypings.Script
