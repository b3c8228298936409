import Mathlib.Data.List.Induction
import SvelteTypings.Proofs.Script.Splitting
import SvelteTypings.Script.Declaration

/-!
# Heads and bodies

A function is a head and a body in braces. What ends in the head, type parameters or parentheses, is
cut where it is whatever follows (`Search.cut?_append_of_some`), and a search that does not end in
the head does not end in a balanced body either (`Search.cut?_append`). The search for a trailing
block, which starts at the end, stops where the body does (`IsBlock.cutBody`).
-/

namespace SvelteTypings.Script

variable {t u : Token} {ts us body block front : List Token} {d e : Nat} {k : Kind}
  {parts : List Token × List Token} {σ : Type}

/-! ## Searches -/

/-- A search through a run that goes on over tokens, and ends at the first it does not go on over.
There it fails or cuts the run, and keeps some of the token with the first part. -/
structure Search (σ : Type) where
  step : σ → Token → Option σ
  found : σ → Token → Option (List Token)

namespace Search

variable {S : Search σ} {s s' : σ}

def cut? (S : Search σ) (s : σ) : List Token → Option (List Token × List Token)
  | [] => none
  | t :: ts =>
    match S.step s t with
    | some s' => (S.cut? s' ts).map (consBefore t)
    | none => (S.found s t).map fun kept => (kept, ts)

/-- The state after a run that the search goes on over. -/
def past (S : Search σ) (s : σ) (ts : List Token) : Option σ := ts.foldlM S.step s

/-- Puts a run behind the second part. -/
def extend (us : List Token) (parts : List Token × List Token) : List Token × List Token :=
  (parts.1, parts.2 ++ us)

theorem past_nil (s : σ) : S.past s [] = some s := rfl

theorem past_cons (s : σ) (t : Token) (ts : List Token) :
    S.past s (t :: ts) = (S.step s t).bind fun s' => S.past s' ts := rfl

theorem cut?_append_of_past (h : S.past s ts = some s') (us : List Token) :
    S.cut? s (ts ++ us) = (S.cut? s' us).map fun parts => (ts ++ parts.1, parts.2) := by
  induction ts generalizing s with
  | nil =>
    rw [past_nil, Option.some.injEq] at h
    rw [h]
    exact Option.map_id_apply.symm
  | cons t ts ih =>
    rw [past_cons] at h
    obtain ⟨s₁, hstep, hrest⟩ := Option.bind_eq_some_iff.1 h
    rw [List.cons_append, cut?, hstep]
    dsimp only
    rw [ih hrest, Option.map_map]
    rfl

theorem cut?_of_past (h : S.past s ts = some s') : S.cut? s ts = none := by
  have hcut := cut?_append_of_past h []
  rwa [List.append_nil] at hcut

/-- A cut stays where it is. -/
theorem cut?_append_of_some (h : S.cut? s ts = some parts) (us : List Token) :
    S.cut? s (ts ++ us) = some (extend us parts) := by
  induction ts generalizing s parts with
  | nil => exact absurd h (by simp [cut?])
  | cons t ts ih =>
    rw [cut?] at h
    rw [List.cons_append, cut?]
    cases hstep : S.step s t with
    | some s₁ =>
      rw [hstep] at h
      obtain ⟨parts, hparts, rfl⟩ := Option.map_eq_some_iff.1 h
      exact congrArg (Option.map (consBefore t)) (ih hparts)
    | none =>
      rw [hstep] at h
      obtain ⟨kept, hkept, rfl⟩ := Option.map_eq_some_iff.1 h
      exact congrArg (Option.map fun kept => (kept, ts ++ us)) hkept

/-- **A run that no search ends in does not count**, wherever it follows. -/
theorem cut?_append (hus : ∀ s, (S.past s us).isSome) (s : σ) (ts : List Token) :
    S.cut? s (ts ++ us) = (S.cut? s ts).map (extend us) := by
  induction ts generalizing s with
  | nil =>
    obtain ⟨s', hs'⟩ := Option.isSome_iff_exists.1 (hus s)
    exact cut?_of_past hs'
  | cons t ts ih =>
    rw [List.cons_append, cut?, cut?]
    cases S.step s t with
    | some s₁ =>
      dsimp only
      rw [ih, Option.map_map, Option.map_map]
      rfl
    | none =>
      dsimp only
      rw [Option.map_map]
      rfl

end Search

/-! ## What is searched for -/

/-- The bracket that closes an open one, of which `d + 1` are open. -/
def closingSearch : Search Nat := ⟨fun d t => depthStep d t.kind, fun _ _ => some []⟩

theorem cutClosing?_eq (d : Nat) (ts : List Token) :
    cutClosing? (d + 1) ts = closingSearch.cut? d ts := by
  induction ts generalizing d with
  | nil => rfl
  | cons t ts ih =>
    unfold cutClosing?
    rw [Search.cut?]
    simp only [ih]
    cases hopens : t.kind.opens with
    | true => simp [closingSearch, depthStep, hopens]
    | false =>
      cases hcloses : t.kind.closes with
      | false => simp [closingSearch, depthStep, hopens, hcloses]
      | true => cases d <;> simp [closingSearch, depthStep, hopens, hcloses]

/-- The `>` that closes an open `<`. The state is how many `<` and how many brackets are open. -/
def angleSearch : Search (Nat × Nat) where
  step := fun (a, b) t =>
    if t.kind.opens then some (a, b + 1)
    else if t.kind.closes then some (a, b - 1)
    else if t.kind = .less ∧ b = 0 then some (a + 1, b)
    else if t.kind = .greater ∧ b = 0 then (if a ≤ 1 then none else some (a - 1, b))
    else some (a, b)
  found := fun (a, _) t => if a = 1 then some [t] else none

theorem cutAngle?_eq (a b : Nat) (ts : List Token) :
    cutAngle? a b ts = angleSearch.cut? (a, b) ts := by
  induction ts generalizing a b with
  | nil => rfl
  | cons t ts ih =>
    unfold cutAngle?
    rw [Search.cut?]
    simp only [ih]
    by_cases hopens : t.kind.opens
    · simp [angleSearch, hopens]
    by_cases hcloses : t.kind.closes
    · simp [angleSearch, hopens, hcloses]
    by_cases hless : t.kind = .less ∧ b = 0
    · simp [angleSearch, hless, Kind.opens, Kind.closes]
    by_cases hgreater : t.kind = .greater ∧ b = 0
    · rcases a with _ | _ | a <;> simp [angleSearch, hgreater, Kind.opens, Kind.closes]
    · simp [angleSearch, hopens, hcloses, hless, hgreater]

/-- The first token that satisfies `p`. -/
def firstSearch (p : Token → Bool) : Search Unit :=
  ⟨fun s t => if p t then none else some s, fun _ _ => some []⟩

theorem cutAt?_eq (p : Token → Bool) (ts : List Token) :
    cutAt? p ts = (firstSearch p).cut? () ts := by
  induction ts with
  | nil => rfl
  | cons t ts ih =>
    rw [cutAt?, Search.cut?, ih]
    cases hp : p t <;> simp [firstSearch, hp]

theorem cutAt?_eq_none {p : Token → Bool} (h : ∀ t ∈ ts, p t = false) : cutAt? p ts = none := by
  induction ts with
  | nil => rfl
  | cons t ts ih =>
    obtain ⟨ht, hts⟩ := List.forall_mem_cons.1 h
    rw [cutAt?, if_neg (by simp [ht]), ih hts]
    rfl

theorem cutAt?_append_cons {p : Token → Bool} (h : cutAt? p ts = none) (ht : p t)
    (us : List Token) : cutAt? p (ts ++ t :: us) = some (ts, us) := by
  induction ts with
  | nil => rw [List.nil_append, cutAt?, if_pos ht]
  | cons u ts ih =>
    rw [cutAt?] at h
    split at h
    · exact absurd h (by simp)
    · next hu =>
      rw [List.cons_append, cutAt?, if_neg hu, ih (Option.map_eq_none_iff.1 h)]
      rfl

/-- The first token of a kind at the top level. -/
def topSearch (k : Kind) : Search Nat :=
  ⟨fun d t => if t.kind = k ∧ d = 0 then none else some (depthAfter d t.kind), fun _ _ => some []⟩

theorem cutTop?_eq (k : Kind) (d : Nat) (ts : List Token) :
    cutTop? k d ts = (topSearch k).cut? d ts := by
  induction ts generalizing d with
  | nil => rfl
  | cons t ts ih =>
    rw [cutTop?, Search.cut?, ih]
    by_cases h : t.kind = k ∧ d = 0 <;> simp [topSearch, h]

theorem splitTop_of_cutTop? {k : Kind} {d : Nat} {ts : List Token} (h : cutTop? k d ts = none) :
    splitTop k d ts = [ts] := by
  induction ts generalizing d with
  | nil => rfl
  | cons t ts ih =>
    rw [cutTop?] at h
    split at h
    · exact absurd h (by simp)
    · next hcut => rw [splitTop, if_neg hcut, ih (Option.map_eq_none_iff.1 h), consRun]

/-! ## Ends of runs -/

theorem dropSemicolon_concat {t : Token} (ht : t.kind = .semicolon) (ts : List Token) :
    dropSemicolon (ts ++ [t]) = ts := by
  rw [dropSemicolon, List.getLast?_concat, Option.any_some, ht, List.dropLast_concat]
  rfl

theorem mem_of_mem_dropSemicolon (h : t ∈ dropSemicolon ts) : t ∈ ts := by
  rw [dropSemicolon] at h
  split at h
  · exact ts.dropLast_subset h
  · exact h

/-! ## Names -/

/-- A part of a name. Characters outside ASCII are tokens of their own. -/
def Kind.isNamePart (k : Kind) : Bool := k = .ident || k = .nonAscii || k = .number

theorem Kind.ne_of_isNamePart {k k' : Kind} (h : k.isNamePart) (hk' : k'.isNamePart = false) :
    k ≠ k' := by
  rintro rfl
  exact absurd h (by simp [hk'])

/-! ## Blocks -/

/-- The block is the body, which is balanced, in braces. -/
structure IsBlock (body block : List Token) : Prop where
  balanced : isBalanced body
  braces : ∃ opening closing, block = opening :: (body ++ [closing]) ∧
    opening.kind = .openBrace ∧ closing.kind = .closeBrace

theorem depthStep_of_openBrace (h : k = .openBrace) (d : Nat) : depthStep d k = some (d + 1) := by
  rw [h]
  rfl

theorem depthStep_of_closeBrace (h : k = .closeBrace) (d : Nat) : depthStep (d + 1) k = some d := by
  rw [h]
  rfl

/-- Within brackets a search for `>` counts brackets only. -/
theorem past_angleSearch_inside (h : depthOver d ts = some e) (a : Nat) :
    angleSearch.past (a, d + 1) ts = some (a, e + 1) := by
  induction ts generalizing d with
  | nil =>
    rw [depthOver_nil, Option.some.injEq] at h
    rw [Search.past_nil, h]
  | cons t ts ih =>
    rw [depthOver_cons] at h
    obtain ⟨d₁, hstep, hrest⟩ := Option.bind_eq_some_iff.1 h
    have hangle : angleSearch.step (a, d + 1) t = some (a, d₁ + 1) := by
      rw [depthStep] at hstep
      dsimp only [angleSearch]
      split at hstep
      · next hopens => rw [if_pos hopens, ← Option.some.inj hstep]
      · next hopens =>
        rw [if_neg hopens]
        split at hstep
        · next hcloses =>
          have hd : d ≠ 0 ∧ d - 1 = d₁ := by simpa using hstep
          rw [if_pos hcloses, ← hd.2, Nat.add_sub_cancel,
            Nat.sub_add_cancel (Nat.pos_of_ne_zero hd.1)]
        · next hcloses => simp [hcloses, Option.some.inj hstep]
    rw [Search.past_cons, hangle]
    exact ih hrest

namespace IsBlock

variable (h : IsBlock body block)
include h

theorem depthOver (d : Nat) : depthOver d block = some d := by
  obtain ⟨opening, closing, rfl, hopening, hclosing⟩ := h.braces
  have hbody := depthOver_add (isBalanced_iff.1 h.balanced) (d + 1)
  rw [Nat.zero_add] at hbody
  rw [depthOver_cons, depthStep_of_openBrace hopening, Option.bind_some, depthOver_append, hbody,
    Option.bind_some, depthOver_cons, depthStep_of_closeBrace hclosing]
  rfl

theorem past_angleSearch (s : Nat × Nat) : angleSearch.past s block = some s := by
  obtain ⟨a, b⟩ := s
  obtain ⟨opening, closing, rfl, hopening, hclosing⟩ := h.braces
  have hbody := depthOver_add (isBalanced_iff.1 h.balanced) b
  rw [Nat.zero_add] at hbody
  have hopen : angleSearch.step (a, b) opening = some (a, b + 1) := by
    simp [angleSearch, hopening, Kind.opens]
  have hclose : angleSearch.step (a, b + 1) closing = some (a, b) := by
    simp [angleSearch, hclosing, Kind.opens, Kind.closes]
  rw [Search.past_cons, hopen, Option.bind_some, Search.past, List.foldlM_append]
  refine (congrArg (Option.bind · _) (past_angleSearch_inside hbody a)).trans ?_
  rw [Option.bind_some, List.foldlM_cons, hclose]
  rfl

/-- A block at the end is no `;`. -/
theorem dropSemicolon (front : List Token) :
    dropSemicolon (front ++ block) = front ++ block := by
  obtain ⟨opening, closing, rfl, -, hclosing⟩ := h.braces
  have hlast : (front ++ opening :: (body ++ [closing])).getLast? = some closing := by
    rw [← List.cons_append, ← List.append_assoc, List.getLast?_concat]
  rw [Script.dropSemicolon, hlast, Option.any_some, hclosing]
  rfl

end IsBlock

/-! ## A block at the end -/

theorem blockLength?_cons (h : depthStep d t.kind = some e) (us : List Token) :
    blockLength? (e + 1) (t :: us) = (blockLength? (d + 1) us).map (· + 1) := by
  rw [depthStep] at h
  rw [blockLength?.eq_def]
  dsimp only
  split at h
  · next hopens => rw [Kind.not_closes_of_opens hopens, if_pos hopens, ← Option.some.inj h]; rfl
  · next hopens =>
    rw [if_neg hopens]
    split at h
    · next hcloses =>
      have hd : d ≠ 0 ∧ d - 1 = e := by simpa using h
      rw [if_pos hcloses, ← hd.2, Nat.sub_add_cancel (Nat.pos_of_ne_zero hd.1)]
    · next hcloses => rw [if_neg hcloses, Option.some.inj h]

/-- Read from the end, a run goes back to the depth it started at. -/
theorem blockLength?_append (h : depthOver d ts = some e) (us : List Token) :
    blockLength? (e + 1) (ts.reverse ++ us) =
      (blockLength? (d + 1) us).map (· + ts.length) := by
  induction ts using List.reverseRecOn generalizing e with
  | nil =>
    rw [depthOver_nil, Option.some.injEq] at h
    rw [h]
    exact Option.map_id_apply.symm
  | append_singleton ts t ih =>
    rw [depthOver_append] at h
    obtain ⟨d₁, hrest, hstep⟩ := Option.bind_eq_some_iff.1 h
    have hlast : depthStep d₁ t.kind = some e := by simpa [depthOver] using hstep
    rw [List.reverse_concat, List.cons_append, blockLength?_cons hlast, ih hrest, Option.map_map,
      List.length_append]
    rfl

/-- **A block at the end is found from there,** whatever stands in front of it. -/
theorem IsBlock.cutBody (h : IsBlock body block) (front : List Token) :
    cutBody (front ++ block) = (front, block) := by
  obtain ⟨opening, closing, rfl, hopening, hclosing⟩ := h.braces
  have hlast : (front ++ opening :: (body ++ [closing])).getLast? = some closing := by
    rw [← List.cons_append, ← List.append_assoc, List.getLast?_concat]
  have hreverse : (front ++ opening :: (body ++ [closing])).reverse =
      closing :: (body.reverse ++ opening :: front.reverse) := by simp
  have hopen : blockLength? 1 (opening :: front.reverse) = some 1 := by
    simp [blockLength?, hopening, Kind.opens, Kind.closes]
  have hlength : blockLength? 0 (front ++ opening :: (body ++ [closing])).reverse =
      some (opening :: (body ++ [closing])).length := by
    have hcloses : closing.kind.closes := by rw [hclosing]; rfl
    rw [hreverse, blockLength?.eq_def]
    dsimp only
    rw [if_pos hcloses, blockLength?_append (isBalanced_iff.1 h.balanced), hopen]
    simp
    omega
  rw [Script.cutBody, hlast, hlength, Option.any_some, hclosing]
  simp

/-! ## Results -/

theorem returnsValue_append_cons (us : List Token) (t : Token) (ts : List Token) :
    returnsValue (us ++ t :: ts) = (returnsValue (us ++ [t]) || returnsValue (t :: ts)) := by
  induction us with
  | nil => simp [returnsValue]
  | cons u us ih =>
    cases us with
    | nil => simp [returnsValue]
    | cons v us =>
      rw [List.cons_append, List.cons_append, returnsValue, ← List.cons_append, ih]
      simp [returnsValue, Bool.or_assoc]

theorem returnsValue_cons (h : t.isWord "return" = false) (ts : List Token) :
    returnsValue (t :: ts) = returnsValue ts := by
  cases ts with
  | nil => rfl
  | cons u ts => rw [returnsValue, h, Bool.false_and, Bool.false_and, Bool.false_or]

theorem returnsValue_concat (h : t.kind = .closeBrace) (ts : List Token) :
    returnsValue (ts ++ [t]) = returnsValue ts := by
  fun_induction returnsValue ts with
  | case1 u v ts ih =>
    rw [List.cons_append, List.cons_append, returnsValue]
    exact congrArg _ ih
  | case2 ts hshort =>
    match ts, hshort with
    | [], _ => rfl
    | [u], _ => simp [returnsValue, h]
    | u :: v :: ts, hshort => exact absurd rfl (hshort u v ts)

/-- The braces of a block do not count. -/
theorem IsBlock.returnsValue (h : IsBlock body block) : returnsValue block = returnsValue body := by
  obtain ⟨opening, closing, rfl, hopening, hclosing⟩ := h.braces
  have hword : opening.isWord "return" = false := by simp [Token.isWord, hopening]
  rw [returnsValue_cons hword, returnsValue_concat hclosing]

end SvelteTypings.Script
