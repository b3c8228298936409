import SvelteTypings.Proofs.Script.Indexed.Searches

/-!
# Types read by position

The types that a declaration takes from annotations and initializers, with every run and text taken
as a slice. Where a search comes to is behind where it began, so the ends of each slice are in order;
that the token found is not the one that the slice begins behind is what makes `[1..end]` exist.
-/

namespace SvelteTypings.Script.Indexed

open Outcome

variable {source : String} {ps ts : List Token} {t : Token} {i j : Nat} {k : Kind}
  {o : CompilerOptions}

/-! ## Texts -/

/-- The text from a token to another, empty if they are out of order. -/
def slice (source : String) (first last : Token) : Outcome String :=
  if last.place.2 ≤ first.place.1 then .found "" else bytes source first.place.1 last.place.2

/-- The text of a run without the blanks at its ends, if anything is left. -/
def spanText (source : String) (ts : List Token) : Outcome String := do
  let first ← ofOption ts.head?
  let last ← ofOption ts.getLast?
  let text ← slice source first last
  if (trimmed text).isEmpty then .nothing else return trimmed text

theorem exists_last_placed (above : String) (t : Token) (ts : List Token) :
    ∃ last, (Token.placed above (t :: ts)).getLast? = some last ∧
      last.place.2 = (above ++ String.join ((t :: ts).map Token.spaced)).utf8ByteSize := by
  obtain ⟨front, last, hts⟩ := List.eq_nil_or_concat (t :: ts) |>.resolve_left (by simp)
  rw [hts, List.concat_eq_append, Token.placed_append]
  refine ⟨last.below (above ++ String.join (front.map Token.spaced)), by simp [Token.placed], ?_⟩
  rw [List.map_append, String.join_append, List.map_singleton, String.join_cons, String.join_nil,
    String.append_empty, Token.spaced]
  simp [Token.place, Token.below, String.utf8ByteSize_append, Nat.add_assoc]

/-- **Tokens that follow each other have a text between the first and the last.** -/
theorem PlacedIn.bytes (h : PlacedIn source ps (t :: ts)) :
    ∃ first last, ps.head? = some first ∧ ps.getLast? = some last ∧
      Indexed.bytes source first.place.1 last.place.2 = .found (Token.span (t :: ts)) ∧
      first.place.1 ≤ last.place.2 := by
  obtain ⟨above, below, hsource, rfl⟩ := h.source
  obtain ⟨last, hlast, hstop⟩ := exists_last_placed above t ts
  have hplace : last.place.2 =
      (above ++ t.gap).utf8ByteSize + (Token.span (t :: ts)).utf8ByteSize := by
    rw [hstop, List.map_cons, String.join_cons, Token.spaced, Token.span]
    simp only [String.utf8ByteSize_append, Nat.add_assoc]
  refine ⟨t.below above, last, rfl, hlast, bytes_eq_found_iff.2 ⟨above ++ t.gap, below, ?_, rfl, hplace⟩, ?_⟩
  · rw [hsource, List.map_cons, String.join_cons, Token.spaced, Token.span]
    simp only [String.append_assoc]
  · rw [hplace]
    exact Nat.le_add_right _ _

theorem spanText_agrees (h : PlacedIn source ps ts) :
    Agrees Eq (spanText source ps) (spanText? ts) := by
  cases ts with
  | nil =>
    rw [h.nil_iff.2 rfl]
    exact .nothing
  | cons t ts =>
    obtain ⟨first, last, hfirst, hlast, hbytes, hle⟩ := h.bytes
    have hslice : slice source first last = .found (Token.span (t :: ts)) := by
      rw [slice]
      split
      · next hempty =>
        -- both ends are one place, so there is no text between them
        obtain ⟨front, behind, -, hfront, hbehind⟩ := bytes_eq_found_iff.1 hbytes
        have hsize : (Token.span (t :: ts)).utf8ByteSize = 0 := by omega
        rw [String.utf8ByteSize_eq_zero_iff.1 hsize]
      · exact hbytes
    rw [spanText, hfirst, hlast]
    show Agrees Eq ((slice source first last).bind _) _
    rw [hslice, Outcome.bind, spanText?]
    split
    · exact .nothing
    · exact .found rfl

/-! ## Type parameters -/

/-- The text of the type parameters at a position, or the empty text, and the position behind
them. -/
def typeParams (source : String) (ts : List Token) (i : Nat) : Outcome (String × Nat) := do
  let first ← ofOption ts[i]?
  if first.kind = .less then do
    let close ← ofOption (matchAngle? ts i)
    let run ← tokens ts i (close + 1)
    let text ← spanText source run
    return (text, close + 1)
  else return ("", i)

/-- A `<` is closed behind it. -/
theorem matchAngle?_agrees (h : PlacedIn source ps ts) (hi : ts[i]? = some t) (ht : t.kind = .less) :
    Agrees (fun close parts => i ≤ close ∧ close < ts.length ∧
        t :: parts.1 = (ts.take (close + 1)).drop i ∧ parts.2 = ts.drop (close + 1))
      (ofOption (matchAngle? ps i)) (cutAngle? 1 0 (ts.drop (i + 1))) := by
  obtain ⟨hlt, rfl⟩ := List.getElem?_eq_some_iff.1 hi
  have hps : i < ps.length := h.length_eq ▸ hlt
  have hstep : angleSearch.step (0, 0) ps[i] = some (1, 0) := by
    have hget := h.get i
    rw [hi, List.getElem?_eq_getElem hps] at hget
    cases hget with
    | found hsame => simp [angleSearch, hsame.kind, ht, Kind.opens, Kind.closes]
  -- One search starts at the bracket, and is where the other one starts after one step.
  have hmatch : matchAngle? ps i = angleSearch.position? (1, 0) (i + 1) (ps.drop (i + 1)) := by
    rw [matchAngle?, List.drop_eq_getElem_cons hps, Search.position?, hstep]
  rw [hmatch, cutAngle?_eq]
  rcases Search.position?_cases respects_angleSearch (h.drop (i + 1)).map_bare (1, 0) (i + 1) with
    ⟨hcut, hpos⟩ | ⟨n, s, u, kept, hu, -, hfound, hcut, hpos⟩
  · rw [hcut, hpos]
    exact .nothing
  · have hkept : kept = [u] := by
      simp only [angleSearch] at hfound
      split at hfound
      · exact (Option.some.inj hfound).symm
      · exact absurd hfound (by simp)
    have hclose := Search.lt_length_of_getElem? hu
    obtain ⟨hn, hu⟩ := List.getElem?_eq_some_iff.1 hu
    rw [hcut, hpos, hkept]
    refine .found ⟨by omega, hclose, ?_, ?_⟩
    · have hsplit : (ts.take (i + 1 + n + 1)).drop i = ts[i] :: ((ts.drop (i + 1)).take (n + 1)) := by
        rw [List.drop_take, List.drop_eq_getElem_cons hlt]
        have hcount : i + 1 + n + 1 - i = n + 1 + 1 := by omega
        rw [hcount, List.take_succ_cons]
      rw [hsplit, List.take_succ_eq_append_getElem hn, hu]
    · rw [List.drop_drop]
      congr 1

theorem typeParams_agrees (h : PlacedIn source ps ts) (i : Nat) :
    Agrees (fun a b => a.1 = b.1 ∧ b.2 = ts.drop a.2) (typeParams source ps i)
      (typeParams? (ts.drop i)) := by
  rw [typeParams]
  have hget := h.get i
  cases hi : ts[i]? with
  | none =>
    rw [hi] at hget
    have hps : ofOption ps[i]? = .nothing := hget.eq_nothing
    rw [hps, List.drop_eq_nil_of_le (List.getElem?_eq_none_iff.1 hi)]
    exact .nothing
  | some t =>
    obtain ⟨hlt, rfl⟩ := List.getElem?_eq_some_iff.1 hi
    rw [hi] at hget
    obtain ⟨p, hp, hsame⟩ := hget.exists_found
    rw [hp, List.drop_eq_getElem_cons hlt, typeParams?]
    show Agrees _ (if p.kind = .less then _ else _) _
    rw [hsame.kind]
    split
    · next hless =>
      refine (matchAngle?_agrees h hi hless).bind fun close ⟨inside, rest⟩
        ⟨hle, hclose, hrun, hrest⟩ => ?_
      obtain ⟨qs, hqs, hplaced⟩ := h.tokens (Nat.le_succ_of_le hle) hclose
      rw [← hrun] at hplaced
      rw [hqs]
      exact (spanText_agrees hplaced).bind fun text text' heq => .found ⟨heq, hrest⟩
    · exact .found ⟨rfl, by rw [List.drop_eq_getElem_cons hlt]⟩

/-! ## Parameters -/

/-- The run between the parentheses at a position, and the position behind them. -/
def parenthesized (ts : List Token) (i : Nat) : Outcome (List Token × Nat) := do
  let opening ← ofOption ts[i]?
  if opening.kind = .openParen then do
    let close ← ofOption (matchBracket? ts i)
    let inside ← tokens ts (i + 1) close
    return (inside, close + 1)
  else .nothing

theorem cutClosing?_zero_cons (ht : t.kind.closes = false) (ts : List Token) :
    cutClosing? 0 (t :: ts) =
      (cutClosing? (if t.kind.opens then 1 else 0) ts).map (consBefore t) := by
  rw [cutClosing?]
  cases hopens : t.kind.opens with
  | true => rfl
  | false => rw [if_neg (by simp), if_neg (by simp [ht])]; rfl

/-- What closes a bracket, or the first one behind a `<`, is behind it. -/
theorem matchBracket?_behind (h : PlacedIn source ps ts) (hi : ts[i]? = some t)
    (ht : t.kind.closes = false) :
    Agrees (fun close parts => i < close ∧ close < ts.length ∧
        parts.1 = (ts.take close).drop (i + 1) ∧ parts.2 = ts.drop (close + 1))
      (ofOption (matchBracket? ps i))
      (cutClosing? (if t.kind.opens then 1 else 0) (ts.drop (i + 1))) := by
  obtain ⟨hlt, rfl⟩ := List.getElem?_eq_some_iff.1 hi
  have hagrees := matchBracket?_agrees h i
  rw [List.drop_eq_getElem_cons hlt, cutClosing?_zero_cons ht] at hagrees
  refine hagrees.of_map.mono fun close parts hstop => ?_
  have hbefore : ts[i] :: parts.1 = (ts.take close).drop i := hstop.before
  have hlt' : i < close := by
    have hlength := congrArg List.length hbefore
    rw [List.length_cons, List.length_drop, List.length_take] at hlength
    omega
  refine ⟨hlt', hstop.lt, ?_, hstop.behind⟩
  rw [← List.tail_drop, ← hbefore, List.tail_cons]

theorem parenthesized_agrees (h : PlacedIn source ps ts) (i : Nat) :
    Agrees (fun a b => PlacedIn source a.1 b.1 ∧ a.2 ≤ ts.length ∧ b.2 = ts.drop a.2)
      (parenthesized ps i) (parenthesized? (ts.drop i)) := by
  rw [parenthesized]
  have hget := h.get i
  cases hi : ts[i]? with
  | none =>
    rw [hi] at hget
    rw [hget.eq_nothing, List.drop_eq_nil_of_le (List.getElem?_eq_none_iff.1 hi)]
    exact .nothing
  | some t =>
    rw [hi] at hget
    obtain ⟨p, hp, hsame⟩ := hget.exists_found
    obtain ⟨hlt, rfl⟩ := List.getElem?_eq_some_iff.1 hi
    rw [hp, List.drop_eq_getElem_cons hlt, parenthesized?]
    show Agrees _ (if p.kind = .openParen then _ else _) _
    rw [hsame.kind]
    split
    · next hparen =>
      have hmatch := matchBracket?_behind h hi (by rw [hparen]; rfl)
      rw [hparen] at hmatch
      refine hmatch.then_found fun close parts ⟨hle, hclose, hinside, hbehind⟩ => ?_
      obtain ⟨qs, hqs, hplaced⟩ := h.tokens hle (Nat.le_of_lt hclose)
      exact ⟨(qs, close + 1), by rw [hqs]; rfl, hinside ▸ hplaced, hclose, hbehind⟩
    · exact .nothing

/-- Drops the modifiers in front of a parameter, at most so many. -/
def dropModifiers : Nat → List Token → Outcome (List Token)
  | 0, ts => .found ts
  | n + 1, ts =>
    if 1 < ts.length then do
      let first ← token ts 0
      let second ← token ts 1
      if first.kind = .ident ∧ paramModifiers.contains first.text ∧
          [Kind.ident, .openBrace, .openBracket, .spread].contains second.kind then do
        let rest ← tokensFrom ts 1
        dropModifiers n rest
      else return ts
    else .found ts

/-- Each modifier is a token, so their number bounds how many are dropped. -/
theorem dropModifiers_eq {n : Nat} (h : PlacedIn source ps ts) (hn : ts.length ≤ n) :
    ∃ qs, dropModifiers n ps = .found qs ∧ PlacedIn source qs (dropParamModifiers ts) := by
  induction n generalizing ps ts with
  | zero =>
    obtain rfl : ts = [] := List.length_eq_zero_iff.1 (Nat.le_zero.1 hn)
    exact ⟨ps, rfl, h⟩
  | succ n ih =>
    rw [dropModifiers, h.length_eq]
    rcases ts with _ | ⟨t, _ | ⟨u, ts⟩⟩
    · exact ⟨ps, rfl, h⟩
    · exact ⟨ps, rfl, h⟩
    · obtain ⟨p, hp, hpt⟩ := h.token (i := 0) (by simp)
      obtain ⟨q, hq, hqu⟩ := h.token (i := 1) (by simp)
      obtain ⟨qs, hqs, hplaced⟩ := h.tokensFrom (i := 1) (by simp)
      rw [if_pos (by simp), hp, hq, found_bind, found_bind, dropParamModifiers, hpt.kind, hpt.text,
        hqu.kind]
      by_cases hmodifier : t.kind = .ident ∧ paramModifiers.contains t.text ∧
          [Kind.ident, .openBrace, .openBracket, .spread].contains u.kind
      · rw [if_pos hmodifier, List.getElem_cons_zero, List.getElem_cons_succ, List.getElem_cons_zero,
          if_pos hmodifier, hqs]
        exact ih hplaced (by simpa using hn)
      · rw [if_neg hmodifier]
        exact ⟨ps, if_neg hmodifier, h⟩

/-- A parameter as a declaration lists it. `infer` gives the type of an initializer. -/
def param (infer : List Token → Outcome Inferred) (source : String) (ts : List Token) :
    Outcome String := do
  let ts ← dropModifiers ts.length ts
  match topPosition? .equals ts 0 with
  | none => spanText source ts
  | some eq => do
    let head ← tokens ts 0 eq
    match topPosition? .colon head 0 with
    | some colon => do
      let name ← tokens head 0 colon
      let name ← spanText source name
      let declared ← tokensFrom head (colon + 1)
      let declared ← spanText source declared
      return String.ofList (Text.dropEndWhile (· = '?') name.toList) ++ "?: " ++ declared
    | none => do
      let name ← spanText source head
      let init ← tokensFrom ts (eq + 1)
      let type ← infer init
      return name ++ "?: " ++ type.text

/-- Parameters as a declaration lists them. -/
def paramsWith (infer : List Token → Outcome Inferred) (source : String) (ts : List Token) :
    Outcome String := do
  let parts ← split .comma ts
  let texts ← collect (param infer source) parts
  return String.intercalate ", " texts

/-- One parameter, as `Script.paramsWith` lists it. -/
def listed? (infer : List Token → Inferred) (ts : List Token) : Option String :=
  match cutTop? .equals 0 (dropParamModifiers ts) with
  | none => spanText? (dropParamModifiers ts)
  | some (head, init) => optionalParam? head (infer init).text

section Infer

variable {infer : List Token → Outcome Inferred} {infer' : List Token → Inferred}

theorem param_agrees (hinfer : ∀ qs us, PlacedIn source qs us → infer qs = .found (infer' us))
    (h : PlacedIn source ps ts) : Agrees Eq (param infer source ps) (listed? infer' ts) := by
  obtain ⟨qs, hqs, hplaced⟩ := dropModifiers_eq h (Nat.le_of_eq h.length_eq.symm)
  rw [param, hqs, found_bind, listed?]
  rcases (topPosition?_agrees .equals hplaced 0).option_cases with
    ⟨hpos, hcut⟩ | ⟨eq, ⟨head, init⟩, hpos, hcut, hstop⟩
  · rw [hpos, ← List.drop_zero (l := dropParamModifiers ts), hcut, List.drop_zero]
    exact spanText_agrees hplaced
  · rw [hpos, ← List.drop_zero (l := dropParamModifiers ts), hcut]
    obtain ⟨hs, hhead, hheadPlaced⟩ := hplaced.tokens (Nat.zero_le eq) (Nat.le_of_lt hstop.lt)
    obtain ⟨is, hinit, hinitPlaced⟩ := hplaced.tokensFrom hstop.lt
    rw [← hstop.before] at hheadPlaced
    rw [← hstop.behind] at hinitPlaced
    dsimp only
    rw [hhead, found_bind, optionalParam?]
    rcases (topPosition?_agrees .colon hheadPlaced 0).option_cases with
      ⟨hpos, hcut⟩ | ⟨colon, ⟨name, declared⟩, hpos, hcut, hcolon⟩
    · rw [hpos, ← List.drop_zero (l := head), hcut, List.drop_zero, hinit]
      refine (spanText_agrees hheadPlaced).bind fun name name' hname => ?_
      rw [found_bind, hinfer is init hinitPlaced, hname]
      exact .found rfl
    · rw [hpos, ← List.drop_zero (l := head), hcut]
      obtain ⟨ns, hname, hnamePlaced⟩ :=
        hheadPlaced.tokens (Nat.zero_le colon) (Nat.le_of_lt hcolon.lt)
      obtain ⟨ds, hdeclared, hdeclaredPlaced⟩ := hheadPlaced.tokensFrom hcolon.lt
      rw [← hcolon.before] at hnamePlaced
      rw [← hcolon.behind] at hdeclaredPlaced
      dsimp only
      rw [hname, hdeclared]
      refine (spanText_agrees hnamePlaced).bind fun name name' hname => ?_
      refine (spanText_agrees hdeclaredPlaced).bind fun declared declared' hdeclared => ?_
      rw [hname, hdeclared]
      exact .found rfl

/-- Empty parts are passed over in any case. -/
theorem filterMap_parts {β : Type} {f : List Token → Option β} (hf : f [] = none)
    (parts : List (List Token)) :
    (parts.filter fun part => !part.isEmpty).filterMap f = parts.filterMap f := by
  rw [List.filterMap_filter]
  refine List.filterMap_congr fun part _ => ?_
  cases part with
  | nil => exact hf.symm
  | cons t ts => rfl

theorem spanText?_nil : spanText? [] = none := by decide

theorem paramsWith_eq (hinfer : ∀ qs us, PlacedIn source qs us → infer qs = .found (infer' us))
    (h : PlacedIn source ps ts) :
    paramsWith infer source ps = .found (Script.paramsWith infer' ts) := by
  obtain ⟨qss, hqss, hparts⟩ := split_eq .comma h
  have hcollect := Agrees.collect hparts fun qs part hplaced => param_agrees hinfer hplaced
  rw [filterMap_parts (f := listed? infer') spanText?_nil] at hcollect
  rw [paramsWith, hqss, found_bind, hcollect]
  rfl

end Infer

end SvelteTypings.Script.Indexed
