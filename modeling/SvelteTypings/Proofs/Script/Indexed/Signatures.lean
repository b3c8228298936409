import SvelteTypings.Proofs.Script.Indexed.Types
import SvelteTypings.Proofs.Script.Initializers

/-!
# Functions and variables read by position

What an initializer shows, the signatures of functions and the declarations of variables, with every
run and text taken as a slice.
-/

namespace SvelteTypings.Script.Indexed

open Outcome

variable {source : String} {ps ts : List Token} {t : Token} {i j n : Nat} {k : Kind}
  {o : CompilerOptions}

/-! ## What only kinds and texts tell -/

theorem returnsValue_congr (h : ps.map Token.bare = ts.map Token.bare) :
    returnsValue ps = returnsValue ts := by
  induction ts generalizing ps with
  | nil => rw [List.map_eq_nil_iff.1 h]
  | cons t ts ih =>
    obtain ⟨p, ps, rfl, hp, hps⟩ := List.map_eq_cons_iff.1 h
    have hpt : SameToken p t := hp
    cases ts with
    | nil =>
      rw [List.map_eq_nil_iff.1 hps]
      rfl
    | cons u ts =>
      obtain ⟨q, qs, rfl, hq, hqs⟩ := List.map_eq_cons_iff.1 hps
      have hqu : SameToken q u := hq
      rw [returnsValue, returnsValue, ih hps, hpt.isWord, hqu.kind]

theorem literal?_congr (h : ps.map Token.bare = ts.map Token.bare) (constant : Bool) :
    literal? constant ps = literal? constant ts := by
  have hlength : ps.length = ts.length := by simpa using congrArg List.length h
  rcases ts with _ | ⟨t, _ | ⟨u, _ | ⟨v, ts⟩⟩⟩
  · rw [List.map_eq_nil_iff.1 h]
  · obtain ⟨p, rfl⟩ := List.length_eq_one_iff.1 hlength
    have hpt : SameToken p t := (List.cons.inj h).1
    rw [literal?, literal?, hpt.kind, hpt.text]
  · obtain ⟨p, q, rfl⟩ := List.length_eq_two.1 hlength
    have hpt : SameToken p t := (List.cons.inj h).1
    have hqu : SameToken q u := (List.cons.inj (List.cons.inj h).2).1
    rw [literal?, literal?, hpt.text, hqu.kind, hqu.text]
  · obtain ⟨p, ps, rfl, -, hps⟩ := List.map_eq_cons_iff.1 h
    obtain ⟨q, ps, rfl, -, hps⟩ := List.map_eq_cons_iff.1 hps
    obtain ⟨r, ps, rfl, -, -⟩ := List.map_eq_cons_iff.1 hps
    rfl

theorem constructed?_congr (h : ps.map Token.bare = ts.map Token.bare) :
    constructed? ps = constructed? ts := by
  rcases ts with _ | ⟨t, _ | ⟨u, ts⟩⟩
  · rw [List.map_eq_nil_iff.1 h]
  · obtain ⟨p, ps, rfl, -, hps⟩ := List.map_eq_cons_iff.1 h
    rw [List.map_eq_nil_iff.1 hps]
    rfl
  · obtain ⟨p, ps, rfl, hp, hps⟩ := List.map_eq_cons_iff.1 h
    obtain ⟨q, ps, rfl, hq, -⟩ := List.map_eq_cons_iff.1 hps
    have hpt : SameToken p t := hp
    have hqu : SameToken q u := hq
    rw [constructed?, constructed?, hpt.isWord, hqu.kind, hqu.text]

theorem PlacedIn.dropSemicolon (h : PlacedIn source ps ts) :
    PlacedIn source (dropSemicolon ps) (dropSemicolon ts) := by
  rw [Script.dropSemicolon, Script.dropSemicolon, getLast?_any_kind h.map_bare]
  split
  · rw [List.dropLast_eq_take, List.dropLast_eq_take, h.length_eq]
    exact h.take _
  · exact h

theorem ite_drop (c : Bool) (n : Nat) (ts : List Token) :
    (if c then (ts.drop n).drop 1 else ts.drop n) = ts.drop (if c then n + 1 else n) := by
  cases c
  · rfl
  · exact List.drop_drop

/-- What is in front of a token of another kind starts as the whole does. -/
theorem startsWith_take (hn : ts[n]? = some t) (hk : t.kind ≠ k) :
    startsWith k (ts.take n) = startsWith k ts := by
  cases n with
  | zero =>
    have hhead : ts.head? = some t := by rw [List.head?_eq_getElem?, hn]
    rw [List.take_zero, startsWith, startsWith, hhead]
    simp [hk]
  | succ n => rw [startsWith, startsWith, List.head?_take, if_neg (Nat.succ_ne_zero n)]

theorem pos_of_startsWith (h : startsWith k ts) (hn : ts[n]? = some t) (hk : t.kind ≠ k) :
    0 < n := by
  refine Nat.pos_of_ne_zero fun hzero => ?_
  rw [← startsWith_take hn hk, hzero] at h
  exact absurd h (by simp [startsWith])

/-! ## Initializers -/

/-- The type of an assertion `value as T`. -/
def asserted (source : String) (init : List Token) : Outcome Inferred := do
  let i ← ofOption (lastPosition? (·.isWord "as") 0 init)
  let target ← tokensFrom init (i + 1)
  if target.length = 1 then do
    let only ← token target 0
    if only.isWord "const" then .nothing
    else do
      let text ← spanText source target
      return .type text
  else do
    let text ← spanText source target
    return .type text

theorem asserted_agrees (h : PlacedIn source ps ts) :
    Agrees Eq (asserted source ps) (asserted? ts) := by
  rw [asserted, asserted?]
  rcases lastPosition?_cases (q := (·.isWord "as")) (fun p t hsame => hsame.isWord "as") h.map_bare 0 with
    ⟨hlast, hpos⟩ | ⟨n, hn, hlast, hpos⟩
  · rw [hlast, hpos]
    exact .nothing
  · rw [hlast, hpos, Nat.zero_add]
    obtain ⟨qs, hqs, hplaced⟩ := h.tokensFrom hn
    have htext : Agrees Eq (spanText source qs >>= fun text => pure (Inferred.type text))
        (spanText? (ts.drop (n + 1)) >>= fun text => pure (Inferred.type text)) :=
      (spanText_agrees hplaced).bind fun a b hab => .found (congrArg Inferred.type hab)
    show Agrees Eq (tokensFrom ps (n + 1) >>= _) (if _ then _ else _)
    rw [hqs, found_bind, hplaced.length_eq]
    by_cases hone : (ts.drop (n + 1)).length = 1
    · obtain ⟨u, hu⟩ := List.length_eq_one_iff.1 hone
      obtain ⟨p, hp, hsame⟩ := hplaced.token (i := 0) (hone ▸ Nat.one_pos)
      have hsame : SameToken p u := by simpa only [hu, List.getElem_cons_zero] using hsame
      have hany : ((ts.drop (n + 1)).any fun t => t.isWord "const") = u.isWord "const" := by
        rw [hu, List.any_cons, List.any_nil, Bool.or_false]
      rw [if_pos hone, hp, found_bind, hsame.isWord, hany]
      by_cases hconst : u.isWord "const"
      · rw [if_pos hconst, if_pos ⟨hone, hconst⟩]
        exact .nothing
      · rw [if_neg hconst, if_neg fun hand => hconst hand.2]
        exact htext
    · rw [if_neg hone, if_neg fun hand => hone hand.1]
      exact htext

/-- The type of a run without looking into functions. -/
def shallowType (source : String) (constant : Bool) (ts : List Token) : Outcome Inferred :=
  (ofOption (literal? constant ts)).orElse fun _ =>
    (asserted source ts).orElse fun _ => ofOption (constructed? ts)

theorem orElse_eq {α : Type} (x y : Option α) : (x <|> y) = x.or y := by cases x <;> rfl

theorem Agrees.or {α β : Type} {R : α → β → Prop} {x x' : Outcome α} {y y' : Option β}
    (h : Agrees R x y) (h' : Agrees R x' y') : Agrees R (x.orElse fun _ => x') (y.or y') := by
  cases h with
  | nothing => exact h'
  | found h => exact .found h

theorem shallowType_agrees (h : PlacedIn source ps ts) (constant : Bool) :
    Agrees Eq (shallowType source constant ps) (shallowType? constant ts) := by
  rw [shallowType, shallowType?, literal?_congr h.map_bare, constructed?_congr h.map_bare, orElse_eq,
    orElse_eq]
  exact (Agrees.of_option _).or ((asserted_agrees h).or (Agrees.of_option _))

/-- The type of a function written with an arrow. -/
def arrowWith (infer : List Token → Outcome Inferred) (o : CompilerOptions) (source : String)
    (init : List Token) : Outcome String := do
  let first ← ofOption init[0]?
  let isAsync := first.isWord "async"
  let (generics, i) ← typeParams source init (if isAsync then 1 else 0)
  let (inside, i) ← parenthesized init i
  let params ← paramsWith infer source inside
  let after ← tokensFrom init i
  let arrow ← ofOption (firstPosition? (·.kind = .arrow) after)
  let result ←
    if startsWith .colon after then do
      let result ← tokens after 1 arrow
      spanText source result
    else do
      let body ← tokensFrom after (arrow + 1)
      pure (impliedResult o isAsync (!startsWith .openBrace body || returnsValue body))
  return generics ++ "(" ++ params ++ ") => " ++ result

section Infer

variable {infer : List Token → Outcome Inferred} {infer' : List Token → Inferred}

theorem arrowWith_agrees (hinfer : ∀ qs us, PlacedIn source qs us → infer qs = .found (infer' us))
    (h : PlacedIn source ps ts) :
    Agrees Eq (arrowWith infer o source ps) (arrowWith? infer' o ts) := by
  rw [arrowWith, arrowWith?]
  cases ts with
  | nil =>
    rw [h.nil_iff.2 rfl]
    exact .nothing
  | cons t ts =>
    obtain ⟨p, hp, hsame⟩ := (h.get 0).exists_found (b := t)
    have hstart : (if t.isWord "async" then (t :: ts).drop 1 else t :: ts) =
        (t :: ts).drop (if t.isWord "async" then 1 else 0) := ite_drop (t.isWord "async") 0 (t :: ts)
    rw [hp, found_bind, hsame.isWord, List.head?_cons, Option.any_some, hstart]
    refine (typeParams_agrees h _).bind ?_
    rintro ⟨generics, i⟩ ⟨generics', rest⟩ ⟨hgenerics, hrest⟩
    dsimp only at hgenerics hrest ⊢
    rw [hrest, hgenerics]
    refine (parenthesized_agrees h i).bind ?_
    rintro ⟨inside, j⟩ ⟨inside', after⟩ ⟨hinside, hj, hafter⟩
    dsimp only at hinside hj hafter ⊢
    obtain ⟨as, has, haplaced⟩ := h.tokensFrom hj
    rw [paramsWith_eq hinfer hinside, found_bind, has, found_bind, hafter]
    -- The type of the result is what stands between the parameters and the first arrow.
    refine (firstPosition?_agrees (q := (·.kind = .arrow)) (fun p t hsame => by rw [hsame.kind])
      haplaced).bind ?_
    rintro arrow ⟨result, body⟩ hstop
    obtain ⟨s, u, hu, hstops⟩ := hstop.stops
    have hkind : u.kind = .arrow := by simpa using of_firstSearch hstops
    have hne : u.kind ≠ .colon := by rw [hkind]; decide
    have hresult : result = (((t :: ts).drop j).take arrow) := hstop.before
    have hbody : body = ((t :: ts).drop j).drop (arrow + 1) := hstop.behind
    dsimp only
    rw [hresult, startsWith_take hu hne, haplaced.startsWith, hbody]
    split
    · next hcolon =>
      obtain ⟨rs, hrs, hrplaced⟩ := haplaced.tokens (pos_of_startsWith hcolon hu hne)
        (Nat.le_of_lt hstop.lt)
      rw [hrs]
      exact (spanText_agrees hrplaced).bind fun a b hab => .found (by rw [hab])
    · obtain ⟨bs, hbs, hbplaced⟩ := haplaced.tokensFrom hstop.lt
      rw [hbs, found_bind, hbplaced.startsWith, returnsValue_congr hbplaced.map_bare]
      exact .found rfl

end Infer

/-- The type or literal that an initializer shows, looking into the parameters of functions no
deeper than the bound. -/
def inferWithin (o : CompilerOptions) (source : String) : Nat → Bool → List Token → Outcome Inferred
  | 0, _, _ => .found (.type (fallbackType o))
  | n + 1, constant, init =>
    let init := dropSemicolon init
    (shallowType source constant init).orElse fun _ =>
      (arrowWith (inferWithin o source n false) o source init >>= fun signature =>
        .found (.type signature)).orElse fun _ => .found (.type (fallbackType o))

/-- The type or literal that an initializer shows. -/
def infer (o : CompilerOptions) (source : String) (constant : Bool) (init : List Token) :
    Outcome Inferred :=
  inferWithin o source (init.length + 1) constant init

def params (o : CompilerOptions) (source : String) (ts : List Token) : Outcome String :=
  paramsWith (infer o source false) source ts

theorem inferWithin_eq (o : CompilerOptions) (n : Nat) (constant : Bool)
    (h : PlacedIn source ps ts) :
    inferWithin o source n constant ps = .found (Script.inferWithin o n constant ts) := by
  induction n generalizing constant ps ts with
  | zero => rfl
  | succ n ih =>
    have harrow : Agrees Eq
        (arrowWith (inferWithin o source n false) o source (dropSemicolon ps) >>= fun signature =>
          pure (Inferred.type signature))
        (arrowWith? (Script.inferWithin o n false) o (dropSemicolon ts) >>= fun signature =>
          pure (Inferred.type signature)) :=
      (arrowWith_agrees (fun qs us hus => ih false hus) h.dropSemicolon).bind fun a b hab =>
        .found (congrArg Inferred.type hab)
    have hinfer := ((shallowType_agrees h.dropSemicolon constant).or
      (harrow.or (.found (rfl : Inferred.type (fallbackType o) = _)))).eq_ofOption
    rw [inferWithin]
    refine hinfer.trans ?_
    rw [Script.inferWithin]
    cases shallowType? constant (dropSemicolon ts) with
    | some found => rfl
    | none => cases arrowWith? (Script.inferWithin o n false) o (dropSemicolon ts) <;> rfl

theorem infer_eq (o : CompilerOptions) (constant : Bool) (h : PlacedIn source ps ts) :
    infer o source constant ps = .found (Script.infer o constant ts) := by
  rw [infer, Script.infer, h.length_eq]
  exact inferWithin_eq o _ constant h

/-- No initializer goes deeper than its number of tokens, so a higher bound takes no other slices. -/
theorem inferWithin_eq_infer (h : PlacedIn source ps ts) (hn : ps.length < n) (constant : Bool) :
    inferWithin o source n constant ps = infer o source constant ps := by
  rw [h.length_eq] at hn
  rw [inferWithin_eq o n constant h, infer_eq o constant h, Script.infer,
    Script.inferWithin_congr hn (Nat.lt_succ_self _)]

theorem params_eq (o : CompilerOptions) (h : PlacedIn source ps ts) :
    params o source ps = .found (paramsText o ts) :=
  paramsWith_eq (fun _ _ hus => infer_eq o false hus) h

/-! ## Functions -/

/-- The signature of a function or method, from its type parameters or parameters on. -/
def signature (o : CompilerOptions) (source : String) (isAsync isGenerator : Bool)
    (ts : List Token) : Outcome Signature := do
  let (generics, i) ← typeParams source ts 0
  let (inside, i) ← parenthesized ts i
  let params ← params o source inside
  let after ← tokensFrom ts i
  let after := dropSemicolon after
  let result ←
    if startsWith .colon after then do
      let result ← tokens after 1 ((bodyStart? after).getD after.length)
      spanText source result
    else if isGenerator then pure (fallbackType o)
    else do
      let body ← match bodyStart? after with
        | some start => tokensFrom after start
        | none => pure []
      pure (impliedResult o isAsync (returnsValue body))
  return ⟨generics, params, result⟩

theorem signature_agrees (o : CompilerOptions) (isAsync isGenerator : Bool)
    (h : PlacedIn source ps ts) :
    Agrees Eq (signature o source isAsync isGenerator ps) (signature? o isAsync isGenerator ts) := by
  rw [signature, signature?]
  refine (typeParams_agrees h 0).bind fun ⟨generics, i⟩ ⟨generics', rest⟩ ⟨hgenerics, hrest⟩ => ?_
  dsimp only at hgenerics hrest ⊢
  rw [hrest, hgenerics]
  refine (parenthesized_agrees h i).bind fun ⟨inside, j⟩ ⟨inside', after⟩ ⟨hinside, hj, hafter⟩ => ?_
  dsimp only at hinside hj hafter ⊢
  obtain ⟨as, has, haplaced⟩ := h.tokensFrom hj
  have hdrop := haplaced.dropSemicolon
  rw [← hafter] at hdrop
  rw [params_eq o hinside, found_bind, has, found_bind, bodyStart?_congr hdrop.map_bare,
    hdrop.startsWith, hdrop.length_eq]
  -- A body starts at the same token in both, and the type of the result ends before it.
  rcases cutBody_cases (dropSemicolon after) with ⟨hstart, hcut⟩ | ⟨n, u, hstart, hu, hopens, hcut⟩
  · rw [hstart, hcut]
    dsimp only
    split
    · next hcolon =>
      have hpos : 0 < (dropSemicolon after).length := List.length_pos_iff.2 fun hnil => by
        rw [hnil] at hcolon
        exact absurd hcolon (by simp [startsWith])
      obtain ⟨rs, hrs, hrplaced⟩ := hdrop.tokens hpos (Nat.le_refl _)
      rw [List.take_length] at hrplaced
      rw [Option.getD_none, hrs]
      exact (spanText_agrees hrplaced).bind fun a b hab => .found (by rw [hab])
    · split
      · exact .found rfl
      · exact .found rfl
  · have hne : u.kind ≠ .colon := fun hkind => by
      rw [hkind] at hopens
      exact absurd hopens (by decide)
    have hn : n < (dropSemicolon after).length := (List.getElem?_eq_some_iff.1 hu).1
    rw [hstart, hcut]
    dsimp only
    rw [startsWith_take hu hne]
    split
    · next hcolon =>
      obtain ⟨rs, hrs, hrplaced⟩ := hdrop.tokens (pos_of_startsWith hcolon hu hne) (Nat.le_of_lt hn)
      rw [Option.getD_some, hrs]
      exact (spanText_agrees hrplaced).bind fun a b hab => .found (by rw [hab])
    · split
      · exact .found rfl
      · obtain ⟨bs, hbs, hbplaced⟩ := hdrop.tokensFrom (Nat.le_of_lt hn)
        rw [hbs, found_bind, returnsValue_congr hbplaced.map_bare]
        exact .found rfl

/-- The declaration of a function from a position on, where its name or its signature stands. -/
def namedFunction (o : CompilerOptions) (source start : String) (isAsync isGenerator : Bool)
    (ts : List Token) (i : Nat) : Outcome String := do
  let first ← ofOption ts[i]?
  let (name, i) ←
    if first.kind = .ident then do
      let name ← token ts i
      pure (" " ++ name.text, i + 1)
    else pure ("", i)
  let rest ← tokensFrom ts i
  let signature ← signature o source isAsync isGenerator rest
  return start ++ "function" ++ name ++ signature.text ++ ";"

/-- The declaration of a function, from `async` or `function` on. -/
def functionText (o : CompilerOptions) (source start : String) (ts : List Token) :
    Outcome String := do
  let first ← ofOption ts[0]?
  let isAsync := first.isWord "async"
  let i := if first.isWord "async" then 1 else 0
  let keyword ← ofOption ts[i]?
  if !keyword.isWord "function" then .nothing
  else
    let isGenerator := ts[i + 1]?.any (·.isOperator "*")
    namedFunction o source start isAsync isGenerator ts (if isGenerator then i + 1 + 1 else i + 1)

/-- A test of a token that does not depend on what stands in front of it. -/
theorem PlacedIn.any {q : Token → Bool} (hq : ∀ p t, SameToken p t → q p = q t)
    (h : PlacedIn source ps ts) (i : Nat) : ps[i]?.any q = ts[i]?.any q := by
  rcases (h.get i).option_cases with ⟨hp, ht⟩ | ⟨p, t, hp, ht, hsame⟩
  · rw [hp, ht]
  · rw [hp, ht, Option.any_some, Option.any_some, hq p t hsame]

theorem namedFunction_agrees (o : CompilerOptions) (start : String) (isAsync isGenerator : Bool)
    (h : PlacedIn source ps ts) (i : Nat) :
    Agrees Eq (namedFunction o source start isAsync isGenerator ps i) (do
      let first ← (ts.drop i).head?
      let named :=
        if first.kind = .ident then (" " ++ first.text, (ts.drop i).drop 1) else ("", ts.drop i)
      let signature ← signature? o isAsync isGenerator named.2
      return start ++ "function" ++ named.1 ++ signature.text ++ ";") := by
  rw [namedFunction, List.head?_drop]
  have hget := h.get i
  cases hi : ts[i]? with
  | none =>
    rw [hi] at hget
    rw [hget.eq_nothing]
    exact .nothing
  | some first =>
    rw [hi] at hget
    obtain ⟨p, hp, hsame⟩ := hget.exists_found
    obtain ⟨hlt, hfirst⟩ := List.getElem?_eq_some_iff.1 hi
    obtain ⟨name, hname, hnamed⟩ := h.token hlt
    rw [hfirst] at hnamed
    rw [hp, found_bind, hsame.kind, hname, Option.bind_eq_bind, Option.bind_some]
    dsimp only
    -- With a name the signature is behind it; without one it starts here.
    by_cases hident : first.kind = .ident
    · obtain ⟨rs, hrs, hrplaced⟩ := h.tokensFrom hlt
      simp only [if_pos hident]
      rw [List.drop_drop]
      show Agrees Eq (tokensFrom ps (i + 1) >>= _) _
      rw [hrs, hnamed.text]
      exact (signature_agrees o _ _ hrplaced).bind fun a b hab => .found (by rw [hab])
    · obtain ⟨rs, hrs, hrplaced⟩ := h.tokensFrom (Nat.le_of_lt hlt)
      simp only [if_neg hident]
      show Agrees Eq (tokensFrom ps i >>= _) _
      rw [hrs]
      exact (signature_agrees o _ _ hrplaced).bind fun a b hab => .found (by rw [hab])

theorem functionText_agrees (o : CompilerOptions) (start : String) (h : PlacedIn source ps ts) :
    Agrees Eq (functionText o source start ps) (functionText? o start ts) := by
  cases ts with
  | nil =>
    rw [h.nil_iff.2 rfl]
    exact .nothing
  | cons t ts =>
    obtain ⟨p, hp, hsame⟩ := (h.get 0).exists_found (b := t)
    have hasync : (if t.isWord "async" then (t :: ts).drop 1 else t :: ts) =
        (t :: ts).drop (if t.isWord "async" then 1 else 0) := ite_drop (t.isWord "async") 0 (t :: ts)
    rw [functionText, functionText?, hp, found_bind, hsame.isWord, List.head?_cons, Option.any_some]
    dsimp only
    rw [hasync]
    generalize (if t.isWord "async" then 1 else 0) = i
    rw [List.head?_drop]
    refine (h.get i).bind fun keyword keyword' hkeyword => ?_
    rw [hkeyword.isWord]
    split
    · exact .nothing
    · have hnext : ((t :: ts).drop (i + 1)).head? = (t :: ts)[i + 1]? := List.head?_drop
      rw [List.drop_drop, hnext, ite_drop, h.any (fun p t hsame => hsame.isOperator "*")]
      exact namedFunction_agrees o start _ _ h _

/-! ## Variables -/

/-- What a declaration says of a variable behind its name. -/
def suffix (o : CompilerOptions) (source keyword : String) (ts : List Token) (eq? : Option Nat) :
    Option String → Outcome String
  | some declared => .found (": " ++ declared)
  | none =>
    match eq? with
    | some eq => do
      let init ← tokensFrom ts (eq + 1)
      let shown ← infer o source (keyword = "const") init
      match shown with
      | .literal text => return " = " ++ text
      | .type text => return ": " ++ text
    | none => .found (": " ++ fallbackType o)

/-- The type that is declared from a position up to another, if there is one. -/
def declaredType (source : String) (ts : List Token) (i stop : Nat) : Outcome (Option String) :=
  if ts[i]?.any (·.kind = .colon) then (tokens ts (i + 1) stop >>= spanText source).attempt
  else .found none

/-- The declaration of one variable. -/
def variableText (o : CompilerOptions) (source keyword : String) (ts : List Token) :
    Outcome String := do
  let name ← ofOption ts[0]?
  if name.kind ≠ .ident then .nothing
  else do
    let i := if ts[1]?.any (·.isOperator "!") then 1 + 1 else 1
    let rest ← tokensFrom ts i
    let eq? := (topPosition? .equals rest 0).map (i + ·)
    let declared? ← declaredType source ts i (eq?.getD ts.length)
    let suffix ← suffix o source keyword ts eq? declared?
    return "export declare " ++ keyword ++ " " ++ name.text ++ suffix ++ ";"

theorem suffix_eq (o : CompilerOptions) (keyword : String) (h : PlacedIn source ps ts)
    (eq? : Option Nat) (init? : Option (List Token)) (declared? : Option String) :
    Agrees (fun eq init => eq < ts.length ∧ init = ts.drop (eq + 1)) (ofOption eq?) init? →
    suffix o source keyword ps eq? declared? = .found (match declared?, init? with
      | some declared, _ => ": " ++ declared
      | none, some init =>
        match Script.infer o (keyword = "const") init with
        | .literal text => " = " ++ text
        | .type text => ": " ++ text
      | none, none => ": " ++ fallbackType o) := by
  intro hinit
  cases declared? with
  | some declared => rfl
  | none =>
    rcases hinit.option_cases with ⟨heq, hnone⟩ | ⟨eq, init, heq, hsome, hlt, hdrop⟩
    · rw [heq, hnone]
      rfl
    · obtain ⟨is, his, hplaced⟩ := h.tokensFrom hlt
      rw [← hdrop] at hplaced
      rw [heq, hsome, suffix]
      dsimp only
      rw [his, found_bind, infer_eq o _ hplaced, found_bind]
      cases Script.infer o (keyword = "const") init <;> rfl

/-- A declared type that ends before another token than a colon. -/
theorem declaredType_eq (h : PlacedIn source ps ts) (hij : i ≤ j) (hj : j ≤ ts.length)
    (hcolon : startsWith .colon ((ts.take j).drop i) = ts[i]?.any (·.kind = .colon)) :
    declaredType source ps i j = .found (if startsWith .colon ((ts.take j).drop i) then
      spanText? (((ts.take j).drop i).drop 1) else none) := by
  rw [declaredType, h.any (fun p t hsame => by rw [hsame.kind]), ← hcolon]
  split
  · next hstarts =>
    have hlt : i < j := Nat.lt_of_le_of_ne hij fun heq => by
      rw [heq, List.drop_eq_nil_of_le (List.length_take_le _ _)] at hstarts
      exact absurd hstarts (by simp [startsWith])
    obtain ⟨qs, hqs, hplaced⟩ := h.tokens hlt hj
    rw [hqs, found_bind, List.drop_drop]
    exact (spanText_agrees hplaced).attempt
  · rfl

theorem variableText_agrees (o : CompilerOptions) (keyword : String) (h : PlacedIn source ps ts) :
    Agrees Eq (variableText o source keyword ps) (variableText? o keyword ts) := by
  cases ts with
  | nil =>
    rw [h.nil_iff.2 rfl]
    exact .nothing
  | cons t ts =>
    obtain ⟨p, hp, hsame⟩ := (h.get 0).exists_found (b := t)
    have hrest : (if ts.head?.any (·.isOperator "!") then ts.drop 1 else ts) =
        (t :: ts).drop (if (t :: ts)[1]?.any (·.isOperator "!") then 1 + 1 else 1) := by
      rw [List.getElem?_cons_succ, ← List.head?_eq_getElem?]
      exact ite_drop _ 1 (t :: ts)
    rw [variableText, variableText?, hp, found_bind, hsame.kind]
    split
    · exact .nothing
    dsimp only
    rw [hrest, h.any (fun p t hsame => hsame.isOperator "!")]
    have hi : (if (t :: ts)[1]?.any (·.isOperator "!") then 1 + 1 else 1) ≤ (t :: ts).length := by
      cases ts with
      | nil => exact Nat.le_refl 1
      | cons u ts =>
        rw [List.length_cons, List.length_cons]
        split <;> omega
    -- Only that the index is within the tokens is used of it from here on.
    generalize (if (t :: ts)[1]?.any (·.isOperator "!") then 1 + 1 else 1) = i at hi ⊢
    obtain ⟨rs, hrs, hrplaced⟩ := h.tokensFrom hi
    have hhead : startsWith .colon ((t :: ts).drop i) = (t :: ts)[i]?.any (·.kind = .colon) := by
      rw [startsWith, List.head?_drop]
    rw [hrs, found_bind, h.length_eq]
    -- An initializer is found by both searches, or by neither.
    rcases (topPosition?_agrees .equals hrplaced 0).option_cases with
      ⟨hpos, hcut⟩ | ⟨n, ⟨head, init⟩, hpos, hcut, hstop⟩
    · have hall : ((t :: ts).take (t :: ts).length).drop i = (t :: ts).drop i := by rw [List.take_length]
      have hdeclared := declaredType_eq h hi (Nat.le_refl _) (hall ▸ hhead)
      rw [List.drop_zero] at hcut
      rw [hpos, hcut, Option.map_none, Option.getD_none, hdeclared, found_bind, hall,
        suffix_eq o keyword h none none _ .nothing, found_bind, hsame.text]
      exact .found rfl
    · obtain ⟨d, u, hu, hstops⟩ := hstop.stops
      have hkind := kind_of_topSearch hstops
      have hlt : n < ((t :: ts).drop i).length := hstop.lt
      rw [List.length_drop] at hlt
      have hbefore : head = ((t :: ts).take (i + n)).drop i := by
        rw [List.drop_take, Nat.add_sub_cancel_left]
        exact hstop.before
      have hbehind : init = (t :: ts).drop (i + n + 1) := by
        rw [Nat.add_assoc, ← List.drop_drop]
        exact hstop.behind
      have hstarts : startsWith .colon (((t :: ts).take (i + n)).drop i) =
          (t :: ts)[i]?.any (·.kind = .colon) := by
        rw [← hhead, List.drop_take, Nat.add_sub_cancel_left]
        exact startsWith_take hu (by rw [hkind]; decide)
      have hdeclared := declaredType_eq h (Nat.le_add_right i n) (by omega) hstarts
      rw [List.drop_zero] at hcut
      rw [hpos, hcut, Option.map_some, Option.getD_some, hdeclared, found_bind,
        suffix_eq o keyword h (some (i + n)) (some init) _ (.found ⟨by omega, hbehind⟩), found_bind,
        hsame.text, ← hbefore]
      exact .found rfl

/-- The declarations of the variables of one statement. -/
def variablesText (o : CompilerOptions) (source keyword : String) (ts : List Token) :
    Outcome String := do
  let parts ← split .comma (dropSemicolon ts)
  let lines ← collect (variableText o source keyword) parts
  if lines.isEmpty then .nothing else return joinLines lines

theorem variablesText_agrees (o : CompilerOptions) (keyword : String) (h : PlacedIn source ps ts) :
    Agrees Eq (variablesText o source keyword ps) (variablesText? o keyword ts) := by
  obtain ⟨qss, hqss, hparts⟩ := split_eq .comma h.dropSemicolon
  have hcollect := Agrees.collect hparts fun qs part hplaced => variableText_agrees o keyword hplaced
  rw [filterMap_parts (f := variableText? o keyword) rfl] at hcollect
  rw [variablesText, variablesText?, hqss, found_bind, hcollect, found_bind]
  cases (splitTop .comma 0 (dropSemicolon ts)).filterMap (variableText? o keyword) with
  | nil => exact .nothing
  | cons line lines => exact .found rfl

end SvelteTypings.Script.Indexed
