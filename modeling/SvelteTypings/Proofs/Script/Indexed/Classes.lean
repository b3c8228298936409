import SvelteTypings.Proofs.Script.Indexed.Signatures
import SvelteTypings.Proofs.Script.Indexed.Statements
import SvelteTypings.Proofs.Script.Signatures

/-!
# Classes read by position

The positions at which a class is taken apart are positions among its significant tokens, while its
members are read from all tokens between its braces. A search steps over newlines and comments, so
it comes to the same token in both (`significant_cases`), and the tokens between the braces are
those that lie between their places (`filter_between`).
-/

namespace SvelteTypings.Script

open Indexed Outcome

variable {σ : Type} {source : String} {ps qs ts us : List Token} {p t : Token} {i j k n : Nat}
  {s s' : Statement} {o : CompilerOptions}

/-! ## Members -/

namespace Indexed

/-- A member that is called, from its type parameters or parameters on. -/
def callableMember (o : CompilerOptions) (source : String) (modifiers kept : List String)
    (start name mark : String) (rest : List Token) : Outcome String :=
  if name = "constructor" then do
    let close ← ofOption (matchBracket? rest 0)
    let inside ← tokens rest 1 close
    let params ← params o source inside
    return "constructor(" ++ params ++ ");"
  else do
    let signature ← signature o source (modifiers.contains "async") false rest
    if kept.contains "set" then
      let text := signature.text
      let head := match Text.cutLast? "): ".toList text.toList with
        | some (head, _) => String.ofList head
        | none => text
      return start ++ name ++ head ++ ");"
    else return start ++ name ++ mark ++ signature.text ++ ";"

/-- A member after its modifiers, name and mark. -/
def memberBody (o : CompilerOptions) (source : String) (modifiers kept : List String)
    (start name mark : String) (rest : List Token) : Outcome String :=
  match rest with
  | [] => .found (start ++ name ++ mark ++ ": " ++ fallbackType o ++ ";")
  | t :: _ =>
    match t.kind with
    | .openParen | .less => callableMember o source modifiers kept start name mark rest
    | .colon => do
      let type ← tokens rest 1 ((topPosition? .equals rest 0).getD rest.length)
      let type ← spanText source type
      return start ++ name ++ mark ++ ": " ++ type ++ ";"
    | .equals => do
      let init ← tokensFrom rest 1
      let shown ← infer o source (kept.contains "readonly") init
      match shown with
      | .literal text => return start ++ name ++ mark ++ " = " ++ text ++ ";"
      | .type text => return start ++ name ++ mark ++ ": " ++ text ++ ";"
    | _ => .nothing

theorem callableMember_agrees (o : CompilerOptions) (modifiers kept : List String)
    (start name mark : String) (h : PlacedIn source ps (t :: ts))
    (hkind : t.kind = .openParen ∨ t.kind = .less) :
    Agrees Eq (callableMember o source modifiers kept start name mark ps)
      (memberBody? o modifiers kept start name mark (t :: ts)) := by
  have hcloses : t.kind.closes = false := by rcases hkind with hkind | hkind <;> rw [hkind] <;> rfl
  have hconstructor : Agrees Eq (ofOption (matchBracket? ps 0) >>= fun close =>
        tokens ps 1 close >>= fun inside => params o source inside >>= fun params =>
          pure ("constructor(" ++ params ++ ");"))
      (cutClosing? (if t.kind.opens then 1 else 0) ts >>= fun parts =>
        some ("constructor(" ++ paramsText o parts.1 ++ ");")) := by
    refine (matchBracket?_behind h (i := 0) (t := t) rfl hcloses).bind
      fun close ⟨inside, rest⟩ ⟨hle, hclose, hinside, hrest⟩ => ?_
    obtain ⟨is, his, hplaced⟩ := h.tokens (i := 1) hle (Nat.le_of_lt hclose)
    have hinside : inside = ((t :: ts).take close).drop 1 := hinside
    rw [← hinside] at hplaced
    rw [his, found_bind, params_eq o hplaced]
    exact .found rfl
  have hmethod := signature_agrees o (modifiers.contains "async") false h
  rw [callableMember, memberBody?]
  split
  · rcases hkind with hkind | hkind <;> rw [hkind] at hconstructor ⊢ <;> exact hconstructor
  · rcases hkind with hkind | hkind <;> rw [hkind] <;>
    · refine hmethod.bind fun a b hab => ?_
      rw [hab]
      split
      · exact .found rfl
      · exact .found rfl

theorem memberBody_agrees (o : CompilerOptions) (modifiers kept : List String)
    (start name mark : String) (h : PlacedIn source ps ts) :
    Agrees Eq (memberBody o source modifiers kept start name mark ps)
      (memberBody? o modifiers kept start name mark ts) := by
  cases ts with
  | nil =>
    rw [h.nil_iff.2 rfl]
    exact .found rfl
  | cons t ts =>
    obtain ⟨p, ps, rfl, hp, hps⟩ := List.map_eq_cons_iff.1 (h.map_bare.trans List.map_cons)
    have hsame : SameToken p t := hp
    have hcallable := callableMember_agrees o modifiers kept start name mark h
    rw [memberBody, hsame.kind]
    -- The kind of the first token decides in both readers what the rest of the member is.
    revert hcallable
    rw [memberBody?]
    cases hkind : t.kind <;> intro hcallable
    case openParen => exact hcallable (Or.inl rfl)
    case less => exact hcallable (Or.inr rfl)
    case colon =>
      dsimp only
      rcases (topPosition?_agrees .equals h 0).option_cases with
        ⟨hpos, hcut⟩ | ⟨n, ⟨declared, init⟩, hpos, hcut, hstop⟩
      · rw [List.drop_zero, cutTop?, hkind, if_neg (by decide)] at hcut
        have hnone : cutTop? .equals 0 ts = none := Option.map_eq_none_iff.1 hcut
        rw [hpos, hnone, Option.getD_none, h.length_eq]
        obtain ⟨qs, hqs, hplaced⟩ := h.tokens (i := 1) (by simp) (Nat.le_refl _)
        rw [List.take_length] at hplaced
        rw [hqs]
        exact (spanText_agrees hplaced).bind fun a b hab => .found (by rw [hab])
      · rw [List.drop_zero, cutTop?, hkind, if_neg (by decide)] at hcut
        obtain ⟨parts, hparts, hcons⟩ := Option.map_eq_some_iff.1 hcut
        have hbefore : t :: parts.1 = ((t :: ts).take n).drop 0 := by
          rw [← hstop.before, ← hcons]
          rfl
        -- The search of the indexed reader starts at the colon, which is not what it looks for.
        have hn : 1 ≤ n := by
          refine Nat.pos_of_ne_zero fun hzero => ?_
          rw [hzero] at hbefore
          exact absurd hbefore (by simp)
        obtain ⟨qs, hqs, hplaced⟩ := h.tokens hn (Nat.le_of_lt hstop.lt)
        have hdeclared : ((t :: ts).take n).drop 1 = parts.1 := by
          rw [← List.drop_zero (l := (t :: ts).take n), ← hbefore]
          rfl
        rw [hdeclared] at hplaced
        have hsome : cutTop? .equals 0 ts = some parts := hparts
        rw [hpos, Option.getD_some, hqs, found_bind, hsome]
        exact (spanText_agrees hplaced).bind fun a b hab => .found (by rw [hab])
    case equals =>
      obtain ⟨is, his, hplaced⟩ := h.tokensFrom (i := 1) (by simp)
      have hplaced : PlacedIn source is ts := hplaced
      dsimp only
      rw [his, found_bind, infer_eq o _ hplaced, found_bind]
      cases Script.infer o (kept.contains "readonly") ts <;> exact .found rfl
    all_goals exact .nothing

/-! ### Modifiers -/

theorem cutModifiers_eq (h : ps.map Token.bare = ts.map Token.bare) :
    (cutModifiers ps).1 = (cutModifiers ts).1 ∧
      (cutModifiers ts).2 = ts.drop (cutModifiers ts).1.length := by
  induction ts generalizing ps with
  | nil =>
    rw [List.map_eq_nil_iff.1 h]
    exact ⟨rfl, rfl⟩
  | cons t ts ih =>
    obtain ⟨p, ps, rfl, hp, hps⟩ := List.map_eq_cons_iff.1 h
    have hpt : SameToken p t := hp
    cases ts with
    | nil =>
      rw [List.map_eq_nil_iff.1 hps]
      exact ⟨rfl, rfl⟩
    | cons u ts =>
      obtain ⟨q, qs, rfl, hq, hqs⟩ := List.map_eq_cons_iff.1 hps
      have hqu : SameToken q u := hq
      have hname : startsMemberName q = startsMemberName u := by
        rw [startsMemberName, startsMemberName, startsWithHash, startsWithHash, hqu.kind, hqu.text]
      obtain ⟨hmodifiers, hrest⟩ := ih hps
      rw [cutModifiers, cutModifiers, hpt.kind, hpt.text, hname]
      split
      · exact ⟨congrArg (t.text :: ·) hmodifiers, hrest⟩
      · exact ⟨rfl, rfl⟩

/-- The mark behind a member's name, and the position behind it. -/
def markAt (ts : List Token) (i : Nat) : String × Nat :=
  match ts[i]? with
  | some t =>
    if t.kind = .question then ("?", i + 1) else if t.isOperator "!" then ("", i + 1) else ("", i)
  | none => ("", i)

/-- The declaration of a member of a class. -/
def memberText (o : CompilerOptions) (source : String) (member : Statement) : Outcome String := do
  let ts := dropSemicolon (significant member)
  let modifiers := (cutModifiers ts).1
  let i := modifiers.length
  let first ← ofOption ts[i]?
  if (first.kind = .operator ∧ startsWithHash first) ∨ first.kind = .openBrace then .nothing
  else if first.kind = .openBracket then
    if ts.getLast?.any (·.kind = .closeBrace) then .nothing
    else do
      let text ← text source member
      return terminate text
  else if modifiers.contains "abstract" then do
    let text ← text source member
    return terminate text
  else
    let marked := markAt ts (i + 1)
    let kept := modifiers.filter fun m => !droppedModifiers.contains m
    if kept.contains "private" then
      let visible := kept.filter fun m => ["private", "static", "readonly"].contains m
      return String.intercalate " " visible ++ " " ++ first.text ++ marked.1 ++ ";"
    else do
      let rest ← tokensFrom ts marked.2
      let start := if kept.isEmpty then "" else String.intercalate " " kept ++ " "
      memberBody o source modifiers kept start first.text marked.1 rest

theorem markAt_congr (h : PlacedIn source ps ts) (i : Nat) : markAt ps i = markAt ts i := by
  rw [markAt, markAt]
  rcases (h.get i).option_cases with ⟨hp, ht⟩ | ⟨p, t, hp, ht, hsame⟩
  · rw [hp, ht]
  · rw [hp, ht]
    dsimp only
    rw [hsame.kind, hsame.isOperator]

theorem markAt_of_drop_eq_cons (h : ts.drop i = t :: us) :
    markAt ts i = if t.kind = .question then ("?", i + 1)
      else if t.isOperator "!" then ("", i + 1) else ("", i) := by
  have hget : ts[i]? = some t := by rw [← List.head?_drop, h, List.head?_cons]
  rw [markAt, hget]

theorem markAt_of_drop_eq_nil (h : ts.drop i = []) : markAt ts i = ("", i) := by
  have hget : ts[i]? = none := by rw [← List.head?_drop, h, List.head?_nil]
  rw [markAt, hget]

/-- The mark at a position is cut from what stands there. -/
theorem cutMark_drop (hi : i ≤ ts.length) :
    cutMark (ts.drop i) = ((markAt ts i).1, ts.drop (markAt ts i).2) ∧
      (markAt ts i).2 ≤ ts.length := by
  cases hdrop : ts.drop i with
  | nil =>
    rw [markAt_of_drop_eq_nil hdrop, hdrop]
    exact ⟨rfl, hi⟩
  | cons t us =>
    have hnext : i + 1 ≤ ts.length := by
      have hlength := congrArg List.length hdrop
      rw [List.length_drop, List.length_cons] at hlength
      omega
    have hus : ts.drop (i + 1) = us := by rw [← List.tail_drop, hdrop, List.tail_cons]
    rw [markAt_of_drop_eq_cons hdrop, cutMark]
    split
    · exact ⟨by rw [hus], hnext⟩
    · split
      · exact ⟨by rw [hus], hnext⟩
      · exact ⟨by rw [hdrop], hi⟩

theorem private_mem_keptModifiers {modifiers : List String} :
    "private" ∈ keptModifiers modifiers ↔ "private" ∈ modifiers := by
  simp [keptModifiers, droppedModifiers]

theorem memberText_agrees (o : CompilerOptions) (h : SameStatement source s' s) :
    Agrees Eq (memberText o source s') (memberText? o s) := by
  have hplaced := h.significant.dropSemicolon
  obtain ⟨hmodifiers, hrest⟩ := cutModifiers_eq hplaced.map_bare
  have hget := hplaced.get (cutModifiers (dropSemicolon s.significant)).1.length
  have htext : Agrees Eq (text source s' >>= fun text => pure (terminate text))
      (some (terminate s.text)) := by
    rw [h.text]
    exact .found rfl
  rw [memberText]
  dsimp only
  rw [hmodifiers, getLast?_any_kind hplaced.map_bare]
  cases hcut : cutModifiers (dropSemicolon s.significant) with | mk modifiers rest =>
  rw [hcut] at hrest hget
  dsimp only at hrest hget ⊢
  cases rest with
  | nil =>
    have hnone : memberText? o s = none := by
      unfold memberText?
      simp only [hcut]
    rw [List.getElem?_eq_none_iff.2 (List.drop_eq_nil_iff.1 hrest.symm)] at hget
    rw [hnone, hget.eq_nothing]
    exact .nothing
  | cons first rest =>
    have hfirst : (dropSemicolon s.significant)[modifiers.length]? = some first := by
      rw [← List.head?_drop, ← hrest, List.head?_cons]
    have hlt := (List.getElem?_eq_some_iff.1 hfirst).1
    have hbehind : (dropSemicolon s.significant).drop (modifiers.length + 1) = rest := by
      rw [← List.tail_drop, ← hrest, List.tail_cons]
    obtain ⟨hmark, hle⟩ := cutMark_drop hlt
    rw [hfirst] at hget
    obtain ⟨p, hp, hsame⟩ := hget.exists_found
    have hhash : startsWithHash p = startsWithHash first := by
      rw [startsWithHash, hsame.text, startsWithHash]
    rw [memberText?_eq hcut, ← hbehind, hmark, hp, found_bind, hsame.kind, hhash, hsame.text,
      markAt_congr hplaced]
    split
    · exact .nothing
    split
    · split
      · exact .nothing
      · exact htext
    -- The indexed reader asks the modifiers as written, the other one those that are kept.
    by_cases habstract : "abstract" ∈ modifiers
    · rw [if_pos habstract, if_pos (List.contains_iff_mem.2 habstract)]
      exact htext
    rw [if_neg habstract, if_neg (by rwa [List.contains_iff_mem])]
    have hkept : (modifiers.filter fun m => !droppedModifiers.contains m).contains "private" ↔
        "private" ∈ modifiers := by
      rw [List.contains_iff_mem]
      exact private_mem_keptModifiers
    by_cases hprivate : "private" ∈ modifiers
    · rw [if_pos hprivate, if_pos (hkept.2 hprivate)]
      exact .found rfl
    · obtain ⟨rs, hrs, hrplaced⟩ := hplaced.tokensFrom hle
      rw [if_neg hprivate, if_neg (hkept.not.2 hprivate), hrs]
      exact memberBody_agrees o modifiers (keptModifiers modifiers) (modifiersText modifiers)
        first.text _ hrplaced

/-! ## Searches over significant tokens -/

/-- The position of a token among the significant ones. -/
def rank (ts : List Token) (n : Nat) : Nat := ((ts.take n).filter fun t => !t.isTrivia).length

theorem SameToken.isTrivia {q : Token} (h : SameToken q t) : q.isTrivia = t.isTrivia := by
  rw [Token.isTrivia, h.kind, Token.isTrivia]

end Indexed

namespace Search

variable {S : Search σ}

theorem position?_bounds {s : σ} (h : S.position? s i ts = some j) : i ≤ j ∧ j < i + ts.length := by
  induction ts generalizing s i with
  | nil => exact absurd h (by simp [position?])
  | cons t ts ih =>
    rw [position?] at h
    rw [List.length_cons]
    split at h
    · obtain ⟨hle, hlt⟩ := ih h
      omega
    · obtain ⟨-, -, rfl⟩ := Option.map_eq_some_iff.1 h
      omega

/-- What a search goes on over does not count at the end. -/
theorem position?_append (h : ∀ t ∈ us, ∀ s, (S.step s t).isSome) (s : σ) (i : Nat) :
    S.position? s i (ts ++ us) = S.position? s i ts := by
  induction ts generalizing s i with
  | nil =>
    rw [List.nil_append]
    induction us generalizing s i with
    | nil => rfl
    | cons u us ih =>
      obtain ⟨hu, hus⟩ := List.forall_mem_cons.1 h
      obtain ⟨s', hs'⟩ := Option.isSome_iff_exists.1 (hu s)
      simp only [position?, hs']
      exact ih hus s' (i + 1)
  | cons t ts ih =>
    rw [List.cons_append, position?, position?]
    cases S.step s t with
    | some s' => exact ih s' (i + 1)
    | none => rfl

end Search

namespace Indexed

theorem drop_rank (h : ts[n]? = some t) (ht : t.isTrivia = false) :
    (ts.filter fun t => !t.isTrivia).drop (rank ts n) =
      t :: (ts.drop (n + 1)).filter fun t => !t.isTrivia := by
  obtain ⟨hn, rfl⟩ := List.getElem?_eq_some_iff.1 h
  have hsplit : (ts.filter fun t => !t.isTrivia) = ((ts.take n).filter fun t => !t.isTrivia) ++
      ts[n] :: (ts.drop (n + 1)).filter fun t => !t.isTrivia := by
    rw [← List.filter_cons_of_pos (by simp [ht]), ← List.drop_eq_getElem_cons hn, ← List.filter_append,
      List.take_append_drop]
  rw [hsplit]
  exact List.drop_left' rfl

theorem getElem?_rank (h : ts[n]? = some t) (ht : t.isTrivia = false) :
    (ts.filter fun t => !t.isTrivia)[rank ts n]? = some t := by
  rw [← List.head?_drop, drop_rank h ht, List.head?_cons]

theorem take_rank (ts : List Token) (n : Nat) :
    (ts.filter fun t => !t.isTrivia).take (rank ts n) =
      (ts.take n).filter fun t => !t.isTrivia := by
  conv_lhs => rw [← ts.take_append_drop n, List.filter_append]
  rw [List.take_append_drop]
  exact List.take_left' rfl

theorem rank_add (h : ts[n]? = some t) (ht : t.isTrivia = false) (m : Nat) :
    rank ts (n + 1 + m) = rank ts n + 1 + rank (ts.drop (n + 1)) m := by
  obtain ⟨hn, rfl⟩ := List.getElem?_eq_some_iff.1 h
  rw [rank, List.take_add, List.take_succ_eq_append_getElem hn, List.filter_append,
    List.filter_append, List.length_append, List.length_append,
    List.filter_cons_of_pos (by simp [ht]), List.filter_nil, List.length_singleton, rank, rank]

/-! ## Braces of a class -/

/-- The positions of the braces of a class. -/
def classBraces? (ts : List Token) : Option (Nat × Nat) := do
  let cls ← firstPosition? (·.isWord "class") ts
  let opening ← topPosition? .openBrace ts (cls + 1)
  let closing ← matchBracket? ts opening
  return (opening, closing)

theorem step_of_isTrivia (ht : t.isTrivia) :
    (firstSearch (·.isWord "class")).step () t = some () ∧
      (∀ d, (topSearch .openBrace).step d t = some d) ∧ ∀ d, bracketSearch.step d t = some d := by
  have hkind : t.kind = .newline ∨ t.kind = .lineComment ∨ t.kind = .blockComment := by
    rw [Token.isTrivia] at ht
    cases hk : t.kind <;> simp_all [Kind.isTrivia]
  rcases hkind with hkind | hkind | hkind <;>
    simp [firstSearch, topSearch, bracketSearch, Token.isWord, hkind, depthAfter, Kind.descends,
      Kind.ascends, Kind.opens, Kind.closes]

/-- The token at a position, without regard to what is in front of it. -/
theorem exists_getElem? (h : qs.map Token.bare = ts.map Token.bare) (ht : ts[n]? = some t) :
    ∃ q, qs[n]? = some q ∧ SameToken q t := by
  have hbare : qs[n]?.map Token.bare = ts[n]?.map Token.bare := by
    rw [← List.getElem?_map, h, List.getElem?_map]
  rw [ht, Option.map_some] at hbare
  exact Option.map_eq_some_iff.1 hbare

/-- A search that steps over newlines and comments ends at the same token without them. -/
theorem significant_cases {S : Search σ} (hS : S.Respects)
    (hskip : ∀ s t, t.isTrivia → S.step s t = some s) (h : qs.map Token.bare = ts.map Token.bare)
    (s : σ) (i : Nat) :
    (S.cut? s ts = none ∧ S.position? s i (qs.filter fun t => !t.isTrivia) = none) ∨
      ∃ n s' t kept, ts[n]? = some t ∧ t.isTrivia = false ∧ S.step s' t = none ∧
        S.found s' t = some kept ∧ S.cut? s ts = some (ts.take n ++ kept, ts.drop (n + 1)) ∧
        S.position? s i (qs.filter fun t => !t.isTrivia) = some (i + rank qs n) := by
  rcases S.position?_filter_cases hS (fun t => !t.isTrivia)
      (fun p t hsame => by rw [hsame.isTrivia]) (fun s t ht => hskip s t (by simpa using ht)) h s
      i with
    hnone | ⟨n, s', t, kept, ht, hstop, hkept, hcut, hpos⟩
  · exact Or.inl hnone
  · have htrivia : t.isTrivia = false := by
      rw [Bool.eq_false_iff]
      intro htrivia
      exact absurd (hstop.symm.trans (hskip s' t htrivia)) (by simp)
    exact Or.inr ⟨n, s', t, kept, ht, htrivia, hstop, hkept, hcut, hpos⟩

/-- The same behind a token that is no newline or comment. -/
theorem behind_cases {S : Search σ} {m : Nat} (hS : S.Respects)
    (hskip : ∀ s t, t.isTrivia → S.step s t = some s) (h : qs.map Token.bare = ts.map Token.bare)
    (hm : ts[m]? = some t) (ht : t.isTrivia = false) (s : σ) :
    (S.cut? s (ts.drop (m + 1)) = none ∧ S.position? s (rank qs m + 1)
        ((qs.filter fun t => !t.isTrivia).drop (rank qs m + 1)) = none) ∨
      ∃ n s' u kept, m < n ∧ ts[n]? = some u ∧ u.isTrivia = false ∧ S.step s' u = none ∧
        S.found s' u = some kept ∧
        S.cut? s (ts.drop (m + 1)) = some ((ts.take n).drop (m + 1) ++ kept, ts.drop (n + 1)) ∧
        S.position? s (rank qs m + 1) ((qs.filter fun t => !t.isTrivia).drop (rank qs m + 1)) =
          some (rank qs n) := by
  obtain ⟨q, hq, hsame⟩ := exists_getElem? h hm
  have hqTrivia := hsame.isTrivia.trans ht
  have hdrop : (qs.drop (m + 1)).map Token.bare = (ts.drop (m + 1)).map Token.bare := by
    rw [List.map_drop, h, List.map_drop]
  have hbehind : (qs.filter fun t => !t.isTrivia).drop (rank qs m + 1) =
      (qs.drop (m + 1)).filter fun t => !t.isTrivia := by
    rw [← List.tail_drop, drop_rank hq hqTrivia, List.tail_cons]
  rw [hbehind]
  rcases significant_cases hS hskip hdrop s (rank qs m + 1) with
    hnone | ⟨n, s', u, kept, hu, huTrivia, hstop, hkept, hcut, hpos⟩
  · exact Or.inl hnone
  · rw [List.getElem?_drop] at hu
    refine Or.inr ⟨m + 1 + n, s', u, kept, by omega, hu, huTrivia, hstop, hkept, ?_, ?_⟩
    · rw [hcut, List.drop_drop, List.drop_take, Nat.add_sub_cancel_left, Nat.add_assoc _ n]
    · rw [hpos, rank_add hq hqTrivia]

theorem matchBracket?_of_opens (h : ts[i]? = some t) (hopens : t.kind.opens) :
    matchBracket? ts i = bracketSearch.position? 1 (i + 1) (ts.drop (i + 1)) := by
  obtain ⟨hi, rfl⟩ := List.getElem?_eq_some_iff.1 h
  rw [matchBracket?, List.drop_eq_getElem_cons hi, Search.position?]
  simp [bracketSearch, hopens]

/-- **The braces of a class are at the same tokens, with newlines and comments and without.** -/
theorem classBraces?_cases (h : qs.map Token.bare = ts.map Token.bare) :
    (cutClass? ts = none ∧ classBraces? (qs.filter fun t => !t.isTrivia) = none) ∨
      ∃ m n o c, m < n ∧ ts[m]? = some o ∧ o.isTrivia = false ∧ ts[n]? = some c ∧
        c.isTrivia = false ∧ c.kind ≠ .semicolon ∧
        cutClass? ts = some (ts.take m, (ts.take n).drop (m + 1)) ∧
        classBraces? (qs.filter fun t => !t.isTrivia) = some (rank qs m, rank qs n) := by
  rw [classBraces?, firstPosition?, cutClass?, cutAt?_eq]
  -- the word
  rcases significant_cases (respects_firstSearch fun p t hsame => hsame.isWord "class")
      (fun _ t ht => (step_of_isTrivia ht).1) h () 0 with
    ⟨hcut, hpos⟩ | ⟨l, s, word, kept, hword, hwordTrivia, -, hkept, hcut, hpos⟩
  · exact Or.inl ⟨by rw [hcut]; rfl, by rw [hpos]; rfl⟩
  obtain rfl : kept = [] := (Option.some.inj hkept).symm
  rw [hcut, hpos, Nat.zero_add, List.append_nil]
  simp only [Option.bind_eq_bind, Option.bind_some, topPosition?, cutTop?_eq]
  -- the brace that opens
  rcases behind_cases (respects_topSearch .openBrace) (fun d t ht => (step_of_isTrivia ht).2.1 d) h
      hword hwordTrivia 0 with
    ⟨hcut, hpos⟩ | ⟨m, d, o, kept, hlm, ho, hoTrivia, hstop, hkept, hcut, hpos⟩
  · exact Or.inl ⟨by rw [hcut]; rfl, by rw [hpos]; rfl⟩
  obtain rfl : kept = [] := (Option.some.inj hkept).symm
  obtain ⟨o', ho', hoSame⟩ := exists_getElem? h ho
  have hopens : o'.kind.opens := by
    rw [hoSame.kind, kind_of_topSearch hstop]
    rfl
  have hplace := getElem?_rank ho' (hoSame.isTrivia.trans hoTrivia)
  rw [hcut, hpos, List.append_nil]
  simp only [Option.bind_some, matchBracket?_of_opens hplace hopens, cutClosing?_eq_bracketSearch]
  -- the brace that closes
  rcases behind_cases respects_bracketSearch (fun d t ht => (step_of_isTrivia ht).2.2 d) h ho
      hoTrivia 1 with
    ⟨hcut, hpos⟩ | ⟨n, d, c, kept, hmn, hc, hcTrivia, hstop, hkept, hcut, hpos⟩
  · exact Or.inl ⟨by rw [hcut]; rfl, by rw [hpos]; rfl⟩
  obtain rfl : kept = [] := kept_bracketSearch _ _ _ hkept
  obtain ⟨-, hcloses⟩ := closes_of_bracketSearch hstop
  have hkind : c.kind ≠ .semicolon := fun hkind => by
    rw [hkind] at hcloses
    exact absurd hcloses (by decide)
  rw [hcut, hpos, List.append_nil]
  refine Or.inr ⟨m, n, o, c, hmn, ho, hoTrivia, hc, hcTrivia, hkind, ?_, rfl⟩
  have hlength : (ts.take l).length + 1 + ((ts.take m).drop (l + 1)).length = m := by
    have hm := (List.getElem?_eq_some_iff.1 ho).1
    rw [List.length_take, List.length_drop, List.length_take]
    omega
  simp only [Option.bind_some, hlength]
  rfl

/-- A semicolon at the end does not count. -/
theorem classBraces?_append (h : ∀ t ∈ us, t.kind = .semicolon) :
    classBraces? (ts ++ us) = classBraces? ts := by
  have htop : ∀ i, i ≤ ts.length →
      topPosition? .openBrace (ts ++ us) i = topPosition? .openBrace ts i := fun i hi => by
    rw [topPosition?, List.drop_append_of_le_length hi, Search.position?_append fun t ht s => ?_]
    · rfl
    · simp [topSearch, h t ht]
  have hbracket : ∀ i, i ≤ ts.length → matchBracket? (ts ++ us) i = matchBracket? ts i :=
    fun i hi => by
    rw [matchBracket?, List.drop_append_of_le_length hi, Search.position?_append fun t ht s => ?_]
    · rfl
    · simp [bracketSearch, h t ht, Kind.opens, Kind.closes]
  rw [classBraces?, classBraces?, firstPosition?, firstPosition?, Search.position?_append fun t ht s => ?_]
  · cases hcls : (firstSearch (·.isWord "class")).position? () 0 ts with
    | none => rfl
    | some cls =>
      have hlt := (Search.position?_bounds hcls).2
      simp only [Option.bind_eq_bind, Option.bind_some]
      rw [htop (cls + 1) (by omega)]
      cases hopening : topPosition? .openBrace ts (cls + 1) with
      | none => rfl
      | some opening =>
        have hlt := (Search.position?_bounds hopening).2
        rw [List.length_drop] at hlt
        simp only [Option.bind_some]
        rw [hbracket opening (by omega)]
  · simp [firstSearch, Token.isWord, h t ht]

/-! ## Between the braces -/

theorem PlacedIn.pairwise (h : PlacedIn source ps ts) :
    ps.Pairwise (fun a b => a.place.2 ≤ b.place.1) ∧ ∀ p ∈ ps, p.place.1 < p.place.2 := by
  obtain ⟨above, below, -, rfl⟩ := h.source
  have hplaces := Token.placesFrom_eq above ts
  constructor
  · have hpairwise := Token.pairwise_placesFrom above.utf8ByteSize ts
    rwa [hplaces, List.pairwise_map] at hpairwise
  · intro p hp
    have hmem : p.place ∈ Token.placesFrom above.utf8ByteSize ts := hplaces ▸ List.mem_map_of_mem hp
    exact Token.lt_of_mem_placesFrom h.text_ne hmem

theorem filter_between_of_append {front inner behind : List Token} {o c : Token}
    (hpairwise : (front ++ o :: (inner ++ c :: behind)).Pairwise fun a b => a.place.2 ≤ b.place.1)
    (hlt : ∀ p ∈ front ++ o :: (inner ++ c :: behind), p.place.1 < p.place.2) :
    (front ++ o :: (inner ++ c :: behind)).filter
      (fun t => o.place.2 ≤ t.place.1 ∧ t.place.2 ≤ c.place.1) = inner := by
  obtain ⟨-, hrest, hfront⟩ := List.pairwise_append.1 hpairwise
  obtain ⟨ho, hrest⟩ := List.pairwise_cons.1 hrest
  obtain ⟨-, hbehind, hinner⟩ := List.pairwise_append.1 hrest
  obtain ⟨hc, -⟩ := List.pairwise_cons.1 hbehind
  have hopening := hlt o (by simp)
  have hclosing := hlt c (by simp)
  have houtside : ∀ t : Token, t.place.1 < o.place.2 ∨ c.place.1 < t.place.2 →
      decide (o.place.2 ≤ t.place.1 ∧ t.place.2 ≤ c.place.1) = false := fun t ht =>
    decide_eq_false (by omega)
  rw [List.filter_append, List.filter_eq_nil_iff.2 fun t ht => ?_, List.nil_append,
    List.filter_cons_of_neg, List.filter_append, List.filter_eq_self.2 fun t ht => ?_,
    List.filter_cons_of_neg, List.filter_eq_nil_iff.2 fun t ht => ?_, List.append_nil]
  · have hplace := hlt t (by simp [ht])
    have hle := hc t ht
    rw [houtside t (by omega)]
    exact Bool.false_ne_true
  · rw [houtside c (Or.inr hclosing)]
    exact Bool.false_ne_true
  · exact decide_eq_true ⟨ho t (List.mem_append_left _ ht), hinner t ht c List.mem_cons_self⟩
  · rw [houtside o (Or.inl hopening)]
    exact Bool.false_ne_true
  · have hplace := hlt t (by simp [ht])
    have hle := hfront t ht o List.mem_cons_self
    rw [houtside t (by omega)]
    exact Bool.false_ne_true

/-- **What lies between two tokens stands between them.** -/
theorem filter_between {m : Nat} {o c : Token} (h : PlacedIn source ps ts) (hmn : m < n)
    (ho : ps[m]? = some o) (hc : ps[n]? = some c) :
    ps.filter (fun t => o.place.2 ≤ t.place.1 ∧ t.place.2 ≤ c.place.1) =
      (ps.take n).drop (m + 1) := by
  obtain ⟨hm, rfl⟩ := List.getElem?_eq_some_iff.1 ho
  obtain ⟨hn, rfl⟩ := List.getElem?_eq_some_iff.1 hc
  have hlast : ps.drop (m + 1) = (ps.take n).drop (m + 1) ++ ps[n] :: ps.drop (n + 1) := by
    rw [← List.drop_eq_getElem_cons hn, List.drop_take]
    have hcount : n = m + 1 + (n - (m + 1)) := by omega
    conv_lhs => rw [← List.take_append_drop (n - (m + 1)) (ps.drop (m + 1)), List.drop_drop, ← hcount]
  have hsplit : ps.take m ++ (ps[m] :: ((ps.take n).drop (m + 1) ++ ps[n] :: ps.drop (n + 1))) = ps := by
    rw [← hlast, ← List.drop_eq_getElem_cons hm, List.take_append_drop]
  obtain ⟨hpairwise, hlt⟩ := h.pairwise
  rw [← hsplit] at hpairwise hlt
  have hbetween := filter_between_of_append hpairwise hlt
  rwa [hsplit] at hbetween

/-- The declaration of a member below its documentation. -/
def memberDeclaration (o : CompilerOptions) (source : String) (member : Statement) :
    Outcome String := do
  let text ← memberText o source member
  return withDoc o memberIndent member.doc (memberIndent ++ text)

/-- The declaration of a class. `ts` are its significant tokens, from `class` or a word before it. -/
def classText (o : CompilerOptions) (source start : String) (s : Statement) (ts : List Token) :
    Outcome String := do
  let (opening, closing) ← ofOption (classBraces? ts)
  let head ← tokens ts 0 opening
  let head ← spanText source head
  let first ← token ts opening
  let last ← token ts closing
  let members ← splitStatements (s.tokens.filter fun t =>
    first.place.2 ≤ t.place.1 ∧ t.place.2 ≤ last.place.1)
  let members ← collect (memberDeclaration o source) members
  return start ++ head ++ " \x7b\n" ++ String.join (members.map (· ++ "\n")) ++ "\x7d"

theorem dropSignificant_eq (h : qs.map Token.bare = ts.map Token.bare) (n : Nat) :
    ∃ m, Token.dropSignificant n qs = qs.drop m ∧ Token.dropSignificant n ts = ts.drop m ∧
      (qs.filter fun t => !t.isTrivia).drop n = (qs.drop m).filter fun t => !t.isTrivia := by
  induction ts generalizing qs n with
  | nil =>
    obtain rfl : qs = [] := List.map_eq_nil_iff.1 h
    exact ⟨0, by cases n <;> rfl, by cases n <;> rfl, by simp⟩
  | cons t ts ih =>
    obtain ⟨q, qs, rfl, hq, hqs⟩ := List.map_eq_cons_iff.1 h
    have htrivia := SameToken.isTrivia (show SameToken q t from hq)
    cases n with
    | zero => exact ⟨0, rfl, rfl, rfl⟩
    | succ n =>
      rw [Token.dropSignificant, Token.dropSignificant, htrivia]
      by_cases ht : t.isTrivia
      · obtain ⟨m, hm, hm', hdrop⟩ := ih hqs (n + 1)
        rw [if_pos ht, if_pos ht, List.filter_cons_of_neg (by simp [htrivia, ht])]
        exact ⟨m + 1, hm, hm', hdrop⟩
      · obtain ⟨m, hm, hm', hdrop⟩ := ih hqs n
        rw [if_neg ht, if_neg ht, List.filter_cons_of_pos (by simp [htrivia, ht])]
        exact ⟨m + 1, hm, hm', hdrop⟩

theorem memberDeclaration_agrees (o : CompilerOptions) (h : SameStatement source s' s) :
    Agrees Eq (memberDeclaration o source s')
      ((memberText? o s).map fun text => withDoc o memberIndent s.doc (memberIndent ++ text)) := by
  rw [memberDeclaration, Option.map_eq_bind]
  exact (memberText_agrees o h).bind fun a b hab => .found (by rw [hab, h.doc])

/-- A class in a statement, behind some of its words, read without a semicolon at its end or with
it. -/
theorem classText_agrees (o : CompilerOptions) (start : String) (h : SameStatement source s' s)
    (hus : (significant s').drop n = ts ++ us) (hsemicolon : ∀ t ∈ us, t.kind = .semicolon) :
    Agrees Eq (classText o source start s' ts)
      (classText? o start (Token.dropSignificant n s.tokens)) := by
  obtain ⟨m, hqs, hrs, hdrop⟩ := dropSignificant_eq h.tokens.map_bare n
  have hplaced := h.tokens.drop m
  have hsignificant : ((s'.tokens.drop m).filter fun t => !t.isTrivia) = ts ++ us :=
    hdrop.symm.trans hus
  rw [classText, classText?, hrs]
  rcases classBraces?_cases hplaced.map_bare with
    ⟨hcut, hbraces⟩ |
    ⟨i, j, opening, closing, hij, hopening, hoTrivia, hclosing, hcTrivia, hkind, hcut, hbraces⟩
  · rw [hsignificant, classBraces?_append hsemicolon] at hbraces
    rw [hcut, hbraces]
    exact .nothing
  · obtain ⟨first, hfirst, hfirstSame⟩ := exists_getElem? hplaced.map_bare hopening
    obtain ⟨last, hlast, hlastSame⟩ := exists_getElem? hplaced.map_bare hclosing
    have hfirstGet := getElem?_rank hfirst (hfirstSame.isTrivia.trans hoTrivia)
    have hlastGet := getElem?_rank hlast (hlastSame.isTrivia.trans hcTrivia)
    have hhead := take_rank (s'.tokens.drop m) i
    rw [hsignificant] at hbraces hfirstGet hlastGet hhead
    rw [classBraces?_append hsemicolon] at hbraces
    -- the brace that closes is no semicolon at the end
    have hlt : rank (s'.tokens.drop m) j < ts.length := by
      refine Nat.lt_of_not_le fun hle => ?_
      rw [List.getElem?_append_right hle] at hlastGet
      exact hkind (hlastSame.kind ▸ hsemicolon last (List.mem_of_getElem? hlastGet))
    have hle : rank (s'.tokens.drop m) i ≤ rank (s'.tokens.drop m) j := by
      have hprefix : (s'.tokens.drop m).take i = ((s'.tokens.drop m).take j).take i := by
        rw [List.take_take, Nat.min_eq_left (Nat.le_of_lt hij)]
      rw [rank, hprefix]
      exact ((List.take_sublist _ _).filter _).length_le
    rw [List.getElem?_append_left hlt] at hlastGet
    rw [List.getElem?_append_left (Nat.lt_of_le_of_lt hle hlt)] at hfirstGet
    rw [List.take_append_of_le_length (Nat.le_of_lt (Nat.lt_of_le_of_lt hle hlt))] at hhead
    have hslice : tokens ts 0 (rank (s'.tokens.drop m) i) =
        .found (((s'.tokens.drop m).take i).filter fun t => !t.isTrivia) := by
      rw [tokens, if_pos ⟨Nat.zero_le _, Nat.le_of_lt (Nat.lt_of_le_of_lt hle hlt)⟩, List.drop_zero,
        hhead]
    have hinner : s'.tokens.filter (fun t =>
        first.place.2 ≤ t.place.1 ∧ t.place.2 ≤ last.place.1) =
        ((s'.tokens.drop m).take j).drop (i + 1) := by
      rw [List.getElem?_drop] at hfirst hlast
      rw [filter_between h.tokens (Nat.add_lt_add_left hij m) hfirst hlast, List.drop_take,
        List.drop_take, List.drop_drop, Nat.add_assoc]
      congr 1
      omega
    have hmembers := Agrees.collect ((hplaced.take j).drop (i + 1)).splitStatements
      fun s' s hmember => memberDeclaration_agrees o hmember
    rw [hcut, hbraces, Option.bind_eq_bind, Option.bind_some, ofOption, found_bind]
    dsimp only
    rw [hslice, found_bind]
    refine (spanText_agrees (hplaced.take i).significant).bind fun head head' hhead => ?_
    rw [token, hfirstGet, inRange, found_bind, token, hlastGet, inRange, found_bind, hinner,
      splitStatements_eq, found_bind, hmembers, hhead]
    exact .found rfl

end Indexed

end SvelteTypings.Script
