import Mathlib.Data.List.TakeWhile
import SvelteTypings.Script.Statement

/-!
# How tokens fall into statements

What a token does to the statement that is being read depends on what comes after it in one point
only: whether the next line goes on (`splitFrom_cons`). Within brackets nothing ends a statement, so
a head with a block in braces is one statement (`splitFrom_block`). A run whose last token can end a
statement is split as it is alone, if the next line does not go on (`splitFrom_append`).
-/

namespace SvelteTypings.Script

variable {t newline opening closing : Token} {k : Kind} {ts us head inner : List Token} {p : Draft}
  {d e : Nat}

/-! ## Depth -/

/-- The depth after a token, unless it closes a bracket where none is open. -/
def depthStep (depth : Nat) (k : Kind) : Option Nat :=
  if k.opens then some (depth + 1)
  else if k.closes then (if depth = 0 then none else some (depth - 1))
  else some depth

/-- The depth after a run. -/
def depthOver (depth : Nat) (ts : List Token) : Option Nat :=
  ts.foldlM (fun d t => depthStep d t.kind) depth

/-- Every bracket closes one that is open, and none stays open. Their kinds do not count. -/
def isBalanced (ts : List Token) : Bool := depthOver 0 ts = some 0

theorem isBalanced_iff : isBalanced ts ↔ depthOver 0 ts = some 0 := by simp [isBalanced]

theorem depthOver_nil (depth : Nat) : depthOver depth [] = some depth := rfl

theorem depthOver_cons (depth : Nat) (t : Token) (ts : List Token) :
    depthOver depth (t :: ts) = (depthStep depth t.kind).bind fun d => depthOver d ts := rfl

theorem depthOver_append (depth : Nat) (ts us : List Token) :
    depthOver depth (ts ++ us) = (depthOver depth ts).bind fun d => depthOver d us :=
  List.foldlM_append

theorem depthStep_of_trivia (h : t.isTrivia) (depth : Nat) : depthStep depth t.kind = some depth := by
  rw [Token.isTrivia] at h
  cases hk : t.kind <;> rw [hk] at h <;> first | rfl | exact absurd h (by decide)

theorem depthStep_add (h : depthStep d k = some e) (n : Nat) :
    depthStep (d + n) k = some (e + n) := by
  unfold depthStep at h ⊢
  cases hopens : k.opens <;> cases hcloses : k.closes <;> simp_all <;> omega

theorem depthOver_add (h : depthOver d ts = some e) (n : Nat) :
    depthOver (d + n) ts = some (e + n) := by
  induction ts generalizing d with
  | nil =>
    rw [depthOver_nil, Option.some.injEq] at h
    rw [depthOver_nil, h]
  | cons t ts ih =>
    rw [depthOver_cons] at h
    obtain ⟨d', hstep, hrest⟩ := Option.bind_eq_some_iff.1 h
    rw [depthOver_cons, depthStep_add hstep n]
    exact ih hrest

/-! ## Steps -/

/-- The statements that a token ends, and the draft after it. -/
def Draft.next (p : Draft) (t : Token) (goesOn : Bool) : List Statement × Draft :=
  if t.kind = .newline then
    if p.taken.isEmpty then ([], p)
    else if p.mayEnd ∧ ¬ goesOn then (p.finish, p.reset)
    else ([], p.push t)
  else if t.isTrivia ∧ p.taken.isEmpty then
    ([], if isDoc t then { p with pending := some t.text } else p)
  else if t.kind = .semicolon ∧ (p.take t).depth = 0 then ((p.take t).finish, (p.take t).reset)
  else ([], p.take t)

theorem splitFrom_nil (p : Draft) : splitFrom p [] = p.finish := by rw [splitFrom]

theorem splitFrom_cons (p : Draft) (t : Token) (ts : List Token) :
    splitFrom p (t :: ts) =
      (p.next t (continues ts)).1 ++ splitFrom (p.next t (continues ts)).2 ts := by
  rw [splitFrom, Draft.next]
  split
  · split
    · rfl
    · split <;> rfl
  · split
    · rfl
    · dsimp only
      split <;> rfl

theorem take_eq_of_taken (htaken : p.taken ≠ []) (h : depthStep p.depth t.kind = some d) :
    p.take t = { p with taken := t :: p.taken, depth := d } := by
  have hempty : p.taken.isEmpty = false := by simpa using htaken
  have hdepth : (if t.kind.opens then p.depth + 1 else if t.kind.closes then p.depth - 1 else p.depth) =
      d := by
    unfold depthStep at h
    cases hopens : t.kind.opens <;> cases hcloses : t.kind.closes <;> simp_all
  rw [← hdepth]
  simp only [Draft.take, hempty]
  rfl

theorem take_eq_of_fresh (h : depthStep 0 t.kind = some d) (pending : Option String) :
    (⟨[], 0, none, pending⟩ : Draft).take t = ⟨[t], d, pending, none⟩ := by
  have hdepth : (if t.kind.opens then 0 + 1 else if t.kind.closes then 0 - 1 else 0) = d := by
    unfold depthStep at h
    cases hopens : t.kind.opens <;> cases hcloses : t.kind.closes <;> simp_all
  rw [← hdepth]
  rfl

/-! ## Blocks -/

/-- **Within brackets everything is taken.** -/
theorem splitFrom_inside (htaken : p.taken ≠ []) (hdepth : p.depth = d + 1)
    (h : depthOver d ts = some e) (us : List Token) :
    splitFrom p (ts ++ us) =
      splitFrom { p with taken := ts.reverse ++ p.taken, depth := e + 1 } us := by
  induction ts generalizing p d with
  | nil =>
    rw [depthOver_nil, Option.some.injEq] at h
    rw [← h, ← hdepth]
    rfl
  | cons t ts ih =>
    rw [depthOver_cons] at h
    obtain ⟨d', hstep, hrest⟩ := Option.bind_eq_some_iff.1 h
    have hstep' : depthStep p.depth t.kind = some (d' + 1) := hdepth ▸ depthStep_add hstep 1
    -- one bracket stays open, so neither a newline nor a `;` ends the statement
    have hnext : p.next t (continues (ts ++ us)) =
        ([], { p with taken := t :: p.taken, depth := d' + 1 }) := by
      have hempty : p.taken.isEmpty = false := by simpa using htaken
      rw [Draft.next, take_eq_of_taken htaken hstep', hempty]
      by_cases hnewline : t.kind = .newline
      · rw [hnewline] at hstep'
        have hd : p.depth = d' + 1 := Option.some.inj hstep'
        simp [hnewline, Draft.mayEnd, Draft.push, hd]
      · simp [hnewline]
    rw [List.cons_append, splitFrom_cons, hnext, List.nil_append, ih (by simp) rfl hrest]
    simp

/-- A token that stands at the top of a statement without ending it. -/
def Token.isPlain (t : Token) : Bool := !t.isTrivia && t.kind ≠ .semicolon

theorem Token.significant_of_isPlain (h : t.isPlain) : t.isTrivia = false := by
  simpa using (Bool.and_eq_true_iff.1 h).1

theorem splitFrom_cons_plain (h : t.isPlain) (p : Draft) (ts : List Token) :
    splitFrom p (t :: ts) = splitFrom (p.take t) ts := by
  have hsignificant := Token.significant_of_isPlain h
  have hsemicolon : t.kind ≠ .semicolon := by simpa using (Bool.and_eq_true_iff.1 h).2
  have hnewline : t.kind ≠ .newline := by
    intro hnewline
    rw [Token.isTrivia, hnewline] at hsignificant
    exact absurd hsignificant (by decide)
  rw [splitFrom_cons, Draft.next, if_neg hnewline, hsignificant, if_neg (by simp),
    if_neg fun hs => hsemicolon hs.1, List.nil_append]

theorem Token.isPlain_of_brace (h : t.kind = .openBrace ∨ t.kind = .closeBrace) : t.isPlain := by
  rcases h with h | h <;> (rw [Token.isPlain, Token.isTrivia, h]; rfl)

theorem splitFrom_plain (htaken : p.taken ≠ []) (hplain : ∀ t ∈ ts, t.isPlain)
    (h : depthOver p.depth ts = some e) (us : List Token) :
    splitFrom p (ts ++ us) = splitFrom { p with taken := ts.reverse ++ p.taken, depth := e } us := by
  induction ts generalizing p with
  | nil =>
    rw [depthOver_nil, Option.some.injEq] at h
    rw [← h]
    rfl
  | cons t ts ih =>
    obtain ⟨ht, hts⟩ := List.forall_mem_cons.1 hplain
    rw [depthOver_cons] at h
    obtain ⟨d', hstep, hrest⟩ := Option.bind_eq_some_iff.1 h
    rw [List.cons_append, splitFrom_cons_plain ht, take_eq_of_taken htaken hstep,
      ih (by simp) hts hrest]
    simp

/-- A newline after a token that can end a line ends the statement, if the next line does not go on.
-/
theorem splitFrom_newline (hnewline : newline.kind = .newline) (hdepth : p.depth = 0)
    (htaken : p.taken.dropWhile Token.isTrivia = t :: ts) (hend : endsLine t.kind)
    (hus : continues us = false) :
    splitFrom p (newline :: us) = ⟨(t :: ts).reverse, p.doc⟩ :: splitFrom p.reset us := by
  have hne : p.taken ≠ [] := fun hnil => by simp [hnil] at htaken
  have hmay : p.mayEnd ∧ ¬ continues us := by
    have hfind := List.find?_not_eq_head?_dropWhile Token.isTrivia p.taken
    rw [htaken] at hfind
    simp [Draft.mayEnd, hdepth, hfind, hend, hus]
  rw [splitFrom_cons, Draft.next, if_pos hnewline, if_neg (by simpa using hne), if_pos hmay,
    Draft.finish, htaken]
  rfl

/-- A head in front of a brace. -/
structure IsHead (head : List Token) (opening : Token) : Prop where
  ne_nil : head ≠ []
  plain : ∀ t ∈ head, t.isPlain
  balanced : isBalanced head
  opening : opening.kind = .openBrace

theorem splitFrom_head (h : IsHead head opening) (pending : Option String) (us : List Token) :
    splitFrom ⟨[], 0, none, pending⟩ (head ++ opening :: us) =
      splitFrom ⟨opening :: head.reverse, 1, pending, none⟩ us := by
  have hbalanced := isBalanced_iff.1 h.balanced
  have hplain := h.plain
  obtain ⟨first, head, rfl⟩ := List.exists_cons_of_ne_nil h.ne_nil
  obtain ⟨hfirst, hhead⟩ := List.forall_mem_cons.1 hplain
  rw [depthOver_cons] at hbalanced
  obtain ⟨d, hstep, hrest⟩ := Option.bind_eq_some_iff.1 hbalanced
  have hopening : depthStep 0 opening.kind = some 1 := by rw [h.opening]; rfl
  rw [List.cons_append, splitFrom_cons_plain hfirst, take_eq_of_fresh hstep,
    splitFrom_plain (by simp) hhead hrest,
    splitFrom_cons_plain (Token.isPlain_of_brace (Or.inl h.opening)),
    take_eq_of_taken (by simp) hopening, List.reverse_cons]

/-- **A head with a block is one statement**, if the next line does not go on. -/
theorem splitFrom_block (h : IsHead head opening) (hinner : isBalanced inner)
    (hclosing : closing.kind = .closeBrace) (hnewline : newline.kind = .newline)
    (hus : continues us = false) (pending : Option String) :
    splitFrom ⟨[], 0, none, pending⟩ (head ++ opening :: (inner ++ closing :: newline :: us)) =
      ⟨head ++ opening :: (inner ++ [closing]), pending⟩ :: splitFrom .start us := by
  have hstep : depthStep 1 closing.kind = some 0 := by rw [hclosing]; rfl
  have hplain := Token.isPlain_of_brace (Or.inr hclosing)
  have hsignificant := Token.significant_of_isPlain hplain
  -- the block is taken as a whole, and the newline after it ends the statement
  rw [splitFrom_head h, splitFrom_inside (by simp) rfl (isBalanced_iff.1 hinner),
    splitFrom_cons_plain hplain, take_eq_of_taken (by simp) hstep,
    splitFrom_newline hnewline rfl (List.dropWhile_cons_of_neg (by simp [hsignificant]))
      (by rw [hclosing]; rfl) hus]
  simp [Draft.reset, Draft.start]

/-- A head with a block that is not closed is one statement with all that comes after it. -/
theorem splitFrom_unclosed (h : IsHead head opening) (hts : depthOver 0 ts = some e)
    (pending : Option String) :
    ∃ us, splitFrom ⟨[], 0, none, pending⟩ (head ++ opening :: ts) =
      [⟨head ++ opening :: us, pending⟩] := by
  have hsignificant : opening.isTrivia = false :=
    Token.significant_of_isPlain (Token.isPlain_of_brace (Or.inl h.opening))
  have hinside := splitFrom_inside (p := ⟨opening :: head.reverse, 1, pending, none⟩)
    (List.cons_ne_nil _ _) rfl hts []
  rw [List.append_nil, splitFrom_nil, Draft.finish] at hinside
  -- newlines and comments at the end are dropped, but no more than down to the brace
  obtain ⟨zs, hzs⟩ : ∃ zs, (ts.reverse ++ opening :: head.reverse).dropWhile Token.isTrivia =
      zs ++ opening :: head.reverse := by
    rw [List.dropWhile_append, List.dropWhile_cons_of_neg (by simp [hsignificant])]
    split
    · exact ⟨[], rfl⟩
    · exact ⟨_, rfl⟩
  refine ⟨zs.reverse, ?_⟩
  rw [splitFrom_head h, hinside, hzs]
  cases zs with
  | nil => simp
  | cons z zs => simp

/-! ## Runs of statements -/

theorem isTrivia_of_newline (h : t.kind = .newline) : t.isTrivia := by
  rw [Token.isTrivia, h]
  rfl

/-- Whether the next line goes on is settled by the first token in it. -/
theorem continues_append_of_significant (h : ∃ t ∈ ts, t.isTrivia = false) (us : List Token) :
    continues (ts ++ us) = continues ts := by
  obtain ⟨t, ht, hsignificant⟩ := h
  have hsome : (ts.find? fun t => !t.isTrivia).isSome :=
    List.find?_isSome.2 ⟨t, ht, by simp [hsignificant]⟩
  rw [continues, continues, nextSignificant?, nextSignificant?, List.find?_append,
    Option.or_of_isSome hsome]

theorem continues_append_of_trivia (h : ∀ t ∈ ts, t.isTrivia) (us : List Token) :
    continues (ts ++ us) = continues us := by
  have hnone : ts.find? (fun t => !t.isTrivia) = none :=
    List.find?_eq_none.2 fun t ht => by simp [h t ht]
  rw [continues, continues, nextSignificant?, nextSignificant?, List.find?_append, hnone,
    Option.none_or]

theorem continues_append (hnewline : newline.kind = .newline) (hus : continues us = false) :
    continues (ts ++ newline :: us) = continues ts := by
  by_cases htrivia : ∀ t ∈ ts, t.isTrivia
  · have hline : ∀ t ∈ [newline], t.isTrivia := by simpa using isTrivia_of_newline hnewline
    have hnone := continues_append_of_trivia htrivia []
    rw [List.append_nil] at hnone
    rw [continues_append_of_trivia htrivia, hnone, ← List.singleton_append,
      continues_append_of_trivia hline, hus]
    rfl
  · exact continues_append_of_significant (by simpa using htrivia) _

/-- What holds of a draft between two tokens. -/
structure Draft.Sound (p : Draft) : Prop where
  fresh : p.taken = [] → p.depth = 0 ∧ p.doc = none
  started : p.taken ≠ [] → ∃ t, p.taken.find? (!·.isTrivia) = some t ∧
    (t.kind = .semicolon → p.depth ≠ 0)

theorem Draft.sound_start : Draft.start.Sound := ⟨fun _ => ⟨rfl, rfl⟩, fun h => absurd rfl h⟩

theorem Draft.sound_reset (hdepth : p.depth = 0) : p.reset.Sound :=
  ⟨fun _ => ⟨hdepth, rfl⟩, fun h => absurd rfl h⟩

theorem Draft.Sound.push (hp : p.Sound) (htaken : p.taken ≠ []) (ht : t.isTrivia) :
    (p.push t).Sound := by
  refine ⟨fun h => absurd h (by simp [Draft.push]), fun _ => ?_⟩
  obtain ⟨u, hfind, hu⟩ := hp.started htaken
  refine ⟨u, ?_, hu⟩
  rw [Draft.push, List.find?_cons_of_neg (by simp [ht])]
  exact hfind

theorem Draft.taken_take (p : Draft) (t : Token) : (p.take t).taken = t :: p.taken := by
  rw [Draft.take]
  split <;> rfl

theorem Draft.depth_take (hp : p.Sound) (h : depthStep p.depth t.kind = some d) :
    (p.take t).depth = d := by
  by_cases htaken : p.taken = []
  · obtain ⟨taken, depth, doc, pending⟩ := p
    obtain ⟨rfl, rfl⟩ := hp.fresh htaken
    subst htaken
    rw [take_eq_of_fresh h]
  · rw [take_eq_of_taken htaken h]

theorem Draft.Sound.take (hp : p.Sound) (h : depthStep p.depth t.kind = some d)
    (htrivia : t.isTrivia → p.taken ≠ []) (hsemicolon : t.kind = .semicolon → d ≠ 0) :
    (p.take t).Sound := by
  have htaken := p.taken_take t
  refine ⟨fun hnil => absurd (htaken ▸ hnil) (by simp), fun _ => ?_⟩
  rw [htaken, depth_take hp h]
  cases ht : t.isTrivia with
  | false => exact ⟨t, List.find?_cons_of_pos (by simp [ht]), hsemicolon⟩
  | true =>
    -- what has been taken before still comes last
    obtain ⟨u, hfind, hu⟩ := hp.started (htrivia ht)
    rw [depthStep_of_trivia ht, Option.some.injEq] at h
    refine ⟨u, ?_, h ▸ hu⟩
    rw [List.find?_cons_of_neg (by simp [ht])]
    exact hfind

/-- What a token makes of a draft: it is taken, or nothing is taken any more. -/
structure Draft.Follows (p : Draft) (t : Token) (depth : Nat) (q : Draft) : Prop where
  sound : q.Sound
  depth : q.depth = depth
  taken : q.taken = [] ∨ q.taken = t :: p.taken

theorem Draft.follows_next (hp : p.Sound) (hstep : depthStep p.depth t.kind = some d)
    (goesOn : Bool) : p.Follows t d (p.next t goesOn).2 := by
  have hsame : t.isTrivia → p.depth = d := by
    intro ht
    rw [depthStep_of_trivia ht, Option.some.injEq] at hstep
    exact hstep
  rw [Draft.next]
  -- A newline may end the statement, and trivia in front of one are left out of it.
  by_cases hnewline : t.kind = .newline
  · have htrivia : t.isTrivia := by rw [Token.isTrivia, hnewline]; rfl
    rw [if_pos hnewline]
    by_cases hempty : p.taken = []
    · rw [if_pos (by simp [hempty])]
      exact ⟨hp, hsame htrivia, Or.inl hempty⟩
    · rw [if_neg (by simpa using hempty)]
      split
      · next hmay =>
        have hzero : p.depth = 0 := by
          have hend := hmay.1
          rw [Draft.mayEnd, Bool.and_eq_true, decide_eq_true_eq] at hend
          exact hend.1
        exact ⟨Draft.sound_reset hzero, hsame htrivia, Or.inl rfl⟩
      · exact ⟨hp.push hempty htrivia, hsame htrivia, Or.inr rfl⟩
  · rw [if_neg hnewline]
    by_cases hbetween : t.isTrivia ∧ p.taken.isEmpty
    · rw [if_pos hbetween]
      have hempty : p.taken = [] := by simpa using hbetween.2
      split
      · exact ⟨⟨hp.fresh, hp.started⟩, hsame hbetween.1, Or.inl hempty⟩
      · exact ⟨hp, hsame hbetween.1, Or.inl hempty⟩
    · rw [if_neg hbetween]
      have htrivia : t.isTrivia → p.taken ≠ [] := fun ht hempty => hbetween ⟨ht, by simp [hempty]⟩
      split
      · next hends => exact ⟨Draft.sound_reset hends.2, depth_take hp hstep, Or.inl rfl⟩
      · next hends =>
        refine ⟨hp.take hstep htrivia fun hs hzero => ?_, depth_take hp hstep, Or.inr ?_⟩
        · exact hends ⟨hs, by rw [depth_take hp hstep, hzero]⟩
        · exact p.taken_take t

/-- The last token that is no newline or comment can end a statement. -/
def endsStatement (ts : List Token) : Bool :=
  (ts.reverse.find? (!·.isTrivia)).all fun t => endsLine t.kind || t.kind = .semicolon

theorem endsStatement_iff :
    endsStatement ts ↔
      ∀ t, ts.reverse.find? (!·.isTrivia) = some t → endsLine t.kind ∨ t.kind = .semicolon := by
  rw [endsStatement]
  cases ts.reverse.find? (!·.isTrivia) <;> simp

/-- **A newline separates statements** after a run that is balanced and whose last token can end a
statement, if the next line does not go on. -/
theorem splitFrom_append (hp : p.Sound) (hdepth : depthOver p.depth ts = some 0)
    (hends : endsStatement (p.taken.reverse ++ ts)) (hnewline : newline.kind = .newline)
    (hus : continues us = false) :
    ∃ pending, splitFrom p (ts ++ newline :: us) =
      splitFrom p ts ++ splitFrom ⟨[], 0, none, pending⟩ us := by
  induction ts generalizing p with
  | nil =>
    rw [depthOver_nil, Option.some.injEq] at hdepth
    refine ⟨p.pending, ?_⟩
    rw [List.nil_append, splitFrom_cons, splitFrom_nil, Draft.next, if_pos hnewline]
    cases htaken : p.taken with
    | nil =>
      -- nothing has been taken since the last statement
      have hp' : p = ⟨[], 0, none, p.pending⟩ := by
        rw [← htaken, ← hdepth, ← (hp.fresh htaken).2]
      rw [Draft.finish, htaken]
      exact congrArg (splitFrom · us) hp'
    | cons t taken =>
      obtain ⟨u, hfind, hsemicolon⟩ := hp.started (by simp [htaken])
      have hend : endsLine u.kind := by
        refine (endsStatement_iff.1 hends u ?_).resolve_right fun h => hsemicolon h hdepth
        rw [List.append_nil, List.reverse_reverse]
        exact hfind
      have hmay : p.mayEnd ∧ ¬ continues us := by
        simp [Draft.mayEnd, hdepth, hfind, hend, hus]
      rw [if_neg (by simp), if_pos hmay, Draft.reset, hdepth]
  | cons t ts ih =>
    rw [depthOver_cons] at hdepth
    obtain ⟨d, hstep, hrest⟩ := Option.bind_eq_some_iff.1 hdepth
    have hfollows := Draft.follows_next hp hstep (continues ts)
    -- what is taken ends where the run does, and so does the run alone
    have hends' : endsStatement ((p.next t (continues ts)).2.taken.reverse ++ ts) := by
      refine endsStatement_iff.2 fun u hu => endsStatement_iff.1 hends u ?_
      rcases hfollows.taken with htaken | htaken
      · rw [htaken] at hu
        rw [List.reverse_append, List.reverse_cons, List.find?_append, List.find?_append]
        simpa using Or.inl (Or.inl hu)
      · rw [htaken, List.reverse_cons, List.append_assoc] at hu
        exact hu
    obtain ⟨pending, heq⟩ := ih hfollows.sound (by rw [hfollows.depth]; exact hrest) hends'
    refine ⟨pending, ?_⟩
    rw [List.cons_append, splitFrom_cons, splitFrom_cons, continues_append hnewline hus, heq,
      List.append_assoc]

end SvelteTypings.Script
