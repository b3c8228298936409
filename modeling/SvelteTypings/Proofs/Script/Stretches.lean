import Mathlib.Data.List.Basic
import Mathlib.Data.List.TakeWhile
import SvelteTypings.Proofs.Script.Sequence

/-!
# What becomes of each token

Splitting cuts a run of tokens into *stretches*, one for each statement. A stretch is a statement
with the newlines and comments around it that belong to none: those in front of it, whose last
documentation comment is kept with it, and those behind it up to where it ends, which is the first
newline unless the statement has a `;` (`Stretch.Stops`). What a draft has read since the last end
is all it knows (`Draft.Reads`); from what one token does to it (`Draft.Step`) follows what a whole
run does (`Draft.Reads.advance`), and that nothing is lost (`splitStatements_cutsInto`).
-/

namespace SvelteTypings.Script

variable {t : Token} {ts us before : List Token} {p q : Draft} {s : Statement} {goesOn : Bool}

/-! ## One token -/

/-- Passes over a newline or comment between statements. -/
def Draft.skip (p : Draft) (t : Token) : Draft :=
  if isDoc t then { p with pending := some t.text } else p

/-- What a token does: it is passed over between statements, it is taken, or it is the last one
before a statement ends. A newline is taken where the statement may not end or the next line goes
on, and ends it elsewhere. -/
inductive Draft.Step (p : Draft) (t : Token) (goesOn : Bool) : List Statement × Draft → Prop where
  | skip (ht : t.isTrivia) (htaken : p.taken = []) : Step p t goesOn ([], p.skip t)
  | take (ht : t.isTrivia → p.taken ≠ []) (hline : t.kind = .newline → p.mayEnd → goesOn) :
    Step p t goesOn ([], p.take t)
  | finish (ht : t.isTrivia → p.taken ≠ []) (hkind : t.kind = .semicolon ∨ t.kind = .newline)
      (hdepth : (p.take t).depth = 0) (hline : t.kind = .newline → p.mayEnd ∧ goesOn = false) :
    Step p t goesOn ((p.take t).finish, (p.take t).reset)

theorem not_isDoc_of_newline (h : t.kind = .newline) : isDoc t = false := by simp [isDoc, h]

theorem Draft.take_of_trivia (ht : t.isTrivia) (htaken : p.taken ≠ []) : p.take t = p.push t := by
  rw [take_eq_of_taken htaken (depthStep_of_trivia ht p.depth)]
  rfl

/-- Newlines and comments at the end are not part of a statement. -/
theorem Draft.finish_push (ht : t.isTrivia) (p : Draft) : (p.push t).finish = p.finish := by
  rw [Draft.finish, Draft.finish, Draft.push, List.dropWhile_cons_of_pos ht]

theorem Draft.step_next (p : Draft) (t : Token) (goesOn : Bool) :
    p.Step t goesOn (p.next t goesOn) := by
  rw [Draft.next]
  by_cases hnewline : t.kind = .newline
  · have ht := isTrivia_of_newline hnewline
    rw [if_pos hnewline]
    by_cases htaken : p.taken = []
    · have hskip : p.skip t = p := if_neg (by simp [not_isDoc_of_newline hnewline])
      rw [if_pos (by simp [htaken])]
      have hstep : p.Step t goesOn ([], p.skip t) := .skip ht htaken
      rwa [hskip] at hstep
    · have hpush := Draft.take_of_trivia ht htaken
      rw [if_neg (by simpa using htaken)]
      split
      · next hends =>
        have hdepth : p.depth = 0 := of_decide_eq_true (Bool.and_eq_true_iff.1 hends.1).1
        -- the newline may as well have been taken before the end
        have hfinish := Step.finish (p := p) (fun _ => htaken) (Or.inr hnewline)
          (by rw [hpush]; exact hdepth) fun _ => ⟨hends.1, by simpa using hends.2⟩
        rw [hpush, Draft.finish_push ht] at hfinish
        exact hfinish
      · next hends =>
        have hline : p.mayEnd → goesOn := fun hmay => by
          simpa [hmay] using hends
        exact hpush ▸ Step.take (fun _ => htaken) fun _ => hline
  · rw [if_neg hnewline]
    by_cases hbetween : t.isTrivia ∧ p.taken.isEmpty
    · rw [if_pos hbetween]
      exact Step.skip hbetween.1 (by simpa using hbetween.2)
    · have ht : t.isTrivia → p.taken ≠ [] := fun ht htaken => hbetween ⟨ht, by simp [htaken]⟩
      rw [if_neg hbetween]
      split
      · next hends =>
        exact Step.finish ht (Or.inl hends.1) hends.2 fun h => absurd h hnewline
      · exact Step.take ht fun h => absurd h hnewline

/-! ## Stretches -/

/-- The last documentation comment of a run. -/
def lastDoc? (ts : List Token) : Option String := (ts.reverse.find? isDoc).map Token.text

theorem lastDoc?_concat (ts : List Token) (t : Token) :
    lastDoc? (ts ++ [t]) = if isDoc t then some t.text else lastDoc? ts := by
  rw [lastDoc?, List.reverse_concat, List.find?_cons]
  cases isDoc t <;> rfl

/-- A statement in a run, with the newlines and comments around it. -/
structure Stretch where
  before : List Token
  statement : Statement
  after : List Token

namespace Stretch

def tokens (s : Stretch) : List Token := s.before ++ s.statement.tokens ++ s.after

/-- Around the statement are only newlines and comments, and it neither starts nor ends with one.
Its documentation is the last in front of it. -/
structure IsCut (s : Stretch) : Prop where
  before : ∀ t ∈ s.before, t.isTrivia
  first : ∃ t, s.statement.tokens.head? = some t ∧ t.isTrivia = false
  last : ∃ t, s.statement.tokens.getLast? = some t ∧ t.isTrivia = false
  after : ∀ t ∈ s.after, t.isTrivia
  doc : s.statement.doc = lastDoc? s.before

/-- What ends the statement: a `;` of its own, or else the first newline behind it. -/
inductive Stops (s : Stretch) : Prop where
  | semicolon (t : Token) (hlast : s.statement.tokens.getLast? = some t) (ht : t.kind = .semicolon)
      (hafter : s.after = [])
  | newline (last : Token) (comments : List Token) (t : Token)
      (hlast : s.statement.tokens.getLast? = some last) (hsemicolon : last.kind ≠ .semicolon)
      (hcomments : ∀ u ∈ comments, u.kind ≠ .newline) (ht : t.kind = .newline)
      (hafter : s.after = comments ++ [t])

end Stretch

/-- The run ends with a `;` or a newline that is outside brackets. -/
structure EndsOutside (ts : List Token) : Prop where
  depth : bracketDepth 0 ts = 0
  last : ∃ t, ts.getLast? = some t ∧ (t.kind = .semicolon ∨ t.kind = .newline)

/-- A run is made of stretches and, below them, newlines and comments. Where a stretch ends before
the run does, it is with a `;` or a newline outside brackets, and nothing behind that is part of
it. -/
structure CutsInto (ts : List Token) (stretches : List Stretch) (rest : List Token) : Prop where
  tokens : ts = stretches.flatMap Stretch.tokens ++ rest
  cut : ∀ s ∈ stretches, s.IsCut
  trivia : ∀ t ∈ rest, t.isTrivia
  stops : ∀ above s below, stretches = above ++ s :: below → below ≠ [] ∨ rest ≠ [] → s.Stops
  ends : ∀ above below, stretches = above ++ below → above ≠ [] → below ≠ [] ∨ rest ≠ [] →
    EndsOutside (above.flatMap Stretch.tokens)

theorem bracketDepth_append (depth : Nat) (ts us : List Token) :
    bracketDepth depth (ts ++ us) = bracketDepth (bracketDepth depth ts) us :=
  List.foldl_append

theorem bracketDepth_of_trivia (h : ∀ t ∈ ts, t.isTrivia) (depth : Nat) :
    bracketDepth depth ts = depth := by
  induction ts with
  | nil => rfl
  | cons t ts ih =>
    obtain ⟨ht, hrest⟩ := List.forall_mem_cons.1 h
    exact (congrArg (bracketDepth · ts) (bracketStep_of_trivia ht depth)).trans (ih hrest)

/-- Depth starts anew with each stretch. -/
theorem endsOutside_flatMap {stretches : List Stretch}
    (h : ∀ s ∈ stretches, EndsOutside s.tokens) (hne : stretches ≠ []) :
    EndsOutside (stretches.flatMap Stretch.tokens) := by
  induction stretches with
  | nil => exact absurd rfl hne
  | cons s stretches ih =>
    obtain ⟨hs, hrest⟩ := List.forall_mem_cons.1 h
    rw [List.flatMap_cons]
    by_cases hnil : stretches = []
    · rw [hnil, List.flatMap_nil, List.append_nil]
      exact hs
    · have hlater := ih hrest hnil
      obtain ⟨t, hlast, hkind⟩ := hlater.last
      refine ⟨?_, t, ?_, hkind⟩
      · rw [bracketDepth_append, hs.depth, hlater.depth]
      · rw [List.getLast?_append, hlast, Option.some_or]

/-! ## What a draft has read -/

/-- A draft that has read some newlines and comments, and then what it has taken, since the last
statement ended. -/
structure Draft.Reads (p : Draft) (before : List Token) : Prop where
  trivia : ∀ t ∈ before, t.isTrivia
  first : p.taken ≠ [] → ∃ t, p.taken.getLast? = some t ∧ t.isTrivia = false
  depth : p.depth = bracketDepth 0 p.taken.reverse
  doc : p.doc = if p.taken = [] then none else lastDoc? before
  pending : p.pending = if p.taken = [] then lastDoc? before else none

namespace Draft

theorem reads_start : Draft.start.Reads [] :=
  ⟨fun _ h => absurd h List.not_mem_nil, fun h => absurd rfl h, rfl, rfl, rfl⟩

theorem Reads.skip (hp : p.Reads before) (ht : t.isTrivia) (htaken : p.taken = []) :
    (p.skip t).Reads (before ++ [t]) := by
  obtain ⟨taken, depth, doc, pending⟩ := p
  obtain rfl : taken = [] := htaken
  have hbefore : ∀ u ∈ before ++ [t], u.isTrivia := fun u hu =>
    (List.mem_append.1 hu).elim (hp.trivia u) fun hu => List.mem_singleton.1 hu ▸ ht
  have hpending : pending = lastDoc? before := hp.pending
  rw [Draft.skip]
  split
  · next hdoc => exact ⟨hbefore, hp.first, hp.depth, hp.doc, by simp [lastDoc?_concat, hdoc]⟩
  · next hdoc =>
    exact ⟨hbefore, hp.first, hp.depth, hp.doc, by simp [lastDoc?_concat, hdoc, hpending]⟩

theorem Reads.take (hp : p.Reads before) (ht : t.isTrivia → p.taken ≠ []) :
    (p.take t).Reads before := by
  have hdepth : (p.take t).depth = bracketDepth 0 (p.take t).taken.reverse := by
    rw [depth_take_eq, taken_take, List.reverse_cons, bracketDepth_append, ← hp.depth]
    rfl
  refine ⟨hp.trivia, fun _ => ?_, hdepth, ?_, ?_⟩
  · rw [taken_take]
    by_cases htaken : p.taken = []
    · refine ⟨t, by simp [htaken], ?_⟩
      cases htrivia : t.isTrivia with
      | false => rfl
      | true => exact absurd htaken (ht htrivia)
    · obtain ⟨u, hu, hsignificant⟩ := hp.first htaken
      exact ⟨u, by rw [List.getLast?_cons, hu]; rfl, hsignificant⟩
  · rw [taken_take, if_neg (List.cons_ne_nil _ _), Draft.take]
    by_cases htaken : p.taken = [] <;> simp [htaken, hp.doc, hp.pending]
  · rw [taken_take, if_neg (List.cons_ne_nil _ _), Draft.take]
    by_cases htaken : p.taken = [] <;> simp [htaken, hp.pending]

theorem Reads.reset (hp : p.Reads before) (htaken : p.taken ≠ []) (hdepth : p.depth = 0) :
    p.reset.Reads [] :=
  ⟨fun _ h => absurd h List.not_mem_nil, fun h => absurd rfl h, hdepth, rfl,
    hp.pending.trans (if_neg htaken)⟩

/-- The statement of a draft is cut from what has been read. -/
theorem Reads.finish (hp : p.Reads before) (htaken : p.taken ≠ []) :
    ∃ s : Stretch, p.finish = [s.statement] ∧ s.IsCut ∧ s.tokens = before ++ p.taken.reverse ∧
      s.statement.tokens.getLast? = p.taken.find? (!·.isTrivia) ∧
        s.after = (p.taken.takeWhile Token.isTrivia).reverse := by
  obtain ⟨first, hfirst, hsignificant⟩ := hp.first htaken
  have hsplit := p.taken.takeWhile_append_dropWhile (p := Token.isTrivia)
  -- the first token taken is not dropped, so something is left
  have hne : p.taken.dropWhile Token.isTrivia ≠ [] := fun hnil => by
    have hall := List.dropWhile_eq_nil_iff.1 hnil first (List.mem_of_getLast? hfirst)
    rw [hsignificant] at hall
    exact absurd hall Bool.false_ne_true
  obtain ⟨last, ts, hdrop⟩ := List.exists_cons_of_ne_nil hne
  have hlast : last.isTrivia = false := by
    have hnot := List.head?_dropWhile_not Token.isTrivia p.taken
    rw [hdrop] at hnot
    simpa using hnot
  refine ⟨⟨before, ⟨(last :: ts).reverse, p.doc⟩, (p.taken.takeWhile Token.isTrivia).reverse⟩,
    by rw [Draft.finish, hdrop],
    ⟨hp.trivia, ⟨first, ?_, hsignificant⟩, ⟨last, by simp, hlast⟩, ?_, ?_⟩, ?_, ?_, rfl⟩
  · rw [List.head?_reverse, ← hdrop]
    rw [← hsplit, List.getLast?_append, hdrop] at hfirst
    rw [hdrop]
    simpa using hfirst
  · exact fun t ht => List.all_eq_true.1 List.all_takeWhile t (List.mem_reverse.1 ht)
  · exact hp.doc.trans (if_neg htaken)
  · rw [Stretch.tokens, List.append_assoc, ← List.reverse_append, ← hdrop, hsplit]
  · rw [List.getLast?_reverse, ← hdrop, List.find?_not_eq_head?_dropWhile]

/-! ## Newlines behind a statement -/

/-- A newline behind the last significant token has been taken only if the statement may not end, or
if the next line goes on. -/
def StaysOpen (p : Draft) (goesOn : Bool) : Prop :=
  ∀ t ∈ p.taken.takeWhile Token.isTrivia, t.kind = .newline → p.mayEnd → goesOn

theorem staysOpen_start (goesOn : Bool) : Draft.start.StaysOpen goesOn :=
  fun _ h => absurd h List.not_mem_nil

theorem mayEnd_push (ht : t.isTrivia) (p : Draft) : (p.push t).mayEnd = p.mayEnd := by
  rw [mayEnd, mayEnd, push, List.find?_cons_of_neg (by simp [ht])]

/-- Newlines and comments do not settle whether the next line goes on. -/
theorem continues_cons (ht : t.isTrivia) (ts : List Token) : continues (t :: ts) = continues ts :=
  continues_append_of_trivia (List.forall_mem_singleton.2 ht) ts

theorem Step.staysOpen {step : List Statement × Draft} (h : p.Step t (continues ts) step)
    (hp : p.StaysOpen (continues (t :: ts))) : step.2.StaysOpen (continues ts) := by
  cases h with
  | skip ht htaken =>
    have hskip : (p.skip t).taken = [] := by
      rw [Draft.skip]
      split <;> exact htaken
    intro u hu
    rw [hskip] at hu
    exact absurd hu List.not_mem_nil
  | take ht hline =>
    intro u hu hkind hmay
    by_cases htrivia : t.isTrivia
    · rw [take_of_trivia htrivia (ht htrivia)] at hu hmay
      rw [mayEnd_push htrivia] at hmay
      rw [push, List.takeWhile_cons_of_pos htrivia] at hu
      rcases List.mem_cons.1 hu with rfl | hu
      · exact hline hkind hmay
      · rw [← continues_cons htrivia]
        exact hp u hu hkind hmay
    · -- behind the token nothing has been taken
      rw [taken_take, List.takeWhile_cons_of_neg htrivia] at hu
      exact absurd hu List.not_mem_nil
  | finish => exact fun u hu => absurd hu List.not_mem_nil

/-- Of the newlines behind a statement the first one ends it: any before it would have, too, since
the same line follows them all. -/
theorem StaysOpen.stops {s : Stretch} (hopen : p.StaysOpen (continues (t :: ts)))
    (hkind : t.kind = .semicolon ∨ t.kind = .newline)
    (hline : t.kind = .newline → p.mayEnd ∧ continues ts = false)
    (hlast : s.statement.tokens.getLast? = (t :: p.taken).find? (!·.isTrivia))
    (hafter : s.after = ((t :: p.taken).takeWhile Token.isTrivia).reverse) : s.Stops := by
  rcases hkind with hkind | hkind
  · have ht : t.isTrivia = false := isTrivia_of_semicolon hkind
    refine .semicolon t ?_ hkind ?_
    · rw [hlast, List.find?_cons_of_pos (by simp [ht])]
    · rw [hafter, List.takeWhile_cons_of_neg (by simp [ht]), List.reverse_nil]
  · have ht := isTrivia_of_newline hkind
    obtain ⟨hmay, hgoes⟩ := hline hkind
    obtain ⟨last, hfind, hend⟩ := (Option.any_eq_true _ _).1 (Bool.and_eq_true_iff.1 hmay).2
    refine .newline last (p.taken.takeWhile Token.isTrivia).reverse t ?_ ?_ ?_ hkind ?_
    · rw [hlast, List.find?_cons_of_neg (by simp [ht]), hfind]
    · intro hsemicolon
      rw [hsemicolon] at hend
      exact absurd hend Bool.false_ne_true
    · intro u hu hnewline
      have hgoes' := hopen u (List.mem_reverse.1 hu) hnewline hmay
      rw [continues_cons ht, hgoes] at hgoes'
      exact absurd hgoes' Bool.false_ne_true
    · rw [hafter, List.takeWhile_cons_of_pos ht, List.reverse_cons]

/-! ## A run of tokens -/

/-- The statements that a run ends, and the draft after it, if nothing comes after the run. -/
def advance (p : Draft) : List Token → List Statement × Draft
  | [] => ([], p)
  | t :: ts =>
    let (ended, q) := p.next t (continues ts)
    let (more, r) := q.advance ts
    (ended ++ more, r)

theorem advance_cons (p : Draft) (t : Token) (ts : List Token) :
    p.advance (t :: ts) =
      ((p.next t (continues ts)).1 ++ ((p.next t (continues ts)).2.advance ts).1,
        ((p.next t (continues ts)).2.advance ts).2) := rfl

theorem splitFrom_eq_advance (p : Draft) (ts : List Token) :
    splitFrom p ts = (p.advance ts).1 ++ (p.advance ts).2.finish := by
  induction ts generalizing p with
  | nil => exact splitFrom_nil p
  | cons t ts ih => rw [splitFrom_cons, advance_cons, ih, List.append_assoc]

/-- A draft that has come to `q` by reading a run: the stretches that have ended, and what has been
read since. -/
structure Comes (ts : List Token) (ended : List Statement) (q : Draft) (stretches : List Stretch)
    (before : List Token) : Prop where
  ended : ended = stretches.map Stretch.statement
  tokens : ts = stretches.flatMap Stretch.tokens ++ (before ++ q.taken.reverse)
  cut : ∀ s ∈ stretches, s.IsCut
  stops : ∀ s ∈ stretches, s.Stops
  ends : ∀ s ∈ stretches, EndsOutside s.tokens
  reads : q.Reads before

theorem Step.comes {step : List Statement × Draft} (h : p.Step t (continues ts) step)
    (hp : p.Reads before) (hopen : p.StaysOpen (continues (t :: ts))) :
    ∃ stretches before',
      Comes (before ++ p.taken.reverse ++ [t]) step.1 step.2 stretches before' := by
  have htokens : before ++ p.taken.reverse ++ [t] = before ++ (p.take t).taken.reverse := by
    rw [taken_take, List.reverse_cons, List.append_assoc]
  cases h with
  | skip ht htaken =>
    have hskip : (p.skip t).taken = [] := by
      rw [Draft.skip]
      split <;> exact htaken
    exact ⟨[], before ++ [t], rfl, by simp [htaken, hskip], by simp, by simp, by simp,
      hp.skip ht htaken⟩
  | take ht => exact ⟨[], before, rfl, htokens, by simp, by simp, by simp, hp.take ht⟩
  | finish ht hkind hdepth hline =>
    have hne : (p.take t).taken ≠ [] := by simp [taken_take]
    obtain ⟨s, hfinish, hcut, hs, hlast, hafter⟩ := (hp.take ht).finish hne
    rw [taken_take] at hlast hafter
    have hstops := hopen.stops hkind hline hlast hafter
    have hends : EndsOutside s.tokens := by
      refine ⟨?_, t, ?_, hkind⟩
      · rw [hs, bracketDepth_append, bracketDepth_of_trivia hp.trivia, ← (hp.take ht).depth, hdepth]
      · rw [hs, ← htokens, List.getLast?_concat]
    refine ⟨[s], [], hfinish, ?_, by simpa using hcut, by simpa using hstops, by simpa using hends,
      (hp.take ht).reset hne hdepth⟩
    rw [htokens, ← hs]
    simp [Draft.reset]

/-- **What a run does to a draft.** -/
theorem Reads.advance (hp : p.Reads before) (ts : List Token) (hopen : p.StaysOpen (continues ts)) :
    ∃ stretches before', Comes (before ++ p.taken.reverse ++ ts) (p.advance ts).1 (p.advance ts).2
      stretches before' := by
  induction ts generalizing p before with
  | nil => exact ⟨[], before, rfl, by simp [Draft.advance], by simp, by simp, by simp, hp⟩
  | cons t ts ih =>
    have hnext := p.step_next t (continues ts)
    obtain ⟨first, middle, hstep⟩ := hnext.comes hp hopen
    obtain ⟨later, before', hrest⟩ := ih hstep.reads (hnext.staysOpen hopen)
    refine ⟨first ++ later, before', ?_, ?_, ?_, ?_, ?_, hrest.reads⟩
    · rw [advance_cons, hstep.ended, hrest.ended, List.map_append]
    · calc before ++ p.taken.reverse ++ t :: ts
          = (before ++ p.taken.reverse ++ [t]) ++ ts := by simp
        _ = first.flatMap Stretch.tokens ++
              (middle ++ (p.next t (continues ts)).2.taken.reverse ++ ts) := by
            rw [hstep.tokens]
            simp
        _ = _ := by
            rw [hrest.tokens, List.flatMap_append, List.append_assoc]
            rfl
    · exact fun s hs => (List.mem_append.1 hs).elim (hstep.cut s) (hrest.cut s)
    · exact fun s hs => (List.mem_append.1 hs).elim (hstep.stops s) (hrest.stops s)
    · exact fun s hs => (List.mem_append.1 hs).elim (hstep.ends s) (hrest.ends s)

end Draft

/-! ## Significant tokens -/

theorem map_bare_significantAfter (gap : String) (ts : List Token) :
    (Token.significantAfter gap ts).map Token.bare =
      (ts.filter fun t => !t.isTrivia).map Token.bare := by
  induction ts generalizing gap with
  | nil => rfl
  | cons t ts ih =>
    rw [Token.significantAfter]
    split
    · next ht => rw [ih, List.filter_cons_of_neg (by simp [ht])]
    · next ht =>
      rw [List.map_cons, ih, List.filter_cons_of_pos (by simpa using ht)]
      rfl

theorem filter_trivia (h : ∀ t ∈ ts, t.isTrivia) : (ts.filter fun t => !t.isTrivia) = [] :=
  List.filter_eq_nil_iff.2 fun t ht => by simp [h t ht]

/-- Around statements there is nothing significant. -/
theorem CutsInto.filter_significant {stretches : List Stretch} {rest : List Token}
    (h : CutsInto ts stretches rest) :
    (ts.filter fun t => !t.isTrivia) =
      stretches.flatMap fun s => s.statement.tokens.filter fun t => !t.isTrivia := by
  rw [h.tokens, List.filter_append, filter_trivia h.trivia, List.append_nil, List.filter_flatMap]
  refine List.flatMap_congr fun s hs => ?_
  rw [Stretch.tokens, List.filter_append, List.filter_append, filter_trivia (h.cut s hs).before,
    filter_trivia (h.cut s hs).after, List.nil_append, List.append_nil]

/-- Every run is made of the stretches of its statements. -/
theorem exists_cutsInto (ts : List Token) : ∃ stretches rest,
    splitStatements ts = stretches.map Stretch.statement ∧ CutsInto ts stretches rest := by
  obtain ⟨ended, before, hcomes⟩ := Draft.reads_start.advance ts (Draft.staysOpen_start _)
  have htokens : ts = ended.flatMap Stretch.tokens ++
    (before ++ (Draft.start.advance ts).2.taken.reverse) := hcomes.tokens
  by_cases htaken : (Draft.start.advance ts).2.taken = []
  · -- nothing is left but newlines and comments
    refine ⟨ended, before, ?_, ?_, hcomes.cut, hcomes.reads.trivia,
      fun above s below hsplit _ => hcomes.stops s (by simp [hsplit]),
      fun above below hsplit hne _ => ?_⟩
    · rw [splitStatements, Draft.splitFrom_eq_advance, hcomes.ended, Draft.finish, htaken]
      simp
    · rw [htaken] at htokens
      simpa using htokens
    · exact endsOutside_flatMap (fun s hs => hcomes.ends s (hsplit ▸ List.mem_append_left _ hs)) hne
  · -- the last statement ends with the run
    obtain ⟨last, hfinish, hcut, hlast, -⟩ := hcomes.reads.finish htaken
    have hended : ∀ above below, ended ++ [last] = above ++ below → below ≠ [] →
        above <+: ended := by
      intro above below hsplit hbelow
      refine (List.prefix_concat_iff.1 ⟨below, hsplit.symm⟩).resolve_left fun heq => hbelow ?_
      rw [heq] at hsplit
      exact List.self_eq_append_right.1 hsplit
    refine ⟨ended ++ [last], [], ?_, ?_, ?_, by simp, fun above s below hsplit hbelow => ?_,
      fun above below hsplit hne hbelow => ?_⟩
    · rw [splitStatements, Draft.splitFrom_eq_advance, hcomes.ended, hfinish, List.map_append]
      rfl
    · rw [List.flatMap_append, List.flatMap_singleton, hlast, List.append_nil]
      exact htokens
    · exact fun s hs => (List.mem_append.1 hs).elim (hcomes.cut s) fun hs =>
        List.mem_singleton.1 hs ▸ hcut
    · have hbelow : below ≠ [] := hbelow.resolve_right fun h => h rfl
      have habove := hended (above ++ [s]) below (by simpa using hsplit) hbelow
      exact hcomes.stops s (habove.subset (by simp))
    · have habove := hended above below hsplit (hbelow.resolve_right fun h => h rfl)
      exact endsOutside_flatMap (fun s hs => hcomes.ends s (habove.subset hs)) hne

/-- A run that is one statement is one stretch. -/
theorem exists_cutsInto_singleton (h : splitStatements ts = [s]) :
    ∃ stretch rest, stretch.statement = s ∧ CutsInto ts [stretch] rest := by
  obtain ⟨stretches, rest, hsplit, hcuts⟩ := exists_cutsInto ts
  obtain ⟨stretch, rfl, hs⟩ := List.map_eq_singleton_iff.1 (hsplit.symm.trans h)
  exact ⟨stretch, rest, hs, hcuts⟩

/-- **Splitting loses nothing.** Every run, balanced or not, is made of the stretches of its
statements, each with the last documentation comment below where the one above it stops; their
significant tokens are those of the run. -/
theorem splitStatements_cutsInto (ts : List Token) :
    ∃ stretches rest, splitStatements ts = stretches.map Stretch.statement ∧
      CutsInto ts stretches rest ∧
      ((splitStatements ts).flatMap Statement.significant).map Token.bare =
        (ts.filter fun t => !t.isTrivia).map Token.bare := by
  obtain ⟨stretches, rest, hsplit, hcuts⟩ := exists_cutsInto ts
  refine ⟨stretches, rest, hsplit, hcuts, ?_⟩
  calc ((splitStatements ts).flatMap Statement.significant).map Token.bare
      = stretches.flatMap fun s =>
          (s.statement.tokens.filter fun t => !t.isTrivia).map Token.bare := by
        rw [hsplit, List.flatMap_map, List.map_flatMap]
        exact List.flatMap_congr fun s _ => map_bare_significantAfter "" s.statement.tokens
    _ = _ := by rw [hcuts.filter_significant, List.map_flatMap]

end SvelteTypings.Script
