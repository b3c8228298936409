import SvelteTypings.Proofs.Script.Stretches
import SvelteTypings.Script.Declaration

/-!
# A newline ends a finished statement

A line that starts with `export` or `import` goes on no statement. So below a text that is one
statement, and whose last token can end a line, it starts a statement of its own
(`scan_below_finished`), unless a comment or template that the text leaves open takes it. A
documentation comment below the statement goes with what follows.
-/

namespace SvelteTypings.Script

variable {t newline : Token} {ts us front after : List Token} {p : Draft} {s : Statement}

/-! ## Up to a significant token -/

theorem Draft.next_significant (ht : t.isTrivia = false) (p : Draft) (goesOn : Bool) :
    p.next t goesOn =
      if t.kind = .semicolon ∧ (p.take t).depth = 0 then ((p.take t).finish, (p.take t).reset)
      else ([], p.take t) := by
  have hnewline : t.kind ≠ .newline := fun h => by simp [isTrivia_of_newline h] at ht
  rw [Draft.next, if_neg hnewline, if_neg (by simp [ht])]

/-- A run up to a significant token is read in the same way whatever follows. -/
theorem Draft.splitFrom_concat (ht : t.isTrivia = false) (p : Draft) (front us : List Token) :
    splitFrom p (front ++ t :: us) = (p.advance (front ++ [t])).1 ++
      splitFrom (p.advance (front ++ [t])).2 us := by
  induction front generalizing p with
  | nil =>
    rw [List.nil_append, splitFrom_cons, List.nil_append, advance_cons, Draft.next_significant ht,
      Draft.next_significant ht]
    simp [Draft.advance]
  | cons u front ih =>
    have hcontinues : continues (front ++ [t] ++ us) = continues (front ++ [t]) :=
      continues_append_of_significant ⟨t, by simp, ht⟩ us
    rw [List.append_assoc, List.singleton_append] at hcontinues
    rw [List.cons_append, splitFrom_cons, hcontinues, ih, List.cons_append, advance_cons,
      List.append_assoc]

/-! ## Newlines and comments behind a statement -/

theorem lastDoc?_cons (t : Token) (ts : List Token) :
    lastDoc? (t :: ts) = (lastDoc? ts).or (if isDoc t then some t.text else none) := by
  rw [lastDoc?, List.reverse_cons, List.find?_append, lastDoc?]
  cases hdoc : isDoc t <;> cases ts.reverse.find? isDoc <;> simp [hdoc]

/-- Between statements only documentation leaves a trace. -/
theorem splitFrom_between (hafter : ∀ t ∈ after, t.isTrivia) (pending : Option String)
    (us : List Token) :
    splitFrom ⟨[], 0, none, pending⟩ (after ++ us) =
      splitFrom ⟨[], 0, none, (lastDoc? after).or pending⟩ us := by
  induction after generalizing pending with
  | nil => rfl
  | cons t after ih =>
    obtain ⟨ht, hrest⟩ := List.forall_mem_cons.1 hafter
    have hskip : splitFrom ⟨[], 0, none, pending⟩ (t :: (after ++ us)) =
        splitFrom ((⟨[], 0, none, pending⟩ : Draft).skip t) (after ++ us) := by
      have hstep := Draft.step_next ⟨[], 0, none, pending⟩ t (continues (after ++ us))
      rw [splitFrom_cons]
      generalize (⟨[], 0, none, pending⟩ : Draft).next t (continues (after ++ us)) = step at hstep ⊢
      cases hstep with
      | skip => rfl
      | take htaken => exact absurd rfl (htaken ht)
      | finish htaken => exact absurd rfl (htaken ht)
    rw [List.cons_append, hskip, lastDoc?_cons, Option.or_assoc, Draft.skip]
    split
    · exact ih hrest (some t.text)
    · exact ih hrest pending

/-- What stands below the line that a statement ends on, of the newlines and comments behind it. -/
def belowLine (after : List Token) : List Token := after.dropWhile (·.kind ≠ .newline)

theorem Draft.reset_eq (hdepth : p.depth = 0) (hpending : p.pending = none) :
    p.reset = ⟨[], 0, none, none⟩ := by
  rw [Draft.reset, hdepth, hpending]

/-- A comment behind a statement is taken, and dropped when it ends. -/
theorem splitFrom_cons_comment (htaken : p.taken ≠ []) (ht : t.isTrivia)
    (hnewline : t.kind ≠ .newline) (us : List Token) :
    splitFrom p (t :: us) = splitFrom (p.push t) us := by
  have hsemicolon : t.kind ≠ .semicolon := fun h => by
    rw [isTrivia_of_semicolon h] at ht
    exact absurd ht Bool.false_ne_true
  rw [splitFrom_cons, Draft.next, if_neg hnewline, if_neg fun h => htaken (by simpa using h.2),
    if_neg fun h => hsemicolon h.1, Draft.take_of_trivia ht htaken]
  rfl

/-- **A finished statement ends with its line,** if nothing follows on the line but newlines and
comments, and what follows them does not go on. -/
theorem splitFrom_finished (hdepth : p.depth = 0) (hpending : p.pending = none)
    (htaken : p.taken.dropWhile Token.isTrivia = t :: ts) (hend : endsLine t.kind)
    (hafter : ∀ t ∈ after, t.isTrivia) (hline : us.head?.all (·.kind = .newline))
    (hus : continues us = false) :
    splitFrom p (after ++ us) = ⟨(t :: ts).reverse, p.doc⟩ ::
      splitFrom ⟨[], 0, none, lastDoc? (belowLine after)⟩ us := by
  induction after generalizing p with
  | nil =>
    cases us with
    | nil =>
      rw [List.append_nil, splitFrom_nil, Draft.finish, htaken]
      rfl
    | cons newline us =>
      have hkind : newline.kind = .newline := by simpa using hline
      have hnewline : ∀ u ∈ [newline], u.isTrivia := by simpa using isTrivia_of_newline hkind
      have hbelow := splitFrom_between hnewline none us
      rw [← List.singleton_append, continues_append_of_trivia hnewline] at hus
      rw [List.nil_append, splitFrom_newline hkind hdepth htaken hend hus,
        Draft.reset_eq hdepth hpending]
      rw [lastDoc?_cons, not_isDoc_of_newline hkind] at hbelow
      exact congrArg _ hbelow.symm
  | cons u after ih =>
    obtain ⟨hu, hrest⟩ := List.forall_mem_cons.1 hafter
    rw [List.cons_append]
    by_cases hkind : u.kind = .newline
    · -- the statement ends here, and what is below is passed over
      have hlast : lastDoc? (belowLine (u :: after)) = lastDoc? after := by
        rw [belowLine, List.dropWhile_cons_of_neg (by simp [hkind]), lastDoc?_cons,
          not_isDoc_of_newline hkind]
        simp
      have hbelow := (continues_append_of_trivia hrest us).trans hus
      rw [splitFrom_newline hkind hdepth htaken hend hbelow, Draft.reset_eq hdepth hpending,
        splitFrom_between hrest, hlast, Option.or_none]
    · -- a comment is taken up, and the statement is still finished
      have hne : p.taken ≠ [] := fun hnil => by simp [hnil] at htaken
      have hpush : (p.push u).taken.dropWhile Token.isTrivia = t :: ts := by
        rw [Draft.push, List.dropWhile_cons_of_pos hu, htaken]
      have hlast : belowLine (u :: after) = belowLine after :=
        List.dropWhile_cons_of_pos (by simpa using hkind)
      rw [splitFrom_cons_comment hne hu hkind, hlast]
      exact ih hdepth hpending hpush hrest

/-! ## Documentation from above -/

/-- The first of the statements has the documentation. -/
def documented (doc : Option String) : List Statement → List Statement
  | [] => []
  | s :: ss => { s with doc } :: ss

theorem documented_append (doc : Option String) {ss : List Statement} (h : ss ≠ [])
    (ss' : List Statement) : documented doc (ss ++ ss') = documented doc ss ++ ss' := by
  obtain ⟨s, ss, rfl⟩ := List.exists_cons_of_ne_nil h
  rfl

/-- The draft with other documentation. -/
def Draft.withDoc (p : Draft) (doc : Option String) : Draft := { p with doc }

theorem Draft.finish_withDoc (p : Draft) (doc : Option String) :
    (p.withDoc doc).finish = documented doc p.finish := by
  rw [Draft.finish, Draft.finish, Draft.withDoc]
  cases p.taken.dropWhile Token.isTrivia <;> rfl

theorem Draft.take_withDoc (htaken : p.taken ≠ []) (t : Token) (doc : Option String) :
    (p.withDoc doc).take t = (p.take t).withDoc doc := by
  obtain ⟨u, taken, hcons⟩ := List.exists_cons_of_ne_nil htaken
  simp [Draft.take, Draft.withDoc, hcons]

theorem Draft.next_withDoc (htaken : p.taken ≠ []) (t : Token) (goesOn : Bool)
    (doc : Option String) :
    (p.withDoc doc).next t goesOn =
      if (p.next t goesOn).2.taken = [] then
        (documented doc (p.next t goesOn).1, (p.next t goesOn).2)
      else ((p.next t goesOn).1, (p.next t goesOn).2.withDoc doc) := by
  have hempty : p.taken.isEmpty = false := by simpa using htaken
  have hempty' : (p.withDoc doc).taken.isEmpty = false := hempty
  have hmay : (p.withDoc doc).mayEnd = p.mayEnd := rfl
  have hdepth : ((p.take t).withDoc doc).depth = (p.take t).depth := rfl
  rw [Draft.next, Draft.next, hmay, hempty, hempty', Draft.take_withDoc htaken,
    Draft.finish_withDoc, Draft.finish_withDoc, hdepth]
  simp only [Bool.false_eq_true, if_false, and_false]
  split
  · split <;> simp [Draft.reset, Draft.push, Draft.withDoc]
  · split <;> simp [Draft.reset, Draft.taken_take, Draft.withDoc]

/-- The documentation of a statement does not change how it is read. -/
theorem splitFrom_withDoc {before : List Token} (hp : p.Reads before) (htaken : p.taken ≠ [])
    (doc : Option String) (ts : List Token) :
    splitFrom (p.withDoc doc) ts = documented doc (splitFrom p ts) := by
  induction ts generalizing p with
  | nil => rw [splitFrom_nil, splitFrom_nil, Draft.finish_withDoc]
  | cons t ts ih =>
    have hstep := p.step_next t (continues ts)
    rw [splitFrom_cons, splitFrom_cons, Draft.next_withDoc htaken]
    generalize p.next t (continues ts) = step at hstep ⊢
    cases hstep with
    | skip _ hnil => exact absurd hnil htaken
    | take ht =>
      have hne : (p.take t).taken ≠ [] := by simp [Draft.taken_take]
      rw [if_neg hne]
      exact ih (hp.take ht) hne
    | finish ht =>
      obtain ⟨s, hfinish, -⟩ := (hp.take ht).finish (by simp [Draft.taken_take])
      have hreset : (p.take t).reset.taken = [] := rfl
      rw [if_pos hreset, documented_append doc (by simp [hfinish])]

/-- What waits for a statement goes with the first. -/
theorem splitFrom_pending (ht : t.isTrivia = false) (pending : Option String) (us : List Token) :
    splitFrom ⟨[], 0, none, pending⟩ (t :: us) =
      documented pending (splitFrom .start (t :: us)) := by
  have hreads : (Draft.start.take t).Reads [] :=
    Draft.reads_start.take fun htrivia => by simp [ht] at htrivia
  have hne : (Draft.start.take t).taken ≠ [] := by simp [Draft.taken_take]
  have htake : (⟨[], 0, none, pending⟩ : Draft).take t = (Draft.start.take t).withDoc pending := rfl
  have hdepth : ((Draft.start.take t).withDoc pending).depth = (Draft.start.take t).depth := rfl
  rw [splitFrom_cons, splitFrom_cons, Draft.next_significant ht, Draft.next_significant ht, htake,
    hdepth]
  split
  · obtain ⟨s, hfinish, -⟩ := hreads.finish hne
    rw [Draft.finish_withDoc, documented_append pending (by simp [hfinish])]
    rfl
  · exact splitFrom_withDoc hreads hne pending us

/-! ## A statement alone -/

theorem Draft.depth_advance (p : Draft) (ts : List Token) :
    (p.advance ts).2.depth = bracketDepth p.depth ts := by
  induction ts generalizing p with
  | nil => rfl
  | cons t ts ih =>
    rw [advance_cons, ih, depth_next]
    rfl

/-- A draft that has read up to a token with which a line can end has taken it last. -/
theorem Draft.exists_taken_eq {before : List Token} (hp : p.Reads before) (ht : t.isTrivia = false)
    (hend : endsLine t.kind) (front : List Token)
    (hopen : p.StaysOpen (continues (front ++ [t]))) :
    ∃ taken, (p.advance (front ++ [t])).2.taken = t :: taken ∧
      (p.advance (front ++ [t])).2.pending = none := by
  obtain ⟨ended, before', hcomes⟩ := hp.advance (front ++ [t]) hopen
  generalize (p.advance (front ++ [t])).2 = q at hcomes ⊢
  have hlast :
      (ended.flatMap Stretch.tokens ++ (before' ++ q.taken.reverse)).getLast? = some t := by
    rw [← hcomes.tokens, ← List.append_assoc, List.getLast?_concat]
  cases htaken : q.taken with
  | cons u taken =>
    rw [htaken, List.reverse_cons, ← List.append_assoc, ← List.append_assoc, List.getLast?_concat,
      Option.some.injEq] at hlast
    exact ⟨taken, by rw [hlast], hcomes.reads.pending.trans (if_neg (by simp [htaken]))⟩
  | nil =>
    -- else the token would be between statements, or have ended one
    rw [htaken, List.reverse_nil, List.append_nil, List.getLast?_append] at hlast
    cases hbefore : before'.getLast? with
    | some u =>
      rw [hbefore, Option.some_or, Option.some.injEq] at hlast
      have hu := hcomes.reads.trivia u (List.mem_of_getLast? hbefore)
      rw [hlast, ht] at hu
      exact absurd hu Bool.false_ne_true
    | none =>
      rw [hbefore, Option.none_or] at hlast
      have hne : ended ≠ [] := fun h => by simp [h] at hlast
      obtain ⟨u, hu, hkind⟩ := (endsOutside_flatMap hcomes.ends hne).last
      rw [hlast, Option.some.injEq] at hu
      rcases hkind with hkind | hkind <;> simp [hu, hkind, endsLine] at hend

/-- **What is one statement stays one**, if its last token can end a line and what follows the
newlines and comments behind it does not go on. -/
theorem splitStatements_finished_append (hts : splitStatements ts = [s])
    (hlast : s.tokens.getLast? = some t) (hend : endsLine t.kind)
    (hdepth : bracketDepth 0 s.tokens = 0) :
    ∃ front after, ts = front ++ t :: after ∧ t.isTrivia = false ∧ (∀ t ∈ after, t.isTrivia) ∧
      ∀ more us, (∀ t ∈ more, t.isTrivia) → us.head?.all (·.kind = .newline) →
        continues us = false → splitStatements (ts ++ (more ++ us)) =
          s :: splitFrom ⟨[], 0, none, lastDoc? (belowLine (after ++ more))⟩ us := by
  obtain ⟨stretch, rest, rfl, hcuts⟩ := exists_cutsInto_singleton hts
  have hcut := hcuts.cut stretch List.mem_cons_self
  have ht : t.isTrivia = false := by
    obtain ⟨u, hu, hsignificant⟩ := hcut.last
    rw [hlast, Option.some.injEq] at hu
    rwa [hu]
  obtain ⟨tokens, htokens⟩ := List.getLast?_eq_some_iff.1 hlast
  have hrun : ts = (stretch.before ++ tokens) ++ t :: (stretch.after ++ rest) := by
    rw [hcuts.tokens, List.flatMap_singleton, Stretch.tokens, htokens]
    simp
  generalize hfront : stretch.before ++ tokens = front at hrun
  generalize hrest : stretch.after ++ rest = after at hrun
  have hafter : ∀ u ∈ after, u.isTrivia :=
    hrest ▸ List.forall_mem_append.2 ⟨hcut.after, hcuts.trivia⟩
  -- the draft that has read up to the last significant token has it in hand
  obtain ⟨taken, htaken, hpending⟩ :=
    Draft.exists_taken_eq Draft.reads_start ht hend front (Draft.staysOpen_start _)
  have hqdepth : (Draft.start.advance (front ++ [t])).2.depth = 0 := by
    rw [Draft.depth_advance, ← hfront, List.append_assoc, ← htokens, bracketDepth_append,
      bracketDepth_of_trivia hcut.before]
    exact hdepth
  generalize hadvance : Draft.start.advance (front ++ [t]) = step at htaken hpending hqdepth
  have hfollows : ∀ more us, (∀ t ∈ more, t.isTrivia) → us.head?.all (·.kind = .newline) →
      continues us = false → splitStatements (ts ++ (more ++ us)) = step.1 ++
        ⟨(t :: taken).reverse, step.2.doc⟩ ::
          splitFrom ⟨[], 0, none, lastDoc? (belowLine (after ++ more))⟩ us := by
    intro more us hmore hline hus
    have hdrop : step.2.taken.dropWhile Token.isTrivia = t :: taken := by
      rw [htaken, List.dropWhile_cons_of_neg (by simp [ht])]
    rw [hrun, List.append_assoc, List.cons_append, splitStatements, Draft.splitFrom_concat ht,
      hadvance, ← List.append_assoc after, splitFrom_finished hqdepth hpending hdrop hend
        (List.forall_mem_append.2 ⟨hafter, hmore⟩) hline hus]
  -- so it is this statement that the run is alone
  have halone := hfollows [] [] (by simp) rfl rfl
  rw [List.append_nil, List.append_nil, hts, splitFrom_nil] at halone
  obtain ⟨hended, hs⟩ := (List.append_eq_singleton_iff.1 halone.symm).resolve_right (by simp)
  refine ⟨front, after, hrun, ht, hafter, fun more us hmore hline hus => ?_⟩
  rw [hfollows more us hmore hline hus, hended, List.nil_append, (List.cons.inj hs).1]

theorem splitStatements_finished (hts : splitStatements ts = [s])
    (hlast : s.tokens.getLast? = some t) (hend : endsLine t.kind)
    (hdepth : bracketDepth 0 s.tokens = 0) :
    ∃ front after, ts = front ++ t :: after ∧ t.isTrivia = false ∧ (∀ t ∈ after, t.isTrivia) ∧
      ∀ us, us.head?.all (·.kind = .newline) → continues us = false →
        splitStatements (ts ++ us) =
          s :: splitFrom ⟨[], 0, none, lastDoc? (belowLine after)⟩ us := by
  obtain ⟨front, after, hrun, ht, hafter, hfollows⟩ :=
    splitStatements_finished_append hts hlast hend hdepth
  refine ⟨front, after, hrun, ht, hafter, fun us hline hus => ?_⟩
  have hus := hfollows [] us (by simp) hline hus
  rwa [List.nil_append, List.append_nil] at hus

/-! ## Texts -/

/-- The text starts with `export` or `import`. -/
def startsModule (text : String) : Bool := lineStarts "export" text || lineStarts "import" text

theorem Lexeme.exists_read_of_isName {word : List Char} (h : isName word) (rest : List Char) :
    ∃ text ls, read (word ++ rest) = ⟨.token .ident, text⟩ :: ls ∧ word <+: text := by
  cases word with
  | nil => exact absurd h (by simp [isName])
  | cons c cs =>
    obtain ⟨hc, hcs⟩ := Bool.and_eq_true_iff.1 h
    have hclassify : classify c (cs ++ rest) =
        (.token .ident, runLength isIdentRest (cs ++ rest)) := classify_of_isIdentStart hc _
    have hlength : cs.length ≤ runLength isIdentRest (cs ++ rest) := by
      rw [runLength, List.takeWhile_append_of_pos (List.all_eq_true.1 hcs), List.length_append]
      exact Nat.le_add_right _ _
    rw [List.cons_append, read_cons, hclassify]
    exact ⟨_, _, rfl, List.cons_prefix_cons.2
      ⟨rfl, List.prefix_take_iff.2 ⟨List.prefix_append _ _, hlength⟩⟩⟩

/-- No word that goes on a statement starts with `export` or `import`. -/
theorem not_continuationWords {text : String} (h : startsModule text) :
    continuationWords.contains text = false := by
  refine Bool.eq_false_iff.2 fun hmem => ?_
  have hnone : ∀ word ∈ continuationWords, startsModule word = false := by decide
  exact absurd h (by simp [hnone text (List.contains_iff_mem.1 hmem)])

/-- It starts with a name that goes on no statement. -/
theorem exists_tokenize_of_startsModule {text : String} (h : startsModule text) :
    ∃ t ts, tokenize text = t :: ts ∧ t.isTrivia = false ∧ t.continuesLine = false := by
  have hread : ∀ {word : String}, Lexeme.isName word.toList → lineStarts word text →
      ∃ name ls, Lexeme.read text.toList = ⟨.token .ident, name⟩ :: ls ∧
        lineStarts word (String.ofList name) := by
    intro word hname hstarts
    obtain ⟨rest, hrest⟩ := List.isPrefixOf_iff_prefix.1 hstarts
    obtain ⟨name, ls, htokens, hword⟩ := Lexeme.exists_read_of_isName hname rest
    rw [← hrest]
    exact ⟨name, ls, htokens,
      List.isPrefixOf_iff_prefix.2 (by rw [String.toList_ofList]; exact hword)⟩
  obtain ⟨name, ls, htokens, hname⟩ : ∃ name ls,
      Lexeme.read text.toList = ⟨.token .ident, name⟩ :: ls ∧ startsModule (String.ofList name) := by
    rcases Bool.or_eq_true_iff.1 h with hword | hword
    · obtain ⟨name, ls, htokens, hstarts⟩ := hread (by decide) hword
      exact ⟨name, ls, htokens, Bool.or_eq_true_iff.2 (Or.inl hstarts)⟩
    · obtain ⟨name, ls, htokens, hstarts⟩ := hread (by decide) hword
      exact ⟨name, ls, htokens, Bool.or_eq_true_iff.2 (Or.inr hstarts)⟩
  refine ⟨⟨.ident, "", String.ofList name⟩, Lexeme.tokensAfter [] ls, ?_, rfl, ?_⟩
  · rw [tokenize, htokens]
    rfl
  · exact not_continuationWords hname

/-- The documentation comment below the line that the last significant token of a text is on. -/
def docBelow (text : String) : Option String :=
  lastDoc? (belowLine ((tokenize text).reverse.takeWhile Token.isTrivia).reverse)

theorem docBelow_eq {text : String} (htext : tokenize text = front ++ t :: after)
    (ht : t.isTrivia = false) (hafter : ∀ u ∈ after, u.isTrivia) :
    docBelow text = lastDoc? (belowLine after) := by
  have hall : ∀ u ∈ after.reverse, u.isTrivia := fun u hu => hafter u (List.mem_reverse.1 hu)
  rw [docBelow, htext, List.reverse_append, List.reverse_cons, List.append_assoc,
    List.takeWhile_append_of_pos hall, List.singleton_append,
    List.takeWhile_cons_of_neg (by simp [ht]), List.append_nil, List.reverse_reverse]

/-- The text is one statement, whose last token is `last` and stands outside brackets. -/
structure IsStatement (text : String) (s : Statement) (last : Token) : Prop where
  scan : scan text = [s]
  last : s.tokens.getLast? = some last
  depth : bracketDepth 0 s.tokens = 0

/-- **A newline ends a finished statement.** Below a text that is one statement, leaves no comment or
template open, and ends with a token that can end a line, a text that starts with `export` or
`import` is split as it is alone. Its first statement has the documentation comment that stands below
the statement above, if there is one. -/
theorem scan_below_finished {a b : String} (ha : IsStatement a s t) (hend : endsLine t.kind)
    (hended : Lexeme.isEnded a.toList) (hb : startsModule b) :
    scan (a ++ "\n" ++ b) = s :: documented (docBelow a) (scan b) := by
  obtain ⟨front, after, hrun, ht, hafter, hfollows⟩ :=
    splitStatements_finished ha.scan ha.last hend ha.depth
  obtain ⟨g, hline⟩ := tokenize_line hended b
  obtain ⟨first, us, hfirst, hsignificant, hstarts⟩ := exists_tokenize_of_startsModule hb
  have hnewline : ∀ u ∈ [(⟨.newline, g, "\n"⟩ : Token)], u.isTrivia :=
    fun u hu => List.mem_singleton.1 hu ▸ isTrivia_of_newline rfl
  have hus : continues (⟨.newline, g, "\n"⟩ :: tokenize b) = false := by
    rw [← List.singleton_append, continues_append_of_trivia hnewline, hfirst, continues,
      nextSignificant?, List.find?_cons_of_pos (by simp [hsignificant])]
    exact hstarts
  have hpassed := splitFrom_between hnewline (docBelow a) (tokenize b)
  have hnodoc : lastDoc? [(⟨.newline, g, "\n"⟩ : Token)] = none := rfl
  rw [hnodoc, Option.none_or, List.singleton_append, hfirst,
    splitFrom_pending hsignificant, ← hfirst] at hpassed
  rw [scan, hline, hfollows _ rfl hus, ← docBelow_eq hrun ht hafter, hpassed]
  rfl

/-- A statement of two lines, with documentation of what is below. -/
def documentingScript : String := "let a = (b) // c\n  .d<E>\n\n/** f */"

theorem scan_below_documentingScript :
    IsStatement documentingScript ⟨tokenize "let a = (b) // c\n  .d<E>", none⟩ ⟨.greater, "", ">"⟩ ∧
      Lexeme.isEnded documentingScript.toList ∧
      scan (documentingScript ++ "\n" ++ "export { a }\nb") =
        [⟨tokenize "let a = (b) // c\n  .d<E>", none⟩, ⟨tokenize "export { a }", some "/** f */"⟩,
          ⟨tokenize "b", none⟩] := by
  have ha : IsStatement documentingScript ⟨tokenize "let a = (b) // c\n  .d<E>", none⟩
      ⟨.greater, "", ">"⟩ := by
    constructor
    all_goals
      try unfold scan documentingScript
      repeat rw [tokenize_ofList]
      decide +kernel
  have hended : Lexeme.isEnded documentingScript.toList := by
    rw [documentingScript, String.toList_ofList]
    decide +kernel
  refine ⟨ha, hended, ?_⟩
  rw [scan_below_finished ha rfl hended (by decide)]
  unfold docBelow scan documentingScript
  repeat rw [tokenize_ofList]
  decide +kernel

/-- The text is one statement with such a last token, and what is below it is not split as it is
alone. -/
def Overruns (last : Token → Bool) (a b : String) : Prop :=
  ∃ s t, IsStatement a s t ∧ last t ∧ startsModule b ∧ scan (a ++ "\n" ++ b) ≠ s :: scan b

/-- What is below a comment or template that is left open is in it, and documentation goes with what
is below it. A line that ends with an operator goes on. -/
theorem overruns_scripts :
    Overruns (·.kind = .ident) "a /* b" "export default a" ∧
      Overruns (·.kind = .ident) "a `b" "export default a" ∧
      Overruns (·.kind = .ident) "a\n/** b */" "export default a" ∧
      Overruns (·.isOperator "!") "let a = b!" "export default a" ∧
      Overruns (·.isOperator "++") "a++" "export default a" := by
  refine ⟨⟨⟨tokenize "a", none⟩, ⟨.ident, "", "a"⟩, ⟨?_, ?_, ?_⟩, rfl, ?_, ?_⟩,
    ⟨⟨tokenize "a", none⟩, ⟨.ident, "", "a"⟩, ⟨?_, ?_, ?_⟩, rfl, ?_, ?_⟩,
    ⟨⟨tokenize "a", none⟩, ⟨.ident, "", "a"⟩, ⟨?_, ?_, ?_⟩, rfl, ?_, ?_⟩,
    ⟨⟨tokenize "let a = b!", none⟩, ⟨.operator, "", "!"⟩, ⟨?_, ?_, ?_⟩, rfl, ?_, ?_⟩,
    ⟨⟨tokenize "a++", none⟩, ⟨.operator, "", "++"⟩, ⟨?_, ?_, ?_⟩, rfl, ?_, ?_⟩⟩ <;> decide +kernel

end SvelteTypings.Script
