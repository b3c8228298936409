import Mathlib.Data.List.Forall2
import SvelteTypings.Proofs.Script.Coverage
import SvelteTypings.Proofs.Script.Indexed.Types
import SvelteTypings.Proofs.Script.Origin
import SvelteTypings.Script.Import

/-!
# Statements read by position

A script is read into tokens and split into statements, with the text of each token, and each text
of a statement, taken as a slice of the source. The statements are those of `Script.scan`, their
tokens with all the text in front of them (`scan_eq`).
-/

namespace SvelteTypings.Script.Indexed

open Outcome

variable {source : String} {ps ts : List Token} {p t : Token} {i : Nat} {s s' : Statement}
  {a b : Draft}

/-! ## Tokens -/

/-- The tokens among lexemes from a place on, each with all the text in front of it. -/
def tokensAt (source : String) (place : Nat) : List Lexeme → Outcome (List Token)
  | [] => .found []
  | l :: ls =>
    let stop := place + (String.ofList l.text).utf8ByteSize
    match l.cls with
    | .token kind => do
      let gap ← bytes source 0 place
      let text ← bytes source place stop
      let ts ← tokensAt source stop ls
      return ⟨kind, gap, text⟩ :: ts
    | _ => tokensAt source stop ls

def tokenize (source : String) : Outcome (List Token) :=
  tokensAt source 0 (Lexeme.read source.toList)

/-- **Each lexeme begins where the one in front of it ends**, which is where a character does. -/
theorem tokensAt_eq {ls : List Lexeme} {front gap : List Char}
    (h : source = String.ofList (front ++ (gap ++ ls.flatMap (·.text)))) :
    tokensAt source (String.ofList (front ++ gap)).utf8ByteSize ls =
      .found (Token.placed (String.ofList front) (Lexeme.tokensAfter gap ls)) := by
  induction ls generalizing front gap with
  | nil => rfl
  | cons l ls ih =>
    obtain ⟨cls, text⟩ := l
    have hstop : (String.ofList (front ++ gap)).utf8ByteSize + (String.ofList text).utf8ByteSize =
        (String.ofList (front ++ gap ++ text)).utf8ByteSize := by
      rw [@String.ofList_append (front ++ gap) text, String.utf8ByteSize_append]
    have hpassed : tokensAt source (String.ofList (front ++ gap ++ text)).utf8ByteSize ls =
        .found (Token.placed (String.ofList front) (Lexeme.tokensAfter (gap ++ text) ls)) := by
      rw [List.append_assoc]
      exact ih (by rw [h]; simp)
    rw [tokensAt]
    dsimp only
    rw [hstop]
    -- A token is cut out of the source; what is not one adds to the gap before the next.
    cases cls with
    | token kind =>
      have hgap : bytes source 0 (String.ofList (front ++ gap)).utf8ByteSize =
          .found (String.ofList (front ++ gap)) := by
        refine bytes_eq_found_iff.2 ⟨"", String.ofList (text ++ ls.flatMap (·.text)), ?_, rfl,
          (Nat.zero_add _).symm⟩
        rw [h, String.empty_append, ← String.ofList_append]
        simp
      have htext : bytes source (String.ofList (front ++ gap)).utf8ByteSize
          (String.ofList (front ++ gap ++ text)).utf8ByteSize = .found (String.ofList text) := by
        refine bytes_eq_found_iff.2 ⟨String.ofList (front ++ gap),
          String.ofList (ls.flatMap (·.text)), ?_, rfl, hstop.symm⟩
        rw [h, ← String.ofList_append, ← String.ofList_append]
        simp
      have hrest := @ih (front ++ gap ++ text) [] (by rw [h]; simp)
      rw [List.append_nil] at hrest
      dsimp only
      rw [hgap, found_bind, htext, found_bind, hrest]
      simp [Lexeme.tokensAfter, Token.placed, Token.below, Token.spaced]
      rfl
    | blank => exact hpassed
    | stray => exact hpassed

theorem tokenize_eq (source : String) :
    tokenize source = .found (Token.placed "" (Script.tokenize source)) :=
  @tokensAt_eq source (Lexeme.read source.toList) [] [] (by
    rw [List.nil_append, List.nil_append, Lexeme.flatMap_text_read, String.ofList_toList])

theorem Cut.exists_join {ts : List Token} {cs : List Char} (h : Cut ts cs) :
    ∃ below, String.ofList cs = String.join (ts.map Token.spaced) ++ below := by
  induction h with
  | tail => exact ⟨_, by rw [List.map_nil, String.join_nil, String.empty_append]⟩
  | token _ _ _ _ ih =>
    obtain ⟨below, hbelow⟩ := ih
    refine ⟨below, ?_⟩
    rw [String.ofList_append, String.ofList_append, hbelow, String.ofList_toList,
      String.ofList_toList, List.map_cons, String.join_cons, Token.spaced]
    simp only [String.append_assoc]

theorem placedIn_tokenize (source : String) :
    PlacedIn source (Token.placed "" (Script.tokenize source)) (Script.tokenize source) := by
  obtain ⟨below, hbelow⟩ := Cut.exists_join (cut_tokenize source)
  refine ⟨⟨"", below, ?_, rfl⟩, (cut_tokenize source).text_ne_empty⟩
  rw [String.empty_append, ← hbelow, String.ofList_toList]

/-! ## Splitting -/

/-- Splits the rest of a run, which starts at a position. What comes after a token is a slice. -/
def splitFrom (run : List Token) (p : Draft) (i : Nat) : List Token → Outcome (List Statement)
  | [] => .found p.finish
  | t :: ts => do
    let rest ← tokensFrom run (i + 1)
    let more ← splitFrom run (p.next t (continues rest)).2 (i + 1) ts
    return (p.next t (continues rest)).1 ++ more

def splitStatements (ts : List Token) : Outcome (List Statement) := splitFrom ts .start 0 ts

theorem splitFrom_eq {run : List Token} (h : run.drop i = ts) (a : Draft) :
    splitFrom run a i ts = .found (Script.splitFrom a ts) := by
  induction ts generalizing i a with
  | nil => rfl
  | cons t ts ih =>
    have hi : i < run.length := by
      have hlength := congrArg List.length h
      rw [List.length_drop, List.length_cons] at hlength
      omega
    have hrest : run.drop (i + 1) = ts := by rw [← List.tail_drop, h, List.tail_cons]
    have hslice : tokensFrom run (i + 1) = .found ts := by
      rw [tokensFrom, tokens, if_pos ⟨hi, Nat.le_refl _⟩, List.take_length, hrest]
    rw [splitFrom, hslice, found_bind, ih hrest, splitFrom_cons]
    rfl

theorem splitStatements_eq (ts : List Token) :
    splitStatements ts = .found (Script.splitStatements ts) :=
  splitFrom_eq List.drop_zero .start

/-- A statement whose tokens have all the text in front of them, and the same without. -/
structure SameStatement (source : String) (s' s : Statement) : Prop where
  tokens : PlacedIn source s'.tokens s.tokens
  doc : s'.doc = s.doc

/-- Drafts of the same statement, with what comes after them. -/
structure SameDraft (source : String) (a b : Draft) (ps ts : List Token) : Prop where
  tokens : PlacedIn source (a.taken.reverse ++ ps) (b.taken.reverse ++ ts)
  length : a.taken.length = b.taken.length
  depth : a.depth = b.depth
  doc : a.doc = b.doc
  pending : a.pending = b.pending

namespace SameDraft

variable (h : SameDraft source a b (p :: ps) (t :: ts))

theorem parts {ps ts : List Token} (h : SameDraft source a b ps ts) :
    PlacedIn source a.taken.reverse b.taken.reverse ∧ PlacedIn source ps ts := by
  have hlength : a.taken.reverse.length = b.taken.reverse.length := by simpa using h.length
  have htake := h.tokens.take b.taken.reverse.length
  have hdrop := h.tokens.drop b.taken.reverse.length
  rw [List.take_left' hlength, List.take_left' rfl] at htake
  rw [List.drop_left' hlength, List.drop_left' rfl] at hdrop
  exact ⟨htake, hdrop⟩

theorem map_bare_taken {ps ts : List Token} (h : SameDraft source a b ps ts) :
    a.taken.map Token.bare = b.taken.map Token.bare := by
  have hreverse := h.parts.1.map_bare
  rw [List.map_reverse, List.map_reverse, List.reverse_inj] at hreverse
  exact hreverse

theorem map_bare {ps ts : List Token} (h : SameDraft source a b ps ts) :
    a.map Token.bare = b.map Token.bare := by
  obtain ⟨-, -, hdepth, hdoc, hpending⟩ := id h
  have htaken := h.map_bare_taken
  obtain ⟨taken, depth, doc, pending⟩ := a
  obtain ⟨taken', depth', doc', pending'⟩ := b
  simp only [Draft.map] at *
  rw [htaken, hdepth, hdoc, hpending]

theorem mayEnd {ps ts : List Token} (h : SameDraft source a b ps ts) : a.mayEnd = b.mayEnd := by
  rw [← keepsTokens_bare.mayEnd_map a, h.map_bare, keepsTokens_bare.mayEnd_map]

theorem isEmpty {ps ts : List Token} (h : SameDraft source a b ps ts) :
    a.taken.isEmpty = b.taken.isEmpty := by
  rw [Bool.eq_iff_iff, List.isEmpty_iff_length_eq_zero, List.isEmpty_iff_length_eq_zero, h.length]

/-- A statement is finished, and nothing has been read of the next one. -/
theorem reset {ps ts us vs : List Token} (h : SameDraft source a b us vs)
    (hplaced : PlacedIn source ps ts) : SameDraft source a.reset b.reset ps ts :=
  ⟨hplaced, rfl, h.depth, rfl, h.pending⟩

/-- The statements that are finished are the same. -/
theorem finish {ps ts : List Token} (h : SameDraft source a b ps ts) :
    List.Forall₂ (SameStatement source) a.finish b.finish := by
  -- The draft is kept backwards; without its trailing trivia it is a prefix of the tokens.
  have hreverse : ∀ us : List Token, (us.dropWhile Token.isTrivia).reverse =
      us.reverse.take (us.length - (us.takeWhile Token.isTrivia).length) := fun us => by
    have hsplit := us.takeWhile_append_dropWhile (p := Token.isTrivia)
    have hlength := congrArg List.length hsplit
    rw [List.length_append] at hlength
    conv_rhs => rw [← hsplit, List.reverse_append, hsplit]
    exact (List.take_left' (by rw [List.length_reverse]; omega)).symm
  have hcount : (a.taken.takeWhile Token.isTrivia).length = (b.taken.takeWhile Token.isTrivia).length := by
    have hmap : ∀ us : List Token, (us.takeWhile Token.isTrivia).length =
        ((us.map Token.bare).takeWhile Token.isTrivia).length := fun us => by
      rw [List.takeWhile_map, keepsTokens_bare.isTrivia_comp, List.length_map]
    rw [hmap, h.map_bare_taken, ← hmap]
  have hplaced : PlacedIn source (a.taken.dropWhile Token.isTrivia).reverse
      (b.taken.dropWhile Token.isTrivia).reverse := by
    rw [hreverse, hreverse, hcount, h.length]
    exact h.parts.1.take _
  rw [Draft.finish, Draft.finish]
  rcases hb : b.taken.dropWhile Token.isTrivia with _ | ⟨u, us⟩
  · have ha : a.taken.dropWhile Token.isTrivia = [] := by
      rw [← List.reverse_eq_nil_iff, hplaced.nil_iff, hb, List.reverse_nil]
    rw [ha]
    exact .nil
  · have ha : a.taken.dropWhile Token.isTrivia ≠ [] := fun hnil => by
      rw [← List.reverse_eq_nil_iff, hplaced.nil_iff, hb] at hnil
      exact absurd hnil (by simp)
    obtain ⟨q, qs, ha⟩ := List.exists_cons_of_ne_nil ha
    rw [ha, hb] at hplaced
    rw [ha]
    exact .cons ⟨hplaced, h.doc⟩ .nil

include h

theorem head : SameToken p t := by
  have hbare := h.parts.2.map_bare
  exact (List.cons.inj hbare).1

theorem tail : PlacedIn source ps ts := h.parts.2.drop 1

theorem push : SameDraft source (a.push p) (b.push t) ps ts := by
  refine ⟨?_, congrArg (· + 1) h.length, h.depth, h.doc, h.pending⟩
  have htokens := h.tokens
  simpa [Draft.push] using htokens

theorem take : SameDraft source (a.take p) (b.take t) ps ts := by
  have hbare : (a.take p).map Token.bare = (b.take t).map Token.bare := by
    rw [← keepsTokens_bare.take_map, ← keepsTokens_bare.take_map, h.map_bare,
      show p.bare = t.bare from h.head]
  obtain ⟨-, hdepth, hdoc, hpending⟩ := Draft.mk.inj hbare
  refine ⟨?_, ?_, hdepth, hdoc, hpending⟩
  · rw [Draft.taken_take, Draft.taken_take]
    simpa using h.tokens
  · rw [Draft.taken_take, Draft.taken_take]
    exact congrArg (· + 1) h.length

/-- **What one token does to drafts of the same statement.** -/
theorem next (goesOn : Bool) :
    List.Forall₂ (SameStatement source) (a.next p goesOn).1 (b.next t goesOn).1 ∧
      SameDraft source (a.next p goesOn).2 (b.next t goesOn).2 ps ts := by
  have hkind := h.head.kind
  have htrivia : p.isTrivia = t.isTrivia := by rw [Token.isTrivia, hkind, Token.isTrivia]
  have hdoc : isDoc p = isDoc t := by rw [isDoc, isDoc, hkind, h.head.text]
  have hstay : a.taken.isEmpty = true → SameDraft source a b ps ts := fun hempty => by
    have hempty' := h.isEmpty ▸ hempty
    rw [List.isEmpty_iff] at hempty hempty'
    refine ⟨?_, h.length, h.depth, h.doc, h.pending⟩
    simpa [hempty, hempty'] using h.tail
  rw [Draft.next, Draft.next, hkind, h.isEmpty, h.mayEnd, htrivia, hdoc, h.head.text, h.take.depth]
  split
  · split
    · next hempty => exact ⟨.nil, hstay (h.isEmpty ▸ hempty)⟩
    · split
      · exact ⟨h.finish, h.reset h.tail⟩
      · exact ⟨.nil, h.push⟩
  · split
    · next hpassed =>
      have hpassed := hstay (h.isEmpty ▸ hpassed.2)
      refine ⟨.nil, ?_⟩
      dsimp only
      split
      · exact ⟨hpassed.tokens, hpassed.length, hpassed.depth, hpassed.doc, rfl⟩
      · exact hpassed
    · split
      · exact ⟨h.take.finish, h.take.reset h.tail⟩
      · exact ⟨.nil, h.take⟩

end SameDraft

theorem forall₂_splitFrom (h : SameDraft source a b ps ts) :
    List.Forall₂ (SameStatement source) (Script.splitFrom a ps) (Script.splitFrom b ts) := by
  induction ts generalizing a b ps with
  | nil =>
    obtain rfl : ps = [] := h.parts.2.nil_iff.2 rfl
    rw [splitFrom_nil, splitFrom_nil]
    exact h.finish
  | cons t ts ih =>
    obtain ⟨p, ps, rfl, -, -⟩ := List.map_eq_cons_iff.1 (h.parts.2.map_bare.trans List.map_cons)
    have hgoesOn : continues ps = continues ts := by
      rw [← keepsTokens_bare.continues_map ps, h.tail.map_bare, keepsTokens_bare.continues_map]
    obtain ⟨hended, hnext⟩ := h.next (continues ts)
    rw [splitFrom_cons, splitFrom_cons, hgoesOn]
    exact List.rel_append hended (ih hnext)

/-- **Runs of the same tokens are split into the same statements**, each where it stands. -/
theorem PlacedIn.splitStatements (h : PlacedIn source ps ts) :
    List.Forall₂ (SameStatement source) (Script.splitStatements ps) (Script.splitStatements ts) :=
  forall₂_splitFrom ⟨h, rfl, rfl, rfl, rfl⟩

def scan (source : String) : Outcome (List Statement) := do
  let ts ← tokenize source
  splitStatements ts

theorem scan_eq (source : String) : scan source = .found (placedScan source) := by
  rw [scan, tokenize_eq, found_bind, splitStatements_eq]
  rfl

theorem forall₂_placedScan (source : String) :
    List.Forall₂ (SameStatement source) (placedScan source) (Script.scan source) :=
  (placedIn_tokenize source).splitStatements

/-! ## Texts of statements -/

/-- The tokens without newlines and comments. -/
def significant (s : Statement) : List Token := s.tokens.filter fun t => !t.isTrivia

/-- The text of a statement. -/
def text (source : String) (s : Statement) : Outcome String := do
  match s.tokens.head?, s.tokens.getLast? with
  | some first, some last => bytes source first.place.1 last.place.2
  | _, _ => return ""

/-- The text from a token to the end of a statement. -/
def textFrom (source : String) (s : Statement) (first : Token) : Outcome String :=
  bytes source first.place.1 (s.tokens.getLast?.getD first).place.2

theorem placed_significantAfter (above gap : String) (ts : List Token) :
    (Token.placed (above ++ gap) ts).filter (fun t => !t.isTrivia) =
      Token.placed above (Token.significantAfter gap ts) := by
  induction ts generalizing above gap with
  | nil => rfl
  | cons t ts ih =>
    rw [Token.placed, Token.significantAfter]
    have hbelow : (t.below (above ++ gap)).isTrivia = t.isTrivia := rfl
    by_cases ht : t.isTrivia
    · rw [List.filter_cons_of_neg (by simp [hbelow, ht]), if_pos ht, String.append_assoc, ih]
    · have hrest := ih (above ++ (gap ++ t.spaced)) ""
      rw [String.append_empty] at hrest
      rw [List.filter_cons_of_pos (by simp [hbelow, ht]), if_neg ht, Token.placed,
        String.append_assoc, hrest]
      simp [Token.below, Token.spaced, String.append_assoc]

theorem exists_join_significantAfter (gap : String) (ts : List Token) :
    ∃ behind, gap ++ String.join (ts.map Token.spaced) =
      String.join ((Token.significantAfter gap ts).map Token.spaced) ++ behind := by
  induction ts generalizing gap with
  | nil => exact ⟨gap, by simp [Token.significantAfter]⟩
  | cons t ts ih =>
    rw [Token.significantAfter, List.map_cons, String.join_cons, ← String.append_assoc]
    by_cases ht : t.isTrivia
    · rw [if_pos ht]
      exact ih (gap ++ t.spaced)
    · obtain ⟨behind, hbehind⟩ := ih ""
      rw [String.empty_append] at hbehind
      refine ⟨behind, ?_⟩
      rw [if_neg ht, hbehind, List.map_cons, String.join_cons]
      simp [Token.spaced, String.append_assoc]

/-- Newlines and comments are passed over without moving what is left. -/
theorem PlacedIn.significant (h : PlacedIn source ps ts) :
    PlacedIn source (ps.filter fun t => !t.isTrivia) (Token.significant ts) := by
  obtain ⟨above, below, hsource, rfl⟩ := h.source
  obtain ⟨behind, hbehind⟩ := exists_join_significantAfter "" ts
  refine ⟨⟨above, behind ++ below, ?_, ?_⟩, fun t ht => ?_⟩
  · rw [String.empty_append] at hbehind
    rw [hsource, hbehind, Token.significant]
    simp only [String.append_assoc]
  · have hplaced := placed_significantAfter above "" ts
    rwa [String.append_empty] at hplaced
  · obtain ⟨u, hu, -, htext⟩ := exists_mem_of_mem_significant ht
    exact htext ▸ h.text_ne u hu

namespace SameStatement

theorem significant (h : SameStatement source s' s) :
    PlacedIn source (Indexed.significant s') s.significant := h.tokens.significant

theorem text (h : SameStatement source s' s) : Indexed.text source s' = .found s.text := by
  rw [Indexed.text, Statement.text]
  have hplaced := h.tokens
  cases hts : s.tokens with
  | nil =>
    rw [hts] at hplaced
    rw [hplaced.nil_iff.2 rfl]
    rfl
  | cons t ts =>
    rw [hts] at hplaced
    obtain ⟨first, last, hfirst, hlast, hbytes, -⟩ := hplaced.bytes
    rw [hfirst, hlast]
    exact hbytes

/-- The last significant token is the last one. -/
theorem textFrom (h : SameStatement source s' s)
    (hlast : ∃ t, s'.tokens.getLast? = some t ∧ t.isTrivia = false)
    (hp : (Indexed.significant s')[i]? = some p) :
    Indexed.textFrom source s' p = .found (s.textFrom i) := by
  obtain ⟨last, hlast, hsignificant⟩ := hlast
  obtain ⟨front, hfront⟩ := List.getLast?_eq_some_iff.1 hlast
  obtain ⟨hi, rfl⟩ := List.getElem?_eq_some_iff.1 hp
  have hplaced := h.significant.drop i
  have hcons := List.drop_eq_getElem_cons hi
  cases hts : s.significant.drop i with
  | nil =>
    rw [hts] at hplaced
    exact absurd (hcons.symm.trans (hplaced.nil_iff.2 rfl)) (List.cons_ne_nil _ _)
  | cons t ts =>
    rw [hts] at hplaced
    obtain ⟨first, last', hfirst, hlast', hbytes, -⟩ := hplaced.bytes
    rw [hcons, List.head?_cons, Option.some.injEq] at hfirst
    have hend : last' = last := by
      rw [List.getLast?_drop, if_neg (by omega), Indexed.significant, hfront, List.filter_append,
        List.filter_cons_of_pos (by simp [hsignificant]), List.filter_nil, List.getLast?_concat,
        Option.some.injEq] at hlast'
      exact hlast'.symm
    rw [Indexed.textFrom, hlast, Option.getD_some, hfirst, ← hend, Statement.textFrom, hts]
    exact hbytes

end SameStatement

/-- A statement ends with a significant token. -/
theorem exists_last_of_mem_splitStatements (h : s ∈ Script.splitStatements ts) :
    ∃ t, s.tokens.getLast? = some t ∧ t.isTrivia = false := by
  obtain ⟨stretches, rest, hsplit, hcuts⟩ := exists_cutsInto ts
  rw [hsplit] at h
  obtain ⟨stretch, hstretch, rfl⟩ := List.mem_map.1 h
  exact (hcuts.cut stretch hstretch).last

/-! ## Specifiers -/

/-- The text between the quotes of a literal. -/
def unquoted (text : String) : Outcome String := bytes text 1 (text.utf8ByteSize - 1)

/-- The specifiers of the modules that the statements import or export from. -/
def specifiers (statements : List Statement) : Outcome (List String) :=
  collect (fun s => ofOption (specifierToken? s) >>= fun t => unquoted t.text) statements

/-- A string stands in quotes, which are one byte long. -/
theorem exists_quoted (h : t.IsWritten) (hkind : t.kind = .string) :
    ∃ quote run, Char.utf8Size quote = 1 ∧ t.text = String.ofList (quote :: (run ++ [quote])) := by
  obtain ⟨c, cs, n, hreads, htext⟩ := h.classifies
  rw [hkind] at hreads
  cases hreads with
  | run hr => exact absurd hr (by simp [Lexeme.runClasses])
  | literal hc hclosed =>
    have hquotes : ∀ q ∈ Lexeme.quotes, q.1.utf8Size = 1 := by decide
    obtain ⟨run, -, htake⟩ := Lexeme.exists_inside_of_closed hclosed
    exact ⟨c, run, hquotes (c, _) hc, by rw [htext, htake]⟩
  | single hc => exact absurd hc (by simp [Lexeme.singles])
  | mark hc => exact absurd hc (by simp [Lexeme.marks])

theorem unquoted_eq {text : String} {quote : Char} {run : List Char} (hquote : quote.utf8Size = 1)
    (h : text = String.ofList (quote :: (run ++ [quote]))) :
    unquoted text = .found (Script.unquoted text) := by
  have hsingle : (String.ofList [quote]).utf8ByteSize = 1 := by
    rw [utf8ByteSize_ofList_cons, hquote]
    rfl
  have hsize : text.utf8ByteSize = 1 + (String.ofList run).utf8ByteSize + 1 := by
    rw [h, utf8ByteSize_ofList_cons, hquote, String.ofList_append, String.utf8ByteSize_append,
      hsingle, Nat.add_assoc]
  have hrun : Script.unquoted text = String.ofList run := by
    rw [Script.unquoted, h, String.toList_ofList, List.drop_one, List.tail_cons,
      List.dropLast_concat]
  rw [hrun]
  refine bytes_eq_found_iff.2 ⟨String.ofList [quote], String.ofList [quote], ?_, hsingle.symm, ?_⟩
  · rw [h, ← String.ofList_append, ← String.ofList_append]
    simp
  · rw [hsize, Nat.add_sub_cancel]

theorem map_bare_afterFrom? (h : ps.map Token.bare = ts.map Token.bare) :
    (afterFrom? ps).map Token.bare = (afterFrom? ts).map Token.bare := by
  induction ts generalizing ps with
  | nil => rw [List.map_eq_nil_iff.1 h]
  | cons t ts ih =>
    obtain ⟨p, ps, rfl, hp, hps⟩ := List.map_eq_cons_iff.1 h
    have hpt : SameToken p t := hp
    cases ts with
    | nil => rw [List.map_eq_nil_iff.1 hps]; rfl
    | cons u ts =>
      obtain ⟨q, qs, rfl, hq, -⟩ := List.map_eq_cons_iff.1 hps
      have hqu : SameToken q u := hq
      rw [afterFrom?, afterFrom?, hpt.isWord, hqu.kind]
      split
      · exact congrArg some hq
      · exact ih hps

theorem kind_of_afterFrom? (h : afterFrom? ts = some t) : t ∈ ts ∧ t.kind = .string := by
  induction ts with
  | nil => exact absurd h (by simp [afterFrom?])
  | cons u ts ih =>
    cases ts with
    | nil => exact absurd h (by simp [afterFrom?])
    | cons v ts =>
      rw [afterFrom?] at h
      split at h
      · next hstring =>
        obtain rfl := Option.some.inj h
        exact ⟨by simp, hstring.2⟩
      · obtain ⟨hmem, hkind⟩ := ih h
        exact ⟨List.mem_cons_of_mem _ hmem, hkind⟩

/-- The literal that names a module is a string of the statement. -/
theorem kind_of_specifierToken? (h : specifierToken? s = some t) :
    t ∈ s.significant ∧ t.kind = .string := by
  rw [specifierToken?] at h
  cases hs : s.significant with
  | nil => exact absurd h (by simp [hs])
  | cons first rest =>
    rw [hs] at h
    dsimp only at h
    split at h
    · cases rest with
      | nil => exact absurd h (by simp)
      | cons second rest =>
        dsimp only at h
        split at h
        · next hstring =>
          obtain rfl := Option.some.inj h
          exact ⟨by simp, hstring⟩
        · exact kind_of_afterFrom? h
    · split at h
      · exact kind_of_afterFrom? h
      · exact absurd h (by simp)

theorem SameStatement.map_bare_specifierToken? (h : SameStatement source s' s) :
    (specifierToken? s').map Token.bare = (specifierToken? s).map Token.bare := by
  -- Only the gaps differ, which neither reader looks at.
  have hbare : s'.significant.map Token.bare = s.significant.map Token.bare := by
    rw [Statement.significant, Statement.significant, Token.significant, Token.significant,
      map_bare_significantAfter, map_bare_significantAfter]
    have hfilter : ∀ us : List Token, (us.filter fun t => !t.isTrivia).map Token.bare =
        (us.map Token.bare).filter fun t => !t.isTrivia := fun us => by
      rw [List.filter_map]
      rfl
    rw [hfilter, h.tokens.map_bare, ← hfilter]
  rw [specifierToken?, specifierToken?]
  cases hs : s.significant with
  | nil =>
    rw [hs] at hbare
    rw [List.map_eq_nil_iff.1 hbare]
  | cons first rest =>
    rw [hs] at hbare
    obtain ⟨p, ps, hs', hp, hps⟩ := List.map_eq_cons_iff.1 hbare
    have hfirst : SameToken p first := hp
    rw [hs'] at hbare ⊢
    dsimp only
    rw [hfirst.isWord, hfirst.isWord]
    split
    · cases rest with
      | nil => rw [List.map_eq_nil_iff.1 hps]
      | cons second rest =>
        obtain ⟨q, qs, rfl, hq, -⟩ := List.map_eq_cons_iff.1 hps
        have hsecond : SameToken q second := hq
        dsimp only
        rw [hsecond.kind]
        split
        · exact congrArg some hq
        · exact map_bare_afterFrom? hbare
    · split
      · exact map_bare_afterFrom? hbare
      · rfl

theorem isWritten_of_mem_placedScan (hs : s ∈ placedScan source) (ht : t ∈ s.significant) :
    t.IsWritten := by
  obtain ⟨u, hu, hkind, htext⟩ := exists_mem_of_mem_significant ht
  have hbare := List.mem_map_of_mem (f := Token.bare) (mem_of_mem_splitStatements hs hu)
  rw [map_bare_placed] at hbare
  obtain ⟨v, hv, hsame⟩ := List.mem_map.1 hbare
  have hsame : SameToken v u := hsame
  exact (isWritten_of_mem_tokenize hv).congr (hkind.trans hsame.kind.symm)
    (htext.trans hsame.text.symm)

/-- **Specifiers are cut out of their quotes.** -/
theorem specifiers_eq (source : String) :
    specifiers (placedScan source) = .found (Script.specifiers (Script.scan source)) := by
  have hboth := (List.forall₂_and_left _ _).2
    ⟨fun s (hs : s ∈ placedScan source) => hs, forall₂_placedScan source⟩
  refine Agrees.collect hboth fun s' s ⟨hs', h⟩ => ?_
  have hbare := h.map_bare_specifierToken?
  cases ht : specifierToken? s' with
  | none =>
    rw [ht, Option.map_none, eq_comm, Option.map_eq_none_iff] at hbare
    rw [hbare]
    exact .nothing
  | some t' =>
    rw [ht, Option.map_some, eq_comm] at hbare
    obtain ⟨t, hs, hsame⟩ := Option.map_eq_some_iff.1 hbare
    have hsame : SameToken t t' := hsame
    obtain ⟨hmem, hkind⟩ := kind_of_specifierToken? ht
    obtain ⟨quote, run, hquote, htext⟩ := exists_quoted (isWritten_of_mem_placedScan hs' hmem) hkind
    rw [hs, Option.map_some, hsame.text, ofOption, found_bind, unquoted_eq hquote htext]
    exact .found rfl

end SvelteTypings.Script.Indexed
