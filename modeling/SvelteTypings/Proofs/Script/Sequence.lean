import SvelteTypings.Proofs.Script.Lexing
import SvelteTypings.Proofs.Script.Splitting

/-!
# Scripts below each other

A script that ends with a `;` outside brackets, and at most line comments and a newline after it,
can have any text below it. The tokens of the two together are those of the one and then those of
the other (`tokenize_append`), and so are the statements (`scan_append`), each of them moved down by
as much as stands above (`placedScan_append`).
-/

namespace SvelteTypings.Script

variable {a : String} {t u : Token} {ts us before after : List Token} {p : Draft}

/-! ## Tokens -/

theorem Lexeme.tokensAfter_concat (gap : List Char) (ls : List Lexeme) (kind : Kind)
    (text : List Char) (ls' : List Lexeme) :
    tokensAfter gap (ls ++ [⟨.token kind, text⟩] ++ ls') =
      tokensAfter gap (ls ++ [⟨.token kind, text⟩]) ++ tokensAfter [] ls' := by
  induction ls generalizing gap with
  | nil => rfl
  | cons l ls ih =>
    obtain ⟨cls, x⟩ := l
    cases cls with
    | token k => exact congrArg (_ :: ·) (ih [])
    | blank => exact ih (gap ++ x)
    | stray => exact ih (gap ++ x)

/-- The text ends in a newline that is read as one. -/
def endsInNewline (a : String) : Bool :=
  (Lexeme.read a.toList).getLast? = some ⟨.token .newline, ['\n']⟩

theorem exists_read_of_newline (h : endsInNewline a) :
    ∃ ls, Lexeme.read a.toList = ls ++ [⟨.token .newline, ['\n']⟩] ∧
      a.toList = ls.flatMap Lexeme.text ++ ['\n'] := by
  obtain ⟨ls, hls⟩ := List.getLast?_eq_some_iff.1 (of_decide_eq_true h)
  have htext := Lexeme.flatMap_text_read a.toList
  rw [hls, List.flatMap_append, List.flatMap_cons, List.flatMap_nil, List.append_nil] at htext
  exact ⟨ls, hls, htext.symm⟩

theorem tokenize_append (h : endsInNewline a) (b : String) :
    tokenize (a ++ b) = tokenize a ++ tokenize b := by
  obtain ⟨ls, hls, -⟩ := exists_read_of_newline h
  rw [tokenize, tokenize, tokenize, String.toList_append, Lexeme.read_append (of_decide_eq_true h),
    hls, Lexeme.tokensAfter_concat]

theorem join_spaced_tokenize (h : endsInNewline a) :
    String.join ((tokenize a).map Token.spaced) = a := by
  obtain ⟨ls, hls, htext⟩ := exists_read_of_newline h
  rw [tokenize, hls, Lexeme.join_spaced, List.nil_append, ← htext, String.ofList_toList]

/-! ## Places

What a token is and where it stands are told by the token with all the text in front of it. -/

namespace Token

/-- The token with a text above. -/
def below (above : String) (t : Token) : Token := { t with gap := above ++ t.gap }

/-- Tokens that follow each other below a text, each with all the text in front of it. -/
def placed (above : String) : List Token → List Token
  | [] => []
  | t :: ts => t.below above :: placed (above ++ t.spaced) ts

/-- The place of a token that has all the text in front of it. -/
def place (t : Token) : Nat × Nat :=
  (t.gap.utf8ByteSize, t.gap.utf8ByteSize + t.text.utf8ByteSize)

theorem placed_append (above : String) (ts us : List Token) :
    placed above (ts ++ us) =
      placed above ts ++ placed (above ++ String.join (ts.map spaced)) us := by
  induction ts generalizing above with
  | nil => simp [placed]
  | cons t ts ih => simp [placed, ih, String.append_assoc]

theorem placed_eq_map (above more : String) (ts : List Token) :
    placed (above ++ more) ts = (placed more ts).map (below above) := by
  induction ts generalizing more with
  | nil => rfl
  | cons t ts ih =>
    rw [placed, placed, List.map_cons, String.append_assoc, ih]
    simp [below, String.append_assoc]

theorem placesFrom_eq (above : String) (ts : List Token) :
    placesFrom above.utf8ByteSize ts = (placed above ts).map place := by
  induction ts generalizing above with
  | nil => rfl
  | cons t ts ih =>
    have hrest := ih (above ++ t.spaced)
    rw [spaced, ← String.append_assoc, String.utf8ByteSize_append,
      String.utf8ByteSize_append] at hrest
    rw [placesFrom, placed, List.map_cons, hrest]
    simp [place, below, spaced, String.append_assoc]

theorem places_eq (ts : List Token) : places ts = (placed "" ts).map place :=
  placesFrom_eq "" ts

end Token

/-- A place below a text of so many bytes. -/
def placeBelow (size : Nat) (place : Nat × Nat) : Nat × Nat := (size + place.1, size + place.2)

theorem place_below (above : String) (t : Token) :
    (t.below above).place = placeBelow above.utf8ByteSize t.place := by
  simp [Token.place, Token.below, placeBelow, Nat.add_assoc]

theorem placed_tokenize_append (h : endsInNewline a) (b : String) :
    Token.placed "" (tokenize (a ++ b)) =
      Token.placed "" (tokenize a) ++ (Token.placed "" (tokenize b)).map (Token.below a) := by
  rw [tokenize_append h, Token.placed_append, join_spaced_tokenize h, String.empty_append,
    ← Token.placed_eq_map, String.append_empty]

theorem places_tokenize_append (h : endsInNewline a) (b : String) :
    Token.places (tokenize (a ++ b)) =
      Token.places (tokenize a) ++ (Token.places (tokenize b)).map (placeBelow a.utf8ByteSize) := by
  simp only [Token.places_eq, placed_tokenize_append h, List.map_append, List.map_map]
  congr 2
  exact funext fun t => place_below a t

/-! ## Splitting without regard to gaps -/

section Map

variable {f : Token → Token}

/-- Kinds and texts stay as they are. -/
def KeepsTokens (f : Token → Token) : Prop := ∀ t, (f t).kind = t.kind ∧ (f t).text = t.text

def Statement.map (f : Token → Token) (s : Statement) : Statement :=
  { s with tokens := s.tokens.map f }

def Draft.map (f : Token → Token) (p : Draft) : Draft := { p with taken := p.taken.map f }

theorem keepsTokens_below (above : String) : KeepsTokens (Token.below above) := fun _ => ⟨rfl, rfl⟩

namespace KeepsTokens

theorem isTrivia (hf : KeepsTokens f) (t : Token) : (f t).isTrivia = t.isTrivia := by
  rw [Token.isTrivia, (hf t).1, Token.isTrivia]

theorem isTrivia_comp (hf : KeepsTokens f) : Token.isTrivia ∘ f = Token.isTrivia :=
  funext hf.isTrivia

theorem find?_map (hf : KeepsTokens f) (ts : List Token) :
    (ts.map f).find? (!·.isTrivia) = (ts.find? (!·.isTrivia)).map f := by
  have hcomp : (fun t : Token => !t.isTrivia) ∘ f = fun t => !t.isTrivia :=
    funext fun t => congrArg _ (hf.isTrivia t)
  rw [List.find?_map, hcomp]

theorem continues_map (hf : KeepsTokens f) (ts : List Token) :
    continues (ts.map f) = continues ts := by
  have hline : ∀ t : Token, (f t).continuesLine = t.continuesLine := fun t => by
    rw [Token.continuesLine, (hf t).1, (hf t).2, Token.continuesLine]
  rw [continues, continues, nextSignificant?, nextSignificant?, hf.find?_map]
  cases ts.find? fun t => !t.isTrivia <;> simp [hline]

theorem mayEnd_map (hf : KeepsTokens f) (p : Draft) : (p.map f).mayEnd = p.mayEnd := by
  rw [Draft.mayEnd, Draft.mayEnd, Draft.map, hf.find?_map]
  cases p.taken.find? fun t => !t.isTrivia <;> simp [(hf _).1]

theorem isDoc_eq (hf : KeepsTokens f) (t : Token) : isDoc (f t) = isDoc t := by
  rw [isDoc, (hf t).1, (hf t).2, isDoc]

theorem finish_map (hf : KeepsTokens f) (p : Draft) :
    (p.map f).finish = p.finish.map (Statement.map f) := by
  have hdrop : (p.map f).taken.dropWhile Token.isTrivia =
      (p.taken.dropWhile Token.isTrivia).map f := by
    rw [Draft.map, List.dropWhile_map, hf.isTrivia_comp]
  rw [Draft.finish, Draft.finish, hdrop]
  cases p.taken.dropWhile Token.isTrivia <;> simp [Statement.map, Draft.map]

theorem take_map (hf : KeepsTokens f) (p : Draft) (t : Token) :
    (p.map f).take (f t) = (p.take t).map f := by
  obtain ⟨taken, depth, doc, pending⟩ := p
  cases taken <;> simp [Draft.take, Draft.map, (hf t).1]

theorem next_map (hf : KeepsTokens f) (p : Draft) (t : Token) (goesOn : Bool) :
    (p.map f).next (f t) goesOn =
      ((p.next t goesOn).1.map (Statement.map f), (p.next t goesOn).2.map f) := by
  have hempty : (p.map f).taken.isEmpty = p.taken.isEmpty := by simp [Draft.map]
  have hdepth : ((p.take t).map f).depth = (p.take t).depth := rfl
  rw [Draft.next, Draft.next, hempty, hf.mayEnd_map, hf.isTrivia, (hf t).1, (hf t).2, hf.isDoc_eq,
    hf.take_map, hdepth, hf.finish_map, hf.finish_map]
  split
  · split
    · rfl
    · split <;> rfl
  · split
    · split <;> rfl
    · split <;> rfl

/-- **What only moves tokens moves the statements in the same way.** -/
theorem splitFrom_map (hf : KeepsTokens f) (p : Draft) (ts : List Token) :
    splitFrom (p.map f) (ts.map f) = (splitFrom p ts).map (Statement.map f) := by
  induction ts generalizing p with
  | nil => exact hf.finish_map p
  | cons t ts ih =>
    rw [List.map_cons, splitFrom_cons, splitFrom_cons, hf.continues_map, hf.next_map, ih,
      List.map_append]

theorem splitStatements_map (hf : KeepsTokens f) (ts : List Token) :
    splitStatements (ts.map f) = (splitStatements ts).map (Statement.map f) :=
  hf.splitFrom_map .start ts

end KeepsTokens

end Map

/-! ## Statements with their places -/

/-- The statements of a script, each token with all the text in front of it. -/
def placedScan (source : String) : List Statement :=
  splitStatements (Token.placed "" (tokenize source))

/-- The token alone. -/
def Token.bare (t : Token) : Token := { t with gap := "" }

theorem keepsTokens_bare : KeepsTokens Token.bare := fun _ => ⟨rfl, rfl⟩

theorem map_bare_placed (above : String) (ts : List Token) :
    (Token.placed above ts).map Token.bare = ts.map Token.bare := by
  induction ts generalizing above with
  | nil => rfl
  | cons t ts ih =>
    rw [Token.placed, List.map_cons, List.map_cons, ih]
    rfl

/-- Statements with their places are the statements of the script. -/
theorem map_bare_placedScan (source : String) :
    (placedScan source).map (Statement.map Token.bare) =
      (scan source).map (Statement.map Token.bare) := by
  rw [placedScan, scan, ← keepsTokens_bare.splitStatements_map,
    ← keepsTokens_bare.splitStatements_map, map_bare_placed]

/-! ## Statements that a semicolon ends -/

/-- The depth after a token, as a draft counts it. -/
def bracketStep (depth : Nat) (k : Kind) : Nat :=
  if k.opens then depth + 1 else if k.closes then depth - 1 else depth

/-- The depth after a run. A closing bracket without an opening one is passed over. -/
def bracketDepth (depth : Nat) (ts : List Token) : Nat :=
  ts.foldl (fun d t => bracketStep d t.kind) depth

/-- A token that leaves no trace between statements. -/
def Kind.separates (k : Kind) : Bool := k = .newline || k = .lineComment

/-- The last token that is no newline or line comment is a `;` outside brackets. -/
def endsInSemicolon (ts : List Token) : Bool :=
  match ts.reverse.dropWhile (·.kind.separates) with
  | [] => false
  | t :: before => t.kind = .semicolon && bracketDepth 0 before.reverse = 0

theorem endsInSemicolon_iff :
    endsInSemicolon ts ↔
      ∃ before t after, ts = before ++ t :: after ∧ t.kind = .semicolon ∧
        bracketDepth 0 before = 0 ∧ ∀ u ∈ after, u.kind.separates := by
  constructor
  · intro h
    rw [endsInSemicolon] at h
    split at h
    · exact absurd h (by simp)
    · next t before hdrop =>
      obtain ⟨hkind, hdepth⟩ := by simpa using h
      refine ⟨before.reverse, t, (ts.reverse.takeWhile (·.kind.separates)).reverse, ?_, hkind, hdepth,
        fun u hu => ?_⟩
      · have hsplit := ts.reverse.takeWhile_append_dropWhile (p := (·.kind.separates))
        rw [hdrop] at hsplit
        calc ts = ts.reverse.reverse := (List.reverse_reverse ts).symm
          _ = (ts.reverse.takeWhile (·.kind.separates) ++ t :: before).reverse := by rw [hsplit]
          _ = _ := by simp
      · exact List.all_eq_true.1 List.all_takeWhile u (List.mem_reverse.1 hu)
  · -- Read backwards, what separates is dropped and the semicolon is the first that stays.
    rintro ⟨before, t, after, rfl, hkind, hdepth, hafter⟩
    have hrest : ∀ u ∈ after.reverse, u.kind.separates :=
      fun u hu => hafter u (List.mem_reverse.1 hu)
    have hdrop : (before ++ t :: after).reverse.dropWhile (·.kind.separates) =
        t :: before.reverse := by
      rw [List.reverse_append, List.reverse_cons, List.append_assoc,
        List.dropWhile_append_of_pos hrest, List.singleton_append, List.dropWhile_cons_of_neg]
      rw [hkind]
      decide
    rw [endsInSemicolon, hdrop]
    simp [hkind, hdepth]

theorem bracketDepth_map {f : Token → Token} (hf : KeepsTokens f) (depth : Nat) (ts : List Token) :
    bracketDepth depth (ts.map f) = bracketDepth depth ts := by
  rw [bracketDepth, List.foldl_map]
  simp only [(hf _).1]
  rfl

theorem Draft.depth_take_eq (p : Draft) (t : Token) :
    (p.take t).depth = bracketStep p.depth t.kind := by
  rw [Draft.take]
  split <;> rfl

theorem bracketStep_of_trivia (h : t.isTrivia) (depth : Nat) : bracketStep depth t.kind = depth := by
  rw [Token.isTrivia] at h
  cases hk : t.kind <;> rw [hk] at h <;> first | rfl | exact absurd h (by decide)

theorem Draft.depth_next (p : Draft) (t : Token) (goesOn : Bool) :
    (p.next t goesOn).2.depth = bracketStep p.depth t.kind := by
  rw [Draft.next]
  split
  · next hnewline =>
    have htrivia : t.isTrivia := by rw [Token.isTrivia, hnewline]; rfl
    rw [bracketStep_of_trivia htrivia]
    split
    · rfl
    · split <;> rfl
  · split
    · next htrivia =>
      rw [bracketStep_of_trivia htrivia.1]
      split <;> rfl
    · split <;> exact p.depth_take_eq t

/-- A comment waits for a statement only between statements. -/
def Draft.IsPrompt (p : Draft) : Prop := p.taken ≠ [] → p.pending = none

theorem Draft.isPrompt_start : Draft.start.IsPrompt := fun h => absurd rfl h

theorem Draft.isPrompt_reset (p : Draft) : p.reset.IsPrompt := fun h => absurd rfl h

theorem Draft.IsPrompt.pending_take (hp : p.IsPrompt) (t : Token) : (p.take t).pending = none := by
  rw [Draft.take]
  split
  · rfl
  · next htaken => exact hp (by simpa using htaken)

theorem Draft.IsPrompt.next (hp : p.IsPrompt) (t : Token) (goesOn : Bool) :
    (p.next t goesOn).2.IsPrompt := by
  rw [Draft.next]
  split
  · split
    · exact hp
    · next htaken =>
      split
      · exact p.isPrompt_reset
      · exact fun _ => hp (by simpa using htaken)
  · split
    · next hbetween =>
      split
      · exact fun htaken => absurd hbetween.2 (by simpa using htaken)
      · exact hp
    · split
      · exact Draft.isPrompt_reset _
      · exact fun _ => hp.pending_take t

theorem Kind.separates_iff {k : Kind} : k.separates ↔ k = .newline ∨ k = .lineComment := by
  simp [Kind.separates]

/-- Between statements, what separates them leaves no trace. -/
theorem splitFrom_separators (hafter : ∀ u ∈ after, u.kind.separates) (us : List Token) :
    splitFrom .start (after ++ us) = splitFrom .start us := by
  induction after with
  | nil => rfl
  | cons u after ih =>
    obtain ⟨hu, hrest⟩ := List.forall_mem_cons.1 hafter
    have hnext : Draft.start.next u (continues (after ++ us)) = ([], .start) := by
      rcases Kind.separates_iff.1 hu with h | h <;>
        simp [Draft.next, Draft.start, Token.isTrivia, isDoc, Kind.isTrivia, h]
    rw [List.cons_append, splitFrom_cons, hnext, List.nil_append, ih hrest]

theorem isTrivia_of_semicolon (ht : t.kind = .semicolon) : t.isTrivia = false := by
  rw [Token.isTrivia, ht]
  rfl

theorem Draft.next_semicolon (hp : p.IsPrompt) (ht : t.kind = .semicolon) (hdepth : p.depth = 0)
    (goesOn : Bool) : p.next t goesOn = ((p.take t).finish, .start) := by
  have hdepth' : (p.take t).depth = 0 := by
    rw [Draft.depth_take_eq, hdepth, ht]
    rfl
  have hreset : (p.take t).reset = .start := by
    rw [Draft.reset, hp.pending_take t, hdepth']
    rfl
  rw [Draft.next, if_neg (by simp [ht]), isTrivia_of_semicolon ht, if_neg (by simp),
    if_pos ⟨ht, hdepth'⟩, hreset]

theorem splitFrom_semicolon (hp : p.IsPrompt) (hdepth : bracketDepth p.depth before = 0)
    (ht : t.kind = .semicolon) (us : List Token) :
    splitFrom p (before ++ t :: us) = splitFrom p (before ++ [t]) ++ splitFrom .start us := by
  induction before generalizing p with
  | nil =>
    have hstart : splitFrom .start [] = [] := rfl
    rw [List.nil_append, List.nil_append, splitFrom_cons, splitFrom_cons,
      Draft.next_semicolon hp ht hdepth, Draft.next_semicolon hp ht hdepth, hstart, List.append_nil]
  | cons u before ih =>
    -- the draft after `u` is the same with and without what follows the `;`
    have hrest : bracketDepth (p.next u (continues (before ++ [t]))).2.depth before = 0 := by
      rw [Draft.depth_next]
      exact hdepth
    have hcontinues : continues (before ++ [t] ++ us) = continues (before ++ [t]) :=
      continues_append_of_significant ⟨t, by simp, isTrivia_of_semicolon ht⟩ us
    rw [List.append_assoc, List.singleton_append] at hcontinues
    rw [List.cons_append, List.cons_append, splitFrom_cons, splitFrom_cons, hcontinues,
      ih (hp.next u _) hrest, List.append_assoc]

/-- **A `;` outside brackets ends everything above it.** -/
theorem splitStatements_append (h : endsInSemicolon ts) (us : List Token) :
    splitStatements (ts ++ us) = splitStatements ts ++ splitStatements us := by
  obtain ⟨before, t, after, rfl, ht, hdepth, hafter⟩ := endsInSemicolon_iff.1 h
  have hsplit := splitFrom_semicolon Draft.isPrompt_start hdepth ht
  have hnone : splitFrom .start after = [] := by
    rw [← List.append_nil after, splitFrom_separators hafter]
    rfl
  rw [splitStatements, splitStatements, splitStatements, List.append_assoc, List.cons_append,
    hsplit (after ++ us), hsplit after, splitFrom_separators hafter, hnone, List.append_nil]

/-! ## Whole scripts -/

/-- A script that leaves nothing open for what comes below. -/
structure IsConcluded (a : String) : Prop where
  newline : endsInNewline a
  semicolon : endsInSemicolon (tokenize a)

theorem endsInSemicolon_map {f : Token → Token} (hf : KeepsTokens f) (ts : List Token) :
    endsInSemicolon (ts.map f) = endsInSemicolon ts := by
  have hkind : (fun t : Token => t.kind.separates) ∘ f = fun t => t.kind.separates :=
    funext fun t => by rw [Function.comp_apply, (hf t).1]
  rw [endsInSemicolon, endsInSemicolon, ← List.map_reverse, List.dropWhile_map, hkind]
  cases ts.reverse.dropWhile fun t => t.kind.separates with
  | nil => rfl
  | cons t before =>
    simp only [List.map_cons, ← List.map_reverse, bracketDepth_map hf, (hf t).1]

theorem endsInSemicolon_placed (above : String) (ts : List Token) :
    endsInSemicolon (Token.placed above ts) = endsInSemicolon ts := by
  rw [← endsInSemicolon_map keepsTokens_bare, map_bare_placed, endsInSemicolon_map keepsTokens_bare]

theorem scan_append (h : IsConcluded a) (b : String) : scan (a ++ b) = scan a ++ scan b := by
  rw [scan, tokenize_append h.newline, splitStatements_append h.semicolon]
  rfl

theorem placedScan_append (h : IsConcluded a) (b : String) :
    placedScan (a ++ b) = placedScan a ++ (placedScan b).map (Statement.map (Token.below a)) := by
  rw [placedScan, placed_tokenize_append h.newline,
    splitStatements_append ((endsInSemicolon_placed "" _).trans h.semicolon),
    (keepsTokens_below a).splitStatements_map]
  rfl

end SvelteTypings.Script
