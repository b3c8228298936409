import Mathlib.Data.List.Chain
import SvelteTypings.Json.Comments
import SvelteTypings.Proofs.Json.Reading

/-!
# Decorated JSON

A JSON text may be decorated: with white space and comments between its tokens and at both ends, and
with a comma behind the last element of an array or an object. Such a text is a list of *parts*,
some of which are the text's own. The two passes that make a text plain are functions of its parts
(`stripComments_parts`, `dropTrailingCommas_parts`), and what they leave has the tokens of the own
parts (`tokens_parts`). So a decorated text has the value of the text it was made from
(`parseCommented?_of_decorates`), and on a JSON text both passes do nothing.
-/

namespace SvelteTypings.Json

/-! ## Parts -/

/-- A part of a decorated text. -/
inductive Part where
  /-- White space of the text itself. -/
  | space (c : Char)
  /-- A token of the text itself, with its first character and the others. -/
  | token (c : Char) (l : List Char) (t : Token)
  /-- White space that was put in. -/
  | blank (c : Char)
  /-- A line comment, without the newline that ends it. -/
  | lineComment (body : List Char)
  | blockComment (body : List Char)
  | trailingComma

namespace Part

/-- What a part is in the text that was decorated. -/
def own : Part → List Char
  | .space c => [c]
  | .token c l _ => c :: l
  | _ => []

/-- How a part is written in the decorated text. -/
def text : Part → List Char
  | .space c => [c]
  | .token c l _ => c :: l
  | .blank c => [c]
  | .lineComment body => '/' :: '/' :: body
  | .blockComment body => '/' :: '*' :: (body ++ ['*', '/'])
  | .trailingComma => [',']

/-- What is left of a part without comments. -/
def stripped : Part → List Char
  | .lineComment _ => []
  | .blockComment _ => []
  | p => p.text

/-- What is left of a part without comments and trailing commas. -/
def spaced : Part → List Char
  | .trailingComma => []
  | p => p.stripped

def token? : Part → Option Token
  | .token _ _ t => some t
  | _ => none

end Part

def ownText (ps : List Part) : List Char := ps.flatMap Part.own

def decorated (ps : List Part) : List Char := ps.flatMap Part.text

/-- The next token is a closing bracket. -/
def closesIn (ps : List Part) : Bool := (ps.filterMap Part.token?).head?.any Token.closes

/-- The parts are where they may be. `atEnd` says that the token in front may end an element. -/
inductive Placed : Bool → List Part → Prop
  | nil (atEnd : Bool) : Placed atEnd []
  | space {atEnd : Bool} {c : Char} {ps : List Part} :
    isSpace c → Placed atEnd ps → Placed atEnd (.space c :: ps)
  | blank {atEnd : Bool} {c : Char} {ps : List Part} :
    isSpace c → Placed atEnd ps → Placed atEnd (.blank c :: ps)
  /-- A newline ends a line comment, be it one of the text itself, or the end does. -/
  | lineComment {atEnd : Bool} {body : List Char} {ps : List Part} :
    '\n' ∉ body → (∀ c ∈ (decorated ps).head?, c = '\n') → Placed atEnd ps →
      Placed atEnd (.lineComment body :: ps)
  | blockComment {atEnd : Bool} {body : List Char} {ps : List Part} :
    ¬ ['*', '/'] <:+: body → Placed atEnd ps → Placed atEnd (.blockComment body :: ps)
  | trailingComma {ps : List Part} :
    closesIn ps → Placed false ps → Placed true (.trailingComma :: ps)
  | token {atEnd : Bool} {c : Char} {l : List Char} {t : Token} {ps : List Part} :
    readToken c (l ++ ownText ps) = some (t, ownText ps) → Placed t.endsValue ps →
      Placed atEnd (.token c l t :: ps)

/-- `s'` is `s` with white space, comments and trailing commas put in. -/
def Decorates (s s' : String) : Prop :=
  ∃ ps, Placed false ps ∧ ownText ps = s.toList ∧ decorated ps = s'.toList

variable {atEnd : Bool} {c : Char} {l body cs rest : List Char} {t : Token} {ts : List Token}
  {ps : List Part}

theorem isBlank_of_isSpace (h : isSpace c) : Text.isBlank c := by
  simp only [isSpace, Bool.or_eq_true, decide_eq_true_eq] at h
  rcases h with ((rfl | rfl) | rfl) | rfl <;> decide

theorem Placed.isLexeme (h : readToken c (l ++ ownText ps) = some (t, ownText ps)) :
    IsLexeme c l t ∧ ∀ r', Follows (ownText ps) r' → readToken c (l ++ r') = some (t, r') := by
  obtain ⟨l', heq, hlexeme, hread⟩ := exists_readToken h
  obtain rfl := List.append_cancel_right heq
  exact ⟨hlexeme, hread⟩

/-! ## What both passes copy -/

theorem isPlain_iff : isPlain c ↔ (c ≠ '"' ∧ c ≠ '/') ∧ c ≠ ',' := by simp [isPlain]

theorem isPlain_of_isSpace (h : isSpace c) : isPlain c := by
  have hne : ∀ d, isSpace d = false → c ≠ d := by
    rintro d hd rfl
    exact absurd h (by simp [hd])
  exact isPlain_iff.2 ⟨⟨hne '"' (by decide), hne '/' (by decide)⟩, hne ',' (by decide)⟩

/-- The pass copies plain characters, and strings, whatever is in them. -/
structure Copies (pass : Place → List Char → List Char) : Prop where
  plain : ∀ {c : Char}, isPlain c → ∀ cs, pass .text (c :: cs) = c :: pass .text cs
  opening : ∀ cs, pass .text ('"' :: cs) = '"' :: pass .string cs
  closing : ∀ cs, pass .string ('"' :: cs) = '"' :: pass .text cs
  escape : ∀ c cs, pass .string ('\\' :: c :: cs) = '\\' :: c :: pass .string cs
  char : ∀ {c : Char}, c ≠ '"' → c ≠ '\\' → ∀ cs, pass .string (c :: cs) = c :: pass .string cs

variable {pass : Place → List Char → List Char}

theorem Copies.plains (h : Copies pass) (hl : ∀ d ∈ l, isPlain d) (rest : List Char) :
    pass .text (l ++ rest) = l ++ pass .text rest := by
  induction l with
  | nil => rfl
  | cons c l ih =>
    rw [List.forall_mem_cons] at hl
    rw [List.cons_append, h.plain hl.1, ih hl.2, List.cons_append]

theorem Copies.string (h : Copies pass) (hl : IsStringEnd l) (rest : List Char) :
    pass .string (l ++ rest) = l ++ pass .text rest := by
  induction hl with
  | close => exact h.closing rest
  | escape c hl ih => rw [List.cons_append, List.cons_append, h.escape, ih]; rfl
  | char hquote hback hl ih => rw [List.cons_append, h.char hquote hback, ih, List.cons_append]

/-- A token is copied, if it is no comma that the pass takes out. -/
theorem Copies.lexeme (h : Copies pass) (hl : IsLexeme c l t)
    (hcomma : t = .comma → pass .text (',' :: rest) = ',' :: pass .text rest) :
    pass .text (c :: (l ++ rest)) = c :: (l ++ pass .text rest) := by
  cases hl with
  | comma => exact hcomma rfl
  | string s hl => rw [h.opening, h.string hl]
  | plain hc hl _ _ => exact h.plains (List.forall_mem_cons.2 ⟨hc, hl⟩) rest

/-! ## Comments -/

attribute [local simp] stripCommentsFrom

theorem stripCommentsFrom_text (hslash : c ≠ '/') (hquote : c ≠ '"') (cs : List Char) :
    stripCommentsFrom .text (c :: cs) = c :: stripCommentsFrom .text cs := by
  rw [stripCommentsFrom]
  · exact fun _ heq => absurd heq hslash
  · exact fun _ heq => absurd heq hslash
  · exact hquote

theorem copies_stripCommentsFrom : Copies stripCommentsFrom where
  plain hc := stripCommentsFrom_text (isPlain_iff.1 hc).1.2 (isPlain_iff.1 hc).1.1
  opening _ := rfl
  closing _ := rfl
  escape _ _ := by simp
  char hquote hback cs := by
    rw [stripCommentsFrom]
    · exact hback
    · exact hquote

theorem stripCommentsFrom_lineComment (h : '\n' ∉ body) (hrest : ∀ c ∈ rest.head?, c = '\n') :
    stripCommentsFrom .lineComment (body ++ rest) = stripCommentsFrom .text rest := by
  induction body with
  | nil =>
    cases rest with
    | nil => rfl
    | cons c rest =>
      obtain rfl : c = '\n' := hrest c rfl
      exact (stripCommentsFrom_text (by decide) (by decide) rest).symm
  | cons c body ih =>
    rw [List.mem_cons, not_or] at h
    rw [List.cons_append, stripCommentsFrom, ih h.2]
    exact fun heq => absurd heq.symm h.1

/-- A block comment ends at the first `*/`. After its opening, a `/` does not end it: the star of
the opening is none of its own. -/
theorem stripCommentsFrom_blockComment {star : Bool} (h : ¬ ['*', '/'] <:+: body)
    (hstar : star → body.head? ≠ some '/') (rest : List Char) :
    stripCommentsFrom (.blockComment star) (body ++ '*' :: '/' :: rest) =
      stripCommentsFrom .text rest := by
  induction body generalizing star with
  | nil =>
    rw [List.nil_append, stripCommentsFrom]
    · rfl
    · exact fun _ heq => absurd heq (by decide)
  | cons c body ih =>
    rw [List.cons_append, stripCommentsFrom]
    · refine ih (fun hmem => h (hmem.trans (List.suffix_cons c body).isInfix)) ?_
      intro hc hhead
      obtain ⟨tail, rfl⟩ := List.head?_eq_some_iff.1 hhead
      obtain rfl : c = '*' := of_decide_eq_true hc
      exact h ⟨[], tail, rfl⟩
    · intro htrue hc
      exact hstar htrue (congrArg some hc)

/-- **The first pass takes the comments out**, and leaves the newline behind a line comment. -/
theorem stripComments_parts (h : Placed atEnd ps) :
    stripCommentsFrom .text (decorated ps) = ps.flatMap Part.stripped := by
  have hcons : ∀ p ps, decorated (p :: ps) = p.text ++ decorated ps := fun _ _ => List.flatMap_cons
  -- one part at a time, whatever is left of those behind it
  induction h with
  | nil => rfl
  | space hc _ ih =>
    rw [hcons, List.flatMap_cons, ← ih]
    exact copies_stripCommentsFrom.plain (isPlain_of_isSpace hc) _
  | blank hc _ ih =>
    rw [hcons, List.flatMap_cons, ← ih]
    exact copies_stripCommentsFrom.plain (isPlain_of_isSpace hc) _
  | lineComment hbody hend _ ih =>
    rw [hcons, List.flatMap_cons, ← ih]
    exact stripCommentsFrom_lineComment hbody hend
  | @blockComment _ body ps hbody _ ih =>
    rw [hcons, List.flatMap_cons, ← ih]
    show stripCommentsFrom (.blockComment false) ((body ++ ['*', '/']) ++ decorated ps) = _
    rw [List.append_assoc]
    exact stripCommentsFrom_blockComment hbody (fun hfalse => absurd hfalse (by decide)) _
  | trailingComma _ _ ih =>
    rw [hcons, List.flatMap_cons, ← ih]
    exact stripCommentsFrom_text (by decide) (by decide) _
  | token hread _ ih =>
    rw [hcons, List.flatMap_cons, ← ih]
    apply copies_stripCommentsFrom.lexeme (Placed.isLexeme hread).1
    exact fun _ => stripCommentsFrom_text (by decide) (by decide) _

/-! ## Trailing commas -/

attribute [local simp] dropTrailingCommasFrom

theorem dropTrailingCommasFrom_text (hquote : c ≠ '"') (hcomma : c ≠ ',') (cs : List Char) :
    dropTrailingCommasFrom .text (c :: cs) = c :: dropTrailingCommasFrom .text cs := by
  rw [dropTrailingCommasFrom]
  · exact hquote
  · exact hcomma
  all_goals nofun

theorem dropTrailingCommasFrom_comma (cs : List Char) :
    dropTrailingCommasFrom .text (',' :: cs) =
      if closesNext cs then dropTrailingCommasFrom .text cs
      else ',' :: dropTrailingCommasFrom .text cs := by
  simp

theorem copies_dropTrailingCommasFrom : Copies dropTrailingCommasFrom where
  plain hc := dropTrailingCommasFrom_text (isPlain_iff.1 hc).1.1 (isPlain_iff.1 hc).2
  opening _ := by simp
  closing _ := rfl
  escape _ _ := by simp
  char hquote hback cs := by
    rw [dropTrailingCommasFrom]
    · exact hback
    · exact hquote

theorem closesNext_blank (h : Text.isBlank c) (cs : List Char) :
    closesNext (c :: cs) = closesNext cs := by
  unfold closesNext
  rw [List.dropWhile_cons_of_pos h]

theorem closesNext_of_not_blank (h : Text.isBlank c = false) (cs : List Char) :
    closesNext (c :: cs) = (c = '}' || c = ']') := by
  unfold closesNext
  rw [List.dropWhile_cons_of_neg (by simp [h]), List.head?_cons]
  split
  · next heq => simp [Option.some.inj heq]
  · next heq => simp [Option.some.inj heq]
  · next hbrace hbracket =>
    have hne : ∀ d, (some c = some d → False) → c ≠ d := fun d hd heq => hd (congrArg some heq)
    simp [hne '}' hbrace, hne ']' hbracket]

theorem IsLexeme.closesNext (h : IsLexeme c l t) (cs : List Char) :
    Json.closesNext (c :: cs) = t.closes := by
  cases h with
  | comma => exact closesNext_of_not_blank (by decide) cs
  | string s hl => exact closesNext_of_not_blank (by decide) cs
  | plain _ _ hblank hcloses => rw [hcloses, closesNext_of_not_blank hblank]

/-- The character that comes next shows whether the next token closes, where no comma is left. -/
theorem closesNext_stripped (h : Placed false ps) :
    closesNext (ps.flatMap Part.stripped) = closesIn ps := by
  generalize hend : false = atEnd at h
  induction h with
  | nil => rfl
  | space hc _ ih => exact (closesNext_blank (isBlank_of_isSpace hc) _).trans (ih hend)
  | blank hc _ ih => exact (closesNext_blank (isBlank_of_isSpace hc) _).trans (ih hend)
  | lineComment _ _ _ ih => exact ih hend
  | blockComment _ _ ih => exact ih hend
  | trailingComma => exact absurd hend (by decide)
  | token hread _ _ =>
    rw [List.flatMap_cons]
    exact (Placed.isLexeme hread).1.closesNext _

/-- A comma does not stand in front of a closing bracket. -/
def Separates (a b : Token) : Prop := a = .comma → b.closes = false

/-- **The second pass takes the trailing commas out**, and no comma that separates. -/
theorem dropTrailingCommas_parts (h : Placed atEnd ps)
    (hcommas : (ps.filterMap Part.token?).IsChain Separates) :
    dropTrailingCommasFrom .text (ps.flatMap Part.stripped) = ps.flatMap Part.spaced := by
  induction h with
  | nil => rfl
  | space hc _ ih =>
    rw [List.flatMap_cons, List.flatMap_cons, ← ih hcommas]
    exact copies_dropTrailingCommasFrom.plain (isPlain_of_isSpace hc) _
  | blank hc _ ih =>
    rw [List.flatMap_cons, List.flatMap_cons, ← ih hcommas]
    exact copies_dropTrailingCommasFrom.plain (isPlain_of_isSpace hc) _
  | lineComment _ _ _ ih => exact ih hcommas
  | blockComment _ _ ih => exact ih hcommas
  | @trailingComma ps hcloses hps ih =>
    rw [List.flatMap_cons, List.flatMap_cons, ← ih hcommas]
    show dropTrailingCommasFrom .text (',' :: ps.flatMap Part.stripped) = _
    rw [dropTrailingCommasFrom_comma, closesNext_stripped hps, if_pos hcloses]
    rfl
  | @token _ c l t ps hread hps ih =>
    obtain ⟨hhead, htail⟩ := List.isChain_cons.1 (show (t :: _).IsChain Separates from hcommas)
    rw [List.flatMap_cons, List.flatMap_cons, ← ih htail]
    apply copies_dropTrailingCommasFrom.lexeme (Placed.isLexeme hread).1
    -- a comma of the text itself stands in front of no closing bracket
    rintro rfl
    have hnot : closesIn ps = false := by
      unfold closesIn
      cases hnext : (ps.filterMap Part.token?).head? with
      | none => rfl
      | some b => exact hhead b hnext rfl
    rw [dropTrailingCommasFrom_comma, closesNext_stripped hps, hnot]
    rfl

/-! ## Tokens -/

theorem isSpace_of_isLexeme (h : IsLexeme c l t) : isSpace c = false := by
  have hblank : Text.isBlank c = false := by
    cases h with
    | comma => decide
    | string s hl => decide
    | plain _ _ hblank _ => exact hblank
  rw [← Bool.not_eq_true]
  intro hspace
  exact absurd (isBlank_of_isSpace hspace) (by simp [hblank])

theorem tokensFrom_succ (n : Nat) (h : isSpace c = false) (cs : List Char) :
    tokensFrom (n + 1) (c :: cs) =
      (readToken c cs).bind fun read => (tokensFrom n read.2).map (read.1 :: ·) := by
  rw [tokensFrom, if_neg (by simp [h])]
  cases readToken c cs with
  | none => rfl
  | some read => cases hrest : tokensFrom n read.2 <;> simp [hrest]

/-- The bound does not matter. -/
theorem tokensFrom_congr {n m : Nat} (hn : cs.length ≤ n) (hm : cs.length ≤ m) :
    tokensFrom n cs = tokensFrom m cs := by
  induction n generalizing m cs with
  | zero =>
    rw [List.length_eq_zero_iff.1 (Nat.le_zero.1 hn)]
    cases m <;> rfl
  | succ n ih =>
    cases cs with
    | nil => cases m <;> rfl
    | cons c cs =>
      rw [List.length_cons] at hn hm
      obtain ⟨m, rfl⟩ : ∃ k, m = k + 1 := ⟨m - 1, by omega⟩
      cases hc : isSpace c with
      | true =>
        rw [tokensFrom, tokensFrom, if_pos hc, if_pos hc]
        exact ih (by omega) (by omega)
      | false =>
        rw [tokensFrom_succ n hc, tokensFrom_succ m hc]
        cases hread : readToken c cs with
        | none => rfl
        | some read =>
          obtain ⟨t, rest⟩ := read
          -- what a token leaves is no longer than what stood behind its first character
          obtain ⟨l, rfl, -, -⟩ := exists_readToken hread
          rw [List.length_append] at hn hm
          show (tokensFrom n rest).map _ = (tokensFrom m rest).map _
          rw [ih (m := m) (by omega) (by omega)]

/-- The tokens of a text. -/
def tokensOf (cs : List Char) : Option (List Token) := tokensFrom cs.length cs

theorem tokensOf_spaces (h : ∀ c ∈ l, isSpace c) (cs : List Char) :
    tokensOf (l ++ cs) = tokensOf cs := by
  induction l with
  | nil => rfl
  | cons c l ih =>
    rw [List.forall_mem_cons] at h
    rw [← ih h.2]
    exact if_pos h.1

theorem tokensOf_token (hread : readToken c (l ++ rest) = some (t, rest)) (h : isSpace c = false) :
    tokensOf (c :: (l ++ rest)) = (tokensOf rest).map (t :: ·) := by
  unfold tokensOf
  rw [List.length_cons, tokensFrom_succ _ h, hread]
  show (tokensFrom _ rest).map _ = _
  rw [tokensFrom_congr (m := rest.length) (by simp) (Nat.le_refl _)]

variable {f : Part → List Char}

/-- Where white space alone is put in, each token is still followed by what may follow it. -/
theorem follows_parts (hf : ∀ p ∈ ps, f p = p.own ∨ p.own = [] ∧ ∀ c ∈ f p, isSpace c) :
    Follows (ownText ps) (ps.flatMap f) := by
  induction ps with
  | nil => exact follows_refl _
  | cons p ps ih =>
    rw [List.forall_mem_cons] at hf
    have hps := ih hf.2
    show Follows (p.own ++ ownText ps) (f p ++ ps.flatMap f)
    rcases hf.1 with heq | ⟨hnone, hspace⟩
    · rw [heq]
      exact hps.append p.own
    · rw [hnone]
      cases hp : f p with
      | nil => exact hps
      | cons c l => exact Or.inr ⟨c, rfl, hspace c (hp ▸ List.mem_cons_self)⟩

/-- **The tokens are those of the own parts**, where white space alone is put in. -/
theorem tokens_parts (h : Placed atEnd ps)
    (hf : ∀ p ∈ ps, f p = p.own ∨ p.own = [] ∧ ∀ c ∈ f p, isSpace c) :
    tokensOf (ps.flatMap f) = some (ps.filterMap Part.token?) := by
  -- A part without text of its own can only have turned into white space.
  have hadded : ∀ {p : Part} {ps : List Part}, p.own = [] → p.token? = none →
      (f p = p.own ∨ p.own = [] ∧ ∀ c ∈ f p, isSpace c) →
      tokensOf (ps.flatMap f) = some (ps.filterMap Part.token?) →
      tokensOf ((p :: ps).flatMap f) = some ((p :: ps).filterMap Part.token?) := by
    intro p ps hown htoken hp ih
    have hspace : ∀ c ∈ f p, isSpace c := by
      rcases hp with heq | ⟨-, hspace⟩
      · rw [heq, hown]
        exact List.forall_mem_nil _
      · exact hspace
    rw [List.flatMap_cons, tokensOf_spaces hspace, List.filterMap_cons_none htoken, ih]
  induction h with
  | nil => rfl
  | @space _ c ps hc _ ih =>
    rw [List.forall_mem_cons] at hf
    have hp : f (.space c) = [c] := by
      rcases hf.1 with heq | ⟨hnone, -⟩
      · exact heq
      · exact absurd hnone (by simp [Part.own])
    rw [List.flatMap_cons, hp, tokensOf_spaces (by simpa using hc), ih hf.2]
    rfl
  | blank _ _ ih =>
    rw [List.forall_mem_cons] at hf
    exact hadded rfl rfl hf.1 (ih hf.2)
  | lineComment _ _ _ ih =>
    rw [List.forall_mem_cons] at hf
    exact hadded rfl rfl hf.1 (ih hf.2)
  | blockComment _ _ ih =>
    rw [List.forall_mem_cons] at hf
    exact hadded rfl rfl hf.1 (ih hf.2)
  | trailingComma _ _ ih =>
    rw [List.forall_mem_cons] at hf
    exact hadded rfl rfl hf.1 (ih hf.2)
  | @token _ c l t ps hread _ ih =>
    rw [List.forall_mem_cons] at hf
    have hp : f (.token c l t) = c :: l := by
      rcases hf.1 with heq | ⟨hnone, -⟩
      · exact heq
      · exact absurd hnone (by simp [Part.own])
    obtain ⟨hlexeme, hlocal⟩ := Placed.isLexeme hread
    rw [List.flatMap_cons, hp, List.cons_append,
      tokensOf_token (hlocal _ (follows_parts hf.2)) (isSpace_of_isLexeme hlexeme), ih hf.2]
    rfl

/-- White space alone is left in the place of a part that is not the text's own. -/
theorem Placed.spaced (h : Placed atEnd ps) :
    ∀ p ∈ ps, p.spaced = p.own ∨ p.own = [] ∧ ∀ c ∈ p.spaced, isSpace c := by
  induction h with
  | nil => exact List.forall_mem_nil _
  | space _ _ ih => exact List.forall_mem_cons.2 ⟨Or.inl rfl, ih⟩
  | blank hc _ ih => exact List.forall_mem_cons.2 ⟨Or.inr ⟨rfl, List.forall_mem_singleton.2 hc⟩, ih⟩
  | lineComment _ _ _ ih => exact List.forall_mem_cons.2 ⟨Or.inl rfl, ih⟩
  | blockComment _ _ ih => exact List.forall_mem_cons.2 ⟨Or.inl rfl, ih⟩
  | trailingComma _ _ ih => exact List.forall_mem_cons.2 ⟨Or.inl rfl, ih⟩
  | token _ _ ih => exact List.forall_mem_cons.2 ⟨Or.inl rfl, ih⟩

/-- The parts of a text that has not been decorated. -/
theorem exists_parts {n : Nat} (h : tokensFrom n cs = some ts) :
    ∃ ps, (∀ atEnd, Placed atEnd ps) ∧ ownText ps = cs ∧
      ∀ p ∈ ps, p.text = p.own ∧ p.stripped = p.own ∧ p.spaced = p.own := by
  induction n generalizing cs ts with
  | zero =>
    cases cs with
    | nil => exact ⟨[], .nil, rfl, List.forall_mem_nil _⟩
    | cons c cs => exact absurd h (by simp [tokensFrom])
  | succ n ih =>
    cases cs with
    | nil => exact ⟨[], .nil, rfl, List.forall_mem_nil _⟩
    | cons c cs =>
      cases hc : isSpace c with
      | true =>
        rw [tokensFrom, if_pos hc] at h
        obtain ⟨ps, hplaced, rfl, hown⟩ := ih h
        exact ⟨.space c :: ps, fun atEnd => .space hc (hplaced atEnd), rfl,
          List.forall_mem_cons.2 ⟨⟨rfl, rfl, rfl⟩, hown⟩⟩
      | false =>
        rw [tokensFrom_succ n hc] at h
        obtain ⟨⟨t, rest⟩, hread, h⟩ := Option.bind_eq_some_iff.1 h
        obtain ⟨ts', hrest, -⟩ := Option.map_eq_some_iff.1 h
        obtain ⟨l, rfl, -, -⟩ := exists_readToken hread
        obtain ⟨ps, hplaced, rfl, hown⟩ := ih hrest
        exact ⟨.token c l t :: ps, fun atEnd => .token hread (hplaced _), rfl,
          List.forall_mem_cons.2 ⟨⟨rfl, rfl, rfl⟩, hown⟩⟩

/-! ## Values -/

/-- Behind a comma there is a value or a key. -/
theorem step_comma {mode : Mode} {σ σ' : State} (h : σ.step mode .comma = some σ') :
    (∃ stack, σ' = .value stack) ∨ ∃ ms stack, σ' = .nextKey ms stack := by
  cases σ with
  | commaOrEnd top stack =>
    cases top with
    | array items => exact Or.inl ⟨_, (Option.some.inj h).symm⟩
    | object ms key => exact Or.inr ⟨ms, stack, (Option.some.inj h).symm⟩
  | _ => exact absurd h (Option.some_ne_none σ').symm

/-- Neither of them is a closing bracket. -/
theorem step_step_comma {mode : Mode} {σ σ' : State} (h : σ.step mode .comma = some σ')
    (ht : t.closes) : σ'.step mode t = none := by
  obtain rfl | rfl : t = .closeBrace ∨ t = .closeBracket := by
    cases t with
    | closeBrace => exact Or.inl rfl
    | closeBracket => exact Or.inr rfl
    | _ => exact absurd ht Bool.false_ne_true
  all_goals
    obtain ⟨stack, rfl⟩ | ⟨ms, stack, rfl⟩ := step_comma h
    · rfl
    · rfl

theorem run_cons {mode : Mode} {σ : State} {v : Json} (h : run mode (t :: ts) σ = some (v, [])) :
    ∃ σ', σ.step mode t = some σ' ∧ run mode ts σ' = some (v, []) := by
  cases σ with
  | done w =>
    rw [run] at h
    exact absurd (Prod.mk.inj (Option.some.inj h)).2 (List.cons_ne_nil t ts)
  | _ => exact Option.bind_eq_some_iff.1 h

/-- The tokens of a whole value have no comma in front of a closing bracket. -/
theorem isChain_separates_of_run {mode : Mode} {σ : State} {v : Json}
    (h : run mode ts σ = some (v, [])) : ts.IsChain Separates := by
  induction ts generalizing σ with
  | nil => exact List.isChain_nil
  | cons t ts ih =>
    obtain ⟨σ', hstep, hrun⟩ := run_cons h
    refine List.isChain_cons.2 ⟨?_, ih hrun⟩
    intro b hb ht
    subst ht
    obtain ⟨ts, rfl⟩ := List.head?_eq_some_iff.1 hb
    obtain ⟨_, hnext, -⟩ := run_cons hrun
    rw [← Bool.not_eq_true]
    intro hcloses
    rw [step_step_comma hstep hcloses] at hnext
    exact absurd hnext (by simp)

theorem tokens_ofList (cs : List Char) : tokens (String.ofList cs) = tokensOf cs := by
  unfold tokens tokensOf
  rw [String.toList_ofList, String.length_ofList]

theorem tokens_eq (s : String) : tokens s = tokensOf s.toList := by
  rw [← tokens_ofList, String.ofList_toList]

/-- The value hangs on the tokens alone, and these are all of a whole value. -/
theorem parse?_eq_some_iff {s : String} {v : Json} :
    parse? s = some v ↔
      ∃ ts, tokens s = some ts ∧ run (.strict maxDepth) ts (.value []) = some (v, []) := by
  unfold parse? readValue
  simp only [Option.bind_eq_bind, Option.bind_eq_some_iff, Prod.exists]
  constructor
  · rintro ⟨ts, hts, w, rest, hrun, hrest⟩
    split at hrest
    · next hempty =>
      obtain rfl := Option.some.inj hrest
      exact ⟨ts, hts, List.isEmpty_iff.1 hempty ▸ hrun⟩
    · exact absurd hrest (by simp)
  · rintro ⟨ts, hts, hrun⟩
    exact ⟨ts, hts, v, [], hrun, rfl⟩

/-- Both passes, over the parts. -/
theorem plain_parts (h : Placed atEnd ps)
    (hcommas : (ps.filterMap Part.token?).IsChain Separates) {s : String}
    (htext : decorated ps = s.toList) : plain s = String.ofList (ps.flatMap Part.spaced) := by
  unfold plain stripComments dropTrailingCommas
  rw [← htext, stripComments_parts h, dropTrailingCommas_parts h hcommas]

/-- **The value of a decorated text is that of the text.** On the text itself both passes do
nothing, and from a decorated text they leave one with the same tokens. -/
theorem parseCommented?_of_decorates {s : String} {v : Json} (h : parse? s = some v) :
    (stripComments s.toList = s.toList ∧ dropTrailingCommas s.toList = s.toList) ∧
      ∀ s', Decorates s s' → tokens (plain s') = tokens s ∧ parseCommented? s' = some v := by
  obtain ⟨ts, htokens, hrun⟩ := parse?_eq_some_iff.1 h
  have hcommas := isChain_separates_of_run hrun
  rw [tokens_eq] at htokens
  have hown : ∀ ps, ownText ps = s.toList → ∀ atEnd, Placed atEnd ps →
      ps.filterMap Part.token? = ts := by
    intro ps hps atEnd hplaced
    have hsame := tokens_parts (f := Part.own) hplaced fun _ _ => Or.inl rfl
    exact Option.some.inj ((hsame.symm.trans (congrArg tokensOf hps)).trans htokens)
  constructor
  · obtain ⟨ps, hplaced, hps, hparts⟩ := exists_parts htokens
    have hstrip := stripComments_parts (hplaced false)
    have hts := hown ps hps false (hplaced false)
    have hdrop := dropTrailingCommas_parts (hplaced false) (hts ▸ hcommas)
    have htext : decorated ps = s.toList := hps ▸ List.flatMap_congr fun p hp => (hparts p hp).1
    have hstripped : ps.flatMap Part.stripped = s.toList :=
      hps ▸ List.flatMap_congr fun p hp => (hparts p hp).2.1
    have hspaced : ps.flatMap Part.spaced = s.toList :=
      hps ▸ List.flatMap_congr fun p hp => (hparts p hp).2.2
    rw [htext, hstripped] at hstrip
    rw [hstripped, hspaced] at hdrop
    exact ⟨hstrip, hdrop⟩
  · rintro s' ⟨ps, hplaced, hps, htext⟩
    have hts := hown ps hps false hplaced
    have hplain : tokens (plain s') = some ts := by
      rw [plain_parts hplaced (hts ▸ hcommas) htext, tokens_ofList,
        tokens_parts hplaced hplaced.spaced, hts]
    exact ⟨hplain.trans (htokens ▸ (tokens_eq s).symm), parse?_eq_some_iff.2 ⟨ts, hplain, hrun⟩⟩

/-- A text with comments, between the tokens and in front, and a trailing comma. The marks inside
its string are none. -/
theorem decorates_commented_array :
    Decorates "[1,\"//,]\"]" "/* a */[1, // one\n \"//,]\" ,]" := by
  refine ⟨[.blockComment " a ".toList, .token '[' [] .openBracket,
    .token '1' [] (.number (some (.integer 1))), .token ',' [] .comma, .blank ' ',
    .lineComment " one".toList, .blank '\n', .blank ' ',
    .token '"' "//,]\"".toList (.string (some "//,]")), .blank ' ', .trailingComma,
    .token ']' [] .closeBracket], ?_, rfl, rfl⟩
  apply Placed.blockComment (by decide)
  apply Placed.token rfl
  apply Placed.token rfl
  apply Placed.token rfl
  apply Placed.blank rfl
  refine Placed.lineComment (by decide) (fun _ hc => (Option.some.inj hc).symm) ?_
  apply Placed.blank rfl
  apply Placed.blank rfl
  apply Placed.token rfl
  apply Placed.blank rfl
  apply Placed.trailingComma rfl
  apply Placed.token rfl
  exact Placed.nil _

theorem parseCommented?_commented_array :
    parse? "[1,\"//,]\"]" = some (.array [.integer 1, .string "//,]"]) ∧
      stripComments "[1,\"//,]\"]".toList = "[1,\"//,]\"]".toList ∧
      parseCommented? "/* a */[1, // one\n \"//,]\" ,]" =
        some (.array [.integer 1, .string "//,]"]) := by
  have h : parse? "[1,\"//,]\"]" = some (.array [.integer 1, .string "//,]"]) := rfl
  obtain ⟨⟨hstrip, -⟩, hdecorated⟩ := parseCommented?_of_decorates h
  exact ⟨h, hstrip, (hdecorated _ decorates_commented_array).2⟩

end SvelteTypings.Json
