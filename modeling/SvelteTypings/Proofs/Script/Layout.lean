import SvelteTypings.Proofs.Script.Lexing
import SvelteTypings.Proofs.Script.Splitting
import SvelteTypings.Text.Lines

/-!
# Scripts of blocks

Scripts that are written as blocks in braces, each below a head line. A block is one statement, and
its text is the text of that statement (`scan_blocks`), whatever its lines hold that leaves nothing
open (`isClosed`).
-/

namespace SvelteTypings

variable {ls : List String}

/-- Lines, each with a newline after it. -/
def unlines (ls : List String) : String := String.join (ls.map (· ++ "\n"))

theorem lines_append_newline {cs : List Char} (h : cs.all fun c => c ≠ '\n' && c ≠ '\r')
    (rest : List Char) :
    Text.lines (cs ++ '\n' :: rest) = cs :: Text.lines rest := by
  induction cs with
  | nil => rfl
  | cons c cs ih =>
    obtain ⟨hc, hcs⟩ := Bool.and_eq_true_iff.1 h
    obtain ⟨hn, hr⟩ : c ≠ '\n' ∧ c ≠ '\r' := by simpa using hc
    rw [List.cons_append, Text.lines, ih hcs, Text.consLine]
    · exact hn
    · intro _ hc
      exact absurd hc hr

theorem unlines_cons (l : String) (ls : List String) :
    unlines (l :: ls) = l ++ "\n" ++ unlines ls := by
  simp [unlines]

theorem unlines_append (ls ls' : List String) : unlines (ls ++ ls') = unlines ls ++ unlines ls' := by
  simp [unlines]

theorem linesOf_unlines_cons {l : String} (h : l.toList.all fun c => c ≠ '\n' && c ≠ '\r')
    (ls : List String) : linesOf (unlines (l :: ls)) = l :: linesOf (unlines ls) := by
  rw [unlines_cons, linesOf, String.toList_append, String.toList_append, List.append_assoc]
  show (Text.lines (l.toList ++ '\n' :: _)).map String.ofList = _
  rw [lines_append_newline h, List.map_cons, String.ofList_toList]
  rfl

theorem unlines_eq (h : ls ≠ []) : unlines ls = joinLines ls ++ "\n" := by
  induction ls with
  | nil => exact absurd rfl h
  | cons l ls ih =>
    rw [unlines_cons]
    cases ls with
    | nil => simp [unlines, joinLines]
    | cons l' ls =>
      rw [ih (by simp), joinLines, joinLines, String.intercalate_cons_cons]
      simp only [String.append_assoc]

theorem joinLines_concat (ls : List String) (l : String) :
    joinLines (ls ++ [l]) = unlines ls ++ l := by
  by_cases h : ls = []
  · subst h
    simp [joinLines, unlines]
  · rw [unlines_eq h, joinLines, String.intercalate_append_of_ne_nil h (by simp),
      String.intercalate_singleton]
    rfl

namespace Script

open Lexeme (isEnded)

/-! ## Texts that leave nothing open -/

/-- A text that leaves no comment, template or bracket open, and closes no bracket that it has not
opened. -/
def isClosed (text : String) : Bool := isEnded text.toList && isBalanced (tokenize text)

theorem tokenize_empty : tokenize "" = [] := by
  rw [tokenize, String.toList_empty, Lexeme.read_nil]
  rfl

theorem read_brace : Lexeme.read "\x7d".toList = [⟨.token .closeBrace, ['\x7d']⟩] := by decide +kernel

/-- After lines that leave no comment or template open, what follows is read as it is alone. -/
theorem read_unlines_append (h : isEnded (joinLines ls).toList) (rest : String) :
    Lexeme.read (unlines ls ++ rest).toList =
      Lexeme.read (unlines ls).toList ++ Lexeme.read rest.toList := by
  by_cases hls : ls = []
  · subst hls
    simp [unlines, Lexeme.read_nil]
  · have halone := read_line h ""
    rw [String.append_empty, ← unlines_eq hls] at halone
    rw [halone, unlines_eq hls, read_line h]
    simp [Lexeme.read_nil]

theorem depthOver_unlines (h : isEnded (joinLines ls).toList) (d : Nat) :
    depthOver d (tokenize (unlines ls)) = depthOver d (tokenize (joinLines ls)) := by
  by_cases hls : ls = []
  · subst hls
    rfl
  · obtain ⟨g, halone⟩ := tokenize_line h ""
    rw [String.append_empty, ← unlines_eq hls] at halone
    rw [halone, tokenize_empty, depthOver_append]
    cases depthOver d (tokenize (joinLines ls)) <;> rfl

/-! ## Blocks -/

/-- A head line, lines, and a closing brace. -/
structure Block where
  head : String
  inner : List String

namespace Block

variable {b : Block} {bs : List Block} {head : List Lexeme} {pending : Option String}

def lines (b : Block) : List String := b.head :: (b.inner ++ ["\x7d"])

def text (b : Block) : String := joinLines b.lines

/-- The lines of the block below an empty one. -/
def spaced (b : Block) : List String := "" :: b.lines

/-- The head line ends with a brace and begins a statement of its own. -/
structure HasHead (b : Block) (head : List Lexeme) : Prop where
  read : Lexeme.read b.head.toList = head ++ [⟨.token .openBrace, ['\x7b']⟩]
  first : ∃ k x, head.head? = some ⟨.token k, x⟩ ∧ !(Token.mk k "" (String.ofList x)).continuesLine
  plain : ∀ t ∈ Lexeme.tokensAfter [] head, t.isPlain
  balanced : isBalanced (Lexeme.tokensAfter [] head)

/-- What is between the braces leaves nothing open. -/
structure IsWhole (b : Block) (head : List Lexeme) : Prop extends b.HasHead head where
  closed : isClosed (joinLines b.inner)

theorem text_eq (b : Block) : b.text = b.head ++ "\n" ++ (unlines b.inner ++ "\x7d") := by
  rw [text, lines, joinLines, String.intercalate_cons_of_ne_nil (by simp), ← joinLines_concat]
  rfl

theorem getLast?_text (b : Block) : b.text.toList.getLast? = some '\x7d' := by
  have hbrace : "\x7d".toList = ['\x7d'] := by decide
  rw [Block.text_eq, ← String.append_assoc, String.toList_append, hbrace, List.getLast?_concat]

theorem unlines_spaced_append (b : Block) (ls : List String) :
    unlines (b.spaced ++ ls) = "" ++ "\n" ++ (b.text ++ "\n" ++ unlines ls) := by
  rw [spaced, List.cons_append, unlines_cons, unlines_append, unlines_eq (by simp [lines])]
  rfl

/-! ### Heads -/

theorem HasHead.isEnded_head (h : b.HasHead head) : isEnded b.head.toList := by
  rw [isEnded, h.read, List.getLast?_concat]
  rfl

theorem HasHead.exists_cons (h : b.HasHead head) :
    ∃ t ts, Lexeme.tokensAfter [] head = t :: ts ∧ t.continuesLine = false := by
  obtain ⟨k, x, hfirst, hstarts⟩ := h.first
  obtain ⟨ls, rfl⟩ := List.head?_eq_some_iff.1 hfirst
  exact ⟨_, _, rfl, by simpa using hstarts⟩

theorem HasHead.isHead (h : b.HasHead head) {opening : Token} (hopening : opening.kind = .openBrace) :
    IsHead (Lexeme.tokensAfter [] head) opening := by
  obtain ⟨t, ts, hcons, _⟩ := h.exists_cons
  exact ⟨hcons ▸ List.cons_ne_nil _ _, h.plain, h.balanced, hopening⟩

theorem HasHead.tokenize_head (h : b.HasHead head) (rest : String) :
    ∃ opening newline, opening.kind = .openBrace ∧ newline.kind = .newline ∧
      tokenize (b.head ++ "\n" ++ rest) =
        Lexeme.tokensAfter [] head ++ opening :: newline :: tokenize rest := by
  obtain ⟨g, hopening⟩ := Lexeme.tokensAfter_append [] head .openBrace ['\x7b'] []
  obtain ⟨g', hline⟩ := tokenize_line h.isEnded_head rest
  refine ⟨⟨.openBrace, g, "\x7b"⟩, ⟨.newline, g', "\n"⟩, rfl, rfl, ?_⟩
  rw [hline, tokenize, h.read, hopening, List.append_assoc]
  rfl

theorem HasHead.continues_head (h : b.HasHead head) (rest : String) :
    continues (tokenize (b.head ++ "\n" ++ rest)) = false := by
  obtain ⟨opening, newline, -, -, htokens⟩ := h.tokenize_head rest
  obtain ⟨t, ts, hcons, hstarts⟩ := h.exists_cons
  have hsignificant := Token.significant_of_isPlain (h.plain t (hcons ▸ List.mem_cons_self))
  rw [htokens, hcons, continues, nextSignificant?, List.cons_append,
    List.find?_cons_of_pos (by simp [hsignificant])]
  exact hstarts

/-! ### Blocks as a whole -/

theorem IsWhole.read_text (h : b.IsWhole head) :
    Lexeme.read b.text.toList =
      head ++ ⟨.token .openBrace, ['\x7b']⟩ :: ⟨.token .newline, ['\n']⟩ ::
        (Lexeme.read (unlines b.inner).toList ++ [⟨.token .closeBrace, ['\x7d']⟩]) := by
  have hinner := read_unlines_append (Bool.and_eq_true_iff.1 h.closed).1 "\x7d"
  rw [text_eq, read_line h.isEnded_head, hinner, read_brace, h.read, List.append_assoc]
  rfl

/-- The last lexeme of the text is the closing brace. -/
theorem IsWhole.exists_read_text (h : b.IsWhole head) :
    ∃ ls, Lexeme.read b.text.toList = head ++ ls ++ [⟨.token .closeBrace, ['\x7d']⟩] :=
  ⟨⟨.token .openBrace, ['\x7b']⟩ :: ⟨.token .newline, ['\n']⟩ ::
    Lexeme.read (unlines b.inner).toList, by rw [h.read_text]; simp⟩

theorem IsWhole.isEnded_text (h : b.IsWhole head) : isEnded b.text.toList := by
  obtain ⟨ls, hread⟩ := h.exists_read_text
  rw [isEnded, hread, List.getLast?_concat]
  rfl

/-- The text of a block is the span of its tokens. -/
theorem IsWhole.span_text (h : b.IsWhole head) : Token.span (tokenize b.text) = b.text := by
  obtain ⟨k, x, hfirst, _⟩ := h.first
  obtain ⟨ls, hread⟩ := h.exists_read_text
  refine span_tokenize (k := k) (x := x) ?_ hread
  rw [hread, List.append_assoc, List.head?_append, hfirst]
  rfl

theorem IsWhole.tokenize_text (h : b.IsWhole head) :
    ∃ opening newline closing, opening.kind = .openBrace ∧ newline.kind = .newline ∧
      closing.kind = .closeBrace ∧
      tokenize b.text = Lexeme.tokensAfter [] head ++ opening ::
        ((newline :: tokenize (unlines b.inner)) ++ [closing]) := by
  obtain ⟨opening, newline, hopening, hnewline, htokens⟩ :=
    h.toHasHead.tokenize_head (unlines b.inner ++ "\x7d")
  obtain ⟨g, hclosing⟩ := Lexeme.tokensAfter_append [] (Lexeme.read (unlines b.inner).toList)
    .closeBrace ['\x7d'] []
  refine ⟨opening, newline, ⟨.closeBrace, g, "\x7d"⟩, hopening, hnewline, rfl, ?_⟩
  rw [text_eq, htokens, tokenize.eq_1 (_ ++ _),
    read_unlines_append (Bool.and_eq_true_iff.1 h.closed).1, read_brace, hclosing]
  rfl

theorem IsWhole.isBalanced_inner (h : b.IsWhole head) {newline : Token}
    (hnewline : newline.kind = .newline) : isBalanced (newline :: tokenize (unlines b.inner)) := by
  obtain ⟨hended, hbalanced⟩ := Bool.and_eq_true_iff.1 h.closed
  rw [isBalanced_iff, depthOver_cons, depthStep_of_trivia (by rw [Token.isTrivia, hnewline]; rfl)]
  exact (depthOver_unlines hended 0).trans (isBalanced_iff.1 hbalanced)

/-- **A block is one statement**, if the next line does not go on. -/
theorem IsWhole.splitFrom_text (h : b.IsWhole head) {rest : String}
    (hrest : continues (tokenize rest) = false) (pending : Option String) :
    splitFrom ⟨[], 0, none, pending⟩ (tokenize (b.text ++ "\n" ++ rest)) =
      ⟨tokenize b.text, pending⟩ :: splitFrom .start (tokenize rest) := by
  obtain ⟨g, hline⟩ := tokenize_line h.isEnded_text rest
  obtain ⟨opening, newline, closing, hopening, hnewline, hclosing, htext⟩ := h.tokenize_text
  have hblock := splitFrom_block (h.isHead hopening) (h.isBalanced_inner hnewline) hclosing
    (show (⟨.newline, g, "\n"⟩ : Token).kind = .newline from rfl) hrest pending
  rw [hline, htext]
  simpa using hblock

theorem IsWhole.depthOver_text (h : b.IsWhole head) : depthOver 0 (tokenize b.text) = some 0 := by
  obtain ⟨opening, newline, closing, hopening, hnewline, hclosing, htext⟩ := h.tokenize_text
  have hinner := depthOver_add (isBalanced_iff.1 (h.isBalanced_inner hnewline)) 1
  rw [htext, depthOver_append, isBalanced_iff.1 h.balanced, Option.bind_some, depthOver_cons, hopening]
  show depthOver 1 (newline :: tokenize (unlines b.inner) ++ [closing]) = some 0
  rw [depthOver_append, hinner, Option.bind_some, depthOver_cons, hclosing]
  rfl

/-- The depth below a block whose lines leave brackets open. -/
theorem depthOver_unclosed {d : Nat} (h : isEnded (joinLines ls).toList)
    (hopen : depthOver 0 (tokenize (joinLines ls)) = some (d + 1)) {rest : String}
    (hrest : depthOver 0 (tokenize rest) = some 0) :
    depthOver 0 (tokenize (unlines ls ++ ("\x7d" ++ "\n" ++ rest))) = some d := by
  obtain ⟨g, hclosing⟩ := Lexeme.tokensAfter_append [] (Lexeme.read (unlines ls).toList) .closeBrace
    ['\x7d'] (⟨.token .newline, ['\n']⟩ :: Lexeme.read rest.toList)
  have hbrace : isEnded "\x7d".toList := by
    rw [isEnded, read_brace]
    rfl
  rw [tokenize, read_unlines_append h, read_line hbrace, read_brace]
  show depthOver 0 (Lexeme.tokensAfter [] (_ ++ _ :: _ :: _)) = _
  rw [hclosing, depthOver_append]
  show (depthOver 0 (tokenize (unlines ls))).bind _ = _
  -- the brace closes one of the open brackets, and what follows starts that much deeper
  have hbelow := depthOver_add hrest d
  rw [Nat.zero_add] at hbelow
  rw [depthOver_unlines h, hopen]
  exact hbelow

/-! ### Scripts of blocks -/

/-- An empty line is in no statement. -/
theorem tokenize_blank (rest : String) :
    ∃ g, tokenize ("" ++ "\n" ++ rest) = ⟨.newline, g, "\n"⟩ :: tokenize rest := by
  obtain ⟨g, hline⟩ := tokenize_line (s := "") Lexeme.isEnded_nil rest
  exact ⟨g, by rw [hline, tokenize_empty, List.nil_append]⟩

theorem continues_spaced (h : ∀ b ∈ bs, ∃ head, b.HasHead head) :
    continues (tokenize (unlines (bs.flatMap spaced))) = false := by
  cases bs with
  | nil => rw [List.flatMap_nil, unlines, List.map_nil, String.join_nil, tokenize_empty]; rfl
  | cons b bs =>
    obtain ⟨head, hb⟩ := h b List.mem_cons_self
    obtain ⟨g, hblank⟩ := tokenize_blank (b.text ++ "\n" ++ unlines (bs.flatMap spaced))
    have hskip : continues (tokenize ("" ++ "\n" ++ (b.text ++ "\n" ++ unlines (bs.flatMap spaced)))) =
        continues (tokenize (b.text ++ "\n" ++ unlines (bs.flatMap spaced))) := by
      rw [hblank]
      rfl
    have hhead := hb.continues_head (unlines b.inner ++ "\x7d" ++ "\n" ++ unlines (bs.flatMap spaced))
    rw [List.flatMap_cons, unlines_spaced_append, hskip, text_eq]
    simpa only [String.append_assoc] using hhead

theorem exists_hasHead (h : ∀ b ∈ bs, ∃ head, b.IsWhole head) : ∀ b ∈ bs, ∃ head, b.HasHead head :=
  fun b hb => (h b hb).imp fun _ hwhole => hwhole.toHasHead

theorem depthOver_spaced (h : ∀ b ∈ bs, ∃ head, b.IsWhole head) :
    depthOver 0 (tokenize (unlines (bs.flatMap spaced))) = some 0 := by
  induction bs with
  | nil => rw [List.flatMap_nil, unlines, List.map_nil, String.join_nil, tokenize_empty]; rfl
  | cons b bs ih =>
    obtain ⟨⟨head, hb⟩, hbs⟩ := List.forall_mem_cons.1 h
    obtain ⟨g, hblank⟩ := tokenize_blank (b.text ++ "\n" ++ unlines (bs.flatMap spaced))
    obtain ⟨g', hline⟩ := tokenize_line hb.isEnded_text (unlines (bs.flatMap spaced))
    rw [List.flatMap_cons, unlines_spaced_append, hblank, hline]
    show depthOver 0 (tokenize b.text ++ _) = some 0
    rw [depthOver_append, hb.depthOver_text]
    exact ih hbs

theorem IsWhole.splitFrom_spaced (h : b.IsWhole head) {ls : List String}
    (hls : continues (tokenize (unlines ls)) = false) (pending : Option String) :
    splitFrom ⟨[], 0, none, pending⟩ (tokenize (unlines (b.spaced ++ ls))) =
      ⟨tokenize b.text, pending⟩ :: splitFrom .start (tokenize (unlines ls)) := by
  obtain ⟨g, hblank⟩ := tokenize_blank (b.text ++ "\n" ++ unlines ls)
  rw [unlines_spaced_append, hblank, splitFrom, if_pos rfl, if_pos List.isEmpty_nil,
    h.splitFrom_text hls]

/-- Blocks are statements, one each. -/
theorem splitFrom_flatMap_spaced (h : ∀ b' ∈ b :: bs, ∃ head, b'.IsWhole head)
    (pending : Option String) :
    splitFrom ⟨[], 0, none, pending⟩ (tokenize (unlines ((b :: bs).flatMap spaced))) =
      ⟨tokenize b.text, pending⟩ :: bs.map fun b => ⟨tokenize b.text, none⟩ := by
  induction bs generalizing b pending with
  | nil =>
    obtain ⟨head, hb⟩ := h b List.mem_cons_self
    rw [List.flatMap_cons, hb.splitFrom_spaced (continues_spaced (by simp)), List.flatMap_nil, unlines,
      List.map_nil, String.join_nil, tokenize_empty]
    rfl
  | cons b' bs ih =>
    -- a comment above is kept for the first block only
    obtain ⟨⟨head, hb⟩, hbs⟩ := List.forall_mem_cons.1 h
    rw [List.flatMap_cons, hb.splitFrom_spaced (continues_spaced (exists_hasHead hbs))]
    exact congrArg _ (ih hbs none)

end Block

/-! ## Scripts with blocks below -/

section Scan

variable {top : List String} {b : Block} {bs : List Block} {head : List Lexeme} {d : Nat}

/-- What is below a script that leaves nothing open is read on its own. -/
theorem scan_append_spaced (htop : top ≠ []) (hclosed : isClosed (joinLines top))
    (hends : endsStatement (tokenize (joinLines top))) (h : ∀ b ∈ bs, ∃ head, b.HasHead head) :
    ∃ pending, scan (unlines (top ++ bs.flatMap Block.spaced)) =
      scan (joinLines top) ++
        splitFrom ⟨[], 0, none, pending⟩ (tokenize (unlines (bs.flatMap Block.spaced))) := by
  obtain ⟨hended, hbalanced⟩ := Bool.and_eq_true_iff.1 hclosed
  obtain ⟨g, hline⟩ := tokenize_line hended (unlines (bs.flatMap Block.spaced))
  obtain ⟨pending, hsplit⟩ := splitFrom_append Draft.sound_start (isBalanced_iff.1 hbalanced) hends
    (show (⟨.newline, g, "\n"⟩ : Token).kind = .newline from rfl) (Block.continues_spaced h)
  refine ⟨pending, ?_⟩
  rw [unlines_append, unlines_eq htop, scan, splitStatements, hline, hsplit]
  rfl

/-- **Each block is a statement**, if none leaves anything open. -/
theorem scan_blocks (htop : top ≠ []) (hclosed : isClosed (joinLines top))
    (hends : endsStatement (tokenize (joinLines top)))
    (h : ∀ b' ∈ b :: bs, ∃ head, b'.IsWhole head) :
    ∃ pending, scan (unlines (top ++ (b :: bs).flatMap Block.spaced)) =
      scan (joinLines top) ++
        ⟨tokenize b.text, pending⟩ :: bs.map fun b => ⟨tokenize b.text, none⟩ := by
  obtain ⟨pending, hscan⟩ := scan_append_spaced htop hclosed hends (Block.exists_hasHead h)
  exact ⟨pending, by rw [hscan, Block.splitFrom_flatMap_spaced h]⟩

/-- **A bracket that is left open takes everything below**: the first block is a statement with all
blocks after it. -/
theorem scan_unclosed (htop : top ≠ []) (hclosed : isClosed (joinLines top))
    (hends : endsStatement (tokenize (joinLines top))) (hb : b.HasHead head)
    (hinner : isEnded (joinLines b.inner).toList)
    (hopen : depthOver 0 (tokenize (joinLines b.inner)) = some (d + 1))
    (h : ∀ b' ∈ bs, ∃ head, b'.IsWhole head) :
    ∃ us doc, scan (unlines (top ++ (b :: bs).flatMap Block.spaced)) =
      scan (joinLines top) ++ [⟨Lexeme.tokensAfter [] head ++ us, doc⟩] := by
  obtain ⟨pending, hscan⟩ := scan_append_spaced htop hclosed hends
    (List.forall_mem_cons.2 ⟨⟨head, hb⟩, Block.exists_hasHead h⟩)
  obtain ⟨opening, newline, hopening, hnewline, htokens⟩ := hb.tokenize_head
    (unlines b.inner ++ ("\x7d" ++ "\n" ++ unlines (bs.flatMap Block.spaced)))
  -- the braces below match each other, so the depth does not come back to where the block began
  have hbelow : depthOver 0 (newline :: tokenize (unlines b.inner ++
      ("\x7d" ++ "\n" ++ unlines (bs.flatMap Block.spaced)))) = some d := by
    rw [depthOver_cons, depthStep_of_trivia (by rw [Token.isTrivia, hnewline]; rfl)]
    exact Block.depthOver_unclosed hinner hopen (Block.depthOver_spaced h)
  obtain ⟨us, hsplit⟩ := splitFrom_unclosed (hb.isHead hopening) hbelow pending
  obtain ⟨g, hblank⟩ := Block.tokenize_blank (b.text ++ "\n" ++ unlines (bs.flatMap Block.spaced))
  have htext : b.text ++ "\n" ++ unlines (bs.flatMap Block.spaced) = b.head ++ "\n" ++
      (unlines b.inner ++ ("\x7d" ++ "\n" ++ unlines (bs.flatMap Block.spaced))) := by
    simp only [Block.text_eq, String.append_assoc]
  refine ⟨opening :: us, pending, ?_⟩
  rw [hscan, List.flatMap_cons, Block.unlines_spaced_append, hblank, splitFrom, if_pos rfl,
    if_pos List.isEmpty_nil, htext, htokens, hsplit]

end Scan

end Script

end SvelteTypings
