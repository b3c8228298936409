import Mathlib.Data.List.Infix
import SvelteTypings.Proofs.Component.Rendering
import SvelteTypings.Proofs.Text.Trimming

/-!
# Moving a block

A block is written line by line, each line moved as a whole: between what it was and what is written
only blanks at its two ends differ (`trim_movedLine`). The margin that is cut off is counted in
bytes and is never larger than the blanks in front of any line that is not blank, so the cut stays
within them. Where it would split one of them, all of them go. Where they are ASCII it cannot split
any, each line loses as many as every other, and one line stays indented beyond another as it was
(`length_leadingBlanks_movedLine`).
-/

namespace SvelteTypings.Text

variable {n : Nat} {c : Char} {cs xs ys rest line : List Char}

/-! ## Trimming behind a text -/

/-- What is left of a text when its end is trimmed stays, whatever stands in front. -/
theorem trimEnd_append_of_ne_nil (xs : List Char) (h : trimEnd ys ≠ []) :
    trimEnd (xs ++ ys) = xs ++ trimEnd ys := by
  have hne : ys.reverse.dropWhile isBlank ≠ [] := fun hnil => h (List.reverse_eq_nil_iff.2 hnil)
  show ((xs ++ ys).reverse.dropWhile isBlank).reverse = xs ++ (ys.reverse.dropWhile isBlank).reverse
  rw [List.reverse_append, List.dropWhile_append, if_neg (by simpa using hne), List.reverse_append,
    List.reverse_reverse]

theorem isBlank_of_trimStart_eq_cons (h : trimStart cs = c :: rest) : isBlank c = false := by
  have hhead := List.head?_dropWhile_not isBlank cs
  rw [show cs.dropWhile isBlank = c :: rest from h] at hhead
  simpa using hhead

/-- A trimmed text has nothing more to trim. -/
theorem trim_trim (cs : List Char) : trim (trim cs) = trim cs := by
  cases hstart : trimStart cs with
  | nil =>
    have hnil : trim cs = [] := by rw [trim, hstart]; rfl
    rw [hnil]
    rfl
  | cons c rest =>
    have hc := isBlank_of_trimStart_eq_cons hstart
    have htrim : trim cs = c :: trimEnd rest := by rw [trim, hstart, trimEnd_cons hc]
    refine trim_of_ends ?_ ?_
    · intro d hd
      rw [htrim, List.head?_cons, Option.mem_some_iff] at hd
      exact hd ▸ hc
    · intro d hd
      rw [trim, getLast?_trimEnd] at hd
      simpa using List.find?_some hd

/-! ## Lines and their ends -/

/-- A line without a newline is one line, unless it would lend a carriage return to its end. -/
theorem lines_append_cons (hn : '\n' ∉ cs) (hr : cs.getLast? ≠ some '\r') (rest : List Char) :
    lines (cs ++ '\n' :: rest) = cs :: lines rest := by
  induction cs with
  | nil => rfl
  | cons c cs ih =>
    rw [List.mem_cons, not_or] at hn
    have hlast : cs.getLast? ≠ some '\r' := by
      intro h
      apply hr
      rw [List.getLast?_cons, h]
      rfl
    rw [List.cons_append, lines, ih hn.2 hlast, consLine]
    · exact Ne.symm hn.1
    · -- a carriage return right before the newline would be the last character of the line
      intro cs' hc hcs'
      cases cs with
      | nil => exact hr (congrArg some hc)
      | cons d cs => exact hn.2 (List.mem_cons.2 (Or.inl (List.cons.inj hcs').1.symm))

theorem newline_not_mem_of_mem_lines (h : line ∈ lines cs) : '\n' ∉ line := by
  induction cs using lines.induct generalizing line with
  | case1 => exact absurd h List.not_mem_nil
  | case2 cs ih =>
    rw [lines] at h
    rcases List.mem_cons.1 h with rfl | h
    · exact List.not_mem_nil
    · exact ih h
  | case3 cs ih =>
    rw [lines] at h
    rcases List.mem_cons.1 h with rfl | h
    · exact List.not_mem_nil
    · exact ih h
  | case4 c cs hn hr ih =>
    rw [lines] at h
    · cases hls : lines cs with
      | nil =>
        rw [hls, consLine, List.mem_singleton] at h
        rw [h, List.mem_singleton]
        exact fun heq => hn heq.symm
      | cons l ls =>
        rw [hls, consLine] at h
        rcases List.mem_cons.1 h with rfl | h
        · rw [List.mem_cons, not_or]
          exact ⟨fun heq => hn heq.symm, ih (hls ▸ List.mem_cons_self)⟩
        · exact ih (hls ▸ List.mem_cons_of_mem l h)
    · exact hn
    · exact hr

namespace Writer

/-! ## Cutting by bytes -/

/-- The bytes that are cut off are whole characters in front. -/
theorem exists_append_of_dropBytes? (h : dropBytes? n cs = some rest) :
    ∃ front, cs = front ++ rest ∧ byteLength front = n := by
  induction cs generalizing n with
  | nil =>
    cases n with
    | zero => exact ⟨[], Option.some.inj h, rfl⟩
    | succ n => exact absurd h (by simp [dropBytes?])
  | cons c cs ih =>
    cases n with
    | zero => exact ⟨[], Option.some.inj h, rfl⟩
    | succ n =>
      rw [dropBytes?] at h
      split at h
      · next hle =>
        obtain ⟨front, rfl, hfront⟩ := ih h
        refine ⟨c :: front, rfl, ?_⟩
        rw [byteLength_cons, hfront]
        omega
      · exact absurd h (by simp)

/-- Whole characters in front can be cut off. -/
theorem dropBytes?_append (front rest : List Char) :
    dropBytes? (byteLength front) (front ++ rest) = some rest := by
  induction front with
  | nil => cases rest <;> rfl
  | cons c front ih =>
    have hpos := c.utf8Size_pos
    obtain ⟨n, hn⟩ : ∃ n, c.utf8Size + byteLength front = n + 1 :=
      ⟨c.utf8Size + byteLength front - 1, by omega⟩
    rw [byteLength_cons, List.cons_append, hn, dropBytes?, if_pos (by omega)]
    have hrest : n + 1 - c.utf8Size = byteLength front := by omega
    rw [hrest]
    exact ih

theorem byteLength_of_ascii (h : ∀ c ∈ cs, c.toNat < 0x80) : byteLength cs = cs.length := by
  induction cs with
  | nil => rfl
  | cons c cs ih =>
    rw [List.forall_mem_cons] at h
    have hc : c.utf8Size = 1 := by
      rw [Char.utf8Size, if_pos]
      have hlt : c.val.toNat < 0x80 := h.1
      exact UInt32.le_iff_toNat_le.2 (Nat.le_of_lt_succ hlt)
    rw [byteLength_cons, hc, ih h.2, List.length_cons, Nat.add_comm]

/-! ## One line -/

/-- The blanks in front of a line. -/
def leadingBlanks (line : List Char) : List Char := line.takeWhile isBlank

theorem leadingBlanks_append_trimStart (line : List Char) :
    leadingBlanks line ++ trimStart line = line := List.takeWhile_append_dropWhile

theorem isBlank_of_mem_leadingBlanks (h : c ∈ leadingBlanks line) : isBlank c :=
  List.mem_takeWhile_imp h

theorem leadingBlanks_append (hxs : ∀ c ∈ xs, isBlank c) (hc : isBlank c = false)
    (cs : List Char) : leadingBlanks (xs ++ c :: cs) = xs := by
  rw [leadingBlanks, List.takeWhile_append_of_pos hxs, List.takeWhile_cons_of_neg (by simp [hc]),
    List.append_nil]

/-- A line that is not blank is blanks, then a text that starts with something else. -/
theorem exists_trimStart (h : isBlankLine line = false) :
    ∃ c cs, isBlank c = false ∧ trimStart line = c :: cs ∧ trim line = c :: trimEnd cs := by
  cases hstart : trimStart line with
  | nil =>
    have hall : isBlankLine line := List.all_eq_true.2 (List.dropWhile_eq_nil_iff.1 hstart)
    exact absurd hall (by simp [h])
  | cons c cs =>
    have hc := isBlank_of_trimStart_eq_cons hstart
    exact ⟨c, cs, hc, rfl, by rw [trim, hstart, trimEnd_cons hc]⟩

/-- **The cut stays within the blanks.** Some of those in front of the line are left, and behind
them the line without its blanks. -/
theorem exists_shifted (h : isBlankLine line = false) (hle : n ≤ leading line) :
    ∃ front left, leadingBlanks line = front ++ left ∧ shifted n line = left ++ trim line ∧
      (byteLength front = n ∨ dropBytes? n line = none) := by
  obtain ⟨c, cs, hc, hstart, htrim⟩ := exists_trimStart h
  have hline : leadingBlanks line ++ c :: cs = line := by
    rw [← hstart]
    exact leadingBlanks_append_trimStart line
  have hmoved : ∀ left, trimEnd (left ++ trimStart line) = left ++ trim line := by
    intro left
    rw [trimEnd_append_of_ne_nil, trim]
    rw [hstart]
    exact trimEnd_cons_ne_nil hc cs
  unfold shifted
  rw [if_neg (by simp [h])]
  cases hdrop : dropBytes? n line with
  | none => exact ⟨leadingBlanks line, [], (List.append_nil _).symm, hmoved [], Or.inr rfl⟩
  | some rest =>
    obtain ⟨front, hfront, hbytes⟩ := exists_append_of_dropBytes? hdrop
    -- what is cut off is no longer than the blanks, so it is a part of them
    obtain ⟨left, hleft⟩ : front <+: leadingBlanks line := by
      have hblanks : leadingBlanks line <+: line := List.takeWhile_prefix _
      have hbegins : front <+: line := ⟨rest, hfront.symm⟩
      rcases List.prefix_or_prefix_of_prefix hblanks hbegins with hlong | hshort
      · obtain ⟨more, hmore⟩ := hlong
        have hbounds : byteLength (leadingBlanks line) + byteLength more ≤ leading line := by
          rw [← byteLength_append, hmore, hbytes]
          exact hle
        have hnone : more = [] := by
          cases more with
          | nil => rfl
          | cons d more =>
            have hpos := d.utf8Size_pos
            rw [byteLength_cons] at hbounds
            unfold leading leadingBlanks at hbounds
            omega
        exact ⟨[], by rw [← hmore, hnone, List.append_nil, List.append_nil]⟩
      · exact hshort
    refine ⟨front, left, hleft.symm, ?_, Or.inl hbytes⟩
    have hrest : rest = left ++ trimStart line := by
      rw [← hline, ← hleft, List.append_assoc, hstart.symm] at hfront
      exact (List.append_cancel_left hfront).symm
    rw [Option.getD_some, hrest]
    exact hmoved left

/-- Blanks in ASCII can be cut anywhere. -/
theorem dropBytes?_ne_none (h : ∀ c ∈ leadingBlanks line, c.toNat < 0x80) (hle : n ≤ leading line) :
    dropBytes? n line ≠ none := by
  have hlength : leading line = (leadingBlanks line).length := byteLength_of_ascii h
  have htake : byteLength ((leadingBlanks line).take n) = n := by
    rw [byteLength_of_ascii fun c hc => h c (List.mem_of_mem_take hc), List.length_take]
    omega
  have hline : (leadingBlanks line).take n ++ ((leadingBlanks line).drop n ++ trimStart line) =
      line := by
    rw [← List.append_assoc, List.take_append_drop, leadingBlanks_append_trimStart]
  have hdrop := dropBytes?_append ((leadingBlanks line).take n)
    ((leadingBlanks line).drop n ++ trimStart line)
  rw [htake, hline] at hdrop
  rw [hdrop]
  simp

/-! ## The lines of a block -/

/-- A line of a block as it is written at a level. -/
def movedLine (level : Nat) (block line : List Char) : String :=
  indented level (String.ofList (shifted (margin (lines block)) line))

theorem addBlock_eq (w : Writer) (block : List Char) :
    w.addBlock block =
      ⟨w.text ++ unlines ((lines block).map (movedLine w.level block)), w.level⟩ := by
  show addLines ⟨w.text, w.level⟩ (blockLines block) = _
  rw [addLines_eq, blockLines, List.map_map]
  rfl

theorem margin_le {ls : List (List Char)} (hmem : line ∈ ls) (h : isBlankLine line = false) :
    margin ls ≤ leading line := by
  have hleading : leading line ∈ (ls.filter fun line => !isBlankLine line).map leading :=
    List.mem_map_of_mem (List.mem_filter.2 ⟨hmem, by simp [h]⟩)
  unfold margin
  cases hmin : ((ls.filter fun line => !isBlankLine line).map leading).min? with
  | none =>
    rw [List.min?_eq_none_iff.1 hmin] at hleading
    exact absurd hleading List.not_mem_nil
  | some m => exact (List.min?_eq_some_iff.1 hmin).2 _ hleading

theorem movedLine_of_isBlankLine (level : Nat) (block : List Char) (h : isBlankLine line) :
    movedLine level block line = "" := by
  have hshifted : shifted (margin (lines block)) line = [] := if_pos h
  rw [movedLine, hshifted]
  rfl

/-- **What is written of a line that is not blank**: spaces for the level, the blanks that are left,
and the line without its blanks. -/
theorem exists_movedLine (level : Nat) {block : List Char} (hmem : line ∈ lines block)
    (h : isBlankLine line = false) :
    ∃ front left, leadingBlanks line = front ++ left ∧
      (movedLine level block line).toList =
        List.replicate (2 * level) ' ' ++ left ++ trim line ∧
      (byteLength front = margin (lines block) ∨
        dropBytes? (margin (lines block)) line = none) := by
  obtain ⟨front, left, hblanks, hshifted, hcut⟩ := exists_shifted h (margin_le hmem h)
  obtain ⟨c, cs, -, -, htrim⟩ := exists_trimStart h
  have hne : (String.ofList (shifted (margin (lines block)) line)).isEmpty = false := by
    rw [hshifted, htrim]
    simp
  refine ⟨front, left, hblanks, ?_, hcut⟩
  rw [movedLine, indented, hne, hshifted]
  simp

theorem isBlank_of_mem_replicate {k : Nat} (h : c ∈ List.replicate k ' ') : isBlank c := by
  rw [(List.mem_replicate.1 h).2]
  decide

/-- The blanks in front of what is written. -/
theorem leadingBlanks_movedLine {level : Nat} {left out : List Char}
    (hleft : ∀ c ∈ left, isBlank c) (h : isBlankLine line = false)
    (hout : out = List.replicate (2 * level) ' ' ++ left ++ trim line) :
    leadingBlanks out = List.replicate (2 * level) ' ' ++ left := by
  obtain ⟨c, cs, hc, -, htrim⟩ := exists_trimStart h
  rw [hout, htrim]
  refine leadingBlanks_append (fun d hd => ?_) hc _
  rcases List.mem_append.1 hd with hd | hd
  · exact isBlank_of_mem_replicate hd
  · exact hleft d hd

/-- **Only the blanks at the ends of a line change.** -/
theorem trim_movedLine (level : Nat) {block : List Char} (hmem : line ∈ lines block) :
    trim (movedLine level block line).toList = trim line := by
  by_cases h : isBlankLine line
  · have hall : ∀ c ∈ line, isBlank c := List.all_eq_true.1 h
    rw [movedLine_of_isBlankLine level block h, ← List.append_nil line, trim_append_left hall]
    rfl
  · obtain ⟨front, left, hblanks, hmoved, -⟩ := exists_movedLine level hmem (by simpa using h)
    have hleft : ∀ c ∈ left, isBlank c := fun c hc =>
      isBlank_of_mem_leadingBlanks (hblanks ▸ List.mem_append_right front hc)
    have hfront : ∀ c ∈ List.replicate (2 * level) ' ' ++ left, isBlank c := by
      intro c hc
      rcases List.mem_append.1 hc with hc | hc
      · exact isBlank_of_mem_replicate hc
      · exact hleft c hc
    rw [hmoved, trim_append_left hfront]
    exact trim_trim line

/-- **Every line that is not blank moves equally far**, where the blanks in front are ASCII. -/
theorem length_leadingBlanks_movedLine (level : Nat) {block : List Char} (hmem : line ∈ lines block)
    (h : isBlankLine line = false) (hascii : ∀ c ∈ leadingBlanks line, c.toNat < 0x80) :
    (leadingBlanks (movedLine level block line).toList).length + margin (lines block) =
      2 * level + (leadingBlanks line).length := by
  obtain ⟨front, left, hblanks, hmoved, hcut⟩ := exists_movedLine level hmem h
  have hleft : ∀ c ∈ left, isBlank c := fun c hc =>
    isBlank_of_mem_leadingBlanks (hblanks ▸ List.mem_append_right front hc)
  have hfront : front.length = margin (lines block) := by
    rcases hcut with hbytes | hnone
    · rw [← hbytes, byteLength_of_ascii]
      exact fun c hc => hascii c (hblanks ▸ List.mem_append_left left hc)
    · exact absurd hnone (dropBytes?_ne_none hascii (margin_le hmem h))
  rw [leadingBlanks_movedLine hleft h hmoved, hblanks, List.length_append, List.length_append,
    List.length_replicate]
  omega

/-! ## The whole block -/

theorem getLast?_movedLine_ne (level : Nat) {block : List Char} (hmem : line ∈ lines block) :
    '\n' ∉ (movedLine level block line).toList ∧
      (movedLine level block line).toList.getLast? ≠ some '\r' := by
  by_cases h : isBlankLine line
  · rw [movedLine_of_isBlankLine level block h]
    exact ⟨List.not_mem_nil, by simp⟩
  · have hnonblank : isBlankLine line = false := by simpa using h
    obtain ⟨front, left, hblanks, hmoved, -⟩ := exists_movedLine level hmem hnonblank
    obtain ⟨c, cs, hc, -, htrim⟩ := exists_trimStart hnonblank
    have hnot := newline_not_mem_of_mem_lines hmem
    have hblank : ∀ d ∈ leadingBlanks line, d ≠ '\n' := by
      intro d hd heq
      exact hnot (heq ▸ (List.takeWhile_prefix _).mem hd)
    rw [hmoved]
    constructor
    · intro hn
      rcases List.mem_append.1 hn with hn | hn
      · rcases List.mem_append.1 hn with hn | hn
        · exact absurd (List.mem_replicate.1 hn).2 (by decide)
        · exact hblank '\n' (hblanks ▸ List.mem_append_right front hn) rfl
      · exact hnot ((trim_isInfix line).mem hn)
    · -- the last character is that of the trimmed line, which is no blank
      intro hlast
      rw [List.getLast?_append, htrim, List.getLast?_cons, Option.some_or] at hlast
      have hend := isBlank_getLast_of_trim (trim_trim line) (c := '\r')
        (by rw [htrim, List.getLast?_cons, hlast]; exact Option.mem_some_self _)
      exact absurd hend (by decide)

theorem linesOf_unlines_moved (level : Nat) {block : List Char} {ls : List (List Char)}
    (h : ∀ line ∈ ls, line ∈ lines block) :
    linesOf (unlines (ls.map (movedLine level block))) = ls.map (movedLine level block) := by
  induction ls with
  | nil => rfl
  | cons line ls ih =>
    rw [List.forall_mem_cons] at h
    obtain ⟨hn, hr⟩ := getLast?_movedLine_ne level h.1
    rw [List.map_cons, unlines_cons, linesOf, String.toList_append, String.toList_append,
      List.append_assoc]
    show (lines ((movedLine level block line).toList ++ '\n' :: _)).map String.ofList = _
    rw [lines_append_cons hn hr, List.map_cons, String.ofList_toList]
    exact congrArg _ (ih h.2)

/-- **A block is moved and nothing else.** What is appended is one line for each line of the block,
in order. Each is the line up to the blanks at its ends, and empty if the line is blank. If all
blanks in front are ASCII, then of two lines that are not blank the one is indented beyond the other
as far as before. -/
theorem addBlock_moves (w : Writer) (block : List Char) :
    w.addBlock block =
        ⟨w.text ++ unlines ((lines block).map (movedLine w.level block)), w.level⟩ ∧
      linesOf (unlines ((lines block).map (movedLine w.level block))) =
        (lines block).map (movedLine w.level block) ∧
      (∀ line ∈ lines block,
        trim (movedLine w.level block line).toList = trim line ∧
          (isBlankLine line → movedLine w.level block line = "")) ∧
      ((∀ line ∈ lines block, ∀ c ∈ leadingBlanks line, c.toNat < 0x80) →
        ∀ a ∈ lines block, ∀ b ∈ lines block, isBlankLine a = false → isBlankLine b = false →
          ((leadingBlanks (movedLine w.level block a).toList).length : Int) -
              (leadingBlanks (movedLine w.level block b).toList).length =
            (leadingBlanks a).length - (leadingBlanks b).length) := by
  refine ⟨addBlock_eq w block, linesOf_unlines_moved w.level fun _ => id, ?_, ?_⟩
  · intro line hline
    exact ⟨trim_movedLine w.level hline, movedLine_of_isBlankLine w.level block⟩
  · intro hascii a ha b hb hblankA hblankB
    have hmovedA := length_leadingBlanks_movedLine w.level ha hblankA (hascii a ha)
    have hmovedB := length_leadingBlanks_movedLine w.level hb hblankB (hascii b hb)
    omega

/-- A tab counts like a space, and the blank line in between does not count. -/
def tabbedBlock : List Char := "  b\r\n \n\t  c \n".toList

/-- The block is written behind a line that has begun. -/
theorem addBlock_moves_tabbed :
    ((⟨"a", 1⟩ : Writer).addBlock tabbedBlock).text = "a  b\n\n   c\n" ∧
      (∀ line ∈ lines tabbedBlock, ∀ c ∈ leadingBlanks line, c.toNat < 0x80) ∧
      ((leadingBlanks (movedLine 1 tabbedBlock "\t  c ".toList).toList).length : Int) -
          (leadingBlanks (movedLine 1 tabbedBlock "  b".toList).toList).length = 3 - 2 := by
  have hmoves := addBlock_moves ⟨"a", 1⟩ tabbedBlock
  have hall : (lines tabbedBlock).all fun line =>
      (leadingBlanks line).all fun c => c.toNat < 0x80 := by decide
  have hascii : ∀ line ∈ lines tabbedBlock, ∀ c ∈ leadingBlanks line, c.toNat < 0x80 :=
    fun line hline c hc =>
      of_decide_eq_true (List.all_eq_true.1 (List.all_eq_true.1 hall line hline) c hc)
  refine ⟨by decide, hascii, ?_⟩
  exact hmoves.2.2.2 hascii "\t  c ".toList (by decide) "  b".toList (by decide) (by decide)
    (by decide)

end Writer

end SvelteTypings.Text
