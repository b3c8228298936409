import SvelteTypings.Component.Parts
import SvelteTypings.Proofs.Component.Blocks

/-!
# Comments in the markup

A comment that is put into the markup of a component changes none of its parts
(`parts_insert_comment`). Scripts, styles and comments are found one kind after the other, so what a
comment holds must not be taken for the start of a script, nor for a style that is open at its end:
a script in a comment is read as a script (`parts_commented_script`).
-/

namespace SvelteTypings.Component

variable {name : String} {c : Char} {a b t xs ys zs gap rest source opening : List Char}
  {bs : List ScriptBlock}

/-! ## Places outside of tags -/

/-- What makes a tag, a closing tag or a comment of a `<`. -/
def opensTag (c : Char) : Bool := c.isAlpha || c = '/' || c = '!'

/-- The place between two texts is inside a tag. -/
def InTag (front behind : List Char) : Prop :=
  ∃ inside, '<' :: inside <:+ front ∧ '>' ∉ inside ∧ ∃ c ∈ (inside ++ behind).head?, opensTag c

instance (front behind : List Char) : Decidable (InTag front behind) :=
  decidable_of_iff (∃ back ∈ front.tails, back.head? = some '<' ∧ '>' ∉ back.tail ∧
    (back.tail ++ behind).head?.any opensTag) (by
      simp only [List.mem_tails, InTag, Option.any_eq_true, Option.mem_def]
      constructor
      · rintro ⟨back, hsuffix, hhead, hend, hopens⟩
        obtain ⟨inside, rfl⟩ := List.head?_eq_some_iff.1 hhead
        exact ⟨inside, hsuffix, hend, hopens⟩
      · rintro ⟨inside, hsuffix, hend, hopens⟩
        exact ⟨_, hsuffix, rfl, hend, hopens⟩)

/-- A text that can open a tag or a comment. It has no `>`, unless that is its end. -/
structure IsOpening (opening : List Char) : Prop where
  opens : ∃ c rest, opening = '<' :: c :: rest ∧ opensTag c
  inside : '>' ∉ opening.dropLast

theorem isOpening_commentStart : IsOpening commentStart := ⟨⟨'!', ['-', '-'], rfl, rfl⟩, by decide⟩

/-- A name that a tag can have. -/
def IsTagName (name : String) : Prop :=
  '>' ∉ name.toList ∧ ∃ c rest, name.toList = c :: rest ∧ opensTag c

theorem isTagName_script : IsTagName "script" := ⟨by decide, 's', "cript".toList, rfl, rfl⟩

theorem isTagName_style : IsTagName "style" := ⟨by decide, 's', "tyle".toList, rfl, rfl⟩

theorem dropLast_tagText (name : String) (attrs : List Char) :
    (tagText name attrs).dropLast = '<' :: (name.toList ++ attrs) := by
  rw [tagText, ← List.append_assoc, ← List.cons_append, List.dropLast_concat]

theorem IsTagName.isOpening_tagText (hname : IsTagName name) {attrs : List Char}
    (hattrs : IsAttributes attrs) : IsOpening (tagText name attrs) := by
  obtain ⟨hend, c, rest, hname, hc⟩ := hname
  refine ⟨⟨c, rest ++ (attrs ++ ['>']), by rw [tagText, hname]; rfl, hc⟩, ?_⟩
  rw [dropLast_tagText]
  simp [hend, hattrs.1]

/-- What opens outside of tags does not reach over the place. -/
theorem IsOpening.isPrefix_of_append (hopening : IsOpening opening) (hplace : ¬ InTag xs ys)
    (hsuffix : zs <:+ xs) (hne : zs ≠ []) (h : opening <+: zs ++ ys) : opening <+: zs := by
  by_cases hle : opening.length ≤ zs.length
  · exact List.prefix_of_prefix_length_le h (List.prefix_append _ _) hle
  · -- otherwise all of `zs` belongs to what opens, and the place is inside of it
    obtain ⟨⟨c, rest, rfl, hc⟩, hend⟩ := hopening
    have hzs : zs <+: ('<' :: c :: rest).dropLast := by
      refine List.prefix_of_prefix_length_le (List.prefix_append zs ys)
        ((List.dropLast_prefix _).trans h) ?_
      rw [List.length_dropLast]
      omega
    obtain ⟨d, inside, rfl⟩ := List.exists_cons_of_ne_nil hne
    obtain ⟨rfl, hinside⟩ := List.cons_prefix_cons.1 (hzs.trans (List.dropLast_prefix _))
    have hnot : '>' ∉ inside := fun hmem => hend (hzs.subset (List.mem_cons_of_mem _ hmem))
    obtain ⟨tail, htail⟩ : c :: rest <+: inside ++ ys := (List.cons_prefix_cons.1 h).2
    exact absurd ⟨inside, hsuffix, hnot, c, by rw [← htail]; rfl, hc⟩ hplace

theorem beginsTag_of_append (hname : IsTagName name) (hplace : ¬ InTag xs ys) (hsuffix : zs <:+ xs)
    (hne : zs ≠ []) (h : BeginsTag name (zs ++ ys)) : BeginsTag name zs := by
  obtain ⟨attrs, hattrs, hprefix⟩ := h
  exact ⟨attrs, hattrs,
    (hname.isOpening_tagText hattrs).isPrefix_of_append hplace hsuffix hne hprefix⟩

/-- A place stays outside of tags if a tag or a comment begins there. -/
theorem not_inTag_lt (h : ¬ InTag xs ys) (zs : List Char) : ¬ InTag xs ('<' :: zs) := by
  rintro ⟨inside, hsuffix, hend, d, hd, hopens⟩
  cases inside with
  | nil =>
    obtain rfl := Option.some.inj hd
    exact absurd hopens (by decide)
  | cons e inside => exact h ⟨e :: inside, hsuffix, hend, d, hd, hopens⟩

/-- Behind the end of a tag is no tag. -/
theorem not_inTag_gt (xs ys : List Char) : ¬ InTag (xs ++ ['>']) ys := by
  rintro ⟨inside, hsuffix, hend, d, hd, hopens⟩
  rcases List.eq_nil_or_concat inside with rfl | ⟨inside, e, rfl⟩
  · obtain ⟨front, heq⟩ := hsuffix
    exact absurd (List.append_inj_right' heq rfl) (by decide)
  · obtain ⟨front, heq⟩ := hsuffix
    rw [List.concat_eq_append, ← List.cons_append, ← List.append_assoc] at heq
    obtain rfl : e = '>' := by simpa using List.append_inj_right' heq rfl
    exact hend (by simp)

/-! ## Cutting two texts as one -/

/-- What follows does not change that no tag begins, behind a `>`. -/
theorem Untagged.append (h : Untagged name gap rest) (hname : IsTagName name) (hend : '>' ∈ rest)
    (more : List Char) : Untagged name gap (rest ++ more) := by
  rintro back hback hne ⟨attrs, hattrs, hprefix⟩
  rw [← List.append_assoc] at hprefix
  by_cases hle : (tagText name attrs).length ≤ (back ++ rest).length
  · exact h back hback hne
      ⟨attrs, hattrs, List.prefix_of_prefix_length_le hprefix (List.prefix_append _ _) hle⟩
  · have hinside : back ++ rest <+: (tagText name attrs).dropLast := by
      refine List.prefix_of_prefix_length_le (List.prefix_append _ more)
        ((List.dropLast_prefix _).trans hprefix) ?_
      rw [List.length_dropLast]
      omega
    exact (hname.isOpening_tagText hattrs).inside
      (hinside.subset (List.mem_append_right _ hend))

theorem untagged_append_iff :
    Untagged name (xs ++ ys) rest ↔ Untagged name xs (ys ++ rest) ∧ Untagged name ys rest := by
  induction xs with
  | nil => simp [untagged_nil]
  | cons c xs ih => rw [List.cons_append, untagged_cons_iff, untagged_cons_iff, ih, and_assoc,
      List.append_assoc]

/-- What stands behind the last block of one cut stands before the first block of the next. -/
def Cut.append (c d : Cut) : Cut :=
  match d.blocks with
  | [] => ⟨c.blocks, c.after ++ d.after⟩
  | b :: bs => ⟨c.blocks ++ { b with before := c.after ++ b.before } :: bs, d.after⟩

theorem Cut.remainder_append (c d : Cut) :
    (c.append d).remainder = c.remainder ++ d.remainder := by
  rw [append, remainder, remainder, remainder]
  cases d.blocks with
  | nil => simp
  | cons b bs => simp

theorem CutsInto.append {source' : List Char} {bs' : List ScriptBlock} {rest' : List Char}
    (h : CutsInto source bs rest) (h' : CutsInto (rest ++ source') bs' rest') :
    CutsInto (source ++ source') (bs ++ bs') rest' := by
  induction h with
  | nil rest => exact h'
  | @cons b source bs rest hb _ ih =>
    have hlead : b.Leads (source ++ source') := by
      refine ⟨hb.attrs, ?_, hb.content⟩
      rw [← List.append_assoc]
      exact hb.leftmost.append isTagName_script (by simp [ScriptBlock.element, tagText]) source'
    rw [List.append_assoc, List.cons_append]
    exact .cons hlead (ih h')

/-- Two texts are cut as one if the place between them is outside of tags. -/
theorem IsCut.append {c d : Cut} (hc : IsCut xs c) (hd : IsCut ys d) (hplace : ¬ InTag xs ys) :
    IsCut (xs ++ ys) (c.append d) := by
  have hsuffix : c.after <:+ xs := ⟨_, hc.blocks.eq.symm⟩
  have hafter : Untagged "script" c.after ys := fun back hback hne hbegins =>
    hc.after back hback hne (by
      rw [List.append_nil]
      exact beginsTag_of_append isTagName_script hplace (hback.trans hsuffix) hne hbegins)
  obtain ⟨blocks, after⟩ := d
  obtain ⟨hblocks, hend⟩ := hd
  cases hblocks with
  | nil =>
    rw [Cut.append]
    have hjoined := hc.blocks.append (CutsInto.nil (c.after ++ after))
    rw [List.append_nil] at hjoined
    exact ⟨hjoined, untagged_append_iff.2 ⟨by rwa [List.append_nil], hend⟩⟩
  | @cons b source bs _ hb hbs =>
    let joined : ScriptBlock := { b with before := c.after ++ b.before }
    have htext : c.after ++ (b.text ++ source) = joined.text ++ source := by
      simp [joined, ScriptBlock.text, ScriptBlock.element]
    have hlead : joined.Leads source := by
      refine ⟨hb.attrs, untagged_append_iff.2 ⟨?_, hb.leftmost⟩, hb.content⟩
      rwa [ScriptBlock.text, List.append_assoc] at hafter
    rw [Cut.append]
    refine ⟨hc.blocks.append (htext ▸ ?_), hend⟩
    exact .cons hlead hbs

/-- The scripts of a cut depend on its tags and what is between them. -/
theorem Cut.script?_congr {c d : Cut}
    (h : c.blocks.map (fun b => (b.attrs, b.content)) = d.blocks.map fun b => (b.attrs, b.content))
    (module : Bool) : c.script? module = d.script? module := by
  have hpairs : ∀ bs : List ScriptBlock,
      ((bs.filter fun b => isModule b.attrs = module).getLast?).map (·.content) =
        (((bs.map fun b => (b.attrs, b.content)).filter fun b => isModule b.1 = module).getLast?).map
          Prod.snd := by
    intro bs
    rw [List.filter_map, List.getLast?_map, Option.map_map]
    rfl
  rw [script?, script?, hpairs, hpairs, h]

theorem Cut.map_blocks_append (c d : Cut) :
    (c.append d).blocks.map (fun b => (b.attrs, b.content)) =
      c.blocks.map (fun b => (b.attrs, b.content)) ++
        d.blocks.map fun b => (b.attrs, b.content) := by
  rw [append]
  cases d.blocks with
  | nil => simp
  | cons b bs => simp

/-! ## Removing from two texts as one -/

def unstyled (cs : List Char) : List Char := Text.removeAll matchStyle cs

def uncommented (cs : List Char) : List Char := Text.removeAll matchComment cs

/-- From left to right, each style that begins in a text ends there. -/
def ClosesStyles (cs : List Char) : Prop := Text.Closes IsStyle (BeginsTag "style") cs

def ClosesComments (cs : List Char) : Prop := Text.Closes IsComment (commentStart <+: ·) cs

/-- Texts in which no style begins may stand in front. -/
theorem ClosesStyles.append_left (hys : ClosesStyles ys) (hxs : Untagged "style" xs ys) :
    ClosesStyles (xs ++ ys) := Text.Closes.append_left hys hxs

theorem closesStyles_of_untagged (h : Untagged "style" xs []) : ClosesStyles xs := by
  have hclosed := ClosesStyles.append_left .nil h
  rwa [List.append_nil] at hclosed

theorem closesComments_of_not_isInfix (h : ¬ commentStart <:+: xs) : ClosesComments xs := by
  have hclosed : ClosesComments (xs ++ []) := by
    refine Text.Closes.append_left .nil fun zs hsuffix _ hprefix => h ?_
    rw [List.append_nil] at hprefix
    exact hprefix.isInfix.trans hsuffix.isInfix
  rwa [List.append_nil] at hclosed

theorem unstyled_append (hclosed : ClosesStyles xs) (hplace : ¬ InTag xs ys) :
    unstyled (xs ++ ys) = unstyled xs ++ unstyled ys := by
  refine finds_style.removeAll_append ?_ hclosed fun zs hsuffix hne h =>
    beginsTag_of_append isTagName_style hplace hsuffix hne h
  rintro p cs ⟨attrs, content, rfl, hattrs, -⟩ hprefix
  exact ⟨attrs, hattrs, (List.prefix_append _ _).trans hprefix⟩

theorem uncommented_append (hclosed : ClosesComments xs) (hplace : ¬ InTag xs ys) :
    uncommented (xs ++ ys) = uncommented xs ++ uncommented ys := by
  refine finds_comment.removeAll_append ?_ hclosed fun zs hsuffix hne h =>
    isOpening_commentStart.isPrefix_of_append hplace hsuffix hne h
  rintro p cs ⟨content, rfl, -⟩ hprefix
  exact (List.prefix_append _ _).trans hprefix

theorem uncommented_comment (h : IsComment xs) (ys : List Char) :
    uncommented (xs ++ ys) = uncommented ys := finds_comment.removeAll_part h ys

/-! ## Comments -/

/-- The place between two texts is in the markup of the component they make up. The text in front
leaves no script open, without its scripts no style, and without its styles no comment, and at each
of these stages the place is outside of tags. The text behind can be cut, too. -/
structure IsInMarkup (a b : List Char) (c d : Cut) : Prop where
  front : IsCut a c
  behind : IsCut b d
  outsideScripts : ¬ InTag a b
  closesStyles : ClosesStyles c.remainder
  outsideStyles : ¬ InTag c.remainder d.remainder
  closesComments : ClosesComments (unstyled c.remainder)
  outsideComments : ¬ InTag (unstyled c.remainder) (unstyled d.remainder)

/-- A text can be put into a comment: no script begins there, each style that begins there ends
there, too, and without its styles the comment is still one comment. -/
structure IsInert (t : List Char) : Prop where
  untagged : Untagged "script" (commentText t) []
  closesStyles : ClosesStyles (commentText t)
  isComment : IsComment (unstyled (commentText t))

theorem unstyled_of_untagged (h : Untagged "style" xs []) : unstyled xs = xs := by
  refine finds_style.removeAll_eq_self ?_
  rintro zs hsuffix hne p ⟨attrs, content, rfl, hattrs, -⟩ hprefix
  refine h zs hsuffix hne ⟨attrs, hattrs, ?_⟩
  rw [List.append_nil]
  exact (List.prefix_append _ _).trans hprefix

/-- Any text without `-->` can be put into a comment, if no script and no style begins there. -/
theorem isInert_of_untagged (hend : ¬ commentEnd <:+: t)
    (hscript : Untagged "script" (commentText t) [])
    (hstyle : Untagged "style" (commentText t) []) : IsInert t where
  untagged := hscript
  closesStyles := closesStyles_of_untagged hstyle
  isComment := by
    rw [unstyled_of_untagged hstyle]
    exact ⟨t, rfl, hend⟩

theorem parts_of_isCut {c : Cut} (h : IsCut xs c) :
    parts (String.ofList xs) = .ok (Parts.ofBlocks ⟨(c.script? true).map String.ofList,
      (c.script? false).map String.ofList, String.ofList c.markup⟩) := by
  rw [parts, blocks, String.toList_ofList, cut_of_isCut h]
  rfl

/-- Two sources have the same parts if they are cut into the same scripts and the same markup. -/
theorem parts_congr {c d : Cut} (hc : IsCut xs c) (hd : IsCut ys d)
    (hblocks : c.blocks.map (fun b => (b.attrs, b.content)) =
      d.blocks.map fun b => (b.attrs, b.content)) (hmarkup : c.markup = d.markup) :
    parts (String.ofList xs) = parts (String.ofList ys) := by
  rw [parts_of_isCut hc, parts_of_isCut hd, Cut.script?_congr hblocks, Cut.script?_congr hblocks,
    hmarkup]

theorem exists_commentText (t : List Char) : ∃ front, commentText t = front ++ ['>'] :=
  ⟨commentStart ++ (t ++ ['-', '-']), by simp [commentText, commentEnd]⟩

theorem IsComment.exists_cons (h : IsComment xs) (ys : List Char) : ∃ zs, xs ++ ys = '<' :: zs := by
  obtain ⟨content, rfl, -⟩ := h
  exact ⟨_, rfl⟩

theorem not_inTag_commentText (t ys : List Char) : ¬ InTag (commentText t) ys := by
  obtain ⟨front, hfront⟩ := exists_commentText t
  rw [hfront]
  exact not_inTag_gt front ys

/-- **A comment in the markup changes nothing.** -/
theorem parts_insert_comment {c d : Cut} (hplace : IsInMarkup a b c d) (ht : IsInert t) :
    ∃ p, parts (String.ofList (a ++ b)) = .ok p ∧
      parts (String.ofList (a ++ (commentText t ++ b))) = .ok p := by
  let comment : Cut := ⟨[], commentText t⟩
  have hcomment : IsCut (commentText t) comment := ⟨.nil _, ht.untagged⟩
  have hwhole := hplace.front.append hplace.behind hplace.outsideScripts
  have hinserted : IsCut (a ++ (commentText t ++ b)) (c.append (comment.append d)) :=
    hplace.front.append (hcomment.append hplace.behind (not_inTag_commentText t b))
      (not_inTag_lt hplace.outsideScripts _)
  refine ⟨_, parts_of_isCut hwhole, ?_⟩
  rw [← parts_of_isCut hwhole]
  -- The blocks are the same ones; the markup is the same once the comment is out of it.
  refine parts_congr hinserted hwhole ?_ ?_
  · simp only [Cut.map_blocks_append, comment, List.map_nil, List.nil_append]
  · have hbegins : ¬ InTag c.remainder (commentText t ++ d.remainder) :=
      not_inTag_lt hplace.outsideStyles _
    have hstyles : unstyled (c.remainder ++ (commentText t ++ d.remainder)) =
        unstyled c.remainder ++ (unstyled (commentText t) ++ unstyled d.remainder) := by
      rw [unstyled_append hplace.closesStyles hbegins,
        unstyled_append ht.closesStyles (not_inTag_commentText t _)]
    obtain ⟨zs, hzs⟩ := ht.isComment.exists_cons (unstyled d.remainder)
    have hopens : ¬ InTag (unstyled c.remainder)
        (unstyled (commentText t) ++ unstyled d.remainder) :=
      hzs ▸ not_inTag_lt hplace.outsideComments zs
    calc (c.append (comment.append d)).markup
        = uncommented (unstyled (c.remainder ++ (commentText t ++ d.remainder))) := by
          rw [Cut.markup, Cut.remainder_append, Cut.remainder_append]
          rfl
      _ = uncommented (unstyled c.remainder) ++ uncommented (unstyled d.remainder) := by
          rw [hstyles, uncommented_append hplace.closesComments hopens,
            uncommented_comment ht.isComment]
      _ = uncommented (unstyled (c.remainder ++ d.remainder)) := by
          rw [unstyled_append hplace.closesStyles hplace.outsideStyles,
            uncommented_append hplace.closesComments hplace.outsideComments]
      _ = (c.append d).markup := by
          rw [Cut.markup, Cut.remainder_append]
          rfl

/-- A script, a text that holds a `<` of its own, and a slot. -/
def counterScript : ScriptBlock := ⟨[], [], "\nexport let n;\n".toList⟩

def counterText : List Char := "\n<p>1 < 2, ".toList

def counterRest : List Char := "\x7bn\x7d</p>\n<slot />\n".toList

/-- A slot and a style that are commented out. -/
def asideText : List Char := "<slot name=\"old\" /><style>p \x7b \x7d</style> -".toList

theorem parts_insert_comment_aside :
    ∃ p, parts (String.ofList (counterScript.text ++ counterText ++ counterRest)) = .ok p ∧
      parts (String.ofList (counterScript.text ++ counterText ++
        (commentText asideText ++ counterRest))) = .ok p := by
  have huntagged : Untagged "style" counterText [] := by decide
  have hstyles : ClosesStyles counterText := closesStyles_of_untagged huntagged
  have hplace : IsInMarkup (counterScript.text ++ counterText) counterRest
      ⟨[counterScript], counterText⟩ ⟨[], counterRest⟩ :=
    { front := ⟨.cons ⟨by decide, by decide, by decide⟩ (.nil _), by decide⟩
      behind := ⟨.nil _, by decide⟩
      outsideScripts := by decide
      closesStyles := hstyles
      outsideStyles := by decide
      closesComments := closesComments_of_not_isInfix (by decide)
      outsideComments := by decide }
  have haside : IsInert asideText :=
    { untagged := by decide
      closesStyles := by
        -- the style stands between texts in which none begins
        have hstyle : IsStyle "<style>p \x7b \x7d</style>".toList :=
          ⟨[], "p \x7b \x7d".toList, rfl, by decide, by decide⟩
        have hbehind : ClosesStyles " --->".toList := closesStyles_of_untagged (by decide)
        have hfront : Untagged "style" "<!--<slot name=\"old\" />".toList
            ("<style>p \x7b \x7d</style>".toList ++ " --->".toList) := by decide
        have hclosed : ClosesStyles ("<!--<slot name=\"old\" />".toList ++
            ("<style>p \x7b \x7d</style>".toList ++ " --->".toList)) :=
          ClosesStyles.append_left (Text.Closes.part hstyle hbehind) hfront
        exact hclosed
      isComment := ⟨"<slot name=\"old\" /> -".toList, by decide, by decide⟩ }
  exact parts_insert_comment hplace haside

/-- A script in a comment is read as a script, and where the comment leaves a style open, the markup
up to the end of the next style is lost. -/
theorem parts_commented_script :
    ¬ commentEnd <:+: "<script>let a;</script>".toList ∧ ¬ commentEnd <:+: "<style>".toList ∧
      (parts "").toOption.map (·.body) = some "" ∧
      (parts "<!--<script>let a;</script>-->").toOption.map (·.body) = some "let a;\n" ∧
      (parts "<slot /><style></style>").toOption.map (·.slots) = some [⟨"default", []⟩] ∧
      (parts "<!--<style>--><slot /><style></style>").toOption.map (·.slots) = some [] := by
  refine ⟨by decide, by decide, ?_, ?_, ?_, ?_⟩
  all_goals decide +kernel

end SvelteTypings.Component
