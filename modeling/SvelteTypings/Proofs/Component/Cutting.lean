import Mathlib.Data.List.Infix
import SvelteTypings.Component.Blocks
import SvelteTypings.Proofs.Text.Removing
import SvelteTypings.Proofs.Text.Searching

/-!
# The cut of a component

A source is cut at the leftmost opening script tag, then at the next closing tag, and so on behind
that. The cut is told without the searches that find it (`CutsInto`): either all of the source is
cut into blocks and a text in which no script begins (`cut_eq_ok_iff`), or a script begins that has
no end (`cut_eq_error_iff`).
-/

namespace SvelteTypings.Component

variable {name : String} {c : Char} {cs attrs before rest gap source : List Char}
  {b : ScriptBlock} {bs : List ScriptBlock}

/-! ## Opening tags -/

/-- What may stand between the name of a tag and its end. -/
def IsAttributes (attrs : List Char) : Prop := '>' ∉ attrs ∧ ∀ c ∈ attrs.head?, Text.isBlank c

instance (attrs : List Char) : Decidable (IsAttributes attrs) :=
  decidable_of_iff ('>' ∉ attrs ∧ attrs.head?.all Text.isBlank) (by
    rw [Option.all_eq_true, IsAttributes]
    rfl)

def tagText (name : String) (attrs : List Char) : List Char :=
  '<' :: (name.toList ++ (attrs ++ ['>']))

/-- A text begins with an opening tag. -/
def BeginsTag (name : String) (cs : List Char) : Prop :=
  ∃ attrs, IsAttributes attrs ∧ tagText name attrs <+: cs

theorem afterTagName?_eq_some_iff :
    afterTagName? cs = some (attrs, rest) ↔ IsAttributes attrs ∧ cs = attrs ++ '>' :: rest := by
  constructor
  · intro h
    refine ⟨?_, eq_of_afterTagName? h⟩
    cases cs with
    | nil => exact absurd h (by simp [afterTagName?])
    | cons c cs =>
      rw [afterTagName?] at h
      split at h
      · obtain ⟨rfl, -⟩ := Prod.mk.inj (Option.some.inj h)
        exact ⟨List.not_mem_nil, by simp⟩
      · next hend =>
        split at h
        · next hblank =>
          obtain ⟨⟨inside, after⟩, hcut, heq⟩ := Option.map_eq_some_iff.1 h
          obtain ⟨rfl, rfl⟩ := Prod.mk.inj heq
          have hinside := (Text.cut?_singleton_eq_some_iff.1 hcut).2
          exact ⟨by simpa [Ne.symm hend] using hinside, by simpa using hblank⟩
        · exact absurd h (by simp)
  · rintro ⟨⟨hend, hblank⟩, rfl⟩
    cases attrs with
    | nil => simp [afterTagName?]
    | cons c attrs =>
      obtain ⟨hc, hattrs⟩ := not_or.1 (mt List.mem_cons.2 hend)
      have hcut : Text.cut? ['>'] (attrs ++ '>' :: rest) = some (attrs, rest) :=
        Text.cut?_singleton_eq_some_iff.2 ⟨rfl, hattrs⟩
      rw [List.cons_append, afterTagName?, if_neg (Ne.symm hc), if_pos (hblank c rfl), hcut]
      rfl

theorem openTag?_eq_some_iff :
    openTag? name cs = some (attrs, rest) ↔
      IsAttributes attrs ∧ cs = tagText name attrs ++ rest := by
  have htext : tagText name attrs ++ rest = ('<' :: name.toList) ++ (attrs ++ '>' :: rest) := by
    simp only [tagText, List.cons_append, List.append_assoc, List.nil_append]
  rw [openTag?, Option.bind_eq_some_iff, htext]
  constructor
  · rintro ⟨tail, htail, h⟩
    obtain ⟨hattrs, rfl⟩ := afterTagName?_eq_some_iff.1 h
    exact ⟨hattrs, (Text.afterStart?_eq_some_iff _ _ _).1 htail⟩
  · rintro ⟨hattrs, rfl⟩
    exact ⟨_, (Text.afterStart?_eq_some_iff _ _ _).2 rfl,
      afterTagName?_eq_some_iff.2 ⟨hattrs, rfl⟩⟩

theorem beginsTag_iff : BeginsTag name cs ↔ (openTag? name cs).isSome := by
  rw [Option.isSome_iff_exists]
  constructor
  · rintro ⟨attrs, hattrs, rest, rfl⟩
    exact ⟨(attrs, rest), openTag?_eq_some_iff.2 ⟨hattrs, rfl⟩⟩
  · rintro ⟨⟨attrs, rest⟩, h⟩
    obtain ⟨hattrs, rfl⟩ := openTag?_eq_some_iff.1 h
    exact ⟨attrs, hattrs, List.prefix_append _ _⟩

instance (name : String) (cs : List Char) : Decidable (BeginsTag name cs) :=
  decidable_of_iff _ beginsTag_iff.symm

theorem openTag?_eq_none_iff : openTag? name cs = none ↔ ¬ BeginsTag name cs := by
  rw [beginsTag_iff, Option.not_isSome_iff_eq_none]

theorem beginsTag_tagText (hattrs : IsAttributes attrs) (rest : List Char) :
    BeginsTag name (tagText name attrs ++ rest) := ⟨attrs, hattrs, List.prefix_append _ _⟩

/-- No opening tag begins in a text that is followed by the given one. -/
def Untagged (name : String) (gap rest : List Char) : Prop :=
  ∀ back, back <:+ gap → back ≠ [] → ¬ BeginsTag name (back ++ rest)

instance (name : String) (gap rest : List Char) : Decidable (Untagged name gap rest) :=
  decidable_of_iff (∀ back ∈ gap.tails, back ≠ [] → ¬ BeginsTag name (back ++ rest)) (by
    simp only [List.mem_tails, Untagged])

theorem untagged_nil (name : String) (rest : List Char) : Untagged name [] rest :=
  fun _ hback hne => absurd (List.suffix_nil.1 hback) hne

theorem untagged_cons_iff :
    Untagged name (c :: gap) rest ↔
      ¬ BeginsTag name (c :: (gap ++ rest)) ∧ Untagged name gap rest := by
  constructor
  · intro h
    exact ⟨h _ (List.suffix_refl _) (List.cons_ne_nil _ _),
      fun back hback => h back (hback.trans (List.suffix_cons _ _))⟩
  · rintro ⟨hfirst, hgap⟩ back hback hne
    rcases List.suffix_cons_iff.1 hback with rfl | hback
    · exact hfirst
    · exact hgap back hback hne

theorem cutScriptTag?_eq_some_iff :
    cutScriptTag? cs = some (before, attrs, rest) ↔
      cs = before ++ (tagText "script" attrs ++ rest) ∧ IsAttributes attrs ∧
        Untagged "script" before (tagText "script" attrs ++ rest) := by
  induction cs generalizing before with
  | nil => simp [cutScriptTag?, tagText]
  | cons c cs ih =>
    rw [cutScriptTag?]
    cases htag : openTag? "script" (c :: cs) with
    | some found =>
      obtain ⟨attrs', rest'⟩ := found
      obtain ⟨hattrs', heq⟩ := openTag?_eq_some_iff.1 htag
      constructor
      · intro h
        obtain ⟨rfl, rfl, rfl⟩ := by simpa using h
        exact ⟨heq, hattrs', untagged_nil _ _⟩
      · rintro ⟨hcs, hattrs, huntagged⟩
        -- a text in front of the tag would hold the tag that is found
        obtain rfl : before = [] := by
          by_contra hne
          refine huntagged before (List.suffix_refl _) hne ?_
          rw [← hcs, heq]
          exact beginsTag_tagText hattrs' rest'
        have hfound := openTag?_eq_some_iff.2 ⟨hattrs, hcs⟩
        rw [htag] at hfound
        obtain ⟨rfl, rfl⟩ := Prod.mk.inj (Option.some.inj hfound)
        rfl
    | none =>
      have hnone := openTag?_eq_none_iff.1 htag
      constructor
      · intro h
        obtain ⟨⟨b, a, r⟩, hcut, heq⟩ := Option.map_eq_some_iff.1 h
        obtain ⟨rfl, rfl, rfl⟩ := by simpa using heq
        obtain ⟨rfl, hattrs, huntagged⟩ := ih.1 hcut
        exact ⟨rfl, hattrs, untagged_cons_iff.2 ⟨hnone, huntagged⟩⟩
      · rintro ⟨hcs, hattrs, huntagged⟩
        cases before with
        | nil =>
          rw [hcs] at hnone
          exact absurd (beginsTag_tagText hattrs rest) hnone
        | cons d before =>
          obtain ⟨rfl, htail⟩ := List.cons.inj hcs
          have hcut := ih.2 ⟨htail, hattrs, (untagged_cons_iff.1 huntagged).2⟩
          rw [hcut]
          rfl

theorem cutScriptTag?_eq_none_iff : cutScriptTag? cs = none ↔ Untagged "script" cs [] := by
  induction cs with
  | nil => exact iff_of_true rfl (untagged_nil _ _)
  | cons c cs ih =>
    rw [cutScriptTag?, untagged_cons_iff, List.append_nil, ← ih, ← openTag?_eq_none_iff]
    cases openTag? "script" (c :: cs) with
    | some found => simp
    | none => simp

/-! ## Script blocks -/

/-- The tags of a block and what is between them. -/
def ScriptBlock.element (b : ScriptBlock) : List Char :=
  tagText "script" b.attrs ++ (b.content ++ scriptEnd)

/-- A block with the text in front of it. -/
def ScriptBlock.text (b : ScriptBlock) : List Char := b.before ++ b.element

/-- A source that goes on with `rest` behind a block begins with this block: its tag is the leftmost
one, and its end the first one. -/
structure ScriptBlock.Leads (b : ScriptBlock) (rest : List Char) : Prop where
  attrs : IsAttributes b.attrs
  leftmost : Untagged "script" b.before (b.element ++ rest)
  content : ¬ scriptEnd <:+: b.content

/-- A source begins with the given blocks, and `rest` follows them. -/
inductive CutsInto : List Char → List ScriptBlock → List Char → Prop
  | nil (rest : List Char) : CutsInto rest [] rest
  | cons {b : ScriptBlock} {source : List Char} {bs : List ScriptBlock} {rest : List Char} :
      b.Leads source → CutsInto source bs rest → CutsInto (b.text ++ source) (b :: bs) rest

/-- A source is cut into blocks and a text in which no script begins. -/
structure IsCut (source : List Char) (c : Cut) : Prop where
  blocks : CutsInto source c.blocks c.after
  after : Untagged "script" c.after []

/-- Behind blocks and a gap, the given number of bytes into a source, a script begins that has no
end. -/
def IsUnclosed (source : List Char) (offset : Nat) : Prop :=
  ∃ bs gap attrs content, CutsInto source bs (gap ++ (tagText "script" attrs ++ content)) ∧
    IsAttributes attrs ∧ Untagged "script" gap (tagText "script" attrs ++ content) ∧
    ¬ scriptEnd <:+: content ∧ offset = Text.byteLength (bs.flatMap (·.text) ++ gap)

/-- A cut loses nothing. -/
theorem CutsInto.eq (h : CutsInto source bs rest) : source = bs.flatMap (·.text) ++ rest := by
  induction h with
  | nil rest => rfl
  | cons _ _ ih => rw [ih, List.flatMap_cons, List.append_assoc, ← ih]

theorem endsOnce_scriptEnd : Text.EndsOnce scriptEnd := ⟨"</script".toList, '>', rfl, by decide⟩

theorem ScriptBlock.byteLength_text (b : ScriptBlock) :
    Text.byteLength b.text = b.byteLength := by
  have hname : Text.byteLength "<script".toList =
      '<'.utf8Size + Text.byteLength "script".toList := rfl
  have hend : '>'.utf8Size = 1 := by decide
  simp only [text, element, tagText, byteLength, Text.byteLength_append, Text.byteLength_cons,
    Text.byteLength_nil, hname, hend]
  omega

/-! ### Cutting at the start -/

theorem cutFrom_untagged (offset : Nat) (h : Untagged "script" source []) :
    cutFrom offset source = .ok ⟨[], source⟩ := by
  have hnone := cutScriptTag?_eq_none_iff.2 h
  rw [cutFrom]
  split
  · rfl
  · next hsome => exact absurd (hnone.symm.trans hsome) (by simp)

theorem cutFrom_unclosed (offset : Nat) {content : List Char} (hattrs : IsAttributes attrs)
    (hgap : Untagged "script" gap (tagText "script" attrs ++ content))
    (hcontent : ¬ scriptEnd <:+: content) :
    cutFrom offset (gap ++ (tagText "script" attrs ++ content)) =
      .error ⟨offset + Text.byteLength gap⟩ := by
  have htag := cutScriptTag?_eq_some_iff.2 ⟨rfl, hattrs, hgap⟩
  have hend := Text.cut?_eq_none_iff.2 hcontent
  rw [cutFrom]
  split
  · next hnone => exact absurd (hnone.symm.trans htag) (by simp)
  · next hsome =>
    obtain ⟨rfl, rfl, rfl⟩ := by simpa using htag.symm.trans hsome
    split
    · rfl
    · next hfound => exact absurd (hend.symm.trans hfound) (by simp)

theorem ScriptBlock.text_append (b : ScriptBlock) (rest : List Char) :
    b.text ++ rest =
      b.before ++ (tagText "script" b.attrs ++ (b.content ++ (scriptEnd ++ rest))) := by
  simp only [text, element, List.append_assoc]

theorem cutFrom_leads (offset : Nat) (h : b.Leads rest) :
    cutFrom offset (b.text ++ rest) =
      (cutFrom (offset + b.byteLength) rest).map fun c => ⟨b :: c.blocks, c.after⟩ := by
  have hleftmost := h.leftmost
  simp only [ScriptBlock.element, List.append_assoc] at hleftmost
  have htag := cutScriptTag?_eq_some_iff.2 ⟨rfl, h.attrs, hleftmost⟩
  have hend : Text.cut? scriptEnd (b.content ++ (scriptEnd ++ rest)) = some (b.content, rest) :=
    (Text.cut?_eq_some_iff endsOnce_scriptEnd).2 ⟨rfl, h.content⟩
  rw [b.text_append, cutFrom]
  split
  · next hnone => exact absurd (hnone.symm.trans htag) (by simp)
  · next hsome =>
    obtain ⟨rfl, rfl, rfl⟩ := by simpa using htag.symm.trans hsome
    split
    · next hnone => exact absurd (hnone.symm.trans hend) (by simp)
    · next hfound =>
      obtain ⟨rfl, rfl⟩ := by simpa using hend.symm.trans hfound
      rfl

/-- Blocks are cut off a source one by one. -/
theorem CutsInto.cutFrom (h : CutsInto source bs rest) (offset : Nat) :
    cutFrom offset source =
      (cutFrom (offset + Text.byteLength (bs.flatMap (·.text))) rest).map fun c =>
        ⟨bs ++ c.blocks, c.after⟩ := by
  induction h generalizing offset with
  | nil rest => exact (Except.map_id.symm ▸ rfl)
  | @cons b source bs rest hb _ ih =>
    rw [cutFrom_leads offset hb, ih, List.flatMap_cons, Text.byteLength_append,
      b.byteLength_text, Nat.add_assoc]
    cases Component.cutFrom (offset + (b.byteLength + Text.byteLength (bs.flatMap (·.text)))) rest
    · rfl
    · rfl

/-! ### The whole cut -/

theorem cut_of_isCut {c : Cut} (h : IsCut source c) : cut source = .ok c := by
  rw [cut, h.blocks.cutFrom, cutFrom_untagged _ h.after]
  simp [Except.map]

theorem cut_of_isUnclosed {offset : Nat} (h : IsUnclosed source offset) :
    cut source = .error ⟨offset⟩ := by
  obtain ⟨bs, gap, attrs, content, hcuts, hattrs, hgap, hcontent, rfl⟩ := h
  rw [cut, hcuts.cutFrom, cutFrom_unclosed _ hattrs hgap hcontent, Nat.zero_add,
    ← Text.byteLength_append]
  rfl

/-- A source is either cut whole, or a script of it has no end. -/
theorem isCut_or_isUnclosed (source : List Char) :
    (∃ c, IsCut source c) ∨ ∃ offset, IsUnclosed source offset := by
  cases htag : cutScriptTag? source with
  | none => exact .inl ⟨⟨[], source⟩, .nil source, cutScriptTag?_eq_none_iff.1 htag⟩
  | some found =>
    obtain ⟨gap, attrs, content⟩ := found
    obtain ⟨hsource, hattrs, hgap⟩ := cutScriptTag?_eq_some_iff.1 htag
    cases hend : Text.cut? scriptEnd content with
    | none =>
      exact .inr ⟨_, [], gap, attrs, content, hsource ▸ .nil _, hattrs, hgap,
        Text.cut?_eq_none_iff.1 hend, rfl⟩
    | some found =>
      obtain ⟨inside, rest⟩ := found
      obtain ⟨hcontent, hinside⟩ := (Text.cut?_eq_some_iff endsOnce_scriptEnd).1 hend
      let b : ScriptBlock := ⟨gap, attrs, inside⟩
      have htext : source = b.text ++ rest := by rw [b.text_append, hsource, hcontent]
      have hlead : b.Leads rest := by
        refine ⟨hattrs, ?_, hinside⟩
        rw [hcontent] at hgap
        simpa only [ScriptBlock.element, List.append_assoc] using hgap
      have hlt : rest.length < source.length := by
        rw [htext, b.text_append]
        simp only [tagText, List.length_append, List.length_cons]
        omega
      rcases isCut_or_isUnclosed rest with ⟨c, hc⟩ | ⟨offset, bs, gap', attrs', content', h⟩
      · exact .inl ⟨⟨b :: c.blocks, c.after⟩, htext ▸ .cons hlead hc.blocks, hc.after⟩
      · obtain ⟨hcuts, hattrs', hgap', hcontent', -⟩ := h
        exact .inr ⟨_, b :: bs, gap', attrs', content', htext ▸ .cons hlead hcuts, hattrs', hgap',
          hcontent', rfl⟩
termination_by source.length

theorem cut_eq_ok_iff {c : Cut} : cut source = .ok c ↔ IsCut source c := by
  refine ⟨fun h => ?_, cut_of_isCut⟩
  rcases isCut_or_isUnclosed source with ⟨c', hc'⟩ | ⟨offset, hoffset⟩
  · obtain rfl : c' = c := Except.ok.inj ((cut_of_isCut hc').symm.trans h)
    exact hc'
  · exact absurd ((cut_of_isUnclosed hoffset).symm.trans h) (by simp)

theorem cut_eq_error_iff {e : Unclosed} : cut source = .error e ↔ IsUnclosed source e.offset := by
  refine ⟨fun h => ?_, cut_of_isUnclosed⟩
  rcases isCut_or_isUnclosed source with ⟨c, hc⟩ | ⟨offset, hoffset⟩
  · exact absurd ((cut_of_isCut hc).symm.trans h) (by simp)
  · obtain rfl : ⟨offset⟩ = e := Except.error.inj ((cut_of_isUnclosed hoffset).symm.trans h)
    exact hoffset

end SvelteTypings.Component
