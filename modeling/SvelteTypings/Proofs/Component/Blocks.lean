import Mathlib.Data.List.TakeWhile
import SvelteTypings.Proofs.Component.Cutting

/-!
# The blocks of a component

The scripts of a component are the contents of the last blocks of their kind, and the markup is what
stands between the blocks, without styles and then without comments. Together with the cut this says
what is read from any source, and when none can be read (`blocks_eq_iff`).
-/

namespace SvelteTypings.Component

open Text (isBlank)

variable {c : Char} {cs xs rest word attrs content : List Char} {bs : List ScriptBlock}

/-! ## Words -/

/-- A word stands in a text between blanks or the ends of the text. -/
def HasWord (word cs : List Char) : Prop :=
  ∃ front back, cs = front ++ (word ++ back) ∧ (∀ c ∈ front.getLast?, isBlank c) ∧
    ∀ c ∈ back.head?, isBlank c

theorem words_of_isBlank (hc : isBlank c) (cs : List Char) : words (c :: cs) = words cs := by
  rw [words, if_pos hc]

/-- A run of characters that are no blanks is the first word. -/
theorem words_append (hne : xs ≠ []) (hxs : ∀ c ∈ xs, isBlank c = false)
    (hrest : ∀ c ∈ rest.head?, isBlank c) : words (xs ++ rest) = xs :: words rest := by
  induction xs with
  | nil => exact absurd rfl hne
  | cons c xs ih =>
    obtain ⟨hc, hxs⟩ := List.forall_mem_cons.1 hxs
    have hnot : ¬ isBlank c = true := Bool.eq_false_iff.1 hc
    rw [List.cons_append, words, if_neg hnot]
    cases xs with
    | nil =>
      rw [List.nil_append]
      cases hwords : words rest with
      | nil => rfl
      | cons w ws =>
        -- the word that follows is set off by a blank
        have hblank : rest.head?.any isBlank := by
          cases rest with
          | nil => exact absurd hwords (by simp [words])
          | cons d rest => exact hrest d rfl
        exact if_pos hblank
    | cons d xs =>
      rw [ih (List.cons_ne_nil _ _) hxs]
      exact if_neg (by simpa using hxs d List.mem_cons_self)

theorem hasWord_append (hword : word ≠ []) (hnot : ∀ c ∈ word, isBlank c = false)
    (hxs : ∀ c ∈ xs, isBlank c = false) (hrest : ∀ c ∈ rest.head?, isBlank c) (hne : xs ≠ []) :
    HasWord word (xs ++ rest) ↔ word = xs ∨ HasWord word rest := by
  have hcontra : ∀ {c : Char} {P : Prop}, isBlank c = false → isBlank c → P := fun hf ht =>
    absurd ht (Bool.eq_false_iff.1 hf)
  constructor
  · rintro ⟨front, back, heq, hfront, hback⟩
    rcases List.append_eq_append_iff.1 heq with ⟨more, rfl, hrest'⟩ | ⟨more, hxs', hword'⟩
    · rcases List.eq_nil_or_concat more with rfl | ⟨more, d, rfl⟩
      · -- the word would stand right behind the run
        rw [List.append_nil] at hfront
        exact hcontra (hxs _ (List.getLast_mem hne)) (hfront _ (List.getLast?_eq_some_getLast hne))
      · refine .inr ⟨more ++ [d], back, by simpa using hrest', fun e he => hfront e ?_, hback⟩
        rwa [List.concat_eq_append, ← List.append_assoc, List.getLast?_concat,
          ← List.getLast?_concat (l := more)]
    · obtain rfl : front = [] := by
        rw [← List.getLast?_eq_none_iff, Option.eq_none_iff_forall_ne_some]
        intro d hd
        have hmem : d ∈ xs := hxs' ▸ List.mem_append_left _ (List.mem_of_getLast? hd)
        exact hcontra (hxs d hmem) (hfront d hd)
      rw [List.nil_append] at hxs'
      subst hxs'
      rcases List.append_eq_append_iff.1 hword' with ⟨more, hxs', rfl⟩ | ⟨more, rfl, rfl⟩
      · cases more with
        | nil => exact .inl (by simpa using hxs'.symm)
        | cons d more => exact hcontra (hxs d (by simp [hxs'])) (hback d rfl)
      · cases more with
        | nil => exact .inl (by simp)
        | cons d more => exact hcontra (hnot d (by simp)) (hrest d rfl)
  · rintro (rfl | ⟨front, back, rfl, hfront, hback⟩)
    · exact ⟨[], rest, rfl, by simp, hrest⟩
    · refine ⟨xs ++ front, back, by rw [List.append_assoc], fun d hd => hfront d ?_, hback⟩
      rcases List.eq_nil_or_concat front with rfl | ⟨front, e, rfl⟩
      · obtain ⟨e, word, rfl⟩ := List.exists_cons_of_ne_nil hword
        exact hcontra (hnot e List.mem_cons_self) (hrest e rfl)
      · rw [List.concat_eq_append] at hd ⊢
        rwa [← List.append_assoc, List.getLast?_concat, ← List.getLast?_concat (l := front)] at hd

theorem mem_words_iff (hword : word ≠ []) (hnot : ∀ c ∈ word, isBlank c = false)
    (cs : List Char) : word ∈ words cs ↔ HasWord word cs := by
  match cs with
  | [] => simp [words, HasWord, hword]
  | c :: cs =>
    by_cases hc : isBlank c
    · rw [words_of_isBlank hc, mem_words_iff hword hnot cs]
      constructor
      · rintro ⟨front, back, rfl, hfront, hback⟩
        refine ⟨c :: front, back, rfl, fun d hd => ?_, hback⟩
        cases front with
        | nil => exact Option.some.inj hd ▸ hc
        | cons f front => exact hfront d (by rwa [List.getLast?_cons_cons] at hd)
      · rintro ⟨front, back, heq, hfront, hback⟩
        cases front with
        | nil =>
          obtain ⟨d, word, rfl⟩ := List.exists_cons_of_ne_nil hword
          obtain ⟨rfl, -⟩ := List.cons.inj heq
          exact absurd hc (by simp [hnot c List.mem_cons_self])
        | cons f front =>
          refine ⟨front, back, (List.cons.inj heq).2, fun d hd => hfront d ?_, hback⟩
          cases front with
          | nil => exact absurd hd (by simp)
          | cons g front => rwa [List.getLast?_cons_cons]
    · -- the first word is a run of characters that are no blanks
      let isInner := fun c => !isBlank c
      have hne : (c :: cs).takeWhile isInner ≠ [] := by simp [isInner, hc]
      have hrun : ∀ d ∈ (c :: cs).takeWhile isInner, isBlank d = false := fun d hd => by
        simpa [isInner] using List.mem_takeWhile_imp hd
      have hrest : ∀ d ∈ ((c :: cs).dropWhile isInner).head?, isBlank d := fun d hd => by
        have hnot := List.head?_dropWhile_not isInner (c :: cs)
        rw [Option.mem_def.1 hd] at hnot
        simpa [isInner] using hnot
      have hlt : ((c :: cs).dropWhile isInner).length < (c :: cs).length := by
        have hsum := congrArg List.length (List.takeWhile_append_dropWhile (p := isInner)
          (l := c :: cs))
        have hpos := List.length_pos_iff.2 hne
        rw [List.length_append] at hsum
        omega
      rw [← List.takeWhile_append_dropWhile (p := isInner) (l := c :: cs),
        words_append hne hrun hrest, hasWord_append hword hnot hrun hrest hne, List.mem_cons,
        mem_words_iff hword hnot ((c :: cs).dropWhile isInner)]
termination_by cs.length
decreasing_by
  · exact Nat.lt_succ_self _
  · exact hlt

/-! ## Scripts -/

/-- The attributes of a module script: a context in either quotes, or the word itself. -/
def MarksModule (attrs : List Char) : Prop :=
  "context=\"module\"".toList <:+: attrs ∨ "context='module'".toList <:+: attrs ∨
    HasWord "module".toList attrs

theorem isModule_iff (attrs : List Char) : isModule attrs ↔ MarksModule attrs := by
  have hnot : "module".toList.all (!isBlank ·) := by decide
  have hword : "module".toList ∈ words attrs ↔ HasWord "module".toList attrs :=
    mem_words_iff (List.cons_ne_nil _ _) (fun c hc => by
      simpa using List.all_eq_true.1 hnot c hc) attrs
  rw [isModule, Bool.or_eq_true, Bool.or_eq_true, Text.containsText_iff, Text.containsText_iff,
    List.contains_iff_mem, hword, or_assoc]
  rfl

/-- The content of the last block of a kind, if there is one. -/
def IsLastContent (isKind : ScriptBlock → Prop) (bs : List ScriptBlock) :
    Option String → Prop
  | none => ∀ b ∈ bs, ¬ isKind b
  | some script => ∃ front b back, bs = front ++ b :: back ∧ isKind b ∧ (∀ b' ∈ back, ¬ isKind b') ∧
      script = String.ofList b.content

theorem isLastContent_iff {p : ScriptBlock → Bool} {isKind : ScriptBlock → Prop}
    (hp : ∀ b, p b ↔ isKind b) (bs : List ScriptBlock) (script : Option String) :
    IsLastContent isKind bs script ↔
      ((bs.filter p).getLast?).map (fun b => String.ofList b.content) = script := by
  rw [List.getLast?_filter]
  cases script with
  | none => simp [IsLastContent, hp]
  | some script =>
    rw [Option.map_eq_some_iff]
    constructor
    · rintro ⟨front, b, back, rfl, hb, hback, rfl⟩
      refine ⟨b, List.find?_eq_some_iff_append.2 ⟨(hp b).2 hb, back.reverse, front.reverse, by simp,
        fun b' hb' => ?_⟩, rfl⟩
      simpa [← hp] using hback b' (List.mem_reverse.1 hb')
    · rintro ⟨b, hfind, rfl⟩
      obtain ⟨hb, back, front, heq, hback⟩ := List.find?_eq_some_iff_append.1 hfind
      refine ⟨front.reverse, b, back.reverse, ?_, (hp b).1 hb, fun b' hb' => ?_, rfl⟩
      · rw [← List.reverse_eq_iff.2 heq.symm]
        simp
      · simpa [← hp] using hback b' (List.mem_reverse.1 hb')

/-! ## Markup -/

def styleEnd : List Char := "</style>".toList

def commentStart : List Char := "<!--".toList

def commentEnd : List Char := "-->".toList

/-- A style reaches from its opening tag to the next closing one. -/
def IsStyle (cs : List Char) : Prop :=
  ∃ attrs content, cs = tagText "style" attrs ++ (content ++ styleEnd) ∧ IsAttributes attrs ∧
    ¬ styleEnd <:+: content

def commentText (content : List Char) : List Char := commentStart ++ (content ++ commentEnd)

def IsComment (cs : List Char) : Prop :=
  ∃ content, cs = commentText content ∧ ¬ commentEnd <:+: content

theorem endsOnce_styleEnd : Text.EndsOnce styleEnd := ⟨"</style".toList, '>', rfl, by decide⟩

theorem endsOnce_commentEnd : Text.EndsOnce commentEnd := ⟨"--".toList, '>', rfl, by decide⟩

theorem finds_style : Text.Finds matchStyle IsStyle where
  ne_nil := by
    rintro p ⟨attrs, content, rfl, -⟩
    exact List.cons_ne_nil _ _
  eq_some_iff {cs n} := by
    constructor
    · intro h
      obtain ⟨⟨attrs, tail⟩, htag, h⟩ := Option.bind_eq_some_iff.1 h
      obtain ⟨⟨content, rest⟩, hend, hlength⟩ := Option.bind_eq_some_iff.1 h
      obtain ⟨hattrs, rfl⟩ := openTag?_eq_some_iff.1 htag
      obtain ⟨rfl, hcontent⟩ := (Text.cut?_eq_some_iff endsOnce_styleEnd).1 hend
      refine ⟨_, ⟨attrs, content, rfl, hattrs, hcontent⟩, ⟨rest, by simp⟩, ?_⟩
      rw [← Option.some.inj hlength]
      simp only [List.length_append]
      omega
    · rintro ⟨_, ⟨attrs, content, rfl, hattrs, hcontent⟩, ⟨rest, rfl⟩, rfl⟩
      have htext : tagText "style" attrs ++ (content ++ styleEnd) ++ rest =
          tagText "style" attrs ++ (content ++ (styleEnd ++ rest)) := by simp
      have htag := openTag?_eq_some_iff.2 ⟨hattrs, htext⟩
      have hend : Text.cut? styleEnd (content ++ (styleEnd ++ rest)) = some (content, rest) :=
        (Text.cut?_eq_some_iff endsOnce_styleEnd).2 ⟨rfl, hcontent⟩
      rw [matchStyle, htag, Option.bind_eq_bind, Option.bind_some]
      show (Text.cut? styleEnd _).bind _ = _
      rw [hend, Option.bind_some]
      refine congrArg some ?_
      simp only [List.length_append]
      omega

theorem finds_comment : Text.Finds matchComment IsComment where
  ne_nil := by
    rintro p ⟨content, rfl, -⟩
    exact List.cons_ne_nil _ _
  eq_some_iff {cs n} := by
    constructor
    · intro h
      obtain ⟨tail, hstart, h⟩ := Option.bind_eq_some_iff.1 h
      obtain ⟨⟨content, rest⟩, hend, hlength⟩ := Option.bind_eq_some_iff.1 h
      obtain rfl := (Text.afterStart?_eq_some_iff _ _ _).1 hstart
      obtain ⟨rfl, hcontent⟩ := (Text.cut?_eq_some_iff endsOnce_commentEnd).1 hend
      refine ⟨_, ⟨content, rfl, hcontent⟩, ⟨rest, by simp [commentText, commentStart]⟩, ?_⟩
      rw [← Option.some.inj hlength]
      simp only [commentText, commentStart, List.length_append]
      omega
    · rintro ⟨_, ⟨content, rfl, hcontent⟩, ⟨rest, rfl⟩, rfl⟩
      have htext : commentText content ++ rest =
          commentStart ++ (content ++ (commentEnd ++ rest)) := by simp [commentText]
      have hstart : Text.afterStart? "<!--".toList (commentText content ++ rest) =
          some (content ++ (commentEnd ++ rest)) := (Text.afterStart?_eq_some_iff _ _ _).2 htext
      have hend : Text.cut? commentEnd (content ++ (commentEnd ++ rest)) = some (content, rest) :=
        (Text.cut?_eq_some_iff endsOnce_commentEnd).2 ⟨rfl, hcontent⟩
      rw [matchComment, hstart, Option.bind_eq_bind, Option.bind_some]
      show (Text.cut? commentEnd _).bind _ = _
      rw [hend, Option.bind_some]
      refine congrArg some ?_
      simp only [commentText, List.length_append]
      omega

/-! ## Blocks -/

/-- The blocks of a component whose source is cut in the given way. -/
structure Cut.HasBlocks (c : Cut) (bl : Blocks) : Prop where
  moduleScript : IsLastContent (MarksModule ·.attrs) c.blocks bl.moduleScript
  instanceScript : IsLastContent (¬ MarksModule ·.attrs) c.blocks bl.instanceScript
  markup : ∃ unstyled, Text.Strips IsStyle c.remainder unstyled ∧
    Text.Strips IsComment unstyled bl.markup.toList

theorem Cut.hasBlocks_iff {c : Cut} {bl : Blocks} :
    c.HasBlocks bl ↔ bl = ⟨(c.script? true).map String.ofList,
      (c.script? false).map String.ofList, String.ofList c.markup⟩ := by
  have hmodule : IsLastContent (MarksModule ·.attrs) c.blocks bl.moduleScript ↔
      (c.script? true).map String.ofList = bl.moduleScript := by
    rw [isLastContent_iff (p := fun b => decide (isModule b.attrs = true))
      (fun b => by rw [decide_eq_true_iff, isModule_iff]), Cut.script?, Option.map_map]
    rfl
  have hinstance : IsLastContent (¬ MarksModule ·.attrs) c.blocks bl.instanceScript ↔
      (c.script? false).map String.ofList = bl.instanceScript := by
    rw [isLastContent_iff (p := fun b => decide (isModule b.attrs = false))
      (fun b => by rw [decide_eq_true_iff, ← Bool.not_eq_true, isModule_iff]), Cut.script?,
      Option.map_map]
    rfl
  have hmarkup : (∃ unstyled, Text.Strips IsStyle c.remainder unstyled ∧
      Text.Strips IsComment unstyled bl.markup.toList) ↔ c.markup = bl.markup.toList := by
    simp only [finds_style.strips_iff, finds_comment.strips_iff, exists_eq_left']
    rfl
  constructor
  · rintro ⟨h₁, h₂, h₃⟩
    obtain ⟨m, i, markup⟩ := bl
    rw [hmodule.1 h₁, hinstance.1 h₂, hmarkup.1 h₃, String.ofList_toList]
  · rintro rfl
    exact ⟨hmodule.2 rfl, hinstance.2 rfl, hmarkup.2 String.toList_ofList.symm⟩

/-- **The blocks of a source** are those of its cut. There is none just where a script that begins
behind the blocks before it has no end, and then the error tells where that script begins. -/
theorem blocks_eq_iff (source : String) :
    (∀ bl, blocks source = .ok bl ↔ ∃ c, IsCut source.toList c ∧ c.HasBlocks bl) ∧
      ∀ e, blocks source = .error e ↔ IsUnclosed source.toList e.offset := by
  constructor
  · intro bl
    have hmap : blocks source = .ok bl ↔ ∃ c, cut source.toList = .ok c ∧
        bl = ⟨(c.script? true).map String.ofList, (c.script? false).map String.ofList,
          String.ofList c.markup⟩ := by
      rw [blocks]
      cases cut source.toList with
      | ok c => simp [Except.map, eq_comm]
      | error e => simp [Except.map]
    simp only [hmap, cut_eq_ok_iff, Cut.hasBlocks_iff]
  · intro e
    rw [← cut_eq_error_iff, blocks]
    cases cut source.toList with
    | ok c => simp [Except.map]
    | error e' => simp [Except.map]

end SvelteTypings.Component
