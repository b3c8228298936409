import SvelteTypings.Text.Blank
import SvelteTypings.Text.Removal
import SvelteTypings.Text.Search
import SvelteTypings.Text.Utf8

/-!
# The blocks of a component

A component consists of script blocks and the markup around them. The source is cut at each opening
script tag, from left to right; the block reaches to the next closing tag, whatever it holds. What
is left is the markup, from which styles and then comments are removed.
-/

namespace SvelteTypings.Component

/-! ## Tags -/

/-- The attributes of a tag after its name, and the text after the tag. Attributes are set off by a
blank and reach to the first `>`. -/
def afterTagName? : List Char → Option (List Char × List Char)
  | [] => none
  | c :: cs =>
    if c = '>' then some ([], cs)
    else if Text.isBlank c then
      (Text.cut? ['>'] cs).map fun (attrs, rest) => (c :: attrs, rest)
    else none

/-- The attributes of the tag `<name ...>` at the start of a text, and the text after the tag. -/
def openTag? (name : String) (cs : List Char) : Option (List Char × List Char) :=
  (Text.afterStart? ('<' :: name.toList) cs).bind afterTagName?

theorem eq_of_afterTagName? {cs attrs rest : List Char}
    (h : afterTagName? cs = some (attrs, rest)) : cs = attrs ++ '>' :: rest := by
  cases cs with
  | nil => simp [afterTagName?] at h
  | cons c cs =>
    simp only [afterTagName?] at h
    split at h
    · next hc => simp_all
    · split at h
      · obtain ⟨⟨a, r⟩, hcut, heq⟩ := Option.map_eq_some_iff.1 h
        obtain ⟨rfl, rfl⟩ := Prod.mk.inj heq
        simp [Text.eq_append_of_cut? hcut]
      · simp at h

/-- A tag is its name and its attributes between angle brackets. -/
theorem eq_of_openTag? {name : String} {cs attrs rest : List Char}
    (h : openTag? name cs = some (attrs, rest)) :
    cs = '<' :: name.toList ++ attrs ++ '>' :: rest := by
  obtain ⟨tail, htail, hrest⟩ := Option.bind_eq_some_iff.1 h
  rw [(Text.afterStart?_eq_some_iff _ _ _).1 htail, eq_of_afterTagName? hrest]
  simp

/-- The text before the first opening script tag, the attributes of the tag, and the text after
it. -/
def cutScriptTag? : List Char → Option (List Char × List Char × List Char)
  | [] => none
  | c :: cs =>
    match openTag? "script" (c :: cs) with
    | some (attrs, rest) => some ([], attrs, rest)
    | none => (cutScriptTag? cs).map fun (before, attrs, rest) => (c :: before, attrs, rest)

theorem eq_of_cutScriptTag? {cs before attrs rest : List Char}
    (h : cutScriptTag? cs = some (before, attrs, rest)) :
    cs = before ++ '<' :: "script".toList ++ attrs ++ '>' :: rest := by
  induction cs generalizing before with
  | nil => simp [cutScriptTag?] at h
  | cons c cs ih =>
    simp only [cutScriptTag?] at h
    split at h
    · next ht =>
      obtain ⟨rfl, rfl, rfl⟩ := by simpa using h
      simpa using eq_of_openTag? ht
    · obtain ⟨⟨b, a, r⟩, hcut, heq⟩ := Option.map_eq_some_iff.1 h
      obtain ⟨rfl, rfl, rfl⟩ := by simpa using heq
      rw [ih hcut]
      simp

/-! ## Script blocks -/

def scriptEnd : List Char := "</script>".toList

structure ScriptBlock where
  before : List Char
  attrs : List Char
  content : List Char

/-- A source cut into script blocks and the text after the last one. -/
structure Cut where
  blocks : List ScriptBlock
  after : List Char

/-- Why a source cannot be cut: a script block that starts at the given byte has no end. -/
structure Unclosed where
  offset : Nat
deriving DecidableEq

def Unclosed.message (e : Unclosed) : String :=
  "unterminated <script> block at offset " ++ toString e.offset

/-- The bytes of a block with its tags and the text in front. -/
def ScriptBlock.byteLength (b : ScriptBlock) : Nat :=
  Text.byteLength b.before + Text.byteLength "<script".toList + Text.byteLength b.attrs + 1 +
    Text.byteLength b.content + Text.byteLength scriptEnd

/-- Cuts a source that starts at byte `offset` of the whole. -/
def cutFrom (offset : Nat) (source : List Char) : Except Unclosed Cut :=
  match _htag : cutScriptTag? source with
  | none => .ok ⟨[], source⟩
  | some (before, attrs, rest) =>
    match _hend : Text.cut? scriptEnd rest with
    | none => .error ⟨offset + Text.byteLength before⟩
    | some (content, rest) =>
      let block : ScriptBlock := ⟨before, attrs, content⟩
      (cutFrom (offset + block.byteLength) rest).map fun cut => ⟨block :: cut.blocks, cut.after⟩
termination_by source.length
decreasing_by
  rw [eq_of_cutScriptTag? _htag, Text.eq_append_of_cut? _hend]
  simp only [List.length_append, List.length_cons]
  omega

def cut (source : List Char) : Except Unclosed Cut := cutFrom 0 source

/-! ## Modules and markup -/

/-- The words of a text between blanks. -/
def words (cs : List Char) : List (List Char) :=
  match cs with
  | [] => []
  | c :: cs =>
    if Text.isBlank c then words cs
    else
      match words cs with
      | [] => [[c]]
      | w :: ws => if cs.head?.any Text.isBlank then [c] :: w :: ws else (c :: w) :: ws

/-- The attributes make a script the module script of its component. -/
def isModule (attrs : List Char) : Bool :=
  Text.containsText "context=\"module\"".toList attrs ||
    Text.containsText "context='module'".toList attrs || (words attrs).contains "module".toList

/-- Matches a style block: an opening tag up to the next closing tag. -/
def matchStyle : Text.Matcher := fun cs => do
  let (_, rest) ← openTag? "style" cs
  let (_, rest) ← Text.cut? "</style>".toList rest
  return cs.length - rest.length

def matchComment : Text.Matcher := fun cs => do
  let rest ← Text.afterStart? "<!--".toList cs
  let (_, rest) ← Text.cut? "-->".toList rest
  return cs.length - rest.length

def Cut.remainder (c : Cut) : List Char := c.blocks.flatMap (·.before) ++ c.after

/-- The markup: what is left without scripts, styles and comments. -/
def Cut.markup (c : Cut) : List Char :=
  Text.removeAll matchComment (Text.removeAll matchStyle c.remainder)

/-- The content of the last block that is, or is not, a module script. -/
def Cut.script? (c : Cut) (module : Bool) : Option (List Char) :=
  ((c.blocks.filter fun b => isModule b.attrs = module).getLast?).map (·.content)

/-- The parts of a component that are read on their own. -/
structure Blocks where
  /-- The script that belongs to the module of the component. -/
  moduleScript : Option String
  /-- The script that is run for each instance. -/
  instanceScript : Option String
  markup : String
deriving DecidableEq

def blocks (source : String) : Except Unclosed Blocks :=
  (cut source.toList).map fun c =>
    ⟨(c.script? true).map String.ofList, (c.script? false).map String.ofList,
      String.ofList c.markup⟩

end SvelteTypings.Component
