import SvelteTypings.Component.Property

/-!
# Slots

The slots of a component are the `<slot>` tags of its markup. A tag reaches to the next `>`. Its
attributes are what the slot passes on, but for `name`, which names the slot; several tags can
stand for one slot.
-/

namespace SvelteTypings.Component

structure Slot where
  name : String
  props : List String
deriving DecidableEq

namespace Slot

/-! ## Tags -/

/-- The attributes of the slot tag at the start of a text, and the text after the tag. A slash right
before the end belongs to the tag. -/
def tag? (cs : List Char) : Option (List Char × List Char) := do
  let rest ← Text.afterStart? "<slot".toList cs
  if rest.head?.any Text.isWord then none
  else
    let (attrs, rest) ← Text.cut? ['>'] rest
    if attrs.getLast? = some '/' then some (attrs.dropLast, rest) else some (attrs, rest)

/-- What follows a tag is shorter than the text that starts with it. -/
theorem length_lt_of_tag? {cs attrs rest : List Char} (h : tag? cs = some (attrs, rest)) :
    rest.length < cs.length := by
  obtain ⟨tail, htail, h⟩ := Option.bind_eq_some_iff.1 h
  have hlt : tail.length < cs.length := by
    rw [(Text.afterStart?_eq_some_iff _ _ _).1 htail]
    simp only [List.length_append]
    have : 0 < "<slot".toList.length := by decide
    omega
  split at h
  · simp at h
  · obtain ⟨⟨inside, after⟩, hcut, h⟩ := Option.bind_eq_some_iff.1 h
    have hafter := Text.length_lt_of_cut? (by simp) hcut
    have heq : after = rest := by
      simp only at h
      split at h
      · exact (Prod.mk.inj (Option.some.inj h)).2
      · exact (Prod.mk.inj (Option.some.inj h)).2
    rw [← heq]
    omega

def tags (markup : List Char) : List (List Char) :=
  match markup with
  | [] => []
  | c :: cs =>
    match _h : tag? (c :: cs) with
    | some (attrs, rest) => attrs :: tags rest
    | none => tags cs
termination_by markup.length
decreasing_by
  · exact length_lt_of_tag? _h
  · simp

/-! ## Attributes -/

/-- An attribute: its key, and its value if that is in quotes. -/
structure Attr where
  key : List Char
  text : Option (List Char)
  /-- The attribute is a name in braces, which stands for itself. -/
  isShorthand : Bool

def isKeyRest (c : Char) : Bool := Property.isNameRest c || c = ':' || c = '-'

/-- The text between two quotes at the start of a text, and the text after them. -/
def quoted? : List Char → Option (List Char × List Char)
  | '"' :: cs => Text.cut? ['"'] cs
  | '\'' :: cs => Text.cut? ['\''] cs
  | _ => none

/-- The text after the braces at the start of a text. -/
def afterBraces? : List Char → Option (List Char)
  | '{' :: cs => (Text.cut? ['}'] cs).map Prod.snd
  | _ => none

/-- The name in braces at the start of a text, and the text after it. -/
def shorthand? : List Char → Option (List Char × List Char)
  | '{' :: c :: cs =>
    if Property.isNameStart c then
      match cs.dropWhile Property.isNameRest with
      | '}' :: rest => some (c :: cs.takeWhile Property.isNameRest, rest)
      | _ => none
    else none
  | _ => none

/-- The value after a key: its text if it is in quotes, and the text after it. Without a value in
quotes or braces, the `=` is not part of the attribute. -/
def value (cs : List Char) : Option (List Char) × List Char :=
  match cs.dropWhile Text.isBlank with
  | '=' :: rest =>
    let rest := rest.dropWhile Text.isBlank
    match quoted? rest, afterBraces? rest with
    | some (text, rest), _ => (some text, rest)
    | none, some rest => (none, rest)
    | none, none => (none, cs)
  | _ => (none, cs)

/-- The attribute at the start of a text, and the text after it. -/
def attr? (cs : List Char) : Option (Attr × List Char) :=
  match shorthand? cs with
  | some (key, rest) => some (⟨key, none, true⟩, rest)
  | none =>
    match cs with
    | c :: cs =>
      if Property.isNameStart c then
        let (text, rest) := value (cs.dropWhile isKeyRest)
        some (⟨c :: cs.takeWhile isKeyRest, text, false⟩, rest)
      else none
    | [] => none

theorem length_lt_of_quoted? {cs text rest : List Char} (h : quoted? cs = some (text, rest)) :
    rest.length < cs.length := by
  unfold quoted? at h
  split at h
  · have := Text.length_lt_of_cut? (by simp) h
    simp only [List.length_cons]
    omega
  · have := Text.length_lt_of_cut? (by simp) h
    simp only [List.length_cons]
    omega
  · simp at h

theorem length_lt_of_afterBraces? {cs rest : List Char} (h : afterBraces? cs = some rest) :
    rest.length < cs.length := by
  unfold afterBraces? at h
  split at h
  · obtain ⟨⟨before, after⟩, hcut, rfl⟩ := Option.map_eq_some_iff.1 h
    have := Text.length_lt_of_cut? (by simp) hcut
    simp only [List.length_cons]
    omega
  · simp at h

theorem length_lt_of_shorthand? {cs key rest : List Char} (h : shorthand? cs = some (key, rest)) :
    rest.length < cs.length := by
  unfold shorthand? at h
  split at h
  · rename_i c cs
    split at h
    · split at h
      · next r hdrop =>
        obtain ⟨-, rfl⟩ := Prod.mk.inj (Option.some.inj h)
        have hle := (cs.dropWhile_sublist Property.isNameRest).length_le
        rw [hdrop] at hle
        simp only [List.length_cons] at hle ⊢
        omega
      · simp at h
    · simp at h
  · simp at h

/-- A value takes nothing back. -/
theorem length_value_le (cs : List Char) : (value cs).2.length ≤ cs.length := by
  have hdrop := (cs.dropWhile_sublist Text.isBlank).length_le
  unfold value
  split
  · next rest heq =>
    rw [heq] at hdrop
    have hrest := (rest.dropWhile_sublist Text.isBlank).length_le
    simp only [List.length_cons] at hdrop
    dsimp only
    split
    · rename_i hq
      have := length_lt_of_quoted? hq
      dsimp only
      omega
    · next hb =>
      have := length_lt_of_afterBraces? hb
      dsimp only
      omega
    · exact Nat.le_refl _
  · exact Nat.le_refl _

/-- What follows an attribute is shorter than the text that starts with it. -/
theorem length_lt_of_attr? {cs rest : List Char} {a : Attr} (h : attr? cs = some (a, rest)) :
    rest.length < cs.length := by
  unfold attr? at h
  split at h
  · next hs =>
    obtain ⟨-, rfl⟩ := Prod.mk.inj (Option.some.inj h)
    exact length_lt_of_shorthand? hs
  · split at h
    · rename_i c cs _
      split at h
      · have hvalue := length_value_le (cs.dropWhile isKeyRest)
        have hdrop := (cs.dropWhile_sublist isKeyRest).length_le
        have heq : (value (cs.dropWhile isKeyRest)).2 = rest :=
          (Prod.mk.inj (Option.some.inj h)).2
        rw [← heq, List.length_cons]
        omega
      · simp at h
    · simp at h

def attrs (cs : List Char) : List Attr :=
  match cs with
  | [] => []
  | c :: cs =>
    match _h : attr? (c :: cs) with
    | some (a, rest) => a :: attrs rest
    | none => attrs cs
termination_by cs.length
decreasing_by
  · exact length_lt_of_attr? _h
  · simp

/-! ## Slots -/

def Attr.isName (a : Attr) : Bool := !a.isShorthand && a.key = "name".toList

/-- The name of the slot with the given attributes: the last one given, or `default`. -/
def nameOf (as : List Attr) : String :=
  match ((as.filter Attr.isName).filterMap (·.text)).getLast? with
  | some name => String.ofList name
  | none => "default"

/-- What the slot with the given attributes passes on. -/
def propsOf (as : List Attr) : List String :=
  (as.filter fun a => !a.isName).map fun a => String.ofList a.key

/-- Adds names that are not in a list yet. -/
def addNew (names : List String) (more : List String) : List String :=
  more.foldl (fun names n => if names.contains n then names else names ++ [n]) names

/-- Adds a tag to the slots, which are in the order of their names. -/
def addTag (name : String) (props : List String) : List Slot → List Slot
  | [] => [⟨name, addNew [] props⟩]
  | s :: ss =>
    if name = s.name then ⟨s.name, addNew s.props props⟩ :: ss
    else if name < s.name then ⟨name, addNew [] props⟩ :: s :: ss
    else s :: addTag name props ss

end Slot

def slots (markup : List Char) : List Slot :=
  (Slot.tags markup).foldl (fun ss tag =>
    let as := Slot.attrs tag
    Slot.addTag (Slot.nameOf as) (Slot.propsOf as) ss) []

end SvelteTypings.Component
