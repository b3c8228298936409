import SvelteTypings.Component.Slot
import SvelteTypings.Proofs.Component.Collecting
import SvelteTypings.Proofs.Text.Searching
import SvelteTypings.Proofs.Text.Trimming

/-!
# Reading written slots

The slots of a markup are read as its tags are written: under each name stand the names of the
attributes of all tags for it, each once and in the order of their first occurrence
(`slots_of_written`). A tag reaches to the first `>`, and an expression to the first closing brace,
so no `>` may stand in a tag, and behind that brace no name: else words of the expression are taken
for attributes (`Written.attrs_braced_iff`), and the name of the slot can be lost
(`slots_of_comparison`).
-/

namespace SvelteTypings.Component.Slot

variable {c : Char} {cs xs rest gap : List Char}

/-! ## Reading attributes -/

theorem isNameStart_of_isBlank (h : Text.isBlank c) : Property.isNameStart c = false := by
  rw [← Bool.not_eq_true]
  intro hstart
  simp only [Property.isNameStart, Bool.or_eq_true, decide_eq_true_eq] at hstart
  rcases hstart with (halpha | rfl) | rfl
  · have halnum : c.isAlphanum := by simp [Char.isAlphanum, halpha]
    exact absurd h (by simp [Text.isBlank_of_isAlphanum halnum])
  · exact absurd h (by decide)
  · exact absurd h (by decide)

theorem attr?_eq_none (hc : Property.isNameStart c = false)
    (hcs : c = '{' → ∀ d ∈ cs.head?, Property.isNameStart d = false) : attr? (c :: cs) = none := by
  have hshorthand : shorthand? (c :: cs) = none := by
    unfold shorthand?
    split
    · next d ds heq =>
      obtain ⟨rfl, rfl⟩ := List.cons.inj heq
      rw [if_neg (by simp [hcs rfl d rfl])]
    · rfl
  rw [attr?, hshorthand]
  simp [hc]

theorem attrs_of_attr? {a : Attr} (h : attr? cs = some (a, rest)) : attrs cs = a :: attrs rest := by
  cases cs with
  | nil => exact absurd h (by simp [attr?, shorthand?])
  | cons c cs =>
    rw [attrs]
    split
    · next hsome =>
      obtain ⟨rfl, rfl⟩ := Prod.mk.inj (Option.some.inj (h.symm.trans hsome))
      rfl
    · next hnone => exact absurd (h.symm.trans hnone) (by simp)

theorem attrs_eq_nil_iff : attrs cs = [] ↔ ∀ c ∈ cs, Property.isNameStart c = false := by
  induction cs with
  | nil => rw [attrs]; simp
  | cons c cs ih =>
    rw [attrs]
    split
    · next hsome =>
      refine iff_of_false (List.cons_ne_nil _ _) fun hnone => ?_
      rw [attr?_eq_none (hnone c List.mem_cons_self) fun _ d hd =>
        hnone d (List.mem_cons_of_mem _ (List.mem_of_mem_head? hd))] at hsome
      exact absurd hsome (by simp)
    · next hnone =>
      have hc : Property.isNameStart c = false := by
        rw [← Bool.not_eq_true]
        intro hstart
        rw [attr?] at hnone
        split at hnone
        · exact absurd hnone (by simp)
        · simp [hstart] at hnone
      rw [ih, List.forall_mem_cons]
      exact (and_iff_right hc).symm

/-- Text in which no name begins is passed over. -/
theorem attrs_append (hxs : ∀ c ∈ xs, Property.isNameStart c = false)
    (hlast : xs.getLast? ≠ some '{') (rest : List Char) : attrs (xs ++ rest) = attrs rest := by
  induction xs with
  | nil => rfl
  | cons c xs ih =>
    obtain ⟨hc, htail⟩ := List.forall_mem_cons.1 hxs
    have hnone : attr? (c :: (xs ++ rest)) = none := by
      refine attr?_eq_none hc ?_
      -- a brace needs a name right behind it, and that is still in the text
      rintro rfl d hd
      cases xs with
      | nil => exact absurd rfl hlast
      | cons e xs => exact Option.some.inj hd ▸ htail e List.mem_cons_self
    have hlast' : xs.getLast? ≠ some '{' := by
      cases xs with
      | nil => simp
      | cons d xs => rwa [List.getLast?_cons_cons] at hlast
    rw [List.cons_append, attrs]
    split
    · next hsome => exact absurd (hnone.symm.trans hsome) (by simp)
    · exact ih htail hlast'

theorem attrs_blanks (hgap : ∀ c ∈ gap, Text.isBlank c) (rest : List Char) :
    attrs (gap ++ rest) = attrs rest := by
  refine attrs_append (fun c hc => isNameStart_of_isBlank (hgap c hc)) (fun hlast => ?_) rest
  exact absurd (hgap _ (List.mem_of_getLast? hlast)) (by decide)

/-! ## Written attributes -/

/-- A name whose characters behind the first one are of the given kind. -/
def IsName (isRest : Char → Bool) : List Char → Prop
  | [] => False
  | c :: cs => Property.isNameStart c ∧ ∀ d ∈ cs, isRest d

instance (isRest : Char → Bool) : ∀ cs, Decidable (IsName isRest cs)
  | [] => inferInstanceAs (Decidable False)
  | c :: cs => decidable_of_iff (Property.isNameStart c ∧ cs.all isRest) (by
      rw [List.all_eq_true, IsName])

theorem IsName.not_mem {isRest : Char → Bool} (h : IsName isRest cs)
    (hstart : Property.isNameStart c = false) (hrest : isRest c = false) : c ∉ cs := by
  cases cs with
  | nil => exact List.not_mem_nil
  | cons d cs =>
    intro hc
    rcases List.mem_cons.1 hc with rfl | hc
    · exact absurd h.1 (by simp [hstart])
    · exact absurd (h.2 c hc) (by simp [hrest])

/-- An attribute as it is written: a name in braces, or a key with a text in quotes or an
expression in braces. -/
inductive Written where
  | shorthand (ident : List Char)
  | quoted (quote : Char) (key value : List Char)
  | braced (key expr : List Char)

namespace Written

def text : Written → List Char
  | shorthand ident => '{' :: ident ++ ['}']
  | quoted quote key value => key ++ '=' :: quote :: value ++ [quote]
  | braced key expr => key ++ '=' :: '{' :: expr ++ ['}']

def key : Written → List Char
  | shorthand ident => ident
  | quoted _ key _ => key
  | braced key _ => key

/-- What an attribute in quotes says. -/
def value? : Written → Option (List Char)
  | quoted _ _ value => some value
  | _ => none

/-- How an attribute is read. -/
def attr : Written → Attr
  | shorthand ident => ⟨ident, none, true⟩
  | quoted _ key value => ⟨key, some value, false⟩
  | braced key _ => ⟨key, none, false⟩

/-- The attribute ends where it seems to end: no `>` stands in it, its quote only at its ends, and
behind the first `}` of an expression no name begins. What stands for itself in braces is not the
name of the slot. -/
def IsProper : Written → Prop
  | shorthand ident => IsName Property.isNameRest ident ∧ ident ≠ "name".toList
  | quoted quote key value =>
    IsName isKeyRest key ∧ (quote = '"' ∨ quote = '\'') ∧ quote ∉ value ∧ '>' ∉ value
  | braced key expr =>
    IsName isKeyRest key ∧ '>' ∉ expr ∧
      ∀ c ∈ expr.dropWhile (· ≠ '}'), Property.isNameStart c = false

instance (w : Written) : Decidable w.IsProper :=
  match w with
  | shorthand ident =>
    inferInstanceAs (Decidable (IsName Property.isNameRest ident ∧ ident ≠ "name".toList))
  | quoted quote key value =>
    inferInstanceAs (Decidable (IsName isKeyRest key ∧ (quote = '"' ∨ quote = '\'') ∧
      quote ∉ value ∧ '>' ∉ value))
  | braced key expr =>
    decidable_of_iff (IsName isKeyRest key ∧ '>' ∉ expr ∧
      (expr.dropWhile (· ≠ '}')).all (!Property.isNameStart ·)) (by
        simp only [List.all_eq_true, Bool.not_eq_true', IsProper])

end Written

theorem shorthand?_name {ident : List Char} (h : IsName Property.isNameRest ident)
    (rest : List Char) : shorthand? ('{' :: (ident ++ '}' :: rest)) = some (ident, rest) := by
  cases ident with
  | nil => exact h.elim
  | cons c cs =>
    have hend : ¬ Property.isNameRest '}' = true := by decide
    rw [List.cons_append, shorthand?, if_pos h.1, List.dropWhile_append_of_pos h.2,
      List.dropWhile_cons_of_neg hend, List.takeWhile_append_of_pos h.2,
      List.takeWhile_cons_of_neg hend, List.append_nil]
    rfl

theorem attr?_key {key : List Char} (h : IsName isKeyRest key) (rest : List Char) :
    attr? (key ++ '=' :: rest) =
      some (⟨key, (value ('=' :: rest)).1, false⟩, (value ('=' :: rest)).2) := by
  cases key with
  | nil => exact h.elim
  | cons c cs =>
    have hend : ¬ isKeyRest '=' = true := by decide
    have hshorthand : shorthand? (c :: (cs ++ '=' :: rest)) = none := by
      unfold shorthand?
      split
      · next heq =>
        obtain ⟨rfl, -⟩ := List.cons.inj heq
        exact absurd h.1 (by decide)
      · rfl
    rw [List.cons_append, attr?, hshorthand]
    simp only [if_pos h.1]
    rw [List.dropWhile_append_of_pos h.2, List.dropWhile_cons_of_neg hend,
      List.takeWhile_append_of_pos h.2, List.takeWhile_cons_of_neg hend, List.append_nil]

theorem value_quoted {quote : Char} (hquote : quote = '"' ∨ quote = '\'') (hxs : quote ∉ xs)
    (rest : List Char) : value ('=' :: quote :: (xs ++ quote :: rest)) = (some xs, rest) := by
  have hcut : Text.cut? [quote] (xs ++ quote :: rest) = some (xs, rest) :=
    Text.cut?_singleton_eq_some_iff.2 ⟨rfl, hxs⟩
  have hquoted : quoted? (quote :: (xs ++ quote :: rest)) = some (xs, rest) := by
    rcases hquote with rfl | rfl
    · exact hcut
    · exact hcut
  have hblank : ¬ Text.isBlank quote = true := by
    rcases hquote with rfl | rfl
    · decide
    · decide
  rw [value, List.dropWhile_cons_of_neg (by decide)]
  simp only [List.dropWhile_cons_of_neg hblank, hquoted]

/-- What follows the first closing brace of an expression in braces. -/
def afterBrace (expr : List Char) : List Char := (expr.dropWhile (· ≠ '}') ++ ['}']).tail

theorem dropWhile_ne_cases (c : Char) (cs : List Char) :
    cs.dropWhile (· ≠ c) = [] ∨ ∃ more, cs.dropWhile (· ≠ c) = c :: more := by
  cases hdrop : cs.dropWhile (· ≠ c) with
  | nil => exact .inl rfl
  | cons d more =>
    have hhead := List.head?_dropWhile_not (· ≠ c) cs
    rw [hdrop] at hhead
    obtain rfl : d = c := by simpa using hhead
    exact .inr ⟨more, rfl⟩

theorem cut?_brace (expr rest : List Char) :
    Text.cut? ['}'] (expr ++ '}' :: rest) =
      some (expr.takeWhile (· ≠ '}'), afterBrace expr ++ rest) := by
  have hsplit := List.takeWhile_append_dropWhile (p := (· ≠ '}')) (l := expr)
  have hfront : '}' ∉ expr.takeWhile (· ≠ '}') := fun hmem => by
    simpa using List.mem_takeWhile_imp hmem
  refine Text.cut?_singleton_eq_some_iff.2 ⟨?_, hfront⟩
  rcases dropWhile_ne_cases '}' expr with hdrop | ⟨more, hdrop⟩
  · rw [hdrop, List.append_nil] at hsplit
    rw [afterBrace, hdrop, hsplit]
    rfl
  · rw [afterBrace, hdrop]
    calc expr ++ '}' :: rest
        = expr.takeWhile (· ≠ '}') ++ '}' :: more ++ '}' :: rest := by rw [← hdrop, hsplit]
      _ = expr.takeWhile (· ≠ '}') ++ '}' :: (('}' :: more ++ ['}']).tail ++ rest) := by simp

theorem value_braced (expr rest : List Char) :
    value ('=' :: '{' :: (expr ++ '}' :: rest)) = (none, afterBrace expr ++ rest) := by
  have hbraces : afterBraces? ('{' :: (expr ++ '}' :: rest)) = some (afterBrace expr ++ rest) := by
    rw [afterBraces?, cut?_brace]
    rfl
  rw [value, List.dropWhile_cons_of_neg (by decide)]
  simp only [List.dropWhile_cons_of_neg (show ¬ Text.isBlank '{' = true by decide), hbraces]
  rfl

theorem forall_mem_afterBrace_iff {expr : List Char} :
    (∀ c ∈ afterBrace expr, Property.isNameStart c = false) ↔
      ∀ c ∈ expr.dropWhile (· ≠ '}'), Property.isNameStart c = false := by
  have hbrace : Property.isNameStart '}' = false := by decide
  rcases dropWhile_ne_cases '}' expr with hdrop | ⟨more, hdrop⟩
  · rw [afterBrace, hdrop]
    simp
  · rw [afterBrace, hdrop]
    simp only [List.cons_append, List.tail_cons, List.forall_mem_append, List.forall_mem_cons,
      hbrace, List.not_mem_nil, false_implies, implies_true, and_true, true_and]

theorem getLast?_afterBrace (expr : List Char) : (afterBrace expr).getLast? ≠ some '{' := by
  rcases dropWhile_ne_cases '}' expr with hdrop | ⟨more, hdrop⟩
  · rw [afterBrace, hdrop]
    simp
  · rw [afterBrace, hdrop]
    simp

/-- An attribute is read as it is written. -/
theorem Written.IsProper.attrs_append {w : Written} (h : w.IsProper) (rest : List Char) :
    attrs (w.text ++ rest) = w.attr :: attrs rest := by
  cases w with
  | shorthand ident =>
    have hread : attr? ('{' :: (ident ++ '}' :: rest)) = some (⟨ident, none, true⟩, rest) := by
      rw [attr?, shorthand?_name h.1]
    have htext : (shorthand ident).text ++ rest = '{' :: (ident ++ '}' :: rest) := by simp [text]
    rw [htext, attrs_of_attr? hread]
    rfl
  | quoted quote key value =>
    obtain ⟨hkey, hquote, hvalue, -⟩ := h
    have htext : (quoted quote key value).text ++ rest =
        key ++ '=' :: quote :: (value ++ quote :: rest) := by simp [text]
    rw [htext, attrs_of_attr? (attr?_key hkey _), value_quoted hquote hvalue]
    rfl
  | braced key expr =>
    obtain ⟨hkey, -, hexpr⟩ := h
    have htext : (braced key expr).text ++ rest = key ++ '=' :: '{' :: (expr ++ '}' :: rest) := by
      simp [text]
    rw [htext, attrs_of_attr? (attr?_key hkey _), value_braced,
      Slot.attrs_append (forall_mem_afterBrace_iff.2 hexpr) (getLast?_afterBrace expr)]
    rfl

/-- Words behind the first closing brace of an expression are always taken for attributes. -/
theorem Written.attrs_braced_iff {key expr : List Char} (hkey : IsName isKeyRest key) :
    attrs (braced key expr).text = [(braced key expr).attr] ↔
      ∀ c ∈ expr.dropWhile (· ≠ '}'), Property.isNameStart c = false := by
  have htext : (braced key expr).text = key ++ '=' :: '{' :: (expr ++ '}' :: []) := by simp [text]
  rw [htext, attrs_of_attr? (attr?_key hkey _), value_braced, List.append_nil,
    ← forall_mem_afterBrace_iff, ← attrs_eq_nil_iff]
  exact ⟨fun h => (List.cons.inj h).2, fun h => by rw [h]; rfl⟩

namespace Written

variable {w : Written}

theorem IsProper.isName_attr (h : w.IsProper) : w.attr.isName = decide (w.key = "name".toList) := by
  cases w with
  | shorthand ident => exact (decide_eq_false h.2).symm
  | quoted quote key value => rfl
  | braced key expr => rfl

@[simp] theorem key_attr : w.attr.key = w.key := by cases w <;> rfl

@[simp] theorem text_attr : w.attr.text = w.value? := by cases w <;> rfl

theorem IsProper.not_mem_text (h : w.IsProper) : '>' ∉ w.text := by
  cases w with
  | shorthand ident =>
    have hident := h.1.not_mem (c := '>') (by decide) (by decide)
    simp [text, hident]
  | quoted quote key value =>
    obtain ⟨hkey, hquote, -, hvalue⟩ := h
    have hkey := hkey.not_mem (c := '>') (by decide) (by decide)
    rcases hquote with rfl | rfl <;> simp [text, hkey, hvalue]
  | braced key expr =>
    have hkey := h.1.not_mem (c := '>') (by decide) (by decide)
    simp [text, hkey, h.2.1]

theorem IsProper.getLast?_text (h : w.IsProper) : ∃ c, w.text.getLast? = some c ∧ c ≠ '/' := by
  cases w with
  | shorthand ident => exact ⟨'}', List.getLast?_concat, by decide⟩
  | quoted quote key value =>
    refine ⟨quote, List.getLast?_concat, ?_⟩
    rcases h.2.1 with rfl | rfl <;> decide
  | braced key expr => exact ⟨'}', List.getLast?_concat, by decide⟩

end Written

/-! ## Written tags -/

/-- How a slot tag begins. -/
def slotStart : List Char := "<slot".toList

/-- A slot tag as it is written: its attributes, with the blanks in front of each, the blanks behind
them, and whether it closes itself. -/
structure Tag where
  attributes : List (List Char × Written)
  tail : List Char
  closed : Bool

namespace Tag

variable {t : Tag}

/-- What stands between the name of the tag and its end. -/
def inside (t : Tag) : List Char :=
  (t.attributes.flatMap fun a => a.1 ++ a.2.text) ++ t.tail

def ending (t : Tag) : List Char := if t.closed then ['/', '>'] else ['>']

def text (t : Tag) : List Char := slotStart ++ (t.inside ++ t.ending)

/-- The name of the slot: what its attribute `name` says, or `default`. -/
def name (t : Tag) : String :=
  let names := (t.attributes.filter (·.2.key = "name".toList)).filterMap (·.2.value?)
  (names.getLast?.map String.ofList).getD "default"

/-- The names of all other attributes. -/
def props (t : Tag) : List String :=
  (t.attributes.filter (·.2.key ≠ "name".toList)).map fun a => String.ofList a.2.key

/-- Blanks stand in front of each attribute, and each ends where it seems to end. -/
structure IsProper (t : Tag) : Prop where
  gaps : ∀ a ∈ t.attributes, a.1 ≠ [] ∧ ∀ c ∈ a.1, Text.isBlank c
  attributes : ∀ a ∈ t.attributes, a.2.IsProper
  tail : ∀ c ∈ t.tail, Text.isBlank c

instance (t : Tag) : Decidable t.IsProper :=
  decidable_of_iff ((∀ a ∈ t.attributes, a.1 ≠ [] ∧ a.1.all Text.isBlank) ∧
      (∀ a ∈ t.attributes, a.2.IsProper) ∧ t.tail.all Text.isBlank) (by
    simp only [List.all_eq_true]
    exact ⟨fun ⟨h, h', h''⟩ => ⟨h, h', h''⟩, fun ⟨h, h', h''⟩ => ⟨h, h', h''⟩⟩)

/-- The attributes of a tag are read as they are written. -/
theorem IsProper.attrs_inside (h : t.IsProper) :
    attrs t.inside = t.attributes.map (·.2.attr) := by
  obtain ⟨attributes, tail, closed⟩ := t
  obtain ⟨hgaps, hattributes, htail⟩ := h
  show attrs ((attributes.flatMap fun a => a.1 ++ a.2.text) ++ tail) = _
  induction attributes with
  | nil =>
    have hread := attrs_blanks htail []
    rwa [List.append_nil, attrs] at hread
  | cons a attributes ih =>
    obtain ⟨gap, w⟩ := a
    obtain ⟨hgap, hgaps⟩ := List.forall_mem_cons.1 hgaps
    obtain ⟨hw, hattributes⟩ := List.forall_mem_cons.1 hattributes
    rw [List.flatMap_cons, List.append_assoc, List.append_assoc, attrs_blanks hgap.2,
      hw.attrs_append, ih hgaps hattributes htail]
    rfl

theorem IsProper.nameOf_attrs (h : t.IsProper) : nameOf (attrs t.inside) = t.name := by
  have hfilter : t.attributes.filter (fun a => a.2.attr.isName) =
      t.attributes.filter (·.2.key = "name".toList) :=
    List.filter_congr fun a ha => (h.attributes a ha).isName_attr
  have hvalues : ((t.attributes.map (·.2.attr)).filter Attr.isName).filterMap (·.text) =
      (t.attributes.filter (·.2.key = "name".toList)).filterMap (·.2.value?) := by
    rw [List.filter_map, List.filterMap_map, ← hfilter]
    simp only [Function.comp_def, Written.text_attr]
  rw [h.attrs_inside, nameOf, hvalues, name]
  cases ((t.attributes.filter (·.2.key = "name".toList)).filterMap (·.2.value?)).getLast? with
  | none => rfl
  | some name => rfl

theorem IsProper.propsOf_attrs (h : t.IsProper) : propsOf (attrs t.inside) = t.props := by
  have hfilter : t.attributes.filter (fun a => !a.2.attr.isName) =
      t.attributes.filter (·.2.key ≠ "name".toList) :=
    List.filter_congr fun a ha => by rw [(h.attributes a ha).isName_attr, decide_not]
  rw [h.attrs_inside, propsOf, props, List.filter_map, List.map_map, ← hfilter]
  simp only [Function.comp_def, Written.key_attr]

/-! ### The end of a tag -/

theorem IsProper.not_mem_inside (h : t.IsProper) : '>' ∉ t.inside := by
  have hblank : ∀ {cs : List Char}, (∀ c ∈ cs, Text.isBlank c) → '>' ∉ cs := fun hcs hmem =>
    absurd (hcs _ hmem) (by decide)
  rw [inside, List.mem_append, List.mem_flatMap]
  rintro (⟨a, ha, hmem⟩ | hmem)
  · rcases List.mem_append.1 hmem with hmem | hmem
    · exact hblank (h.gaps a ha).2 hmem
    · exact (h.attributes a ha).not_mem_text hmem
  · exact hblank h.tail hmem

/-- The slash of a closed tag is not taken for one of its attributes. -/
theorem IsProper.getLast?_inside (h : t.IsProper) : t.inside.getLast? ≠ some '/' := by
  obtain ⟨attributes, tail, closed⟩ := t
  obtain ⟨-, hattributes, htail⟩ := h
  show ((attributes.flatMap fun a => a.1 ++ a.2.text) ++ tail).getLast? ≠ some '/'
  induction attributes with
  | nil =>
    intro hlast
    exact absurd (htail _ (List.mem_of_getLast? hlast)) (by decide)
  | cons a attributes ih =>
    obtain ⟨hw, hattributes⟩ := List.forall_mem_cons.1 hattributes
    obtain ⟨c, hc, hne⟩ := hw.getLast?_text
    have hends : ∀ more : List Char,
        (a.1 ++ a.2.text ++ more).getLast? = more.getLast?.or (some c) := fun more => by
      rw [List.getLast?_append, List.getLast?_append, hc, Option.some_or]
    rw [List.flatMap_cons, List.append_assoc, hends]
    -- what ends the tag ends behind this attribute, if anything follows it
    cases hmore : ((attributes.flatMap fun a => a.1 ++ a.2.text) ++ tail).getLast? with
    | none => simpa using hne
    | some d =>
      rw [Option.some_or, ← hmore]
      exact ih hattributes htail

/-- A slot tag begins with its name, which a blank or the end of the tag follows. -/
theorem IsProper.head?_inside (h : t.IsProper) (rest : List Char) :
    (t.inside ++ (t.ending ++ rest)).head?.any Text.isWord = false := by
  have hblank : ∀ {cs : List Char} (more : List Char), cs ≠ [] → (∀ c ∈ cs, Text.isBlank c) →
      (cs ++ more).head?.any Text.isWord = false := by
    intro cs more hne hcs
    obtain ⟨c, cs, rfl⟩ := List.exists_cons_of_ne_nil hne
    exact Text.isWord_of_isBlank (hcs c List.mem_cons_self)
  obtain ⟨attributes, tail, closed⟩ := t
  obtain ⟨hgaps, -, htail⟩ := h
  cases attributes with
  | nil =>
    by_cases hnil : tail = []
    · subst hnil
      cases closed <;> rfl
    · exact hblank _ hnil htail
  | cons a attributes =>
    obtain ⟨hne, hgap⟩ := hgaps a List.mem_cons_self
    rw [inside, List.flatMap_cons, List.append_assoc, List.append_assoc, List.append_assoc]
    exact hblank _ hne hgap

theorem IsProper.tag?_text (h : t.IsProper) (rest : List Char) :
    tag? (t.text ++ rest) = some (t.inside, rest) := by
  have hstart : Text.afterStart? "<slot".toList (t.text ++ rest) =
      some (t.inside ++ (t.ending ++ rest)) :=
    (Text.afterStart?_eq_some_iff slotStart _ _).2 (by simp only [text, List.append_assoc])
  rw [tag?, hstart]
  show (if (t.inside ++ (t.ending ++ rest)).head?.any Text.isWord then none else _) = _
  rw [h.head?_inside, if_neg (by simp)]
  cases hclosed : t.closed with
  | false =>
    have hcut : Text.cut? ['>'] (t.inside ++ (t.ending ++ rest)) = some (t.inside, rest) :=
      Text.cut?_singleton_eq_some_iff.2 ⟨by simp [ending, hclosed], h.not_mem_inside⟩
    rw [hcut]
    exact if_neg h.getLast?_inside
  | true =>
    have hcut : Text.cut? ['>'] (t.inside ++ (t.ending ++ rest)) =
        some (t.inside ++ ['/'], rest) :=
      Text.cut?_singleton_eq_some_iff.2
        ⟨by simp [ending, hclosed], by simp [h.not_mem_inside]⟩
    rw [hcut]
    show (if (t.inside ++ ['/']).getLast? = some '/' then _ else _) = _
    rw [if_pos List.getLast?_concat, List.dropLast_concat]

end Tag

/-! ## Written markup -/

theorem tags_of_tag? {inside : List Char} (h : tag? cs = some (inside, rest)) :
    tags cs = inside :: tags rest := by
  cases cs with
  | nil => exact absurd h (by simp [tag?, Text.afterStart?])
  | cons c cs =>
    rw [tags]
    split
    · next hsome =>
      obtain ⟨rfl, rfl⟩ := Prod.mk.inj (Option.some.inj (h.symm.trans hsome))
      rfl
    · next hnone => exact absurd (h.symm.trans hnone) (by simp)

/-- Text that holds no slot tag is passed over, up to the next one. -/
theorem tags_append (hxs : ¬ slotStart <:+: xs)
    (hrest : rest = [] ∨ slotStart <+: rest) : tags (xs ++ rest) = tags rest := by
  -- a tag that begins in the text and ends behind it would reach into the next one
  have hends : Text.EndsOnce slotStart := ⟨"<slo".toList, 't', rfl, by decide⟩
  induction xs with
  | nil => rfl
  | cons c xs ih =>
    rw [List.infix_cons_iff, not_or] at hxs
    have hstart : ¬ slotStart <+: c :: (xs ++ rest) := by
      rcases hrest with rfl | ⟨more, rfl⟩
      · rw [List.append_nil]
        exact hxs.1
      · exact fun h => hxs.1 (hends.isPrefix_of_isPrefix_append (List.cons_ne_nil c xs) h)
    have hafter : Text.afterStart? "<slot".toList (c :: (xs ++ rest)) = none :=
      Text.afterStart?_eq_none_iff.2 hstart
    have hnone : tag? (c :: (xs ++ rest)) = none := by
      rw [tag?, hafter]
      rfl
    rw [List.cons_append, tags]
    split
    · next hsome => exact absurd (hnone.symm.trans hsome) (by simp)
    · exact ih hxs.2

/-- From each text to the next tag, and over the tag: `lead` is what stands in front of the tags. -/
theorem tags_written {lead : List Char} {pieces : List (Tag × List Char)}
    (hlead : ¬ slotStart <:+: lead)
    (hpieces : ∀ p ∈ pieces, p.1.IsProper ∧ ¬ slotStart <:+: p.2) :
    tags (lead ++ pieces.flatMap fun p => p.1.text ++ p.2) = pieces.map (·.1.inside) := by
  induction pieces generalizing lead with
  | nil =>
    rw [List.flatMap_nil, tags_append hlead (.inl rfl), tags]
    rfl
  | cons p pieces ih =>
    obtain ⟨⟨htag, hafter⟩, hpieces⟩ := List.forall_mem_cons.1 hpieces
    have hstart : slotStart <+:
        p.1.text ++ (p.2 ++ pieces.flatMap fun p => p.1.text ++ p.2) := by
      rw [Tag.text, List.append_assoc]
      exact List.prefix_append _ _
    rw [List.flatMap_cons, List.append_assoc, tags_append hlead (.inr hstart),
      tags_of_tag? (htag.tag?_text _), ih hafter hpieces, List.map_cons]

/-- **The slots of written markup** are the names of its tags, in their order, each with the names
of the attributes that the tags under it have besides `name`: each once, where it occurs first. -/
theorem slots_of_written {lead : List Char} {pieces : List (Tag × List Char)}
    (hlead : ¬ slotStart <:+: lead)
    (hpieces : ∀ p ∈ pieces, p.1.IsProper ∧ ¬ slotStart <:+: p.2) :
    Collects (pieces.map fun p => (p.1.name, p.1.props))
      (slots (lead ++ pieces.flatMap fun p => p.1.text ++ p.2)) := by
  have hread : (pieces.map (·.1.inside)).map (fun inside =>
      (nameOf (attrs inside), propsOf (attrs inside))) =
        pieces.map fun p => (p.1.name, p.1.props) := by
    rw [List.map_map]
    apply List.map_congr_left
    intro p hp
    have htag := (hpieces p hp).1
    show (nameOf (attrs p.1.inside), propsOf (attrs p.1.inside)) = _
    rw [htag.nameOf_attrs, htag.propsOf_attrs]
  have hslots : slots (lead ++ pieces.flatMap fun p => p.1.text ++ p.2) =
      (pieces.map fun p => (p.1.name, p.1.props)).foldl
        (fun ss tag => Slot.addTag tag.1 tag.2 ss) [] := by
    rw [← hread, slots, tags_written hlead hpieces]
    simp only [List.foldl_map]
  rw [hslots]
  exact collects_foldl _

/-- The tag `<slot name="item" item={f({ a: 1 })} {index} />`. -/
def itemTag : Tag :=
  ⟨[([' '], .quoted '"' "name".toList "item".toList),
    ([' '], .braced "item".toList "f(\x7b a: 1 \x7d)".toList),
    ([' '], .shorthand "index".toList)], [' '], true⟩

/-- The tag `<slot {index} data-x={a[i] && !b} name='item' item="a {b}">`. -/
def secondTag : Tag :=
  ⟨[([' '], .shorthand "index".toList),
    ([' '], .braced "data-x".toList "a[i] && !b".toList),
    (['\n'], .quoted '\'' "name".toList "item".toList),
    ([' '], .quoted '"' "item".toList "a \x7bb\x7d".toList)], [], false⟩

/-- Two tags of one slot around another one. -/
def itemPieces : List (Tag × List Char) :=
  [(itemTag, "\n".toList), (⟨[], [], false⟩, "-</slot>".toList), (secondTag, "</slot></ul>".toList)]

theorem slots_of_written_items :
    Collects (itemPieces.map fun p => (p.1.name, p.1.props))
      (slots ("<ul>".toList ++ itemPieces.flatMap fun p => p.1.text ++ p.2)) ∧
    (itemPieces.map fun p => (p.1.name, p.1.props)) =
      [("item", ["item", "index"]), ("default", []), ("item", ["index", "data-x", "item"])] ∧
    slots ("<ul>".toList ++ itemPieces.flatMap fun p => p.1.text ++ p.2) =
      [⟨"default", []⟩, ⟨"item", ["item", "index", "data-x"]⟩] :=
  ⟨slots_of_written (by decide) (by decide +kernel), by decide, by decide +kernel⟩

/-- The tag `<slot items={list.filter(x => x > 1)} name="a" />`. -/
def comparingTag : Tag :=
  ⟨[([' '], .braced "items".toList "list.filter(x => x > 1)".toList),
    ([' '], .quoted '"' "name".toList "a".toList)], [' '], true⟩

/-- The tag `<slot item={f({ a: 1 }, b)} />`. -/
def callingTag : Tag :=
  ⟨[([' '], .braced "item".toList "f(\x7b a: 1 \x7d, b)".toList)], [' '], true⟩

/-- With a `>` in an expression the name of the slot is lost, and words of the expression are taken
for attributes; so are words behind inner braces. -/
theorem slots_of_comparison :
    ¬ Collects [(comparingTag.name, comparingTag.props)] (slots comparingTag.text) ∧
    comparingTag.text = "<slot items=\x7blist.filter(x => x > 1)\x7d name=\"a\" />".toList ∧
    comparingTag.name = "a" ∧ comparingTag.props = ["items"] ∧
    slots comparingTag.text = [⟨"default", ["items", "list", "filter", "x"]⟩] ∧
    callingTag.name = "default" ∧ callingTag.props = ["item"] ∧
    slots callingTag.text = [⟨"default", ["item", "b"]⟩] := by
  have hslots : slots comparingTag.text = [⟨"default", ["items", "list", "filter", "x"]⟩] := by
    decide +kernel
  refine ⟨fun h => ?_, by decide, by decide, by decide, hslots, by decide, by decide,
    by decide +kernel⟩
  have hmem := (h.mem_iff ⟨"default", ["items", "list", "filter", "x"]⟩).1
    (hslots ▸ List.mem_cons_self)
  exact absurd hmem.1 (by decide)

end SvelteTypings.Component.Slot
