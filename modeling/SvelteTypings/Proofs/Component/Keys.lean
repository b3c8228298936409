import SvelteTypings.Proofs.Compiler.Session
import SvelteTypings.Proofs.Component.Rendering
import SvelteTypings.Proofs.Component.Slots

/-!
# The keys of the interfaces

The names of events, of slots and of what slots pass on become keys of interfaces. Only the names of
slots are put in quotes where they are no identifiers. So it depends on the text of a name, in a
different way for each of the three, if its key is an identifier or a string (`keys_of_typing`).
-/

namespace SvelteTypings.Component

variable {c quote : Char} {cs body : List Char}

/-! ## Keys -/

/-- What the language takes for identifiers. Which ASCII characters they are made of is fixed. Which
others they are made of is left open, and so is the form of an escaped character. -/
structure Identifiers where
  starts : Char → Prop
  continues : Char → Prop
  holds : List Char → Prop
  starts_iff : ∀ {c}, c.toNat < 0x80 → (starts c ↔ isIdentStart c)
  continues_iff : ∀ {c}, c.toNat < 0x80 → (continues c ↔ isIdentRest c)
  not_holds_nil : ¬ holds []
  head : ∀ {c cs}, holds (c :: cs) → c = '\\' ∨ starts c
  holds_iff : ∀ {c cs}, '\\' ∉ c :: cs → (holds (c :: cs) ↔ starts c ∧ ∀ d ∈ cs, continues d)

/-- A string in the given quotes can end behind the text, and not before. A backslash takes the next
character with it, and a line end even if that is made of two. -/
def isEnclosed (quote : Char) : List Char → Bool
  | [] => true
  | ['\\'] => false
  | '\\' :: '\r' :: '\n' :: cs => isEnclosed quote cs
  | '\\' :: _ :: cs => isEnclosed quote cs
  | c :: cs => c ≠ quote && c ≠ '\n' && c ≠ '\r' && isEnclosed quote cs

/-- A string literal with its quotes. -/
def IsString (cs : List Char) : Prop :=
  ∃ quote body, Event.isQuote quote ∧ isEnclosed quote body ∧ cs = quote :: (body ++ [quote])

theorem isEnclosed_cons (hc : c ≠ '\\') (cs : List Char) :
    isEnclosed quote (c :: cs) =
      (c ≠ quote && c ≠ '\n' && c ≠ '\r' && isEnclosed quote cs) := by
  rw [isEnclosed]
  · exact fun h _ => hc h
  · exact fun _ h _ => hc h
  · exact fun _ _ h _ => hc h

theorem isEnclosed_of_plain
    (h : ∀ c ∈ cs, c ≠ quote ∧ c ≠ '\\' ∧ c ≠ '\n' ∧ c ≠ '\r') : isEnclosed quote cs := by
  induction cs with
  | nil => rfl
  | cons c cs ih =>
    obtain ⟨⟨hquote, hescape, hends⟩, hcs⟩ := List.forall_mem_cons.1 h
    rw [isEnclosed_cons hescape, ih hcs]
    simp [hquote, hends]

theorem isString_iff :
    IsString (quote :: (body ++ [quote])) ↔ Event.isQuote quote ∧ isEnclosed quote body := by
  constructor
  · rintro ⟨q, b, hq, hb, heq⟩
    obtain ⟨rfl, htail⟩ := List.cons.inj heq
    exact ⟨hq, List.append_cancel_right htail ▸ hb⟩
  · rintro ⟨hquote, hbody⟩
    exact ⟨quote, body, hquote, hbody, rfl⟩

theorem not_isString (h : ∀ c ∈ cs.head?, Event.isQuote c = false) : ¬ IsString cs := by
  rintro ⟨quote, body, hquote, -, rfl⟩
  exact absurd hquote (by simp [h quote rfl])

namespace Identifiers

variable (I : Identifiers)

/-- A key that a member of an interface can have. -/
def IsKey (cs : List Char) : Prop := I.holds cs ∨ IsString cs

theorem isKey_iff_holds (h : ∀ c ∈ cs.head?, Event.isQuote c = false) : I.IsKey cs ↔ I.holds cs :=
  or_iff_left (not_isString h)

theorem isKey_quoted_iff (hquote : Event.isQuote quote) :
    I.IsKey (quote :: (body ++ [quote])) ↔ isEnclosed quote body := by
  have hnot : ¬ I.holds (quote :: (body ++ [quote])) := by
    intro h
    simp only [Event.isQuote, Bool.or_eq_true, decide_eq_true_eq] at hquote
    rcases I.head h with rfl | hstart
    · exact absurd hquote (by decide)
    · rcases hquote with rfl | rfl
      · exact absurd ((I.starts_iff (by decide)).1 hstart) (by decide)
      · exact absurd ((I.starts_iff (by decide)).1 hstart) (by decide)
  rw [IsKey, or_iff_right hnot, isString_iff, and_iff_right hquote]

end Identifiers

/-! ## The names of slots -/

theorem isIdentRest_of_isIdentifier (h : isIdentifier cs) : ∀ c ∈ cs, isIdentRest c := by
  cases cs with
  | nil => simp
  | cons c cs =>
    obtain ⟨hc, hcs⟩ := Bool.and_eq_true_iff.1 h
    exact List.forall_mem_cons.2 ⟨by simp [isIdentRest, hc], List.all_eq_true.1 hcs⟩

theorem toNat_lt_of_isIdentRest (h : isIdentRest c) : c.toNat < 0x80 := by
  simp only [isIdentRest, isIdentStart, Bool.or_eq_true, decide_eq_true_eq] at h
  rcases h with ((halpha | rfl) | rfl) | hdigit
  · have := (Text.printable_of_isAlphanum (c := c) (by simp [Char.isAlphanum, halpha])).2
    omega
  · decide
  · decide
  · have := (Text.printable_of_isAlphanum (c := c) (by simp [Char.isAlphanum, hdigit])).2
    omega

/-- In ASCII a name is an identifier for the language if it is one for the renderer. -/
theorem Identifiers.holds_of_isIdentifier (I : Identifiers) (hne : cs ≠ [])
    (h : isIdentifier cs) : I.holds cs := by
  have hrest := isIdentRest_of_isIdentifier h
  obtain ⟨c, cs, rfl⟩ := List.exists_cons_of_ne_nil hne
  have hescape : '\\' ∉ c :: cs := fun hmem => absurd (hrest _ hmem) (by decide)
  refine (I.holds_iff hescape).2 ⟨?_, fun d hd => ?_⟩
  · exact (I.starts_iff (toNat_lt_of_isIdentRest (hrest c List.mem_cons_self))).2
      (Bool.and_eq_true_iff.1 h).1
  · have hd := hrest d (List.mem_cons_of_mem _ hd)
    exact (I.continues_iff (toNat_lt_of_isIdentRest hd)).2 hd

/-- The key of a slot is legal, but for the empty name and names that a string cannot hold. -/
theorem isKey_slotKey_iff (I : Identifiers) (name : String) :
    I.IsKey (slotKey name).toList ↔ name ≠ "" ∧ isEnclosed '"' name.toList := by
  cases hid : isIdentifier name.toList with
  | false =>
    have hkey : (slotKey name).toList = '"' :: (name.toList ++ ['"']) := by
      simp [slotKey, hid]
    have hne : name ≠ "" := by
      rintro rfl
      exact absurd hid (by decide)
    rw [hkey, I.isKey_quoted_iff (by decide), and_iff_right hne]
  | true =>
    have hkey : (slotKey name).toList = name.toList := by simp [slotKey, hid]
    rw [hkey]
    by_cases hne : name = ""
    · subst hne
      exact iff_of_false (mt (I.isKey_iff_holds (by simp)).1 I.not_holds_nil) fun h => h.1 rfl
    · refine iff_of_true ?_ ⟨hne, isEnclosed_of_plain fun c hc => ?_⟩
      · exact .inl (I.holds_of_isIdentifier (mt String.toList_eq_nil_iff.1 hne) hid)
      · have hc := isIdentRest_of_isIdentifier hid c hc
        refine ⟨?_, ?_, ?_, ?_⟩ <;> rintro rfl <;> exact absurd hc (by decide)

/-! ## What slots pass on -/

namespace Slot

theorem isName_of_shorthand? {rest key : List Char} (h : shorthand? cs = some (key, rest)) :
    IsName isKeyRest key := by
  unfold shorthand? at h
  split at h
  · split at h
    · next hstart =>
      split at h
      · obtain ⟨rfl, -⟩ := Prod.mk.inj (Option.some.inj h)
        refine ⟨hstart, fun d hd => ?_⟩
        simp [isKeyRest, List.mem_takeWhile_imp hd]
      · exact absurd h (by simp)
    · exact absurd h (by simp)
  · exact absurd h (by simp)

theorem isName_of_attr? {rest : List Char} {a : Attr} (h : attr? cs = some (a, rest)) :
    IsName isKeyRest a.key := by
  unfold attr? at h
  split at h
  · next hshorthand =>
    obtain ⟨rfl, -⟩ := Prod.mk.inj (Option.some.inj h)
    exact isName_of_shorthand? hshorthand
  · split at h
    · split at h
      · next hstart =>
        obtain ⟨rfl, -⟩ := Prod.mk.inj (Option.some.inj h)
        exact ⟨hstart, fun d hd => List.mem_takeWhile_imp hd⟩
      · exact absurd h (by simp)
    · exact absurd h (by simp)

theorem isName_of_mem_attrs {a : Attr} (h : a ∈ attrs cs) : IsName isKeyRest a.key := by
  fun_induction attrs cs with
  | case1 => exact absurd h List.not_mem_nil
  | case2 c cs b rest hattr ih =>
    rcases List.mem_cons.1 h with rfl | h
    · exact isName_of_attr? hattr
    · exact ih h
  | case3 c cs hattr ih => exact ih h

/-- What slots pass on are names of attributes. -/
theorem isName_of_mem_props {markup : List Char} {s : Slot} {prop : String}
    (hs : s ∈ slots markup) (hprop : prop ∈ s.props) : IsName isKeyRest prop.toList := by
  have hslots : slots markup =
      ((tags markup).map fun inside => (nameOf (attrs inside), propsOf (attrs inside))).foldl
        (fun ss tag => Slot.addTag tag.1 tag.2 ss) [] := by
    rw [slots, List.foldl_map]
  have hprops := (((collects_foldl _).mem_iff s).1 (hslots ▸ hs)).2
  rw [hprops, passedOn, List.mem_eraseDups, List.mem_flatMap] at hprop
  obtain ⟨tag, htag, hprop⟩ := hprop
  obtain ⟨inside, -, rfl⟩ := List.mem_map.1 (List.mem_filter.1 htag).1
  obtain ⟨a, ha, rfl⟩ := List.mem_map.1 hprop
  rw [String.toList_ofList]
  exact isName_of_mem_attrs (List.mem_filter.1 ha).1

/-- A colon or a hyphen is all in ASCII that the name of an attribute has besides letters. -/
theorem isIdentRest_iff_of_isKeyRest (h : isKeyRest c) (hascii : c.toNat < 0x80) :
    isIdentRest c ↔ c ≠ '-' ∧ c ≠ ':' := by
  constructor
  · intro hrest
    refine ⟨?_, ?_⟩ <;> rintro rfl <;> exact absurd hrest (by decide)
  · rintro ⟨hhyphen, hcolon⟩
    simp only [isKeyRest, Property.isNameRest, Text.isWord, if_pos hascii, hhyphen, hcolon,
      decide_false, Bool.or_false, Bool.or_eq_true, beq_iff_eq, decide_eq_true_eq,
      Char.isAlphanum] at h
    simp only [isIdentRest, isIdentStart, Bool.or_eq_true, decide_eq_true_eq]
    tauto

end Slot

theorem isKey_prop_iff (I : Identifiers) (h : Slot.IsName Slot.isKeyRest cs) :
    I.IsKey cs ↔ ∀ c ∈ cs, c ≠ '-' ∧ c ≠ ':' ∧ (0x80 ≤ c.toNat → I.continues c) := by
  have hescape : '\\' ∉ cs := h.not_mem (by decide) (by decide)
  cases cs with
  | nil => exact h.elim
  | cons c cs =>
    obtain ⟨hstart, hrest⟩ := h
    have hident : isIdentRest c := by
      have hstart : isIdentStart c := hstart
      simp [isIdentRest, hstart]
    have hascii := toNat_lt_of_isIdentRest hident
    have hquote : ∀ d ∈ (c :: cs).head?, Event.isQuote d = false := by
      rintro d hd
      obtain rfl : c = d := by simpa using hd
      rw [← Bool.not_eq_true]
      intro hquote
      simp only [Event.isQuote, Bool.or_eq_true, decide_eq_true_eq] at hquote
      rcases hquote with rfl | rfl <;> exact absurd hident (by decide)
    have hfirst : c ≠ '-' ∧ c ≠ ':' ∧ (0x80 ≤ c.toNat → I.continues c) := by
      refine ⟨?_, ?_, fun h => by omega⟩ <;> rintro rfl <;> exact absurd hident (by decide)
    rw [I.isKey_iff_holds hquote, I.holds_iff hescape, List.forall_mem_cons,
      and_iff_right ((I.starts_iff hascii).2 hstart), and_iff_right hfirst]
    refine forall₂_congr fun d hd => ?_
    -- in ASCII the language decides as the renderer does, beyond it on its own
    by_cases hlt : d.toNat < 0x80
    · have hother : 0x80 ≤ d.toNat → I.continues d := fun hle => absurd hlt (Nat.not_lt.2 hle)
      have hiff := (I.continues_iff hlt).trans
        (Slot.isIdentRest_iff_of_isKeyRest (hrest d hd) hlt)
      exact hiff.trans (and_congr_right fun _ => (and_iff_left hother).symm)
    · have hne : d ≠ '-' ∧ d ≠ ':' := by
        refine ⟨?_, ?_⟩ <;> rintro rfl <;> exact hlt (by decide)
      rw [and_iff_right hne.1, and_iff_right hne.2, imp_iff_right (Nat.not_lt.1 hlt)]

/-! ## The names of events -/

namespace Event

variable {member script : List Char} {e : Event} {es : List Event}

/-- Quotes around the name of an event are not part of it. -/
theorem isQuote_head_of_ofMember? (h : ofMember? member = some e) :
    ∀ c ∈ e.name.toList.head?, isQuote c = false := by
  obtain ⟨⟨key, type⟩, -, h⟩ := Option.bind_eq_some_iff.1 h
  dsimp only at h
  split at h
  · exact absurd h (by simp)
  · obtain rfl := Option.some.inj h
    rw [String.toList_ofList]
    intro c hc
    -- what is cut off at the end does not change how the name begins
    obtain ⟨more, hmore⟩ := (Text.dropEndWhile_isPrefix (· = '?') _).trans
      (Text.dropEndWhile_isPrefix isQuote ((Text.trim key).dropWhile isQuote))
    have hfirst := List.mem_head?_append_of_mem_head? (t := more) hc
    rw [hmore, Option.mem_def] at hfirst
    have hhead := List.head?_dropWhile_not isQuote (Text.trim key)
    rwa [hfirst] at hhead

theorem isQuote_head_of_events? (h : events? script = some es) (he : e ∈ es) :
    ∀ c ∈ e.name.toList.head?, isQuote c = false := by
  obtain ⟨members, -, rfl⟩ := Option.map_eq_some_iff.1 h
  obtain ⟨member, -, hmember⟩ := List.mem_filterMap.1 he
  exact isQuote_head_of_ofMember? hmember

end Event

/-! ## The interfaces -/

variable {source text : String} {path : Path}

theorem parts_of_typing (h : typing source path = .ok text) :
    ∃ p, parts source = .ok p ∧
      text = unlines (p.topLines ++
        (renderBlock p :: exportBlocks (className path) p).flatMap Script.Block.spaced) := by
  cases hparts : parts source with
  | error e =>
    rw [typing, hparts] at h
    exact absurd h (by simp)
  | ok p =>
    rw [typing, hparts] at h
    exact ⟨p, rfl, by rw [← render_eq, Except.ok.inj h]⟩

/-- **The keys of the interfaces** that a component is rendered with. An event has a key only if its
name is an identifier. A slot has one if its name is not empty and can stand in a string, and what
it passes on if no hyphen or colon stands in the name. -/
theorem keys_of_typing (I : Identifiers) (h : typing source path = .ok text) :
    ∃ p, parts source = .ok p ∧
      text = unlines (p.topLines ++
        (renderBlock p :: exportBlocks (className path) p).flatMap Script.Block.spaced) ∧
      (∀ es ∈ p.events, ∀ e ∈ es, I.IsKey e.name.toList ↔ I.holds e.name.toList) ∧
      ∀ s ∈ p.slots,
        (I.IsKey (slotKey s.name).toList ↔ s.name ≠ "" ∧ isEnclosed '"' s.name.toList) ∧
        ∀ prop ∈ s.props, I.IsKey prop.toList ↔
          ∀ c ∈ prop.toList, c ≠ '-' ∧ c ≠ ':' ∧ (0x80 ≤ c.toNat → I.continues c) := by
  obtain ⟨p, hp, htext⟩ := parts_of_typing h
  obtain ⟨b, rfl⟩ : ∃ b, p = Parts.ofBlocks b := by
    rw [parts] at hp
    cases hb : blocks source with
    | error e =>
      rw [hb] at hp
      exact absurd hp (by simp [Except.map])
    | ok b =>
      rw [hb] at hp
      exact ⟨b, (Except.ok.inj hp).symm⟩
  refine ⟨_, hp, htext, fun es hes e he => ?_, fun s hs => ⟨?_, fun prop hprop => ?_⟩⟩
  · exact I.isKey_iff_holds (Event.isQuote_head_of_events? hes he)
  · exact isKey_slotKey_iff I s.name
  · exact isKey_prop_iff I (Slot.isName_of_mem_props hs hprop)

/-- Identifiers of ASCII characters, without escaped ones. -/
def Identifiers.ascii : Identifiers where
  starts c := isIdentStart c
  continues c := isIdentRest c
  holds cs := cs ≠ [] ∧ isIdentifier cs
  starts_iff _ := Iff.rfl
  continues_iff _ := Iff.rfl
  not_holds_nil h := h.1 rfl
  head h := .inr (Bool.and_eq_true_iff.1 h.2).1
  holds_iff _ := by simp [isIdentifier]

instance (cs : List Char) : Decidable (Identifiers.ascii.holds cs) :=
  inferInstanceAs (Decidable (cs ≠ [] ∧ isIdentifier cs))

/-- A component with names that are no identifiers. -/
def hyphenated : String :=
  "<script>\ncreateEventDispatcher<\x7b 'on-close': void \x7d>();\n</script>\n" ++
    "<slot data-x=\x7b1\x7d />\n<slot name='a\"b' />\n<slot name=\"\" />\n"

def hyphenatedParts : Parts :=
  { moduleScript := none
    imports := []
    body := "\ncreateEventDispatcher<\x7b 'on-close': void \x7d>();\n"
    properties := []
    events := some [⟨"on-close", "void"⟩]
    slots := [⟨"", []⟩, ⟨"a\"b", []⟩, ⟨"default", ["data-x"]⟩] }

theorem typing_hyphenated :
    typing hyphenated (.ofString "/s/A.svelte") = .ok (render "A" hyphenatedParts) := by
  have hparts : parts hyphenated = .ok hyphenatedParts := by
    unfold parts blocks hyphenated
    rw [← String.ofList_append, String.toList_ofList]
    exact eq_ok_of_toOption (by decide +kernel)
  have hname : className (.ofString "/s/A.svelte") = "A" := by decide
  rw [typing, hparts, hname]

theorem keys_of_typing_hyphenated :
    typing hyphenated (.ofString "/s/A.svelte") = .ok (render "A" hyphenatedParts) ∧
    ∃ p, parts hyphenated = .ok p ∧
      render "A" hyphenatedParts = unlines (p.topLines ++ (renderBlock p ::
        exportBlocks (className (.ofString "/s/A.svelte")) p).flatMap Script.Block.spaced) ∧
      (∀ es ∈ p.events, ∀ e ∈ es, Identifiers.ascii.IsKey e.name.toList ↔
        Identifiers.ascii.holds e.name.toList) ∧
      ∀ s ∈ p.slots,
        (Identifiers.ascii.IsKey (slotKey s.name).toList ↔
          s.name ≠ "" ∧ isEnclosed '"' s.name.toList) ∧
        ∀ prop ∈ s.props, Identifiers.ascii.IsKey prop.toList ↔
          ∀ c ∈ prop.toList, c ≠ '-' ∧ c ≠ ':' ∧ (0x80 ≤ c.toNat → isIdentRest c) :=
  ⟨typing_hyphenated, keys_of_typing .ascii typing_hyphenated⟩

/-- Names that are no identifiers become keys as they are, but for those of slots, and these without
regard to what a string can hold. -/
theorem keys_of_hyphenated :
    typing hyphenated (.ofString "/s/A.svelte") = .ok (render "A" hyphenatedParts) ∧
    eventLines hyphenatedParts.events = ["on-close: CustomEvent<void>;"] ∧
    ¬ Identifiers.ascii.IsKey "on-close".toList ∧
    hyphenatedParts.slots.map slotLine =
      [": \x7b\x7d;", "\"a\"b\": \x7b\x7d;", "default: \x7b data-x: any \x7d;"] ∧
    ¬ Identifiers.ascii.IsKey "".toList ∧ ¬ Identifiers.ascii.IsKey "\"a\"b\"".toList ∧
    ¬ Identifiers.ascii.IsKey "data-x".toList := by
  have hnot : ∀ {cs : List Char}, cs.head?.all (!Event.isQuote ·) →
      ¬ Identifiers.ascii.holds cs → ¬ Identifiers.ascii.IsKey cs := fun hquote =>
    mt (Identifiers.ascii.isKey_iff_holds fun c hc => by
      simpa using Option.all_eq_true _ _ |>.1 hquote c hc).1
  have hquoted : ¬ Identifiers.ascii.IsKey (slotKey "a\"b").toList := fun h =>
    absurd ((isKey_slotKey_iff _ _).1 h).2 (by decide)
  exact ⟨typing_hyphenated, by decide, hnot (by decide) (by decide), by decide,
    hnot (by decide) (by decide), hquoted, hnot (by decide) (by decide)⟩

end SvelteTypings.Component
