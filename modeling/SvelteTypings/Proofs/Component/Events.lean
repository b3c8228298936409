import SvelteTypings.Component.Event
import SvelteTypings.Proofs.Component.Properties
import SvelteTypings.Proofs.Text.Searching

/-!
# Reading written events

The events that are written as the type literal of a dispatcher are read back with their types, in
order (`events?_of_written`). Three scans have to agree on where a type ends: one finds the first
mention of the dispatcher with a type literal, one the brace that closes the literal, and one the
separators between its members. A type whose brackets nest is passed over by each of them as a whole
(`untilClosed?_append`, `splitMembers_append`).
-/

namespace SvelteTypings.Component.Event

open Text (nests openBehind?)

variable {prev c : Char} {stack stack' cs xs rest gap member : List Char}
  {ok : Char → List Char → Bool}

/-! ## Characters -/

/-- The characters that mean something between the members of a type literal. -/
def marks : List Char := Text.brackets ++ [';', ',', '\n', '=', ':']

/-- A character between members. -/
def isGap (c : Char) : Bool := Text.isBlank c || isSeparator c

/-- A blank that does not end a line. -/
def isInner (c : Char) : Bool := Text.isBlank c && c ≠ '\n'

/-- A character that means nothing, neither between members nor around a key. Letters and digits are
plain, and so are `$`, `_`, `-` and the blanks that end no line. -/
def isPlain (c : Char) : Bool := !marks.contains c && !isQuote c && c ≠ '?'

theorem not_mem_of_all {p : Char → Bool} {ds : List Char} (hds : ds.all (!p ·)) (h : p c) :
    c ∉ ds := by
  intro hc
  have hno := List.all_eq_true.1 hds c hc
  rw [h] at hno
  exact absurd hno (by decide)

theorem isGap_not_mem_brackets (h : isGap c) : c ∉ Text.brackets := not_mem_of_all (by decide) h

theorem isInner_not_mem_marks (h : isInner c) : c ∉ marks := not_mem_of_all (by decide) h

theorem isQuote_not_mem_marks (h : isQuote c) : c ∉ marks := not_mem_of_all (by decide) h

theorem of_isPlain (h : isPlain c) : c ∉ marks ∧ isQuote c = false ∧ decide (c = '?') = false := by
  simpa [isPlain, and_assoc] using h

theorem of_not_mem_marks (h : c ∉ marks) :
    c ∉ Text.brackets ∧ isSeparator c = false ∧ c ≠ '=' := by
  have hne : ∀ d ∈ marks, c ≠ d := fun d hd => (ne_of_mem_of_not_mem hd h).symm
  refine ⟨fun hc => h (List.mem_append_left _ hc), ?_, hne '=' (by decide)⟩
  simp [isSeparator, hne ';' (by decide), hne ',' (by decide), hne '\n' (by decide)]

/-! ## The closing brace -/

theorem untilClosed?_open (depth : Nat) (cs : List Char) :
    untilClosed? depth ('{' :: cs) = (untilClosed? (depth + 1) cs).map ('{' :: ·) := by
  simp [untilClosed?]

theorem untilClosed?_close (depth : Nat) (cs : List Char) :
    untilClosed? (depth + 2) ('}' :: cs) = (untilClosed? (depth + 1) cs).map ('}' :: ·) := by
  simp [untilClosed?]

theorem untilClosed?_other (hopen : c ≠ '{') (hclose : c ≠ '}') (depth : Nat) (cs : List Char) :
    untilClosed? depth (c :: cs) = (untilClosed? depth cs).map (c :: ·) := by
  simp [untilClosed?, hopen, hclose]

/-- A text in which brackets nest is passed over. Of the brackets that are open, the braces are
counted. -/
theorem untilClosed?_append (h : nests ok prev stack xs) (rest : List Char) :
    untilClosed? (stack.count '}' + 1) (xs ++ rest) =
      (untilClosed? 1 rest).map (xs ++ ·) := by
  induction xs generalizing prev stack with
  | nil =>
    obtain rfl : stack = [] := List.isEmpty_iff.1 h
    exact Option.map_id'.symm
  | cons c xs ih =>
    obtain ⟨-, stack', hstack, hxs⟩ := Text.nests_cons_iff.1 h
    have hrest := ih hxs
    suffices hstep : untilClosed? (stack.count '}' + 1) (c :: (xs ++ rest)) =
        (untilClosed? (stack'.count '}' + 1) (xs ++ rest)).map (c :: ·) by
      rw [List.cons_append, hstep, hrest, Option.map_map]
      rfl
    rcases Text.openBehind?_cases hstack with ⟨d, hd, rfl⟩ | ⟨hopen, -, rfl⟩ | ⟨hopen, hclose, rfl⟩
    · by_cases hc : c = '{'
      · subst hc
        obtain rfl : '}' = d := Option.some.inj hd
        rw [untilClosed?_open, List.count_cons_self]
      · have hc' : c ≠ '}' := by
          rintro rfl
          exact absurd hd (by simp [Text.closing?])
        have hd' : d ≠ '}' := by
          rintro rfl
          unfold Text.closing? at hd
          split at hd
          all_goals first | exact hc rfl | exact absurd hd (by decide)
        rw [untilClosed?_other hc hc', List.count_cons_of_ne hd']
    · have hc : c ≠ '{' := by
        rintro rfl
        exact absurd hopen (by decide)
      by_cases hc' : c = '}'
      · subst hc'
        rw [List.count_cons_self, untilClosed?_close]
      · rw [untilClosed?_other hc hc', List.count_cons_of_ne hc']
    · have hc : c ≠ '{' := by
        rintro rfl
        exact absurd hopen (by decide)
      have hc' : c ≠ '}' := by
        rintro rfl
        exact absurd hclose (by simp [Text.isClosing])
      rw [untilClosed?_other hc hc']

theorem untilClosed?_gap (hgap : ∀ c ∈ gap, isGap c) (rest : List Char) :
    untilClosed? 1 (gap ++ rest) = (untilClosed? 1 rest).map (gap ++ ·) := by
  have hnests : nests (fun _ _ => true) ' ' [] (gap ++ []) :=
    Text.nests_append (fun c hc => isGap_not_mem_brackets (hgap c hc)) (fun _ _ _ => rfl) rfl
  rw [List.append_nil] at hnests
  exact untilClosed?_append hnests rest

/-! ## Separators -/

/-- Separators stand inside brackets only. -/
def noSeparator (c : Char) (_ : List Char) : Bool := !isSeparator c

/-- A text in which brackets nest is not split. -/
theorem splitMembers_append (h : nests noSeparator prev stack xs) (rest : List Char) :
    splitMembers prev stack.length (xs ++ rest) =
      xs.foldr consPart (splitMembers (xs.getLastD prev) 0 rest) := by
  induction xs generalizing prev stack with
  | nil =>
    obtain rfl : stack = [] := List.isEmpty_iff.1 h
    rfl
  | cons c xs ih =>
    obtain ⟨hsep, stack', hstack, hxs⟩ := Text.nests_cons_iff.1 h
    have hsplit : ¬ ((stack.length : Int) = 0 ∧ isSeparator c) := by
      rintro ⟨hdepth, hc⟩
      have hempty : stack = [] := List.length_eq_zero_iff.1 (by omega)
      exact absurd (hsep hempty) (by simp [noSeparator, hc])
    rw [List.cons_append, splitMembers, if_neg hsplit,
      ← Property.length_of_openBehind? hstack, ih hxs, List.getLastD_cons, List.foldr_cons]

/-- The members of a text, without the blanks around them. -/
def trimmedParts (prev : Char) (cs : List Char) : List (List Char) :=
  (splitMembers prev 0 cs).filterMap Property.nonBlank?

theorem splitMembers_separator (hc : isSeparator c) (cs : List Char) :
    splitMembers prev 0 (c :: cs) = [] :: splitMembers c 0 cs := by
  rw [splitMembers, if_pos ⟨rfl, hc⟩]

theorem splitMembers_blank (hgap : isGap c) (hc : ¬ isSeparator c = true) (cs : List Char) :
    splitMembers prev 0 (c :: cs) = consPart c (splitMembers c 0 cs) := by
  have hstack := Text.openBehind?_of_not_mem prev [] (isGap_not_mem_brackets hgap)
  have hdepth : (0 : Int) = 0 + Property.bracketStep (some prev) c :=
    Property.length_of_openBehind? hstack
  rw [splitMembers, if_neg fun h => hc h.2, ← hdepth]

/-- A blank in front of the first part is trimmed away. -/
theorem filterMap_consPart (hc : Text.isBlank c) (parts : List (List Char)) :
    (consPart c parts).filterMap Property.nonBlank? = parts.filterMap Property.nonBlank? := by
  have hfirst : ∀ p, Property.nonBlank? (c :: p) = Property.nonBlank? p := fun p => by
    rw [← List.singleton_append, Property.nonBlank?_append_left (by simpa using hc)]
  cases parts with
  | nil => exact List.filterMap_cons_none (hfirst [])
  | cons p ps => rw [consPart, List.filterMap_cons, List.filterMap_cons, hfirst]

theorem foldr_consPart (xs p : List Char) (ps : List (List Char)) :
    xs.foldr consPart (p :: ps) = (xs ++ p) :: ps := by
  induction xs with
  | nil => rfl
  | cons c xs ih => rw [List.foldr_cons, ih]; rfl

/-- What separates members leaves no part behind. -/
theorem trimmedParts_gap (prev : Char) (hgap : ∀ c ∈ gap, isGap c) (rest : List Char) :
    trimmedParts prev (gap ++ rest) = trimmedParts (gap.getLastD prev) rest := by
  induction gap generalizing prev with
  | nil => rfl
  | cons c gap ih =>
    have hrest := ih c fun d hd => hgap d (List.mem_cons_of_mem _ hd)
    have hc := hgap c List.mem_cons_self
    rw [List.getLastD_cons, ← hrest, List.cons_append, trimmedParts, trimmedParts]
    by_cases hsep : isSeparator c
    · rw [splitMembers_separator hsep]
      rfl
    · rw [splitMembers_blank hc hsep]
      exact filterMap_consPart ((Bool.or_eq_true_iff.1 hc).resolve_right hsep) _

/-- A member is the next part, if a separator follows, or nothing but blanks. -/
theorem filterMap_member (prev : Char) (hne : member ≠ []) (htrim : Text.trim member = member)
    (hxs : ∀ c ∈ xs, Text.isBlank c) (hgap : ∀ c ∈ gap, isGap c)
    (hsep : gap.any isSeparator ∨ rest = []) :
    ((member ++ xs).foldr consPart (splitMembers prev 0 (gap ++ rest))).filterMap
        Property.nonBlank? = member :: trimmedParts prev (gap ++ rest) := by
  have hmember : ∀ ys, (∀ c ∈ ys, Text.isBlank c) →
      Property.nonBlank? (member ++ ys) = some member := fun ys hys =>
    (Property.nonBlank?_append_right hys member).trans (Property.nonBlank?_of_trim hne htrim)
  induction gap generalizing prev xs with
  | nil =>
    obtain rfl : rest = [] := hsep.resolve_left (by simp)
    rw [trimmedParts, List.append_nil, splitMembers, foldr_consPart, List.append_nil,
      List.filterMap_cons_some (hmember xs hxs)]
    rfl
  | cons c gap ih =>
    have hc := hgap c List.mem_cons_self
    rw [trimmedParts, List.cons_append]
    by_cases hend : isSeparator c
    · rw [splitMembers_separator hend, foldr_consPart, List.append_nil,
        List.filterMap_cons_some (hmember xs hxs)]
      rfl
    · have hblank := (Bool.or_eq_true_iff.1 hc).resolve_right hend
      have hxs' : ∀ d ∈ xs ++ [c], Text.isBlank d := by
        simpa [or_imp, forall_and] using ⟨hxs, hblank⟩
      have hnext := ih c hxs' (fun d hd => hgap d (List.mem_cons_of_mem _ hd))
        (by simpa [hend] using hsep)
      rw [splitMembers_blank hc hend, filterMap_consPart hblank, ← trimmedParts, ← hnext,
        ← List.append_assoc, List.foldr_append (l := member ++ xs)]
      rfl

/-! ## Members -/

/-- The key of a member: a name, which may be marked as optional, or a text in quotes. A name may
hold all plain characters but blanks. -/
inductive Key where
  | name (cs : List Char) (optional : Bool)
  | quoted (quote : Char) (cs : List Char)

namespace Key

def content : Key → List Char
  | name cs _ => cs
  | quoted _ cs => cs

def mark (optional : Bool) : List Char := if optional then ['?'] else []

def text : Key → List Char
  | name cs optional => cs ++ mark optional
  | quoted quote cs => quote :: cs ++ [quote]

def IsProper : Key → Prop
  | name cs _ => cs ≠ [] ∧ ∀ c ∈ cs, isPlain c ∧ Text.isBlank c = false
  | quoted quote cs => isQuote quote ∧ cs ≠ [] ∧ ∀ c ∈ cs, isPlain c

end Key

/-- A member as it is written, with blanks before and behind its colon. -/
structure Member where
  key : Key
  before : List Char
  behind : List Char
  type : List Char

namespace Member

/-- The text up to the type. -/
def head (m : Member) : List Char := m.key.text ++ m.before ++ ':' :: m.behind

def text (m : Member) : List Char := m.head ++ m.type

def event (m : Member) : Event := ⟨String.ofList m.key.content, String.ofList m.type⟩

/-- In the type, brackets nest, and outside of them it has no separator. -/
structure IsProper (m : Member) : Prop where
  key : m.key.IsProper
  before : ∀ c ∈ m.before, isInner c
  behind : ∀ c ∈ m.behind, isInner c
  nonempty : m.type ≠ []
  trimmed : Text.trim m.type = m.type
  nests : nests noSeparator ' ' [] m.type

end Member

theorem Key.eq_of_mem_mark {optional : Bool} (h : c ∈ Key.mark optional) : c = '?' := by
  cases optional with
  | true => exact List.mem_singleton.1 h
  | false => exact absurd h List.not_mem_nil

/-- Nothing in a key is taken for something else. -/
theorem Key.IsProper.not_mem_marks {k : Key} (h : k.IsProper) : ∀ c ∈ k.text, c ∉ marks := by
  intro c hc
  cases k with
  | name cs optional =>
    rcases List.mem_append.1 hc with hc | hc
    · exact (of_isPlain (h.2 c hc).1).1
    · rw [Key.eq_of_mem_mark hc]
      decide
  | quoted quote cs =>
    obtain ⟨hquote, -, hcs⟩ := h
    rcases List.mem_append.1 hc with hc | hc
    · rcases List.mem_cons.1 hc with rfl | hc
      · exact isQuote_not_mem_marks hquote
      · exact (of_isPlain (hcs c hc)).1
    · obtain rfl := List.mem_singleton.1 hc
      exact isQuote_not_mem_marks hquote

/-- Neither end of a key is a blank. -/
theorem Key.IsProper.trim_text {k : Key} (h : k.IsProper) : Text.trim k.text = k.text := by
  cases k with
  | name cs optional =>
    have hall : ∀ c ∈ (name cs optional).text, Text.isBlank c = false := by
      intro c hc
      rcases List.mem_append.1 hc with hc | hc
      · exact (h.2 c hc).2
      · rw [Key.eq_of_mem_mark hc]
        decide
    exact Text.trim_of_ends (fun c hc => hall c (List.mem_of_head? hc))
      fun c hc => hall c (List.mem_of_getLast? hc)
  | quoted quote cs =>
    have hquote : Text.isBlank quote = false := by
      rcases Bool.or_eq_true_iff.1 h.1 with hq | hq <;> rw [of_decide_eq_true hq] <;> decide
    refine Text.trim_of_ends (fun c hc => ?_) fun c hc => ?_
    · exact Option.some.inj hc ▸ hquote
    · rw [Key.text, List.getLast?_concat] at hc
      exact Option.some.inj hc ▸ hquote

theorem Key.IsProper.content_ne_nil {k : Key} (h : k.IsProper) : k.content ≠ [] := by
  cases k with
  | name cs optional => exact h.1
  | quoted quote cs => exact h.2.1

theorem Key.IsProper.text_ne_nil {k : Key} (h : k.IsProper) : k.text ≠ [] := by
  cases k with
  | name cs optional => exact List.append_ne_nil_of_left_ne_nil h.1 _
  | quoted quote cs => exact List.cons_ne_nil _ _

/-- A key is read as it is written. -/
theorem Key.IsProper.read {k : Key} (h : k.IsProper) :
    Text.dropEndWhile (· = '?') (Text.dropEndWhile isQuote (k.text.dropWhile isQuote)) =
      k.content := by
  -- A name may have a mark behind it, and a quoted key has its quotes around it.
  cases k with
  | name cs optional =>
    obtain ⟨hne, hcs⟩ := h
    obtain ⟨c, cs, rfl⟩ := List.exists_cons_of_ne_nil hne
    have hmark : ∀ d ∈ Key.mark optional, decide (d = '?') :=
      fun d hd => decide_eq_true (Key.eq_of_mem_mark hd)
    have hquote : ∀ d ∈ c :: cs ++ Key.mark optional, isQuote d = false := by
      intro d hd
      rcases List.mem_append.1 hd with hd | hd
      · exact (of_isPlain (hcs d hd).1).2.1
      · rw [Key.eq_of_mem_mark hd]
        decide
    have hfirst : ¬ isQuote c = true := Bool.eq_false_iff.1 (hquote c (by simp))
    rw [Key.text, List.cons_append, List.dropWhile_cons_of_neg hfirst, ← List.cons_append,
      Text.dropEndWhile_eq_self fun d hd => hquote d (List.mem_of_getLast? hd),
      Text.dropEndWhile_append hmark,
      Text.dropEndWhile_eq_self fun d hd =>
        (of_isPlain (hcs d (List.mem_of_getLast? hd)).1).2.2, Key.content]
  | quoted quote cs =>
    obtain ⟨hquote, hne, hcs⟩ := h
    obtain ⟨c, cs, rfl⟩ := List.exists_cons_of_ne_nil hne
    have hends : ∀ d ∈ (c :: cs).getLast?, isQuote d = false ∧ decide (d = '?') = false :=
      fun d hd => (of_isPlain (hcs d (List.mem_of_getLast? hd))).2
    have hfirst : ¬ isQuote c = true :=
      Bool.eq_false_iff.1 (of_isPlain (hcs c List.mem_cons_self)).2.1
    rw [Key.text, List.cons_append, List.dropWhile_cons_of_pos hquote, List.cons_append,
      List.dropWhile_cons_of_neg hfirst, ← List.cons_append,
      Text.dropEndWhile_append (by simpa using hquote),
      Text.dropEndWhile_eq_self fun d hd => (hends d hd).1,
      Text.dropEndWhile_eq_self fun d hd => (hends d hd).2, Key.content]

theorem isBlank_of_isInner (h : isInner c) : Text.isBlank c := (Bool.and_eq_true_iff.1 h).1

namespace Member

variable {m : Member}

theorem IsProper.not_mem_marks (h : m.IsProper) : ∀ c ∈ m.key.text ++ m.before, c ∉ marks := by
  intro c hc
  rcases List.mem_append.1 hc with hc | hc
  · exact h.key.not_mem_marks c hc
  · exact isInner_not_mem_marks (h.before c hc)

theorem IsProper.mem_head (h : m.IsProper) :
    ∀ c ∈ m.head, c ∉ Text.brackets ∧ isSeparator c = false ∧ c ≠ '=' := by
  intro c hc
  rcases List.mem_append.1 hc with hc | hc
  · exact of_not_mem_marks (h.not_mem_marks c hc)
  · rcases List.mem_cons.1 hc with rfl | hc
    · decide
    · exact of_not_mem_marks (isInner_not_mem_marks (h.behind c hc))

/-- Brackets nest in a member, and no separator stands outside of them. -/
theorem IsProper.nests_text (h : m.IsProper) (prev : Char) (hprev : prev ≠ '=') :
    Text.nests noSeparator prev [] m.text := by
  refine Text.nests_append (fun c hc => (h.mem_head c hc).1)
    (fun c hc cs => by simp [noSeparator, (h.mem_head c hc).2.1]) ?_
  refine Text.nests_of_prev (by decide) ?_ h.nests
  rw [List.getLastD_eq_getLast?]
  cases hlast : m.head.getLast? with
  | none => exact hprev
  | some c => exact (h.mem_head c (List.mem_of_getLast? hlast)).2.2

theorem IsProper.text_ne_nil (h : m.IsProper) : m.text ≠ [] :=
  List.append_ne_nil_of_right_ne_nil _ h.nonempty

/-- The event of a member is read as it is written. -/
theorem IsProper.ofMember? (h : m.IsProper) : ofMember? m.text = some m.event := by
  have hcut : Text.cut? [':'] m.text = some (m.key.text ++ m.before, m.behind ++ m.type) := by
    rw [text, head, List.append_assoc, List.cons_append]
    exact Text.cut?_singleton_eq_some_iff.2
      ⟨rfl, fun hcolon => h.not_mem_marks ':' hcolon (by decide)⟩
  have hkey : Text.trim (m.key.text ++ m.before) = m.key.text := by
    rw [Text.trim_append_right fun c hc => isBlank_of_isInner (h.before c hc), h.key.trim_text]
  have htype : Text.trim (m.behind ++ m.type) = m.type := by
    rw [Text.trim_append_left fun c hc => isBlank_of_isInner (h.behind c hc), h.trimmed]
  rw [Event.ofMember?, hcut, Option.bind_eq_bind, Option.bind_some]
  simp only [hkey, htype, h.key.read]
  exact if_neg (by simpa using h.key.content_ne_nil)

/-- Neither end of a member is a blank. -/
theorem IsProper.trim_text (h : m.IsProper) : Text.trim m.text = m.text := by
  have hfirst := List.head?_eq_some_head h.key.text_ne_nil
  have hlast := List.getLast?_eq_some_getLast h.nonempty
  refine Text.trim_of_ends (fun c hc => Text.isBlank_head_of_trim h.key.trim_text ?_)
    fun c hc => Text.isBlank_getLast_of_trim h.trimmed ?_
  · rwa [text, head, List.append_assoc, List.append_assoc, List.head?_append, hfirst,
      Option.some_or, ← hfirst] at hc
  · rwa [text, List.getLast?_append, hlast, Option.some_or, ← hlast] at hc

end Member

/-! ## Type literals -/

/-- Members, each with what separates it from the next, behind what stands in front of the first. -/
def written (lead : List Char) : List (Member × List Char) → List Char
  | [] => lead
  | (m, gap) :: members => lead ++ (m.text ++ written gap members)

/-- Between two members is a separator. Blanks and more separators may stand anywhere. -/
structure AreSeparated (lead : List Char) (members : List (Member × List Char)) : Prop where
  lead : ∀ c ∈ lead, isGap c
  gaps : ∀ m ∈ members, ∀ c ∈ m.2, isGap c
  separated : ∀ m ∈ members.dropLast, m.2.any isSeparator
  proper : ∀ m ∈ members, m.1.IsProper

namespace AreSeparated

variable {lead : List Char} {m : Member} {members : List (Member × List Char)}

theorem tail (h : AreSeparated lead ((m, gap) :: members)) : AreSeparated gap members where
  lead := h.gaps _ List.mem_cons_self
  gaps m hm := h.gaps m (List.mem_cons_of_mem _ hm)
  separated m hm := by
    refine h.separated m ?_
    cases members with
    | nil => exact absurd hm List.not_mem_nil
    | cons m' members => exact List.mem_cons_of_mem _ hm
  proper m hm := h.proper m (List.mem_cons_of_mem _ hm)

/-- The literal ends behind its last member. -/
theorem untilClosed?_written (h : AreSeparated lead members) (rest : List Char) :
    untilClosed? 1 (written lead members ++ rest) =
      (untilClosed? 1 rest).map (written lead members ++ ·) := by
  induction members generalizing lead with
  | nil => exact untilClosed?_gap h.lead rest
  | cons m members ih =>
    obtain ⟨m, gap⟩ := m
    have hmember := untilClosed?_append
      ((h.proper _ List.mem_cons_self).nests_text ' ' (by decide))
      (written gap members ++ rest)
    rw [List.count_nil] at hmember
    rw [written, List.append_assoc, List.append_assoc, untilClosed?_gap h.lead, hmember,
      ih h.tail, Option.map_map, Option.map_map]
    simp only [Function.comp_def, List.append_assoc]

/-- Behind a member that is not the last one stands a separator. -/
theorem separated_head (h : AreSeparated lead ((m, gap) :: members)) :
    gap.any isSeparator ∨ members = [] := by
  cases members with
  | nil => exact .inr rfl
  | cons m' members => exact .inl (h.separated (m, gap) List.mem_cons_self)

theorem ne_nil_of_separated (h : gap.any isSeparator ∨ members = []) : gap ≠ [] ∨ members = [] :=
  h.imp_left fun hsep hnil => by simp [hnil] at hsep

/-- What stands in front of a member is no half of an arrow. -/
theorem getLastD_lead (h : AreSeparated lead members) (prev : Char)
    (hprev : prev ≠ '=' ∨ lead ≠ []) :
    lead.getLastD prev ≠ '=' := by
  rw [List.getLastD_eq_getLast?]
  cases hlast : lead.getLast? with
  | none => exact hprev.resolve_right (not_not_intro (List.getLast?_eq_none_iff.1 hlast))
  | some c =>
    have hgap := h.lead c (List.mem_of_getLast? hlast)
    rintro rfl
    exact absurd hgap (by decide)

/-- The parts of the literal are its members. -/
theorem trimmedParts_written (prev : Char) (h : AreSeparated lead members)
    (hprev : prev ≠ '=' ∨ lead ≠ [] ∨ members = []) :
    trimmedParts prev (written lead members) = members.map fun m => m.1.text := by
  induction members generalizing lead prev with
  | nil =>
    have hlead := trimmedParts_gap prev h.lead []
    rwa [List.append_nil] at hlead
  | cons m members ih =>
    obtain ⟨m, gap⟩ := m
    have hm := h.proper _ List.mem_cons_self
    have hlast := h.getLastD_lead prev (hprev.imp_right (·.resolve_right (by simp)))
    have hrest := ih (m.text.getLastD (lead.getLastD prev)) h.tail
      (.inr (ne_nil_of_separated h.separated_head))
    have hsplit := splitMembers_append (hm.nests_text _ hlast) (written gap members)
    obtain ⟨rest, hwritten, hsep⟩ : ∃ rest, written gap members = gap ++ rest ∧
        (gap.any isSeparator ∨ rest = []) := by
      cases members with
      | nil => exact ⟨[], (List.append_nil _).symm, .inr rfl⟩
      | cons m' members =>
        exact ⟨_, rfl, h.separated_head.imp_right fun hnil => absurd hnil (by simp)⟩
    have hmember := filterMap_member (m.text.getLastD (lead.getLastD prev)) hm.text_ne_nil
      hm.trim_text (fun c hc => absurd hc List.not_mem_nil) h.tail.lead hsep
    rw [written, trimmedParts_gap prev h.lead, trimmedParts]
    rw [show (0 : Int) = ([] : List Char).length from rfl, hsplit, hwritten]
    rw [List.append_nil] at hmember
    rw [hmember, ← hwritten, hrest, List.map_cons]

end AreSeparated

/-! ## Mentions of the dispatcher -/

/-- The text begins like the type literal of a dispatcher. -/
def OpensLiteral (cs : List Char) : Prop :=
  ∃ before inside rest, (∀ c ∈ before, Text.isBlank c) ∧ (∀ c ∈ inside, Text.isBlank c) ∧
    cs = before ++ '<' :: (inside ++ '{' :: rest)

/-- Every mention of the dispatcher in a text is without a type literal. -/
def OnlyUntyped (cs : List Char) : Prop :=
  ∀ front rest, cs = front ++ dispatcher ++ rest → ¬ OpensLiteral rest

theorem not_opensLiteral (h : (Text.trimStart cs).head? ≠ some '<') : ¬ OpensLiteral cs := by
  rintro ⟨before, inside, rest, hbefore, -, rfl⟩
  rw [Text.trimStart, List.dropWhile_append_of_pos hbefore] at h
  exact h rfl

/-- Mentions can be looked for place by place. -/
theorem onlyUntyped_of_places
    (h : ∀ n ≤ cs.length, (cs.drop n).take dispatcher.length = dispatcher →
      (Text.trimStart (cs.drop (n + dispatcher.length))).head? ≠ some '<') : OnlyUntyped cs := by
  rintro front rest rfl
  have hlt : front.length ≤ (front ++ dispatcher ++ rest).length := by
    rw [List.append_assoc, List.length_append]
    exact Nat.le_add_right _ _
  have hplace := h front.length hlt
  rw [← List.drop_drop, List.append_assoc, List.drop_left, List.drop_left, List.take_left] at hplace
  exact not_opensLiteral (hplace rfl)

/-- The name of the dispatcher does not overlap with itself. -/
theorem not_overlapping : ∀ n < dispatcher.length, 0 < n →
    dispatcher.take (dispatcher.length - n) ≠ dispatcher.drop n := by decide

theorem afterStart?_overlap (hxs : xs ≠ []) (hlt : xs.length < dispatcher.length)
    (rest : List Char) : Text.afterStart? dispatcher (xs ++ (dispatcher ++ rest)) = none := by
  cases hstart : Text.afterStart? dispatcher (xs ++ (dispatcher ++ rest)) with
  | none => rfl
  | some after =>
    have heq := (Text.afterStart?_eq_some_iff _ _ _).1 hstart
    have hdrop : dispatcher ++ rest = dispatcher.drop xs.length ++ after := by
      rw [← List.drop_append_of_le_length (Nat.le_of_lt hlt), ← heq, List.drop_left]
    have htake := congrArg (List.take (dispatcher.length - xs.length)) hdrop
    rw [List.take_append_of_le_length (Nat.sub_le _ _), List.take_left' List.length_drop] at htake
    exact absurd htake (not_overlapping _ hlt (List.length_pos_iff.2 hxs))

theorem trimStart_append_dispatcher (cs rest : List Char) :
    Text.trimStart (cs ++ (dispatcher ++ rest)) = Text.trimStart cs ++ (dispatcher ++ rest) := by
  rw [Text.trimStart, List.dropWhile_append, Text.trimStart]
  split
  · next hempty =>
    rw [List.isEmpty_iff.1 hempty]
    rfl
  · rfl

theorem takeWhile_isBlank (cs : List Char) : ∀ c ∈ cs.takeWhile Text.isBlank, Text.isBlank c :=
  List.all_eq_true.1 List.all_takeWhile

/-- A mention in front of the next one has a type literal only if it is in the text between them. -/
theorem literalAfter?_untyped (h : ¬ OpensLiteral cs) (rest : List Char) :
    literalAfter? (cs ++ (dispatcher ++ rest)) = none := by
  have hcs := (List.takeWhile_append_dropWhile (p := Text.isBlank) (l := cs)).symm
  rw [literalAfter?, trimStart_append_dispatcher]
  cases hstart : Text.trimStart cs with
  | nil => rfl
  | cons c tail =>
    by_cases hc : c = '<'
    · subst hc
      have htail := (List.takeWhile_append_dropWhile (p := Text.isBlank) (l := tail)).symm
      show braced? (Text.trimStart (tail ++ (dispatcher ++ rest))) = none
      rw [trimStart_append_dispatcher]
      cases hinside : Text.trimStart tail with
      | nil => rfl
      | cons d inner =>
        by_cases hd : d = '{'
        · subst hd
          refine absurd ⟨cs.takeWhile Text.isBlank, tail.takeWhile Text.isBlank, inner,
            takeWhile_isBlank cs, takeWhile_isBlank tail, ?_⟩ h
          rw [← hinside, Text.trimStart, ← htail, ← hstart, Text.trimStart, ← hcs]
        · rw [List.cons_append, braced?]
          exact fun _ heq => hd (List.cons.inj heq).1
    · rw [List.cons_append]
      split
      · next heq => exact absurd (List.cons.inj heq).1 hc
      · rfl

/-- Untyped mentions are passed over. -/
theorem literal?_append (h : OnlyUntyped xs) (rest : List Char) :
    literal? (xs ++ (dispatcher ++ rest)) = literal? (dispatcher ++ rest) := by
  induction xs with
  | nil => rfl
  | cons c xs ih =>
    have htail : OnlyUntyped xs := fun front rest heq =>
      h (c :: front) rest (congrArg (c :: ·) heq)
    have hnone : (Text.afterStart? dispatcher (c :: (xs ++ (dispatcher ++ rest)))).bind
        literalAfter? = none := by
      rcases Nat.lt_or_ge (c :: xs).length dispatcher.length with hlt | hle
      · have hoverlap := afterStart?_overlap (List.cons_ne_nil c xs) hlt rest
        rw [← List.cons_append, hoverlap]
        rfl
      · cases hstart : Text.afterStart? dispatcher (c :: (xs ++ (dispatcher ++ rest))) with
        | none => rfl
        | some after =>
          have heq := (Text.afterStart?_eq_some_iff _ _ _).1 hstart
          rw [← List.cons_append] at heq
          obtain ⟨between, hbetween⟩ := List.prefix_of_prefix_length_le
            (heq ▸ List.prefix_append dispatcher after) (List.prefix_append (c :: xs) _) hle
          rw [← hbetween, List.append_assoc] at heq
          rw [← List.append_cancel_left heq]
          exact literalAfter?_untyped (h [] between hbetween.symm) rest
    rw [List.cons_append, literal?, hnone, ih htail]

theorem literal?_of_literalAfter? (hstart : Text.afterStart? dispatcher cs = some rest)
    (hliteral : literalAfter? rest = some member) : literal? cs = some member := by
  cases cs with
  | nil =>
    have hnone : Text.afterStart? dispatcher [] = none := by decide
    exact absurd (hnone.symm.trans hstart) (by simp)
  | cons c cs => rw [literal?, hstart, Option.bind_some, hliteral]

/-! ## Scripts -/

/-- The call of a dispatcher with a type literal: the blanks around its `<`, and its members. -/
structure Call where
  before : List Char
  inside : List Char
  lead : List Char
  members : List (Member × List Char)

def Call.text (c : Call) : List Char :=
  dispatcher ++ (c.before ++ '<' :: (c.inside ++ '{' :: (written c.lead c.members ++ ['}'])))

structure Call.IsProper (c : Call) : Prop where
  before : ∀ b ∈ c.before, Text.isBlank b
  inside : ∀ b ∈ c.inside, Text.isBlank b
  members : AreSeparated c.lead c.members

theorem Call.IsProper.literal? {call : Call} (h : call.IsProper) (rest : List Char) :
    literal? (call.text ++ rest) = some (written call.lead call.members) := by
  have hclosed : untilClosed? 1 (written call.lead call.members ++ '}' :: rest) =
      some (written call.lead call.members) := by
    rw [h.members.untilClosed?_written]
    exact congrArg some (List.append_nil _)
  have hafter : literalAfter? (call.before ++ '<' :: (call.inside ++ '{' ::
      (written call.lead call.members ++ '}' :: rest))) =
        some (written call.lead call.members) := by
    rw [literalAfter?, Text.trimStart, List.dropWhile_append_of_pos h.before]
    show braced? (Text.trimStart _) = _
    rw [Text.trimStart, List.dropWhile_append_of_pos h.inside]
    exact hclosed
  refine literal?_of_literalAfter? ((Text.afterStart?_eq_some_iff _ _ _).2 ?_) hafter
  simp only [Call.text, List.append_assoc, List.cons_append, List.nil_append]

/-- **Events are read as they are written.** Behind mentions of the dispatcher that have no type
literal, the members of the first type literal are the events, in order and with their types.
Members may be separated by `;`, `,` and ends of lines, and more of these and of blanks may stand
between, before and behind them. -/
theorem events?_of_written {front rest : List Char} {call : Call} (hfront : OnlyUntyped front)
    (hcall : call.IsProper) :
    events? (front ++ (call.text ++ rest)) = some (call.members.map fun m => m.1.event) := by
  have hliteral : Event.literal? (front ++ (call.text ++ rest)) =
      some (written call.lead call.members) := by
    rw [Call.text, List.append_assoc, literal?_append hfront, ← List.append_assoc, ← Call.text,
      hcall.literal?]
  have hparts := hcall.members.trimmedParts_written ' ' (.inl (by decide))
  have hevents : (call.members.map fun m => m.1.text).filterMap ofMember? =
      call.members.map fun m => m.1.event := by
    rw [List.filterMap_map, ← List.filterMap_eq_map]
    exact List.filterMap_congr fun m hm => (hcall.members.proper m hm).ofMember?
  rw [events?, hliteral, Option.map_some, ← trimmedParts, hparts, hevents]

/-- A dispatcher that is mentioned in an import above. The first type holds separators, and an arrow
that is no bracket. -/
def selectCall : Call where
  before := []
  inside := []
  lead := "\n  ".toList
  members := [
    (⟨.name "select".toList true, [], [' '], "\x7b id: number; at: (e) => void \x7d".toList⟩,
      ";\n  ".toList),
    (⟨.quoted '\'' "on close".toList, [], [' '], "Map<string, null>".toList⟩, " ,\n".toList)]

theorem events?_of_written_select :
    events? ("import \x7b createEventDispatcher \x7d from 'svelte';\n".toList ++
        (selectCall.text ++ ">()".toList)) =
      some [⟨"select", "\x7b id: number; at: (e) => void \x7d"⟩,
        ⟨"on close", "Map<string, null>"⟩] := by
  have hname : ∀ c ∈ "select".toList, isPlain c ∧ Text.isBlank c = false := fun c hc =>
    ⟨List.all_eq_true.1 rfl c hc, Bool.eq_false_iff.2 (List.any_eq_false.1 rfl c hc)⟩
  have hmembers : AreSeparated selectCall.lead selectCall.members := by
    refine ⟨List.all_eq_true.1 rfl, fun m hm => ?_, List.all_eq_true.1 rfl, fun m hm => ?_⟩
    · rcases List.mem_pair.1 hm with rfl | rfl <;> exact List.all_eq_true.1 rfl
    · rcases List.mem_pair.1 hm with rfl | rfl
      · refine ⟨⟨by decide, hname⟩, List.forall_mem_nil _, List.all_eq_true.1 rfl,
          ?_, ?_, ?_⟩
        all_goals decide
      · refine ⟨⟨rfl, by decide, List.all_eq_true.1 rfl⟩, List.forall_mem_nil _,
          List.all_eq_true.1 rfl, ?_, ?_, ?_⟩
        all_goals decide
  exact events?_of_written (onlyUntyped_of_places (by decide))
    ⟨List.forall_mem_nil _, List.forall_mem_nil _, hmembers⟩

end SvelteTypings.Component.Event
