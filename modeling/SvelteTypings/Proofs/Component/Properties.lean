import Mathlib.Data.List.Basic
import SvelteTypings.Component.Property
import SvelteTypings.Proofs.Text.Nested
import SvelteTypings.Proofs.Text.Trimming

/-!
# Reading written properties

A property that is written as `export let name: T = value;` on a line of its own is read back, with
its type and with whether it is optional, for every type whose brackets nest
(`properties_of_written`). The signed depth that the reader counts is the number of brackets that
are open (`length_of_openBehind?`), so inside brackets no `=` is taken for the one that assigns.

Without a type, the initializer tells it if it is a literal in a usual notation (`Widens`). Letters
in a number are not read, and a text that starts with a quote is taken for a string
(`properties_of_literals`).
-/

namespace SvelteTypings.Component.Property

variable {prev c : Char} {stack stack' type value rest cs xs : List Char}

/-! ## Assignments -/

theorem bracketStep_of_closing? {d : Char} (h : Text.closing? c = some d) :
    bracketStep (some prev) c = 1 := by
  unfold Text.closing? at h
  split at h
  all_goals first | rfl | exact absurd h (by simp)

theorem bracketStep_of_isClosing (h : Text.isClosing prev c) : bracketStep (some prev) c = -1 := by
  simp only [Text.isClosing, Bool.or_eq_true, Bool.and_eq_true, decide_eq_true_eq] at h
  rcases h with ((rfl | rfl) | rfl) | ⟨rfl, hprev⟩
  · rfl
  · rfl
  · rfl
  · simp [bracketStep, hprev]

theorem bracketStep_of_plain (hopen : Text.closing? c = none)
    (hclose : Text.isClosing prev c = false) : bracketStep (some prev) c = 0 := by
  by_cases hc : c = '>'
  · subst hc
    have hprev : prev = '=' := by simpa [Text.isClosing] using hclose
    exact if_pos (.inr (congrArg some hprev))
  · unfold bracketStep
    split
    iterate 4 exact absurd hopen (by decide)
    iterate 3 exact absurd hclose (by simp [Text.isClosing])
    · exact absurd rfl hc
    · rfl

/-- The depth that is counted is the number of brackets that are open. -/
theorem length_of_openBehind? (h : Text.openBehind? prev stack c = some stack') :
    (stack'.length : Int) = stack.length + bracketStep (some prev) c := by
  rcases Text.openBehind?_cases h with ⟨d, hd, rfl⟩ | ⟨-, hclose, rfl⟩ | ⟨hopen, hclose, rfl⟩
  · rw [bracketStep_of_closing? hd, List.length_cons, Int.natCast_succ]
  · rw [bracketStep_of_isClosing hclose, List.length_cons, Int.natCast_succ]
    omega
  · rw [bracketStep_of_plain hopen hclose, Int.add_zero]

/-- An `=` is half of an arrow. -/
def onlyArrows (c : Char) (cs : List Char) : Bool := c ≠ '=' || cs.head? = some '>'

/-- No assignment is found in a type. -/
theorem cutAssignment?_append (h : Text.nests onlyArrows prev stack type) (rest : List Char) :
    cutAssignment? (some prev) stack.length (type ++ rest) =
      (cutAssignment? (some (type.getLastD prev)) 0 rest).map fun (before, after) =>
        (type ++ before, after) := by
  induction type generalizing prev stack with
  | nil =>
    obtain rfl : stack = [] := List.isEmpty_iff.1 h
    exact Option.map_id'.symm
  | cons c cs ih =>
    obtain ⟨harrow, stack', hstack, hcs⟩ := Text.nests_cons_iff.1 h
    have hassign : ¬ (c = '=' ∧ (stack.length : Int) ≤ 0 ∧
        isAssignment (some prev) (cs ++ rest).head?) := by
      rintro ⟨rfl, hdepth, hassign⟩
      have hempty : stack = [] := List.length_eq_zero_iff.1 (by omega)
      have hhead : cs.head? = some '>' := by simpa [onlyArrows] using harrow hempty
      rw [List.head?_append, hhead] at hassign
      exact absurd hassign (by simp [isAssignment])
    rw [List.cons_append, cutAssignment?, if_neg hassign, ← length_of_openBehind? hstack, ih hcs,
      Option.map_map, List.getLastD_cons]
    rfl

/-! ## Declarators -/

/-- A type or an initializer as it is written: without blanks at its ends and without the `;` that
ends the declaration. -/
structure IsPiece (cs : List Char) : Prop where
  nonempty : cs ≠ []
  trimmed : Text.trim cs = cs
  unended : cs.getLast? ≠ some ';'

/-- Brackets nest in a written type, and `=` stands outside of them only in arrows. -/
structure IsType (type : List Char) : Prop extends IsPiece type where
  nests : Text.nests onlyArrows ' ' [] type

def typePart : Option (List Char) → List Char
  | some type => ": ".toList ++ type
  | none => []

def valuePart : Option (List Char) → List Char
  | some value => " = ".toList ++ value
  | none => []

def ending (ended : Bool) : List Char := if ended then [';'] else []

theorem nonBlank?_append_left (hxs : ∀ c ∈ xs, Text.isBlank c) (cs : List Char) :
    nonBlank? (xs ++ cs) = nonBlank? cs := by
  rw [nonBlank?, nonBlank?, Text.trim_append_left hxs]

theorem nonBlank?_append_right (hxs : ∀ c ∈ xs, Text.isBlank c) (cs : List Char) :
    nonBlank? (cs ++ xs) = nonBlank? cs := by
  rw [nonBlank?, nonBlank?, Text.trim_append_right hxs]

theorem nonBlank?_of_trim (hne : cs ≠ []) (htrim : Text.trim cs = cs) : nonBlank? cs = some cs := by
  rw [nonBlank?, htrim]
  exact if_neg (by simpa using hne)

theorem IsPiece.nonBlank?_cons (h : IsPiece cs) : nonBlank? (' ' :: cs) = some cs := by
  rw [← List.singleton_append, nonBlank?_append_left (List.all_eq_true.1 rfl),
    nonBlank?_of_trim h.nonempty h.trimmed]

theorem IsPiece.getLast? (h : IsPiece cs) (front : List Char) :
    ∀ c ∈ (front ++ cs).getLast?, Text.isBlank c = false ∧ c ≠ ';' := by
  have hd := List.getLast?_eq_some_getLast h.nonempty
  intro c hc
  rw [List.getLast?_append, hd, Option.some_or, ← hd] at hc
  exact ⟨Text.isBlank_getLast_of_trim h.trimmed hc, fun hend => h.unended (hend ▸ hc)⟩

theorem trimStart_append_ending (cs : List Char) (ended : Bool) :
    Text.trimStart (cs ++ ending ended) = Text.trimStart cs ++ ending ended := by
  rw [Text.trimStart, List.dropWhile_append, Text.trimStart]
  split
  · next hempty =>
    rw [List.isEmpty_iff.1 hempty]
    cases ended <;> rfl
  · rfl

/-- Of a declarator, only blanks in front and the `;` behind are cut off. -/
theorem trimmed_declarator (hlast : ∀ c ∈ cs.getLast?, Text.isBlank c = false ∧ c ≠ ';')
    (ended : Bool) :
    Text.trimEnd (Text.dropEndWhile (· = ';') (Text.trim (cs ++ ending ended))) =
      Text.trimStart cs := by
  have hends : ∀ c ∈ (Text.trimStart cs).getLast?, Text.isBlank c = false ∧ c ≠ ';' := by
    intro c hc
    refine hlast c ?_
    rw [← List.takeWhile_append_dropWhile (p := Text.isBlank) (l := cs), List.getLast?_append]
    exact Option.or_eq_some_iff.2 (.inl hc)
  have hself : Text.trimEnd (Text.trimStart cs) = Text.trimStart cs :=
    Text.dropEndWhile_eq_self fun c hc => (hends c hc).1
  have hended : Text.trim (cs ++ ending ended) = Text.trimStart cs ++ ending ended := by
    rw [Text.trim, trimStart_append_ending]
    cases ended with
    | false => exact (List.append_nil _).symm ▸ hself
    | true => exact Text.trimEnd_of_getLast? (d := ';') (by simp [ending]) (by decide)
  have hcut : ∀ c ∈ ending ended, decide (c = ';') := by cases ended <;> simp [ending]
  rw [hended, Text.dropEndWhile_append hcut,
    Text.dropEndWhile_eq_self fun c hc => decide_eq_false (hends c hc).2, hself]

theorem writtenType?_typePart (h : IsPiece type) {gap : List Char}
    (hgap : ∀ c ∈ gap, Text.isBlank c) :
    writtenType? (typePart (some type) ++ gap) = some type := by
  have htrim : Text.trim (typePart (some type) ++ gap) = ':' :: ' ' :: type := by
    rw [Text.trim_append_right hgap]
    refine Text.trim_of_ends (fun c hc => ?_) fun c hc => (h.getLast? ": ".toList c hc).1
    obtain rfl : ':' = c := Option.some.inj hc
    decide
  rw [writtenType?, htrim]
  exact h.nonBlank?_cons

theorem cutAssignment?_typePart (h : IsType type) (rest : List Char) :
    cutAssignment? none 0 (typePart (some type) ++ rest) =
      (cutAssignment? (some (type.getLastD ' ')) 0 rest).map fun (before, after) =>
        (typePart (some type) ++ before, after) := by
  have htype := cutAssignment?_append h.nests rest
  show ((cutAssignment? (some ' ') 0 (type ++ rest)).map _).map _ = _
  rw [show (0 : Int) = ([] : List Char).length from rfl, htype, Option.map_map, Option.map_map]
  rfl

theorem cutAssignment?_valuePart (prev : Char) (value : List Char) :
    cutAssignment? (some prev) 0 (valuePart (some value)) = some ([' '], ' ' :: value) := rfl

/-- A declarator is read as it is written. -/
theorem declarator_written {type? value? : Option (List Char)} (htype : ∀ t ∈ type?, IsType t)
    (hvalue : ∀ v ∈ value?, IsPiece v) (ended : Bool) :
    declarator (typePart type? ++ valuePart value? ++ ending ended) =
      (type?, value?) := by
  -- Neither part ends in what is trimmed, so the ending alone goes.
  have hlast : ∀ c ∈ (typePart type? ++ valuePart value?).getLast?,
      Text.isBlank c = false ∧ c ≠ ';' := by
    cases value? with
    | some v => rw [valuePart, ← List.append_assoc]; exact (hvalue v rfl).getLast? _
    | none =>
      rw [valuePart, List.append_nil]
      cases type? with
      | some t => exact (htype t rfl).getLast? _
      | none => exact fun c hc => absurd hc (by simp [typePart])
  rw [declarator, trimmed_declarator hlast]
  cases type? with
  | none =>
    cases value? with
    | none => rfl
    | some v =>
      show (writtenType? [], nonBlank? (' ' :: v)) = _
      rw [(hvalue v rfl).nonBlank?_cons]
      rfl
  | some t =>
    have hstart : Text.trimStart (typePart (some t) ++ valuePart value?) =
        typePart (some t) ++ valuePart value? := rfl
    have hassign := cutAssignment?_typePart (htype t rfl) (valuePart value?)
    rw [hstart, hassign]
    cases value? with
    | none =>
      show (writtenType? (typePart (some t) ++ []), none) = _
      rw [writtenType?_typePart (htype t rfl).toIsPiece (by simp)]
    | some v =>
      rw [cutAssignment?_valuePart, Option.map_some]
      show (writtenType? (typePart (some t) ++ [' ']), nonBlank? (' ' :: v)) = _
      rw [writtenType?_typePart (htype t rfl).toIsPiece (List.all_eq_true.1 rfl),
        (hvalue v rfl).nonBlank?_cons]

/-! ## Literals -/

/-- What can stand between two quotes without ending the literal. -/
def isQuotable (quote : Char) : List Char → Bool
  | [] => true
  | '\\' :: _ :: cs => isQuotable quote cs
  | c :: cs => c ≠ quote && c ≠ '\\' && isQuotable quote cs

def isDigits (cs : List Char) : Bool :=
  cs.head?.any Char.isDigit && cs.all fun c => c.isDigit || c = '_'

def isLiteralQuote (c : Char) : Bool := c = '\'' || c = '"' || c = '`'

def beginsNumber (c : Char) : Bool := c.isDigit || c = '.'

/-- A character that some number is written with. -/
def isNumeralChar (c : Char) : Bool := c.isAlphanum || c = '.' || c = '_' || c = '+' || c = '-'

/-- The type of a literal without what tells it from others of its kind, and `any` for what begins
like no literal or is put together. Numbers are in decimal notation, with an `e` before an exponent
without a sign, or have only decimal digits behind `0x`. -/
inductive Widens : List Char → String → Prop where
  | text (quote : Char) (inside : List Char) (hquote : isLiteralQuote quote)
      (hinside : isQuotable quote inside) : Widens (quote :: inside ++ [quote]) "string"
  | truth (value : List Char) (h : value = "true".toList ∨ value = "false".toList) :
      Widens value "boolean"
  | number (sign whole fraction exponent : List Char) (hsign : sign = [] ∨ sign = ['-'])
      (hwhole : isDigits whole)
      (hfraction : fraction = [] ∨ ∃ ds, fraction = '.' :: ds ∧ (ds = [] ∨ isDigits ds))
      (hexponent : exponent = [] ∨ ∃ ds, exponent = 'e' :: ds ∧ isDigits ds) :
      Widens (sign ++ whole ++ fraction ++ exponent) "number"
  | hexadecimal (sign ds : List Char) (hsign : sign = [] ∨ sign = ['-']) (hds : isDigits ds) :
      Widens (sign ++ '0' :: 'x' :: ds) "number"
  | other (value : List Char)
      (hhead : ∀ c ∈ value.head?, isLiteralQuote c = false ∧ beginsNumber c = false)
      (hminus : ∀ c cs, value = '-' :: c :: cs → beginsNumber c = false)
      (htruth : value ≠ "true".toList ∧ value ≠ "false".toList) : Widens value "any"
  | composed (value : List Char) (c : Char)
      (hhead : ∀ d ∈ value.head?, isLiteralQuote d = false)
      (hc : c ∈ value) (hnumeral : isNumeralChar c = false) : Widens value "any"

def isNumberChar (c : Char) : Bool := c.isDigit || c = '.' || c = '_' || c = 'e' || c = 'x'

theorem isNumberChar_of_isDigits (h : isDigits cs) : cs.all isNumberChar := by
  refine List.all_eq_true.2 fun c hc => ?_
  have hdigit := List.all_eq_true.1 (Bool.and_eq_true_iff.1 h).2 c hc
  rw [Bool.or_eq_true] at hdigit
  rcases hdigit with hdigit | hunder
  · simp [isNumberChar, hdigit]
  · simp [isNumberChar, of_decide_eq_true hunder]

theorem isNumberLiteral_minus (cs : List Char) :
    isNumberLiteral ('-' :: cs) = (cs.head?.any Char.isDigit && cs.all isNumberChar) := rfl

theorem isNumberLiteral_unsigned (h : ∀ cs, value ≠ '-' :: cs) :
    isNumberLiteral value = (value.head?.any Char.isDigit && value.all isNumberChar) := by
  rw [isNumberLiteral]
  · rfl
  · exact h

/-- A number may have a sign. -/
theorem isNumberLiteral_of_digit {d : Char} {sign : List Char} (hsign : sign = [] ∨ sign = ['-'])
    (hd : d.isDigit) (hall : (d :: cs).all isNumberChar) : isNumberLiteral (sign ++ d :: cs) := by
  have hread : ((d :: cs).head?.any Char.isDigit && (d :: cs).all isNumberChar) = true := by
    rw [hall, Bool.and_true]
    exact hd
  rcases hsign with rfl | rfl
  · rw [List.nil_append, isNumberLiteral_unsigned]
    · exact hread
    · rintro cs heq
      obtain ⟨rfl, -⟩ := List.cons.inj heq
      exact absurd hd (by decide)
  · exact (isNumberLiteral_minus _).trans hread

theorem isNumberLiteral_of_isDigits {sign whole fraction exponent : List Char}
    (hsign : sign = [] ∨ sign = ['-']) (hwhole : isDigits whole)
    (hfraction : fraction = [] ∨ ∃ ds, fraction = '.' :: ds ∧ (ds = [] ∨ isDigits ds))
    (hexponent : exponent = [] ∨ ∃ ds, exponent = 'e' :: ds ∧ isDigits ds) :
    isNumberLiteral (sign ++ whole ++ fraction ++ exponent) := by
  have hfraction : fraction.all isNumberChar := by
    rcases hfraction with rfl | ⟨ds, rfl, rfl | hds⟩
    · rfl
    · rfl
    · exact Bool.and_eq_true_iff.2 ⟨rfl, isNumberChar_of_isDigits hds⟩
  have hexponent : exponent.all isNumberChar := by
    rcases hexponent with rfl | ⟨ds, rfl, hds⟩
    · rfl
    · exact Bool.and_eq_true_iff.2 ⟨rfl, isNumberChar_of_isDigits hds⟩
  have hall : (whole ++ (fraction ++ exponent)).all isNumberChar := by
    rw [List.all_append, List.all_append, isNumberChar_of_isDigits hwhole, hfraction, hexponent]
    rfl
  cases whole with
  | nil => exact absurd hwhole (by decide)
  | cons d whole =>
    rw [List.append_assoc, List.append_assoc]
    exact isNumberLiteral_of_digit hsign (Bool.and_eq_true_iff.1 hwhole).1 hall

theorem any_isDigit_head (h : ∀ c ∈ cs.head?, beginsNumber c = false) :
    cs.head?.any Char.isDigit = false := by
  cases cs with
  | nil => rfl
  | cons c cs => exact (Bool.or_eq_false_iff.1 (h c rfl)).1

theorem isNumberLiteral_of_head (hhead : ∀ c ∈ value.head?, beginsNumber c = false)
    (hminus : ∀ c cs, value = '-' :: c :: cs → beginsNumber c = false) :
    isNumberLiteral value = false := by
  by_cases hsign : ∃ cs, value = '-' :: cs
  · obtain ⟨cs, rfl⟩ := hsign
    rw [isNumberLiteral_minus, any_isDigit_head fun c hc => ?_, Bool.false_and]
    obtain ⟨cs, rfl⟩ := List.head?_eq_some_iff.1 hc
    exact hminus c cs rfl
  · rw [isNumberLiteral_unsigned fun cs heq => hsign ⟨cs, heq⟩, any_isDigit_head hhead,
      Bool.false_and]

theorem isNumeralChar_of_isNumberChar (h : isNumberChar c) : isNumeralChar c := by
  simp only [isNumberChar, Bool.or_eq_true, decide_eq_true_eq] at h
  rcases h with (((hdigit | rfl) | rfl) | rfl) | rfl
  · simp [isNumeralChar, Char.isAlphanum, hdigit]
  all_goals decide

/-- What holds a character that no number is written with is no number. -/
theorem isNumberLiteral_of_mem (hc : c ∈ value) (hnumeral : isNumeralChar c = false) :
    isNumberLiteral value = false := by
  have hall : ∀ cs : List Char, c ∈ cs → cs.all isNumberChar = false := fun cs hcs =>
    List.all_eq_false.2 ⟨c, hcs, fun h =>
      Bool.eq_false_iff.1 hnumeral (isNumeralChar_of_isNumberChar h)⟩
  by_cases hsign : ∃ cs, value = '-' :: cs
  · obtain ⟨cs, rfl⟩ := hsign
    have hne : c ≠ '-' := by rintro rfl; exact absurd hnumeral (by decide)
    rw [isNumberLiteral_minus, hall cs ((List.mem_cons.1 hc).resolve_left hne), Bool.and_false]
  · rw [isNumberLiteral_unsigned fun cs heq => hsign ⟨cs, heq⟩, hall value hc, Bool.and_false]

/-! ## Types of literals -/

theorem literalType_of_unquoted (htrim : Text.trim value = value)
    (hhead : ∀ c ∈ value.head?, isLiteralQuote c = false) :
    literalType value = if value = "true".toList ∨ value = "false".toList then "boolean"
      else if isNumberLiteral value then "number" else "any" := by
  rw [literalType, htrim]
  refine if_neg ?_
  rintro (hquote | hquote | hquote) <;> exact absurd (hhead _ hquote) (by decide)

theorem literalType_of_isNumberLiteral (htrim : Text.trim value = value)
    (h : isNumberLiteral value) : literalType value = "number" := by
  rw [literalType_of_unquoted htrim, if_neg, if_pos h]
  · rintro (rfl | rfl) <;> exact absurd h (by decide)
  · intro c hc
    obtain ⟨cs, rfl⟩ := List.head?_eq_some_iff.1 hc
    rw [← Bool.not_eq_true]
    intro hquote
    simp only [isLiteralQuote, Bool.or_eq_true, decide_eq_true_eq] at hquote
    rcases hquote with (rfl | rfl) | rfl <;> exact absurd h (by simp [isNumberLiteral])

theorem literalType_of_any (htrim : Text.trim value = value)
    (hhead : ∀ c ∈ value.head?, isLiteralQuote c = false)
    (htruth : value ≠ "true".toList ∧ value ≠ "false".toList)
    (hnumber : isNumberLiteral value = false) : literalType value = "any" := by
  rw [literalType_of_unquoted htrim hhead, if_neg (not_or.2 htruth),
    if_neg (Bool.eq_false_iff.1 hnumber)]

/-- Literals have their type, if they are in one of the usual notations. -/
theorem literalType_of_widens {ty : String} (htrim : Text.trim value = value)
    (h : Widens value ty) : literalType value = ty := by
  cases h with
  | text quote inside hquote hinside =>
    rw [literalType, htrim]
    refine if_pos ?_
    simpa [isLiteralQuote, or_assoc] using hquote
  | truth _ h => rcases h with rfl | rfl <;> decide
  | number sign whole fraction exponent hsign hwhole hfraction hexponent =>
    exact literalType_of_isNumberLiteral htrim
      (isNumberLiteral_of_isDigits hsign hwhole hfraction hexponent)
  | hexadecimal sign ds hsign hds =>
    refine literalType_of_isNumberLiteral htrim (isNumberLiteral_of_digit hsign rfl ?_)
    exact Bool.and_eq_true_iff.2 ⟨rfl, Bool.and_eq_true_iff.2 ⟨rfl, isNumberChar_of_isDigits hds⟩⟩
  | other _ hhead hminus htruth =>
    exact literalType_of_any htrim (fun c hc => (hhead c hc).1) htruth
      (isNumberLiteral_of_head (fun c hc => (hhead c hc).2) hminus)
  | composed _ c hhead hc hnumeral =>
    have hnot : ∀ cs : List Char, cs.all isNumeralChar → value ≠ cs := by
      rintro cs hcs rfl
      exact Bool.eq_false_iff.1 hnumeral (List.all_eq_true.1 hcs c hc)
    exact literalType_of_any htrim hhead ⟨hnot _ rfl, hnot _ rfl⟩
      (isNumberLiteral_of_mem hc hnumeral)

/-! ## Lines -/

def IsName (name : List Char) : Prop :=
  ∃ c cs, name = c :: cs ∧ isNameStart c ∧ cs.all isNameRest

/-- A property as it is written on a line of its own. -/
structure Written where
  indent : List Char
  name : List Char
  type? : Option (List Char)
  value? : Option (List Char)
  /-- The line ends with `;`. -/
  ended : Bool

namespace Written

def declarator (w : Written) : List Char :=
  typePart w.type? ++ valuePart w.value? ++ ending w.ended

def line (w : Written) : List Char :=
  w.indent ++ "export let ".toList ++ (w.name ++ w.declarator)

/-- The property that is meant. -/
def property (w : Written) : Property where
  name := String.ofList w.name
  type := match w.type?, w.value? with
    | some type, _ => String.ofList type
    | none, some value => literalType value
    | none, none => "any"
  optional := w.value?.isSome

structure IsProper (w : Written) : Prop where
  indent : ∀ c ∈ w.indent, isInlineBlank c
  name : IsName w.name
  type : ∀ t ∈ w.type?, IsType t
  value : ∀ v ∈ w.value?, IsPiece v

/-- Nothing that follows a name goes on with it. -/
theorem head_declarator (w : Written) : ∀ c ∈ w.declarator.head?, isNameRest c = false := by
  intro c hc
  obtain ⟨indent, name, type?, value?, ended⟩ := w
  cases type? with
  | some t => obtain rfl : ':' = c := Option.some.inj hc; decide
  | none =>
    cases value? with
    | some v => obtain rfl : ' ' = c := Option.some.inj hc; decide
    | none =>
      cases ended with
      | true => obtain rfl : ';' = c := Option.some.inj hc; decide
      | false => exact absurd hc (by simp [declarator, typePart, valuePart, ending])

end Written

theorem isInlineBlank_of_isNameStart (h : isNameStart c) : isInlineBlank c = false := by
  rw [← Bool.not_eq_true]
  intro hblank
  simp only [isInlineBlank, Bool.or_eq_true, decide_eq_true_eq] at hblank
  rcases hblank with rfl | rfl <;> exact absurd h (by decide)

theorem exported?_append {indent name : List Char} (hindent : ∀ c ∈ indent, isInlineBlank c)
    (hname : IsName name) (hrest : ∀ c ∈ rest.head?, isNameRest c = false) :
    exported? (indent ++ "export let ".toList ++ (name ++ rest)) = some (name, rest) := by
  obtain ⟨c, cs, rfl, hc, hcs⟩ := hname
  have hword : afterWord? "export"
      ((indent ++ "export let ".toList ++ (c :: cs ++ rest)).dropWhile isInlineBlank) =
        some ("let ".toList ++ (c :: cs ++ rest)) := by
    rw [List.append_assoc, List.dropWhile_append_of_pos hindent]
    rfl
  have hlet : afterWord? "let" ("let ".toList ++ (c :: cs ++ rest)) = some (c :: cs ++ rest) := by
    show some ((c :: cs ++ rest).dropWhile isInlineBlank) = _
    rw [List.cons_append, List.dropWhile_cons_of_neg (by simp [isInlineBlank_of_isNameStart hc])]
  have hall : ∀ d ∈ cs, isNameRest d := List.all_eq_true.1 hcs
  have hstop : rest.takeWhile isNameRest = [] ∧ rest.dropWhile isNameRest = rest := by
    cases rest with
    | nil => exact ⟨rfl, rfl⟩
    | cons d rest =>
      have hd : ¬ isNameRest d = true := by simp [hrest d rfl]
      exact ⟨List.takeWhile_cons_of_neg hd, List.dropWhile_cons_of_neg hd⟩
  rw [exported?, hword, Option.bind_eq_bind, Option.bind_some, hlet, Option.bind_some,
    List.cons_append]
  show (if isNameStart c then _ else none) = _
  rw [if_pos hc, List.takeWhile_append_of_pos hall, List.dropWhile_append_of_pos hall, hstop.1,
    hstop.2, List.append_nil]

theorem ofLine?_written {w : Written} (hw : w.IsProper) : ofLine? w.line = some w.property := by
  have hread := declarator_written hw.type hw.value w.ended
  rw [ofLine?, Written.line, exported?_append hw.indent hw.name w.head_declarator, Option.map_some]
  simp only [Written.declarator, hread]
  rfl

/-! ## Scripts -/

/-- A line of a script that declares properties. -/
inductive Line where
  | written (w : Written)
  | other (line : List Char)

namespace Line

def text : Line → List Char
  | written w => w.line
  | other line => line

def property? : Line → Option Property
  | written w => some w.property
  | other _ => none

/-- A written property is proper, and another line does not look like one. -/
def IsProper : Line → Prop
  | written w => w.IsProper
  | other line => exported? line = none

theorem ofLine?_text {l : Line} (h : l.IsProper) : ofLine? l.text = l.property? := by
  cases l with
  | written w => exact ofLine?_written h
  | other line => exact congrArg (Option.map _) h

end Line

/-- **Properties are read as they are written.** The properties of a script are those written in it,
in order. Each has the type that is written, or else the type of its initializer, or else `any`, and
is optional just if it has an initializer. The type of an initializer is that of the literal. -/
theorem properties_of_written {script : List Char} {ls : List Line}
    (hlines : Text.lines script = ls.map Line.text) (hls : ∀ l ∈ ls, l.IsProper) :
    properties script = ls.filterMap Line.property? ∧
      ∀ value ty, Text.trim value = value → Widens value ty → literalType value = ty := by
  refine ⟨?_, fun value ty => literalType_of_widens⟩
  rw [properties, hlines, List.filterMap_map]
  exact List.filterMap_congr fun l hl => Line.ofLine?_text (hls l hl)

/-- The script of a picker: a type with arrows and angle brackets before an initializer with a
comparison, a property with nothing but its name, and a number. -/
def pickerScript : List Char :=
  "  export let pick: (e: E) => Map<string, \x7b a?: (b) => c \x7d> = (e) => e >= 1;\n".toList ++
    "let data = 1;\nexport let data;\nexport let ratio = -1.5e3".toList

def pickerLines : List Line := [
  .written ⟨"  ".toList, "pick".toList, some "(e: E) => Map<string, \x7b a?: (b) => c \x7d>".toList,
    some "(e) => e >= 1".toList, true⟩,
  .other "let data = 1;".toList,
  .written ⟨[], "data".toList, none, none, true⟩,
  .written ⟨[], "ratio".toList, none, some "-1.5e3".toList, false⟩]

theorem properties_of_written_picker :
    properties pickerScript =
      [⟨"pick", "(e: E) => Map<string, \x7b a?: (b) => c \x7d>", true⟩, ⟨"data", "any", false⟩,
        ⟨"ratio", "number", true⟩] ∧
      literalType "-1.5e3".toList = "number" := by
  have hlines : Text.lines pickerScript = pickerLines.map Line.text := by decide
  have hproper : ∀ l ∈ pickerLines, l.IsProper := by
    intro l hl
    simp only [pickerLines, List.mem_cons, List.not_mem_nil, or_false] at hl
    rcases hl with rfl | rfl | rfl | rfl
    · refine ⟨List.all_eq_true.1 rfl, ⟨'p', "ick".toList, rfl, ?_, ?_⟩, ?_, ?_⟩
      iterate 2 decide
      · rintro t ⟨⟩
        exact ⟨⟨by decide, by decide, by decide⟩, by decide⟩
      · rintro v ⟨⟩
        exact ⟨by decide, by decide, by decide⟩
    · show _ = _
      decide
    · refine ⟨List.all_eq_true.1 rfl, ⟨'d', "ata".toList, rfl, ?_, ?_⟩, by simp, by simp⟩
      all_goals decide
    · refine ⟨List.all_eq_true.1 rfl, ⟨'r', "atio".toList, rfl, ?_, ?_⟩, by simp, ?_⟩
      iterate 2 decide
      rintro v ⟨⟩
      exact ⟨by decide, by decide, by decide⟩
  have hread := properties_of_written hlines hproper
  have hratio : Widens (['-'] ++ ['1'] ++ ".5".toList ++ "e3".toList) "number" :=
    .number _ _ _ _ (.inr rfl) (by decide) (.inr ⟨['5'], rfl, .inr (by decide)⟩)
      (.inr ⟨['3'], rfl, by decide⟩)
  exact ⟨hread.1, hread.2 _ _ (by decide) hratio⟩

/-- Letters are no digits of a number, even behind `0x`, and a text that starts with a quote is
taken for a string. -/
theorem properties_of_literals :
    properties "export let mask = 0xff;".toList = [⟨"mask", "any", true⟩] ∧
      properties "export let mask = 0x10;".toList = [⟨"mask", "number", true⟩] ∧
      properties "export let size = 'abc'.length;".toList = [⟨"size", "string", true⟩] := by
  exact ⟨rfl, rfl, rfl⟩

end SvelteTypings.Component.Property
