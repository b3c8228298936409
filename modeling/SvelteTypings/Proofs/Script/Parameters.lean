import SvelteTypings.Proofs.Script.Arrows
import SvelteTypings.Proofs.Script.Members

/-!
# Lists of parameters

A parameter is a name or a pattern, with words in front and a mark, a type or an initializer behind
it (`Parameter`). Where `<` and `>` stand for type arguments, and so pair like brackets (`Nested`),
a list is split at its commas and nowhere else, and each parameter is declared in its place
(`paramsText_of_isList`). What has an initializer is declared as optional, so what follows it decides
whether the list is one that may be declared.
-/

namespace SvelteTypings.Script

variable {k : Kind} {t u : Token} {ts us : List Token} {outside outside' : Kind → Bool} {d d' : Nat}

/-! ## Nesting -/

/-- The bracket that closes one that opens. -/
def Kind.closer? : Kind → Option Kind
  | .openBrace => some .closeBrace
  | .openParen => some .closeParen
  | .openBracket => some .closeBracket
  | .less => some .greater
  | _ => none

/-- Neither a bracket nor `<` or `>`. -/
def Kind.isPlain (k : Kind) : Bool := !k.descends && !k.ascends

theorem Kind.descends_of_closer? {k' : Kind} (h : k.closer? = some k') :
    k.descends ∧ k'.descends = false ∧ k'.ascends := by
  cases k <;> cases h <;> decide

/-- Brackets pair by their kind, and tokens between them are of certain kinds at the top level. -/
inductive Nested : (Kind → Bool) → List Token → Prop where
  | nil (outside : Kind → Bool) : Nested outside []
  | token {outside : Kind → Bool} {t : Token} {ts : List Token} (ht : outside t.kind)
      (h : Nested outside ts) : Nested outside (t :: ts)
  | block {outside : Kind → Bool} {opening closing : Token} {inside ts : List Token}
      (hpair : opening.kind.closer? = some closing.kind) (hinside : Nested Kind.isPlain inside)
      (h : Nested outside ts) : Nested outside (opening :: (inside ++ closing :: ts))

namespace Nested

theorem mono (h : Nested outside ts) (hsub : ∀ k, outside k → outside' k) : Nested outside' ts := by
  induction h with
  | nil => exact .nil _
  | token ht _ ih => exact .token (hsub _ ht) (ih hsub)
  | block hpair hinside _ _ ih => exact .block hpair hinside (ih hsub)

theorem append (hts : Nested outside ts) (hus : Nested outside us) : Nested outside (ts ++ us) := by
  induction hts with
  | nil => exact hus
  | token ht _ ih => exact .token ht (ih hus)
  | block hpair hinside _ _ ih =>
    rw [List.cons_append, List.append_assoc]
    exact .block hpair hinside (ih hus)

theorem of_forall (h : ∀ t ∈ ts, outside t.kind) : Nested outside ts := by
  induction ts with
  | nil => exact .nil _
  | cons t ts ih =>
    obtain ⟨ht, hts⟩ := List.forall_mem_cons.1 h
    exact .token ht (ih hts)

/-- **A search at the top level goes on over what is nested**, and is back at the depth where it
began. -/
theorem past (h : Nested outside ts) (hk : k.isPlain)
    (houtside : ∀ k', outside k' → (k' = k → d ≠ 0) ∧ depthAfter d k' = d) :
    (topSearch k).past d ts = some d := by
  induction h generalizing d with
  | nil => rfl
  | @token outside t ts ht _ ih =>
    obtain ⟨hne, hdepth⟩ := houtside t.kind ht
    have hstep : (topSearch k).step d t = some d := by
      have hnot : ¬ (t.kind = k ∧ d = 0) := fun h => hne h.1 h.2
      simp [topSearch, hnot, hdepth]
    rw [Search.past_cons, hstep]
    exact ih houtside
  | @block outside opening closing inside ts hpair _ _ ihinside ih =>
    obtain ⟨hopens, hcloses, hascends⟩ := Kind.descends_of_closer? hpair
    have hplain : ∀ k', k'.isPlain → depthAfter (d + 1) k' = d + 1 := by
      intro k' hk'
      simp only [Kind.isPlain, Bool.and_eq_true, Bool.not_eq_true'] at hk'
      simp [depthAfter, hk'.1, hk'.2]
    have hstep : (topSearch k).step d opening = some (d + 1) := by
      have hne : opening.kind ≠ k := by
        rintro rfl
        exact absurd hk (by simp [Kind.isPlain, hopens])
      simp [topSearch, hne, depthAfter, hopens]
    have hstep' : (topSearch k).step (d + 1) closing = some d := by
      simp [topSearch, depthAfter, hcloses, hascends]
    -- Inside the block the depth is positive, so the search cannot stop there.
    have hin := ihinside fun k' hk' => ⟨fun _ => Nat.succ_ne_zero d, hplain k' hk'⟩
    rw [Search.past_cons, hstep, Option.bind_some, Search.past, List.foldlM_append]
    show ((topSearch k).past (d + 1) inside).bind (fun d' => (topSearch k).past d' (closing :: ts)) =
      some d
    rw [hin, Option.bind_some, Search.past_cons, hstep']
    exact ih houtside

end Nested

/-! ## Splitting -/

/-- A parameter as it is written. -/
structure Parameter where
  /-- Words such as `private`. -/
  modifiers : List Token
  /-- The `...` of a rest parameter. -/
  spread : List Token
  /-- A name or a pattern. -/
  binding : List Token
  /-- The `?` of an optional parameter. -/
  mark : List Token
  /-- The colon and the type. -/
  typing : Option (Token × List Token)
  /-- The `=` and the value. -/
  initializer : Option (Token × List Token)

/-- Kinds of tokens in a type, outside brackets. -/
def Kind.inType (k : Kind) : Bool := k.isPlain && k != .comma && k != .equals

/-- Kinds of tokens up to the type, outside brackets. -/
def Kind.inName (k : Kind) : Bool := k.inType && k != .colon

/-- Kinds of tokens in an initializer, outside brackets. Only there `>` may be an operator. -/
def Kind.inValue (k : Kind) : Bool := (k.isPlain || k = .greater) && k != .comma

/-- What a parameter binds: a name, of which characters outside ASCII are tokens of their own, or a
pattern. -/
inductive IsBinding : List Token → Prop where
  | name {first : Token} {parts : List Token} (hfirst : first.kind = .ident ∨ first.kind = .nonAscii)
      (hparts : ∀ t ∈ parts, t.kind.isNamePart)
      (hsecond : ∀ t ∈ parts.head?, t.kind ≠ .ident) : IsBinding (first :: parts)
  | pattern {opening closing : Token} {inside : List Token}
      (hopening : opening.kind = .openBrace ∨ opening.kind = .openBracket)
      (hpair : opening.kind.closer? = some closing.kind) (hinside : Nested Kind.isPlain inside) :
      IsBinding (opening :: (inside ++ [closing]))

namespace Parameter

def typingTokens (p : Parameter) : List Token :=
  match p.typing with
  | some (colon, type) => colon :: type
  | none => []

def initializerTokens (p : Parameter) : List Token :=
  match p.initializer with
  | some (equals, value) => equals :: value
  | none => []

def tokens (p : Parameter) : List Token :=
  p.modifiers ++ (p.spread ++ p.binding) ++ (p.mark ++ p.typingTokens) ++ p.initializerTokens

def isRest (p : Parameter) : Bool := !p.spread.isEmpty

/-- A call may leave the parameter out. -/
def isOptional (p : Parameter) : Bool := !p.mark.isEmpty || p.initializer.isSome

/-- A word is taken for a modifier only in front of ASCII. -/
def keptModifiers (p : Parameter) : List Token :=
  if startsWith .nonAscii (p.spread ++ p.binding) then p.modifiers.getLast?.toList else []

/-- What the declaration keeps up to the mark or the type. -/
def named (p : Parameter) : List Token := p.keptModifiers ++ (p.spread ++ p.binding)

/-- The parameter is written as parameters are. Those with an initializer have no mark, and are no
rest parameters. -/
structure IsParameter (p : Parameter) : Prop where
  modifiers : ∀ t ∈ p.modifiers, t.kind = .ident ∧ paramModifiers.contains t.text
  spread : p.spread = [] ∨ ∃ t, p.spread = [t] ∧ t.kind = .spread
  binding : IsBinding p.binding
  mark : p.mark = [] ∨ ∃ t, p.mark = [t] ∧ t.kind = .question
  typing : ∀ colon type, p.typing = some (colon, type) →
    colon.kind = .colon ∧ Nested Kind.inType type ∧ HasText type
  initializer : ∀ equals value, p.initializer = some (equals, value) →
    equals.kind = .equals ∧ Nested Kind.inValue value ∧ p.mark = [] ∧ p.spread = []
  text : ∃ t ∈ p.binding, HasText [t]
  unmarked : (trimmed (Token.span p.named)).toList.getLast? ≠ some '?'

end Parameter

/-! ## Words in front -/

/-- Kinds of tokens in front of which a word is a modifier. -/
def Kind.follows (k : Kind) : Bool := [Kind.ident, .openBrace, .openBracket, .spread].contains k

theorem dropParamModifiers_eq_self
    (h : t.kind = .ident → ∀ u ∈ ts.head?, u.kind.follows = false) :
    dropParamModifiers (t :: ts) = t :: ts := by
  cases ts with
  | nil => rfl
  | cons u ts =>
    rw [dropParamModifiers, if_neg]
    rintro ⟨hident, -, hfollows⟩
    have hnot := h hident u rfl
    rw [Kind.follows, hfollows] at hnot
    exact absurd hnot (by simp)

/-- Of the words in front of a token the last one stays if the token is none of those that follow a
modifier. -/
theorem dropParamModifiers_append {modifiers : List Token}
    (h : ∀ t ∈ modifiers, t.kind = .ident ∧ paramModifiers.contains t.text)
    (hself : dropParamModifiers (u :: us) = u :: us) :
    dropParamModifiers (modifiers ++ u :: us) =
      (if u.kind.follows then [] else modifiers.getLast?.toList) ++ u :: us := by
  induction modifiers with
  | nil => simpa using hself
  | cons t modifiers ih =>
    obtain ⟨⟨hident, hword⟩, hrest⟩ := List.forall_mem_cons.1 h
    cases modifiers with
    | nil =>
      rw [List.cons_append, List.nil_append, dropParamModifiers]
      cases hfollows : u.kind.follows with
      | true =>
        rw [if_pos ⟨hident, hword, hfollows⟩, hself]
        rfl
      | false =>
        rw [if_neg fun hdrop => absurd (hfollows.symm.trans hdrop.2.2) (by simp)]
        rfl
    | cons t' modifiers =>
      have hident' := (hrest t' List.mem_cons_self).1
      rw [List.cons_append, List.cons_append, dropParamModifiers,
        if_pos ⟨hident, hword, by rw [hident']; rfl⟩, ← List.cons_append, ih hrest,
        List.getLast?_cons_cons]

/-! ## One parameter -/

namespace IsBinding

variable {binding : List Token}

theorem nested (h : IsBinding binding) : Nested Kind.inName binding := by
  cases h with
  | @name first parts hfirst hparts =>
    have hpart : ∀ k : Kind, k.isNamePart → k.inName := by
      intro k hk
      cases k <;> first | rfl | exact absurd hk (by decide)
    refine .of_forall (List.forall_mem_cons.2 ⟨?_, fun t ht => hpart _ (hparts t ht)⟩)
    rcases hfirst with hfirst | hfirst <;> rw [hfirst] <;> rfl
  | pattern hopening hpair hinside => exact .block hpair hinside (.nil _)

/-- Nothing of a binding is taken for a modifier, if a mark, a type, an initializer or nothing
follows. -/
theorem dropParamModifiers (h : IsBinding binding) (hts : ∀ t ∈ ts.head?, t.kind.follows = false) :
    dropParamModifiers (binding ++ ts) = binding ++ ts := by
  cases h with
  | @name first parts hfirst hparts hsecond =>
    refine dropParamModifiers_eq_self fun _ => ?_
    cases parts with
    | nil => exact hts
    | cons t parts =>
      rintro u hu
      obtain rfl := Option.some.inj hu
      have hne := hsecond t rfl
      have hpart := hparts t List.mem_cons_self
      cases hkind : t.kind <;> rw [hkind] at hne hpart <;>
        first | rfl | exact absurd rfl hne | exact absurd hpart (by decide)
  | pattern hopening =>
    refine dropParamModifiers_eq_self fun hident => ?_
    rcases hopening with hopening | hopening <;> rw [hopening] at hident <;>
      exact absurd hident (by decide)

theorem exists_cons (h : IsBinding binding) : ∃ t ts, binding = t :: ts ∧
    (t.kind.follows = false ↔ t.kind = .nonAscii) := by
  cases h with
  | @name first parts hfirst =>
    refine ⟨first, parts, rfl, ?_⟩
    rcases hfirst with hfirst | hfirst <;> rw [hfirst] <;> decide
  | @pattern opening closing inside hopening =>
    refine ⟨opening, _, rfl, ?_⟩
    rcases hopening with hopening | hopening <;> rw [hopening] <;> decide

end IsBinding

namespace Parameter

variable {p : Parameter}

/-- What is left of a parameter without its modifiers. -/
theorem IsParameter.dropParamModifiers (hp : p.IsParameter) :
    dropParamModifiers p.tokens =
      p.named ++ (p.mark ++ p.typingTokens) ++ p.initializerTokens := by
  -- What stands behind the name is not what can follow a modifier.
  have hbehind : ∀ t ∈ (p.mark ++ p.typingTokens ++ p.initializerTokens).head?,
      t.kind.follows = false := by
    have hmark := hp.mark
    have hann := hp.typing
    have hinit := hp.initializer
    rw [typingTokens, initializerTokens]
    rcases hmark with hmark | ⟨t, hmark, ht⟩
    · rw [hmark]
      cases htyping : p.typing with
      | some typed =>
        obtain ⟨colon, type⟩ := typed
        rintro t ⟨rfl⟩
        rw [(hann _ _ htyping).1]
        rfl
      | none =>
        cases hinitializer : p.initializer with
        | some initializer =>
          obtain ⟨equals, value⟩ := initializer
          rintro t ⟨rfl⟩
          rw [(hinit _ _ hinitializer).1]
          rfl
        | none => exact fun t ht => absurd ht (by simp)
    · rw [hmark]
      rintro u ⟨rfl⟩
      rw [ht]
      rfl
  -- The name, or the spread before it, is where the modifiers stop.
  obtain ⟨u, us, hfirst, hself, hfollows⟩ : ∃ u us, p.spread ++ p.binding = u :: us ∧
      Script.dropParamModifiers (u :: us ++ (p.mark ++ p.typingTokens ++ p.initializerTokens)) =
        u :: us ++ (p.mark ++ p.typingTokens ++ p.initializerTokens) ∧
      (u.kind.follows = false ↔ u.kind = .nonAscii) := by
    rcases hp.spread with hspread | ⟨t, hspread, ht⟩
    · obtain ⟨t, ts, hbinding, hkind⟩ := hp.binding.exists_cons
      rw [hspread]
      exact ⟨t, ts, hbinding, hbinding ▸ hp.binding.dropParamModifiers hbehind, hkind⟩
    · rw [hspread]
      refine ⟨t, p.binding, rfl, dropParamModifiers_eq_self fun hident => ?_, by rw [ht]; decide⟩
      rw [ht] at hident
      exact absurd hident (by decide)
  rw [tokens, named, keptModifiers, hfirst]
  simp only [List.append_assoc, List.cons_append] at hself ⊢
  rw [dropParamModifiers_append hp.modifiers hself]
  congr 1
  by_cases hkind : u.kind = .nonAscii
  · rw [hfollows.2 hkind]
    simp [startsWith, hkind]
  · have hnot : u.kind.follows = true := by simpa using mt hfollows.1 hkind
    simp [startsWith, hkind, hnot]

end Parameter

/-! ## Declarations of parameters -/

/-- A parameter as it is declared. -/
structure Declared where
  text : String
  /-- There is a `?` behind the name. -/
  isOptional : Bool
  isRest : Bool

/-- What a parameter is declared as: itself without modifiers, or, if it has an initializer, its name
as an optional one with the type of the annotation or of what the initializer shows. -/
inductive Parameter.IsDeclared (o : CompilerOptions) (p : Parameter) : Declared → Prop where
  | kept (hinit : p.initializer = none) :
    p.IsDeclared o ⟨trimmed (Token.span (p.named ++ (p.mark ++ p.typingTokens))),
      !p.mark.isEmpty, p.isRest⟩
  | typed {equals colon : Token} {value type : List Token}
      (hinit : p.initializer = some (equals, value)) (htype : p.typing = some (colon, type)) :
    p.IsDeclared o ⟨trimmed (Token.span p.named) ++ "?: " ++ trimmed (Token.span type), true,
      p.isRest⟩
  | inferred {equals : Token} {value : List Token}
      (hinit : p.initializer = some (equals, value)) (htype : p.typing = none) :
    p.IsDeclared o ⟨trimmed (Token.span p.named) ++ "?: " ++ (infer o false value).text, true,
      p.isRest⟩

/-- The declaration of one parameter. -/
def paramText? (infer : List Token → Inferred) (param : List Token) : Option String :=
  match cutTop? .equals 0 (dropParamModifiers param) with
  | none => spanText? (dropParamModifiers param)
  | some (head, init) => optionalParam? head (infer init).text

theorem paramsWith_eq (infer : List Token → Inferred) (ts : List Token) :
    paramsWith infer ts =
      String.intercalate ", " ((splitTop .comma 0 ts).filterMap (paramText? infer)) := rfl

namespace Parameter

variable {p : Parameter}

/-- What is declared as optional, or as a rest parameter, is so already. -/
theorem IsDeclared.flags {o : CompilerOptions} {d : Declared} (h : p.IsDeclared o d) :
    d.isOptional = p.isOptional ∧ d.isRest = p.isRest := by
  cases h with
  | kept hinit => simp [isOptional, hinit]
  | typed hinit => simp [isOptional, hinit]
  | inferred hinit => simp [isOptional, hinit]

end Parameter

/-! ## Lists -/

end SvelteTypings.Script
