import SvelteTypings.Json.Token
import SvelteTypings.Proofs.Text.Trimming

/-!
# Where a token ends

A reader takes a token off a text and leaves the rest. Of the rest it looks at one character at
most: the token is read in the same way before any other text that starts with the same character or
with white space (`exists_readToken`). So white space may be put behind a token and changes none.
-/

namespace SvelteTypings.Json

variable {negative down : Bool} {significand taken : Nat} {exponent : Int} {v : Option Json}
  {c : Char} {cs ds l r r' : List Char}

/-! ## What may follow -/

/-- `r'` may stand behind a token in place of `r`. -/
def Follows (r r' : List Char) : Prop := r'.head? = r.head? ∨ ∃ c ∈ r'.head?, isSpace c

theorem follows_refl (r : List Char) : Follows r r := Or.inl rfl

/-- Behind more text it may stand as well. -/
theorem Follows.append (h : Follows r r') (l : List Char) : Follows (l ++ r) (l ++ r') := by
  cases l with
  | nil => exact h
  | cons c l => exact Or.inl rfl

/-- A character that does not follow, and is no white space, does not follow then either. -/
theorem Follows.head_eq_false (h : Follows r r') {p : Char → Bool}
    (hspace : ∀ c, isSpace c → p c = false) (hr : ∀ c ∈ r.head?, p c = false) :
    ∀ c ∈ r'.head?, p c = false := by
  intro c hc
  rcases h with heq | ⟨d, hd, hblank⟩
  · exact hr c (heq ▸ hc)
  · obtain rfl : d = c := Option.mem_unique hd hc
    exact hspace d hblank

theorem Follows.head_ne (h : Follows r r') {d : Char} (hspace : isSpace d = false)
    (hr : r.head? ≠ some d) : r'.head? ≠ some d := by
  rcases h with heq | ⟨e, he, hblank⟩
  · rwa [heq]
  · intro hd
    obtain rfl : e = d := Option.mem_unique he hd
    rw [hspace] at hblank
    exact absurd hblank (by decide)

theorem isDigit_of_isSpace (h : isSpace c) : c.isDigit = false := by
  simp only [isSpace, Bool.or_eq_true, decide_eq_true_eq] at h
  rcases h with ((rfl | rfl) | rfl) | rfl <;> decide

/-! ## Digits -/

theorem takeWhile_isDigit_append (hds : ∀ c ∈ ds, c.isDigit)
    (hr : ∀ c ∈ r.head?, c.isDigit = false) :
    (ds ++ r).takeWhile Char.isDigit = ds ∧ (ds ++ r).dropWhile Char.isDigit = r := by
  rw [List.takeWhile_append_of_pos hds, List.dropWhile_append_of_pos hds]
  cases r with
  | nil => simp
  | cons c r =>
    have hc : c.isDigit = false := hr c rfl
    simp [hc]

/-- The digits at the start of a text, and the rest, which starts with none. -/
theorem exists_digits (cs : List Char) :
    ∃ ds r, cs = ds ++ r ∧ (∀ c ∈ ds, c.isDigit) ∧ ∀ c ∈ r.head?, c.isDigit = false := by
  refine ⟨cs.takeWhile Char.isDigit, cs.dropWhile Char.isDigit,
    List.takeWhile_append_dropWhile.symm, fun c hc => List.mem_takeWhile_imp hc, ?_⟩
  intro c hc
  have hhead := List.head?_dropWhile_not Char.isDigit cs
  rw [Option.mem_def.1 hc] at hhead
  simpa using hhead

/-- Digits are taken without a look at what follows them. -/
theorem takeDigits_append (hr : ∀ c ∈ r.head?, c.isDigit = false) (significand taken : Nat) :
    takeDigits significand taken (ds ++ r) =
      ((takeDigits significand taken ds).1, (takeDigits significand taken ds).2.1,
        (takeDigits significand taken ds).2.2 ++ r) := by
  induction ds generalizing significand taken with
  | nil =>
    cases r with
    | nil => rfl
    | cons c r =>
      have hc : c.isDigit = false := hr c rfl
      simp [takeDigits, hc]
  | cons d ds ih =>
    rw [List.cons_append, takeDigits, takeDigits]
    split
    · exact ih _ _
    · rfl

/-- The digits that are not taken are digits. -/
theorem isDigit_of_mem_takeDigits (hds : ∀ c ∈ ds, c.isDigit)
    (h : c ∈ (takeDigits significand taken ds).2.2) : c.isDigit := by
  induction ds generalizing significand taken with
  | nil => exact absurd h List.not_mem_nil
  | cons d ds ih =>
    rw [takeDigits] at h
    split at h
    · exact ih (fun c hc => hds c (List.mem_cons_of_mem d hc)) h
    · exact hds c h

/-! ## Numbers -/

/-- The characters that numbers consist of. -/
def isNumberChar (c : Char) : Bool :=
  c.isDigit || c = '.' || c = 'e' || c = 'E' || c = '+' || c = '-'

theorem isNumberChar_of_isDigit (h : c.isDigit) : isNumberChar c := by simp [isNumberChar, h]

/-- The reader takes `l` off for `v`, before `r` and before whatever may stand in its place. -/
structure Takes (read : List Char → Reading) (v : Option Json) (l r : List Char) : Prop where
  number : ∀ c ∈ l, isNumberChar c
  reads : ∀ r', Follows r r' → read (l ++ r') = some (v, r')

/-- The double that an exponent gives. -/
def exponentValue (negative : Bool) (significand : Nat) (exponent : Int) (down : Bool)
    (digits : List Char) : Option Json :=
  match exponentOf digits with
  | some n => scaled? negative significand (if down then exponent - n else exponent + n)
  | none =>
    if significand ≠ 0 ∧ ¬down then none else some (.real (if negative then -0.0 else 0.0))

/-- Reads the digits of an exponent, after its sign. -/
def readExponentDigits (negative : Bool) (significand : Nat) (exponent : Int) (down : Bool)
    (cs : List Char) : Reading :=
  if (cs.takeWhile Char.isDigit).isEmpty then none
  else some (exponentValue negative significand exponent down (cs.takeWhile Char.isDigit),
    cs.dropWhile Char.isDigit)

/-- Takes the sign off an exponent, and tells whether it is a minus. -/
def exponentSign : List Char → Bool × List Char
  | '+' :: cs => (false, cs)
  | '-' :: cs => (true, cs)
  | cs => (false, cs)

theorem exponentSign_of_head (hplus : cs.head? ≠ some '+') (hminus : cs.head? ≠ some '-') :
    exponentSign cs = (false, cs) := by
  unfold exponentSign
  split
  · exact absurd rfl hplus
  · exact absurd rfl hminus
  · rfl

theorem readExponent_eq (negative : Bool) (significand : Nat) (exponent : Int) (cs : List Char) :
    readExponent negative significand exponent cs =
      readExponentDigits negative significand exponent (exponentSign cs).1 (exponentSign cs).2 := by
  have hcode : readExponent negative significand exponent cs =
      if ((exponentSign cs).2.takeWhile Char.isDigit).isEmpty then none
      else match exponentOf ((exponentSign cs).2.takeWhile Char.isDigit) with
        | some n =>
          some (scaled? negative significand
            (if (exponentSign cs).1 then exponent - n else exponent + n),
            (exponentSign cs).2.dropWhile Char.isDigit)
        | none =>
          if significand ≠ 0 ∧ ¬(exponentSign cs).1 then
            some (none, (exponentSign cs).2.dropWhile Char.isDigit)
          else
            some (some (.real (if negative then -0.0 else 0.0)),
              (exponentSign cs).2.dropWhile Char.isDigit) := rfl
  rw [hcode]
  unfold readExponentDigits exponentValue
  split
  · rfl
  · cases exponentOf ((exponentSign cs).2.takeWhile Char.isDigit) with
    | some n => rfl
    | none =>
      by_cases hnone : significand ≠ 0 ∧ ¬(exponentSign cs).1
      · simp only [if_pos hnone]
      · simp only [if_neg hnone]

theorem exists_readExponentDigits
    (h : readExponentDigits negative significand exponent down cs = some (v, r)) :
    ∃ d l, d.isDigit ∧ cs = d :: l ++ r ∧
      Takes (readExponentDigits negative significand exponent down) v (d :: l) r := by
  obtain ⟨ds, rest, rfl, hds, hrest⟩ := exists_digits cs
  unfold readExponentDigits at h
  obtain ⟨htake, hdrop⟩ := takeWhile_isDigit_append hds hrest
  rw [htake, hdrop] at h
  split at h
  · exact absurd h (by simp)
  · next hne =>
    obtain ⟨rfl, rfl⟩ := Prod.mk.inj (Option.some.inj h)
    cases ds with
    | nil => exact absurd rfl hne
    | cons d ds =>
      refine ⟨d, ds, hds d List.mem_cons_self, rfl,
        fun c hc => isNumberChar_of_isDigit (hds c hc), ?_⟩
      intro r' hr'
      obtain ⟨htake', hdrop'⟩ := takeWhile_isDigit_append hds
        (hr'.head_eq_false (fun _ => isDigit_of_isSpace) hrest)
      rw [readExponentDigits, htake', hdrop', if_neg hne]

theorem exists_readExponent (h : readExponent negative significand exponent cs = some (v, r)) :
    ∃ l, cs = l ++ r ∧ Takes (readExponent negative significand exponent) v l r := by
  -- With either sign the digits begin behind it.
  have hsigned : ∀ sign down rest, isNumberChar sign →
      (∀ cs, readExponent negative significand exponent (sign :: cs) =
        readExponentDigits negative significand exponent down cs) →
      readExponent negative significand exponent (sign :: rest) = some (v, r) →
      ∃ l, sign :: rest = l ++ r ∧ Takes (readExponent negative significand exponent) v l r := by
    intro sign down rest hsign heq h
    rw [heq] at h
    obtain ⟨d, l, -, rfl, htakes⟩ := exists_readExponentDigits h
    refine ⟨sign :: d :: l, rfl, List.forall_mem_cons.2 ⟨hsign, htakes.number⟩, ?_⟩
    intro r' hr'
    rw [List.cons_append, heq]
    exact htakes.reads r' hr'
  by_cases hplus : cs.head? = some '+'
  · obtain ⟨rest, rfl⟩ := List.head?_eq_some_iff.1 hplus
    exact hsigned '+' false rest (by decide) (fun cs => readExponent_eq _ _ _ ('+' :: cs)) h
  · by_cases hminus : cs.head? = some '-'
    · obtain ⟨rest, rfl⟩ := List.head?_eq_some_iff.1 hminus
      exact hsigned '-' true rest (by decide) (fun cs => readExponent_eq _ _ _ ('-' :: cs)) h
    · rw [readExponent_eq, exponentSign_of_head hplus hminus] at h
      obtain ⟨d, l, hd, rfl, htakes⟩ := exists_readExponentDigits h
      refine ⟨d :: l, rfl, htakes.number, ?_⟩
      intro r' hr'
      have hne : ∀ sign, sign.isDigit = false → (d :: l ++ r').head? ≠ some sign := by
        intro sign hsign heq
        obtain rfl : d = sign := Option.some.inj heq
        rw [hsign] at hd
        exact absurd hd (by decide)
      rw [readExponent_eq, exponentSign_of_head (hne '+' (by decide)) (hne '-' (by decide))]
      exact htakes.reads r' hr'

theorem readScale_of_head (he : cs.head? ≠ some 'e') (hE : cs.head? ≠ some 'E') :
    readScale negative significand exponent cs =
      some (scaled? negative significand exponent, cs) := by
  unfold readScale
  split
  · exact absurd rfl he
  · exact absurd rfl hE
  · rfl

/-- Nothing is taken off only where no exponent begins. -/
theorem exists_readScale (h : readScale negative significand exponent cs = some (v, r)) :
    ∃ l, cs = l ++ r ∧ Takes (readScale negative significand exponent) v l r ∧
      (l = [] → r.head? ≠ some 'e' ∧ r.head? ≠ some 'E') := by
  have hlettered : ∀ letter rest, isNumberChar letter →
      (∀ cs, readScale negative significand exponent (letter :: cs) =
        readExponent negative significand exponent cs) →
      readScale negative significand exponent (letter :: rest) = some (v, r) →
      ∃ l, letter :: rest = l ++ r ∧ Takes (readScale negative significand exponent) v l r ∧
        (l = [] → r.head? ≠ some 'e' ∧ r.head? ≠ some 'E') := by
    intro letter rest hletter heq h
    rw [heq] at h
    obtain ⟨l, rfl, htakes⟩ := exists_readExponent h
    refine ⟨letter :: l, rfl, ⟨List.forall_mem_cons.2 ⟨hletter, htakes.number⟩, ?_⟩, by simp⟩
    intro r' hr'
    rw [List.cons_append, heq]
    exact htakes.reads r' hr'
  by_cases he : cs.head? = some 'e'
  · obtain ⟨rest, rfl⟩ := List.head?_eq_some_iff.1 he
    exact hlettered 'e' rest (by decide) (fun _ => rfl) h
  · by_cases hE : cs.head? = some 'E'
    · obtain ⟨rest, rfl⟩ := List.head?_eq_some_iff.1 hE
      exact hlettered 'E' rest (by decide) (fun _ => rfl) h
    · rw [readScale_of_head he hE] at h
      obtain ⟨rfl, rfl⟩ := Prod.mk.inj (Option.some.inj h)
      refine ⟨[], rfl, ⟨List.forall_mem_nil _, ?_⟩, fun _ => ⟨he, hE⟩⟩
      intro r' hr'
      exact readScale_of_head (hr'.head_ne (by decide) he) (hr'.head_ne (by decide) hE)

/-- What is done with the digits after the point, and what comes behind them. -/
theorem readFraction_append (hds : ∀ c ∈ ds, c.isDigit) (hne : ds ≠ [])
    (hr : ∀ c ∈ r.head?, c.isDigit = false) :
    readFraction negative significand exponent (ds ++ r) =
      readScale negative (takeDigits significand 0 ds).1
        (exponent - (takeDigits significand 0 ds).2.1) r := by
  obtain ⟨htake, -⟩ := takeWhile_isDigit_append hds hr
  have hleft : ∀ c ∈ (takeDigits significand 0 ds).2.2, c.isDigit := fun c hc =>
    isDigit_of_mem_takeDigits hds hc
  obtain ⟨-, hdrop⟩ := takeWhile_isDigit_append hleft hr
  unfold readFraction
  rw [htake, if_neg (by simpa using hne), takeDigits_append hr]
  show readScale negative _ _ (List.dropWhile Char.isDigit (_ ++ r)) = _
  rw [hdrop]

theorem exists_readFraction (h : readFraction negative significand exponent cs = some (v, r)) :
    ∃ l, cs = l ++ r ∧ Takes (readFraction negative significand exponent) v l r := by
  obtain ⟨ds, rest, rfl, hds, hrest⟩ := exists_digits cs
  have hne : ds ≠ [] := by
    rintro rfl
    obtain ⟨htake, -⟩ := takeWhile_isDigit_append hds hrest
    unfold readFraction at h
    rw [htake] at h
    exact absurd h (by simp)
  rw [readFraction_append hds hne hrest] at h
  obtain ⟨l, rfl, htakes, -⟩ := exists_readScale h
  refine ⟨ds ++ l, (List.append_assoc _ _ _).symm, ?_, ?_⟩
  · intro c hc
    rcases List.mem_append.1 hc with hc | hc
    · exact isNumberChar_of_isDigit (hds c hc)
    · exact htakes.number c hc
  · intro r' hr'
    have hrest' := (hr'.append l).head_eq_false (fun _ => isDigit_of_isSpace) hrest
    rw [List.append_assoc, readFraction_append hds hne hrest']
    exact htakes.reads r' hr'

/-- What is done behind the digits in front of the point, `exponent` of which were not taken. -/
def readUnit (negative : Bool) (significand exponent : Nat) (cs : List Char) : Reading :=
  match cs with
  | '.' :: rest => readFraction negative significand exponent rest
  | rest =>
    if exponent = 0 ∧ rest.head? ≠ some 'e' ∧ rest.head? ≠ some 'E' then
      some (some (integerValue negative significand), rest)
    else readScale negative significand exponent rest

theorem readUnit_of_head {exponent : Nat} (h : cs.head? ≠ some '.') :
    readUnit negative significand exponent cs =
      if exponent = 0 ∧ cs.head? ≠ some 'e' ∧ cs.head? ≠ some 'E' then
        some (some (integerValue negative significand), cs)
      else readScale negative significand exponent cs := by
  unfold readUnit
  split
  · exact absurd rfl h
  · rfl

theorem exists_readUnit {exponent : Nat}
    (h : readUnit negative significand exponent cs = some (v, r)) :
    ∃ l, cs = l ++ r ∧ Takes (readUnit negative significand exponent) v l r := by
  by_cases hpoint : cs.head? = some '.'
  · obtain ⟨rest, rfl⟩ := List.head?_eq_some_iff.1 hpoint
    obtain ⟨l, rfl, htakes⟩ := exists_readFraction (show readFraction _ _ _ rest = _ from h)
    refine ⟨'.' :: l, rfl, List.forall_mem_cons.2 ⟨by decide, htakes.number⟩, ?_⟩
    exact htakes.reads
  · rw [readUnit_of_head hpoint] at h
    split at h
    · next hwhole =>
      obtain ⟨rfl, rfl⟩ := Prod.mk.inj (Option.some.inj h)
      refine ⟨[], rfl, List.forall_mem_nil _, ?_⟩
      intro r' hr'
      have he := hr'.head_ne (by decide) hwhole.2.1
      have hE := hr'.head_ne (by decide) hwhole.2.2
      rw [List.nil_append, readUnit_of_head (hr'.head_ne (by decide) hpoint),
        if_pos ⟨hwhole.1, he, hE⟩]
    · next hscale =>
      obtain ⟨l, rfl, htakes, hnone⟩ := exists_readScale h
      refine ⟨l, rfl, htakes.number, ?_⟩
      intro r' hr'
      have hscale' : ¬ (exponent = 0 ∧ (l ++ r').head? ≠ some 'e' ∧
          (l ++ r').head? ≠ some 'E') := by
        cases l with
        | nil => exact fun hwhole => hscale ⟨hwhole.1, hnone rfl⟩
        | cons c l => exact hscale
      rw [readUnit_of_head ((hr'.append l).head_ne (by decide) hpoint), if_neg hscale']
      exact htakes.reads r' hr'

/-- **A number without its sign** is digits, of which a zero stands alone, and what comes behind. -/
theorem readUnsigned_append {d : Char} (hds : ∀ c ∈ d :: ds, c.isDigit)
    (hzero : d = '0' → ds = []) (hr : ∀ c ∈ r.head?, c.isDigit = false) :
    readUnsigned negative (d :: ds ++ r) =
      readUnit negative (takeDigits 0 0 (d :: ds)).1 (takeDigits 0 0 (d :: ds)).2.2.length r := by
  -- A zero is read without a look at further digits; what follows it decides the branch.
  by_cases hd : d = '0'
  · obtain rfl := hzero hd
    subst hd
    cases r with
    | nil => rfl
    | cons c r =>
      have hc : c.isDigit = false := hr c rfl
      show (if c.isDigit then none else _) = _
      rw [hc, if_neg (by decide)]
      by_cases hpoint : c = '.'
      · subst hpoint
        rfl
      · by_cases he : c = 'e'
        · subst he
          rfl
        · by_cases hE : c = 'E'
          · subst hE
            rfl
          · have hhead : ∀ letter, c ≠ letter → (c :: r).head? ≠ some letter := by
              intro letter hne heq
              exact hne (Option.some.inj heq)
            have hdigits : takeDigits 0 0 ['0'] = (0, 1, []) := by decide
            rw [if_neg hpoint, if_neg (by simp [he, hE]), readUnit_of_head (hhead '.' hpoint),
              hdigits, if_pos ⟨rfl, hhead 'e' he, hhead 'E' hE⟩]
  · have hleft : ∀ c ∈ (takeDigits 0 0 (d :: ds)).2.2, c.isDigit := fun c hc =>
      isDigit_of_mem_takeDigits hds hc
    obtain ⟨htake, hdrop⟩ := takeWhile_isDigit_append hleft hr
    have hdigit : ¬¬d.isDigit := by simp [hds d List.mem_cons_self]
    have htaken := @takeDigits_append (d :: ds) r hr 0 0
    unfold readUnsigned
    split
    · next heq => exact absurd (List.cons.inj heq).1 hd
    · next c _ _ heq =>
      obtain ⟨rfl, -⟩ := List.cons.inj heq
      rw [if_neg hdigit, htaken]
      show (match List.dropWhile Char.isDigit (_ ++ r) with | '.' :: _ => _ | _ => _) = _
      rw [hdrop, htake]
      rfl
    · next heq => exact absurd heq (by simp)

theorem exists_readUnsigned (h : readUnsigned negative cs = some (v, r)) :
    ∃ d l, d.isDigit ∧ cs = d :: l ++ r ∧ Takes (readUnsigned negative) v (d :: l) r := by
  obtain ⟨ds, rest, rfl, hds, hrest⟩ := exists_digits cs
  cases ds with
  | nil =>
    -- a number starts with a digit
    cases rest with
    | nil => exact absurd h (by simp [readUnsigned])
    | cons c rest =>
      have hc : c.isDigit = false := hrest c rfl
      unfold readUnsigned at h
      split at h
      · next heq =>
        obtain ⟨rfl, -⟩ := List.cons.inj heq
        exact absurd hc (by decide)
      · next heq =>
        obtain ⟨rfl, -⟩ := List.cons.inj heq
        rw [if_pos (by simp [hc])] at h
        exact absurd h (by simp)
      · exact absurd h (by simp)
  | cons d ds =>
    have hzero : d = '0' → ds = [] := by
      rintro rfl
      cases ds with
      | nil => rfl
      | cons e ds =>
        have he : e.isDigit := hds e (by simp)
        have hnone : readUnsigned negative ('0' :: e :: (ds ++ rest)) = none := if_pos he
        rw [List.cons_append, List.cons_append, hnone] at h
        exact absurd h (by simp)
    rw [readUnsigned_append hds hzero hrest] at h
    obtain ⟨l, rfl, htakes⟩ := exists_readUnit h
    refine ⟨d, ds ++ l, hds d List.mem_cons_self, by simp, ?_, ?_⟩
    · intro c hc
      rw [← List.cons_append] at hc
      rcases List.mem_append.1 hc with hc | hc
      · exact isNumberChar_of_isDigit (hds c hc)
      · exact htakes.number c hc
    · intro r' hr'
      have hrest' := (hr'.append l).head_eq_false (fun _ => isDigit_of_isSpace) hrest
      rw [← List.cons_append, List.append_assoc, readUnsigned_append hds hzero hrest']
      exact htakes.reads r' hr'

theorem readNumber_of_isDigit {d : Char} (hd : d.isDigit) (cs : List Char) :
    readNumber (d :: cs) = readUnsigned false (d :: cs) := by
  unfold readNumber
  split
  · next heq =>
    obtain ⟨rfl, -⟩ := List.cons.inj heq
    exact absurd hd (by decide)
  · rfl

/-- **A number ends where the next character cannot belong to it.** -/
theorem exists_readNumber (h : readNumber (c :: cs) = some (v, r)) :
    ∃ l, c :: cs = c :: l ++ r ∧ Takes readNumber v (c :: l) r ∧ (c = '-' ∨ c.isDigit) := by
  by_cases hminus : c = '-'
  · subst hminus
    obtain ⟨d, l, -, rfl, htakes⟩ := exists_readUnsigned (show readUnsigned true cs = _ from h)
    refine ⟨d :: l, rfl, ⟨List.forall_mem_cons.2 ⟨by decide, htakes.number⟩, ?_⟩, Or.inl rfl⟩
    exact htakes.reads
  · have hunsigned : readNumber (c :: cs) = readUnsigned false (c :: cs) := by
      unfold readNumber
      split
      · next heq => exact absurd (List.cons.inj heq).1 hminus
      · rfl
    rw [hunsigned] at h
    obtain ⟨d, l, hd, heq, htakes⟩ := exists_readUnsigned h
    obtain ⟨rfl, -⟩ := List.cons.inj heq
    refine ⟨l, heq, ⟨htakes.number, ?_⟩, Or.inr hd⟩
    intro r' hr'
    rw [List.cons_append, readNumber_of_isDigit hd]
    exact htakes.reads r' hr'

/-! ## Strings -/

/-- The text of a string behind its opening quote: a quote ends it that no backslash stands before.
-/
inductive IsStringEnd : List Char → Prop
  | close : IsStringEnd ['"']
  | escape (c : Char) {l : List Char} : IsStringEnd l → IsStringEnd ('\\' :: c :: l)
  | char {c : Char} {l : List Char} :
    c ≠ '"' → c ≠ '\\' → IsStringEnd l → IsStringEnd (c :: l)

/-- Puts a piece in front of what is read. -/
def consPiece (piece : Piece) (read : List Piece × List Char) : List Piece × List Char :=
  (piece :: read.1, read.2)

theorem readString_unit (a b c d : Char) (cs : List Char) :
    readString ('\\' :: 'u' :: a :: b :: c :: d :: cs) =
      (codeUnit? a b c d).bind fun n => (readString cs).map (consPiece (.unit n)) := by
  rw [readString]
  cases codeUnit? a b c d with
  | none => rfl
  | some n => cases readString cs <;> rfl

theorem readString_escape {e : Char} (he : e ≠ 'u') (cs : List Char) :
    readString ('\\' :: e :: cs) =
      (shortEscape? e).bind fun c => (readString cs).map (consPiece (.char c)) := by
  rw [readString]
  · cases shortEscape? e with
    | none => rfl
    | some c => cases readString cs <;> rfl
  · exact fun _ _ _ _ _ heq => absurd heq he

theorem readString_char (hquote : c ≠ '"') (hback : c ≠ '\\') (cs : List Char) :
    readString (c :: cs) =
      if c.toNat < 0x20 then none else (readString cs).map (consPiece (.char c)) := by
  rw [readString]
  · simp only [hback, or_false]
    split
    · rfl
    · cases readString cs <;> rfl
  · exact hquote
  · exact fun _ _ _ _ _ heq => absurd heq hback
  · exact fun _ _ heq => absurd heq hback

theorem ne_of_hexValue? {n : Nat} (h : hexValue? c = some n) : c ≠ '"' ∧ c ≠ '\\' := by
  have hquote : hexValue? '"' = none := by decide
  have hback : hexValue? '\\' = none := by decide
  constructor
  · rintro rfl
    exact absurd h (by simp [hquote])
  · rintro rfl
    exact absurd h (by simp [hback])

theorem isStringEnd_of_codeUnit? {a b d : Char} {n : Nat} (h : codeUnit? a b c d = some n)
    (hl : IsStringEnd l) : IsStringEnd (a :: b :: c :: d :: l) := by
  obtain ⟨_, ha, h⟩ := Option.bind_eq_some_iff.1 h
  obtain ⟨_, hb, h⟩ := Option.bind_eq_some_iff.1 h
  obtain ⟨_, hc, h⟩ := Option.bind_eq_some_iff.1 h
  obtain ⟨_, hd, -⟩ := Option.bind_eq_some_iff.1 h
  have hchar : ∀ {x : Char} {n : Nat} {l : List Char}, hexValue? x = some n → IsStringEnd l →
      IsStringEnd (x :: l) := fun hx hl => .char (ne_of_hexValue? hx).1 (ne_of_hexValue? hx).2 hl
  exact hchar ha (hchar hb (hchar hc (hchar hd hl)))

/-- **A string ends at its closing quote**, whatever follows. -/
theorem exists_readString {ps : List Piece} (h : readString cs = some (ps, r)) :
    ∃ l, cs = l ++ r ∧ IsStringEnd l ∧ ∀ r', readString (l ++ r') = some (ps, r') := by
  -- One case for each way to go on; what is read is read again whatever stands behind it.
  induction cs using readString.induct generalizing ps with
  | case1 cs =>
    rw [readString, Option.some.injEq, Prod.mk.injEq] at h
    obtain ⟨rfl, rfl⟩ := h
    exact ⟨['"'], rfl, .close, fun r' => by rw [List.singleton_append, readString]⟩
  | case2 a b c d cs ih =>
    rw [readString_unit] at h
    obtain ⟨n, hn, h⟩ := Option.bind_eq_some_iff.1 h
    obtain ⟨⟨pieces, rest⟩, hrest, h⟩ := Option.map_eq_some_iff.1 h
    obtain ⟨rfl, rfl⟩ := Prod.mk.inj h
    obtain ⟨l, rfl, hl, hread⟩ := ih hrest
    refine ⟨'\\' :: 'u' :: a :: b :: c :: d :: l, rfl,
      .escape 'u' (isStringEnd_of_codeUnit? hn hl), ?_⟩
    intro r'
    show readString ('\\' :: 'u' :: a :: b :: c :: d :: (l ++ r')) = _
    rw [readString_unit, hn, hread r']
    rfl
  | case3 e cs hnot ih =>
    -- a unit without its four digits is refused
    have he : e ≠ 'u' := by
      rintro rfl
      rw [readString] at h
      · exact absurd h (by simp [shortEscape?])
      · exact hnot
    rw [readString_escape he] at h
    obtain ⟨c, hc, h⟩ := Option.bind_eq_some_iff.1 h
    obtain ⟨⟨pieces, rest⟩, hrest, h⟩ := Option.map_eq_some_iff.1 h
    obtain ⟨rfl, rfl⟩ := Prod.mk.inj h
    obtain ⟨l, rfl, hl, hread⟩ := ih hrest
    refine ⟨'\\' :: e :: l, rfl, .escape e hl, ?_⟩
    intro r'
    show readString ('\\' :: e :: (l ++ r')) = _
    rw [readString_escape he, hc, hread r']
    rfl
  | case4 c cs hquote hunit hescape hcontrol =>
    rw [readString, if_pos hcontrol] at h
    · exact absurd h (by simp)
    · exact hquote
    · exact hunit
    · exact hescape
  | case5 c cs hquote hunit hescape hcontrol ih =>
    obtain ⟨hcontrol, hback⟩ := not_or.1 hcontrol
    rw [readString_char hquote hback, if_neg hcontrol] at h
    obtain ⟨⟨pieces, rest⟩, hrest, h⟩ := Option.map_eq_some_iff.1 h
    obtain ⟨rfl, rfl⟩ := Prod.mk.inj h
    obtain ⟨l, rfl, hl, hread⟩ := ih hrest
    refine ⟨c :: l, rfl, .char hquote hback hl, ?_⟩
    intro r'
    rw [List.cons_append, readString_char hquote hback, if_neg hcontrol, hread r']
    rfl
  | case6 => exact absurd h (by simp [readString])

/-! ## Tokens -/

def Token.closes : Token → Bool
  | .closeBrace => true
  | .closeBracket => true
  | _ => false

/-- A value may end with the token. -/
def Token.endsValue : Token → Bool
  | .openBrace => false
  | .openBracket => false
  | .comma => false
  | .colon => false
  | _ => true

/-- A character that no string, comment or comma is made of. -/
def isPlain (c : Char) : Bool := c ≠ '"' && c ≠ '/' && c ≠ ','

/-- The text of a token: a comma, a string, or plain characters. -/
inductive IsLexeme : Char → List Char → Token → Prop
  | comma : IsLexeme ',' [] .comma
  | string {l : List Char} (s : Option String) : IsStringEnd l → IsLexeme '"' l (.string s)
  | plain {c : Char} {l : List Char} {t : Token} :
    isPlain c → (∀ d ∈ l, isPlain d) → Text.isBlank c = false → t.closes = (c = '}' || c = ']') →
      IsLexeme c l t

theorem isPlain_of_isNumberChar (h : isNumberChar c) : isPlain c := by
  have hne : ∀ d, isNumberChar d = false → c ≠ d := by
    rintro d hd rfl
    rw [hd] at h
    exact absurd h (by decide)
  simp [isPlain, hne '"' (by decide), hne '/' (by decide), hne ',' (by decide)]

theorem not_special_of_number (h : c = '-' ∨ c.isDigit) :
    c ∉ ['{', '}', '[', ']', ',', ':', '"', 'n', 't', 'f'] := by
  intro hmem
  have hall : ['{', '}', '[', ']', ',', ':', '"', 'n', 't', 'f'].all
      fun d => !(d = '-' || d.isDigit) := by decide
  have hnot := List.all_eq_true.1 hall c hmem
  rcases h with rfl | hdigit
  · exact absurd hnot (by decide)
  · simp [hdigit] at hnot

theorem readToken_number (h : c = '-' ∨ c.isDigit) (cs : List Char) :
    readToken c cs = (readNumber (c :: cs)).map fun (value, rest) => (.number value, rest) := by
  have hnot := not_special_of_number h
  unfold readToken
  split
  case h_11 => rfl
  all_goals exact absurd (by simp) hnot

theorem isBlank_of_number (h : c = '-' ∨ c.isDigit) : Text.isBlank c = false := by
  rcases h with rfl | hdigit
  · decide
  · exact Text.isBlank_of_isAlphanum (by simp [Char.isAlphanum, hdigit])

/-- **A token ends where the next character cannot belong to it.** The text of a token is of one of
three kinds, and the token is read off it before whatever may stand behind. -/
theorem exists_readToken {t : Token} (h : readToken c cs = some (t, r)) :
    ∃ l, cs = l ++ r ∧ IsLexeme c l t ∧
      ∀ r', Follows r r' → readToken c (l ++ r') = some (t, r') := by
  have hword : ∀ {l : List Char}, (c :: l).all isPlain → Text.isBlank c = false →
      t.closes = (c = '}' || c = ']') → IsLexeme c l t := by
    intro l hplain hblank hcloses
    obtain ⟨hc, hl⟩ := List.forall_mem_cons.1 (List.all_eq_true.1 hplain)
    exact .plain hc hl hblank hcloses
  unfold readToken at h
  -- The kinds of tokens are strings (7), numbers (11), the comma (5), the words (8 to 10) and the
  -- brackets and the colon, in the order of the reader.
  split at h
  case h_7 =>
    obtain ⟨⟨pieces, rest⟩, hrest, h⟩ := Option.map_eq_some_iff.1 h
    obtain ⟨rfl, rfl⟩ := Prod.mk.inj h
    obtain ⟨l, rfl, hl, hread⟩ := exists_readString hrest
    refine ⟨l, rfl, .string _ hl, ?_⟩
    intro r' _
    show (readString (l ++ r')).map _ = _
    rw [hread r']
    rfl
  case h_11 =>
    obtain ⟨⟨value, rest⟩, hrest, h⟩ := Option.map_eq_some_iff.1 h
    obtain ⟨rfl, rfl⟩ := Prod.mk.inj h
    obtain ⟨l, heq, htakes, hc⟩ := exists_readNumber hrest
    have hnot := not_special_of_number hc
    refine ⟨l, (List.cons.inj heq).2, .plain ?_ ?_ (isBlank_of_number hc) ?_, ?_⟩
    · exact isPlain_of_isNumberChar (htakes.number c List.mem_cons_self)
    · exact fun d hd => isPlain_of_isNumberChar (htakes.number d (List.mem_cons_of_mem c hd))
    · simp only [List.mem_cons, not_or] at hnot
      simp [Token.closes, hnot]
    · intro r' hr'
      rw [readToken_number hc, ← List.cons_append, htakes.reads r' hr']
      rfl
  case h_5 =>
    obtain ⟨rfl, rfl⟩ := Prod.mk.inj (Option.some.inj h)
    exact ⟨[], rfl, .comma, fun _ _ => rfl⟩
  case h_8 =>
    obtain ⟨rfl, rfl⟩ := Prod.mk.inj (Option.some.inj h)
    exact ⟨['u', 'l', 'l'], rfl, hword (by decide) (by decide) (by decide), fun _ _ => rfl⟩
  case h_9 =>
    obtain ⟨rfl, rfl⟩ := Prod.mk.inj (Option.some.inj h)
    exact ⟨['r', 'u', 'e'], rfl, hword (by decide) (by decide) (by decide), fun _ _ => rfl⟩
  case h_10 =>
    obtain ⟨rfl, rfl⟩ := Prod.mk.inj (Option.some.inj h)
    exact ⟨['a', 'l', 's', 'e'], rfl, hword (by decide) (by decide) (by decide), fun _ _ => rfl⟩
  all_goals
    obtain ⟨rfl, rfl⟩ := Prod.mk.inj (Option.some.inj h)
    exact ⟨[], rfl, hword (by decide) (by decide) (by decide), fun _ _ => rfl⟩

end SvelteTypings.Json
