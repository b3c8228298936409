import SvelteTypings.Proofs.Script.Bodies
import SvelteTypings.Proofs.Script.Stretches

/-!
# Slices that are checked

Cutting takes runs of tokens apart and cannot fail. Here the same work is done on positions: a run is
a slice of a run between two positions, and a text is a slice of the source between two places. Such
a slice exists only if its ends are in order and within what it is taken from, and for a text also on
the boundaries of characters (`bytes_eq_found_iff`). What reads positions is therefore told apart
from what cuts by a third outcome, `Outcome.outOfRange`; that the two agree (`Agrees`) says that this
outcome does not come about.

Tokens stand here with all the text in front of them, as `Token.placed` gives them.
-/

namespace SvelteTypings.Script.Indexed

variable {α β γ δ : Type} {source : String} {ps ts : List Token} {i j : Nat}

/-! ## Outcomes -/

/-- What comes of reading positions. -/
inductive Outcome (α : Type) where
  /-- A slice was taken that does not exist. -/
  | outOfRange
  | nothing
  | found (value : α)

namespace Outcome

def bind : Outcome α → (α → Outcome β) → Outcome β
  | outOfRange, _ => outOfRange
  | nothing, _ => nothing
  | found a, f => f a

instance : Monad Outcome where
  pure := found
  bind := bind

@[simp] theorem found_bind (a : α) (f : α → Outcome β) : (found a >>= f) = f a := rfl

@[simp] theorem nothing_bind (f : α → Outcome β) : (nothing >>= f) = nothing := rfl

/-- What may be missing. -/
def ofOption : Option α → Outcome α
  | none => nothing
  | some a => found a

/-- What must not be missing. -/
def inRange : Option α → Outcome α
  | none => outOfRange
  | some a => found a

/-- Goes on with something else if nothing was found. -/
def orElse (x : Outcome α) (y : Unit → Outcome α) : Outcome α :=
  match x with
  | outOfRange => outOfRange
  | nothing => y ()
  | found a => found a

/-- What was found, if anything was. -/
def attempt : Outcome α → Outcome (Option α)
  | outOfRange => outOfRange
  | nothing => found none
  | found a => found (some a)

/-- All that is found in a list. -/
def collect (f : α → Outcome β) : List α → Outcome (List β)
  | [] => found []
  | a :: as => (f a).attempt.bind fun b? =>
    (collect f as).bind fun bs => found (b?.toList ++ bs)

end Outcome

open Outcome

/-- Reading positions gives what cutting gives, up to a relation, and stays in range. -/
inductive Agrees (R : α → β → Prop) : Outcome α → Option β → Prop where
  | nothing : Agrees R nothing none
  | found {a : α} {b : β} (h : R a b) : Agrees R (found a) (some b)

namespace Agrees

variable {R : α → β → Prop} {S : γ → δ → Prop} {x : Outcome α} {y : Option β}

theorem eq_ofOption {y : Option α} (h : Agrees Eq x y) : x = ofOption y := by
  cases h with
  | nothing => rfl
  | found h => rw [h, ofOption]

theorem eq_nothing {x : Outcome α} (h : Agrees R x none) : x = .nothing := by
  cases h
  rfl

theorem exists_found {x : Outcome α} {b : β} (h : Agrees R x (some b)) :
    ∃ a, x = .found a ∧ R a b := by
  cases h with
  | found h => exact ⟨_, rfl, h⟩

theorem of_option (y : Option α) : Agrees Eq (ofOption y) y := by
  cases y with
  | none => exact .nothing
  | some a => exact .found rfl

theorem mono {R' : α → β → Prop} (h : Agrees R x y) (hR : ∀ a b, R a b → R' a b) :
    Agrees R' x y := by
  cases h with
  | nothing => exact .nothing
  | found h => exact .found (hR _ _ h)

theorem of_map {β' : Type} {f : β' → β} {y : Option β'} (h : Agrees R x (y.map f)) :
    Agrees (fun a b => R a (f b)) x y := by
  cases y with
  | none => exact h.eq_nothing ▸ .nothing
  | some b =>
    obtain ⟨a, rfl, hab⟩ := h.exists_found
    exact .found hab

/-- What may be missing is missing on both sides or on none. -/
theorem option_cases {x : Option α} (h : Agrees R (ofOption x) y) :
    (x = none ∧ y = none) ∨ ∃ a b, x = some a ∧ y = some b ∧ R a b := by
  cases x with
  | none =>
    cases h
    exact Or.inl ⟨rfl, rfl⟩
  | some a =>
    cases h with
    | found h => exact Or.inr ⟨_, _, rfl, rfl, h⟩

theorem bind {f : α → Outcome γ} {g : β → Option δ} (h : Agrees R x y)
    (hrest : ∀ a b, R a b → Agrees S (f a) (g b)) : Agrees S (x >>= f) (y >>= g) := by
  cases h with
  | nothing => exact .nothing
  | found h => exact hrest _ _ h

theorem then_found {S : γ → β → Prop} {f : α → Outcome γ} (h : Agrees R x y)
    (hrest : ∀ a b, R a b → ∃ c, f a = .found c ∧ S c b) : Agrees S (x >>= f) y := by
  cases h with
  | nothing => exact .nothing
  | found h =>
    obtain ⟨c, hc, hcb⟩ := hrest _ _ h
    rw [found_bind, hc]
    exact .found hcb

theorem attempt {y : Option α} (h : Agrees Eq x y) : x.attempt = .found y := by
  cases h with
  | nothing => rfl
  | found h => rw [h, Outcome.attempt]

/-- What is found in two lists that correspond to each other. -/
theorem collect {f : α → Outcome γ} {g : β → Option γ} {as : List α} {bs : List β}
    (h : List.Forall₂ R as bs) (hfg : ∀ a b, R a b → Agrees Eq (f a) (g b)) :
    collect f as = .found (bs.filterMap g) := by
  induction h with
  | nil => rfl
  | @cons a b as bs hab _ ih =>
    rw [Outcome.collect, (hfg a b hab).attempt, ih, List.filterMap_cons]
    cases g b <;> rfl

end Agrees

/-! ## Slices of a text -/

/-- A text cut behind a number of bytes, if a character ends there. -/
def cutBytes? : Nat → List Char → Option (List Char × List Char)
  | 0, cs => some ([], cs)
  | _ + 1, [] => none
  | n + 1, c :: cs =>
    if c.utf8Size ≤ n + 1 then
      (cutBytes? (n + 1 - c.utf8Size) cs).map fun parts => (c :: parts.1, parts.2)
    else none

/-- The text between two places. -/
def bytes (source : String) (start stop : Nat) : Outcome String :=
  if start ≤ stop then do
    let (_, rest) ← inRange (cutBytes? start source.toList)
    let (text, _) ← inRange (cutBytes? (stop - start) rest)
    return String.ofList text
  else outOfRange

theorem utf8ByteSize_ofList_cons (c : Char) (cs : List Char) :
    (String.ofList (c :: cs)).utf8ByteSize = c.utf8Size + (String.ofList cs).utf8ByteSize := by
  rw [String.ofList_cons, String.utf8ByteSize_append, String.utf8ByteSize_singleton]

theorem cutBytes?_append (front behind : List Char) :
    cutBytes? (String.ofList front).utf8ByteSize (front ++ behind) = some (front, behind) := by
  induction front with
  | nil => cases behind <;> rfl
  | cons c front ih =>
    have hpos := c.utf8Size_pos
    obtain ⟨n, hn⟩ : ∃ n, (String.ofList (c :: front)).utf8ByteSize = n + 1 :=
      Nat.exists_eq_add_one.2 (by rw [utf8ByteSize_ofList_cons]; omega)
    have hrest : n + 1 - c.utf8Size = (String.ofList front).utf8ByteSize := by
      rw [← hn, utf8ByteSize_ofList_cons, Nat.add_sub_cancel_left]
    have hle : c.utf8Size ≤ n + 1 := by
      rw [← hn, utf8ByteSize_ofList_cons]
      exact Nat.le_add_right _ _
    rw [hn, List.cons_append, cutBytes?, if_pos hle, hrest, ih]
    rfl

theorem eq_append_of_cutBytes? {n : Nat} {cs front behind : List Char}
    (h : cutBytes? n cs = some (front, behind)) :
    cs = front ++ behind ∧ n = (String.ofList front).utf8ByteSize := by
  induction cs generalizing n front with
  | nil =>
    cases n with
    | zero =>
      rw [cutBytes?, Option.some.injEq, Prod.mk.injEq] at h
      rw [← h.1, ← h.2]
      exact ⟨rfl, rfl⟩
    | succ n => exact absurd h (by simp [cutBytes?])
  | cons c cs ih =>
    cases n with
    | zero =>
      rw [cutBytes?, Option.some.injEq, Prod.mk.injEq] at h
      rw [← h.1, ← h.2]
      exact ⟨rfl, rfl⟩
    | succ n =>
      rw [cutBytes?] at h
      split at h
      · next hle =>
        obtain ⟨⟨front', behind'⟩, hcut, heq⟩ := Option.map_eq_some_iff.1 h
        obtain ⟨rfl, rfl⟩ := Prod.mk.inj heq
        obtain ⟨hcs, hn⟩ := ih hcut
        refine ⟨congrArg (c :: ·) hcs, ?_⟩
        rw [utf8ByteSize_ofList_cons, ← hn]
        omega
      · exact absurd h (by simp)

/-- **A slice of a text exists just between two ends of characters that are in order**, and is what
stands there. -/
theorem bytes_eq_found_iff {text : String} :
    bytes source i j = .found text ↔
      ∃ front behind, source = front ++ text ++ behind ∧ i = front.utf8ByteSize ∧
        j = i + text.utf8ByteSize := by
  constructor
  · intro h
    rw [bytes] at h
    split at h
    · next hle =>
      cases hfront : cutBytes? i source.toList with
      | none => exact absurd (hfront ▸ h) (by simp [inRange, Bind.bind, Outcome.bind])
      | some parts =>
        obtain ⟨front, rest⟩ := parts
        rw [hfront] at h
        replace h : ((inRange (cutBytes? (j - i) rest)).bind fun parts =>
          .found (String.ofList parts.1)) = .found text := h
        cases htext : cutBytes? (j - i) rest with
        | none => exact absurd (htext ▸ h) (by simp [inRange, Outcome.bind])
        | some parts =>
          obtain ⟨middle, behind⟩ := parts
          rw [htext] at h
          obtain ⟨hsource, hi⟩ := eq_append_of_cutBytes? hfront
          obtain ⟨rfl, hj⟩ := eq_append_of_cutBytes? htext
          obtain rfl : String.ofList middle = text := Outcome.found.inj h
          refine ⟨String.ofList front, String.ofList behind, ?_, hi, by omega⟩
          rw [← String.ofList_append, ← String.ofList_append, List.append_assoc, ← hsource,
            String.ofList_toList]
    · exact absurd h (by simp)
  · rintro ⟨front, behind, rfl, rfl, rfl⟩
    have hfront := cutBytes?_append front.toList (text.toList ++ behind.toList)
    have htext := cutBytes?_append text.toList behind.toList
    rw [String.ofList_toList] at hfront htext
    rw [bytes, if_pos (Nat.le_add_right _ _), Nat.add_sub_cancel_left, String.toList_append,
      String.toList_append, List.append_assoc, hfront]
    show (inRange (cutBytes? text.utf8ByteSize (text.toList ++ behind.toList)) >>= _) = _
    rw [htext]
    exact congrArg Outcome.found String.ofList_toList

/-- A slice does not end within a character. -/
example : bytes "é" 0 1 = outOfRange := by rfl

/-! ## Slices of a run -/

/-- The token at a position. -/
def token (ts : List Token) (i : Nat) : Outcome Token := inRange ts[i]?

/-- The run from a position to another. -/
def tokens (ts : List Token) (i j : Nat) : Outcome (List Token) :=
  if i ≤ j ∧ j ≤ ts.length then .found ((ts.take j).drop i) else outOfRange

/-- The run from a position on. -/
def tokensFrom (ts : List Token) (i : Nat) : Outcome (List Token) := tokens ts i ts.length

/-! ## Tokens with their places -/

/-- The same token, in front of whatever it stands. -/
def SameToken (p t : Token) : Prop := p.bare = t.bare

theorem SameToken.kind {p t : Token} (h : SameToken p t) : p.kind = t.kind := by
  have hbare : p.bare.kind = t.bare.kind := congrArg Token.kind h
  exact hbare

theorem SameToken.text {p t : Token} (h : SameToken p t) : p.text = t.text := by
  have hbare : p.bare.text = t.bare.text := congrArg Token.text h
  exact hbare

theorem SameToken.isWord {p t : Token} (h : SameToken p t) (word : String) :
    p.isWord word = t.isWord word := by
  rw [Token.isWord, Token.isWord, h.kind, h.text]

theorem SameToken.isOperator {p t : Token} (h : SameToken p t) (op : String) :
    p.isOperator op = t.isOperator op := by
  rw [Token.isOperator, Token.isOperator, h.kind, h.text]

/-- The tokens `ps` are `ts`, which follow each other in the source, each with all the text in front
of it. -/
structure PlacedIn (source : String) (ps ts : List Token) : Prop where
  source : ∃ above below, source = above ++ String.join (ts.map Token.spaced) ++ below ∧
    ps = Token.placed above ts
  text_ne : ∀ t ∈ ts, t.text ≠ ""

theorem length_placed (above : String) (ts : List Token) :
    (Token.placed above ts).length = ts.length := by
  induction ts generalizing above with
  | nil => rfl
  | cons t ts ih => rw [Token.placed, List.length_cons, ih, List.length_cons]

namespace PlacedIn

theorem map_bare (h : PlacedIn source ps ts) : ps.map Token.bare = ts.map Token.bare := by
  obtain ⟨above, below, -, rfl⟩ := h.source
  exact map_bare_placed above ts

theorem length_eq (h : PlacedIn source ps ts) : ps.length = ts.length := by
  obtain ⟨above, below, -, rfl⟩ := h.source
  exact length_placed above ts

theorem exists_append {front behind : List Token} (h : PlacedIn source ps (front ++ behind)) :
    ∃ qs rs, ps = qs ++ rs ∧ PlacedIn source qs front ∧ PlacedIn source rs behind := by
  obtain ⟨above, below, hsource, rfl⟩ := h.source
  rw [List.map_append, String.join_append] at hsource
  refine ⟨_, _, Token.placed_append above front behind,
    ⟨⟨above, String.join (behind.map Token.spaced) ++ below, ?_, rfl⟩, ?_⟩,
    ⟨⟨_, below, ?_, rfl⟩, ?_⟩⟩
  · rw [hsource]
    simp only [String.append_assoc]
  · exact fun t ht => h.text_ne t (List.mem_append_left _ ht)
  · rw [hsource]
    simp only [String.append_assoc]
  · exact fun t ht => h.text_ne t (List.mem_append_right _ ht)

theorem nil_iff (h : PlacedIn source ps ts) : ps = [] ↔ ts = [] := by
  rw [← List.length_eq_zero_iff, h.length_eq, List.length_eq_zero_iff]

theorem take (h : PlacedIn source ps ts) (n : Nat) : PlacedIn source (ps.take n) (ts.take n) := by
  obtain ⟨qs, rs, rfl, hqs, -⟩ := exists_append (ts.take_append_drop n ▸ h)
  have hlength := h.length_eq
  rcases Nat.le_total n ts.length with hn | hn
  · have hqslength : qs.length = n := by rw [hqs.length_eq, List.length_take, Nat.min_eq_left hn]
    rwa [List.take_left' hqslength]
  · rw [List.take_of_length_le (hlength ▸ hn)]
    rwa [List.take_of_length_le hn]

theorem drop (h : PlacedIn source ps ts) (n : Nat) : PlacedIn source (ps.drop n) (ts.drop n) := by
  obtain ⟨qs, rs, rfl, hqs, hrs⟩ := exists_append (ts.take_append_drop n ▸ h)
  have hlength := h.length_eq
  rcases Nat.le_total n ts.length with hn | hn
  · have hqslength : qs.length = n := by rw [hqs.length_eq, List.length_take, Nat.min_eq_left hn]
    rwa [List.drop_left' hqslength]
  · have hnil : rs = [] := hrs.nil_iff.2 (List.drop_eq_nil_of_le hn)
    rw [List.drop_eq_nil_of_le (by omega)]
    rwa [hnil] at hrs

theorem getElem? (h : PlacedIn source ps ts) (i : Nat) :
    ps[i]?.map Token.bare = ts[i]?.map Token.bare := by
  rw [← List.getElem?_map, h.map_bare, List.getElem?_map]

/-- The token at a position, if there is one. -/
theorem get (h : PlacedIn source ps ts) (i : Nat) :
    Agrees SameToken (ofOption ps[i]?) ts[i]? := by
  have hi := h.getElem? i
  cases hp : ps[i]? with
  | none =>
    rw [hp, Option.map_none, eq_comm, Option.map_eq_none_iff] at hi
    rw [hi]
    exact .nothing
  | some p =>
    rw [hp, Option.map_some, eq_comm] at hi
    obtain ⟨t, ht, hbare⟩ := Option.map_eq_some_iff.1 hi
    rw [ht]
    exact .found hbare.symm

theorem exists_getElem? {t : Token} (h : PlacedIn source ps ts) (ht : ts[i]? = some t) :
    ∃ p, ps[i]? = some p ∧ SameToken p t := by
  have hi := h.getElem? i
  rw [ht, Option.map_some] at hi
  exact Option.map_eq_some_iff.1 hi

theorem token (h : PlacedIn source ps ts) (hi : i < ts.length) :
    ∃ p, Indexed.token ps i = .found p ∧ SameToken p ts[i] := by
  have hget := h.get i
  rw [List.getElem?_eq_getElem hi] at hget
  have hps : i < ps.length := h.length_eq ▸ hi
  rw [List.getElem?_eq_getElem hps] at hget
  cases hget with
  | found hsame => exact ⟨ps[i], by rw [Indexed.token, List.getElem?_eq_getElem hps, inRange], hsame⟩

/-- A slice whose ends are in order and in range. -/
theorem tokens (h : PlacedIn source ps ts) (hij : i ≤ j) (hj : j ≤ ts.length) :
    ∃ qs, Indexed.tokens ps i j = .found qs ∧ PlacedIn source qs ((ts.take j).drop i) :=
  ⟨_, if_pos ⟨hij, h.length_eq ▸ hj⟩, (h.take j).drop i⟩

theorem tokensFrom_eq (h : PlacedIn source ps ts) (hi : i ≤ ts.length) :
    Indexed.tokensFrom ps i = .found (ps.drop i) := by
  rw [Indexed.tokensFrom, Indexed.tokens, if_pos ⟨h.length_eq ▸ hi, Nat.le_refl _⟩,
    List.take_length]

theorem tokensFrom (h : PlacedIn source ps ts) (hi : i ≤ ts.length) :
    ∃ qs, Indexed.tokensFrom ps i = .found qs ∧ PlacedIn source qs (ts.drop i) :=
  ⟨_, h.tokensFrom_eq hi, h.drop i⟩

/-- The first token is of the same kind. -/
theorem startsWith (h : PlacedIn source ps ts) (k : Kind) : startsWith k ps = startsWith k ts := by
  have hhead := h.getElem? 0
  rw [Script.startsWith, Script.startsWith, List.head?_eq_getElem?, List.head?_eq_getElem?]
  have hany : ∀ t? : Option Token, (t?.any fun t => t.kind = k) = (t?.map Token.bare).any fun t => t.kind = k :=
    fun t? => by cases t? <;> rfl
  rw [hany, hhead, ← hany]

end PlacedIn

end SvelteTypings.Script.Indexed
