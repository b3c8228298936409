import Mathlib.Data.String.Basic
import SvelteTypings.Json.Parser
import SvelteTypings.Proofs.Json.Reading

/-!
# Members in order

The members of an object that has been read stand in the order of their keys, so each key is among
them once. Setting a key keeps the order (`Members.IsOrdered.set`), and every step of the reader
does (`State.IsOrdered.step`).
-/

namespace SvelteTypings.Json

/-! ## Setting keys -/

namespace Members

variable {key : String} {value : Json} {ms base own : Members}

/-- The keys stand in their order, each once. -/
def IsOrdered (ms : Members) : Prop := ms.Pairwise fun a b => a.1 < b.1

theorem isOrdered_nil : IsOrdered [] := List.Pairwise.nil

theorem mem_set {m : String × Json} (h : m ∈ set key value ms) : m.1 = key ∨ m ∈ ms := by
  induction ms with
  | nil => exact Or.inl (congrArg Prod.fst (List.mem_singleton.1 h))
  | cons m' ms ih =>
    unfold set at h
    split at h
    · rcases List.mem_cons.1 h with rfl | h
      · exact Or.inl rfl
      · exact Or.inr (List.mem_cons_of_mem m' h)
    · split at h
      · rcases List.mem_cons.1 h with rfl | h
        · exact Or.inl rfl
        · exact Or.inr h
      · rcases List.mem_cons.1 h with rfl | h
        · exact Or.inr List.mem_cons_self
        · exact (ih h).imp_right (List.mem_cons_of_mem m')

theorem IsOrdered.set (h : IsOrdered ms) (key : String) (value : Json) :
    IsOrdered (Members.set key value ms) := by
  induction ms with
  | nil => exact List.pairwise_singleton _ _
  | cons m ms ih =>
    obtain ⟨hm, hms⟩ := List.pairwise_cons.1 h
    unfold Members.set
    split
    · next heq => exact List.pairwise_cons.2 ⟨heq ▸ hm, hms⟩
    · next hne =>
      split
      · next hlt =>
        refine List.pairwise_cons.2 ⟨?_, h⟩
        intro e he
        rcases List.mem_cons.1 he with rfl | he
        · exact hlt
        · exact lt_trans hlt (hm e he)
      · next hnlt =>
        refine List.pairwise_cons.2 ⟨?_, ih hms⟩
        intro e he
        rcases mem_set he with heq | he
        · rw [heq]
          exact lt_of_le_of_ne (not_lt.1 hnlt) (Ne.symm hne)
        · exact hm e he

theorem get?_cons (k : String) (v : Json) (ms : Members) :
    get? key ((k, v) :: ms) = if k = key then some v else get? key ms := by
  unfold get?
  rw [List.find?_cons]
  by_cases h : k = key <;> simp [h]

/-- What comes first is there no second time. -/
theorem IsOrdered.get?_eq_none {k : String} {v : Json} (h : IsOrdered ((k, v) :: ms)) :
    get? k ms = none := by
  unfold get?
  rw [Option.map_eq_none_iff, List.find?_eq_none]
  intro m hm
  have hlt := (List.pairwise_cons.1 h).1 m hm
  exact fun heq => absurd (of_decide_eq_true heq) (ne_of_gt hlt)

/-- **Members that are set over others count**, each key with what is made of its value. -/
theorem get?_foldl_set (h : IsOrdered own) (f : String → Json → Json) (key : String)
    (base : Members) :
    get? key (own.foldl (fun ms m => ms.set m.1 (f m.1 m.2)) base) =
      ((get? key own).map (f key)).or (get? key base) := by
  induction own generalizing base with
  | nil => rfl
  | cons m own ih =>
    obtain ⟨k, v⟩ := m
    rw [List.foldl_cons, ih (List.pairwise_cons.1 h).2, get?_cons]
    by_cases hk : k = key
    · subst hk
      rw [h.get?_eq_none, if_pos rfl, get?_set_self]
      rfl
    · rw [if_neg hk, get?_set_of_ne (Ne.symm hk)]

end Members

/-! ## Numbers -/

/-- If the value is an object, its members are in order. -/
def IsOrdered : Json → Prop
  | .object ms => Members.IsOrdered ms
  | _ => True

variable {negative : Bool} {significand : Nat} {exponent : Int} {v : Json} {c : Char}
  {cs r : List Char}

theorem isOrdered_scaled? (h : scaled? negative significand exponent = some v) : v.IsOrdered := by
  obtain ⟨y, -, rfl⟩ := Option.map_eq_some_iff.1 h
  trivial

theorem isOrdered_integerValue (negative : Bool) (significand : Nat) :
    (integerValue negative significand).IsOrdered := by
  unfold integerValue
  split
  · trivial
  · split
    · trivial
    · trivial

theorem isOrdered_readExponent
    (h : readExponent negative significand exponent cs = some (some v, r)) : v.IsOrdered := by
  rw [readExponent_eq, readExponentDigits] at h
  split at h
  · exact absurd h (by simp)
  · have hvalue := (Prod.mk.inj (Option.some.inj h)).1
    unfold exponentValue at hvalue
    split at hvalue
    · exact isOrdered_scaled? hvalue
    · split at hvalue
      · exact absurd hvalue (by simp)
      · obtain rfl := Option.some.inj hvalue
        trivial

theorem isOrdered_readScale (h : readScale negative significand exponent cs = some (some v, r)) :
    v.IsOrdered := by
  unfold readScale at h
  split at h
  · exact isOrdered_readExponent h
  · exact isOrdered_readExponent h
  · exact isOrdered_scaled? (Prod.mk.inj (Option.some.inj h)).1

theorem isOrdered_readFraction
    (h : readFraction negative significand exponent cs = some (some v, r)) : v.IsOrdered := by
  unfold readFraction at h
  split at h
  · exact absurd h (by simp)
  · exact isOrdered_readScale h

theorem isOrdered_readUnsigned (h : readUnsigned negative cs = some (some v, r)) : v.IsOrdered := by
  unfold readUnsigned at h
  split at h
  · split at h
    · exact absurd h (by simp)
    · split at h
      · exact isOrdered_readFraction h
      · split at h
        · exact isOrdered_readExponent h
        · obtain rfl := Option.some.inj (Prod.mk.inj (Option.some.inj h)).1
          exact isOrdered_integerValue _ _
  · split at h
    · exact absurd h (by simp)
    · simp only at h
      split at h
      · exact isOrdered_readFraction h
      · split at h
        · obtain rfl := Option.some.inj (Prod.mk.inj (Option.some.inj h)).1
          exact isOrdered_integerValue _ _
        · exact isOrdered_readScale h
  · exact absurd h (by simp)

theorem isOrdered_readNumber (h : readNumber cs = some (some v, r)) : v.IsOrdered := by
  unfold readNumber at h
  split at h
  · exact isOrdered_readUnsigned h
  · exact isOrdered_readUnsigned h

/-! ## Tokens -/

/-- A number is no object. -/
def Token.IsOrdered : Token → Prop
  | .number (some v) => Json.IsOrdered v
  | _ => True

variable {t : Token} {ts rest : List Token}

theorem isOrdered_readToken (h : readToken c cs = some (t, r)) : t.IsOrdered := by
  unfold readToken at h
  split at h
  case h_7 =>
    obtain ⟨_, -, heq⟩ := Option.map_eq_some_iff.1 h
    rw [← (Prod.mk.inj heq).1]
    trivial
  case h_11 =>
    obtain ⟨⟨value, _⟩, hread, heq⟩ := Option.map_eq_some_iff.1 h
    rw [← (Prod.mk.inj heq).1]
    cases value with
    | none => trivial
    | some v => exact isOrdered_readNumber hread
  all_goals
    rw [← (Prod.mk.inj (Option.some.inj h)).1]
    trivial

theorem isOrdered_tokensFrom {n : Nat} (h : tokensFrom n cs = some ts) :
    ∀ t ∈ ts, t.IsOrdered := by
  induction n generalizing cs ts with
  | zero =>
    cases cs with
    | nil =>
      obtain rfl := Option.some.inj h
      exact List.forall_mem_nil _
    | cons c cs => exact absurd h (by simp [tokensFrom])
  | succ n ih =>
    cases cs with
    | nil =>
      obtain rfl := Option.some.inj h
      exact List.forall_mem_nil _
    | cons c cs =>
      unfold tokensFrom at h
      split at h
      · exact ih h
      · obtain ⟨⟨t, r⟩, hread, h⟩ := Option.bind_eq_some_iff.1 h
        obtain ⟨ts', hrest, h⟩ := Option.bind_eq_some_iff.1 h
        obtain rfl := Option.some.inj h
        exact List.forall_mem_cons.2 ⟨isOrdered_readToken hread, ih hrest⟩

/-! ## Values -/

def Open.IsOrdered : Open → Prop
  | .object ms _ => Members.IsOrdered ms
  | .array _ => True

theorem Open.isOrdered_array (items : List Json) : (Open.array items).IsOrdered := trivial

/-- The members read so far are in order. -/
def State.IsOrdered : State → Prop
  | .nextKey ms stack => Members.IsOrdered ms ∧ ∀ o ∈ stack, o.IsOrdered
  | .colon ms _ stack => Members.IsOrdered ms ∧ ∀ o ∈ stack, o.IsOrdered
  | .commaOrEnd top stack => top.IsOrdered ∧ ∀ o ∈ stack, o.IsOrdered
  | .value stack => ∀ o ∈ stack, o.IsOrdered
  | .valueOrEnd stack => ∀ o ∈ stack, o.IsOrdered
  | .keyOrEnd stack => ∀ o ∈ stack, o.IsOrdered
  | .done v => v.IsOrdered

variable {mode : Mode} {σ σ' : State} {stack : List Open}

theorem State.isOrdered_give (hv : v.IsOrdered) (hstack : ∀ o ∈ stack, o.IsOrdered) :
    (State.give v stack).IsOrdered := by
  cases stack with
  | nil => exact hv
  | cons o stack =>
    obtain ⟨ho, hrest⟩ := List.forall_mem_cons.1 hstack
    cases o with
    | array items => exact ⟨trivial, hrest⟩
    | object ms key => exact ⟨Members.IsOrdered.set ho key v, hrest⟩

theorem isOrdered_number? {value : Option Json} (ht : (Token.number value).IsOrdered)
    (h : mode.number? value = some v) : v.IsOrdered := by
  cases value with
  | none =>
    cases mode with
    | strict room => exact absurd h (by simp [Mode.number?])
    | skim =>
      obtain rfl := Option.some.inj h
      trivial
  | some w =>
    have hw : w = v := by cases mode <;> exact Option.some.inj h
    exact hw ▸ ht

theorem isOrdered_startValue (ht : t.IsOrdered) (hstack : ∀ o ∈ stack, o.IsOrdered)
    (h : startValue mode stack t = some σ) : σ.IsOrdered := by
  unfold startValue at h
  split at h
  · obtain rfl := Option.some.inj h
    exact State.isOrdered_give trivial hstack
  · obtain rfl := Option.some.inj h
    exact State.isOrdered_give trivial hstack
  · obtain ⟨v, hv, rfl⟩ := Option.map_eq_some_iff.1 h
    exact State.isOrdered_give (isOrdered_number? ht hv) hstack
  · obtain ⟨s, -, rfl⟩ := Option.map_eq_some_iff.1 h
    exact State.isOrdered_give trivial hstack
  · obtain ⟨-, h⟩ := Option.ite_none_right_eq_some.1 h
    obtain rfl := Option.some.inj h
    exact hstack
  · obtain ⟨-, h⟩ := Option.ite_none_right_eq_some.1 h
    obtain rfl := Option.some.inj h
    exact hstack
  · exact absurd h (by simp)

/-- **A step of the reader keeps the members in order.** -/
theorem State.IsOrdered.step (hσ : σ.IsOrdered) (ht : t.IsOrdered)
    (h : σ.step mode t = some σ') : σ'.IsOrdered := by
  unfold State.step at h
  split at h
  · exact isOrdered_startValue ht hσ h
  · obtain rfl := Option.some.inj h
    exact State.isOrdered_give trivial hσ
  · exact isOrdered_startValue ht (List.forall_mem_cons.2 ⟨Open.isOrdered_array [], hσ⟩) h
  · obtain ⟨key, -, rfl⟩ := Option.map_eq_some_iff.1 h
    exact hσ
  · obtain rfl := Option.some.inj h
    exact State.isOrdered_give Members.isOrdered_nil hσ
  · obtain ⟨key, -, rfl⟩ := Option.map_eq_some_iff.1 h
    exact ⟨Members.isOrdered_nil, hσ⟩
  · obtain rfl := Option.some.inj h
    exact List.forall_mem_cons.2 hσ
  · obtain rfl := Option.some.inj h
    exact List.forall_mem_cons.2 hσ
  · obtain rfl := Option.some.inj h
    exact State.isOrdered_give trivial hσ.2
  · obtain rfl := Option.some.inj h
    exact hσ
  · obtain rfl := Option.some.inj h
    exact State.isOrdered_give hσ.1 hσ.2
  · exact absurd h (by simp)

theorem isOrdered_run (hσ : σ.IsOrdered) (hts : ∀ t ∈ ts, t.IsOrdered)
    (h : run mode ts σ = some (v, rest)) : v.IsOrdered ∧ ∀ t ∈ rest, t.IsOrdered := by
  induction ts generalizing σ with
  | nil =>
    cases σ with
    | done w =>
      obtain ⟨rfl, rfl⟩ := Prod.mk.inj (Option.some.inj h)
      exact ⟨hσ, hts⟩
    | _ => exact absurd h (by simp [run])
  | cons t ts ih =>
    cases σ with
    | done w =>
      obtain ⟨rfl, rfl⟩ := Prod.mk.inj (Option.some.inj h)
      exact ⟨hσ, hts⟩
    | _ =>
      obtain ⟨σ', hstep, hrun⟩ := Option.bind_eq_some_iff.1 h
      obtain ⟨ht, hts⟩ := List.forall_mem_cons.1 hts
      exact ih (hσ.step ht hstep) hts hrun

/-- **The members of an object that has been read are in order.** -/
theorem isOrdered_readValue (hts : ∀ t ∈ ts, t.IsOrdered)
    (h : readValue mode ts = some (v, rest)) : v.IsOrdered ∧ ∀ t ∈ rest, t.IsOrdered :=
  isOrdered_run (σ := .value []) (List.forall_mem_nil _) hts h

end SvelteTypings.Json
