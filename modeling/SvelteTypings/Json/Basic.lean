/-!
# JSON values

Numbers are either integers that fit in 64 bits, with or without a sign, or doubles. The members of
an object are kept in the order of their keys, each key once.
-/

namespace SvelteTypings

inductive Json where
  | null
  | bool (b : Bool)
  | integer (n : Int)
  | real (x : Float)
  | string (s : String)
  | array (items : List Json)
  | object (members : List (String × Json))
deriving Inhabited

namespace Json

abbrev Members := List (String × Json)

namespace Members

/-- Sets the value of a key, in the place that the order of the keys gives it. -/
def set (key : String) (value : Json) : Members → Members
  | [] => [(key, value)]
  | (k, v) :: ms =>
    if key = k then (key, value) :: ms
    else if key < k then (key, value) :: (k, v) :: ms
    else (k, v) :: set key value ms

def get? (key : String) (ms : Members) : Option Json := (ms.find? (·.1 = key)).map Prod.snd

@[simp]
theorem get?_set_self (key : String) (value : Json) (ms : Members) :
    get? key (set key value ms) = some value := by
  induction ms with
  | nil => simp [set, get?]
  | cons m ms ih =>
    obtain ⟨k, v⟩ := m
    by_cases h : key = k
    · simp [set, get?, h]
    · by_cases hlt : key < k
      · simp [set, get?, h, hlt]
      · have hne : ¬k = key := fun h' => h h'.symm
        simpa [set, get?, h, hlt, hne] using ih

/-- Setting a key leaves the others alone. -/
theorem get?_set_of_ne {key other : String} (hne : other ≠ key) (value : Json) (ms : Members) :
    get? other (set key value ms) = get? other ms := by
  induction ms with
  | nil => simp [set, get?, Ne.symm hne]
  | cons m ms ih =>
    obtain ⟨k, v⟩ := m
    by_cases h : key = k
    · subst h
      simp [set, get?, Ne.symm hne]
    · by_cases hlt : key < k
      · simp [set, get?, h, hlt, Ne.symm hne]
      · by_cases hk : k = other
        · subst hk
          simp [set, get?, h, hlt]
        · simpa [set, get?, h, hlt, hk] using ih

end Members

/-- The value of a key, if this is an object that has it. -/
def member? (key : String) : Json → Option Json
  | .object ms => Members.get? key ms
  | _ => none

end Json

end SvelteTypings
