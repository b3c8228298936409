/-!
# UTF-8

Texts as bytes. `decode?` reads bytes that are all valid, and `decodeLossy` shows any bytes: each
longest run that begins a character but does not finish it becomes one U+FFFD.
-/

namespace SvelteTypings.Text

def encode (s : String) : List UInt8 := s.toUTF8.data.toList

def byteLength (cs : List Char) : Nat := cs.foldl (fun n c => n + c.utf8Size) 0

@[simp] theorem byteLength_nil : byteLength [] = 0 := rfl

@[simp] theorem byteLength_cons (c : Char) (cs : List Char) :
    byteLength (c :: cs) = c.utf8Size + byteLength cs := by
  have hfrom : ∀ n, cs.foldl (fun n c => n + c.utf8Size) n =
      n + cs.foldl (fun n c => n + c.utf8Size) 0 := by
    induction cs with
    | nil => exact fun n => rfl
    | cons d cs ih =>
      intro n
      rw [List.foldl_cons, List.foldl_cons, ih, ih (0 + d.utf8Size)]
      omega
  rw [byteLength, List.foldl_cons, hfrom, Nat.zero_add]
  rfl

@[simp] theorem byteLength_append (xs ys : List Char) :
    byteLength (xs ++ ys) = byteLength xs + byteLength ys := by
  induction xs with
  | nil => simp
  | cons c xs ih => rw [List.cons_append, byteLength_cons, byteLength_cons, ih, Nat.add_assoc]

/-- What stands at the start of a byte sequence: a whole character, or the number of bytes of a
broken one, each with the bytes that follow. -/
inductive Head where
  | char (c : Char) (rest : List UInt8)
  | broken (rest : List UInt8)

def between (first last : Nat) (b : UInt8) : Bool := first ≤ b.toNat && b.toNat ≤ last

def isContinuation (b : UInt8) : Bool := between 0x80 0xBF b

/-- The six payload bits of a continuation byte. -/
def payload (b : UInt8) : Nat := b.toNat % 64

/-- How many bytes follow a lead byte, and whether the first of them is one it allows. The ranges
leave out overlong forms, surrogates and code points past U+10FFFF. -/
def follow (lead : UInt8) : Option (Nat × (UInt8 → Bool)) :=
  let n := lead.toNat
  if n < 0xC2 then none
  else if n < 0xE0 then some (1, isContinuation)
  else if n = 0xE0 then some (2, between 0xA0 0xBF)
  else if n = 0xED then some (2, between 0x80 0x9F)
  else if n < 0xF0 then some (2, isContinuation)
  else if n = 0xF0 then some (3, between 0x90 0xBF)
  else if n < 0xF4 then some (3, isContinuation)
  else if n = 0xF4 then some (3, between 0x80 0x8F)
  else none

/-- Reads `n` more continuation bytes onto the value `acc`. -/
def continueChar : Nat → Nat → List UInt8 → Head
  | 0, acc, bytes => .char (Char.ofNat acc) bytes
  | _ + 1, _, [] => .broken []
  | n + 1, acc, b :: bytes =>
    if isContinuation b then continueChar n (acc * 64 + payload b) bytes else .broken (b :: bytes)

/-- Reads the character that starts with `lead`. -/
def head (lead : UInt8) (bytes : List UInt8) : Head :=
  if lead.toNat < 0x80 then .char (Char.ofNat lead.toNat) bytes
  else
    match follow lead, bytes with
    | some (n, allowed), b :: rest =>
      if allowed b then
        let bits :=
          if n = 1 then lead.toNat % 32 else if n = 2 then lead.toNat % 16 else lead.toNat % 8
        continueChar (n - 1) (bits * 64 + payload b) rest
      else .broken bytes
    | _, _ => .broken bytes

def Head.rest : Head → List UInt8
  | .char _ rest => rest
  | .broken rest => rest

theorem length_rest_continueChar_le (n acc : Nat) (bytes : List UInt8) :
    (continueChar n acc bytes).rest.length ≤ bytes.length := by
  induction n generalizing acc bytes with
  | zero => simp [continueChar, Head.rest]
  | succ n ih =>
    cases bytes with
    | nil => simp [continueChar, Head.rest]
    | cons b bytes =>
      simp only [continueChar]
      split
      · exact Nat.le_succ_of_le (ih _ _)
      · simp [Head.rest]

/-- Reading a character leaves no more than what followed its first byte. -/
theorem length_rest_head_le (lead : UInt8) (bytes : List UInt8) :
    (head lead bytes).rest.length ≤ bytes.length := by
  unfold head
  split
  · simp [Head.rest]
  · split
    · split
      · exact Nat.le_succ_of_le (length_rest_continueChar_le _ _ _)
      · simp [Head.rest]
    · simp [Head.rest]

/-- The characters of a byte sequence, with U+FFFD for what is no character. -/
def decodeLossyChars : List UInt8 → List Char
  | [] => []
  | lead :: bytes =>
    match _h : head lead bytes with
    | .char c rest => c :: decodeLossyChars rest
    | .broken rest => '\uFFFD' :: decodeLossyChars rest
termination_by bytes => bytes.length
decreasing_by
  all_goals
    have := length_rest_head_le lead bytes
    rw [_h] at this
    simp only [Head.rest] at this
    simp only [List.length_cons]
    omega

/-- The bytes as a text to show, with U+FFFD for what is no character. -/
def decodeLossy (bytes : List UInt8) : String := String.ofList (decodeLossyChars bytes)

/-- The text with these bytes, if they are valid. -/
def decode? (bytes : List UInt8) : Option String := String.fromUTF8? ⟨bytes.toArray⟩

end SvelteTypings.Text
