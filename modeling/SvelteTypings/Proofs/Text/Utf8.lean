import SvelteTypings.Text.Utf8

/-!
# ASCII in UTF-8

An ASCII byte stands for its character and for nothing else, wherever it occurs. So it splits the
text of any bytes, valid or not (`encode_decodeLossy_append`), and a character that a text does not
hold is no byte of it (`mem_encode_ascii_iff`).
-/

namespace SvelteTypings.Text

/-! ## Encoding -/

theorem encode_ofList (cs : List Char) :
    encode (String.ofList cs) = cs.flatMap String.utf8EncodeChar := by
  show (String.ofList cs).toByteArray.data.toList = _
  rw [String.toByteArray_ofList, List.utf8Encode, List.data_toByteArray]

theorem encode_eq_flatMap (s : String) : encode s = s.toList.flatMap String.utf8EncodeChar := by
  rw [← encode_ofList, String.ofList_toList]

/-- A character of one byte is an ASCII character, and all other bytes lie above. -/
theorem mem_utf8EncodeChar_ascii_iff {b : UInt8} {c : Char} (hb : b.toNat < 128) :
    b ∈ String.utf8EncodeChar c ↔ c.toNat = b.toNat := by
  have hvalue : c.val.toNat = c.toNat := rfl
  have hbyte : ∀ n, b = UInt8.ofNat n ↔ b.toNat = n % 256 := by
    intro n
    rw [← UInt8.toNat_inj, UInt8.toNat_ofNat']
  unfold String.utf8EncodeChar
  simp only [hvalue]
  split
  · rw [List.mem_singleton, hbyte]
    omega
  · split
    · simp only [List.mem_cons, List.not_mem_nil, hbyte, or_false]
      omega
    · split
      · simp only [List.mem_cons, List.not_mem_nil, hbyte, or_false]
        omega
      · simp only [List.mem_cons, List.not_mem_nil, hbyte, or_false]
        omega

/-- An ASCII byte is in a text if the text holds its character. -/
theorem mem_encode_ascii_iff {b : UInt8} {s : String} (hb : b.toNat < 128) :
    b ∈ encode s ↔ ∃ c ∈ s.toList, c.toNat = b.toNat := by
  rw [encode_eq_flatMap, List.mem_flatMap]
  refine exists_congr fun c => and_congr_right fun _ => ?_
  exact mem_utf8EncodeChar_ascii_iff hb

/-- A text whose last byte is ASCII ends in the character of that byte. -/
theorem getLast?_toList_of_encode {b : UInt8} {s : String} (hb : b.toNat < 128)
    (h : (encode s).getLast? = some b) : ∃ c, s.toList.getLast? = some c ∧ c.toNat = b.toNat := by
  rw [encode_eq_flatMap] at h
  rcases List.eq_nil_or_concat s.toList with hnil | ⟨cs, c, hconcat⟩
  · rw [hnil] at h
    exact absurd h (by simp)
  · rw [List.concat_eq_append] at hconcat
    rw [hconcat, List.flatMap_append, List.flatMap_singleton, List.getLast?_append] at h
    have hne : (String.utf8EncodeChar c).getLast? ≠ none := by
      rw [ne_eq, List.getLast?_eq_none_iff]
      exact String.utf8EncodeChar_ne_nil
    obtain ⟨last, hlast⟩ := Option.ne_none_iff_exists'.1 hne
    rw [hlast, Option.some_or, Option.some.injEq] at h
    have hmem : b ∈ String.utf8EncodeChar c := h ▸ List.mem_of_getLast? hlast
    refine ⟨c, ?_, (mem_utf8EncodeChar_ascii_iff hb).1 hmem⟩
    rw [hconcat, List.getLast?_concat]

/-! ## Decoding -/

variable {b lead : UInt8} {bytes rest : List UInt8}

theorem isContinuation_ascii (hb : b.toNat < 128) : isContinuation b = false := by
  unfold isContinuation between
  simp only [Bool.and_eq_false_iff, decide_eq_false_iff_not]
  omega

/-- No lead byte can be followed by ASCII. -/
theorem follow_ascii {n : Nat} {allowed : UInt8 → Bool} (h : follow lead = some (n, allowed))
    (hb : b.toNat < 128) : allowed b = false := by
  have hbelow : ∀ first last, 128 ≤ first → between first last b = false := by
    intro first last hfirst
    unfold between
    simp only [Bool.and_eq_false_iff, decide_eq_false_iff_not]
    omega
  unfold follow at h
  simp only [Option.ite_none_left_eq_some] at h
  obtain ⟨-, h⟩ := h
  -- each row of the table allows bytes from 128 on
  repeat' split at h
  all_goals cases h
  all_goals exact hbelow _ _ (by decide)

/-- What follows the first character of some bytes. -/
def Head.append (h : Head) (rest : List UInt8) : Head :=
  match h with
  | .char c bytes => .char c (bytes ++ rest)
  | .broken bytes => .broken (bytes ++ rest)

theorem continueChar_append (n acc : Nat) (hb : b.toNat < 128) :
    continueChar n acc (bytes ++ b :: rest) = (continueChar n acc bytes).append (b :: rest) := by
  induction n generalizing acc bytes with
  | zero => rfl
  | succ n ih =>
    cases bytes with
    | nil =>
      rw [List.nil_append, continueChar, continueChar, isContinuation_ascii hb]
      rfl
    | cons x bytes =>
      rw [List.cons_append, continueChar, continueChar]
      split
      · exact ih _
      · rfl

/-- A character ends before an ASCII byte at the latest. -/
theorem head_append (lead : UInt8) (hb : b.toNat < 128) :
    head lead (bytes ++ b :: rest) = (head lead bytes).append (b :: rest) := by
  unfold head
  split
  · rfl
  · cases hfollow : follow lead with
    | none => rfl
    | some f =>
      obtain ⟨n, allowed⟩ := f
      cases bytes with
      | nil =>
        rw [List.nil_append]
        simp only [follow_ascii hfollow hb]
        rfl
      | cons x bytes =>
        rw [List.cons_append]
        simp only
        split
        · exact continueChar_append _ _ hb
        · rfl

theorem decodeLossyChars_cons (lead : UInt8) (bytes : List UInt8) :
    decodeLossyChars (lead :: bytes) =
      match head lead bytes with
      | .char c rest => c :: decodeLossyChars rest
      | .broken rest => '\uFFFD' :: decodeLossyChars rest := by
  rw [decodeLossyChars]
  split <;> next h => rw [h]

/-- **An ASCII byte splits the text of any bytes.** -/
theorem decodeLossyChars_append (hb : b.toNat < 128) (bytes rest : List UInt8) :
    decodeLossyChars (bytes ++ b :: rest) =
      decodeLossyChars bytes ++ Char.ofNat b.toNat :: decodeLossyChars rest := by
  induction bytes using decodeLossyChars.induct with
  | case1 =>
    have hhead : head b rest = .char (Char.ofNat b.toNat) rest := if_pos hb
    rw [List.nil_append, decodeLossyChars_cons, hhead, decodeLossyChars, List.nil_append]
  | case2 lead bytes c rest' hhead ih =>
    rw [List.cons_append, decodeLossyChars_cons, decodeLossyChars_cons, head_append lead hb, hhead]
    exact congrArg _ ih
  | case3 lead bytes rest' hhead ih =>
    rw [List.cons_append, decodeLossyChars_cons, decodeLossyChars_cons, head_append lead hb, hhead]
    exact congrArg _ ih

theorem utf8EncodeChar_ascii (hb : b.toNat < 128) :
    String.utf8EncodeChar (Char.ofNat b.toNat) = [b] := by
  have hvalid : b.toNat.isValidChar := Or.inl (Nat.lt_trans hb (by decide))
  have hvalue : (Char.ofNat b.toNat).val.toNat = b.toNat := by
    rw [Char.ofNat, dif_pos hvalid]
    rfl
  unfold String.utf8EncodeChar
  simp only [hvalue]
  rw [if_pos (Nat.le_of_lt_succ hb), UInt8.ofNat_toNat]

/-- The same for the bytes of that text. -/
theorem encode_decodeLossy_append (hb : b.toNat < 128) (bytes rest : List UInt8) :
    encode (decodeLossy (bytes ++ b :: rest)) =
      encode (decodeLossy bytes) ++ b :: encode (decodeLossy rest) := by
  simp only [decodeLossy, encode_ofList]
  rw [decodeLossyChars_append hb, List.flatMap_append, List.flatMap_cons, utf8EncodeChar_ascii hb]
  rfl

/-- ASCII bytes are a text as they are. -/
theorem encode_decodeLossy_of_ascii (h : ∀ b ∈ bytes, b.toNat < 128) :
    encode (decodeLossy bytes) = bytes := by
  have hnil : encode (decodeLossy []) = [] := by
    rw [decodeLossy, decodeLossyChars, encode_ofList, List.flatMap_nil]
  induction bytes with
  | nil => exact hnil
  | cons b bytes ih =>
    obtain ⟨hb, hbytes⟩ := List.forall_mem_cons.1 h
    have hcons := encode_decodeLossy_append hb [] bytes
    rw [hnil, List.nil_append, List.nil_append] at hcons
    rw [hcons, ih hbytes]

end SvelteTypings.Text
