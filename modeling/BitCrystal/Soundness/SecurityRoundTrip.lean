import BitCrystal.Proofs.SecurityCodec

/-! # What the security codecs give back

A text is given back as long as the arrays of variable length on the way fit on the stack; no counter overflows before
that. From a length of 2^32 on an `unsigned int` forgets what is beyond.
-/

namespace BitCrystal

open Base64 Check

variable (keystream : ℕ → UInt8)

/-- Decoding gives back what was encoded. -/
def RoundTrips (encode decode : List UInt8 → Check (List UInt8)) (y : List UInt8) : Prop := (encode y >>= decode) = .ok y

/-- What one array of variable length may take: at most two of them are on the stack of 8 MiB at a time. -/
def arraySpace : ℕ := 2 ^ 21

theorem checkIndex_of_lt {len : ℕ} (short : len < 2 ^ 31) : checkIndex len = .ok () := if_neg (by omega)

variable {y text : List UInt8}

theorem encode_security_eq (short : size y.length < 2 ^ 31) :
    encode_security keystream y y.length = .ok (masked keystream (standard.encode y)) := by
  have low := le_size y.length
  have length : (standard.encode y).length % 2 ^ 32 = (standard.encode y).length := by
    rw [Base64.length_encode, Nat.mod_eq_of_lt (by omega)]
  rw [encode_security, base64_encode_eq (by omega)]
  change (do checkIndex ((standard.encode y).length % 2 ^ 32); _) = _
  rw [length, checkIndex_of_lt (by rwa [Base64.length_encode])]
  exact congrArg Except.ok (applyTable_eq keystream _)

theorem decode_security_eq (short : text.length < 2 ^ 31) :
    decode_security keystream text = .ok (standard.decode (masked keystream text)) := by
  rw [decode_security, Nat.mod_eq_of_lt (by omega), checkIndex_of_lt short, applyTable_eq]
  exact base64_decode_eq (by rwa [length_masked])

theorem decodeBase64Data_eq (short : text.length < 2 ^ 31) : decodeBase64Data text = .ok (standard.decode text) := by
  have less := @length_decode_le standard text
  rw [decodeBase64Data, decodeBase64_eq]
  change (do checkIndex (standard.decode text).length; _) = _
  rw [checkIndex_of_lt (by omega)]
  rfl

theorem encodeDataSecurity_eq (short : size y.length < 2 ^ 31) :
    encodeDataSecurity keystream y = .ok (standard.encode (masked keystream (standard.encode y))) := by
  rw [encodeDataSecurity, encode_security_eq keystream short]
  exact congrArg Except.ok (encodeBase64_eq _)

theorem decodeDataSecurity_eq (short : text.length < 2 ^ 31) :
    decodeDataSecurity keystream text = .ok (standard.decode (masked keystream (standard.decode text))) := by
  have less := @length_decode_le standard text
  rw [decodeDataSecurity, decodeBase64Data_eq short]
  exact decode_security_eq keystream (by omega)

/-- The arrays of one text fit, and so the counters reach the end of the next. -/
theorem size_lt_of_fits {n : ℕ} (fits : n ≤ arraySpace) : size n < 2 ^ 31 := by
  unfold arraySpace at fits
  unfold size
  omega

theorem encodeDataSecurity_roundTrips (fits : size y.length ≤ arraySpace) :
    RoundTrips (encodeDataSecurity keystream) (decodeDataSecurity keystream) y := by
  have short := size_lt_of_fits fits
  rw [RoundTrips, encodeDataSecurity_eq keystream ((le_size _).trans_lt short), ok_bind, decodeDataSecurity_eq,
    Base64.decode_encode, masked_masked, Base64.decode_encode]
  rwa [Base64.length_encode, length_masked, Base64.length_encode]

theorem encodeDataSecurityEmail_eq (short : size^[5] y.length < 2 ^ 31) :
    encodeDataSecurityEmail keystream y = .ok (standard.encode (masked keystream (standard.encode^[5] y))) := by
  have inner : size (standard.encode^[4] y).length < 2 ^ 31 := by
    rwa [length_iterate_encode, ← Function.iterate_succ_apply' size]
  have encode : encodeDataSecurityEmail keystream y = encodeDataSecurity keystream (standard.encode^[4] y) := by
    simp only [encodeDataSecurityEmail, encodeDataSecurity, encodeBase64Data, encodeBase64_eq]
    rfl
  rw [encode, encodeDataSecurity_eq keystream inner]
  rfl

theorem decodeDataSecurityEmail_eq (short : text.length < 2 ^ 31) : decodeDataSecurityEmail keystream text =
      .ok (standard.decode^[5] (masked keystream (standard.decode text))) := by
  have light {t : List UInt8} (small : t.length < 2 ^ 31) :
      decodeBase64DataLight t = .ok (standard.decode t) ∧ (standard.decode t).length < 2 ^ 31 :=
    ⟨decodeBase64Data_eq small, (length_decode_le t).trans_lt small⟩
  have less := (light short).2
  have one : (standard.decode (masked keystream (standard.decode text))).length < 2 ^ 31 :=
    (length_decode_le _).trans_lt (by rwa [length_masked])
  obtain ⟨first, two⟩ := light one
  obtain ⟨second, three⟩ := light two
  obtain ⟨third, four⟩ := light three
  rw [decodeDataSecurityEmail, decodeBase64Data_eq short, ok_bind, decode_security_eq keystream less, ok_bind,
    first, ok_bind, second, ok_bind, third, ok_bind, (light four).1]
  rfl

theorem encodeDataSecurityEmail_roundTrips (fits : size^[5] y.length ≤ arraySpace) :
    RoundTrips (encodeDataSecurityEmail keystream) (decodeDataSecurityEmail keystream) y := by
  have short := size_lt_of_fits fits
  rw [RoundTrips, encodeDataSecurityEmail_eq keystream ((le_size _).trans_lt short), ok_bind,
    decodeDataSecurityEmail_eq, Base64.decode_encode, masked_masked, decode_iterate_encode]
  rwa [Base64.length_encode, length_masked, length_iterate_encode]

theorem createmultisigaddressexText_roundTrips (fits : size y.length ≤ arraySpace) :
    RoundTrips (createmultisigaddressexText keystream) (addmultisigaddressexText keystream) y := by
  have short := size_lt_of_fits fits
  have small : (masked keystream (standard.encode y)).length < 2 ^ 31 := by
    rw [length_masked, Base64.length_encode]
    exact (le_size _).trans_lt short
  have encode : createmultisigaddressexText keystream y = .ok (standard.encode (masked keystream (standard.encode y))) := by
    rw [createmultisigaddressexText, encode_security_eq keystream ((le_size _).trans_lt short)]
    exact congrArg Except.ok (base64_encode_eq (by omega))
  rw [RoundTrips, encode, ok_bind, addmultisigaddressexText, base64_decode_eq, Base64.decode_encode, ok_bind,
    decode_security_eq keystream small, masked_masked, Base64.decode_encode]
  rwa [Base64.length_encode, length_masked, Base64.length_encode]

/-- A text comes back from each codec if the arrays on the way fit. -/
theorem securityCodecs_roundTrip (y : List UInt8) :
    (size y.length ≤ arraySpace → RoundTrips (encodeDataSecurity keystream) (decodeDataSecurity keystream) y) ∧
    (size^[5] y.length ≤ arraySpace →
      RoundTrips (encodeDataSecurityEmail keystream) (decodeDataSecurityEmail keystream) y) ∧
    (size y.length ≤ arraySpace →
      RoundTrips (createmultisigaddressexText keystream) (addmultisigaddressexText keystream) y) :=
  ⟨encodeDataSecurity_roundTrips keystream, encodeDataSecurityEmail_roundTrips keystream,
    createmultisigaddressexText_roundTrips keystream⟩

/-- Three bytes, one of them a zero, with the table of the code. -/
theorem securityCodecs_roundTrip_zero : let y : List UInt8 := [255, 0, 47]; let table := get_encoded_table_my
    RoundTrips (encodeDataSecurity table) (decodeDataSecurity table) y ∧
    RoundTrips (encodeDataSecurityEmail table) (decodeDataSecurityEmail table) y ∧
    RoundTrips (createmultisigaddressexText table) (addmultisigaddressexText table) y :=
  have laws := securityCodecs_roundTrip get_encoded_table_my [255, 0, 47]
  ⟨laws.1 (by decide), laws.2.1 (by decide), laws.2.2 (by decide)⟩

/-- Of 2^32 zeros nothing comes back: their number is 0 as an `unsigned int`. -/
theorem encodeDataSecurity_forgets : let y : List UInt8 := List.replicate (2 ^ 32) 0
    (encodeDataSecurity (fun _ => 2) y >>= decodeDataSecurity fun _ => 2) = .ok [] ∧ y ≠ [] := by
  intro y
  have length : y.length = 2 ^ 32 := List.length_replicate
  have empty : encodeDataSecurity (fun _ => 2) y = encodeDataSecurity (fun _ => 2) [] := by
    rw [encodeDataSecurity, encode_security, base64_encode, length, Nat.mod_self, List.take_zero]
    rfl
  refine ⟨?_, List.ne_nil_of_length_pos (by rw [length]; exact Nat.two_pow_pos 32)⟩
  rw [empty]
  decide

end BitCrystal
