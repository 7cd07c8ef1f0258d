import BitCrystal.Model.BaseTexts

/-! # Base 58 loses nothing

A text of base 58 is the transcription of the bytes from base 256. Encoding and decoding are inverse to each other for
everything that a message or a request can hold.
-/

namespace BitCrystal

open Positional LittleEndian CBigNum

/-- `pszBase58[digit]`. -/
def base58Char (digit : ℕ) : UInt8 := pszBase58.getD digit 0

private theorem alphabet : ∀ digit < 58, pszBase58.idxOf? (base58Char digit) = some digit ∧
    isspace (base58Char digit) = false ∧ base58Char digit ≠ 0 ∧ (base58Char digit = 49 ↔ digit = 0) := by decide

theorem idxOf_eq_some {c : UInt8} {digit : ℕ} (found : pszBase58.idxOf? c = some digit) :
    digit < 58 ∧ base58Char digit = c := by
  rw [List.idxOf?, List.findIdx?_eq_some_iff_getElem] at found
  obtain ⟨inside, same, -⟩ := found
  refine ⟨inside, ?_⟩
  rw [base58Char, List.getD_eq_getElem?_getD, List.getElem?_eq_getElem inside, Option.getD_some]
  exact beq_iff_eq.mp same

theorem idxOf_space {c : UInt8} (space : isspace c = true) : pszBase58.idxOf? c = none := by
  apply Option.eq_none_iff_forall_ne_some.mpr
  intro digit found
  obtain ⟨inside, rfl⟩ := idxOf_eq_some found
  rw [(alphabet digit inside).2.1] at space
  cases space

/-- A text without the white space around it. -/
def trim (str : List UInt8) : List UInt8 := (str.dropWhile isspace).rdropWhile isspace

variable {digits : List ℕ} {trail : List UInt8} {n : ℕ} {bytes : valtype} {str : List UInt8} {v : valtype}

theorem rdropWhile_digits (small : ∀ digit ∈ digits, digit < 58) (spaces : ∀ c ∈ trail, isspace c = true) :
    (digits.map base58Char ++ trail).rdropWhile isspace = digits.map base58Char := by
  have reversed : ∀ c ∈ trail.reverse, isspace c = true := fun c member => spaces c (List.mem_reverse.mp member)
  have stops : (digits.map base58Char).reverse.dropWhile isspace = (digits.map base58Char).reverse := by
    rw [← List.map_reverse]
    cases same : digits.reverse with
    | nil => rfl
    | cons digit rest =>
      have inside := small digit (List.mem_reverse.mp (same ▸ List.mem_cons_self))
      exact List.dropWhile_cons_of_neg (by rw [(alphabet digit inside).2.1]; decide)
  rw [List.rdropWhile, List.reverse_append, List.dropWhile_append_of_pos reversed, stops, List.reverse_reverse]

theorem trim_digits (small : ∀ digit ∈ digits, digit < 58) :
    trim (digits.map base58Char) = digits.map base58Char := by
  have start : (digits.map base58Char).dropWhile isspace = digits.map base58Char := by
    cases digits with
    | nil => rfl
    | cons digit rest =>
      have inside := small digit List.mem_cons_self
      exact List.dropWhile_cons_of_neg (by rw [(alphabet digit inside).2.1]; decide)
  have whole : (digits.map base58Char ++ []).rdropWhile isspace = digits.map base58Char := rdropWhile_digits small nofun
  rw [List.append_nil] at whole
  rw [trim, start, whole]

theorem base58Digits_eq {rounds : ℕ} (enough : n ≤ rounds) :
    base58Digits rounds n = (Nat.digits 58 n).map base58Char := by
  induction rounds generalizing n with
  | zero =>
    rw [Nat.le_zero.mp enough]
    rfl
  | succ rounds ih =>
    rw [base58Digits]
    split
    next positive =>
      have positive : 0 < n := Int.natCast_pos.mp positive
      have fewer : n / 58 ≤ rounds := by omega
      rw [Nat.digits_def' (by decide) positive, List.map_cons]
      exact congrArg _ (ih fewer)
    next zero =>
      have zero : n = 0 := by omega
      rw [zero]
      rfl

theorem decode_eq_ofDigits (bytes : List UInt8) : decode bytes = Nat.ofDigits 256 (bytes.map UInt8.toNat) := by
  induction bytes with
  | nil => rfl
  | cons byte bytes ih => rw [decode, ih, List.map_cons, Nat.ofDigits_cons]

theorem decode_concat_zero (bytes : valtype) : decode (bytes ++ [0]) = decode bytes := by
  rw [decode_eq_ofDigits, decode_eq_ofDigits, List.map_append]
  exact Nat.ofDigits_append_zero ..

theorem encode_concat (width n : ℕ) :
    encode (width + 1) n = encode width n ++ [UInt8.ofNat (n / 256 ^ width % 256)] := by
  induction width generalizing n with
  | zero => rw [pow_zero, Nat.div_one]; rfl
  | succ width ih =>
    rw [encode, ih, encode, List.cons_append, Nat.div_div_eq_div_mul, pow_succ']

/-- With a zero at the end the number of a byte string is not negative. -/
theorem setvch_unsigned (bytes : List UInt8) : setvch (bytes ++ [0]) = (decode bytes : ℕ) := by
  have bound := decode_lt bytes
  have sign : 256 ^ bytes.length ≤ 2 ^ (8 * (bytes ++ [0]).length - 1) := by
    rw [show (256 : ℕ) = 2 ^ 8 from rfl, ← pow_mul]
    apply Nat.pow_le_pow_right (by decide)
    rw [List.length_append, List.length_singleton]
    omega
  rw [setvch, decode_concat_zero]
  exact if_neg fun negative => absurd negative.2 (not_le.mpr (bound.trans_le sign))

/-- The lowest bytes of a number without a zero at the end are its digits. -/
theorem eq_digits (value : decode bytes = n)
    (last : ∀ byte ∈ bytes.getLast?, byte ≠ 0) : bytes = (Nat.digits 256 n).map UInt8.ofNat := by
  have digits : Nat.digits 256 n = bytes.map UInt8.toNat := by
    rw [← value, decode_eq_ofDigits]
    refine Nat.digits_ofDigits 256 (by decide) _ ?_ ?_
    · intro digit member
      obtain ⟨byte, -, rfl⟩ := List.mem_map.mp member
      exact byte.toNat_lt
    · intro nonempty zero
      rw [List.getLast_map] at zero
      exact last _ (List.getLast_mem_getLast? _) (UInt8.toNat_inj.mp zero)
  rw [digits, List.map_map]
  exact ((List.map_congr_left fun byte _ => UInt8.ofNat_toNat).trans (List.map_id bytes)).symm

theorem trimSign_sign {top : UInt8} (high : 0x80 ≤ top) : trimSign (bytes ++ [top] ++ [0]) = bytes ++ [top] := by
  have reversed : (bytes ++ [top] ++ [0]).reverse = 0 :: top :: bytes.reverse := by simp
  rw [trimSign, reversed]
  simp [high, ↓reduceIte]

theorem trimSign_top {top : UInt8} (nonzero : top ≠ 0) : trimSign (bytes ++ [top]) = bytes ++ [top] := by
  have reversed : (bytes ++ [top]).reverse = top :: bytes.reverse := by simp
  rw [trimSign, reversed]
  cases bytes.reverse with
  | nil => rfl
  | cons byte rest => simp only [nonzero, false_and, ↓reduceIte]

/-- The bytes of a number without the sign are its digits. -/
theorem trimSign_getvch (n : ℕ) : trimSign (getvch n) = (Nat.digits 256 n).map UInt8.ofNat := by
  rcases Nat.eq_zero_or_pos n with rfl | positive
  · rfl
  have nonzero : (n : ℤ) ≠ 0 := by omega
  obtain ⟨low, high⟩ := (Nat.log2_eq_iff positive.ne').mp (rfl : n.log2 = n.log2)
  have bytes : getvch n = encode ((n.log2 + 1) / 8 + 1) n := by
    rw [getvch, if_neg nonzero, if_neg (by omega)]
    rfl
  have fits : n < 256 ^ ((n.log2 + 1) / 8 + 1) := by
    rw [show (256 : ℕ) = 2 ^ 8 from rfl, ← pow_mul]
    exact high.trans_le (Nat.pow_le_pow_right (by decide) (by omega))
  have value := decode_encode fits
  generalize width : (n.log2 + 1) / 8 = w at *
  rw [bytes, encode_concat]
  rw [encode_concat] at value
  by_cases full : (n.log2 + 1) % 8 = 0
  · -- the highest bit of the magnitude is set, so a zero byte follows it
    obtain ⟨v, rfl⟩ : ∃ v, w = v + 1 := ⟨w - 1, by omega⟩
    have above : n < 256 ^ (v + 1) := by
      rw [show (256 : ℕ) = 2 ^ 8 from rfl, ← pow_mul]
      exact high.trans_le (Nat.pow_le_pow_right (by decide) (by omega))
    have half : 128 * 256 ^ v ≤ n := by
      refine le_trans ?_ low
      rw [show 128 * 256 ^ v = 2 ^ (7 + 8 * v) by rw [pow_add, pow_mul]; norm_num]
      exact Nat.pow_le_pow_right (by decide) (by omega)
    have top : 128 ≤ n / 256 ^ v ∧ n / 256 ^ v < 256 := by
      rw [pow_succ'] at above
      exact ⟨(Nat.le_div_iff_mul_le (by positivity)).mpr half, (Nat.div_lt_iff_lt_mul (by positivity)).mpr above⟩
    rw [Nat.div_eq_of_lt above] at value ⊢
    rw [encode_concat, Nat.mod_eq_of_lt top.2] at value ⊢
    have byte : (UInt8.ofNat (n / 256 ^ v)).toNat = n / 256 ^ v := UInt8.toNat_ofNat_of_lt' top.2
    have sign : 0x80 ≤ UInt8.ofNat (n / 256 ^ v) := by
      rw [UInt8.le_iff_toNat_le, byte]
      exact top.1
    refine (trimSign_sign sign).trans (eq_digits ((decode_concat_zero _).symm.trans value) fun last same => ?_)
    obtain rfl : _ = last := by simpa using same
    rintro zero
    rw [zero] at sign
    exact absurd sign (by decide)
  · have reached : 256 ^ w ≤ n := by
      refine le_trans ?_ low
      rw [show (256 : ℕ) = 2 ^ 8 from rfl, ← pow_mul]
      exact Nat.pow_le_pow_right (by decide) (by omega)
    have top : 0 < n / 256 ^ w ∧ n / 256 ^ w < 256 := by
      rw [pow_succ'] at fits
      exact ⟨Nat.div_pos reached (by positivity), (Nat.div_lt_iff_lt_mul (by positivity)).mpr fits⟩
    have byte : (UInt8.ofNat (n / 256 ^ w % 256)).toNat = n / 256 ^ w := by
      rw [UInt8.toNat_ofNat', Nat.mod_eq_of_lt top.2, Nat.mod_eq_of_lt top.2]
    have nonzero : UInt8.ofNat (n / 256 ^ w % 256) ≠ 0 := by
      intro zero
      rw [zero] at byte
      exact top.1.ne byte
    refine (trimSign_top nonzero).trans (eq_digits value fun last same => ?_)
    obtain rfl : _ = last := by simpa using same
    exact nonzero

/-! ## Encoding and decoding as transcriptions -/

/-- Bytes as digits. -/
def byteDigits (v : valtype) : List ℕ := v.map UInt8.toNat

theorem byteDigits_lt (v : valtype) : ∀ digit ∈ byteDigits v, digit < 256 := by
  intro digit member
  obtain ⟨byte, -, rfl⟩ := List.mem_map.mp member
  exact byte.toNat_lt

theorem ofNat_byteDigits (v : valtype) : (byteDigits v).map UInt8.ofNat = v := by
  rw [byteDigits, List.map_map]
  exact (List.map_congr_left fun byte _ => UInt8.ofNat_toNat).trans (List.map_id v)

theorem byteDigits_ofNat (small : ∀ digit ∈ digits, digit < 256) : byteDigits (digits.map UInt8.ofNat) = digits := by
  rw [byteDigits, List.map_map]
  refine (List.map_congr_left fun digit member => ?_).trans (List.map_id digits)
  exact UInt8.toNat_ofNat_of_lt' (small digit member)

/-- The zero bytes at the front. -/
def leadingZeroBytes (v : valtype) : ℕ := (v.takeWhile fun byte => byte == 0).length

theorem leadingZeroBytes_eq (v : valtype) : leadingZeroBytes v = leadingZeros (byteDigits v) := by
  induction v with
  | nil => rfl
  | cons byte v ih =>
    by_cases zero : byte = 0
    · subst zero
      exact congrArg Nat.succ ih
    · have nonzero : byte.toNat ≠ 0 := fun same => zero (UInt8.toNat_inj.mp same)
      simp [leadingZeroBytes, leadingZeros, byteDigits, zero, nonzero]

theorem encodeBase58_eq (v : valtype) :
    encodeBase58 v = (transcribe 256 58 (byteDigits v)).map base58Char := by
  have value : setvch (v.reverse ++ [0]) = (number 256 (byteDigits v) : ℕ) := by
    rw [setvch_unsigned, decode_eq_ofDigits, number, byteDigits, List.map_reverse]
  have zeros : ((v.takeWhile fun byte => byte == 0).map fun _ => pszBase58.getD 0 0) =
      List.replicate (leadingZeros (byteDigits v)) (base58Char 0) := by
    rw [List.map_const', ← leadingZeroBytes_eq]
    rfl
  unfold encodeBase58
  simp only [value, Int.toNat_natCast, base58Digits_eq le_rfl, zeros]
  rw [transcribe, List.reverse_append, List.reverse_replicate, List.map_append, List.map_replicate, List.map_reverse]

/-- The loop takes digits with white space behind them. -/
theorem decodeBase58Digits_eq_some {p : List UInt8} {bn : ℤ} : decodeBase58Digits p n = some bn ↔
    ∃ (digits : List ℕ) (trail : List UInt8), p = digits.map base58Char ++ trail ∧ (∀ digit ∈ digits, digit < 58) ∧
      (∀ c ∈ trail, isspace c = true) ∧ bn = (digits.foldl (fun n digit => digit + 58 * n) n : ℕ) := by
  constructor
  · intro decoded
    induction p generalizing n with
    | nil =>
      cases decoded
      exact ⟨[], [], rfl, nofun, nofun, rfl⟩
    | cons c p ih =>
      rw [decodeBase58Digits] at decoded
      split at decoded
      next =>
        split at decoded
        next spaces =>
          cases decoded
          exact ⟨[], c :: p, rfl, nofun, List.dropWhile_eq_nil_iff.mp spaces, rfl⟩
        next => cases decoded
      next digit found =>
        obtain ⟨inside, rfl⟩ := idxOf_eq_some found
        have next : (n * 58 + digit : ℤ) = (digit + 58 * n : ℕ) := by
          push_cast
          omega
        rw [next] at decoded
        obtain ⟨digits, trail, rfl, small, spaces, rfl⟩ := ih decoded
        exact ⟨digit :: digits, trail, rfl, List.forall_mem_cons.mpr ⟨inside, small⟩, spaces, rfl⟩
  · rintro ⟨digits, trail, rfl, small, spaces, rfl⟩
    induction digits generalizing n with
    | nil =>
      cases trail with
      | nil => rfl
      | cons c trail =>
        have absent := idxOf_space (spaces c List.mem_cons_self)
        rw [List.map_nil, List.nil_append, decodeBase58Digits, absent]
        exact if_pos (List.dropWhile_eq_nil_iff.mpr spaces)
    | cons digit digits ih =>
      rw [List.forall_mem_cons] at small
      have next : (n * 58 + digit : ℤ) = (digit + 58 * n : ℕ) := by
        push_cast
        omega
      rw [List.map_cons, List.cons_append, decodeBase58Digits, (alphabet digit small.1).1]
      exact (congrArg _ next).trans (ih small.2)

theorem leadingOnes (small : ∀ digit ∈ digits, digit < 58) (spaces : ∀ c ∈ trail, isspace c = true) :
    ((digits.map base58Char ++ trail).takeWhile fun c => c == pszBase58.getD 0 0).length = leadingZeros digits := by
  induction digits with
  | nil =>
    cases trail with
    | nil => rfl
    | cons c trail =>
      have other : ¬(c == pszBase58.getD 0 0) = true := by
        intro one
        have space := spaces c List.mem_cons_self
        rw [beq_iff_eq.mp one] at space
        exact absurd space (by decide)
      rw [List.map_nil, List.nil_append, List.takeWhile_cons_of_neg (p := fun c => c == pszBase58.getD 0 0) other]
      rfl
  | cons digit digits ih =>
    rw [List.forall_mem_cons] at small
    have first : (base58Char digit == pszBase58.getD 0 0) = (digit == 0) := by
      rw [Bool.eq_iff_iff, beq_iff_eq, beq_iff_eq]
      exact (alphabet digit small.1).2.2.2
    rw [List.map_cons, List.cons_append, leadingZeros, List.takeWhile_cons, List.takeWhile_cons, first]
    split
    · exact congrArg Nat.succ (ih small.2)
    · rfl

theorem decodeBase58_digits (small : ∀ digit ∈ digits, digit < 58) (spaces : ∀ c ∈ trail, isspace c = true)
    (same : (cString str).dropWhile isspace = digits.map base58Char ++ trail) :
    decodeBase58 str = if 2 ^ 31 ≤ leadingZeros digits then .error .overflow
      else .ok (some ((transcribe 58 256 digits).map UInt8.ofNat)) := by
  have decoded : decodeBase58Digits (digits.map base58Char ++ trail) 0 = some ((number 58 digits : ℕ) : ℤ) := by
    rw [number_eq_foldl]
    exact decodeBase58Digits_eq_some.mpr ⟨digits, trail, rfl, small, spaces, rfl⟩
  simp only [decodeBase58, same, decoded, leadingOnes small spaces, trimSign_getvch, rejectIf]
  split
  · rfl
  · rw [transcribe, List.map_append, List.map_replicate, List.map_reverse]
    rfl

/-- Decoding is the transcription of the text without the white space around it. -/
theorem decodeBase58_eq_ok : decodeBase58 str = .ok (some v) ↔
    ∃ digits, (∀ digit ∈ digits, digit < 58) ∧ trim (cString str) = digits.map base58Char ∧
      leadingZeros digits < 2 ^ 31 ∧ v = (transcribe 58 256 digits).map UInt8.ofNat := by
  constructor
  · intro decoded
    cases loop : decodeBase58Digits ((cString str).dropWhile isspace) 0 with
    | none =>
      simp only [decodeBase58, loop] at decoded
      cases decoded
    | some bn =>
      obtain ⟨digits, trail, same, small, spaces, -⟩ := decodeBase58Digits_eq_some.mp loop
      rw [decodeBase58_digits small spaces same] at decoded
      split at decoded
      next => cases decoded
      next countable =>
        refine ⟨digits, small, ?_, not_le.mp countable, ?_⟩
        · rw [trim, same, rdropWhile_digits small spaces]
        · cases decoded
          rfl
  · rintro ⟨digits, small, same, countable, rfl⟩
    have split := (List.rdropWhile_append_rtakeWhile (p := isspace) (l := (cString str).dropWhile isspace)).symm
    rw [show List.rdropWhile isspace _ = _ from same] at split
    rw [decodeBase58_digits small (fun c => List.mem_rtakeWhile_imp) split, if_neg (not_le.mpr countable)]

/-- A text is decoded to the bytes that it encodes. -/
theorem decodeBase58_iff : decodeBase58 str = .ok (some v) ↔
    trim (cString str) = encodeBase58 v ∧ leadingZeroBytes v < 2 ^ 31 := by
  rw [decodeBase58_eq_ok, encodeBase58_eq, leadingZeroBytes_eq]
  constructor
  · rintro ⟨digits, small, same, countable, rfl⟩
    rw [byteDigits_ofNat (transcribe_lt (by decide)), transcribe_transcribe (by decide) small,
      leadingZeros_transcribe]
    exact ⟨same, countable⟩
  · rintro ⟨same, countable⟩
    refine ⟨_, transcribe_lt (by decide), same, ?_, ?_⟩
    · rwa [leadingZeros_transcribe]
    · rw [transcribe_transcribe (by decide) (byteDigits_lt v), ofNat_byteDigits]

theorem cString_encodeBase58 (v : valtype) : cString (encodeBase58 v) = encodeBase58 v := by
  rw [encodeBase58_eq, cString, List.takeWhile_eq_self_iff]
  intro c member
  obtain ⟨digit, inside, rfl⟩ := List.mem_map.mp member
  exact bne_iff_ne.mpr (alphabet digit (transcribe_lt (by decide) digit inside)).2.2.1

theorem trim_encodeBase58 (v : valtype) : trim (encodeBase58 v) = encodeBase58 v := by
  rw [encodeBase58_eq]
  exact trim_digits (transcribe_lt (by decide))

theorem decodeBase58Check_eq_ok {hash2 : valtype → Uint256} :
    decodeBase58Check hash2 str = .ok (some v) ↔ decodeBase58 str = .ok (some (v ++ checksum hash2 v)) := by
  have size := length_checksum hash2 v
  have whole : (v ++ checksum hash2 v).length - 4 = v.length := by
    rw [List.length_append, size, Nat.add_sub_cancel]
  rw [decodeBase58Check, Check.bind_eq_ok]
  constructor
  · rintro ⟨ret, decoded, checked⟩
    cases ret with
    | none => cases checked
    | some vchRet =>
      simp only at checked
      split at checked
      next => cases checked
      next =>
        split at checked
        next same =>
          cases checked
          rw [decoded, same, List.take_append_drop]
        next => cases checked
  · intro decoded
    refine ⟨_, decoded, ?_⟩
    have enough : ¬(v ++ checksum hash2 v).length < 4 := by
      rw [List.length_append, size]
      omega
    simp only [if_neg enough, whole, List.take_left, List.drop_left, if_true]
    rfl

theorem leadingZeroBytes_le_length (v : valtype) : leadingZeroBytes v ≤ v.length :=
  (List.takeWhile_prefix _).length_le

/-- The encoding of the bytes is as long as a text at most that it is read from. -/
theorem leadingZeroBytes_le {s : List UInt8} (same : trim (cString s) = encodeBase58 v) :
    leadingZeroBytes v ≤ s.length := by
  have zeros : leadingZeroBytes v ≤ (encodeBase58 v).length := by
    rw [encodeBase58_eq, leadingZeroBytes_eq, List.length_map, ← leadingZeros_transcribe (a := 256) (b := 58)]
    exact (List.takeWhile_prefix _).length_le
  rw [← same] at zeros
  apply zeros.trans
  apply (List.rdropWhile_prefix isspace _).length_le.trans
  apply (List.dropWhile_suffix isspace).length_le.trans
  exact (List.takeWhile_prefix _).length_le

/-- As long as a message or a request is not too long, decoding what has been encoded gives it back, a text that is
decoded is the encoding of the bytes, and those with their checksum are accepted just when a text is the encoding of
both. -/
theorem base58_laws (hash2 : valtype → Uint256) :
    (∀ v, v.length ≤ MAX_SIZE → decodeBase58 (encodeBase58 v) = .ok (some v)) ∧
    (∀ s v, s.length ≤ MAX_SIZE → decodeBase58 s = .ok (some v) → encodeBase58 v = trim (cString s)) ∧
    ∀ s v, s.length ≤ MAX_SIZE →
      (decodeBase58Check hash2 s = .ok (some v) ↔ trim (cString s) = encodeBase58Check hash2 v) := by
  have countable : MAX_SIZE < 2 ^ 31 := by decide
  refine ⟨fun v short => ?_, fun s v _ decoded => (decodeBase58_iff.mp decoded).1.symm, fun s v short => ?_⟩
  · rw [decodeBase58_iff, cString_encodeBase58, trim_encodeBase58]
    exact ⟨rfl, ((leadingZeroBytes_le_length v).trans short).trans_lt countable⟩
  · rw [decodeBase58Check_eq_ok, decodeBase58_iff, encodeBase58Check]
    exact and_iff_left_of_imp fun same => ((leadingZeroBytes_le same).trans short).trans_lt countable

/-- The text ` 2g` is the encoding of the byte 61. -/
theorem base58_laws_spaced :
    decodeBase58 (encodeBase58 [0, 0, 0x61]) = .ok (some [0, 0, 0x61]) ∧
    encodeBase58 [0x61] = trim (cString [32, 50, 103]) ∧
    (decodeBase58Check (fun _ => 0) [32, 50, 103] = .ok (some [0x61]) ↔
      trim (cString [32, 50, 103]) = encodeBase58Check (fun _ => 0) [0x61]) := by
  obtain ⟨back, text, checked⟩ := base58_laws fun _ => 0
  exact ⟨back _ (by decide), text [32, 50, 103] [0x61] (by decide) (by decide), checked _ _ (by decide)⟩

theorem leadingZeroBytes_replicate (n : ℕ) : leadingZeroBytes (List.replicate n 0) = n := by
  rw [leadingZeroBytes, List.takeWhile_replicate, if_pos (beq_self_eq_true _), List.length_replicate]

/-- More zero bytes than an `int` counts. -/
theorem base58_not_counted :
    decodeBase58 (encodeBase58 (List.replicate (2 ^ 31) 0)) ≠ .ok (some (List.replicate (2 ^ 31) 0)) := by
  intro decoded
  have countable := (decodeBase58_iff.mp decoded).2
  rw [leadingZeroBytes_replicate] at countable
  exact lt_irrefl _ countable

end BitCrystal
