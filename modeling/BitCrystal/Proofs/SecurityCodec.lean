import BitCrystal.Model.SecurityCodec

/-! # Two implementations of one base 64

Both encoders write the same text, and both decoders read it back as far as their counters reach.
-/

namespace BitCrystal

set_option maxRecDepth 4000 in
/-- What the tables say of each character. -/
private theorem table_facts (c : UInt8) : (∀ n ∈ decode64_table c, n < 64 ∧ pbase64 n = c ∧ base64Find c = n) ∧
    ((c ≠ 61 ∧ is_base64 c = true) ↔ (decode64_table c).isSome = true) := by
  have each : ∀ k : Fin 256, let c := UInt8.ofNat k
      (∀ n ∈ decode64_table c, n < 64 ∧ pbase64 n = c ∧ base64Find c = n) ∧
        ((c ≠ 61 ∧ is_base64 c = true) ↔ (decode64_table c).isSome = true) := by decide
  have this := each ⟨c.toNat, c.toNat_lt⟩
  rwa [UInt8.ofNat_toNat] at this

/-- The digits of both implementations. -/
def standard : Base64 where
  digit := pbase64
  value := decode64_table
  pad := 61
  value_digit := by decide
  digit_value c n found := ⟨((table_facts c).1 n found).1, ((table_facts c).1 n found).2.1⟩
  value_pad := rfl

variable {c : UInt8} {n : ℕ} {char_array_4 : List UInt8} {group : List ℕ}

theorem decode64_table_lt (found : decode64_table c = some n) : n < 64 :=
  ((table_facts c).1 n found).1

theorem two_bits (n : ℕ) : n &&& 3 = n % 4 := Nat.and_two_pow_sub_one_eq_mod n 2

theorem four_bits (n : ℕ) : n &&& 15 = n % 16 := Nat.and_two_pow_sub_one_eq_mod n 4

theorem six_bits (n : ℕ) : n &&& 63 = n % 64 := Nat.and_two_pow_sub_one_eq_mod n 6

/-- High bits are joined with low ones. -/
theorem join_bits (high : ℕ) {low width : ℕ} (fits : low < 2 ^ width) : high <<< width ||| low = high * 2 ^ width + low := by
  rw [Nat.shiftLeft_eq, Nat.mul_comm, Nat.two_pow_add_eq_or_of_lt fits]

theorem encodeBase64_eq (pch : List UInt8) : encodeBase64 pch = standard.encode pch := by
  unfold encodeBase64
  induction pch using Base64.encode.induct with
  | case1 a b c rest ih =>
    have lowB := b.toNat_lt
    have lowC := c.toNat_lt
    simp only [encodeBase64Loop, Base64.encode, ih, two_bits, four_bits, six_bits, Nat.shiftRight_eq_div_pow]
    rw [join_bits _ (by omega), join_bits _ (by omega)]
    rfl
  | case2 a b =>
    have lowB := b.toNat_lt
    simp only [encodeBase64Loop, Base64.encode, two_bits, four_bits, Nat.shiftRight_eq_div_pow]
    rw [join_bits _ (by omega), Nat.shiftLeft_eq]
    rfl
  | case3 a =>
    simp only [encodeBase64Loop, Base64.encode, two_bits, Nat.shiftRight_eq_div_pow, Nat.shiftLeft_eq]
    rfl
  | case4 => rfl

open Base64 in
/-- The loop in each of its modes; `w`, `x` and `y` are the values read before. -/
theorem decodeBase64Run_eq (text : List UInt8) :
    (decodeBase64Run .none text).1 = bytes (standard.values text) ∧
    (∀ w, (decodeBase64Run (.six w) text).1 = bytes (w :: standard.values text)) ∧
    (∀ w x, UInt8.ofNat (w * 4 + x / 16) :: (decodeBase64Run (.four (x % 16)) text).1 =
      bytes (w :: x :: standard.values text)) ∧
    ∀ w x y, UInt8.ofNat (w * 4 + x / 16) :: UInt8.ofNat (x % 16 * 16 + y / 4) ::
      (decodeBase64Run (.two (y % 4)) text).1 = bytes (w :: x :: y :: standard.values text) := by
  induction text with
  | nil => exact ⟨rfl, fun _ => rfl, fun _ _ => rfl, fun _ _ _ => rfl⟩
  | cons c text ih =>
    obtain ⟨start, six, four, two⟩ := ih
    cases found : decode64_table c with
    | none =>
      rw [@values_stop standard c found text]
      simp only [decodeBase64Run, found]
      exact ⟨rfl, fun _ => rfl, fun _ _ => rfl, fun _ _ _ => rfl⟩
    | some n =>
      have small := decode64_table_lt found
      rw [@values_cons standard c n found text]
      simp only [decodeBase64Run, found, two_bits, four_bits, Nat.shiftRight_eq_div_pow, Prod.map_fst]
      refine ⟨six n, fun w => ?_, fun w x => ?_, fun w x y => ?_⟩
      · rw [join_bits _ (show n / 2 ^ 4 < 2 ^ 2 by omega)]
        exact four w n
      · rw [join_bits _ (show n / 2 ^ 2 < 2 ^ 4 by omega)]
        exact two w x n
      · rw [join_bits _ (show n < 2 ^ 6 from small), start]
        rfl

theorem decodeBase64_eq (p : List UInt8) : decodeBase64 p = standard.decode p := (decodeBase64Run_eq p).1

/-! ## base64.cpp -/

theorem base64Char_eq (small : n < 64) : base64Char n = pbase64 n := by
  have each : ∀ n < 64, base64Char n = pbase64 n := by decide
  exact each n small

set_option maxRecDepth 4000 in
/-- The masks of `base64_encode` on one byte. -/
private theorem masks (a : UInt8) : (a.toNat &&& 0xfc) >>> 2 = a.toNat / 4 ∧ (a.toNat &&& 0x03) <<< 4 = a.toNat % 4 * 16 ∧
    (a.toNat &&& 0xf0) >>> 4 = a.toNat / 16 ∧ (a.toNat &&& 0x0f) <<< 2 = a.toNat % 16 * 4 ∧
    (a.toNat &&& 0xc0) >>> 6 = a.toNat / 64 ∧ a.toNat &&& 0x3f = a.toNat % 64 := by
  have each : ∀ k : Fin 256, (k.val &&& 0xfc) >>> 2 = k.val / 4 ∧ (k.val &&& 0x03) <<< 4 = k.val % 4 * 16 ∧
      (k.val &&& 0xf0) >>> 4 = k.val / 16 ∧ (k.val &&& 0x0f) <<< 2 = k.val % 16 * 4 ∧
      (k.val &&& 0xc0) >>> 6 = k.val / 64 ∧ k.val &&& 0x3f = k.val % 64 := by decide
  exact each ⟨a.toNat, a.toNat_lt⟩

theorem base64EncodeLoop_eq (data : List UInt8) : base64EncodeLoop data = standard.encode data := by
  have digit (n : ℕ) : standard.digit n = pbase64 n := rfl
  induction data using Base64.encode.induct with
  | case1 a b c rest ih =>
    have lowA := a.toNat_lt
    have lowB := b.toNat_lt
    have lowC := c.toNat_lt
    simp only [base64EncodeLoop, Base64.encode, quadOf, masks, List.map_cons, List.map_nil, List.cons_append,
      List.nil_append, ih, digit]
    rw [base64Char_eq (by omega), base64Char_eq (by omega), base64Char_eq (by omega), base64Char_eq (by omega)]
  | case2 a b =>
    have lowA := a.toNat_lt
    have lowB := b.toNat_lt
    simp only [base64EncodeLoop, Base64.encode, quadOf, masks, List.map_cons, List.map_nil, List.take_succ_cons,
      List.take_zero, List.cons_append, List.nil_append, digit, UInt8.toNat_zero, Nat.zero_and, Nat.zero_shiftRight, Nat.add_zero]
    rw [base64Char_eq (by omega), base64Char_eq (by omega), base64Char_eq (by omega)]
    rfl
  | case3 a =>
    have lowA := a.toNat_lt
    simp only [base64EncodeLoop, Base64.encode, quadOf, masks, List.map_cons, List.map_nil, List.take_succ_cons,
      List.take_zero, List.cons_append, List.nil_append, digit, UInt8.toNat_zero, Nat.zero_and, Nat.zero_shiftRight, Nat.add_zero]
    rw [base64Char_eq (by omega), base64Char_eq (by omega)]
    rfl
  | case4 => rfl

theorem base64_encode_eq {data : List UInt8} (short : data.length < 2 ^ 32) :
    base64_encode data data.length = standard.encode data := by
  rw [base64_encode, base64EncodeLoop_eq, Nat.mod_eq_of_lt short, List.take_length]

theorem is_base64_iff (c : UInt8) : (c ≠ 61 ∧ is_base64 c = true) ↔ (decode64_table c).isSome = true := (table_facts c).2

theorem base64Find_eq (found : decode64_table c = some n) : base64Find c = n :=
  ((table_facts c).1 n found).2.2

/-- The masks of `base64_decode` on values of six bits. -/
private theorem valueMasks {w x y z : ℕ} (_ : w < 64) (x64 : x < 64) (y64 : y < 64) (_ : z < 64) :
    (w <<< 2) + ((x &&& 0x30) >>> 4) = w * 4 + x / 16 ∧ ((x &&& 0xf) <<< 4) + ((y &&& 0x3c) >>> 2) = x % 16 * 16 + y / 4 ∧
      ((y &&& 0x3) <<< 6) + z = y % 4 * 64 + z := by
  have each : ∀ k < 64, (k &&& 0x30) >>> 4 = k / 16 ∧ (k &&& 0x3c) >>> 2 = k / 4 := by decide
  rw [(each x x64).1, (each y y64).2, two_bits, four_bits, Nat.shiftLeft_eq, Nat.shiftLeft_eq, Nat.shiftLeft_eq]
  exact ⟨rfl, rfl, rfl⟩

/-- The characters of a group that is being filled. -/
def Holds (char_array_4 : List UInt8) (group : List ℕ) : Prop := char_array_4.map decode64_table = group.map some

theorem Holds.push (holds : Holds char_array_4 group)
    (found : decode64_table c = some n) : Holds (char_array_4 ++ [c]) (group ++ [n]) := by
  unfold Holds at holds ⊢
  rw [List.map_append, List.map_append, holds, List.map_singleton, List.map_singleton, found]

theorem Holds.length (holds : Holds char_array_4 group) : char_array_4.length = group.length := by
  have same := congrArg List.length holds
  rwa [List.length_map, List.length_map] at same

theorem Holds.cons {char_array_4 : List UInt8} {n : ℕ} {group : List ℕ} (holds : Holds char_array_4 (n :: group)) :
    ∃ c rest, char_array_4 = c :: rest ∧ decode64_table c = some n ∧ Holds rest group := by
  obtain ⟨c, rest, same, found, holds⟩ := List.map_eq_cons_iff.mp holds
  exact ⟨c, rest, same, found, holds⟩

theorem Holds.nil (holds : Holds char_array_4 []) : char_array_4 = [] :=
  List.map_eq_nil_iff.mp holds

theorem tripleOf_eq {w x y z : ℕ} (holds : Holds char_array_4 [w, x, y, z]) :
    tripleOf char_array_4 = Base64.bytes [w, x, y, z] := by
  obtain ⟨a, _, rfl, first, holds⟩ := holds.cons
  obtain ⟨b, _, rfl, second, holds⟩ := holds.cons
  obtain ⟨c, _, rfl, third, holds⟩ := holds.cons
  obtain ⟨d, _, rfl, fourth, holds⟩ := holds.cons
  cases holds.nil
  obtain ⟨one, two, three⟩ := valueMasks (decode64_table_lt first) (decode64_table_lt second)
    (decode64_table_lt third) (decode64_table_lt fourth)
  simp only [tripleOf, List.map_cons, List.map_nil, base64Find_eq first, base64Find_eq second, base64Find_eq third,
    base64Find_eq fourth, one, two, three]
  rfl

/-- The zeros a last group is filled with do not reach its bytes. -/
theorem tailOf_eq (holds : Holds char_array_4 group)
    (short : group.length < 4) : tailOf char_array_4 = Base64.bytes group := by
  match group, short with
  | [], _ =>
    cases holds.nil
    rfl
  | [w], _ =>
    obtain ⟨a, _, rfl, -, holds⟩ := holds.cons
    cases holds.nil
    rfl
  | [w, x], _ =>
    obtain ⟨a, _, rfl, first, holds⟩ := holds.cons
    obtain ⟨b, _, rfl, second, holds⟩ := holds.cons
    cases holds.nil
    obtain ⟨one, -, -⟩ := valueMasks (decode64_table_lt first) (decode64_table_lt second) (y := 0) (z := 0)
      (by decide) (by decide)
    simp only [tailOf, tripleOf, List.length_cons, List.length_nil, List.cons_append, List.nil_append,
      List.replicate, List.map_cons, List.map_nil, base64Find_eq first, base64Find_eq second, one]
    rfl
  | [w, x, y], _ =>
    obtain ⟨a, _, rfl, first, holds⟩ := holds.cons
    obtain ⟨b, _, rfl, second, holds⟩ := holds.cons
    obtain ⟨c, _, rfl, third, holds⟩ := holds.cons
    cases holds.nil
    obtain ⟨one, two, -⟩ := valueMasks (decode64_table_lt first) (decode64_table_lt second) (decode64_table_lt third)
      (z := 0) (by decide)
    simp only [tailOf, tripleOf, List.length_cons, List.length_nil, List.cons_append, List.nil_append,
      List.replicate, List.map_cons, List.map_nil, base64Find_eq first, base64Find_eq second, base64Find_eq third, one, two]
    rfl

theorem base64DecodeLoop_cons {in_len : ℤ} (more : in_len ≠ -2 ^ 31) (char_array_4 : List UInt8) (c : UInt8)
    (text : List UInt8) : base64DecodeLoop in_len char_array_4 (c :: text) =
      if in_len ≠ 0 ∧ c ≠ 61 ∧ is_base64 c then
        if char_array_4.length = 3 then do
          let ret ← base64DecodeLoop (in_len - 1) [] text
          return tripleOf (char_array_4 ++ [c]) ++ ret
        else base64DecodeLoop (in_len - 1) (char_array_4 ++ [c]) text
      else .ok (tailOf char_array_4) := by
  rw [base64DecodeLoop, rejectIf, if_neg more]
  rfl

/-- The loop with a length that is large enough for what is left. -/
theorem base64DecodeLoop_eq {text : List UInt8} {char_array_4 : List UInt8} {group : List ℕ} {in_len : ℤ}
    (holds : Holds char_array_4 group) (short : group.length < 4) (enough : in_len = text.length) :
    base64DecodeLoop in_len char_array_4 text = .ok (Base64.bytes (group ++ standard.values text)) := by
  induction text generalizing char_array_4 group in_len with
  | nil =>
    rw [base64DecodeLoop, rejectIf, if_neg (by rw [enough]; decide), tailOf_eq holds short]
    rw [show standard.values [] = [] from rfl, List.append_nil]
    rfl
  | cons c text ih =>
    rw [List.length_cons] at enough
    rw [base64DecodeLoop_cons (by omega)]
    cases found : decode64_table c with
    | none =>
      have stop : ¬ (c ≠ 61 ∧ is_base64 c = true) := by rw [is_base64_iff, found]; exact nofun
      rw [if_neg fun goes => stop goes.2, @Base64.values_stop standard c found text, List.append_nil,
        tailOf_eq holds short]
    | some n =>
      have goes : c ≠ 61 ∧ is_base64 c = true := by rw [is_base64_iff, found]; rfl
      rw [if_pos ⟨by omega, goes⟩, @Base64.values_cons standard c n found text, holds.length]
      split
      next full =>
        rw [@ih [] [] _ rfl (by decide) (by omega)]
        match group, full with
        | [w, x, y], _ =>
          have triple : tripleOf (char_array_4 ++ [c]) = Base64.bytes [w, x, y, n] := tripleOf_eq (holds.push found)
          rw [triple]
          rfl
      next more =>
        have filled : (group ++ [n]).length < 4 := by
          rw [List.length_append, List.length_singleton]
          omega
        rw [ih (holds.push found) filled (by omega), List.append_assoc]
        rfl

/-- The decoder with `int` counters reads every text that is shorter than 2^31. -/
theorem base64_decode_eq {encoded_string : List UInt8} (short : encoded_string.length < 2 ^ 31) :
    base64_decode encoded_string = .ok (standard.decode encoded_string) := by
  have enough : (encoded_string.length : ℤ).bmod (2 ^ 32) = encoded_string.length := by
    rw [Int.bmod_def]
    split <;> omega
  exact @base64DecodeLoop_eq encoded_string [] [] _ rfl (by decide) enough

/-- The table has seven bits. -/
theorem get_encoded_table_my_lt (i : ℕ) : get_encoded_table_my i < 128 := by
  rw [get_encoded_table_my, List.getD_eq_getElem?_getD]
  generalize found : (((rands _ _).map _).filter _)[i]? = drawn
  cases drawn with
  | none => decide
  | some number =>
    obtain ⟨draw, -, rfl⟩ := List.mem_map.mp (List.mem_of_mem_filter (List.mem_of_getElem? found))
    rw [Option.getD_some, UInt8.lt_iff_toNat_lt, UInt8.toNat_ofNat']
    exact (Nat.mod_le ..).trans_lt ((Nat.mod_lt draw (by decide)).trans (by decide))

/-- A text with the table of the stream applied to all of it. -/
def masked (keystream : ℕ → UInt8) (text : List UInt8) : List UInt8 := text.mapIdx fun i c => c ^^^ keystream i

section

variable (keystream : ℕ → UInt8)

@[simp] theorem length_masked (text : List UInt8) : (masked keystream text).length = text.length :=
  List.length_mapIdx

theorem applyTable_eq (text : List UInt8) : applyTable keystream text.length text = masked keystream text := by
  apply List.ext_getElem?
  intro i
  rw [applyTable, masked, List.getElem?_mapIdx, List.getElem?_mapIdx]
  cases found : text[i]? with
  | none => rfl
  | some c =>
    have inside := (List.getElem?_eq_some_iff.mp found).1
    rw [Option.map_some, Option.map_some, if_pos inside]

theorem masked_masked (text : List UInt8) : masked keystream (masked keystream text) = text := by
  apply List.ext_getElem?
  intro i
  rw [masked, masked, List.getElem?_mapIdx, List.getElem?_mapIdx]
  cases text[i]? with
  | none => rfl
  | some c => rw [Option.map_some, Option.map_some, UInt8.xor_assoc, UInt8.xor_self, UInt8.xor_zero]

theorem take_masked (text : List UInt8) (k : ℕ) :
    (masked keystream text).take k = masked keystream (text.take k) := by
  apply List.ext_getElem?
  intro i
  rw [masked, masked, List.getElem?_take, List.getElem?_mapIdx, List.getElem?_mapIdx, List.getElem?_take]
  split
  next => rfl
  next => rfl

theorem prefix_masked {text text' : List UInt8} (start : text <+: text') :
    masked keystream text <+: masked keystream text' := by
  obtain ⟨more, rfl⟩ := start
  rw [masked, masked, List.mapIdx_append]
  exact List.prefix_append ..

/-- What a text shows is seen through the stream. -/
theorem shows_masked {k : ℕ} {text text' : List UInt8} (shows : Base64.Shows k text text') :
    Base64.Shows k (masked keystream text) (masked keystream text') := by
  constructor
  · rw [take_masked]
    exact prefix_masked keystream shows.1
  · rw [length_masked]
    exact fun less => congrArg _ (shows.2 less)

end

end BitCrystal
