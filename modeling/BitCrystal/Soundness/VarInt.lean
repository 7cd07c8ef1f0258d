import BitCrystal.Machine.Numerals
import BitCrystal.Model.CoinCodec

/-! # Variable-length integers have one encoding, within the range of the type

The writer gives every number of an unsigned type the bytes that the reader takes for it. The reader does not notice
when the bytes exceed the range of the type, and then they are not what is written for the number it returns.
-/

namespace BitCrystal

open BijectiveNumeral

/-- The digits behind the last byte, the lowest first. -/
def varIntDigitsOf (bytes : List UInt8) : List ℕ := bytes.map fun chData => chData.toNat % 128

/-- The number that the comment of the format assigns to a byte sequence. -/
def varIntNumber (bytes : List UInt8) : ℕ :=
  match bytes.reverse with
  | [] => 0
  | last :: continued => last.toNat % 128 + 128 * value 128 0 (varIntDigitsOf continued)

/-- All but the last byte, which come first here, have bit 128 set. -/
structure VarIntForm (continued : List UInt8) (last : UInt8) : Prop where
  continued : ∀ chData ∈ continued, 128 ≤ chData.toNat
  last : last.toNat < 128

variable {sizeof : ℕ}

private theorem varIntNumber_form (continued : List UInt8) (last : UInt8) :
    varIntNumber (continued.reverse ++ [last]) = last.toNat % 128 + 128 * value 128 0 (varIntDigitsOf continued) := by
  rw [varIntNumber, List.reverse_append, List.reverse_reverse]
  rfl

/-- The reader takes bytes of the form, and returns their number modulo the range of the type. -/
theorem readVarIntLoop_eq_some {stream rest : List UInt8} {n m : ℕ}
    (read : readVarIntLoop sizeof stream n = some (m, rest)) : ∃ continued last, VarIntForm continued last ∧
      stream = continued.reverse ++ [last] ++ rest ∧
      m = (last.toNat % 128 + 128 * value 128 n (varIntDigitsOf continued)) % 2 ^ (8 * sizeof) := by
  induction stream generalizing n with
  | nil => cases read
  | cons chData stream ih =>
    rw [readVarIntLoop] at read
    split at read
    next continues =>
      obtain ⟨continued, last, form, rfl, rfl⟩ := ih read
      refine ⟨continued ++ [chData], last, ⟨?_, form.last⟩, by simp, ?_⟩
      · intro other member
        rcases List.mem_append.mp member with member | member
        · exact form.continued other member
        · rw [List.mem_singleton.mp member]
          exact continues
      · have accumulated : ((n * 128 + chData.toNat % 128) % 2 ^ (8 * sizeof) + 1) % 2 ^ (8 * sizeof) ≡
            chData.toNat % 128 + 1 + 128 * n [MOD 2 ^ (8 * sizeof)] := by
          rw [Nat.ModEq, Nat.mod_mod, Nat.mod_add_mod]
          congr 1
          ring
        have digits : varIntDigitsOf (continued ++ [chData]) = varIntDigitsOf continued ++ [chData.toNat % 128] :=
          List.map_append
        rw [digits, value_append]
        exact ((value_modEq accumulated _).mul_left 128).add_left _
    next ends =>
      cases read
      refine ⟨[], chData, ⟨by simp, by omega⟩, rfl, ?_⟩
      rw [Nat.add_comm, Nat.mul_comm n]
      rfl

theorem value_varIntDigits {room m : ℕ} (bound : m + 1 < 128 ^ room) :
    value 128 0 (varIntDigitsOf (varIntDigits true room m)) = m + 1 ∧
      ∀ chData ∈ varIntDigits true room m, 128 ≤ chData.toNat := by
  induction room generalizing m with
  | zero =>
    rw [pow_zero] at bound
    omega
  | succ room ih =>
    obtain ⟨chData, digit, outcome⟩ := varIntDigits_cases true (Nat.lt_of_succ_lt bound)
    rw [if_pos rfl] at digit
    rcases outcome with ⟨small, digits⟩ | ⟨large, fewer, digits⟩
    · rw [digits]
      simp only [varIntDigitsOf, List.map_cons, List.map_nil, value_cons, value_nil, digit, List.forall_mem_singleton]
      omega
    · obtain ⟨same, continues⟩ := ih fewer
      rw [digits]
      simp only [varIntDigitsOf, List.map_cons, value_cons, digit, List.forall_mem_cons] at same ⊢
      rw [same]
      exact ⟨by omega, by omega, continues⟩

/-- What is written has the form, and is the number that is written. -/
theorem writeVarInt_form {n : ℕ} (positive : 0 < sizeof) (bound : n < 2 ^ (8 * sizeof)) :
    ∃ continued last, VarIntForm continued last ∧ writeVarInt sizeof n = continued.reverse ++ [last] ∧
      varIntNumber (writeVarInt sizeof n) = n := by
  obtain ⟨chData, digit, ⟨small, written⟩ | ⟨large, room, fewer, written⟩⟩ := writeVarInt_cases positive bound
  · have number := varIntNumber_form [] chData
    rw [digit] at number
    refine ⟨[], chData, ⟨by simp, by omega⟩, written, ?_⟩
    rw [written]
    apply number.trans
    rw [varIntDigitsOf, List.map_nil, value_nil]
    omega
  · obtain ⟨same, continues⟩ := value_varIntDigits fewer
    refine ⟨_, chData, ⟨continues, by omega⟩, written, ?_⟩
    rw [written, varIntNumber_form, same, digit]
    omega

private theorem map_digits {continued : List UInt8} (continues : ∀ chData ∈ continued, 128 ≤ chData.toNat) :
    (varIntDigitsOf continued).map (fun digit => UInt8.ofNat (digit + 128)) = continued := by
  rw [varIntDigitsOf, List.map_map]
  refine (List.map_congr_left fun chData member => ?_).trans (List.map_id continued)
  have bound := chData.toNat_lt
  have high := continues chData member
  have same : chData.toNat % 128 + 128 = chData.toNat := by omega
  rw [Function.comp_apply, same, UInt8.ofNat_toNat, id]

/-- Bytes of the form are determined by their number. -/
theorem VarIntForm.unique {continued continued' : List UInt8} {last last' : UInt8} (form : VarIntForm continued last)
    (form' : VarIntForm continued' last') (same : varIntNumber (continued.reverse ++ [last]) =
      varIntNumber (continued'.reverse ++ [last'])) : continued = continued' ∧ last = last' := by
  have small (bytes : List UInt8) : ∀ digit ∈ varIntDigitsOf bytes, digit < 128 := by
    intro digit member
    obtain ⟨chData, -, rfl⟩ := List.mem_map.mp member
    exact Nat.mod_lt _ (by decide)
  rw [varIntNumber_form, varIntNumber_form] at same
  obtain ⟨low, high⟩ := split_unique (Nat.mod_lt _ (by decide)) (Nat.mod_lt _ (by decide)) same
  have digits := value_unique (small continued) (small continued') high
  refine ⟨?_, UInt8.toNat_inj.mp ?_⟩
  · rw [← map_digits form.continued, digits, map_digits form'.continued]
  · have := form.last
    have := form'.last
    omega

/-- Every number of an unsigned type is read back from what is written for it, which has the size that is announced.
What is read is what is written for the number returned just when its number lies in the range of the type. -/
theorem varInt_laws (positive : 0 < sizeof) :
    (∀ n : ℕ, n < 2 ^ (8 * sizeof) → (readVarInt sizeof).Reads (writeVarInt sizeof n) n ∧
      (writeVarInt sizeof n).length = getSizeOfVarInt sizeof n) ∧
    ∀ stream (n : ℕ) rest, (readVarInt sizeof).run stream = some (n, rest) → ∃ taken, stream = taken ++ rest ∧
      (taken = writeVarInt sizeof n ↔ varIntNumber taken < 2 ^ (8 * sizeof)) := by
  refine ⟨fun n bound => ⟨reads_varInt positive bound, length_writeVarInt sizeof n⟩, ?_⟩
  intro stream n rest read
  obtain ⟨continued, last, form, rfl, value⟩ := readVarIntLoop_eq_some read
  rw [← varIntNumber_form] at value
  have bound : n < 2 ^ (8 * sizeof) := by
    rw [value]
    exact Nat.mod_lt _ (Nat.two_pow_pos _)
  obtain ⟨continued', last', form', written, number⟩ := writeVarInt_form positive bound
  refine ⟨continued.reverse ++ [last], rfl, fun same => ?_, fun inside => ?_⟩
  · rwa [same, number]
  · rw [Nat.mod_eq_of_lt inside] at value
    rw [written, value] at number
    obtain ⟨rfl, rfl⟩ := form'.unique form number
    exact written.symm

/-- An `unsigned int` is read back from its bytes, and they are the only ones for it. -/
theorem varInt_laws_unsignedInt : (readVarInt 4).Reads (writeVarInt 4 (2 ^ 32 - 1 : ℕ)) (2 ^ 32 - 1) ∧
    ∃ taken, [0x82, 0xFE, 0x7F] = taken ++ [] ∧ (taken = writeVarInt 4 (65535 : ℕ) ↔ varIntNumber taken < 2 ^ (8 * 4)) :=
  ⟨((varInt_laws (by decide)).1 (2 ^ 32 - 1) (by decide)).1, (varInt_laws (by decide)).2 _ 65535 [] (by decide)⟩

/-- The bytes of 2^32 are read as zero. -/
theorem varInt_not_unique : (readVarInt 4).run [0x8E, 0xFE, 0xFE, 0xFF, 0x00] = some (0, []) ∧
    writeVarInt 4 (0 : ℕ) = [0x00] := by decide

end BitCrystal
