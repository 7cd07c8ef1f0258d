import BitCrystal.Machine.Reader
import Mathlib.Tactic.Ring

/-! # Signed numbers in bytes

The bytes of a number, the most significant first, have its sign in their highest bit and its magnitude below. The MPI
format puts how many they are in front of them, in four bytes. Zero has no sign.
-/

namespace LittleEndian

theorem decode_append (low high : List UInt8) :
    decode (low ++ high) = decode low + 256 ^ low.length * decode high := by
  induction low with
  | nil => rw [List.nil_append, List.length_nil, pow_zero, Nat.one_mul, decode, Nat.zero_add]
  | cons byte low ih =>
    rw [List.cons_append, decode, decode, ih, List.length_cons, pow_succ']
    ring

theorem decode_replicate_zero (count : ℕ) : decode (List.replicate count 0) = 0 := by
  induction count with
  | zero => rfl
  | succ count ih =>
    rw [List.replicate_succ, decode, ih]
    rfl

/-- The lowest bytes are those of the remainder. -/
theorem decode_take (bytes : List UInt8) (count : ℕ) : decode (bytes.take count) = decode bytes % 256 ^ count := by
  rcases le_total count bytes.length with inside | outside
  · have whole := decode_append (bytes.take count) (bytes.drop count)
    have low := decode_lt (bytes.take count)
    rw [List.take_append_drop] at whole
    rw [List.length_take_of_le inside] at whole low
    rw [whole, Nat.add_mul_mod_self_left, Nat.mod_eq_of_lt low]
  · rw [List.take_of_length_le outside, Nat.mod_eq_of_lt]
    exact (decode_lt bytes).trans_le (Nat.pow_le_pow_right (by decide) outside)

end LittleEndian

namespace Mpi

open LittleEndian

/-- The number of some bytes, the most significant first. -/
def value (bytes : List UInt8) : ℕ := decode bytes.reverse

theorem value_cons (byte : UInt8) (bytes : List UInt8) :
    value (byte :: bytes) = byte.toNat * 256 ^ bytes.length + value bytes := by
  rw [value, List.reverse_cons, decode_append, List.length_reverse, decode, decode, value]
  ring

theorem value_lt (bytes : List UInt8) : value bytes < 256 ^ bytes.length := by
  have bound := decode_lt bytes.reverse
  rwa [List.length_reverse] at bound

/-- What the bytes stand for: a magnitude below the sign. -/
structure Represents (bytes : List UInt8) (n : ℤ) : Prop where
  magnitude : n.natAbs < 2 ^ (8 * bytes.length - 1)
  number : value bytes = n.natAbs + if n < 0 then 2 ^ (8 * bytes.length - 1) else 0

/-- The format with the length in front. -/
def Encodes (mpi : List UInt8) (n : ℤ) : Prop :=
  ∃ bytes, bytes.length < 256 ^ 4 ∧ mpi = (encode 4 bytes.length).reverse ++ bytes ∧ Represents bytes n

section Represents

variable {bytes : List UInt8} {n m : ℤ}

theorem represents_nil : Represents [] n ↔ n = 0 := by
  constructor
  · intro represents
    have magnitude := represents.magnitude
    rw [List.length_nil, Nat.mul_zero, Nat.zero_sub, pow_zero] at magnitude
    omega
  · rintro rfl
    exact ⟨by decide, rfl⟩

theorem Represents.natAbs (represents : Represents bytes n) : n.natAbs = value bytes % 2 ^ (8 * bytes.length - 1) := by
  rw [represents.number]
  split_ifs
  · rw [Nat.add_mod_right, Nat.mod_eq_of_lt represents.magnitude]
  · rw [Nat.add_zero, Nat.mod_eq_of_lt represents.magnitude]

/-- What is below the sign bit, with the sign put in. -/
theorem represents_cons {byte : UInt8} (low : byte < 0x80) {fNegative : Bool}
    (nonzero : fNegative = true → value (byte :: bytes) ≠ 0) :
    Represents ((if fNegative then byte ||| 0x80 else byte) :: bytes)
      (if fNegative then -(value (byte :: bytes) : ℤ) else value (byte :: bytes)) := by
  have below : byte.toNat < 128 := low
  have rest := value_lt bytes
  have width : 2 ^ (8 * (bytes.length + 1) - 1) = 128 * 256 ^ bytes.length := by
    have : 8 * (bytes.length + 1) - 1 = 7 + 8 * bytes.length := by omega
    rw [this, pow_add, pow_mul]
    rfl
  have bound : value (byte :: bytes) < 128 * 256 ^ bytes.length := by
    rw [value_cons]
    calc
      byte.toNat * 256 ^ bytes.length + value bytes < (byte.toNat + 1) * 256 ^ bytes.length := by
        rw [Nat.add_mul, Nat.one_mul]
        omega
      _ ≤ _ := Nat.mul_le_mul_right _ below
  cases fNegative with
  | false =>
    refine ⟨?_, ?_⟩
    · simpa only [List.length_cons, width, Bool.false_eq_true, if_false, Int.natAbs_natCast] using bound
    · simp only [Bool.false_eq_true, if_false, Int.natAbs_natCast, not_lt.mpr (Int.natCast_nonneg _), Nat.add_zero]
  | true =>
    have negative : -(value (byte :: bytes) : ℤ) < 0 := by
      have := nonzero rfl
      omega
    have joined : (byte ||| 0x80).toNat = byte.toNat + 128 := by
      have all : ∀ k < 128, (UInt8.ofNat k ||| 0x80).toNat = k + 128 := by decide
      have this := all byte.toNat below
      rwa [UInt8.ofNat_toNat] at this
    refine ⟨?_, ?_⟩
    · simpa only [List.length_cons, width, if_true, Int.natAbs_neg, Int.natAbs_natCast] using bound
    · simp only [if_true, Int.natAbs_neg, Int.natAbs_natCast, negative, List.length_cons, width]
      rw [value_cons, value_cons, joined]
      ring

end Represents

end Mpi
