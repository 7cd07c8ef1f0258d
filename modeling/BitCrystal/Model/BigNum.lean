import BitCrystal.Machine.Mpi
import BitCrystal.Model.Validation

/-! # Numbers on the script stack

`CBigNum` represents an integer of any size. On the stack it is a byte string, lowest byte first, whose
highest bit is the sign.
-/

namespace BitCrystal

open LittleEndian

abbrev valtype := List UInt8

namespace CBigNum

/-- The bytes of the magnitude and its sign bit. -/
def width (n : ℤ) : ℕ := (n.natAbs.log2 + 1) / 8 + 1

def getvch (n : ℤ) : valtype :=
  if n = 0 then []
  else encode (width n) (n.natAbs + if n < 0 then 2 ^ (8 * width n - 1) else 0)

/-- `setvch`, of no more bytes than the `int` length that OpenSSL is given counts. -/
def setvch (vch : valtype) : ℤ :=
  let sign := 2 ^ (8 * vch.length - 1)
  let n := decode vch
  if vch ≠ [] ∧ sign ≤ n then -((n - sign : ℕ) : ℤ) else n

/-- The nearest `int`. -/
def getint (n : ℤ) : ℤ := max (-2 ^ 31) (min n (2 ^ 31 - 1))

theorem width_pos (n : ℤ) : 0 < width n := Nat.succ_pos _

theorem natAbs_lt_width (n : ℤ) : n.natAbs < 2 ^ (8 * width n - 1) := by
  rcases Nat.eq_zero_or_pos n.natAbs with zero | positive
  · rw [zero]
    exact Nat.two_pow_pos _
  · apply (Nat.log2_lt positive.ne').mp
    unfold width
    omega

/-- The bytes on the stack stand for the number. -/
theorem represents_getvch (n : ℤ) : Mpi.Represents (getvch n).reverse n := by
  rcases eq_or_ne n 0 with rfl | nonzero
  · exact Mpi.represents_nil.mpr rfl
  have magnitude := natAbs_lt_width n
  have positive := width_pos n
  have split : 256 ^ width n = 2 * 2 ^ (8 * width n - 1) := by
    rw [← pow_succ', Nat.sub_add_cancel (by omega), pow_mul]
    rfl
  rw [getvch, if_neg nonzero]
  refine ⟨?_, ?_⟩
  · rwa [List.length_reverse, length_encode]
  · rw [List.length_reverse, length_encode, Mpi.value, List.reverse_reverse,
      decode_encode (by rw [split]; split_ifs <;> omega)]

theorem setvch_of_represents {vch : valtype} {n : ℤ} (represents : Mpi.Represents vch.reverse n) : setvch vch = n := by
  have magnitude := represents.magnitude
  have number := represents.number
  rw [Mpi.value, List.reverse_reverse, List.length_reverse] at number
  rw [List.length_reverse] at magnitude
  unfold setvch
  dsimp only
  rw [number]
  rcases lt_or_ge n 0 with negative | natural
  · have nonempty : vch ≠ [] := by
      rintro rfl
      have zero := Mpi.represents_nil.mp represents
      omega
    rw [if_pos negative, if_pos ⟨nonempty, Nat.le_add_left ..⟩]
    omega
  · rw [if_neg (not_lt.mpr natural), Nat.add_zero, if_neg fun both => absurd both.2 (not_le.mpr magnitude)]
    omega

theorem setvch_getvch (n : ℤ) : setvch (getvch n) = n := setvch_of_represents (represents_getvch n)

end CBigNum

def nMaxNumSize : ℕ := 4

/-- The number on the stack, leading zeros dropped. -/
def castToBigNum (vch : valtype) : Check ℤ :=
  if vch.length > nMaxNumSize then .error (.throws "CastToBigNum() : overflow")
  else .ok (CBigNum.setvch (CBigNum.getvch (CBigNum.setvch vch)))

theorem castToBigNum_eq_ok {vch : valtype} {n : ℤ} :
    castToBigNum vch = .ok n ↔ vch.length ≤ nMaxNumSize ∧ CBigNum.setvch vch = n := by
  unfold castToBigNum
  rw [CBigNum.setvch_getvch]
  split <;> simp_all [not_le]

def vchFalse : valtype := []
def vchTrue : valtype := [1]

/-- Negative zero is false. -/
def castToBool : valtype → Bool
  | [] => false
  | [byte] => byte ≠ 0 ∧ byte ≠ 0x80
  | byte :: vch => byte ≠ 0 ∨ castToBool vch

end BitCrystal
