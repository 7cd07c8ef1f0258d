import Mathlib.Data.Nat.Bitwise
import Mathlib.Data.Nat.Digits.Defs

/-! # Numbers in limbs

The limbs of a number, the lowest first, as machine words of a fixed width. What an operation does to the number is read
off limb by limb: from the lowest with what is carried, from the highest for comparisons, and bit by bit.
-/

namespace Limbs

variable {b n : ℕ} {limbs others : List (BitVec b)} {x y : BitVec b}

def value (limbs : List (BitVec b)) : ℕ := Nat.ofDigits (2 ^ b) (limbs.map BitVec.toNat)

@[simp] theorem value_nil : value ([] : List (BitVec b)) = 0 := rfl

@[simp] theorem value_cons (x : BitVec b) (limbs : List (BitVec b)) :
    value (x :: limbs) = x.toNat + 2 ^ b * value limbs := Nat.ofDigits_cons ..

theorem value_append (limbs others : List (BitVec b)) :
    value (limbs ++ others) = value limbs + 2 ^ (b * limbs.length) * value others := by
  rw [value, List.map_append, Nat.ofDigits_append, List.length_map, ← pow_mul]
  rfl

@[simp] theorem value_zero (count : ℕ) : value (List.replicate count 0#b) = 0 := by
  induction count with
  | zero => rfl
  | succ count ih => rw [List.replicate_succ, value_cons, ih, BitVec.toNat_ofNat, Nat.zero_mod, Nat.mul_zero]

theorem pow_length_cons (x : BitVec b) (limbs : List (BitVec b)) :
    2 ^ (b * (x :: limbs).length) = 2 ^ b * 2 ^ (b * limbs.length) := by
  rw [List.length_cons, Nat.mul_succ, Nat.add_comm, pow_add]

theorem value_lt (limbs : List (BitVec b)) : value limbs < 2 ^ (b * limbs.length) := by
  induction limbs with
  | nil => simp
  | cons x limbs ih =>
    rw [pow_length_cons, value_cons]
    calc
      x.toNat + 2 ^ b * value limbs < 2 ^ b + 2 ^ b * value limbs := Nat.add_lt_add_right x.isLt _
      _ = 2 ^ b * (value limbs + 1) := by ring
      _ ≤ 2 ^ b * 2 ^ (b * limbs.length) := Nat.mul_le_mul_left _ ih

/-- A number has one row of limbs. -/
theorem value_inj (length : limbs.length = others.length) (same : value limbs = value others) : limbs = others := by
  induction limbs generalizing others with
  | nil => exact (List.length_eq_zero_iff.mp length.symm).symm
  | cons x limbs ih =>
    cases others with
    | nil => cases length
    | cons y others =>
      rw [value_cons, value_cons] at same
      have first : x.toNat = y.toNat := by
        have low := congrArg (· % 2 ^ b) same
        simpa only [Nat.add_mul_mod_self_left, Nat.mod_eq_of_lt x.isLt, Nat.mod_eq_of_lt y.isLt] using low
      have rest : value limbs = value others := by
        rw [first] at same
        exact Nat.eq_of_mul_eq_mul_left (Nat.two_pow_pos b) (Nat.add_left_cancel same)
      rw [BitVec.eq_of_toNat_eq first, ih (Nat.succ.inj length) rest]

/-- The lowest limb of a sum, and what is carried into the others. -/
theorem mod_limb (low high modulus : ℕ) :
    (low + 2 ^ b * high) % (2 ^ b * modulus) = low % 2 ^ b + 2 ^ b * ((low / 2 ^ b + high) % modulus) := by
  rw [Nat.mod_mul, Nat.add_mul_mod_self_left, Nat.add_mul_div_left _ _ (Nat.two_pow_pos b)]

theorem value_not (limbs : List (BitVec b)) :
    value (limbs.map fun x => ~~~x) + value limbs + 1 = 2 ^ (b * limbs.length) := by
  induction limbs with
  | nil => rfl
  | cons x limbs ih =>
    have bound := x.isLt
    rw [List.map_cons, value_cons, value_cons, pow_length_cons, ← ih, BitVec.toNat_not]
    have full : 2 ^ b - 1 - x.toNat + x.toNat + 1 = 2 ^ b := by omega
    calc
      _ = (2 ^ b - 1 - x.toNat + x.toNat + 1) + 2 ^ b * (value (limbs.map fun x => ~~~x) + value limbs) := by ring
      _ = _ := by rw [full]; ring

theorem xor_limb {low low' : ℕ} (bound : low < 2 ^ b) (bound' : low' < 2 ^ b) (high high' : ℕ) :
    (low + 2 ^ b * high) ^^^ (low' + 2 ^ b * high') = (low ^^^ low') + 2 ^ b * (high ^^^ high') := by
  apply Nat.eq_of_testBit_eq
  intro i
  rw [Nat.add_comm low, Nat.add_comm low', Nat.add_comm (_ ^^^ _)]
  simp only [Nat.testBit_two_pow_mul_add _ bound, Nat.testBit_two_pow_mul_add _ bound',
    Nat.testBit_two_pow_mul_add _ (Nat.xor_lt_two_pow bound bound'), Nat.testBit_xor]
  split_ifs <;> rfl

theorem or_limb {low low' : ℕ} (bound : low < 2 ^ b) (bound' : low' < 2 ^ b) (high high' : ℕ) :
    (low + 2 ^ b * high) ||| (low' + 2 ^ b * high') = (low ||| low') + 2 ^ b * (high ||| high') := by
  apply Nat.eq_of_testBit_eq
  intro i
  rw [Nat.add_comm low, Nat.add_comm low', Nat.add_comm (_ ||| _)]
  simp only [Nat.testBit_two_pow_mul_add _ bound, Nat.testBit_two_pow_mul_add _ bound',
    Nat.testBit_two_pow_mul_add _ (Nat.or_lt_two_pow bound bound'), Nat.testBit_or]
  split_ifs <;> rfl

/-- The highest limb decides. -/
theorem value_lt_of_last_lt (length : limbs.length = others.length) (less : x < y) :
    value (limbs ++ [x]) < value (others ++ [y]) := by
  have bound := value_lt limbs
  rw [value_append, value_append, ← length, value_cons, value_cons, value_nil]
  calc
    value limbs + 2 ^ (b * limbs.length) * (x.toNat + 2 ^ b * 0)
        < 2 ^ (b * limbs.length) * (x.toNat + 1) := by rw [Nat.mul_zero, Nat.add_zero, Nat.mul_succ]; omega
    _ ≤ 2 ^ (b * limbs.length) * y.toNat := Nat.mul_le_mul_left _ less
    _ ≤ _ := by rw [Nat.mul_zero, Nat.add_zero]; exact Nat.le_add_left ..

/-- Equal highest limbs do not matter. -/
theorem value_lt_iff_of_last (length : limbs.length = others.length) (x : BitVec b) :
    value (limbs ++ [x]) < value (others ++ [x]) ↔ value limbs < value others := by
  rw [value_append, value_append, length]
  exact Nat.add_lt_add_iff_right

theorem testBit_value (limbs : List (BitVec b)) (pos : 0 < b) (n : ℕ) :
    (value limbs).testBit n = (limbs.getD (n / b) 0).getLsbD (n % b) := by
  induction limbs generalizing n with
  | nil => simp
  | cons x limbs ih =>
    rw [value_cons, Nat.add_comm, Nat.testBit_two_pow_mul_add _ x.isLt]
    split
    next low => rw [Nat.div_eq_of_lt low, Nat.mod_eq_of_lt low]; rfl
    next high =>
      have quotient : n / b = (n - b) / b + 1 := by
        rw [← Nat.add_div_right _ pos, Nat.sub_add_cancel (not_lt.mp high)]
      rw [ih, quotient, List.getD_cons_succ, ← Nat.mod_eq_sub_mod (not_lt.mp high)]

/-- Numbers with the same bits below the end are the same. -/
theorem eq_of_testBit {m k : ℕ} (boundm : m < 2 ^ n) (boundk : k < 2 ^ n)
    (same : ∀ i < n, m.testBit i = k.testBit i) : m = k := by
  apply Nat.eq_of_testBit_eq
  intro i
  rcases lt_or_ge i n with inside | outside
  · exact same i inside
  · have power := Nat.pow_le_pow_right (by decide : 0 < 2) outside
    rw [Nat.testBit_lt_two_pow (boundm.trans_le power), Nat.testBit_lt_two_pow (boundk.trans_le power)]

end Limbs
