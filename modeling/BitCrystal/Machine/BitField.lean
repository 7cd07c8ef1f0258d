import Mathlib.Data.Nat.Bitwise
import Mathlib.Data.Set.Insert
import Mathlib.Algebra.BigOperators.Group.List.Basic

/-! # Sets of bits in a byte string

Bit `n` of a byte string is bit `n % 8` of byte `n / 8`. Setting a bit adds its number to the set
of marked numbers and changes nothing else.
-/

namespace BitField

/-- The byte with bit `k` alone. -/
def mask (k : ℕ) : UInt8 := UInt8.ofNat (2 ^ k)

/-- The numbers of the bits that are set. -/
def marked (bytes : List UInt8) : Set ℕ := {n | ∃ byte, bytes[n / 8]? = some byte ∧ byte.toNat.testBit (n % 8)}

theorem toNat_mask {k : ℕ} (small : k < 8) : (mask k).toNat = 2 ^ k := by
  have bound : 2 ^ k < 2 ^ 8 := Nat.pow_lt_pow_right (by decide) small
  rw [mask, UInt8.toNat_ofNat']
  exact Nat.mod_eq_of_lt bound

variable {byte : UInt8} {n : ℕ}

theorem and_mask_eq_zero {k : ℕ} (small : k < 8) : byte &&& mask k = 0 ↔ byte.toNat.testBit k = false := by
  rw [← UInt8.toNat_inj, UInt8.toNat_and, toNat_mask small, Nat.and_two_pow]
  cases byte.toNat.testBit k <;> simp

theorem mem_marked {bytes : List UInt8} (found : bytes[n / 8]? = some byte) :
    n ∈ marked bytes ↔ byte &&& mask (n % 8) ≠ 0 := by
  have small := Nat.mod_lt n (show 0 < 8 by decide)
  rw [Ne, and_mask_eq_zero small, Bool.not_eq_false]
  constructor
  · rintro ⟨other, found', set⟩
    rw [found] at found'
    cases found'
    exact set
  · exact fun set => ⟨byte, found, set⟩

/-- Or-ing one byte with the mask of a bit marks that bit. -/
theorem marked_set {bytes : List UInt8} (found : bytes[n / 8]? = some byte) :
    marked (bytes.set (n / 8) (byte ||| mask (n % 8))) = insert n (marked bytes) := by
  obtain ⟨bound, -⟩ := List.getElem?_eq_some_iff.mp found
  have small := Nat.mod_lt n (show 0 < 8 by decide)
  ext m
  rw [Set.mem_insert_iff]
  simp only [marked, Set.mem_ofPred_eq]
  rcases eq_or_ne (n / 8) (m / 8) with same | different
  · rw [← same, List.getElem?_set_self bound, found]
    have place : m = n ↔ n % 8 = m % 8 := by omega
    simp only [Option.some.injEq, exists_eq_left', UInt8.toNat_or, toNat_mask small, Nat.testBit_or,
      Nat.testBit_two_pow, Bool.or_eq_true, decide_eq_true_eq, place]
    exact or_comm
  · rw [List.getElem?_set_ne different]
    have other : m ≠ n := by
      rintro rfl
      exact different rfl
    simp only [other, false_or]

theorem mem_marked_full (small : n < 8) : n ∈ marked [0xff] := by
  have all : ∀ k < 8, (0xff : UInt8).toNat.testBit k := by decide
  refine ⟨0xff, ?_, ?_⟩
  · rw [Nat.div_eq_of_lt small]
    rfl
  · rw [Nat.mod_eq_of_lt small]
    exact all n small

end BitField

/-! ## Masks: selections by flags

A mask has a flag for every element of a list and picks the elements whose flag is set. Setting a flag that was not set
adds the weight of its element.
-/

variable {α β : Type*}

namespace Mask

/-- The elements whose flag is set. -/
def pick : List Bool → List α → List α
  | [], _ => []
  | _, [] => []
  | flag :: flags, a :: as => if flag then a :: pick flags as else pick flags as

theorem pick_sublist (flags : List Bool) (as : List α) : (pick flags as).Sublist as := by
  induction flags generalizing as with
  | nil => exact List.nil_sublist as
  | cons flag flags ih =>
    cases as with
    | nil => exact List.Sublist.refl []
    | cons a as =>
      rw [pick]
      split
      · exact (ih as).cons_cons a
      · exact (ih as).cons a

theorem map_pick (f : α → β) (flags : List Bool) (as : List α) : (pick flags as).map f = pick flags (as.map f) := by
  induction flags generalizing as with
  | nil => rfl
  | cons flag flags ih =>
    cases as with
    | nil => rfl
    | cons a as =>
      rw [List.map_cons, pick, pick, ← ih]
      split <;> rfl

theorem pick_replicate_true (as : List α) : pick (List.replicate as.length true) as = as := by
  induction as with
  | nil => rfl
  | cons a as ih => rw [List.length_cons, List.replicate_succ, pick, if_pos rfl, ih]

theorem pick_replicate_false (n : ℕ) (as : List α) : pick (List.replicate n false) as = [] := by
  induction n generalizing as with
  | zero => rfl
  | succ n ih =>
    cases as with
    | nil => rfl
    | cons a as => rw [List.replicate_succ, pick, if_neg Bool.false_ne_true, ih]

/-- A flag that is set adds its weight. -/
theorem sum_pick_set [AddCommMonoid α] {flags : List Bool} {weights : List α} {i : ℕ} {weight : α}
    (unset : flags[i]? = some false) (found : weights[i]? = some weight) :
    (pick (flags.set i true) weights).sum = (pick flags weights).sum + weight := by
  induction flags generalizing weights i with
  | nil => simp at unset
  | cons flag flags ih =>
    cases weights with
    | nil => simp at found
    | cons first weights =>
      cases i with
      | zero =>
        obtain rfl : flag = false := by simpa using unset
        obtain rfl : first = weight := by simpa using found
        rw [List.set_cons_zero, pick, pick, if_pos rfl, if_neg Bool.false_ne_true, List.sum_cons, add_comm]
      | succ i =>
        have ih := ih (by simpa using unset) (by simpa using found)
        rw [List.set_cons_succ, pick, pick]
        split
        · rw [List.sum_cons, List.sum_cons, ih, add_assoc]
        · exact ih

end Mask
