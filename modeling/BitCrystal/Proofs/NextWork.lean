import BitCrystal.Machine.Numerals
import BitCrystal.Model.NextWork
import BitCrystal.Proofs.BlockTree

/-! # Compact targets and the blocks of an interval

Writing a target in the compact form rounds it down to the numbers that have one. The blocks behind a block of an
index are as many as its height says.
-/

namespace BitCrystal

open Scaled

variable {nSize x : ℕ}

theorem setCompact_of_lt {nWord : ℕ} (small : nWord < 2 ^ 23) : setCompact (nWord + nSize * 2 ^ 24) =
    if nSize ≤ 3 then ((nWord / 2 ^ (8 * (3 - nSize)) : ℕ) : ℤ) else ((nWord * 2 ^ (8 * (nSize - 3)) : ℕ) : ℤ) := by
  have size : (nWord + nSize * 2 ^ 24) / 2 ^ 24 = nSize := by omega
  have word : (nWord + nSize * 2 ^ 24) % 2 ^ 23 = nWord := by omega
  have sign : ¬ (nWord + nSize * 2 ^ 24) / 2 ^ 23 % 2 = 1 := by omega
  rw [setCompact, size, word, if_neg sign]
  split_ifs <;> rfl

/-- The number of bytes. -/
def numBytes (x : ℕ) : ℕ := if x = 0 then 0 else (x.log2 + 1 + 7) / 8

theorem lt_numBytes (x : ℕ) : x < 2 ^ (8 * numBytes x) := by
  rw [numBytes]
  split_ifs with zero
  · omega
  · exact (Nat.log2_lt zero).mp (by omega)

theorem numBytes_le (positive : 0 < numBytes x) : 2 ^ (8 * (numBytes x - 1)) ≤ x := by
  have nonzero : x ≠ 0 := by
    rintro rfl
    exact absurd positive (by decide)
  rw [numBytes, if_neg nonzero] at positive ⊢
  exact (Nat.le_log2 nonzero).mp (by omega)

theorem numBytes_le_of_lt {n : ℕ} (bound : x < 2 ^ (8 * n)) (positive : 0 < n) : numBytes x ≤ n := by
  rw [numBytes]
  split_ifs with zero
  · omega
  · have bits := (Nat.log2_lt zero).mpr bound
    omega

theorem numBytes_mono {y : ℕ} (le : x ≤ y) : numBytes x ≤ numBytes y := by
  rcases Nat.eq_zero_or_pos (numBytes x) with zero | positive
  · omega
  · rcases Nat.lt_or_ge (numBytes y) (numBytes x) with less | enough
    · have above := numBytes_le positive
      have below := (lt_numBytes y).trans_le (Nat.pow_le_pow_right (by decide) (show 8 * numBytes y ≤ 8 * (numBytes x - 1) by omega))
      omega
    · exact enough

/-- The leading three bytes of a number of `nSize` bytes. -/
def mantissa (nSize x : ℕ) : ℕ := if nSize ≤ 3 then x * 2 ^ (8 * (3 - nSize)) else x / 2 ^ (8 * (nSize - 3))

theorem mantissa_mono {y : ℕ} (le : x ≤ y) : mantissa nSize x ≤ mantissa nSize y := by
  unfold mantissa
  split
  · exact Nat.mul_le_mul_right _ le
  · exact Nat.div_le_div_right le

theorem mantissa_succ (nSize x : ℕ) : mantissa nSize x / 2 ^ 8 = mantissa (nSize + 1) x := by
  unfold mantissa
  rcases Nat.lt_or_ge nSize 3 with few | many
  · have shift : 8 * (3 - nSize) = 8 * (3 - (nSize + 1)) + 8 := by omega
    rw [if_pos few.le, if_pos (by omega), shift, pow_add, ← Nat.mul_assoc]
    exact Nat.mul_div_cancel _ (by decide)
  · rw [if_neg (by omega : ¬ nSize + 1 ≤ 3)]
    split
    · obtain rfl : nSize = 3 := by omega
      norm_num
    · rw [Nat.div_div_eq_div_mul, ← pow_add]
      congr 2
      omega

theorem mantissa_lt (bound : x < 2 ^ (8 * nSize)) : mantissa nSize x < 2 ^ 24 := by
  unfold mantissa
  split
  · calc
      x * 2 ^ (8 * (3 - nSize)) < 2 ^ (8 * nSize) * 2 ^ (8 * (3 - nSize)) :=
        Nat.mul_lt_mul_of_pos_right bound (Nat.two_pow_pos _)
      _ = 2 ^ 24 := by
        rw [← pow_add]
        congr 1
        omega
  · rw [Nat.div_lt_iff_lt_mul (Nat.two_pow_pos _), ← pow_add]
    exact bound.trans_le (Nat.pow_le_pow_right (by decide) (by omega))

/-- The sign bit is set where twice the number needs one byte more. -/
theorem le_mantissa_iff : 2 ^ 23 ≤ mantissa nSize x ↔ 2 ^ (8 * nSize) ≤ 2 * x := by
  unfold mantissa
  split
  next few =>
    have double : 2 ^ (8 * nSize) * 2 ^ (8 * (3 - nSize)) = 2 * 2 ^ 23 := by
      rw [← pow_add, ← pow_succ']
      congr 1
      omega
    rw [← Nat.mul_le_mul_right_iff (Nat.two_pow_pos (8 * (3 - nSize))) (n := 2 ^ (8 * nSize)), double, Nat.mul_assoc]
    omega
  next many =>
    have double : 2 ^ (8 * nSize) = 2 * (2 ^ 23 * 2 ^ (8 * (nSize - 3))) := by
      rw [← pow_add, ← pow_succ']
      congr 1
      omega
    rw [Nat.le_div_iff_mul_le (Nat.two_pow_pos _), double]
    omega

/-- The size leaves room for the sign. -/
theorem getCompact_spec (size : numBytes (2 * x) ≤ 255) :
    getCompact x = mantissa (numBytes (2 * x)) x + numBytes (2 * x) * 2 ^ 24 ∧
      mantissa (numBytes (2 * x)) x < 2 ^ 23 := by
  have compact : getCompact x =
      let both := if mantissa (numBytes x) x / 2 ^ 23 % 2 = 1 then (mantissa (numBytes x) x / 2 ^ 8, numBytes x + 1)
        else (mantissa (numBytes x) x, numBytes x)
      both.1 + both.2 * 2 ^ 24 % 2 ^ 32 := by
    have sign : ¬ (x : ℤ) < 0 := by omega
    rw [getCompact, if_neg sign]
    simp only [Int.natAbs_natCast, Nat.cast_eq_zero, numBytes, mantissa, add_zero]
    rfl
  have below := mantissa_lt (lt_numBytes x)
  have least : numBytes x ≤ numBytes (2 * x) := numBytes_mono (by omega)
  dsimp only at compact
  split at compact
  next sign =>
    have high : 2 ^ (8 * numBytes x) ≤ 2 * x := le_mantissa_iff.mp (by omega)
    have more : numBytes x < numBytes (2 * x) := by
      rcases Nat.lt_or_ge (numBytes x) (numBytes (2 * x)) with more | same
      · exact more
      · have room := (lt_numBytes (2 * x)).trans_le (Nat.pow_le_pow_right (by decide) (show _ ≤ 8 * numBytes x by omega))
        omega
    have most : numBytes (2 * x) ≤ numBytes x + 1 := by
      apply numBytes_le_of_lt
      · have room := lt_numBytes x
        rw [Nat.mul_add, pow_add]
        omega
      · omega
    obtain same : numBytes (2 * x) = numBytes x + 1 := by omega
    rw [mantissa_succ, ← same] at compact
    rw [compact, Nat.mod_eq_of_lt (by omega)]
    refine ⟨rfl, ?_⟩
    rw [same, ← mantissa_succ]
    omega
  next plain =>
    have low : 2 * x < 2 ^ (8 * numBytes x) := by
      rw [← not_le, ← le_mantissa_iff]
      omega
    have same : numBytes (2 * x) = numBytes x := by
      rcases Nat.eq_zero_or_pos (numBytes x) with zero | positive
      · rw [zero, Nat.mul_zero, pow_zero] at low
        obtain rfl : x = 0 := by omega
        rfl
      · exact Nat.le_antisymm (numBytes_le_of_lt low positive) least
    rw [same, compact, Nat.mod_eq_of_lt (by omega)]
    exact ⟨rfl, by omega⟩

private theorem digits (n : ℕ) : 2 ^ (8 * n) = 256 ^ n := by
  rw [pow_mul]
  rfl

theorem setCompact_getCompact (size : numBytes (2 * x) ≤ 255) : ∃ e, getCompact x < 2 ^ 32 ∧
    setCompact (getCompact x) = (truncate 256 e x : ℕ) ∧ x / 256 ^ e < 256 * 2 ^ 15 ∧ Tight 256 (2 ^ 15) e x := by
  obtain ⟨compact, word⟩ := getCompact_spec size
  rw [compact, setCompact_of_lt word]
  unfold mantissa at word ⊢
  split
  next little =>
    rw [if_pos little] at word
    refine ⟨0, by omega, ?_, ?_, .inl rfl⟩
    · rw [Nat.mul_div_cancel _ (Nat.two_pow_pos _), truncate, pow_zero, Nat.div_one, mul_one]
    · rw [pow_zero, Nat.div_one]
      exact (Nat.le_mul_of_pos_right x (Nat.two_pow_pos _)).trans_lt word
  next large =>
    rw [if_neg large] at word
    refine ⟨numBytes (2 * x) - 3, by omega, ?_, ?_, .inr ?_⟩
    · rw [truncate, digits]
    · rw [← digits]
      exact word
    · have least := numBytes_le (show 0 < numBytes (2 * x) by omega)
      have split : 2 ^ (8 * (numBytes (2 * x) - 1)) = 2 * (2 ^ 23 * 2 ^ (8 * (numBytes (2 * x) - 3 - 1))) := by
        rw [← pow_add, ← pow_succ']
        congr 1
        omega
      rw [← digits, Nat.le_div_iff_mul_le (Nat.two_pow_pos _)]
      omega

theorem natAbs_setCompact (nCompact : ℕ) : (setCompact nCompact).natAbs =
    if nCompact / 2 ^ 24 ≤ 3 then nCompact % 2 ^ 23 / 2 ^ (8 * (3 - nCompact / 2 ^ 24))
    else nCompact % 2 ^ 23 * 2 ^ (8 * (nCompact / 2 ^ 24 - 3)) := by
  rw [setCompact]
  split
  · rw [Int.natAbs_neg, Int.natAbs_natCast]
  · rw [Int.natAbs_natCast]

theorem fits_natAbs_setCompact (nCompact : ℕ) : Fits 256 (2 ^ 15) (setCompact nCompact).natAbs := by
  have word : nCompact % 2 ^ 23 < 2 ^ 23 := Nat.mod_lt _ (by decide)
  rw [natAbs_setCompact]
  split
  · exact ⟨_, 0, (Nat.div_le_self ..).trans_lt word, by rw [pow_zero, mul_one]⟩
  · exact ⟨_, _, word, by rw [digits]⟩

theorem fits_setCompact {nCompact n : ℕ} (decoded : setCompact nCompact = n) : Fits 256 (2 ^ 15) n := by
  have fits := fits_natAbs_setCompact nCompact
  rwa [decoded] at fits

/-- The targets with a compact form, up to a bound. -/
def CompactTargets (x : ℤ) : Set ℤ := {target | ∃ nCompact < 2 ^ 32, setCompact nCompact = target ∧ 0 ≤ target ∧ target ≤ x}

/-- `GetCompact` rounds down. -/
theorem isGreatest_getCompact (size : numBytes (2 * x) ≤ 255) :
    IsGreatest (CompactTargets x) (setCompact (getCompact x)) := by
  obtain ⟨e, width, decoded, small, tight⟩ := setCompact_getCompact size
  obtain ⟨⟨-, below⟩, greatest⟩ := isGreatest_truncate (by decide) small tight
  rw [decoded]
  refine ⟨⟨getCompact x, width, decoded, Int.natCast_nonneg _, Int.ofNat_le.mpr below⟩, ?_⟩
  rintro target ⟨nCompact, -, same, nonneg, most⟩
  obtain ⟨n, rfl⟩ := Int.eq_ofNat_of_zero_le nonneg
  exact Int.ofNat_le.mpr (greatest ⟨fits_setCompact same, Int.ofNat_le.mp most⟩)

/-- By at most one in `2 ^ 15`. -/
theorem le_setCompact_getCompact (size : numBytes (2 * x) ≤ 255) :
    (x : ℤ) * 2 ^ 15 ≤ setCompact (getCompact x) * (2 ^ 15 + 1) := by
  obtain ⟨e, -, decoded, -, tight⟩ := setCompact_getCompact size
  rw [decoded]
  exact_mod_cast le_truncate_mul (by decide) tight

namespace Node.Rooted

variable {index : BlockMap} {genesis pindex : BlockPtr} {entry : CBlockIndex}

/-- Behind an indexed block there is one block of each height. -/
theorem getElem?_pprevs (rooted : Rooted index genesis) (found : index pindex = some entry) {back : ℕ}
    (within : back ≤ entry.nHeight) : ∃ ancestor, (pprevs index (entry.nHeight + 1) (some pindex))[back]? = some ancestor ∧
      ancestor.nHeight + back = entry.nHeight := by
  induction back generalizing pindex entry with
  | zero =>
    rw [pprevs, found]
    exact ⟨entry, rfl, rfl⟩
  | succ back ih =>
    have step : pprevs index (entry.nHeight + 1) (some pindex) = entry :: pprevs index entry.nHeight entry.pprev := by
      rw [pprevs, found]
    cases prev : entry.pprev with
    | none =>
      have bottom := (rooted.root pindex entry found prev).2
      omega
    | some above =>
      obtain ⟨parent, there, height⟩ := rooted.parent pindex entry above found prev
      obtain ⟨ancestor, lies, low⟩ := ih there (by omega)
      refine ⟨ancestor, ?_, by omega⟩
      rw [step, List.getElem?_cons_succ, prev, height]
      exact lies

end Node.Rooted

end BitCrystal
