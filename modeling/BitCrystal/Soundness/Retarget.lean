import BitCrystal.Model.TestNet
import BitCrystal.Proofs.NextWork

/-! # The retarget law

The block an interval earlier is there whenever it is needed. The new target is the old one times the clamped
time span, cut at the limit and rounded down to the compact form.
-/

namespace BitCrystal

variable {P : Platform} {index : BlockMap} {genesis pindex : BlockPtr} {pindexLast : CBlockIndex} {nTime : ℕ}

/-- The time span limited to a quarter and to four times the intended one. -/
def clampTimespan (nActualTimespan : ℤ) : ℤ := min (max nActualTimespan (nTargetTimespan / 4)) (nTargetTimespan * 4)

/-- The target before it is written in the compact form. -/
def exactTarget (previous nActualTimespan : ℤ) : ℤ :=
  min bnProofOfWorkLimit (previous * clampTimespan nActualTimespan / nTargetTimespan)

theorem clampTimespan_bounds (nActualTimespan : ℤ) : 900 ≤ clampTimespan nActualTimespan ∧ clampTimespan nActualTimespan ≤ 14400 := by
  simp only [clampTimespan, nTargetTimespan]
  omega

/-- A quarter and four times the previous target, within the limit. -/
theorem exactTarget_bounds {previous : ℤ} (least : 4 ≤ previous) (most : previous ≤ bnProofOfWorkLimit)
    (nActualTimespan : ℤ) : previous / 4 ≤ exactTarget previous nActualTimespan ∧
      exactTarget previous nActualTimespan ≤ 4 * previous ∧ exactTarget previous nActualTimespan ≤ bnProofOfWorkLimit := by
  obtain ⟨low, high⟩ := clampTimespan_bounds nActualTimespan
  have nonneg : 0 ≤ previous := by omega
  have least : previous * 900 ≤ previous * clampTimespan nActualTimespan := Int.mul_le_mul_of_nonneg_left low nonneg
  have most : previous * clampTimespan nActualTimespan ≤ previous * 14400 := Int.mul_le_mul_of_nonneg_left high nonneg
  have span : (nTargetTimespan : ℤ) = 3600 := rfl
  simp only [exactTarget, span]
  omega

theorem retarget_eq {nBits : ℕ} {nActualTimespan : ℤ} (nonneg : 0 ≤ setCompact nBits) :
    retarget nBits nActualTimespan = getCompact (exactTarget (setCompact nBits) nActualTimespan) := by
  have span := (clampTimespan_bounds nActualTimespan).1
  have product : 0 ≤ setCompact nBits * clampTimespan nActualTimespan := Int.mul_nonneg nonneg (by omega)
  rw [retarget, exactTarget, min_comm bnProofOfWorkLimit, ← Int.tdiv_eq_ediv_of_nonneg product]
  rfl

/-- The decoded target after a retarget. -/
theorem setCompact_retarget {nBits : ℕ} (least : 4 ≤ setCompact nBits) (most : setCompact nBits ≤ bnProofOfWorkLimit)
    (nActualTimespan : ℤ) :
    IsGreatest (CompactTargets (exactTarget (setCompact nBits) nActualTimespan)) (setCompact (retarget nBits nActualTimespan)) ∧
      exactTarget (setCompact nBits) nActualTimespan * 2 ^ 15 ≤ setCompact (retarget nBits nActualTimespan) * (2 ^ 15 + 1) := by
  obtain ⟨low, -, limited⟩ := exactTarget_bounds least most nActualTimespan
  rw [retarget_eq (by omega)]
  obtain ⟨x, exactly⟩ := Int.eq_ofNat_of_zero_le (show 0 ≤ exactTarget (setCompact nBits) nActualTimespan by omega)
  rw [exactly] at limited ⊢
  have small : x < 2 ^ (8 * 30) := by
    simp only [bnProofOfWorkLimit] at limited
    omega
  have size : numBytes (2 * x) ≤ 255 := (numBytes_le_of_lt (n := 31) (by omega) (by decide)).trans (by decide)
  exact ⟨isGreatest_getCompact size, le_setCompact_getCompact size⟩

theorem lastOrdinaryBits_isOk {nProofOfWorkLimit : ℕ} {chain : List CBlockIndex} (nonempty : chain ≠ []) :
    ∃ nBits, lastOrdinaryBits nProofOfWorkLimit chain = .ok nBits := by
  induction chain with
  | nil => exact absurd rfl nonempty
  | cons pindex rest ih =>
    cases rest with
    | nil => exact ⟨_, rfl⟩
    | cons prev rest =>
      rw [lastOrdinaryBits]
      split_ifs
      · exact ih nofun
      · exact ⟨_, rfl⟩

/-- At the end of an interval the first block of the interval is there. -/
theorem getNextWorkRequired_of_dvd (rooted : Node.Rooted index genesis) (found : index pindex = some pindexLast)
    (last : (pindexLast.nHeight + 1) % nInterval = 0) : ∃ pindexFirst,
      (pprevs index (pindexLast.nHeight + 1) (some pindex))[nInterval - 1]? = some pindexFirst ∧
      pindexFirst.nHeight + nInterval = pindexLast.nHeight + 1 ∧
      getNextWorkRequired P (pprevs index (pindexLast.nHeight + 1) (some pindex)) nTime =
        .ok (retarget pindexLast.nBits ((pindexLast.nTime : ℤ) - pindexFirst.nTime)) := by
  have interval : nInterval = 60 := by decide
  have back : nInterval - 1 ≤ pindexLast.nHeight := by
    rw [interval] at last ⊢
    omega
  obtain ⟨pindexFirst, lies, height⟩ := rooted.getElem?_pprevs found back
  refine ⟨pindexFirst, lies, by omega, ?_⟩
  have chain : pprevs index (pindexLast.nHeight + 1) (some pindex) =
      pindexLast :: pprevs index pindexLast.nHeight pindexLast.pprev := by
    rw [pprevs, found]
  rw [chain] at lies ⊢
  rw [getNextWorkRequired, if_neg (not_not.mpr last), lies]
  rfl

theorem getNextWorkRequired_of_not_dvd (found : index pindex = some pindexLast)
    (inside : (pindexLast.nHeight + 1) % nInterval ≠ 0) :
    ∃ nBits, getNextWorkRequired P (pprevs index (pindexLast.nHeight + 1) (some pindex)) nTime = .ok nBits ∧
      (P.fTestNet = false → nBits = pindexLast.nBits) := by
  have chain : pprevs index (pindexLast.nHeight + 1) (some pindex) =
      pindexLast :: pprevs index pindexLast.nHeight pindexLast.pprev := by
    rw [pprevs, found]
  rw [chain, getNextWorkRequired, if_pos inside]
  split_ifs with test
  · exact ⟨_, rfl, fun ordinary => absurd test (by rw [ordinary]; exact Bool.false_ne_true)⟩
  · obtain ⟨nBits, done⟩ := @lastOrdinaryBits_isOk (getCompact bnProofOfWorkLimit)
      (pindexLast :: pprevs index pindexLast.nHeight pindexLast.pprev) (List.cons_ne_nil _ _)
    exact ⟨nBits, done, fun ordinary => absurd test (by rw [ordinary]; exact Bool.false_ne_true)⟩
  · exact ⟨_, rfl, fun _ => rfl⟩

/-- `GetNextWorkRequired` does not fail on any chain of an index. Off the test network it keeps the bits inside an
interval. At the end of one it gives the greatest compact target up to the exact one, which is positive, within
the limit, at most four times the old one and at least a quarter of it up to this rounding. -/
theorem getNextWorkRequired_law (rooted : Node.Rooted index genesis) (found : index pindex = some pindexLast) :
    (∃ nBits, getNextWorkRequired P (pprevs index (pindexLast.nHeight + 1) (some pindex)) nTime = .ok nBits) ∧
    (P.fTestNet = false →
      ((pindexLast.nHeight + 1) % nInterval ≠ 0 →
        getNextWorkRequired P (pprevs index (pindexLast.nHeight + 1) (some pindex)) nTime = .ok pindexLast.nBits) ∧
      ((pindexLast.nHeight + 1) % nInterval = 0 → ∃ nBits pindexFirst,
        getNextWorkRequired P (pprevs index (pindexLast.nHeight + 1) (some pindex)) nTime = .ok nBits ∧
        (pprevs index (pindexLast.nHeight + 1) (some pindex))[nInterval - 1]? = some pindexFirst ∧
        (4 ≤ setCompact pindexLast.nBits → setCompact pindexLast.nBits ≤ bnProofOfWorkLimit →
          IsGreatest (CompactTargets (exactTarget (setCompact pindexLast.nBits)
            ((pindexLast.nTime : ℤ) - pindexFirst.nTime))) (setCompact nBits) ∧
          0 < setCompact nBits ∧ setCompact nBits ≤ bnProofOfWorkLimit ∧
          setCompact nBits ≤ 4 * setCompact pindexLast.nBits ∧
          setCompact pindexLast.nBits / 4 * 2 ^ 15 ≤ setCompact nBits * (2 ^ 15 + 1)))) := by
  have interval := Decidable.em ((pindexLast.nHeight + 1) % nInterval = 0)
  refine ⟨?_, fun ordinary => ⟨fun inside => ?_, fun last => ?_⟩⟩
  · rcases interval with last | inside
    · obtain ⟨pindexFirst, -, -, work⟩ := getNextWorkRequired_of_dvd rooted found last
      exact ⟨_, work⟩
    · obtain ⟨nBits, work, -⟩ := getNextWorkRequired_of_not_dvd found inside
      exact ⟨nBits, work⟩
  · obtain ⟨nBits, work, kept⟩ := @getNextWorkRequired_of_not_dvd P index pindex pindexLast nTime found inside
    rw [work, kept ordinary]
  · obtain ⟨pindexFirst, lies, -, work⟩ := @getNextWorkRequired_of_dvd P index genesis pindex pindexLast nTime rooted
      found last
    refine ⟨_, pindexFirst, work, lies, fun least most => ?_⟩
    obtain ⟨greatest, rounded⟩ := setCompact_retarget least most ((pindexLast.nTime : ℤ) - pindexFirst.nTime)
    obtain ⟨low, high, limited⟩ := exactTarget_bounds least most ((pindexLast.nTime : ℤ) - pindexFirst.nTime)
    obtain ⟨-, -, -, -, below⟩ := greatest.1
    refine ⟨greatest, ?_, below.trans limited, below.trans high, ?_⟩
    · omega
    · omega

namespace TestNet

/-- A chain with one block a minute at the lowest difficulty. -/
def minuteChain : BlockMap := fun n =>
  some { phashBlock := some n, pprev := if n = 0 then none else some (n - 1), nHeight := n, nTime := 60 * n, nBits := 0x1e0fffff }

theorem rooted_minuteChain : Node.Rooted minuteChain 0 where
  self pindex entry found := by
    cases found
    rfl
  parent pindex entry prev found above := by
    cases found
    dsimp only at above ⊢
    split_ifs at above with first
    cases above
    exact ⟨_, rfl, (Nat.sub_add_cancel (Nat.pos_of_ne_zero first)).symm⟩
  root pindex entry found top := by
    cases found
    dsimp only at top
    split_ifs at top with first
    exact ⟨first, first⟩

end TestNet

open TestNet in
theorem getNextWorkRequired_law_minuteChain : ∃ nBits,
    getNextWorkRequired { platform with fTestNet := false } (pprevs minuteChain 60 (some 59)) 0 = .ok nBits ∧
      0 < setCompact nBits ∧ setCompact nBits ≤ bnProofOfWorkLimit := by
  have law := @getNextWorkRequired_law { platform with fTestNet := false } minuteChain 0 59 _ 0 rooted_minuteChain rfl
  obtain ⟨nBits, pindexFirst, work, -, target⟩ := (law.2 rfl).2 (by decide)
  obtain ⟨-, positive, limited, -⟩ := target (by decide) (by decide)
  exact ⟨nBits, work, positive, limited⟩

end BitCrystal

/-! ## The compact form of targets

Writing a positive number in the compact form and reading it back rounds it down by less than one part in 2^15.
The compact form keeps the order, and a number that was read from one is read back unchanged, whatever its sign.
-/

namespace BitCrystal

open Scaled

variable {x nCompact : ℕ}

private theorem numBytes_double (bound : x < 2 ^ (8 * 254)) : numBytes (2 * x) ≤ 255 := by
  apply numBytes_le_of_lt
  · rw [show 8 * 255 = 8 * 254 + 8 from rfl, pow_add]
    omega
  · decide

/-- Reading back what was written rounds down. -/
theorem setCompact_getCompact_rounds (positive : 0 < x) (bound : x < 2 ^ (8 * 254)) :
    ∃ w : ℕ, setCompact (getCompact x) = w ∧ 0 < w ∧ w ≤ x ∧ (x - w) * 2 ^ 15 < x := by
  obtain ⟨e, -, decoded, -, tight⟩ := setCompact_getCompact (numBytes_double bound)
  refine ⟨truncate 256 e x, decoded, truncate_pos positive (by decide) (by decide) tight, truncate_le, ?_⟩
  have close := le_truncate_mul (by decide) tight
  have below : truncate 256 e x ≤ x := truncate_le
  omega

/-- The mantissa of the larger number is the larger one where both have the same size. -/
theorem getCompact_mono {y : ℕ} (le : x ≤ y) (bound : y < 2 ^ (8 * 254)) : getCompact x ≤ getCompact y := by
  obtain ⟨compact, word⟩ := getCompact_spec (numBytes_double (le.trans_lt bound))
  obtain ⟨compact', -⟩ := getCompact_spec (numBytes_double bound)
  have size : numBytes (2 * x) ≤ numBytes (2 * y) := numBytes_mono (by omega)
  rw [compact, compact']
  rcases size.lt_or_eq with less | same
  · omega
  · rw [same]
    exact Nat.add_le_add_right (mantissa_mono le) _

theorem setCompact_getCompact_of_fits (fits : Fits 256 (2 ^ 15) x) (size : numBytes (2 * x) ≤ 255) :
    setCompact (getCompact x) = x := by
  obtain ⟨e, -, decoded, small, tight⟩ := setCompact_getCompact size
  obtain ⟨⟨-, below⟩, greatest⟩ := isGreatest_truncate (by decide) small tight
  rw [decoded, Nat.le_antisymm below (greatest ⟨fits, Nat.le_refl x⟩)]

theorem setCompact_add_sign (plain : nCompact / 2 ^ 23 % 2 = 0) :
    setCompact (nCompact + 2 ^ 23) = - setCompact nCompact := by
  have size : (nCompact + 2 ^ 23) / 2 ^ 24 = nCompact / 2 ^ 24 := by omega
  have word : (nCompact + 2 ^ 23) % 2 ^ 23 = nCompact % 2 ^ 23 := by omega
  have sign : (nCompact + 2 ^ 23) / 2 ^ 23 % 2 = 1 := by omega
  have unsigned : ¬ nCompact / 2 ^ 23 % 2 = 1 := by omega
  rw [setCompact, setCompact, size, word, if_pos sign, if_neg unsigned]

theorem getCompact_neg (positive : 0 < x) : getCompact (-(x : ℤ)) = getCompact x + 2 ^ 23 := by
  have negative : -(x : ℤ) < 0 := by omega
  have plain : ¬ (x : ℤ) < 0 := by omega
  have zero : -(x : ℤ) = 0 ↔ (x : ℤ) = 0 := by omega
  rw [getCompact, getCompact, if_pos negative, if_neg plain]
  simp only [Int.natAbs_neg, zero, add_zero]

/-- The largest compact form stays within 255 bytes. -/
private theorem numBytes_setCompact (range : nCompact < 2 ^ 32) :
    numBytes (2 * (setCompact nCompact).natAbs) ≤ 255 := by
  have word : nCompact % 2 ^ 23 < 2 ^ 23 := Nat.mod_lt _ (by decide)
  apply numBytes_le_of_lt
  · have double : 2 ^ (8 * 255) = 2 * (2 ^ 23 * 2 ^ (8 * 252)) := by
      rw [← pow_add, ← pow_succ']
    rw [double, natAbs_setCompact]
    apply Nat.mul_lt_mul_of_pos_left _ (by decide)
    split
    · calc
        _ ≤ nCompact % 2 ^ 23 := Nat.div_le_self ..
        _ < 2 ^ 23 := word
        _ ≤ _ := Nat.le_mul_of_pos_right _ (Nat.two_pow_pos _)
    · calc
        _ < 2 ^ 23 * 2 ^ (8 * (nCompact / 2 ^ 24 - 3)) := Nat.mul_lt_mul_of_pos_right word (Nat.two_pow_pos _)
        _ ≤ _ := Nat.mul_le_mul_left _ (Nat.pow_le_pow_right (by decide) (by omega))
  · decide

theorem setCompact_getCompact_setCompact (range : nCompact < 2 ^ 32) :
    setCompact (getCompact (setCompact nCompact)) = setCompact nCompact := by
  have fits := fits_natAbs_setCompact nCompact
  have size := numBytes_setCompact range
  have back := setCompact_getCompact_of_fits fits size
  generalize setCompact nCompact = bn at fits size back ⊢
  rcases Int.natAbs_eq bn with plain | negative
  · rw [← plain] at back
    exact back
  · rcases Nat.eq_zero_or_pos bn.natAbs with zero | positive
    · rw [Int.natAbs_eq_zero.mp zero]
      rfl
    · have sign : getCompact bn.natAbs / 2 ^ 23 % 2 = 0 := by
        obtain ⟨compact, word⟩ := getCompact_spec size
        rw [compact]
        omega
      rw [negative, getCompact_neg positive, setCompact_add_sign sign, back]

/-- Writing and reading compact targets. -/
theorem compact_target_laws :
    (∀ v : ℤ, 0 < v → v < 2 ^ (8 * 254) →
      IsGreatest (CompactTargets v) (setCompact (getCompact v)) ∧ 0 < setCompact (getCompact v) ∧
        setCompact (getCompact v) ≤ v ∧ (v - setCompact (getCompact v)) * 2 ^ 15 < v) ∧
    (∀ v w : ℤ, 0 ≤ v → v ≤ w → w < 2 ^ (8 * 254) → getCompact v ≤ getCompact w) ∧
    ∀ nCompact < 2 ^ 32, setCompact (getCompact (setCompact nCompact)) = setCompact nCompact := by
  refine ⟨?_, ?_, fun nCompact => setCompact_getCompact_setCompact⟩
  · intro v positive bound
    obtain ⟨x, rfl⟩ := Int.eq_ofNat_of_zero_le positive.le
    have bound : x < 2 ^ (8 * 254) := by exact_mod_cast bound
    obtain ⟨w, decoded, pos, below, close⟩ := setCompact_getCompact_rounds (Int.natCast_pos.mp positive) bound
    refine ⟨isGreatest_getCompact (numBytes_double bound), ?_⟩
    rw [decoded]
    omega
  · intro v w nonneg le bound
    obtain ⟨x, rfl⟩ := Int.eq_ofNat_of_zero_le nonneg
    obtain ⟨y, rfl⟩ := Int.eq_ofNat_of_zero_le (nonneg.trans le)
    exact getCompact_mono (Int.ofNat_le.mp le) (by exact_mod_cast bound)

private theorem lt_bound {v : ℤ} (small : v < 2 ^ 32) : v < 2 ^ (8 * 254) :=
  small.trans_le (pow_le_pow_right₀ (by decide) (by decide))

/-- A number that loses its last byte, two neighbours and a negative number. -/
theorem compact_target_laws_at :
    setCompact (getCompact 0x12345678) ≤ 0x12345678 ∧ getCompact 0x80 ≤ getCompact 0x81 ∧
      setCompact (getCompact (setCompact 0x01fedcba)) = setCompact 0x01fedcba :=
  ⟨(compact_target_laws.1 0x12345678 (by decide) (lt_bound (by omega))).2.2.1,
    compact_target_laws.2.1 0x80 0x81 (by decide) (by decide) (lt_bound (by omega)),
    compact_target_laws.2.2 0x01fedcba (by decide)⟩

end BitCrystal
