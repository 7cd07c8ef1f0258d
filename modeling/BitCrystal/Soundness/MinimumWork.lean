import BitCrystal.Model.ProcessBlock
import BitCrystal.Soundness.Retarget

/-! # The bound of `ComputeMinWork`

Between a block and a later one the target grows at most by the factors of the retargets between them. `ComputeMinWork`
grants a factor of four for each four time spans that have begun since the earlier block. The retargets take their time
spans from windows that begin before that block or end before the later one, so the factors can be more than what is
granted; where they are not, the bound holds.
-/

namespace BitCrystal

open Check TestNet

variable {P : Platform} {base above : List CBlockIndex} {pindexBase pindex : CBlockIndex} {nBits : ℕ} {bn nTime : ℤ}

/-- The factor of the retarget behind the last block of a chain. -/
def adjustment (chain : List CBlockIndex) : ℚ :=
  match chain.head?, chain[nInterval - 1]? with
  | some pindexLast, some pindexFirst => clampTimespan ((pindexLast.nTime : ℤ) - pindexFirst.nTime) / nTargetTimespan
  | _, _ => 1

/-- The factors of all retargets among the blocks above a base, the latest block first. -/
def easing (base : List CBlockIndex) : List CBlockIndex → ℚ
  | [] => 1
  | pindex :: above => easing base above * if pindex.nHeight % nInterval = 0 then adjustment (above ++ base) else 1

/-- Blocks above a base whose bits and times `AcceptBlock` accepts. -/
inductive Obeys (P : Platform) (base : List CBlockIndex) : List CBlockIndex → Prop
  | start : Obeys P base []
  | step {above : List CBlockIndex} {pindexPrev pindex : CBlockIndex} {nMedianTimePast : ℕ} : Obeys P base above →
      (above ++ base).head? = some pindexPrev → pindex.nHeight = pindexPrev.nHeight + 1 →
      getNextWorkRequired P (above ++ base) pindex.nTime = .ok pindex.nBits →
      getMedianTimePast (above ++ base) = .ok nMedianTimePast → nMedianTimePast < pindex.nTime →
      Obeys P base (pindex :: above)

/-- A block that passes the checks against the chain behind it. -/
theorem Obeys.of_checkAgainst {block : CBlock} {fCheckpoints : Bool} {pindexPrev : CBlockIndex}
    (obeys : Obeys P base above) (head : (above ++ base).head? = some pindexPrev)
    (passed : block.checkAgainst P fCheckpoints pindexPrev (above ++ base) = .ok ())
    (height : pindex.nHeight = pindexPrev.nHeight + 1) (bits : pindex.nBits = block.nBits)
    (time : pindex.nTime = block.nTime) : Obeys P base (pindex :: above) := by
  unfold CBlock.checkAgainst at passed
  obtain ⟨nBits, required, passed⟩ := bind_eq_ok.mp passed
  obtain ⟨_, same, passed⟩ := bind_eq_ok.mp passed
  obtain ⟨nMedianTimePast, median, passed⟩ := bind_eq_ok.mp passed
  obtain ⟨_, later, _⟩ := bind_eq_ok.mp passed
  have same := not_not.mp (rejectIf_eq_ok.mp same)
  have later := not_le.mp (rejectIf_eq_ok.mp later)
  refine .step obeys head height ?_ median (time ▸ later)
  rw [time, required, bits, same]

/-- A block whose bits `CheckProofOfWork` accepts, at the head of its chain. -/
structure Base (base : List CBlockIndex) (pindexBase : CBlockIndex) : Prop where
  head : base.head? = some pindexBase
  width : pindexBase.nBits < 2 ^ 32
  pos : 0 < setCompact pindexBase.nBits
  limit : setCompact pindexBase.nBits ≤ bnProofOfWorkLimit

/-- The rounds of four time spans that have begun. -/
def periods (nTime : ℤ) : ℕ := (nTime.toNat + (nTargetTimespan * 4 - 1)) / (nTargetTimespan * 4)

/-- The factors of the retargets are within what the time is granted for, or all targets are. -/
def Granted (base above : List CBlockIndex) (pindexBase : CBlockIndex) (nTime : ℤ) : Prop :=
  easing base above ≤ 4 ^ periods nTime ∨ bnProofOfWorkLimit ≤ setCompact pindexBase.nBits * 4 ^ periods nTime

theorem setCompact_getCompact_bounds (nonneg : 0 ≤ bn) (most : bn ≤ bnProofOfWorkLimit) :
    IsGreatest (CompactTargets bn) (setCompact (getCompact bn)) ∧ getCompact bn < 2 ^ 32 := by
  obtain ⟨x, rfl⟩ := Int.eq_ofNat_of_zero_le nonneg
  have small : x < 2 ^ (8 * 30) := by
    simp only [bnProofOfWorkLimit] at most
    omega
  have size : numBytes (2 * x) ≤ 255 := (numBytes_le_of_lt (n := 31) (by omega) (by decide)).trans (by decide)
  obtain ⟨e, width, -⟩ := setCompact_getCompact size
  exact ⟨isGreatest_getCompact size, width⟩

/-- What holds of the bits of every block of a chain. -/
structure Bits (nBits : ℕ) : Prop where
  width : nBits < 2 ^ 32
  nonneg : 0 ≤ setCompact nBits
  limit : setCompact nBits ≤ bnProofOfWorkLimit

/-- The target grows by the factor at most. -/
theorem retarget_le (bits : Bits nBits) (nActualTimespan : ℤ) : Bits (retarget nBits nActualTimespan) ∧
    (setCompact (retarget nBits nActualTimespan) : ℚ) ≤
      setCompact nBits * (clampTimespan nActualTimespan / nTargetTimespan) := by
  have span := (clampTimespan_bounds nActualTimespan).1
  have product : 0 ≤ setCompact nBits * clampTimespan nActualTimespan := Int.mul_nonneg bits.nonneg (by omega)
  have nonneg : 0 ≤ exactTarget (setCompact nBits) nActualTimespan :=
    le_min (by decide) (Int.ediv_nonneg product (by decide))
  have limited : exactTarget (setCompact nBits) nActualTimespan ≤ bnProofOfWorkLimit := min_le_left _ _
  obtain ⟨⟨⟨_, _, _, positive, below⟩, -⟩, width⟩ := setCompact_getCompact_bounds nonneg limited
  rw [retarget_eq bits.nonneg]
  refine ⟨⟨width, positive, below.trans limited⟩, ?_⟩
  have exactly : exactTarget (setCompact nBits) nActualTimespan * nTargetTimespan ≤
      setCompact nBits * clampTimespan nActualTimespan := by
    apply (Int.mul_le_mul_of_nonneg_right (min_le_right _ _) (by decide)).trans
    exact Int.ediv_mul_le _ (by decide)
  have scaled : setCompact (getCompact (exactTarget (setCompact nBits) nActualTimespan)) * nTargetTimespan ≤
      setCompact nBits * clampTimespan nActualTimespan :=
    (Int.mul_le_mul_of_nonneg_right below (by decide)).trans exactly
  have positive : (0 : ℚ) < nTargetTimespan := by norm_num [nTargetTimespan]
  rw [← mul_div_assoc, le_div_iff₀ positive]
  exact_mod_cast scaled

theorem Base.bits (start : Base base pindexBase) : Bits pindexBase.nBits := ⟨start.width, start.pos.le, start.limit⟩

/-- Off the test network the bits are those of the block before, or those of a retarget. -/
theorem getNextWorkRequired_cases {chain : List CBlockIndex} {pindexPrev : CBlockIndex} {time : ℕ}
    (main : ¬ P.fTestNet) (head : chain.head? = some pindexPrev) (required : getNextWorkRequired P chain time = .ok nBits) :
    ((pindexPrev.nHeight + 1) % nInterval ≠ 0 ∧ nBits = pindexPrev.nBits) ∨
    (pindexPrev.nHeight + 1) % nInterval = 0 ∧ ∃ nActualTimespan,
      nBits = retarget pindexPrev.nBits nActualTimespan ∧
      adjustment chain = clampTimespan nActualTimespan / nTargetTimespan := by
  obtain ⟨rest, rfl⟩ := List.head?_eq_some_iff.mp head
  rw [getNextWorkRequired] at required
  split at required
  next inside =>
    exact .inl ⟨inside, (Except.ok.inj required).symm⟩
  next last =>
    obtain ⟨pindexFirst, first, required⟩ := bind_eq_ok.mp required
    have first := assertSome_eq_ok.mp first
    refine .inr ⟨not_not.mp last, _, (pure_eq_ok.mp required).symm, ?_⟩
    rw [adjustment, first]
    rfl

/-- In a chain above a base every target is within the factors of the retargets. -/
theorem Obeys.target_le (main : ¬ P.fTestNet) (start : Base base pindexBase) (obeys : Obeys P base above)
    (head : (above ++ base).head? = some pindex) : Bits pindex.nBits ∧
      (setCompact pindex.nBits : ℚ) ≤ setCompact pindexBase.nBits * easing base above := by
  induction obeys generalizing pindex with
  | start =>
    obtain rfl : pindexBase = pindex := Option.some.inj (start.head.symm.trans head)
    rw [easing, mul_one]
    exact ⟨start.bits, le_rfl⟩
  | @step above pindexPrev pindex' _ _ prev height required _ _ ih =>
    obtain rfl : pindex' = pindex := Option.some.inj head
    obtain ⟨bits, within⟩ := ih prev
    rw [easing, height]
    rcases getNextWorkRequired_cases main prev required with ⟨inside, same⟩ | ⟨last, nActualTimespan, new, factor⟩
    · rw [if_neg inside, mul_one, same]
      exact ⟨bits, within⟩
    · obtain ⟨bits', grown⟩ := retarget_le bits nActualTimespan
      rw [if_pos last, new, factor, ← mul_assoc]
      refine ⟨bits', grown.trans (mul_le_mul_of_nonneg_right within ?_)⟩
      have span := (clampTimespan_bounds nActualTimespan).1
      have positive : (0 : ℚ) ≤ clampTimespan nActualTimespan := by exact_mod_cast (by omega)
      exact div_nonneg positive (Nat.cast_nonneg _)

theorem periods_of_nonpos (nonpositive : ¬ 0 < nTime) : periods nTime = 0 := by
  rw [periods, Int.toNat_eq_zero.mpr (not_lt.mp nonpositive)]
  decide

theorem periods_of_pos (positive : 0 < nTime) : periods nTime = periods (nTime - nTargetTimespan * 4) + 1 := by
  simp only [periods, nTargetTimespan]
  omega

/-- As many rounds as there are periods, or up to the limit. -/
theorem min_minWorkLoop (nonneg : 0 ≤ bn) {rounds : ℕ} (enough : periods nTime ≤ rounds) :
    min (minWorkLoop rounds bn nTime) bnProofOfWorkLimit = min (bn * 4 ^ periods nTime) bnProofOfWorkLimit := by
  induction rounds generalizing bn nTime with
  | zero =>
    rw [minWorkLoop, Nat.le_zero.mp enough, pow_zero, mul_one]
  | succ rounds ih =>
    rw [minWorkLoop]
    split
    next grows =>
      have step := periods_of_pos grows.1
      rw [ih (Int.mul_nonneg nonneg (by decide)) (by omega), step, pow_succ', ← mul_assoc]
    next stops =>
      by_cases positive : 0 < nTime
      · have full : bnProofOfWorkLimit ≤ bn := not_lt.mp fun small => stops ⟨positive, small⟩
        have power : (1 : ℤ) ≤ 4 ^ periods nTime := one_le_pow₀ (by decide)
        have more : bn ≤ bn * 4 ^ periods nTime := le_mul_of_one_le_right nonneg power
        rw [min_eq_right full, min_eq_right (full.trans more)]
      · rw [periods_of_nonpos positive, pow_zero, mul_one]

theorem computeMinWork_eq (main : ¬ P.fTestNet) (nonneg : 0 ≤ setCompact nBits) (nTime : ℤ) :
    computeMinWork P nBits nTime = getCompact (min (setCompact nBits * 4 ^ periods nTime) bnProofOfWorkLimit) := by
  have enough : periods nTime ≤ nTime.toNat / (nTargetTimespan * 4) + 1 := by
    simp only [periods, nTargetTimespan]
    omega
  rw [computeMinWork, if_neg (fun test => main test.1)]
  exact congrArg getCompact (min_minWorkLoop nonneg enough)

/-- A target is within the bound when it is within what is written in it. -/
theorem le_computeMinWork (main : ¬ P.fTestNet) (start : Base base pindexBase) (bits : Bits nBits)
    (within : setCompact nBits ≤ setCompact pindexBase.nBits * 4 ^ periods nTime) :
    setCompact nBits ≤ setCompact (computeMinWork P pindexBase.nBits nTime) := by
  rw [computeMinWork_eq main start.pos.le]
  have nonneg := bits.nonneg.trans (le_min within bits.limit)
  have greatest := (setCompact_getCompact_bounds nonneg (min_le_right _ _)).1
  exact greatest.2 ⟨nBits, bits.width, rfl, bits.nonneg, le_min within bits.limit⟩

/-- Off the test network, a block of a chain above a base has a target within the bound of `ComputeMinWork`, and passes
the filter of `ProcessBlock` with the base as checkpoint, where the retargets between them are within what is granted. -/
theorem computeMinWork_bounds (main : ¬ P.fTestNet) (start : Base base pindexBase) (obeys : Obeys P base (pindex :: above))
    (later : pindexBase.nTime ≤ pindex.nTime)
    (granted : Granted base (pindex :: above) pindexBase ((pindex.nTime : ℤ) - pindexBase.nTime)) :
    setCompact pindex.nBits ≤ setCompact (computeMinWork P pindexBase.nBits ((pindex.nTime : ℤ) - pindexBase.nTime)) ∧
    ∀ (hashBestChain : Uint256) (block : CBlock), block.nBits = pindex.nBits → block.nTime = pindex.nTime →
      Receiver.checkSpam P (some pindexBase) hashBestChain block = .ok () := by
  obtain ⟨bits, grown⟩ := obeys.target_le main start rfl
  have within : setCompact pindex.nBits ≤
      setCompact pindexBase.nBits * 4 ^ periods ((pindex.nTime : ℤ) - pindexBase.nTime) := by
    rcases granted with easy | all
    · have pos : (0 : ℚ) ≤ setCompact pindexBase.nBits := by exact_mod_cast start.pos.le
      exact_mod_cast grown.trans (mul_le_mul_of_nonneg_left easy pos)
    · exact bits.limit.trans all
  have bound := le_computeMinWork main start bits within
  refine ⟨bound, fun hashBestChain block sameBits sameTime => ?_⟩
  unfold Receiver.checkSpam
  simp only
  split_ifs
  · rfl
  · rw [sameBits, sameTime]
    have early : ¬ (pindex.nTime : ℤ) - pindexBase.nTime < 0 := by omega
    simp [rejectIf, early, not_lt.mpr bound]

namespace TestNet

/-- An interval of blocks that took more than four times as long as intended. -/
def slowInterval : List CBlockIndex :=
  (List.range 60).map fun back => { nHeight := 119 - back, nTime := 1500000000 - 250 * back, nBits := 0x1b0fffff }

def slowLast : CBlockIndex := { nHeight := 119, nTime := 1500000000, nBits := 0x1b0fffff }

/-- The block behind it, at some time, has four times the target. -/
def eased (nTime : ℕ) : CBlockIndex := { nHeight := 120, nTime := nTime, nBits := 0x1b3ffffc }

theorem base_slowInterval : Base slowInterval slowLast := ⟨by decide +kernel, by decide, by decide +kernel, by decide +kernel⟩

/-- The times of the last twelve blocks let it have the time of the block before. -/
theorem obeys_eased {nTime : ℕ} (late : 1499999250 < nTime) :
    Obeys { platform with fTestNet := false } slowInterval [eased nTime] := by
  have median : getMedianTimePast ([] ++ slowInterval) = .ok 1499999250 := by decide +kernel
  have required : getNextWorkRequired { platform with fTestNet := false } ([] ++ slowInterval) nTime = .ok 0x1b3ffffc := by
    rfl
  exact .step .start base_slowInterval.head rfl required median late

end TestNet

/-- A second behind the interval, where four time spans have begun. -/
theorem computeMinWork_bounds_eased :
    setCompact 0x1b3ffffc ≤ setCompact (computeMinWork { platform with fTestNet := false } 0x1b0fffff 1) ∧
    ∀ (hashBestChain : Uint256) (block : CBlock), block.nBits = 0x1b3ffffc → block.nTime = 1500000001 →
      Receiver.checkSpam { platform with fTestNet := false } (some slowLast) hashBestChain block = .ok () :=
  @computeMinWork_bounds _ _ _ _ (eased 1500000001) (by decide) base_slowInterval (obeys_eased (by decide)) (by decide)
    (.inl (by decide +kernel))

/-- At the time of the last block of the interval nothing is granted, and the filter rejects the block. -/
theorem computeMinWork_exceeded :
    Base slowInterval slowLast ∧ Obeys { platform with fTestNet := false } slowInterval [eased slowLast.nTime] ∧
    setCompact (computeMinWork { platform with fTestNet := false } slowLast.nBits 0) <
      setCompact (eased slowLast.nTime).nBits ∧
    Receiver.checkSpam { platform with fTestNet := false } (some slowLast) 0
      { hashPrevBlock := 1, hashMerkleRoot := 0, nTime := slowLast.nTime, nBits := 0x1b3ffffc, nNonce := 0, vtx := [] } =
        .error (.dos 100 "ProcessBlock() : block with too little proof-of-work") :=
  ⟨base_slowInterval, obeys_eased (by decide), by decide +kernel, by decide +kernel⟩

end BitCrystal
