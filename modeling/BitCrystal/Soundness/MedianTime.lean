import BitCrystal.Machine.Sampling
import BitCrystal.Model.GetWork
import BitCrystal.Model.TestNet
import BitCrystal.Proofs.ConnectBlock

/-! # Times and heights of blocks

What the median rule and the rule for the height in the coinbase give.
-/

/-! ## Block times

The median time of a block is the element at two thirds of its sorted window. A child that is later than the median
of its parent leaves no more elements of its own window below that median, so the medians along a chain do not fall.
-/

namespace BitCrystal

open OrderStatistic Check

/-- Chains of index entries, the nearest one first, each of them later than the median time of its parent. -/
inductive TimedChain : List CBlockIndex → Prop
  | root (pindex : CBlockIndex) : TimedChain [pindex]
  | child {pindex : CBlockIndex} {chain : List CBlockIndex} {nMedianTimePast : ℕ} (behind : TimedChain chain)
      (median : getMedianTimePast chain = .ok nMedianTimePast) (later : nMedianTimePast < pindex.nTime) :
      TimedChain (pindex :: chain)

/-- The times `GetMedianTimePast` sorts. -/
def medianWindow (chain : List CBlockIndex) : List ℕ := (chain.take nMedianTimeSpan).map CBlockIndex.nTime

variable {chain : List CBlockIndex} {nMedianTimePast : ℕ} {P : Platform}

theorem getMedianTimePast_eq_ok : getMedianTimePast chain = .ok nMedianTimePast ↔
      nth (medianWindow chain) ((medianWindow chain).length * 2 / 3) = some nMedianTimePast := by
  rw [getMedianTimePast, assertSome_eq_ok, List.length_insertionSort]
  rfl

/-- The index into the window is in range. -/
theorem median_index_lt (nonempty : chain ≠ []) :
    (medianWindow chain).length * 2 / 3 < (medianWindow chain).length := by
  have positive := List.length_pos_of_ne_nil nonempty
  rw [medianWindow, List.length_map, List.length_take, nMedianTimeSpan]
  omega

theorem exists_getMedianTimePast (nonempty : chain ≠ []) :
    ∃ nMedianTimePast, getMedianTimePast chain = .ok nMedianTimePast ∧
      ∃ pindex ∈ chain, pindex.nTime = nMedianTimePast := by
  obtain ⟨nMedianTimePast, found⟩ := exists_nth (median_index_lt nonempty)
  refine ⟨nMedianTimePast, getMedianTimePast_eq_ok.mpr found, ?_⟩
  obtain ⟨pindex, member, time⟩ := List.mem_map.mp (mem_of_nth found)
  exact ⟨pindex, List.mem_of_mem_take member, time⟩

theorem TimedChain.of_suffix {chain' : List CBlockIndex} (timed : TimedChain chain) (behind : chain' <:+ chain)
    (nonempty : chain' ≠ []) : TimedChain chain' := by
  induction timed with
  | root pindex =>
    rcases List.suffix_cons_iff.mp behind with rfl | behind
    · exact .root pindex
    · exact absurd (List.suffix_nil.mp behind) nonempty
  | child timed median later ih =>
    rcases List.suffix_cons_iff.mp behind with rfl | behind
    · exact .child timed median later
    · exact ih behind

/-- One more block does not lower the median. -/
theorem getMedianTimePast_le_child {pindex : CBlockIndex} {before after : ℕ}
    (median : getMedianTimePast chain = .ok before) (later : before < pindex.nTime)
    (median' : getMedianTimePast (pindex :: chain) = .ok after) : before ≤ after := by
  rw [getMedianTimePast_eq_ok] at median median'
  apply nth_le_nth median median'
  · simp only [medianWindow, List.length_map, List.length_take, List.length_cons]
    omega
  · have window : medianWindow (pindex :: chain) = pindex.nTime :: (chain.take 11).map CBlockIndex.nTime := rfl
    have inside : ((chain.take 11).map CBlockIndex.nTime).Sublist (medianWindow chain) :=
      (List.take_sublist_take_left (by decide)).map _
    rw [window, List.countP_cons_of_neg (by simpa using later.le)]
    exact inside.countP_le

theorem getNextWorkRequired_ne_dos {nTime level : ℕ} {message : String} :
    getNextWorkRequired P chain nTime ≠ .error (.dos level message) := by
  have ordinary (nProofOfWorkLimit : ℕ) (chain : List CBlockIndex) :
      lastOrdinaryBits nProofOfWorkLimit chain ≠ .error (.dos level message) := by
    induction chain with
    | nil => nofun
    | cons pindex chain ih =>
      cases chain with
      | nil => nofun
      | cons prev rest =>
        rw [lastOrdinaryBits]
        split
        · exact ih
        · nofun
  unfold getNextWorkRequired
  cases chain with
  | nil => nofun
  | cons pindexLast rest =>
    dsimp only
    split
    · split
      · split
        · nofun
        · exact ordinary _ _
      · nofun
    · exact bind_ne_error (assertSome_ne_error nofun) fun _ => nofun

/-- A block later than the median is not rejected for its time. -/
theorem checkAgainst_ne_early {block : CBlock}
    (median : getMedianTimePast chain = .ok nMedianTimePast) (later : nMedianTimePast < block.nTime)
    (fCheckpoints : Bool) (pindexPrev : CBlockIndex) : block.checkAgainst P fCheckpoints pindexPrev chain ≠
      .error (.dos 0 "AcceptBlock() : block's timestamp is too early") := by
  have height (nHeight : ℕ) :
      block.checkHeight nHeight ≠ .error (.dos 0 "AcceptBlock() : block's timestamp is too early") := by
    have equal (first second : CScript) :
        stdEqual first second ≠ .error (.dos 0 "AcceptBlock() : block's timestamp is too early") := by
      induction first generalizing second with
      | nil => exact ok_ne_error
      | cons a first ih =>
        cases second with
        | nil => simp [stdEqual]
        | cons b second =>
          rw [stdEqual]
          split
          · exact ih second
          · exact ok_ne_error
    unfold CBlock.checkHeight
    refine bind_ne_error (assertSome_ne_error (by simp)) fun tx _ => ?_
    refine bind_ne_error (assertSome_ne_error (by simp)) fun txin _ => ?_
    exact bind_ne_error (equal _ _) fun same _ => Check.rejectIf_ne_error (by simp)
  unfold CBlock.checkAgainst
  apply bind_ne_error getNextWorkRequired_ne_dos
  intro nBits _
  apply bind_ne_error (Check.rejectIf_ne_error (by simp))
  intro _ _
  rw [median, Check.ok_bind, rejectIf, if_neg later.not_ge, Check.ok_bind]
  apply bind_ne_error (Check.rejectIf_ne_error (by simp))
  intro _ _
  apply bind_ne_error (Check.rejectIf_ne_error (by simp))
  intro _ _
  split_ifs
  · exact height _
  · exact ok_ne_error
  · exact height _
  · exact ok_ne_error

/-- The time `UpdateTime` sets is later than the median. -/
theorem lt_nTime_of_updateTime {nAdjustedTime : ℤ} {block block' : CBlock}
    (median : getMedianTimePast chain = .ok nMedianTimePast)
    (range : nMedianTimePast < 2 ^ 32 - 1) (adjusted : nAdjustedTime < 2 ^ 32 - 1)
    (updated : block.updateTime P chain nAdjustedTime = .ok block') : nMedianTimePast < block'.nTime := by
  have time : block'.nTime = (max (nMedianTimePast + 1 : ℤ) nAdjustedTime % 2 ^ 32).toNat := by
    rw [CBlock.updateTime, median, Check.ok_bind] at updated
    dsimp only at updated
    split at updated
    · obtain ⟨nBits, -, result⟩ := Check.bind_eq_ok.mp updated
      rw [← pure_eq_ok.mp result]
    · rw [← pure_eq_ok.mp updated]
  rw [time]
  omega

/-- On the main network it always sets one. -/
theorem exists_updateTime (nonempty : chain ≠ []) (main : P.fTestNet = false)
    (nAdjustedTime : ℤ) (block : CBlock) : ∃ block', block.updateTime P chain nAdjustedTime = .ok block' := by
  obtain ⟨nMedianTimePast, median, -⟩ := exists_getMedianTimePast nonempty
  rw [CBlock.updateTime, median, Check.ok_bind, main]
  exact ⟨_, rfl⟩

/-- Medians along chains, the index into the window, and the time rule after `UpdateTime`. -/
theorem medianTimePast_laws :
    (∀ chain, TimedChain chain → ∀ pindex behind, pindex :: behind <:+ chain → behind ≠ [] →
      ∃ before after, getMedianTimePast behind = .ok before ∧ getMedianTimePast (pindex :: behind) = .ok after ∧
        before ≤ after) ∧
    (∀ chain : List CBlockIndex, chain ≠ [] →
      (medianWindow chain).length * 2 / 3 < (medianWindow chain).length ∧
        ∃ nMedianTimePast, getMedianTimePast chain = .ok nMedianTimePast) ∧
    ∀ (P : Platform) (chain : List CBlockIndex) (nAdjustedTime : ℤ) (block : CBlock), chain ≠ [] →
      (∀ pindex ∈ chain, pindex.nTime < 2 ^ 32 - 1) → nAdjustedTime < 2 ^ 32 - 1 →
      (P.fTestNet = false → ∃ block', block.updateTime P chain nAdjustedTime = .ok block') ∧
      ∀ block', block.updateTime P chain nAdjustedTime = .ok block' →
        (∃ nMedianTimePast, getMedianTimePast chain = .ok nMedianTimePast ∧ nMedianTimePast < block'.nTime) ∧
        ∀ fCheckpoints pindexPrev, block'.checkAgainst P fCheckpoints pindexPrev chain ≠
          .error (.dos 0 "AcceptBlock() : block's timestamp is too early") := by
  refine ⟨?_, ?_, ?_⟩
  · intro chain timed pindex behind suffix nonempty
    cases timed.of_suffix suffix nofun with
    | root => exact absurd rfl nonempty
    | child timed median later =>
      obtain ⟨after, median', -⟩ := exists_getMedianTimePast (List.cons_ne_nil pindex behind)
      exact ⟨_, after, median, median', getMedianTimePast_le_child median later median'⟩
  · intro chain nonempty
    obtain ⟨nMedianTimePast, median, -⟩ := exists_getMedianTimePast nonempty
    exact ⟨median_index_lt nonempty, nMedianTimePast, median⟩
  · intro P chain nAdjustedTime block nonempty times adjusted
    refine ⟨fun main => exists_updateTime nonempty main nAdjustedTime block, ?_⟩
    intro block' updated
    obtain ⟨nMedianTimePast, median, pindex, member, rfl⟩ := exists_getMedianTimePast nonempty
    have later := lt_nTime_of_updateTime median (times pindex member) adjusted updated
    exact ⟨⟨pindex.nTime, median, later⟩, checkAgainst_ne_early median later⟩

/-- Two blocks, the second one later, and a header on top of them. -/
theorem medianTimePast_laws_at :
    (∃ before after, getMedianTimePast [{ nTime := 5 }] = .ok before ∧
      getMedianTimePast [{ nTime := 7 }, { nTime := 5 }] = .ok after ∧ before ≤ after) ∧
    (medianWindow [{ nTime := 5 }]).length * 2 / 3 < (medianWindow [{ nTime := 5 }]).length ∧
    ∃ block', CBlock.updateTime { TestNet.platform with fTestNet := false } [{ nTime := 5 }] 9
        { hashPrevBlock := 0, hashMerkleRoot := 0, nTime := 0, nBits := 0, nNonce := 0, vtx := [] } = .ok block' ∧
      ∃ nMedianTimePast, getMedianTimePast [{ nTime := 5 }] = .ok nMedianTimePast ∧ nMedianTimePast < block'.nTime := by
  refine ⟨medianTimePast_laws.1 _ (.child (.root { nTime := 5 }) rfl (by decide)) _ _ List.suffix_rfl nofun,
    (medianTimePast_laws.2.1 [{ nTime := 5 }] nofun).1, ?_⟩
  have updates := medianTimePast_laws.2.2 { TestNet.platform with fTestNet := false } [{ nTime := 5 }] 9
    { hashPrevBlock := 0, hashMerkleRoot := 0, nTime := 0, nBits := 0, nNonce := 0, vtx := [] } nofun
    (by decide) (by decide)
  obtain ⟨block', updated⟩ := updates.1 rfl
  exact ⟨block', updated, (updates.2 block' updated).1⟩

end BitCrystal

/-! ## The height in the coinbase

A block that passes `CheckBlock` has a coinbase script of at least two bytes, but from height 128 on the serialized
height is longer. `std::equal` leaves the script exactly where the script is a shorter start of the height.
-/

namespace BitCrystal

open CScript

theorem stdEqual_eq_undefined {first second : CScript} :
    stdEqual first second = .error .undefined ↔ second <+: first ∧ second ≠ first := by
  induction first generalizing second with
  | nil =>
    simp only [stdEqual, List.prefix_nil, reduceCtorEq, false_iff, not_and, not_not]
    exact id
  | cons a first ih =>
    cases second with
    | nil => simp [stdEqual]
    | cons b second =>
      rw [stdEqual]
      split
      next same => simp [ih, same, List.cons_prefix_cons]
      next other => simp [List.cons_prefix_cons, Ne.symm other]

theorem stdEqual_eq_true {first second : CScript} : stdEqual first second = .ok true ↔ first <+: second := by
  induction first generalizing second with
  | nil => simp [stdEqual]
  | cons a first ih =>
    cases second with
    | nil => simp [stdEqual]
    | cons b second =>
      rw [stdEqual]
      split
      next same => simp [ih, same, List.cons_prefix_cons]
      next other => simp [List.cons_prefix_cons, other]

namespace CBlock

/-- `vtx[0].vin[0].scriptSig`. -/
def coinbaseScript (block : CBlock) : CScript :=
  ((block.vtx.head?.bind fun tx => tx.vin.head?).map CTxIn.scriptSig).getD []

/-- A block of the new version after enough others. -/
def HeightRuleActive (block : CBlock) (P : Platform) (chain : List CBlockIndex) : Prop :=
  2 ≤ block.nVersion ∧ (if P.fTestNet then isSuperMajority 2 chain 51 100 else isSuperMajority 2 chain 750 1000) = true

instance (block : CBlock) (P : Platform) (chain : List CBlockIndex) : Decidable (block.HeightRuleActive P chain) :=
  inferInstanceAs (Decidable (_ ∧ _))

/-- The last step of `checkAgainst`. -/
def checkHeightRule (block : CBlock) (P : Platform) (chain : List CBlockIndex) (nHeight : ℕ) : Check Unit :=
  if block.HeightRuleActive P chain then block.checkHeight nHeight else pure ()

variable {block : CBlock} {P : Platform} {fCheckPOW fCheckMerkleRoot : Bool}

theorem checkHeightRule_of_checkAgainst {fCheckpoints : Bool} {pindexPrev : CBlockIndex} {chain : List CBlockIndex}
    (passed : block.checkAgainst P fCheckpoints pindexPrev chain = .ok ()) :
    block.checkHeightRule P chain (pindexPrev.nHeight + 1) = .ok () := by
  simp only [checkAgainst, Check.bind_eq_ok] at passed
  obtain ⟨_, -, _, -, _, -, _, -, _, -, _, -, last⟩ := passed
  exact last

/-- The coinbase of a block that passes `CheckBlock` has one input, with two bytes at least. -/
theorem exists_coinbase (checked : block.checkBlock P fCheckPOW fCheckMerkleRoot = .ok ()) :
    ∃ tx txin, block.vtx.head? = some tx ∧ tx.vin.head? = some txin ∧ block.coinbaseScript = txin.scriptSig ∧
      2 ≤ txin.scriptSig.length := by
  obtain ⟨tx, rest, vtx, coinbase, -⟩ := (checked_of_checkBlock checked).first
  obtain ⟨txin, vin⟩ := List.length_eq_one_iff.mp coinbase.1
  have each : tx.checkTransaction = .ok () := each_of_checkBlock checked (by rw [vtx]; exact List.mem_cons_self ..)
  refine ⟨tx, txin, by rw [vtx]; rfl, by rw [vin]; rfl, ?_, ?_⟩
  · rw [coinbaseScript, vtx, List.head?_cons, Option.bind_some, vin]
    rfl
  · simp only [CTransaction.checkTransaction, Check.bind_eq_ok, Check.rejectIf_eq_ok, coinbase, if_true, vin,
      List.mem_singleton, exists_eq_left, not_or] at each
    obtain ⟨_, -, _, -, _, -, _, -, _, -, size⟩ := each
    omega

theorem checkHeight_eq
    (checked : block.checkBlock P fCheckPOW fCheckMerkleRoot = .ok ()) (nHeight : ℕ) : block.checkHeight nHeight =
      stdEqual (pushHeight nHeight) block.coinbaseScript >>= fun same =>
        rejectIf (¬ same) (.dos 100 "AcceptBlock() : block height mismatch in coinbase") := by
  obtain ⟨tx, txin, first, input, script, -⟩ := exists_coinbase checked
  rw [checkHeight, first, script]
  simp only [assertSome, Check.ok_bind, input]

/-- The comparison leaves the script where the script is a proper start of the height. -/
theorem checkHeight_eq_undefined (checked : block.checkBlock P fCheckPOW fCheckMerkleRoot = .ok ()) {nHeight : ℕ} :
    block.checkHeight nHeight = .error .undefined ↔
      block.coinbaseScript <+: pushHeight nHeight ∧ block.coinbaseScript ≠ pushHeight nHeight := by
  rw [checkHeight_eq checked, Check.bind_eq_error, stdEqual_eq_undefined]
  apply or_iff_left
  rintro ⟨same, -, rejected⟩
  exact Check.rejectIf_ne_error (by simp) rejected

theorem checkHeight_eq_ok (checked : block.checkBlock P fCheckPOW fCheckMerkleRoot = .ok ()) {nHeight : ℕ} :
    block.checkHeight nHeight = .ok () ↔ pushHeight nHeight <+: block.coinbaseScript := by
  rw [checkHeight_eq checked, Check.bind_eq_ok, ← stdEqual_eq_true]
  simp only [Check.rejectIf_eq_ok, not_not, exists_eq_right]

/-- The rule reads only the script and compares it with the height, except where the script is a proper start of it. -/
theorem checkHeightRule_iff {block : CBlock} {P : Platform} {fCheckPOW fCheckMerkleRoot : Bool}
    (checked : block.checkBlock P fCheckPOW fCheckMerkleRoot = .ok ()) (chain : List CBlockIndex) (nHeight : ℕ) :
    (block.checkHeightRule P chain nHeight ≠ .error .undefined ∧ (block.HeightRuleActive P chain →
        (block.checkHeightRule P chain nHeight = .ok () ↔ pushHeight nHeight <+: block.coinbaseScript))) ↔
    ¬ (block.HeightRuleActive P chain ∧ block.coinbaseScript <+: pushHeight nHeight ∧
      block.coinbaseScript ≠ pushHeight nHeight) := by
  rw [checkHeightRule]
  split
  next active =>
    simp only [active, true_and, forall_const, checkHeight_eq_ok checked, and_true, ne_eq,
      checkHeight_eq_undefined checked]
  next idle =>
    simp only [idle, false_and, not_false_eq_true, IsEmpty.forall_iff, and_true, iff_true]
    nofun

end CBlock

namespace TestNet

/-- Sixty blocks of the new version up to height 127. -/
def newVersions : List CBlockIndex := (List.range 60).map fun back => { entry 8 7 (127 - back) with nVersion := 2 }

/-- The script is the length byte and the first of the two bytes of 128. -/
def halfHeight : CBlock :=
  mineAt 1400000060 9 8 [{ coinbase 1 0 with vin := [{ prevout := .null, scriptSig := [0x02, 0x80] }] }]

theorem checkBlock_halfHeight : halfHeight.checkBlock platform true true = .ok () := by
  obtain ⟨⟨⟩, checked⟩ := Check.exists_of_isOk (show (halfHeight.checkBlock platform true true).isOk = true by decide)
  exact checked

set_option maxRecDepth 4000 in
/-- The comparison reads a third byte of two. -/
theorem checkAgainst_halfHeight :
    halfHeight.checkBlock platform true true = .ok () ∧ halfHeight.coinbaseScript.length = 2 ∧
      halfHeight.checkHeightRule platform newVersions 128 = .error .undefined ∧
      halfHeight.checkAgainst platform true { entry 8 7 127 with nVersion := 2 } newVersions = .error .undefined := by
  refine ⟨checkBlock_halfHeight, rfl, ?_, ?_⟩
  · rfl
  · rfl

set_option maxRecDepth 4000 in
/-- The same block where the height is 641, and where the rule is not active yet. -/
theorem checkHeightRule_iff_at :
    (halfHeight.checkHeightRule platform newVersions 641 ≠ .error .undefined ∧
      halfHeight.checkHeightRule platform newVersions 641 ≠ .ok ()) ∧
    halfHeight.checkHeightRule platform [] 128 ≠ .error .undefined := by
  have differs := (CBlock.checkHeightRule_iff checkBlock_halfHeight newVersions 641).mpr (by decide)
  refine ⟨⟨differs.1, fun passed => ?_⟩,
    ((CBlock.checkHeightRule_iff checkBlock_halfHeight [] 128).mpr (by decide)).1⟩
  exact absurd ((differs.2 (by decide)).mp passed) (by decide)

end TestNet

end BitCrystal
