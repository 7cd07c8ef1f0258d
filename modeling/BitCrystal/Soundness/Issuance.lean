import BitCrystal.Model.TestNet
import BitCrystal.Proofs.Amounts
import Mathlib.Algebra.BigOperators.Intervals

/-! # The issuance bound

Connecting a block keeps the value of the view plus the fees collected below the value before the
block plus the outputs of its coinbase. The coinbase is limited to subsidy and fees, so over a whole
chain the unspent value is bounded by the subsidies, and this bound in turn keeps every sum inside
`int64`.
-/

namespace BitCrystal

open Holdings CBlock Check CCoinsViewCache CTransaction

/-- `GetBlockValue` without fees. -/
def blockSubsidy (nHeight : ℕ) : ℤ :=
  if nHeight = 0 then nGenesisBlockRewardCoin
  else if nHeight < 100 then shiftRight64 nBlockRewardStartCoin (nHeight / 10)
  else laterSubsidy nHeight

private theorem shiftRight64_bounds {n : ℤ} (nonneg : 0 ≤ n) (shift : ℕ) :
    0 ≤ shiftRight64 n shift ∧ shiftRight64 n shift ≤ n :=
  ⟨Int.ediv_nonneg nonneg (pow_nonneg (by decide) _), Int.ediv_le_self _ nonneg⟩

theorem laterSubsidy_bounds (nHeight : ℕ) : 0 ≤ laterSubsidy nHeight ∧ laterSubsidy nHeight ≤ 9766 * COIN := by
  have shifted := shiftRight64_bounds (show 0 ≤ nBlockRewardLastCoin by decide) (nHeight / 1440)
  simp only [laterSubsidy, nBlockRewardLastCoin, nBlockRewardMinimumCoin, nBlockRewardFreedomForAllLastCoin,
    COIN] at *
  split_ifs <;> omega

theorem blockSubsidy_bounds {nHeight : ℕ} (positive : 0 < nHeight) :
    0 ≤ blockSubsidy nHeight ∧ blockSubsidy nHeight ≤ if nHeight < 100 then 10 ^ 12 else 9766 * COIN := by
  rw [blockSubsidy, if_neg positive.ne']
  split_ifs with early
  · exact shiftRight64_bounds (show 0 ≤ nBlockRewardStartCoin by decide) (nHeight / 10)
  · exact laterSubsidy_bounds nHeight

/-- Above genesis the value of a block is the subsidy and at most the fees. -/
theorem getBlockValue_le {nHeight nBits : ℕ} {nFees nLimit : ℤ} (positive : 0 < nHeight) (nonneg : 0 ≤ nFees)
    (limit : getBlockValue nHeight nFees nBits = .ok nLimit) : nLimit ≤ blockSubsidy nHeight + nFees := by
  rw [getBlockValue, if_neg positive.ne'] at limit
  rw [blockSubsidy, if_neg positive.ne']
  split_ifs at limit ⊢ with early
  · cases limit
    omega
  · rw [int64_eq_ok] at limit
    omega

theorem getBlockValue_zero (nHeight nBits : ℕ) : getBlockValue nHeight 0 nBits = .ok (blockSubsidy nHeight) := by
  have later := laterSubsidy_bounds nHeight
  rw [getBlockValue, blockSubsidy]
  split_ifs
  · rfl
  · rfl
  · rw [int64_eq_ok, add_zero]
    simp only [COIN] at later
    exact ⟨⟨by omega, by omega⟩, rfl⟩

private theorem getBlockValue_ne_overflow {nHeight nBits : ℕ} {nFees : ℤ} (nonneg : 0 ≤ nFees)
    (bound : nFees < 2 ^ 62) : getBlockValue nHeight nFees nBits ≠ .error .overflow := by
  have later := laterSubsidy_bounds nHeight
  rw [getBlockValue]
  split_ifs
  · exact nofun
  · exact nofun
  · apply int64_ne_overflow
    simp only [InInt64, COIN] at *
    omega

/-- All subsidies below the height limit together leave room for any fee tally. -/
private theorem sum_blockSubsidy_le (n : ℕ) :
    ∑ h ∈ Finset.Icc 1 n, blockSubsidy h ≤ (min n 99 : ℕ) * 10 ^ 12 + n * (9766 * COIN) := by
  induction n with
  | zero => simp
  | succ n ih =>
    have next := (blockSubsidy_bounds (Nat.le_add_left 1 n)).2
    rw [Finset.sum_Icc_succ_top (Nat.le_add_left 1 n)]
    simp only [COIN] at *
    split_ifs at next <;> omega

/-- What the transaction loop keeps: the unspent value and the fees together have a bound. -/
structure Conserves (bound : ℤ) (state : ConnectState) : Prop where
  sound : state.view.SoundCoins
  fees : 0 ≤ state.nFees
  total : state.view.value + state.nFees ≤ bound

namespace Conserves

variable {P : Platform} {index : BlockMap} {pindex : CBlockIndex} {state next : ConnectState} {bound : ℤ}
  {tx : CTransaction}

section

variable (conserves : Conserves bound state)
include conserves

theorem nFees_le : state.nFees ≤ bound := by
  have := conserves.sound.total_nonneg
  have := conserves.total
  simp only [CCoinsViewCache.value] at this
  omega

theorem value_le : state.view.value ≤ bound := by
  have := conserves.fees
  have := conserves.total
  omega

theorem connectTx_coinBase {nValueOut : ℤ} (coinbase : tx.isCoinBase)
    (valid : tx.Valid) (valueOut : tx.getValueOut = .ok nValueOut)
    (connected : connectTx P index pindex state tx = .ok next) : Conserves (bound + nValueOut) next := by
  obtain ⟨view, fees, -⟩ := CBlock.connectTx_coinBase coinbase connected
  have nonneg (out : CTxOut) (member : out ∈ tx.vout) : 0 ≤ out.nValue := (valid.values out member).1
  have sum := valueOutLoop_eq valueOut
  have added : next.view.value ≤ state.view.value + (tx.vout.map CTxOut.nValue).sum := by
    rw [view]
    exact value_setCoins_le _ conserves.sound nonneg
  refine ⟨?_, fees ▸ conserves.fees, ?_⟩
  · rw [view]
    exact sound_setCoins _ conserves.sound nonneg
  · have := conserves.total
    omega

theorem connectTx_ordinary (ordinary : ¬ tx.isCoinBase) (valid : tx.Valid)
    (connected : connectTx P index pindex state tx = .ok next) : Conserves bound next := by
  obtain ⟨txundo, nValueIn, nValueOut, facts⟩ := CBlock.connectTx_ordinary ordinary connected
  have nonneg (out : CTxOut) (member : out ∈ tx.vout) : 0 ≤ out.nValue := (valid.values out member).1
  have sum := valueOutLoop_eq facts.valueOut
  have summed := facts.valueIn
  rw [getValueIn, if_neg ordinary] at summed
  have input := valueInLoop_eq summed
  obtain ⟨checks, checked⟩ := facts.checked
  obtain ⟨sameOut, valueOut, enough⟩ := checkInputs_fee ordinary checked
  obtain rfl : nValueOut = sameOut := Except.ok.inj (facts.valueOut.symm.trans valueOut)
  obtain ⟨sound, moved⟩ := value_updateCoins ordinary valid.distinct nonneg conserves.sound facts.updated
  have := facts.fees
  have := conserves.fees
  have := conserves.total
  exact ⟨sound, by omega, by omega⟩

theorem connectTxs {txs : List CTransaction} (ordinary : ∀ tx ∈ txs, ¬ tx.isCoinBase) (valid : ∀ tx ∈ txs, tx.Valid)
    (connected : CBlock.connectTxs P index pindex state txs = .ok next) : Conserves bound next := by
  induction txs generalizing state with
  | nil =>
    cases connected
    exact conserves
  | cons tx rest ih =>
    obtain ⟨middle, first, others⟩ := bind_eq_ok.mp connected
    refine ih ?_ (fun tx member => ordinary tx (List.mem_cons_of_mem _ member))
      (fun tx member => valid tx (List.mem_cons_of_mem _ member)) others
    exact conserves.connectTx_ordinary (ordinary tx (List.mem_cons_self ..)) (valid tx (List.mem_cons_self ..)) first

/-- A round of the loop, accepted or not, computes without overflow. -/
theorem connectTx_ne_overflow (small : bound < 2 ^ 62) (valid : tx.Valid) :
    connectTx P index pindex state tx ≠ .error .overflow := by
  have below := conserves.value_le
  have fees := conserves.nFees_le
  have nonneg := conserves.fees
  apply rejectIf_bind_ne_error (by simp)
  by_cases coinbase : tx.isCoinBase
  · rw [if_pos coinbase]
    exact bind_ne_error (tx.updateCoins_ne_overflow _ _ _) fun _ _ => ok_ne_error
  rw [if_neg coinbase]
  obtain ⟨nValueOut, valueOut, range⟩ := valid.valueOut
  simp only [moneyRange, MAX_MONEY, COIN] at range
  apply rejectIf_bind_ne_error (by simp)
  refine bind_ne_error ?_ fun _ _ => ?_
  · split_ifs
    · exact tx.getP2SHSigOpCount_ne_overflow
    · exact ok_ne_error
  apply rejectIf_bind_ne_error (by simp)
  refine bind_ne_error (getValueIn_ne_overflow valid conserves.sound (by omega))
    fun nValueIn summed => ?_
  rw [getValueIn, if_neg coinbase] at summed
  have input := valueInLoop_eq summed
  have := valueOf_le valid conserves.sound
  have := valueOf_nonneg conserves.sound tx.vin
  rw [valueOut, ok_bind]
  refine bind_ne_error (int64_ne_overflow ⟨by omega, by omega⟩) fun nTxFee fee => ?_
  rw [int64_eq_ok] at fee
  refine bind_ne_error (int64_ne_overflow ⟨by omega, by omega⟩) fun _ _ => ?_
  refine bind_ne_error (checkInputs_ne_overflow valid conserves.sound (by omega) _ _ _ _ _)
    fun _ _ => ?_
  exact bind_ne_error (tx.updateCoins_ne_overflow _ _ _) fun _ _ => ok_ne_error

theorem connectTxs_ne_overflow {txs : List CTransaction}
    (small : bound < 2 ^ 62) (ordinary : ∀ tx ∈ txs, ¬ tx.isCoinBase) (valid : ∀ tx ∈ txs, tx.Valid) :
    CBlock.connectTxs P index pindex state txs ≠ .error .overflow := by
  induction txs generalizing state with
  | nil => exact nofun
  | cons tx rest ih =>
    have first := valid tx (List.mem_cons_self ..)
    refine bind_ne_error (conserves.connectTx_ne_overflow small first) fun next connected => ?_
    exact ih (conserves.connectTx_ordinary (ordinary tx (List.mem_cons_self ..)) first connected)
      (fun tx member => ordinary tx (List.mem_cons_of_mem _ member))
      (fun tx member => valid tx (List.mem_cons_of_mem _ member))

end

end Conserves

section

variable {block : CBlock} {P : Platform} {disk : ConnectDisk} {index : BlockMap} {pindex : CBlockIndex}
  {self : BlockPtr} {view next : CCoinsViewCache}

/-- Connecting a block raises the unspent value by at most its subsidy. -/
theorem value_connectBlock (sound : view.SoundCoins) (height : 0 < pindex.nHeight)
    (connected : (block.connectBlock P disk index pindex self view false).result = .ok next) :
    next.SoundCoins ∧ next.value ≤ view.value + blockSubsidy pindex.nHeight := by
  have facts := connected_of_ok connected
  obtain ⟨-, rfl, -⟩ | ⟨-, final, coins, -, rfl, -⟩ := facts.coins
  · have subsidy := (blockSubsidy_bounds height).1
    exact ⟨sound, (le_add_iff_nonneg_right _).mpr subsidy⟩
  obtain ⟨coinbase, nValueOut, nLimit, stages⟩ := connectCoins_ok coins
  obtain ⟨first, rest, vtx, isCoinBase, ordinary⟩ := facts.checked.first
  have same := stages.first
  rw [vtx, List.head?_cons, Option.some.injEq] at same
  subst same
  have valid (tx : CTransaction) (member : tx ∈ first :: rest) : tx.Valid := facts.checked.each tx (vtx ▸ member)
  have loop := stages.loop
  rw [vtx] at loop
  obtain ⟨middle, head, others⟩ := bind_eq_ok.mp loop
  have initial : Conserves view.value { view } := ⟨sound, le_rfl, by simp⟩
  have added := initial.connectTx_coinBase isCoinBase (valid first (List.mem_cons_self ..)) stages.valueOut head
  have done := added.connectTxs ordinary (fun tx member => valid tx (List.mem_cons_of_mem _ member)) others
  have limit := getBlockValue_le height done.fees stages.limit
  have := done.total
  have := stages.pays
  exact ⟨done.sound, show final.view.value ≤ _ by omega⟩

private theorem forM_ne_error {α : Type*} {failure : Failure} {check : α → Check Unit}
    (each : ∀ a, check a ≠ .error failure) (l : List α) : l.forM check ≠ .error failure := by
  induction l with
  | nil => exact nofun
  | cons a rest ih =>
    rw [List.forM_eq_forM, List.forM_cons]
    exact bind_ne_error (each a) fun _ _ => ih

private theorem checkBlock_ne_overflow (fCheckPOW fCheckMerkleRoot : Bool) :
    block.checkBlock P fCheckPOW fCheckMerkleRoot ≠ .error .overflow := by
  refine rejectIf_bind_ne_error nofun ?_
  refine rejectIf_bind_ne_error nofun ?_
  refine rejectIf_bind_ne_error nofun ?_
  refine rejectIf_bind_ne_error nofun ?_
  refine rejectIf_bind_ne_error nofun ?_
  refine bind_ne_error (forM_ne_error checkTransaction_ne_overflow _) fun _ _ => ?_
  refine rejectIf_bind_ne_error nofun ?_
  refine rejectIf_bind_ne_error nofun ?_
  exact rejectIf_ne_error nofun

private theorem connectCoins_ne_overflow (checked : block.Checked P) (sound : view.SoundCoins)
    (bound : view.value + MAX_MONEY < 2 ^ 62) : block.connectCoins P index pindex view ≠ .error .overflow := by
  obtain ⟨coinbase, rest, vtx, isCoinBase, ordinary⟩ := checked.first
  have valid (tx : CTransaction) (member : tx ∈ coinbase :: rest) : tx.Valid := checked.each tx (vtx ▸ member)
  have first := valid coinbase (List.mem_cons_self ..)
  have others (tx : CTransaction) (member : tx ∈ rest) : tx.Valid := valid tx (List.mem_cons_of_mem _ member)
  obtain ⟨nValueOut, valueOut, range⟩ := first.valueOut
  have initial : Conserves view.value { view } := ⟨sound, le_rfl, by simp⟩
  have small : view.value < 2 ^ 62 := by
    simp only [MAX_MONEY, COIN] at bound
    omega
  have more : view.value + nValueOut < 2 ^ 62 := by
    simp only [moneyRange] at range
    omega
  apply rejectIf_bind_ne_error (by simp)
  rw [vtx]
  refine bind_ne_error ?_ fun final loop => ?_
  · refine bind_ne_error (initial.connectTx_ne_overflow small first) fun middle head => ?_
    exact (initial.connectTx_coinBase isCoinBase first valueOut head).connectTxs_ne_overflow more ordinary others
  obtain ⟨middle, head, rounds⟩ := bind_eq_ok.mp loop
  have added := initial.connectTx_coinBase isCoinBase first valueOut head
  have done := added.connectTxs ordinary others rounds
  have fees := done.nFees_le
  refine bind_ne_error (assertSome_ne_error (by simp)) fun found same => ?_
  rw [assertSome_eq_ok, List.head?_cons, Option.some.injEq] at same
  subst same
  rw [valueOut, ok_bind]
  refine bind_ne_error (getBlockValue_ne_overflow done.fees (by omega)) fun _ _ => ?_
  apply rejectIf_bind_ne_error (by simp)
  exact bind_ne_error (rejectIf_ne_error (by simp)) fun _ _ => ok_ne_error

private theorem connectWrites_ne_overflow (state : ConnectState) :
    (connectWrites P disk pindex self state).result ≠ .error .overflow := by
  unfold connectWrites writeBlockIndex writeTxIndex ConnectResult.fail
  cases disk.findUndoPos <;> dsimp only <;> split_ifs <;> exact nofun

theorem connectBlock_ne_overflow (sound : view.SoundCoins) (bound : view.value + MAX_MONEY < 2 ^ 62) :
    (block.connectBlock P disk index pindex self view false).result ≠ .error .overflow := by
  unfold connectBlock
  dsimp only
  cases passed : block.checkBlock P (!false) (!false) with
  | error failure =>
    intro same
    cases same
    exact checkBlock_ne_overflow _ _ passed
  | ok done =>
    dsimp only
    by_cases prev : pindex.pprev = view.getBestBlock
    · rw [if_neg (not_not.mpr prev)]
      by_cases genesis : block.getHash P = P.hashGenesisBlock
      · rw [if_pos genesis]
        exact nofun
      · rw [if_neg genesis]
        cases coins : block.connectCoins P index pindex view with
        | error failure =>
          intro same
          cases same
          exact connectCoins_ne_overflow (checked_of_checkBlock passed) sound bound coins
        | ok state => exact connectWrites_ne_overflow state
    · rw [if_pos prev]
      exact nofun

end

/-- The views after connecting blocks one above the other from the empty view of the genesis block. -/
inductive ConnectedChain (P : Platform) : ℕ → CCoinsViewCache → Prop
  | genesis {view : CCoinsViewCache} (empty : ∀ txid, view.getCoins txid = none) : ConnectedChain P 0 view
  | connect {n : ℕ} {view next : CCoinsViewCache} {block : CBlock} {disk : ConnectDisk} {index : BlockMap}
      {pindex : CBlockIndex} {self : BlockPtr} (chain : ConnectedChain P n view)
      (height : pindex.nHeight = n + 1) (limit : n + 1 < 2 ^ 31)
      (connected : (block.connectBlock P disk index pindex self view false).result = .ok next) :
      ConnectedChain P (n + 1) next

namespace ConnectedChain

variable {P : Platform} {n : ℕ} {view : CCoinsViewCache}

theorem value_le (chain : ConnectedChain P n view) :
    view.SoundCoins ∧ view.value ≤ ∑ h ∈ Finset.Icc 1 n, blockSubsidy h := by
  induction chain with
  | @genesis view empty =>
    have nothing : view.output? = fun _ => none := by
      funext out
      rw [output?, empty, Option.bind_none]
    refine ⟨⟨by simp [nothing], by simp [nothing]⟩, ?_⟩
    rw [CCoinsViewCache.value, nothing, total]
    exact (finsum_congr fun _ => worth_of_eq_none rfl).le.trans (by simp)
  | @connect n view next block disk index pindex self chain height limit connected ih =>
    obtain ⟨sound, bound⟩ := ih
    obtain ⟨kept, grown⟩ := value_connectBlock sound (by omega) connected
    rw [height] at grown
    rw [Finset.sum_Icc_succ_top (Nat.le_add_left 1 n)]
    exact ⟨kept, by omega⟩

theorem height_lt (chain : ConnectedChain P n view) : n < 2 ^ 31 := by
  cases chain with
  | genesis empty => decide
  | connect chain height limit connected => exact limit

end ConnectedChain

/-- After every block the unspent outputs are worth at most the subsidies so far, and connecting any
next block, accepted or not, overflows nowhere. -/
theorem issuance_bound {P : Platform} {n : ℕ} {view : CCoinsViewCache} (chain : ConnectedChain P n view) :
    (∀ h nBits, getBlockValue h 0 nBits = .ok (blockSubsidy h)) ∧
      {out | view.output? out ≠ none}.Finite ∧ view.value ≤ ∑ h ∈ Finset.Icc 1 n, blockSubsidy h ∧
      ∀ (block : CBlock) (disk : ConnectDisk) (index : BlockMap) (pindex : CBlockIndex) (self : BlockPtr),
        (block.connectBlock P disk index pindex self view false).result ≠ .error .overflow := by
  obtain ⟨sound, bound⟩ := chain.value_le
  refine ⟨getBlockValue_zero, sound.finite, bound, fun block disk index pindex self => ?_⟩
  apply connectBlock_ne_overflow sound
  have := sum_blockSubsidy_le n
  have := chain.height_lt
  simp only [MAX_MONEY, COIN] at *
  omega

namespace TestNet

/-- The view after a chain of blocks above a height, each in front of the next. -/
def raised : ℕ → List CBlock → CCoinsViewCache → Check CCoinsViewCache
  | _, [], view => .ok view
  | n, block :: blocks, view => do
    let next ← (block.connectBlock platform disk (fun hash => some (entry hash 0 hash)) (entry (n + 1) n (n + 1)) (n + 1) view
      false).result
    raised (n + 1) blocks next

theorem connectedChain_raised {n : ℕ} {blocks : List CBlock} {view next : CCoinsViewCache}
    (chain : ConnectedChain platform n view) (low : n + blocks.length < 2 ^ 31) (connected : raised n blocks view = .ok next) :
    ConnectedChain platform (n + blocks.length) next := by
  induction blocks generalizing n view with
  | nil =>
    cases connected
    exact chain
  | cons block blocks ih =>
    obtain ⟨after, first, rest⟩ := bind_eq_ok.mp connected
    rw [List.length_cons] at low ⊢
    rw [show n + (blocks.length + 1) = n + 1 + blocks.length by omega] at low ⊢
    exact ih (.connect chain rfl (by omega) first) low rest

/-- The coinbase of block 1 is spent at height 121, its change in the same block, and the coinbase there takes the fees. -/
def matured : List CBlock :=
  (List.range 120).map (fun i => mine (i + 1) i [coinbase (i + 1) 1000]) ++
    [mine 121 120 [coinbase 121 (blockSubsidy 121 + 300), spending 200 [⟨1001, 0⟩] [900], spending 201 [⟨200001, 0⟩] [700]]]

end TestNet

open TestNet in
theorem issuance_bound_matured :
    ∃ view, raised 0 matured { base := ⟨fun _ => none, some 0⟩ } = .ok view ∧
      {out | view.output? out ≠ none}.Finite ∧ view.value ≤ ∑ h ∈ Finset.Icc 1 121, blockSubsidy h := by
  obtain ⟨view, connected⟩ := exists_of_isOk
    (show (raised 0 matured { base := ⟨fun _ => none, some 0⟩ }).isOk = true by decide +kernel)
  have height : 0 + matured.length = 121 := by decide +kernel
  have chain := connectedChain_raised (.genesis fun _ => rfl) (by omega) connected
  rw [height] at chain
  obtain ⟨-, finite, bound, -⟩ := issuance_bound chain
  exact ⟨view, connected, finite, bound⟩

end BitCrystal

/-! ## The halving subsidy

The subsidy is shifted once more every 1440 blocks and has a floor. The count of the shift is not limited, and from
height 92160 on it has the width of the type.
-/

namespace BitCrystal

/-- The heights at which the subsidy is the halved one. -/
structure Halved (nHeight : ℕ) : Prop where
  above : 100 ≤ nHeight
  below : nHeight < 2 ^ 31
  ordinary : ¬ 30000 ∣ nHeight

instance (nHeight : ℕ) : Decidable (Halved nHeight) :=
  decidable_of_iff (100 ≤ nHeight ∧ nHeight < 2 ^ 31 ∧ ¬ 30000 ∣ nHeight)
    ⟨fun ⟨above, below, ordinary⟩ => ⟨above, below, ordinary⟩, fun ⟨above, below, ordinary⟩ => ⟨above, below, ordinary⟩⟩

/-- The subsidy after a number of halvings. -/
def halvedSubsidy (halvings : ℕ) : ℤ := max (5 * COIN) (9766 * COIN / 2 ^ halvings)

theorem halvedSubsidy_anti {fewer more : ℕ} (le : fewer ≤ more) : halvedSubsidy more ≤ halvedSubsidy fewer := by
  obtain ⟨extra, rfl⟩ := Nat.exists_eq_add_of_le le
  apply max_le_max le_rfl
  have shifted : 0 ≤ 9766 * COIN / 2 ^ fewer := Int.ediv_nonneg (by decide) (pow_nonneg (by decide) _)
  rw [pow_add, ← Int.ediv_ediv_of_nonneg (pow_nonneg (by decide) _)]
  exact Int.ediv_le_self _ shifted

theorem halvedSubsidy_bounds (halvings : ℕ) : 5 * COIN ≤ halvedSubsidy halvings ∧ halvedSubsidy halvings ≤ 9766 * COIN :=
  ⟨le_max_left .., (halvedSubsidy_anti (Nat.zero_le _)).trans (by decide)⟩

theorem laterSubsidy_eq {nHeight : ℕ} (halved : Halved nHeight) :
    laterSubsidy nHeight = halvedSubsidy (nHeight / 1440 % 64) := by
  have ordinary : nHeight < 30000 ∨ nHeight % 30000 ≠ 0 := .inr fun zero => halved.ordinary (Nat.dvd_of_mod_eq_zero zero)
  rw [laterSubsidy, if_pos ordinary, halvedSubsidy]
  simp only [shiftRight64, nBlockRewardLastCoin, nBlockRewardMinimumCoin]
  rw [max_def_lt]
  split_ifs <;> omega

theorem getBlockValue_eq {nHeight nBits : ℕ} {nFees : ℤ} (halved : Halved nHeight) (fees : moneyRange nFees) :
    getBlockValue nHeight nFees nBits = .ok (halvedSubsidy (nHeight / 1440 % 64) + nFees) := by
  obtain ⟨least, bounded⟩ := halvedSubsidy_bounds (nHeight / 1440 % 64)
  obtain ⟨nonneg, most⟩ := fees
  have above := halved.above
  rw [getBlockValue, if_neg (by omega), if_neg (by omega), laterSubsidy_eq halved, int64_eq_ok]
  simp only [MAX_MONEY, COIN] at *
  exact ⟨⟨by omega, by omega⟩, trivial⟩

/-- Up to the width of the type no halving is lost and the subsidy falls; from there on the shift is not defined, and
the halvings start again where its count is taken modulo 64. -/
theorem getBlockValue_halves_iff {nHeight nBits : ℕ} {nFees : ℤ} (halved : Halved nHeight) (fees : moneyRange nFees) :
    (nHeight / 1440 < 64 ∧ getBlockValue nHeight nFees nBits = .ok (halvedSubsidy (nHeight / 1440) + nFees) ∧
      ∀ earlier ≤ nHeight, Halved earlier → ∀ nValue nBefore, getBlockValue nHeight 0 nBits = .ok nValue →
        getBlockValue earlier 0 nBits = .ok nBefore → nValue ≤ nBefore) ↔
    nHeight < 92160 := by
  constructor
  · rintro ⟨narrow, -, -⟩
    omega
  · intro early
    have narrow : nHeight / 1440 < 64 := by omega
    have free : moneyRange 0 := by decide
    refine ⟨narrow, ?_, fun earlier before earlierHalved nValue nBefore value valueBefore => ?_⟩
    · rw [getBlockValue_eq halved fees, Nat.mod_eq_of_lt narrow]
    · have order : earlier / 1440 ≤ nHeight / 1440 := Nat.div_le_div_right before
      rw [getBlockValue_eq halved free, Nat.mod_eq_of_lt narrow] at value
      rw [getBlockValue_eq earlierHalved free, Nat.mod_eq_of_lt (order.trans_lt narrow)] at valueBefore
      cases value
      cases valueBefore
      have falls := halvedSubsidy_anti order
      omega

theorem getBlockValue_halves_first : getBlockValue 1440 3 0 = .ok (4883 * COIN + 3) := by
  have halves := (@getBlockValue_halves_iff 1440 0 3 (by decide) (by decide)).mpr (by decide)
  rw [halves.2.1]
  rfl

/-- The subsidy of the block before is the least, and then it is the greatest. -/
theorem getBlockValue_reinflates : Halved 92160 ∧ 92160 / 1440 = 64 ∧ halvedSubsidy 64 = 5 * COIN ∧
    getBlockValue 92159 0 0 = .ok (5 * COIN) ∧ getBlockValue 92160 0 0 = .ok (9766 * COIN) := by
  refine ⟨by decide, by decide, by decide, by rfl, by rfl⟩

end BitCrystal
