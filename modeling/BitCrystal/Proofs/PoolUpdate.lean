import BitCrystal.Proofs.Linked
import BitCrystal.Proofs.MemPool
import BitCrystal.Proofs.Amounts

/-! # The pool in SetBestChain

The loop over `vResurrect` only enters transactions. The loop over `vDelete` takes out the connected
transactions, each alone, and the other spenders of their inputs with everything that still depends on
them by then. A conflict that `operator==` does not tell apart from the connected one is not among them.
-/

namespace BitCrystal

open Cascade

/-- The transactions have an input in common and `operator==` tells them apart. -/
def CTransaction.Conflicts (a b : CTransaction) : Prop := ¬ a.eq b ∧ ∃ out ∈ b.prevouts, out ∈ a.prevouts

namespace ChainOps

/-- The transactions of the blocks. -/
def transactions (ops : ChainOps) (path : List BlockPtr) : List CTransaction :=
  path.flatMap fun pindex => (ops.readFromDisk pindex).elim [] CBlock.vtx

/-- What `SetBestChain` tries to take back from the blocks. -/
def resurrectable (ops : ChainOps) (index : BlockMap) (path : List BlockPtr) : List CTransaction :=
  path.flatMap fun pindex => ((ops.readFromDisk pindex).elim [] CBlock.vtx).filter fun tx =>
    ¬ tx.isCoinBase ∧ ∃ entry ∈ index pindex, 0 < entry.nHeight

theorem mem_transactions_of_resurrectable {ops : ChainOps} {index : BlockMap} {path : List BlockPtr}
    {tx : CTransaction} (member : tx ∈ ops.resurrectable index path) : tx ∈ ops.transactions path := by
  obtain ⟨pindex, inside, kept⟩ := List.mem_flatMap.mp member
  exact List.mem_flatMap.mpr ⟨pindex, inside, (List.mem_filter.mp kept).1⟩

/-- A block that is read has the hash it is looked up by. -/
theorem getHash_of_read {P : Platform} {depth : ℕ} {disk : SwitchDisk} {pindex : BlockPtr} {block : CBlock}
    (read : (real P depth disk).readFromDisk pindex = some block) : block.getHash P = pindex :=
  (of_decide_eq_true (Option.filter_eq_some_iff.mp read).2).2

/-- What the development assumes of the operations holds of those of the node. -/
theorem real_sound (P : Platform) (depth : ℕ) (disk : SwitchDisk) :
    (real P depth disk).Sound P.hashGenesisBlock where
  connected index entry pindex block view next read connected := by
    have hash := getHash_of_read read
    constructor
    · obtain ⟨-, rfl, -⟩ | ⟨-, state, -, -, rfl, -⟩ := (CBlock.connected_of_ok connected).coins <;> rfl
    · rintro rfl
      exact CBlock.fGenesis_of_ok connected hash
  genesis index entry pindex block view read set := by
    exact (getHash_of_read read).symm.trans (CBlock.getHash_of_fGenesis set)
  disconnected entry pindex block view fClean next clean := by
    simp only [real, CBlock.disconnectBlock, Check.bind_eq_ok, Check.pure_eq_ok, Prod.mk.injEq] at clean
    obtain ⟨_, -, _, -, _, -, _, -, _, -, _, -, _, -, -, rfl⟩ := clean
    rfl
  pool node vResurrect vDelete failure failed := Node.updateMemPool_error failed

end ChainOps

/-- The staged coins are written to the database. -/
def SwitchConditions.FlushDue (conditions : SwitchConditions) : Prop :=
  conditions.fInitialDownload = false ∨ conditions.fCacheFull = true

/-- The txids of the transactions. -/
def txidsOf (P : Platform) (txs : List CTransaction) : Set Uint256 := {h | ∃ tx ∈ txs, tx.getHash P = h}

namespace CTxMemPool

variable {P : Platform} {pool pool' current : CTxMemPool} {tx : CTransaction} {deleted gone : Set Uint256}

/-- What goes with the conflicts of a transaction when the ones in `deleted` have gone alone. -/
def doomed (pool : CTxMemPool) (deleted : Set Uint256) (tx : CTransaction) : Set Uint256 :=
  {x | ∃ h other, pool.mapTx h = some other ∧ h ∉ deleted ∧ other.Conflicts tx ∧
    x ∈ dependants (remaining pool.Spends deleted) h}

/-- What goes with the conflicts while the transactions are deleted one after the other. -/
def doomedBy (P : Platform) (pool : CTxMemPool) : Set Uint256 → List CTransaction → Set Uint256
  | _, [] => ∅
  | deleted, tx :: rest =>
    pool.doomed (insert (tx.getHash P) deleted) tx ∪ pool.doomedBy P (insert (tx.getHash P) deleted) rest

theorem closed_doomed (pool : CTxMemPool) (deleted : Set Uint256) (tx : CTransaction) :
    Cascade.Closed (remaining pool.Spends deleted) (pool.doomed deleted tx) := by
  rintro a b ⟨h, other, found, left, conflicts, reach⟩ edge
  exact ⟨h, other, found, left, conflicts, closed_dependants h a b reach edge⟩

/-- What depends on something that goes, neither of them deleted alone, goes too. -/
theorem closed_doomedBy (pool : CTxMemPool) (deleted : Set Uint256) (vDelete : List CTransaction) :
    Cascade.Closed (remaining pool.Spends (deleted ∪ txidsOf P vDelete)) (pool.doomedBy P deleted vDelete) := by
  induction vDelete generalizing deleted with
  | nil => exact fun _ _ => nofun
  | cons tx rest ih =>
    have first : tx.getHash P ∈ txidsOf P (tx :: rest) := ⟨tx, List.mem_cons_self .., rfl⟩
    have later : txidsOf P rest ⊆ txidsOf P (tx :: rest) := fun h ⟨other, member, hash⟩ =>
      ⟨other, List.mem_cons_of_mem _ member, hash⟩
    have more : insert (tx.getHash P) deleted ⊆ deleted ∪ txidsOf P (tx :: rest) :=
      Set.insert_subset (.inr first) Set.subset_union_left
    apply Cascade.Closed.union
    · exact (closed_doomed pool _ tx).of_subset more
    · exact (ih _).of_subset (Set.union_subset more (later.trans Set.subset_union_right))

/-- A conflict that is neither deleted nor going with another one goes. -/
theorem mem_doomedBy {vDelete : List CTransaction} (member : tx ∈ vDelete) {h : Uint256} {other : CTransaction}
    (found : pool.mapTx h = some other) (leftBefore : h ∉ deleted) (left : h ∉ txidsOf P vDelete)
    (conflicts : other.Conflicts tx) : h ∈ pool.doomedBy P deleted vDelete := by
  induction vDelete generalizing deleted with
  | nil => simp at member
  | cons first rest ih =>
    have leftNow : h ∉ insert (first.getHash P) deleted := by
      rintro (rfl | there)
      · exact left ⟨first, List.mem_cons_self .., rfl⟩
      · exact leftBefore there
    rcases List.mem_cons.mp member with rfl | later
    · exact .inl ⟨h, other, found, leftNow, conflicts, .refl⟩
    · refine .inr (ih later leftNow ?_)
      rintro ⟨tx, among, same⟩
      exact left ⟨tx, List.mem_cons_of_mem _ among, same⟩

/-- What goes depends on a conflict of a deleted transaction. -/
theorem exists_conflict_of_mem_doomedBy {vDelete : List CTransaction} {x : Uint256}
    (goes : x ∈ pool.doomedBy P deleted vDelete) :
    ∃ tx ∈ vDelete, ∃ h other, pool.mapTx h = some other ∧ other.Conflicts tx ∧ x ∈ dependants pool.Spends h := by
  induction vDelete generalizing deleted with
  | nil => cases goes
  | cons first rest ih =>
    rcases goes with ⟨h, other, found, -, conflicts, reach⟩ | later
    · exact ⟨first, List.mem_cons_self .., h, other, found, conflicts, dependants_remaining_subset reach⟩
    · obtain ⟨tx, member, conflict⟩ := ih later
      exact ⟨tx, List.mem_cons_of_mem _ member, conflict⟩

theorem Removed.insert_absent (removed : Removed P pool gone current) {h : Uint256} (absent : current.mapTx h = none) :
    Removed P pool (insert h gone) current where
  indexed := removed.indexed
  absent x member := by
    rcases member with rfl | before
    · exact absent
    · exact removed.absent x before
  kept x left := removed.kept x fun before => left (.inr before)

/-- The conflicts swept out of the current pool, seen from the first one. -/
theorem union_swept (removed : Removed P pool (deleted ∪ gone) current)
    (closed : Cascade.Closed (remaining pool.Spends deleted) gone) :
    gone ∪ current.swept (fun txConflict => ¬ txConflict.eq tx) tx.prevouts = gone ∪ pool.doomed deleted tx := by
  have edges : current.Spends = remaining (remaining pool.Spends deleted) gone := by
    rw [removed.spends, remaining_remaining]
  ext x
  constructor
  · rintro (before | ⟨out, member, h, other, found, spends, differs, reach⟩)
    · exact .inl before
    · obtain ⟨found, left⟩ := removed.mapTx_eq_some.mp found
      rw [edges] at reach
      refine .inr ⟨h, other, found, fun there => left (.inl there), ⟨differs, out, member, spends⟩, ?_⟩
      exact dependants_remaining_subset reach
  · rintro (before | ⟨h, other, found, left, ⟨differs, out, member, spends⟩, reach⟩)
    · exact .inl before
    · by_cases went : h ∈ gone
      · exact .inl (closed.reach went reach)
      · have among : x ∈ gone ∪ dependants current.Spends h := by
          rw [edges, union_dependants closed]
          exact .inr reach
        refine among.imp id fun reach => ?_
        have there : current.mapTx h = some other :=
          removed.mapTx_eq_some.mpr ⟨found, fun either => either.elim left went⟩
        exact ⟨out, member, h, other, there, spends, differs, reach⟩

end CTxMemPool

namespace Node

open CTxMemPool

variable {P : Platform} {pool pool' current : CTxMemPool} {deleted gone : Set Uint256} {depth : ℕ}
  {vDelete : List CTransaction} {node : Node} {vResurrect : List CTransaction} {index : BlockMap}
  {view last : CCoinsViewCache}

/-- The loop over `vDelete` takes out the connected transactions and what goes with their conflicts. -/
theorem deleteConnected_removed (free : P.CollisionFree) (removed : Removed P pool (deleted ∪ gone) current)
    (closed : Cascade.Closed (remaining pool.Spends deleted) gone)
    (ran : deleteConnected P depth current vDelete = .ok pool') :
    Removed P pool (deleted ∪ txidsOf P vDelete ∪ (gone ∪ pool.doomedBy P deleted vDelete)) pool' := by
  induction vDelete generalizing current deleted gone with
  | nil =>
    cases ran
    have nothing : txidsOf P [] = ∅ := by simp [txidsOf]
    rwa [nothing, doomedBy, Set.union_empty, Set.union_empty]
  | cons tx rest ih =>
    simp only [deleteConnected, Check.bind_eq_ok] at ran
    obtain ⟨middle, single, next, conflicts, ran⟩ := ran
    have alone : Removed P pool (insert (tx.getHash P) deleted ∪ gone) middle := by
      rw [Set.insert_union]
      cases found : current.mapTx (tx.getHash P) with
      | none =>
        cases remove_of_absent single found
        exact removed.insert_absent found
      | some pooled =>
        rw [Set.insert_eq, Set.union_comm]
        exact removed.trans (remove_single_ok free removed.indexed single found)
    have closed := closed.of_subset (Set.subset_insert (tx.getHash P) deleted)
    have swept := alone.trans (removeConflicts_ok free alone.indexed conflicts)
    rw [Set.union_assoc, union_swept alone closed] at swept
    have all := ih swept (closed.union (closed_doomed pool _ tx)) ran
    have first : txidsOf P (tx :: rest) = insert (tx.getHash P) (txidsOf P rest) := by
      ext h
      simp [txidsOf, eq_comm]
    rw [Set.union_assoc gone] at all
    rwa [first, doomedBy, Set.union_insert, ← Set.insert_union]

/-- Starting with nothing deleted. -/
theorem deleteConnected_ok (free : P.CollisionFree) (indexed : Indexed P pool)
    (ran : deleteConnected P depth pool vDelete = .ok pool') :
    Removed P pool (txidsOf P vDelete ∪ pool.doomedBy P ∅ vDelete) pool' := by
  have start : Removed P pool (∅ ∪ ∅) pool := by
    rw [Set.union_empty]
    exact .refl indexed
  have removed := deleteConnected_removed free start (fun _ _ => nofun) ran
  rwa [Set.empty_union, Set.empty_union] at removed

/-- What every accepted transaction keeps holds after the loop over `vResurrect`. -/
theorem resurrect_keeps {motive : CTxMemPool → Prop} (step : ∀ pool tx pool', tx ∈ vResurrect → motive pool →
      pool.accept P node.mapBlockIndex node.pcoinsTip node.nBestHeight tx true false = .ok pool' → motive pool')
    (ran : resurrect P node pool vResurrect = .ok pool') (start : motive pool) : motive pool' := by
  induction vResurrect generalizing pool with
  | nil =>
    cases ran
    exact start
  | cons tx rest ih =>
    have ih {pool} := @ih pool fun pool tx pool' member => step pool tx pool' (List.mem_cons_of_mem _ member)
    rw [resurrect] at ran
    split at ran
    next entered accepted => exact ih ran (step pool tx entered (List.mem_cons_self ..) start accepted)
    next failure refused =>
      split at ran
      · exact ih ran start
      · cases ran

/-- What is in the pool after the loop over `vResurrect`. -/
theorem resurrect_indexed (indexed : Indexed P pool) (ran : resurrect P node pool vResurrect = .ok pool') :
    Indexed P pool' ∧ ∀ h tx, pool'.mapTx h = some tx → pool.mapTx h = some tx ∨ tx ∈ vResurrect := by
  refine resurrect_keeps (motive := fun current => Indexed P current ∧
    ∀ h tx, current.mapTx h = some tx → pool.mapTx h = some tx ∨ tx ∈ vResurrect) ?_ ran
    ⟨indexed, fun _ _ found => .inl found⟩
  rintro current tx next member ⟨indexed, origin⟩ accepted
  refine ⟨indexed.accept accepted, fun h other found => ?_⟩
  rw [(accept_eq_ok.mp accepted).mapTx] at found
  split at found
  · cases found
    exact .inr member
  · exact origin h other found

/-- The loop over `vResurrect` reads the index, the coins and the height. -/
theorem resurrect_congr {other : Node} (index : other.mapBlockIndex = node.mapBlockIndex)
    (coins : other.pcoinsTip = node.pcoinsTip) (height : other.nBestHeight = node.nBestHeight)
    (vResurrect : List CTransaction) : resurrect P other pool vResurrect = resurrect P node pool vResurrect := by
  induction vResurrect generalizing pool with
  | nil => rfl
  | cons tx rest ih => simp only [resurrect, index, coins, height, ih]

theorem Disconnects.resurrectable {ops : ChainOps} {vDisconnect : List BlockPtr}
    (disconnects : Disconnects ops index view vDisconnect last vResurrect) :
    vResurrect = ops.resurrectable index vDisconnect := by
  induction disconnects with
  | nil view => rfl
  | cons found read clean others ih => simp [ChainOps.resurrectable, List.flatMap_cons, found, read, ih]

theorem Connects.transactions {ops : ChainOps} {vConnect : List BlockPtr}
    (connects : Connects ops index view vConnect last vDelete) : vDelete = ops.transactions vConnect := by
  induction connects with
  | nil view => rfl
  | cons same found read connected others ih =>
    rw [ChainOps.transactions, List.flatMap_cons, read, ih]
    rfl

/-- Every connected transaction has passed `CheckTransaction`. -/
theorem Connects.checked {disk : SwitchDisk} {vConnect : List BlockPtr}
    (connects : Connects (.real P depth disk) index view vConnect last vDelete) {tx : CTransaction}
    (member : tx ∈ vDelete) : tx.checkTransaction = .ok () := by
  induction connects with
  | nil view => simp at member
  | cons same found read connected others ih =>
    rcases List.mem_append.mp member with here | later
    · exact CBlock.each_of_checkBlock (CBlock.checkBlock_of_ok connected) here
    · exact ih later

/-- The state in which the pool is updated, in the fields the update reads. -/
def linking (node node' : Node) : Node := { node' with nBestHeight := node.nBestHeight, mempool := node.mempool }

theorem flushCoins_pcoinsTip {conditions : SwitchConditions} {node' : Node}
    (flushed : flushCoins conditions view node = (.ok (), node')) :
    (conditions.FlushDue → node'.pcoinsTip = (node.mergedTip view).flushDB) ∧
      (¬ conditions.FlushDue → node'.pcoinsTip = node.mergedTip view) := by
  obtain ⟨fInitialDownload, fCacheFull, fDiskSpace, fCoinsFlush⟩ := conditions
  rw [flushCoins, StateAction.modify_bind] at flushed
  split at flushed
  next skipped =>
    cases flushed
    refine ⟨fun due => ?_, fun _ => rfl⟩
    simp_all [SwitchConditions.FlushDue]
  next due =>
    split at flushed
    · cases flushed
    · split at flushed
      · cases flushed
      · cases flushed
        refine ⟨fun _ => rfl, fun idle => ?_⟩
        simp_all [SwitchConditions.FlushDue]

/-- What a successful call of `SetBestChain` has done to the pool and the coins. -/
structure PoolSwitched (P : Platform) (depth : ℕ) (disk : SwitchDisk) (pindexNew : BlockPtr) (node node' : Node)
    (vDisconnect vConnect : List BlockPtr) (view last : CCoinsViewCache) (pool : CTxMemPool) : Prop where
  found : findSwitch node.mapBlockIndex node.pcoinsTip.getBestBlock pindexNew = .ok (vDisconnect, vConnect)
  disconnects : Disconnects (.real P depth disk) node.mapBlockIndex node.stagingView vDisconnect view
    ((ChainOps.real P depth disk).resurrectable node.mapBlockIndex vDisconnect)
  connects : Connects (.real P depth disk) node.mapBlockIndex view vConnect last
    ((ChainOps.real P depth disk).transactions vConnect)
  flushed : (disk.conditions pindexNew).FlushDue → node'.pcoinsTip = (node.mergedTip last).flushDB
  unflushed : ¬ (disk.conditions pindexNew).FlushDue → node'.pcoinsTip = node.mergedTip last
  /-- The pool the connected transactions are deleted from. -/
  resurrected : resurrect P (linking node node') (linking node node').mempool
    ((ChainOps.real P depth disk).resurrectable node.mapBlockIndex vDisconnect) = .ok pool
  deleted : deleteConnected P depth pool ((ChainOps.real P depth disk).transactions vConnect) = .ok node'.mempool

/-- The blocks of a successful call and the pool between its two loops. -/
theorem poolSwitched {disk : SwitchDisk} {reorganise : NodeAction Unit} {pindexNew : BlockPtr}
    {node' : Node} (ran : setBestChain (.real P depth disk) reorganise pindexNew node = (.ok (), node')) :
    ∃ vDisconnect vConnect view last pool,
      PoolSwitched P depth disk pindexNew node node' vDisconnect vConnect view last pool := by
  obtain ⟨vDisconnect, vConnect, view, last, vResurrect, vDelete, staged, flushed, stages, flushes, activated⟩ :=
    setBestChain_ok ran
  obtain ⟨connects, chain⟩ := connectBlocks_ok (ChainOps.real_sound P depth disk) stages.connected (.refl _)
  have disconnects := disconnectBlocks_ok stages.disconnected
  have merged : staged.mergedTip last = node.mergedTip last := by rw [mergedTip, chain.coins, mergedTip]
  have coins := flushCoins_pcoinsTip flushes
  obtain ⟨-, tip, rfl, -⟩ := flushCoins_ok flushes
  obtain ⟨entry, hash, mempool, -, -, updated, rfl⟩ := activate_ok activated
  obtain ⟨pool, resurrected, deleted⟩ := Check.bind_eq_ok.mp updated
  have start : staged.mempool = node.mempool := chain.pool
  cases disconnects.resurrectable
  cases connects.transactions
  refine ⟨vDisconnect, vConnect, view, last, pool, stages.found, disconnects, connects, merged ▸ coins.1, merged ▸ coins.2, ?_,
    deleted⟩
  rw [linking, ← start]
  refine (resurrect_congr ?_ ?_ ?_ _).trans resurrected
  · rfl
  · rfl
  · exact chain.height.symm

end Node

/-! ## What accept looks at

The checks of `CTxMemPool::accept` on a transaction see the coins only under the txids its inputs name,
so two views that agree there give the same verdict. What the pool adds to a view are the outputs of
its transactions, under txids the chain has no entry for.
-/

/-- The entry a transaction adds depends on what is serialized of it. -/
theorem CCoins.ofTx_congr {a b : CTransaction} (same : a.serialized = b.serialized) (nHeight : ℕ) :
    ofTx a nHeight = ofTx b nHeight := by
  obtain ⟨nVersion, vin, vout, nLockTime, strTxComment⟩ := a
  obtain ⟨nVersion', vin', vout', nLockTime', strTxComment'⟩ := b
  simp only [CTransaction.serialized, SerializedTx.mk.injEq] at same
  obtain ⟨rfl, rfl, rfl, rfl, -⟩ := same
  rfl

namespace CTransaction

section Congruence

variable {view other : CCoinsViewCache} {vin : List CTxIn}
  (agree : ∀ txin ∈ vin, other.getCoins txin.prevout.hash = view.getCoins txin.prevout.hash)
include agree

theorem inputOutputs_congr : inputOutputs other vin = inputOutputs view vin := by
  induction vin with
  | nil => rfl
  | cons txin rest ih =>
    simp only [inputOutputs, getOutputFor, agree txin (List.mem_cons_self ..),
      ih fun txin member => agree txin (List.mem_cons_of_mem _ member)]

theorem valueInLoop_congr (start : ℤ) : valueInLoop other start vin = valueInLoop view start vin := by
  induction vin generalizing start with
  | nil => rfl
  | cons txin rest ih =>
    simp only [valueInLoop, getOutputFor, agree txin (List.mem_cons_self ..),
      ih fun txin member => agree txin (List.mem_cons_of_mem _ member)]

theorem checkInputValues_congr (nSpendHeight start : ℤ) :
    checkInputValues other nSpendHeight start vin = checkInputValues view nSpendHeight start vin := by
  induction vin generalizing start with
  | nil => rfl
  | cons txin rest ih =>
    simp only [checkInputValues, agree txin (List.mem_cons_self ..),
      ih fun txin member => agree txin (List.mem_cons_of_mem _ member)]

theorem scriptChecks_congr (tx : CTransaction) (flags nIn : ℕ) :
    tx.scriptChecks other flags nIn vin = tx.scriptChecks view flags nIn vin := by
  induction vin generalizing nIn with
  | nil => rfl
  | cons txin rest ih =>
    simp only [scriptChecks, agree txin (List.mem_cons_self ..),
      ih fun txin member => agree txin (List.mem_cons_of_mem _ member)]

end Congruence

variable {tx : CTransaction} {view other : CCoinsViewCache}

theorem haveInputs_congr (agree : ∀ txin ∈ tx.vin, other.getCoins txin.prevout.hash = view.getCoins txin.prevout.hash) :
    tx.haveInputs other ↔ tx.haveInputs view := by
  refine or_congr_right (forall₂_congr fun txin member => ?_)
  rw [agree txin member]

theorem checkInputs_congr {P : Platform} {index : BlockMap} {fScriptChecks pvChecks : Bool} {flags : ℕ}
    (agree : ∀ txin ∈ tx.vin, other.getCoins txin.prevout.hash = view.getCoins txin.prevout.hash)
    (best : other.getBestBlock = view.getBestBlock) :
    tx.checkInputs P index other fScriptChecks flags pvChecks =
      tx.checkInputs P index view fScriptChecks flags pvChecks := by
  have inputs : tx.haveInputs other = tx.haveInputs view := propext (haveInputs_congr agree)
  simp only [checkInputs, inputs, best, checkInputValues_congr agree, scriptChecks_congr agree]

/-- The checks of `accept` against the coins of a view. -/
structure PassesCoins (tx : CTransaction) (P : Platform) (index : BlockMap) (view : CCoinsViewCache) : Prop where
  inputs : tx.haveInputs view
  standard : ∃ vout, inputOutputs view tx.vin = .ok vout ∧ (P.areInputsStandard tx vout = true ∨ P.fTestNet = true)
  values : ∃ nValueIn nValueOut, tx.getValueIn view = .ok nValueIn ∧ tx.getValueOut = .ok nValueOut ∧
    InInt64 (nValueIn - nValueOut)
  scripts : ∃ checks, tx.checkInputs P index view true (SCRIPT_VERIFY_P2SH + SCRIPT_VERIFY_STRICTENC) false = .ok checks

theorem PassesCoins.congr {P : Platform} {index : BlockMap} (passes : tx.PassesCoins P index view)
    (agree : ∀ txin ∈ tx.vin, other.getCoins txin.prevout.hash = view.getCoins txin.prevout.hash)
    (best : other.getBestBlock = view.getBestBlock) : tx.PassesCoins P index other where
  inputs := (haveInputs_congr agree).mpr passes.inputs
  standard := by
    rw [inputOutputs_congr agree]
    exact passes.standard
  values := by
    rw [getValueIn, valueInLoop_congr agree]
    exact passes.values
  scripts := by
    rw [checkInputs_congr agree best]
    exact passes.scripts

/-- The checks of `accept` on the transaction itself and on the coins it spends. -/
structure PassesAccept (tx : CTransaction) (P : Platform) (node : Node) (view : CCoinsViewCache) : Prop where
  checked : tx.checkTransaction = .ok ()
  notCoinBase : ¬ tx.isCoinBase
  nLockTime : tx.nLockTime ≤ 2147483647
  standard : P.fTestNet = false → tx.checkStandard P node.nBestHeight = .ok ()
  coins : tx.PassesCoins P node.mapBlockIndex view

end CTransaction

namespace CTxMemPool

variable {P : Platform} {pool pool' : CTxMemPool} {tx : CTransaction}

/-- The view `accept` reads. -/
def viewOn (pool : CTxMemPool) (pcoinsTip : CCoinsViewCache) : CCoinsViewCache where
  base := pool.viewMemPool pcoinsTip.answers

@[simp] theorem getCoins_viewOn (pcoinsTip : CCoinsViewCache) (h : Uint256) :
    (pool.viewOn pcoinsTip).getCoins h =
      (pcoinsTip.getCoins h).or ((pool.mapTx h).map fun tx => .ofTx tx MEMPOOL_HEIGHT) := rfl

@[simp] theorem getBestBlock_viewOn (pcoinsTip : CCoinsViewCache) :
    (pool.viewOn pcoinsTip).getBestBlock = pcoinsTip.getBestBlock := rfl

/-- What has passed the checks against the coins, whether or not the fee is limited. -/
theorem passesCoins_of_checkPoolInputs {index : BlockMap} {pcoinsTip : CCoinsViewCache} {fLimitFree : Bool}
    (checked : pool.checkPoolInputs P index pcoinsTip tx fLimitFree = .ok ()) :
    (pool.viewOn pcoinsTip).haveCoins (tx.getHash P) = false ∧ tx.PassesCoins P index (pool.viewOn pcoinsTip) := by
  simp only [checkPoolInputs, Check.bind_eq_ok, Check.rejectIf_eq_ok, int64_eq_ok, not_not, not_and,
    Bool.not_eq_true] at checked
  obtain ⟨-, absent, -, -, -, inputs, vout, found, -, standard, nValueIn, summed, nValueOut, paid, _, ⟨range, rfl⟩,
    -, -, checks, scripts, -⟩ := checked
  refine ⟨absent, inputs, ⟨vout, found, ?_⟩, ⟨nValueIn, nValueOut, summed, paid, range⟩, ⟨checks, scripts⟩⟩
  by_contra other
  rw [not_or] at other
  exact other.2 (by simpa using standard (by simpa using other.1))

/-- Without a limit on the fee these are all the checks. -/
theorem checkPoolInputs_eq_ok {index : BlockMap} {pcoinsTip : CCoinsViewCache} (ordinary : ¬ tx.isCoinBase) :
    pool.checkPoolInputs P index pcoinsTip tx false = .ok () ↔
      (pool.viewOn pcoinsTip).haveCoins (tx.getHash P) = false ∧ tx.PassesCoins P index (pool.viewOn pcoinsTip) := by
  refine ⟨passesCoins_of_checkPoolInputs, ?_⟩
  simp only [checkPoolInputs, viewOn, Check.bind_eq_ok, Check.rejectIf_eq_ok, int64_eq_ok, not_not, not_and,
    not_exists, Bool.not_eq_true, Bool.false_eq_true, false_and, not_false_eq_true, Check.pure_eq_ok]
  rintro ⟨absent, inputs, ⟨vout, found, standard⟩, ⟨nValueIn, nValueOut, summed, paid, range⟩, ⟨checks, scripts⟩⟩
  refine ⟨(), absent, (), ?_, (), inputs, vout, found, (), ?_, nValueIn, summed, nValueOut, paid, _, ⟨range, rfl⟩,
    (), trivial, checks, scripts, trivial⟩
  · intro txin member nothing
    obtain ⟨coins, there, -⟩ := inputs.resolve_left ordinary txin member
    simp [CCoinsViewCache.haveCoins, there] at nothing
  · intro other
    rcases standard with fine | testNet
    · exact absurd fine (by simpa using other)
    · simpa using testNet

/-- `accept` with the checks of the coins enters exactly what passes them, is new and conflicts with nothing. -/
theorem accept_eq_ok_iff {node : Node} :
    pool.accept P node.mapBlockIndex node.pcoinsTip node.nBestHeight tx true false = .ok pool' ↔
      tx.PassesAccept P node (pool.viewOn node.pcoinsTip) ∧
        (pool.viewOn node.pcoinsTip).haveCoins (tx.getHash P) = false ∧
        (∀ out ∈ tx.prevouts, pool.mapNextTx out = none) ∧ pool.addUnchecked (tx.getHash P) tx = pool' := by
  rw [accept_eq_ok]
  constructor
  · intro accepted
    obtain ⟨absent, coins⟩ := (checkPoolInputs_eq_ok accepted.notCoinBase).mp (accepted.inputs rfl)
    exact ⟨⟨accepted.checked, accepted.notCoinBase, accepted.nLockTime, accepted.standard, coins⟩, absent,
      accepted.unspent, accepted.added⟩
  · rintro ⟨passes, absent, unspent, added⟩
    refine ⟨passes.checked, passes.notCoinBase, passes.nLockTime, passes.standard, ?_, unspent,
      fun _ => (checkPoolInputs_eq_ok passes.notCoinBase).mpr ⟨absent, passes.coins⟩, added⟩
    simp only [CCoinsViewCache.haveCoins, getCoins_viewOn, Option.isSome_eq_false_iff, Option.isNone_iff_eq_none,
      Option.or_eq_none_iff, Option.map_eq_none_iff] at absent
    exact absent.2

end CTxMemPool

end BitCrystal
