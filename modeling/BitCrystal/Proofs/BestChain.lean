import BitCrystal.Proofs.BlockTree

/-! # What a call of SetBestChain has done

Inversion lemmas for the stages of `SetBestChain`. Connecting blocks changes nothing of the active
chain before it succeeds, apart from statuses and undo positions of index entries, as long as no
block to connect has a `pnext`.
-/

namespace BitCrystal

open StateAction Forest

/-- An index entry without the fields `ConnectBlock` and the marking of failed blocks change. -/
def CBlockIndex.bare (entry : CBlockIndex) : CBlockIndex := { entry with nStatus := {}, nUndoPos := 0 }

/-- The flush to the database is due and fails. -/
def SwitchConditions.FlushFails (conditions : SwitchConditions) : Prop :=
  (conditions.fInitialDownload = false ∨ conditions.fCacheFull = true) ∧
    (conditions.fDiskSpace = false ∨ conditions.fCoinsFlush = false)

/-- What is known of the operations: connecting ends at the block and disconnecting at its parent,
only genesis sets `pindexGenesisBlock`, and the pool update comes back or crashes. -/
structure ChainOps.Sound (ops : ChainOps) (genesis : BlockPtr) : Prop where
  connected : ∀ index entry pindex block view next, ops.readFromDisk pindex = some block →
    (ops.connectBlock index entry pindex block view).result = .ok next →
    next.pindexTip = some pindex ∧
      (pindex = genesis → (ops.connectBlock index entry pindex block view).fGenesis = true)
  genesis : ∀ index entry pindex block view, ops.readFromDisk pindex = some block →
    (ops.connectBlock index entry pindex block view).fGenesis = true → pindex = genesis
  disconnected : ∀ entry pindex block view fClean next,
    ops.disconnectBlock entry pindex block view = .ok (fClean, next) → next.pindexTip = entry.pprev
  pool : ∀ node vResurrect vDelete failure, ops.updateMemPool node vResurrect vDelete = .error failure →
    failure.returnsFalse = false

namespace Node

/-- The tree is the same up to statuses and undo positions. -/
def SameTree (index index' : BlockMap) : Prop :=
  ∀ pindex, (index' pindex).map CBlockIndex.bare = (index pindex).map CBlockIndex.bare

/-- The active chain, the coins and the pool are the same. -/
structure SameChain (genesis : BlockPtr) (node node' : Node) : Prop where
  tree : SameTree node.mapBlockIndex node'.mapBlockIndex
  best : node'.pindexBest = node.pindexBest
  hash : node'.hashBestChain = node.hashBestChain
  height : node'.nBestHeight = node.nBestHeight
  work : node'.nBestChainWork = node.nBestChainWork
  last : node'.pblockindexFBBHLast = node.pblockindexFBBHLast
  coins : node'.pcoinsTip = node.pcoinsTip
  pool : node'.mempool = node.mempool
  started : node'.pindexGenesisBlock = node.pindexGenesisBlock ∨ node'.pindexGenesisBlock = some genesis

variable {genesis : BlockPtr}
variable {index index' : BlockMap} {node node' : Node}

namespace SameTree

theorem refl (index : BlockMap) : SameTree index index := fun _ => rfl

theorem trans {index'' : BlockMap} (first : SameTree index index') (second : SameTree index' index'') :
    SameTree index index'' := fun pindex => (second pindex).trans (first pindex)

theorem symm (same : SameTree index index') : SameTree index' index := fun pindex => (same pindex).symm

variable {pindex : BlockPtr}

section

variable (same : SameTree index index')
include same

theorem entry {e : CBlockIndex} (found : index pindex = some e) :
    ∃ e', index' pindex = some e' ∧ e'.bare = e.bare := by
  have agree := same pindex
  rw [found, Option.map_some, Option.map_eq_some_iff] at agree
  exact agree

theorem indexed (there : ∃ e, index pindex = some e) : ∃ e, index' pindex = some e := by
  obtain ⟨e, found⟩ := there
  obtain ⟨e', there, -⟩ := same.entry found
  exact ⟨e', there⟩

theorem elim {α : Type} (default : α) (field : CBlockIndex → α)
    (kept : ∀ entry : CBlockIndex, field entry.bare = field entry) (pindex : BlockPtr) :
    (index' pindex).elim default field = (index pindex).elim default field := by
  cases found : index pindex with
  | none =>
    have agree := same pindex
    rw [found, Option.map_none, Option.map_eq_none_iff] at agree
    rw [agree]
  | some e =>
    obtain ⟨e', there, agree⟩ := same.entry found
    rw [there, Option.elim_some, Option.elim_some, ← kept, agree, kept]

theorem bind {α : Type} (field : CBlockIndex → Option α)
    (kept : ∀ entry : CBlockIndex, field entry.bare = field entry) (pindex : BlockPtr) :
    (index' pindex).bind field = (index pindex).bind field := by
  have folded (o : Option CBlockIndex) : o.bind field = o.elim none field := by cases o <;> rfl
  rw [folded, folded, same.elim none field kept]

theorem parentOf : Node.parentOf index' = Node.parentOf index :=
  funext (same.bind CBlockIndex.pprev fun _ => rfl)

theorem nextOf : Node.nextOf index' = Node.nextOf index :=
  funext (same.bind CBlockIndex.pnext fun _ => rfl)

theorem heightOf (pindex : BlockPtr) : Node.heightOf index' pindex = Node.heightOf index pindex :=
  same.elim 0 CBlockIndex.nHeight (fun _ => rfl) pindex

theorem rooted (rooted : Rooted index genesis) : Rooted index' genesis where
  self pindex e' found := by
    obtain ⟨e, there, agree⟩ := same.symm.entry found
    have hash : e.bare.phashBlock = e'.bare.phashBlock := congrArg _ agree
    exact hash.symm.trans (rooted.self pindex e there)
  parent pindex e' prev found edge := by
    obtain ⟨e, there, agree⟩ := same.symm.entry found
    have link : e.bare.pprev = e'.bare.pprev := congrArg _ agree
    have height : e.bare.nHeight = e'.bare.nHeight := congrArg _ agree
    obtain ⟨above, indexed, below⟩ := rooted.parent pindex e prev there (link.trans edge)
    obtain ⟨above', indexed', agree'⟩ := same.entry indexed
    have height' : above'.bare.nHeight = above.bare.nHeight := congrArg _ agree'
    refine ⟨above', indexed', ?_⟩
    change e.nHeight = e'.nHeight at height
    change above'.nHeight = above.nHeight at height'
    omega
  root pindex e' found edge := by
    obtain ⟨e, there, agree⟩ := same.symm.entry found
    have link : e.bare.pprev = e'.bare.pprev := congrArg _ agree
    have height : e.bare.nHeight = e'.bare.nHeight := congrArg _ agree
    obtain ⟨top, bottom⟩ := rooted.root pindex e there (link.trans edge)
    exact ⟨top, height.symm.trans bottom⟩

end

/-- Replacing an entry by one with another status. -/
theorem setEntry {e e' : CBlockIndex} (found : node.mapBlockIndex pindex = some e)
    (agree : e'.bare = e.bare) : SameTree node.mapBlockIndex (node.setEntry pindex e').mapBlockIndex := by
  intro other
  simp only [Node.setEntry, Function.update_apply]
  split
  next same => rw [same, found, Option.map_some, Option.map_some, agree]
  next => rfl

end SameTree

namespace SameChain

theorem refl (node : Node) : SameChain genesis node node := ⟨.refl _, rfl, rfl, rfl, rfl, rfl, rfl, rfl, .inl rfl⟩

theorem trans {node'' : Node} (first : SameChain genesis node node') (second : SameChain genesis node' node'') :
    SameChain genesis node node'' where
  tree := first.tree.trans second.tree
  best := second.best.trans first.best
  hash := second.hash.trans first.hash
  height := second.height.trans first.height
  work := second.work.trans first.work
  last := second.last.trans first.last
  coins := second.coins.trans first.coins
  pool := second.pool.trans first.pool
  started := by
    rcases second.started with kept | set
    · rw [kept]
      exact first.started
    · exact .inr set

end SameChain

variable {pindex : BlockPtr} {entry : CBlockIndex} {failure : Failure}

theorem deref_some (found : node.mapBlockIndex pindex = some entry) : deref pindex node = (.ok entry, node) := by
  rw [deref, get_bind, found]
  rfl

theorem deref_none (missing : node.mapBlockIndex pindex = none) : deref pindex node = (.error .undefined, node) := by
  rw [deref, get_bind, missing]
  rfl

theorem deref_eq_ok :
    deref pindex node = (.ok entry, node') ↔ node.mapBlockIndex pindex = some entry ∧ node' = node := by
  cases found : node.mapBlockIndex pindex with
  | none => simp [deref_none found]
  | some other => simp [deref_some found, eq_comm]

theorem deref_eq_error : deref pindex node = (.error failure, node') ↔
      node.mapBlockIndex pindex = none ∧ failure = .undefined ∧ node' = node := by
  cases found : node.mapBlockIndex pindex with
  | none => simp [deref_none found, eq_comm]
  | some other => simp [deref_some found]

theorem invalidChainFound_sameChain (pindex : BlockPtr) (node : Node) :
    SameChain genesis node (invalidChainFound pindex node).2 := by
  rw [invalidChainFound]
  cases found : node.mapBlockIndex pindex with
  | none =>
    rw [bind_of_error (deref_none found)]
    exact .refl node
  | some entry =>
    rw [bind_of_ok (deref_some found), modify_bind, get_bind]
    split <;> exact ⟨.refl _, rfl, rfl, rfl, rfl, rfl, rfl, rfl, .inl rfl⟩

theorem markFailed_sameChain {pindex : BlockPtr} {entry : CBlockIndex} (found : node.mapBlockIndex pindex = some entry)
    (nStatus : BlockStatus) : SameChain genesis node (node.markFailed pindex entry nStatus) := by
  have bare : CBlockIndex.bare { entry with nStatus } = entry.bare := rfl
  exact ⟨.setEntry found bare, rfl, rfl, rfl, rfl, rfl, rfl, rfl, .inl rfl⟩

theorem invalidBlockFound_sameChain (reorganise : NodeAction Unit)
    (unlinked : nextOf node.mapBlockIndex pindex = none) :
    SameChain genesis node (invalidBlockFound reorganise pindex node).2 := by
  rw [invalidBlockFound]
  cases found : node.mapBlockIndex pindex with
  | none =>
    rw [bind_of_error (deref_none found)]
    exact .refl node
  | some entry =>
    rw [nextOf, found] at unlinked
    have pnext : entry.pnext = none := unlinked
    rw [bind_of_ok (deref_some found), modify_bind]
    generalize failed : node.markFailed pindex entry { entry.nStatus with failedValid := true } = marked
    have same : SameChain genesis node marked := failed ▸ markFailed_sameChain found _
    have chain : SameChain genesis marked (invalidChainFound pindex marked).2 :=
      invalidChainFound_sameChain pindex marked
    rcases outcome : invalidChainFound pindex marked with ⟨failure | done, after⟩ <;> rw [outcome] at chain
    · rw [bind_of_error outcome]
      exact same.trans chain
    · rw [bind_of_ok outcome, if_pos pnext]
      exact same.trans chain

/-! ## Disconnecting and connecting -/

/-- The blocks are read and disconnected cleanly in this order. -/
inductive Disconnects (ops : ChainOps) (index : BlockMap) :
    CCoinsViewCache → List BlockPtr → CCoinsViewCache → List CTransaction → Prop
  | nil (view : CCoinsViewCache) : Disconnects ops index view [] view []
  | cons {view next last : CCoinsViewCache} {pindex : BlockPtr} {entry : CBlockIndex} {block : CBlock}
      {rest : List BlockPtr} {vResurrect : List CTransaction} (found : index pindex = some entry)
      (read : ops.readFromDisk pindex = some block)
      (clean : ops.disconnectBlock entry pindex block view = .ok (true, next))
      (others : Disconnects ops index next rest last vResurrect) :
      Disconnects ops index view (pindex :: rest) last
        (block.vtx.filter (fun tx => ¬ tx.isCoinBase ∧ 0 < entry.nHeight) ++ vResurrect)

/-- The blocks are read and connected in this order. -/
inductive Connects (ops : ChainOps) (index : BlockMap) :
    CCoinsViewCache → List BlockPtr → CCoinsViewCache → List CTransaction → Prop
  | nil (view : CCoinsViewCache) : Connects ops index view [] view []
  | cons {view next last : CCoinsViewCache} {index' : BlockMap} {pindex : BlockPtr} {entry : CBlockIndex}
      {block : CBlock} {rest : List BlockPtr} {vDelete : List CTransaction} (same : SameTree index index')
      (found : index' pindex = some entry) (read : ops.readFromDisk pindex = some block)
      (connected : (ops.connectBlock index' entry pindex block view).result = .ok next)
      (others : Connects ops index next rest last vDelete) :
      Connects ops index view (pindex :: rest) last (block.vtx ++ vDelete)

variable {ops : ChainOps} {reorganise : NodeAction Unit} {pindexNew : BlockPtr} {view last : CCoinsViewCache}

theorem disconnectBlocks_ok {vDisconnect : List BlockPtr} {vResurrect : List CTransaction}
    (disconnected : disconnectBlocks ops index view vDisconnect = .ok (last, vResurrect)) :
    Disconnects ops index view vDisconnect last vResurrect := by
  induction vDisconnect generalizing view vResurrect with
  | nil =>
    cases disconnected
    exact .nil _
  | cons pindex rest ih =>
    simp only [disconnectBlocks, Check.bind_eq_ok, Check.assertSome_eq_ok, Check.rejectIf_eq_ok, Prod.exists,
      not_not] at disconnected
    obtain ⟨entry, found, block, read, _, next, cleanly, -, rfl, _, queued, others, result⟩ := disconnected
    cases result
    exact .cons found read cleanly (ih others)

theorem applyResult_sameChain (sound : ops.Sound genesis) {block : CBlock}
    (found : node.mapBlockIndex pindex = some entry) (read : ops.readFromDisk pindex = some block)
    (view : CCoinsViewCache) : SameChain genesis node
      (node.applyResult pindex entry (ops.connectBlock node.mapBlockIndex entry pindex block view)) := by
  have bare (r : CBlock.ConnectResult) : (r.indexed entry).bare = entry.bare := rfl
  refine ⟨.setEntry found (bare _), rfl, rfl, rfl, rfl, rfl, rfl, rfl, ?_⟩
  rw [applyResult]
  dsimp only
  split
  next first => exact .inr (congrArg some (sound.genesis _ _ _ _ _ read first))
  next => exact .inl rfl

/-! One round of the loop that connects blocks. -/

section Round

variable {pindex : BlockPtr} {entry : CBlockIndex} {block : CBlock} {rest : List BlockPtr}
variable (found : node.mapBlockIndex pindex = some entry) (read : ops.readFromDisk pindex = some block)

include found read

theorem connectBlocks_accepted {next : CCoinsViewCache}
    (outcome : (ops.connectBlock node.mapBlockIndex entry pindex block view).result = .ok next) :
    connectBlocks ops reorganise pindexNew view (pindex :: rest) node =
      (connectBlocks ops reorganise pindexNew next rest >>= fun more => pure (more.1, block.vtx ++ more.2))
        (node.applyResult pindex entry (ops.connectBlock node.mapBlockIndex entry pindex block view)) := by
  rw [connectBlocks, bind_of_ok (deref_some found), get_bind, read, assertSome, lift_bind_ok, modify_bind]
  simp only [outcome]

theorem connectBlocks_refused {failure : Failure}
    (outcome : (ops.connectBlock node.mapBlockIndex entry pindex block view).result = .error failure) :
    connectBlocks ops reorganise pindexNew view (pindex :: rest) node =
      (connectFailed reorganise pindexNew pindex failure >>= fun _ => StateAction.throw failure)
        (node.applyResult pindex entry (ops.connectBlock node.mapBlockIndex entry pindex block view)) := by
  rw [connectBlocks, bind_of_ok (deref_some found), get_bind, read, assertSome, lift_bind_ok, modify_bind]
  simp only [outcome]

end Round

/-- A block that is connected was read and accepted, and so were the ones after it. -/
theorem connectBlocks_cons_ok {rest : List BlockPtr} {vDelete : List CTransaction}
    (connected : connectBlocks ops reorganise pindexNew view (pindex :: rest) node = (.ok (last, vDelete), node')) :
    ∃ entry block next more, node.mapBlockIndex pindex = some entry ∧ ops.readFromDisk pindex = some block ∧
      (ops.connectBlock node.mapBlockIndex entry pindex block view).result = .ok next ∧
      vDelete = block.vtx ++ more ∧ connectBlocks ops reorganise pindexNew next rest
        (node.applyResult pindex entry (ops.connectBlock node.mapBlockIndex entry pindex block view)) =
          (.ok (last, more), node') := by
  obtain ⟨entry, start, fetched, -⟩ := bind_eq_ok.mp connected
  obtain ⟨found, -⟩ := deref_eq_ok.mp fetched
  obtain ⟨block, read⟩ : ∃ block, ops.readFromDisk pindex = some block := by
    rw [connectBlocks, bind_of_ok (deref_some found), get_bind] at connected
    obtain ⟨block, read, -⟩ := lift_bind_eq_ok.mp connected
    exact ⟨block, Check.assertSome_eq_ok.mp read⟩
  cases outcome : (ops.connectBlock node.mapBlockIndex entry pindex block view).result with
  | error failure =>
    rw [connectBlocks_refused found read outcome] at connected
    obtain ⟨_, _, -, ended⟩ := bind_eq_ok.mp connected
    cases ended
  | ok next =>
    rw [connectBlocks_accepted found read outcome] at connected
    obtain ⟨⟨_, more⟩, _, others, ended⟩ := bind_eq_ok.mp connected
    cases ended
    exact ⟨entry, block, next, more, found, read, outcome, rfl, others⟩

theorem connectBlocks_ok (sound : ops.Sound genesis) {vConnect : List BlockPtr} {vDelete : List CTransaction}
    (connected : connectBlocks ops reorganise pindexNew view vConnect node = (.ok (last, vDelete), node'))
    (same : SameTree index node.mapBlockIndex) :
    Connects ops index view vConnect last vDelete ∧ SameChain genesis node node' := by
  induction vConnect generalizing view node vDelete with
  | nil =>
    cases connected
    exact ⟨.nil _, .refl _⟩
  | cons pindex rest ih =>
    obtain ⟨entry, block, next, more, found, read, outcome, rfl, others⟩ := connectBlocks_cons_ok connected
    have chain := applyResult_sameChain sound found read view
    obtain ⟨connects, further⟩ := ih others (same.trans chain.tree)
    exact ⟨.cons same found read outcome connects, chain.trans further⟩

theorem connectFailed_sameChain (reorganise : NodeAction Unit) (pindexNew : BlockPtr) (failure : Failure)
    (unlinked : nextOf node.mapBlockIndex pindex = none) :
    SameChain genesis node (connectFailed reorganise pindexNew pindex failure node).2 := by
  rw [connectFailed]
  split
  next invalid =>
    have chain : SameChain genesis node (invalidChainFound pindexNew node).2 :=
      invalidChainFound_sameChain pindexNew node
    rcases outcome : invalidChainFound pindexNew node with ⟨e | _, after⟩ <;> rw [outcome] at chain
    · rw [bind_of_error outcome]
      exact chain
    · rw [bind_of_ok outcome]
      exact chain.trans (invalidBlockFound_sameChain reorganise (chain.tree.nextOf ▸ unlinked))
  next => exact .refl node

/-- Without a `pnext` at the blocks to connect, `ConnectBestBlock` is not called on the way. -/
theorem connectBlocks_sameChain (sound : ops.Sound genesis) {vConnect : List BlockPtr}
    (unlinked : ∀ pindex ∈ vConnect, nextOf node.mapBlockIndex pindex = none) :
    SameChain genesis node (connectBlocks ops reorganise pindexNew view vConnect node).2 := by
  induction vConnect generalizing view node with
  | nil => exact .refl node
  | cons pindex rest ih =>
    cases found : node.mapBlockIndex pindex with
    | none =>
      rw [connectBlocks, bind_of_error (deref_none found)]
      exact .refl node
    | some entry =>
      cases read : ops.readFromDisk pindex with
      | none =>
        rw [connectBlocks, bind_of_ok (deref_some found), get_bind, read]
        exact .refl node
      | some block =>
        have chain := applyResult_sameChain sound found read view
        have unlinkedThere (p : BlockPtr) (member : p ∈ pindex :: rest) : nextOf (node.applyResult pindex entry
            (ops.connectBlock node.mapBlockIndex entry pindex block view)).mapBlockIndex p = none := by
          rw [chain.tree.nextOf]
          exact unlinked p member
        apply chain.trans
        cases outcome : (ops.connectBlock node.mapBlockIndex entry pindex block view).result with
        | error failure =>
          rw [connectBlocks_refused found read outcome, bind_throw_snd]
          exact connectFailed_sameChain reorganise pindexNew failure (unlinkedThere pindex (List.mem_cons_self ..))
        | ok next =>
          rw [connectBlocks_accepted found read outcome, bind_pure_snd]
          exact ih fun p member => unlinkedThere p (List.mem_cons_of_mem _ member)

/-- `pcoinsTip` once the staged coins are pushed to it. -/
def mergedTip (node : Node) (view : CCoinsViewCache) : CCoinsViewCache :=
  node.pcoinsTip.batchWrite view.cacheCoins view.pindexTip

theorem flushCoins_ok {conditions : SwitchConditions} (flushed : flushCoins conditions view node = (.ok (), node')) :
    ¬ conditions.FlushFails ∧ ∃ tip, node' = { node with pcoinsTip := tip } ∧
      (tip = node.mergedTip view ∨ tip = (node.mergedTip view).flushDB) := by
  obtain ⟨fInitialDownload, fCacheFull, fDiskSpace, fCoinsFlush⟩ := conditions
  rw [flushCoins, modify_bind] at flushed
  split at flushed
  next skipped =>
    cases flushed
    refine ⟨?_, _, rfl, .inl rfl⟩
    simp_all [SwitchConditions.FlushFails]
  next due =>
    split at flushed
    · cases flushed
    next space =>
      split at flushed
      · cases flushed
      next written =>
        cases flushed
        refine ⟨?_, _, rfl, .inr rfl⟩
        simp_all [SwitchConditions.FlushFails]

theorem flushCoins_error {conditions : SwitchConditions}
    (failed : flushCoins conditions view node = (.error failure, node')) :
    conditions.FlushFails ∧ node' = { node with pcoinsTip := node.mergedTip view } := by
  obtain ⟨fInitialDownload, fCacheFull, fDiskSpace, fCoinsFlush⟩ := conditions
  rw [flushCoins, modify_bind] at failed
  split at failed
  · cases failed
  next due =>
    have attempted : fInitialDownload = false ∨ fCacheFull = true := by
      cases fInitialDownload <;> cases fCacheFull <;> simp_all
    split at failed
    next full =>
      cases failed
      exact ⟨⟨attempted, .inl (by simpa using full)⟩, rfl⟩
    next space =>
      split at failed
      next unwritten =>
        cases failed
        exact ⟨⟨attempted, .inr (by simpa using unwritten)⟩, rfl⟩
      · cases failed

/-- The blocks of the switch have been disconnected and connected in the staging view. -/
structure Staged (ops : ChainOps) (reorganise : NodeAction Unit) (pindexNew : BlockPtr) (node : Node)
    (vDisconnect vConnect : List BlockPtr) (view last : CCoinsViewCache) (vResurrect vDelete : List CTransaction)
    (staged : Node) : Prop where
  found : findSwitch node.mapBlockIndex node.pcoinsTip.getBestBlock pindexNew = .ok (vDisconnect, vConnect)
  disconnected : disconnectBlocks ops node.mapBlockIndex node.stagingView vDisconnect = .ok (view, vResurrect)
  connected : connectBlocks ops reorganise pindexNew view vConnect node = (.ok (last, vDelete), staged)

theorem getBestBlock_stagingView (node : Node) : node.stagingView.getBestBlock = node.pcoinsTip.getBestBlock := by
  rw [CCoinsViewCache.getBestBlock, stagingView, CCoinsViewCache.answers_getBestBlock]
  cases node.pcoinsTip.getBestBlock <;> rfl

theorem setBestChain_ok (ran : setBestChain ops reorganise pindexNew node = (.ok (), node')) :
    ∃ vDisconnect vConnect view last vResurrect vDelete staged flushed,
      Staged ops reorganise pindexNew node vDisconnect vConnect view last vResurrect vDelete staged ∧
      flushCoins (ops.conditions pindexNew) last staged = (.ok (), flushed) ∧
      activate ops vDisconnect vConnect vResurrect vDelete pindexNew flushed = (.ok (), node') := by
  rw [setBestChain, get_bind, getBestBlock_stagingView] at ran
  simp only [bind_eq_ok, lift_apply, Prod.mk.injEq, Prod.exists] at ran
  obtain ⟨vDisconnect, vConnect, _, ⟨found, rfl⟩, view, vResurrect, _, ⟨disconnected, rfl⟩, last, vDelete, staged,
    connected, _, flushed, flushes, activated⟩ := ran
  exact ⟨vDisconnect, vConnect, view, last, vResurrect, vDelete, staged, flushed, ⟨found, disconnected, connected⟩,
    flushes, activated⟩

/-- The ways a call fails: before it connects a block, while it connects them, at the flush, or while
it updates the memory structures. -/
theorem setBestChain_error (ran : setBestChain ops reorganise pindexNew node = (.error failure, node')) :
    node' = node ∨ (∃ vDisconnect vConnect view vResurrect,
      findSwitch node.mapBlockIndex node.pcoinsTip.getBestBlock pindexNew = .ok (vDisconnect, vConnect) ∧
      disconnectBlocks ops node.mapBlockIndex node.stagingView vDisconnect = .ok (view, vResurrect) ∧
      connectBlocks ops reorganise pindexNew view vConnect node = (.error failure, node')) ∨
    ∃ vDisconnect vConnect view last vResurrect vDelete staged,
      Staged ops reorganise pindexNew node vDisconnect vConnect view last vResurrect vDelete staged ∧
      (flushCoins (ops.conditions pindexNew) last staged = (.error failure, node') ∨
        ∃ flushed, flushCoins (ops.conditions pindexNew) last staged = (.ok (), flushed) ∧
          activate ops vDisconnect vConnect vResurrect vDelete pindexNew flushed = (.error failure, node')) := by
  rw [setBestChain, get_bind, getBestBlock_stagingView] at ran
  simp only [bind_eq_error, lift_apply, Prod.mk.injEq, Prod.exists] at ran
  rcases ran with ⟨-, rfl⟩ | ⟨vDisconnect, vConnect, _, ⟨found, rfl⟩, ⟨-, rfl⟩ | ⟨view, vResurrect, _,
    ⟨disconnected, rfl⟩, failed | ⟨last, vDelete, staged, connected, failed | ⟨_, flushed, flushes, failed⟩⟩⟩⟩
  · exact .inl rfl
  · exact .inl rfl
  · exact .inr (.inl ⟨vDisconnect, vConnect, view, vResurrect, found, disconnected, failed⟩)
  · exact .inr (.inr ⟨vDisconnect, vConnect, view, last, vResurrect, vDelete, staged,
      ⟨found, disconnected, connected⟩, .inl failed⟩)
  · exact .inr (.inr ⟨vDisconnect, vConnect, view, last, vResurrect, vDelete, staged,
      ⟨found, disconnected, connected⟩, .inr ⟨flushed, flushes, failed⟩⟩)

end Node

end BitCrystal
