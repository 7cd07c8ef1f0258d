import BitCrystal.Machine.StateAction
import BitCrystal.Model.MemPool

/-! # The block tree and the active chain

`Node` collects the globals `SetBestChain` and its callers read and write. `ChainOps` stands for
what they call on single blocks; `ChainOps.real` is the instance with `ConnectBlock`,
`DisconnectBlock` and the memory pool, and the outcomes of the disk are its arguments. Walks along
`pprev` are bounded by the height they start from.
-/

namespace BitCrystal

structure Node where
  mapBlockIndex : BlockMap := fun _ => none
  /-- The set ordered by `CBlockIndexWorkComparator`. -/
  setBlockIndexValid : List BlockPtr := []
  pindexGenesisBlock : Option BlockPtr := none
  pindexBest : Option BlockPtr := none
  hashBestChain : Uint256 := 0
  nBestHeight : ℤ := -1
  nBestChainWork : ℕ := 0
  nBestInvalidWork : ℕ := 0
  pblockindexFBBHLast : Option BlockPtr := none
  pcoinsTip : CCoinsViewCache
  mempool : CTxMemPool := {}

abbrev NodeAction (α : Type) := StateAction Node Failure α

/-- What happens around the coin database while switching to a block. -/
structure SwitchConditions where
  fInitialDownload : Bool := false
  /-- `pcoinsTip->GetCacheSize() > nCoinCacheSize`. -/
  fCacheFull : Bool := false
  fDiskSpace : Bool := true
  fCoinsFlush : Bool := true

/-- The operations on single blocks and on the pool. -/
structure ChainOps where
  readFromDisk : BlockPtr → Option CBlock
  connectBlock : BlockMap → CBlockIndex → BlockPtr → CBlock → CCoinsViewCache → CBlock.ConnectResult
  /-- The flag is `fClean`. -/
  disconnectBlock : CBlockIndex → BlockPtr → CBlock → CCoinsViewCache → Check (Bool × CCoinsViewCache)
  /-- The pool after resurrecting the transactions of the first list and deleting those of the second. -/
  updateMemPool : Node → List CTransaction → List CTransaction → Check CTxMemPool
  conditions : BlockPtr → SwitchConditions

namespace Node

/-- `pindex->field` of a pointer that has to be valid. -/
def deref (pindex : BlockPtr) : NodeAction CBlockIndex := do
  let node ← StateAction.get
  StateAction.lift (assertSome .undefined (node.mapBlockIndex pindex))

def setEntry (node : Node) (pindex : BlockPtr) (entry : CBlockIndex) : Node :=
  { node with mapBlockIndex := Function.update node.mapBlockIndex pindex (some entry) }

def best (node : Node) : Option CBlockIndex := node.pindexBest.bind node.mapBlockIndex

/-- `IsInMainChain`. -/
def isInMainChain (node : Node) (pindex : BlockPtr) : Prop :=
  (∃ entry, node.mapBlockIndex pindex = some entry ∧ entry.pnext ≠ none) ∨ node.pindexBest = some pindex

/-- `while (plonger->nHeight > nHeight) plonger = plonger->pprev`, with the assertion behind it. -/
def descend (index : BlockMap) (nHeight : ℕ) : ℕ → BlockPtr → Check BlockPtr
  | rounds, plonger => do
    let entry ← assertSome .undefined (index plonger)
    if entry.nHeight ≤ nHeight then return plonger
    else match rounds with
      | 0 => .error .diverges
      | rounds + 1 => do
        let prev ← assertSome (.assertion "plonger != NULL") entry.pprev
        descend index nHeight rounds prev

/-- The loop that finds the fork. -/
def findFork (index : BlockMap) : ℕ → Option BlockPtr → BlockPtr → Check (Option BlockPtr)
  | _, none, _ => .ok none
  | rounds, some pfork, plonger =>
    if pfork = plonger then .ok (some pfork)
    else match rounds with
      | 0 => .error .diverges
      | rounds + 1 => do
        let fork ← assertSome .undefined (index pfork)
        let longer ← assertSome .undefined (index plonger)
        let plonger ← descend index fork.nHeight longer.nHeight plonger
        if pfork = plonger then return some pfork
        else
          let prev ← assertSome (.assertion "pfork != NULL") fork.pprev
          findFork index rounds (some prev) plonger

/-- The blocks from `pindex` down to the one above `pfork`. -/
def pathTo (index : BlockMap) (pfork : Option BlockPtr) : ℕ → Option BlockPtr → Check (List BlockPtr)
  | rounds, pindex =>
    if pindex = pfork then .ok []
    else match pindex, rounds with
      | none, _ => .error .undefined
      | some _, 0 => .error .diverges
      | some pindex, rounds + 1 => do
        let entry ← assertSome .undefined (index pindex)
        let rest ← pathTo index pfork rounds entry.pprev
        return pindex :: rest

/-- One more than the height of a block, a bound for the walks that start there. -/
def rounds (index : BlockMap) (pindex : Option BlockPtr) : ℕ :=
  (pindex.bind index).elim 0 fun entry => entry.nHeight + 1

/-- The lists `vDisconnect` and `vConnect` of `SetBestChain`. -/
def findSwitch (index : BlockMap) (best : Option BlockPtr) (pindexNew : BlockPtr) :
    Check (List BlockPtr × List BlockPtr) := do
  let pfork ← findFork index (rounds index best) best pindexNew
  let vDisconnect ← pathTo index pfork (rounds index best) best
  let vConnect ← pathTo index pfork (rounds index (some pindexNew)) (some pindexNew)
  return (vDisconnect, vConnect.reverse)

/-- `InvalidChainFound`; its log line dereferences `pindexBest`. -/
def invalidChainFound (pindexNew : BlockPtr) : NodeAction Unit := do
  let entry ← deref pindexNew
  StateAction.modify fun node => { node with nBestInvalidWork := max node.nBestInvalidWork entry.nChainWork }
  let node ← StateAction.get
  if node.pindexBest = none then StateAction.throw .undefined else pure ()

/-- Set a bit of `nStatus` and erase the block from the candidates. -/
def markFailed (node : Node) (pindex : BlockPtr) (entry : CBlockIndex) (nStatus : BlockStatus) : Node :=
  { node.setEntry pindex { entry with nStatus } with
    setBlockIndexValid := node.setBlockIndexValid.filter fun candidate => candidate ≠ pindex }

/-- `InvalidBlockFound`; `reorganise` is `ConnectBestBlock`, whose result is ignored. -/
def invalidBlockFound (reorganise : NodeAction Unit) (pindex : BlockPtr) : NodeAction Unit := do
  let entry ← deref pindex
  StateAction.modify fun node => node.markFailed pindex entry { entry.nStatus with failedValid := true }
  invalidChainFound pindex
  if entry.pnext = none then pure () else StateAction.attempt Failure.returnsFalse reorganise

/-- The loop over `vDisconnect`: the view and `vResurrect`. -/
def disconnectBlocks (ops : ChainOps) (index : BlockMap) :
    CCoinsViewCache → List BlockPtr → Check (CCoinsViewCache × List CTransaction)
  | view, [] => .ok (view, [])
  | view, pindex :: rest => do
    let entry ← assertSome .undefined (index pindex)
    let block ← assertSome (.abort "Failed to read block") (ops.readFromDisk pindex)
    let (fClean, view) ← ops.disconnectBlock entry pindex block view
    rejectIf (¬ fClean) (.error "SetBestBlock() : DisconnectBlock failed")
    -- `GetTotalBlocksEstimate` is 0.
    let (view, vResurrect) ← disconnectBlocks ops index view rest
    return (view, block.vtx.filter (fun tx => ¬ tx.isCoinBase ∧ 0 < entry.nHeight) ++ vResurrect)

/-- The index entry and `pindexGenesisBlock` as `ConnectBlock` leaves them. -/
def applyResult (node : Node) (pindex : BlockPtr) (entry : CBlockIndex) (r : CBlock.ConnectResult) : Node :=
  { node.setEntry pindex (r.indexed entry) with
    pindexGenesisBlock := if r.fGenesis then some pindex else node.pindexGenesisBlock }

/-- What `SetBestChain` does when `ConnectBlock` fails. -/
def connectFailed (reorganise : NodeAction Unit) (pindexNew pindex : BlockPtr) (failure : Failure) :
    NodeAction Unit :=
  if failure.isInvalid then do
    invalidChainFound pindexNew
    invalidBlockFound reorganise pindex
  else pure ()

/-- The loop over `vConnect`: the view and `vDelete`. -/
def connectBlocks (ops : ChainOps) (reorganise : NodeAction Unit) (pindexNew : BlockPtr) :
    CCoinsViewCache → List BlockPtr → NodeAction (CCoinsViewCache × List CTransaction)
  | view, [] => pure (view, [])
  | view, pindex :: rest => do
    let entry ← deref pindex
    let node ← StateAction.get
    let block ← StateAction.lift (assertSome (.abort "Failed to read block") (ops.readFromDisk pindex))
    let r := ops.connectBlock node.mapBlockIndex entry pindex block view
    StateAction.modify fun node => node.applyResult pindex entry r
    match r.result with
    | .error failure => do
      connectFailed reorganise pindexNew pindex failure
      StateAction.throw failure
    | .ok view => do
      let (view, vDelete) ← connectBlocks ops reorganise pindexNew view rest
      return (view, block.vtx ++ vDelete)

/-- `view.Flush()` into `pcoinsTip` and, when it is due, `pcoinsTip->Flush()` to the database. -/
def flushCoins (conditions : SwitchConditions) (view : CCoinsViewCache) : NodeAction Unit := do
  StateAction.modify fun node =>
    { node with pcoinsTip := node.pcoinsTip.batchWrite view.cacheCoins view.pindexTip }
  if conditions.fInitialDownload ∧ ¬ conditions.fCacheFull then pure ()
  else if ¬ conditions.fDiskSpace then StateAction.throw (.abort "")
  else if ¬ conditions.fCoinsFlush then StateAction.throw (.abort "Failed to write to coin database")
  else StateAction.modify fun node => { node with pcoinsTip := node.pcoinsTip.flushDB }

/-- `pindex->pprev->pnext = pnext` unless there is no previous block. -/
def setNext (index : BlockMap) (pindex : BlockPtr) (pnext : Option BlockPtr) : BlockMap :=
  match (index pindex).bind CBlockIndex.pprev with
  | none => index
  | some prev => Function.update index prev ((index prev).map fun entry => { entry with pnext })

/-- The two loops that rewrite `pnext`. -/
def relink (index : BlockMap) (vDisconnect vConnect : List BlockPtr) : BlockMap :=
  vConnect.foldl (fun index pindex => setNext index pindex (some pindex))
    (vDisconnect.foldl (fun index pindex => setNext index pindex none) index)

/-- The end of `SetBestChain`, where the memory structures are updated. -/
def activate (ops : ChainOps) (vDisconnect vConnect : List BlockPtr) (vResurrect vDelete : List CTransaction)
    (pindexNew : BlockPtr) : NodeAction Unit := do
  StateAction.modify fun node => { node with mapBlockIndex := relink node.mapBlockIndex vDisconnect vConnect }
  let node ← StateAction.get
  let mempool ← StateAction.lift (ops.updateMemPool node vResurrect vDelete)
  let entry ← deref pindexNew
  let hash ← StateAction.lift (assertSome .undefined entry.phashBlock)
  StateAction.modify fun node =>
    { node with
      mempool
      hashBestChain := hash
      pindexBest := some pindexNew
      pblockindexFBBHLast := none
      nBestHeight := entry.nHeight
      nBestChainWork := entry.nChainWork }

/-- `CCoinsViewCache view(*pcoinsTip, true)` after its best block is fetched. -/
def stagingView (node : Node) : CCoinsViewCache where
  base := node.pcoinsTip.answers
  pindexTip := node.pcoinsTip.getBestBlock

/-- `SetBestChain`. -/
def setBestChain (ops : ChainOps) (reorganise : NodeAction Unit) (pindexNew : BlockPtr) : NodeAction Unit := do
  let node ← StateAction.get
  let view := node.stagingView
  let (vDisconnect, vConnect) ← StateAction.lift (findSwitch node.mapBlockIndex view.getBestBlock pindexNew)
  let (view, vResurrect) ← StateAction.lift (disconnectBlocks ops node.mapBlockIndex view vDisconnect)
  let (view, vDelete) ← connectBlocks ops reorganise pindexNew view vConnect
  flushCoins (ops.conditions pindexNew) view
  activate ops vDisconnect vConnect vResurrect vDelete pindexNew

/-! ## ConnectBestBlock -/

/-- `CBlockIndexWorkComparator`. -/
def workLess (index : BlockMap) (pa pb : BlockPtr) : Bool :=
  let work := fun pindex => (index pindex).elim 0 CBlockIndex.nChainWork
  work pa < work pb ∨ work pa = work pb ∧ pb < pa

/-- The last element of the candidates in the order of the comparator. -/
def lastCandidate (index : BlockMap) : List BlockPtr → Option BlockPtr
  | [] => none
  | pindex :: rest =>
    match lastCandidate index rest with
    | none => some pindex
    | some last => if workLess index last pindex then some pindex else some last

/-- The loop that checks the ancestry: a failed ancestor, or the list `vAttach`. -/
def checkAncestry (index : BlockMap) (best : Option CBlockIndex) :
    ℕ → List BlockPtr → BlockPtr → Check (BlockPtr ⊕ List BlockPtr)
  | 0, _, _ => .error .diverges
  | rounds + 1, vAttach, pindexTest => do
    let entry ← assertSome .undefined (index pindexTest)
    if entry.nStatus.failed then return .inl pindexTest
    else
      let vAttach :=
        if best.all fun tip => tip.nChainWork < entry.nChainWork then pindexTest :: vAttach else vAttach
      match entry.pprev with
      | none => return .inr vAttach
      | some prev =>
        if entry.pnext ≠ none then return .inr vAttach else checkAncestry index best rounds vAttach prev

/-- Mark the descendants of `pindexTest` from `pindexFailed` on failed. -/
def markDescendants (pindexTest : BlockPtr) : ℕ → BlockPtr → NodeAction Unit
  | rounds, pindexFailed =>
    if pindexTest = pindexFailed then pure ()
    else match rounds with
      | 0 => StateAction.throw .diverges
      | rounds + 1 => do
        let entry ← deref pindexFailed
        StateAction.modify fun node => node.markFailed pindexFailed entry { entry.nStatus with failedChild := true }
        let prev ← StateAction.lift (assertSome .undefined entry.pprev)
        markDescendants pindexTest rounds prev

/-- A thrown `std::runtime_error` becomes `state.Abort`. -/
def catchErrors (action : NodeAction Unit) : NodeAction Unit := fun node =>
  match action node with
  | (.error (.throws what), node) => (.error (.abort ("System error: " ++ what)), node)
  | outcome => outcome

def switchTo (ops : ChainOps) (reorganise : NodeAction Unit) : List BlockPtr → NodeAction Unit
  | [] => pure ()
  | pindexSwitch :: rest => do
    catchErrors (setBestChain ops reorganise pindexSwitch)
    switchTo ops reorganise rest

/-- `ConnectBestBlock`, with at most so many rounds of its outer loop. -/
def connectBestBlock (ops : ChainOps) : ℕ → NodeAction Unit
  | 0 => StateAction.throw .diverges
  | rounds + 1 => do
    let node ← StateAction.get
    match lastCandidate node.mapBlockIndex node.setBlockIndexValid with
    | none => pure ()
    | some pindexNewBest => do
      let entry ← deref pindexNewBest
      if node.pindexBest = some pindexNewBest ∨ ∃ best ∈ node.best, entry.nChainWork = best.nChainWork then pure ()
      else do
        let ancestry ← StateAction.lift
          (checkAncestry node.mapBlockIndex node.best (entry.nHeight + 1) [] pindexNewBest)
        match ancestry with
        | .inl pindexTest => do
          markDescendants pindexTest entry.nHeight pindexNewBest
          invalidChainFound pindexNewBest
          connectBestBlock ops rounds
        | .inr vAttach => switchTo ops (connectBestBlock ops rounds) vAttach

/-- The index object `AddToBlockIndex` makes, once it is in the map. -/
def newEntry (P : Platform) (index : BlockMap) (block : CBlock) (nFile nPos : ℕ) : CBlockIndex :=
  let hash := block.getHash P
  let fresh := { CBlockIndex.ofHeader block.toCBlockHeader with phashBlock := some hash }
  let prev := Function.update index hash (some fresh) block.hashPrevBlock
  { fresh with
    pprev := prev.map fun _ => block.hashPrevBlock
    nHeight := prev.elim 0 fun entry => entry.nHeight + 1
    nTx := block.vtx.length
    nChainWork := (prev.elim 0 CBlockIndex.nChainWork + fresh.getBlockWork) % 2 ^ 256
    nChainTx := (prev.elim 0 CBlockIndex.nChainTx + block.vtx.length) % 2 ^ 32
    nFile := nFile
    nDataPos := nPos
    nStatus := { valid := BLOCK_VALID_TRANSACTIONS, haveData := true } }

/-- The writes of `AddToBlockIndex` to the block tree database. -/
structure IndexDisk where
  fWriteIndex : Bool := true
  fFlush : Bool := true

/-- `AddToBlockIndex`; every round of `ConnectBestBlock` erases a candidate. -/
def addToBlockIndex (P : Platform) (ops : ChainOps) (disk : IndexDisk) (block : CBlock) (nFile nPos : ℕ) :
    NodeAction Unit := do
  let node ← StateAction.get
  let hash := block.getHash P
  if node.mapBlockIndex hash ≠ none then StateAction.throw (.dos 0 "AddToBlockIndex() : already exists")
  else do
    StateAction.modify fun node =>
      { node.setEntry hash (newEntry P node.mapBlockIndex block nFile nPos) with
        setBlockIndexValid := hash :: node.setBlockIndexValid }
    if ¬ disk.fWriteIndex then StateAction.throw (.abort "Failed to write block index")
    else do
      connectBestBlock ops (node.setBlockIndexValid.length + 2)
      if ¬ disk.fFlush then StateAction.throw (.abort "Failed to sync block index") else pure ()

/-- `while (pblockindex->nHeight > nHeight) pblockindex = pblockindex->pprev`. -/
def walkDown (index : BlockMap) (nHeight : ℤ) : ℕ → BlockPtr → Check BlockPtr
  | rounds, pindex => do
    let entry ← assertSome .undefined (index pindex)
    if (entry.nHeight : ℤ) ≤ nHeight then return pindex
    else match rounds with
      | 0 => .error .diverges
      | rounds + 1 => do
        let prev ← assertSome .undefined entry.pprev
        walkDown index nHeight rounds prev

/-- `while (pblockindex->nHeight < nHeight) pblockindex = pblockindex->pnext`. -/
def walkUp (index : BlockMap) (nHeight : ℤ) : ℕ → BlockPtr → Check BlockPtr
  | rounds, pindex => do
    let entry ← assertSome .undefined (index pindex)
    if nHeight ≤ (entry.nHeight : ℤ) then return pindex
    else match rounds with
      | 0 => .error .diverges
      | rounds + 1 => do
        let next ← assertSome .undefined entry.pnext
        walkUp index nHeight rounds next

/-- The block of the last lookup if it is nearer. -/
def nearerStart (nHeight : ℤ) (pstart : BlockPtr) : NodeAction BlockPtr := do
  let node ← StateAction.get
  let start ← deref pstart
  match node.pblockindexFBBHLast with
  | none => return pstart
  | some plast => do
    let last ← deref plast
    return if (nHeight - last.nHeight).natAbs < (nHeight - start.nHeight).natAbs then plast else pstart

/-- `FindBlockByHeight`. -/
def findBlockByHeight (nHeight : ℤ) : NodeAction BlockPtr := do
  let node ← StateAction.get
  let pstart ← StateAction.lift (assertSome .undefined
    (if nHeight < node.nBestHeight.tdiv 2 then node.pindexGenesisBlock else node.pindexBest))
  let pstart ← nearerStart nHeight pstart
  let start ← deref pstart
  let below ← StateAction.lift (walkDown node.mapBlockIndex nHeight (start.nHeight - nHeight).toNat pstart)
  let found ← StateAction.lift (walkUp node.mapBlockIndex nHeight (nHeight - start.nHeight).toNat below)
  StateAction.modify fun node => { node with pblockindexFBBHLast := some found }
  return found

/-- The loop over `vResurrect`; validation errors are ignored. -/
def resurrect (P : Platform) (node : Node) : CTxMemPool → List CTransaction → Check CTxMemPool
  | pool, [] => .ok pool
  | pool, tx :: rest =>
    match pool.accept P node.mapBlockIndex node.pcoinsTip node.nBestHeight tx true false with
    | .ok pool => resurrect P node pool rest
    | .error failure => if failure.survived then resurrect P node pool rest else .error failure

/-- The loop over `vDelete`. -/
def deleteConnected (P : Platform) (depth : ℕ) : CTxMemPool → List CTransaction → Check CTxMemPool
  | pool, [] => .ok pool
  | pool, tx :: rest => do
    let pool ← CTxMemPool.remove P false depth pool tx
    let pool ← pool.removeConflicts P depth tx
    deleteConnected P depth pool rest

/-- The two pool loops of `SetBestChain`. -/
def updateMemPool (P : Platform) (depth : ℕ) (node : Node) (vResurrect vDelete : List CTransaction) :
    Check CTxMemPool := do
  let pool ← resurrect P node node.mempool vResurrect
  deleteConnected P depth pool vDelete

end Node

/-- What the disk returns while switching to a block. -/
structure SwitchDisk where
  blockFile : BlockPtr → Option CBlock
  undoFile : BlockPtr → Option CBlockUndo
  connectDisk : BlockPtr → CBlock.ConnectDisk := fun _ => { findUndoPos := some 0 }
  conditions : BlockPtr → SwitchConditions := fun _ => {}

/-- The operations of the node. A block that is read has the hash of its index entry and its proof
of work. -/
def ChainOps.real (P : Platform) (depth : ℕ) (disk : SwitchDisk) : ChainOps where
  readFromDisk pindex := (disk.blockFile pindex).filter fun block =>
    (checkProofOfWork (block.getHash P) block.nBits).isOk ∧ block.getHash P = pindex
  connectBlock index entry pindex block view :=
    block.connectBlock P (disk.connectDisk pindex) index entry pindex view false
  disconnectBlock entry pindex block view := block.disconnectBlock P entry pindex (disk.undoFile pindex) view
  updateMemPool := Node.updateMemPool P depth
  conditions := disk.conditions

/-! ## Block locators

A locator names blocks further and further back from a block. The node that gets it looks for the first one in
its main chain. The doubled step leaves the type `int` only when there is no block left to step from.
-/

/-- A node that gets a locator looks in its own index. -/
structure CBlockLocator where
  vHave : List Uint256 := []
deriving DecidableEq, Repr

instance (node : Node) (pindex : BlockPtr) : Decidable (node.isInMainChain pindex) :=
  decidable_of_iff ((∃ entry ∈ node.mapBlockIndex pindex, entry.pnext ≠ none) ∨ node.pindexBest = some pindex) Iff.rfl

namespace CBlockLocator

/-- `for (int i = 0; pindex && i < nStep; i++) pindex = pindex->pprev`. -/
def stepBack (index : BlockMap) : ℕ → Option BlockPtr → Option BlockPtr
  | nStep + 1, some pindex => stepBack index nStep ((index pindex).bind CBlockIndex.pprev)
  | _, pindex => pindex

/-- The loop of `Set`, with the size of `vHave` so far. -/
def setLoop (index : BlockMap) : ℕ → ℕ → ℕ → Option BlockPtr → Check (List Uint256)
  | _, _, _, none => .ok []
  | 0, _, _, some _ => .error .diverges
  | rounds + 1, size, nStep, some pindex => do
    let entry ← assertSome .undefined (index pindex)
    let hash ← assertSome .undefined entry.phashBlock
    -- Exponentially larger steps back
    let rest ← setLoop index rounds (size + 1) (if 10 < size + 1 then nStep * 2 else nStep)
      (stepBack index nStep (some pindex))
    return hash :: rest

/-- `Set`, with one round for every block up to `pindex`. -/
def set (index : BlockMap) (hashGenesisBlock : Uint256) (pindex : Option BlockPtr) : Check CBlockLocator := do
  let rounds := (pindex.bind index).elim 0 fun entry => entry.nHeight + 1
  let vHave ← setLoop index rounds 0 1 pindex
  return ⟨vHave ++ [hashGenesisBlock]⟩

/-- Whether a hash is found and the block is in the main chain. -/
def has (node : Node) (hash : Uint256) : Bool := (node.mapBlockIndex hash).isSome ∧ node.isInMainChain hash

/-- The loop of `GetDistanceBack`. -/
def distanceLoop (node : Node) : ℕ → ℕ → List Uint256 → ℕ
  | nDistance, _, [] => nDistance
  | nDistance, nStep, hash :: vHave =>
    if has node hash then nDistance
    else distanceLoop node (nDistance + nStep) (if 10 < nDistance + nStep then nStep * 2 else nStep) vHave

variable (locator : CBlockLocator)

/-- Retrace how far back it was in the sender's branch. -/
def getDistanceBack (node : Node) : ℕ := distanceLoop node 0 1 locator.vHave

/-- Find the first block the caller has in the main chain. -/
def getBlockIndex (node : Node) : Option BlockPtr := (locator.vHave.find? (has node)).or node.pindexGenesisBlock

end CBlockLocator

end BitCrystal
