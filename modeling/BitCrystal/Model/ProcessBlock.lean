import BitCrystal.Model.BestChain
import BitCrystal.Model.NextWork
import BitCrystal.Model.Signature

/-! # Accepting blocks

`AcceptBlock` checks a block against its parent and indexes it; `ProcessBlock` keeps blocks without a
parent until the parent is accepted. The disk is an argument: the position `FindBlockPos` finds and the
results of the writes. Messages to peers are left out.
-/

namespace BitCrystal

/-- `IsFinal(nBlockHeight, nBlockTime)` for a height above 0. -/
def CTransaction.isFinalAt (tx : CTransaction) (P : Platform) (nBlockHeight nBlockTime : ℕ) : Prop :=
  tx.nLockTime = 0 ∨
    (tx.nLockTime : ℤ) < (if tx.nLockTime < LOCKTIME_THRESHOLD then (nBlockHeight : ℤ)
      else if nBlockTime = 0 then P.adjustedTime else nBlockTime) ∨
    ∀ txin ∈ tx.vin, txin.nSequence = UINT_MAX

instance (tx : CTransaction) (P : Platform) (nBlockHeight nBlockTime : ℕ) :
    Decidable (tx.isFinalAt P nBlockHeight nBlockTime) :=
  inferInstanceAs (Decidable (_ ∨ _ ∨ _))

/-- `CScript() << nHeight`. -/
def CScript.pushHeight (nHeight : ℕ) : CScript :=
  if 1 ≤ nHeight ∧ nHeight ≤ 16 then [UInt8.ofNat (nHeight + (OP_1.toNat - 1))]
  else pushData (CBigNum.getvch nHeight)

/-- `std::equal`, which reads as many bytes of the second string as the first one has. -/
def stdEqual : CScript → CScript → Check Bool
  | [], _ => .ok true
  | _ :: _, [] => .error .undefined
  | a :: first, b :: second => if a = b then stdEqual first second else .ok false

namespace CBlock

/-- The coinbase starts with the serialized block height. -/
def checkHeight (block : CBlock) (nHeight : ℕ) : Check Unit := do
  let tx ← assertSome .undefined block.vtx.head?
  let txin ← assertSome .undefined tx.vin.head?
  let same ← stdEqual (CScript.pushHeight nHeight) txin.scriptSig
  rejectIf (¬ same) (.dos 100 "AcceptBlock() : block height mismatch in coinbase")

/-- The checks of `AcceptBlock` that depend on the block behind `pindexPrev`. -/
def checkAgainst (block : CBlock) (P : Platform) (fCheckpoints : Bool) (pindexPrev : CBlockIndex)
    (chain : List CBlockIndex) : Check Unit := do
  let nHeight := pindexPrev.nHeight + 1
  let nBits ← getNextWorkRequired P chain block.nTime
  rejectIf (block.nBits ≠ nBits) (.dos 100 "AcceptBlock() : incorrect proof of work")
  let nMedianTimePast ← getMedianTimePast chain
  rejectIf (block.nTime ≤ nMedianTimePast) (.dos 0 "AcceptBlock() : block's timestamp is too early")
  rejectIf (∃ tx ∈ block.vtx, ¬ tx.isFinalAt P nHeight block.nTime)
    (.dos 10 "AcceptBlock() : contains a non-final transaction")
  rejectIf (¬ Checkpoints.checkBlock P fCheckpoints nHeight (block.getHash P))
    (.dos 100 s!"AcceptBlock() : rejected by checkpoint lock-in at {nHeight}")
  if 2 ≤ block.nVersion ∧ (if P.fTestNet then isSuperMajority 2 chain 51 100 else isSuperMajority 2 chain 750 1000)
  then block.checkHeight nHeight
  else pure ()

/-- The checks of `AcceptBlock` in a block index; the genesis block passes without them. -/
def checkContext (block : CBlock) (P : Platform) (fCheckpoints : Bool) (index : BlockMap) : Check Unit :=
  if block.getHash P = P.hashGenesisBlock then .ok ()
  else do
    let pindexPrev ← assertSome (.dos 10 "AcceptBlock() : prev block not found") (index block.hashPrevBlock)
    block.checkAgainst P fCheckpoints pindexPrev (pprevs index (pindexPrev.nHeight + 1) (some block.hashPrevBlock))

end CBlock

/-- What the disk does while a block is accepted. -/
structure AcceptDisk where
  /-- `FindBlockPos`: the file and the position in it. -/
  findBlockPos : Check (ℕ × ℕ) := .ok (0, 0)
  fWriteToDisk : Bool := true
  index : Node.IndexDisk := {}

namespace Node

/-- `AcceptBlock`; `dbp` is the position of a block that is on disk already. -/
def acceptBlock (P : Platform) (fCheckpoints : Bool) (ops : ChainOps) (disk : AcceptDisk) (dbp : Option (ℕ × ℕ))
    (block : CBlock) : NodeAction Unit := do
  let node ← StateAction.get
  if node.mapBlockIndex (block.getHash P) ≠ none then
    StateAction.throw (.dos 0 "AcceptBlock() : block already in mapBlockIndex")
  else do
    StateAction.lift (block.checkContext P fCheckpoints node.mapBlockIndex)
    catchErrors do
      let found ← StateAction.lift disk.findBlockPos
      let (nFile, nPos) := dbp.getD found
      if dbp = none ∧ ¬ disk.fWriteToDisk then StateAction.throw (.abort "Failed to write block")
      else addToBlockIndex P ops disk.index block nFile nPos

end Node

/-- The node and the blocks it holds until their parents are accepted. `verdicts` records the blocks given
to `AcceptBlock`, the latest first, and whether it returned `true`; the node itself does not keep them. -/
structure Receiver extends Node where
  mapOrphanBlocks : Uint256 → Option CBlock := fun _ => none
  /-- The entries of a key stand in the order they were inserted. -/
  mapOrphanBlocksByPrev : List (Uint256 × CBlock) := []
  verdicts : List (Uint256 × Bool) := []

abbrev ReceiverAction (α : Type) := StateAction Receiver Failure α

namespace Receiver

/-- An action on the node. -/
def onNode {α : Type} (action : NodeAction α) : ReceiverAction α := fun receiver =>
  let (result, node) := action receiver.toNode
  (result, { receiver with toNode := node })

/-- The operations on blocks, the option `-checkpoints` and the disk. -/
structure Setting where
  ops : ChainOps
  fCheckpoints : Bool := true
  disk : BlockPtr → AcceptDisk := fun _ => {}

variable (P : Platform) (setting : Setting)

/-- `AcceptBlock` and its result. -/
def tryAccept (dbp : Option (ℕ × ℕ)) (block : CBlock) : ReceiverAction Unit := fun receiver =>
  let hash := block.getHash P
  let (result, receiver) := onNode
    (Node.acceptBlock P setting.fCheckpoints setting.ops (setting.disk hash) dbp block) receiver
  (result, { receiver with verdicts := (hash, result.isOk) :: receiver.verdicts })

/-- `mapOrphanBlocks.erase(hash)`. -/
def eraseOrphan (receiver : Receiver) (hash : Uint256) : Receiver :=
  { receiver with mapOrphanBlocks := Function.update receiver.mapOrphanBlocks hash none }

/-- `mapOrphanBlocksByPrev.erase(hashPrev)`. -/
def eraseByPrev (receiver : Receiver) (hashPrev : Uint256) : Receiver :=
  { receiver with
    mapOrphanBlocksByPrev := receiver.mapOrphanBlocksByPrev.filter fun held => held.1 ≠ hashPrev }

/-- The orphans whose parent is `hashPrev`. -/
def waitingFor (receiver : Receiver) (hashPrev : Uint256) : List CBlock :=
  (receiver.mapOrphanBlocksByPrev.filter fun held => held.1 = hashPrev).map Prod.snd

/-- The inner loop over the orphans of one parent: what is pushed to the queue. -/
def releaseChildren : List CBlock → ReceiverAction (List Uint256)
  | [] => pure []
  | pblockOrphan :: rest => do
    let hash := pblockOrphan.getHash P
    let accepted ← StateAction.completes Failure.returnsFalse (tryAccept P setting none pblockOrphan)
    StateAction.modify fun receiver => receiver.eraseOrphan hash
    let vWorkQueue ← releaseChildren rest
    return if accepted then hash :: vWorkQueue else vWorkQueue

/-- The loop over the rest of `vWorkQueue`. -/
def releaseLoop : ℕ → List Uint256 → ReceiverAction Unit
  | _, [] => pure ()
  | 0, _ :: _ => StateAction.throw .diverges
  | rounds + 1, hashPrev :: vWorkQueue => do
    let receiver ← StateAction.get
    let pushed ← releaseChildren P setting (receiver.waitingFor hashPrev)
    StateAction.modify fun receiver => receiver.eraseByPrev hashPrev
    releaseLoop rounds (vWorkQueue ++ pushed)

/-- The check of a block that does not extend the tip against the last checkpoint. -/
def checkSpam (pcheckpoint : Option CBlockIndex) (hashBestChain : Uint256) (block : CBlock) :
    Check Unit :=
  match pcheckpoint with
  | none => .ok ()
  | some pcheckpoint =>
    if block.hashPrevBlock = hashBestChain then .ok ()
    else do
      let deltaTime : ℤ := block.nTime - pcheckpoint.nTime
      rejectIf (deltaTime < 0) (.dos 100 "ProcessBlock() : block with timestamp before last checkpoint")
      rejectIf (setCompact (computeMinWork P pcheckpoint.nBits deltaTime) < setCompact block.nBits)
        (.dos 100 "ProcessBlock() : block with too little proof-of-work")

/-- The checks before a block is held or accepted. -/
def checkArrival (receiver : Receiver) (block : CBlock) : Check Unit := do
  let hash := block.getHash P
  rejectIf (receiver.mapBlockIndex hash ≠ none) (.dos 0 "ProcessBlock() : already have block")
  rejectIf (receiver.mapOrphanBlocks hash ≠ none) (.dos 0 "ProcessBlock() : already have block (orphan)")
  block.checkBlock P true true
  let pcheckpoint := Checkpoints.getLastCheckpoint P setting.fCheckpoints receiver.mapBlockIndex
  checkSpam P pcheckpoint receiver.hashBestChain block

/-- The previous block is missing. -/
def isOrphan (receiver : Receiver) (block : CBlock) : Prop :=
  block.hashPrevBlock ≠ 0 ∧ receiver.mapBlockIndex block.hashPrevBlock = none

instance (receiver : Receiver) (block : CBlock) : Decidable (receiver.isOrphan block) :=
  inferInstanceAs (Decidable (_ ∧ _))

/-- Shunt a block off to the holding area. -/
def hold (receiver : Receiver) (block : CBlock) : Receiver :=
  { receiver with
    mapOrphanBlocks := Function.update receiver.mapOrphanBlocks (block.getHash P) (some block)
    mapOrphanBlocksByPrev := receiver.mapOrphanBlocksByPrev ++ [(block.hashPrevBlock, block)] }

/-- `ProcessBlock`; `fFrom` says that there is a peer to request parents from. Every round of the loop
removes a hash from the queue, and only held blocks add one. -/
def processBlock (fFrom : Bool) (dbp : Option (ℕ × ℕ)) (block : CBlock) : ReceiverAction Unit := do
  let receiver ← StateAction.get
  StateAction.lift (receiver.checkArrival P setting block)
  if receiver.isOrphan block then
    StateAction.modify fun receiver => if fFrom then receiver.hold P block else receiver
  else do
    tryAccept P setting dbp block
    releaseLoop P setting (receiver.mapOrphanBlocksByPrev.length + 1) [block.getHash P]

end Receiver

end BitCrystal
