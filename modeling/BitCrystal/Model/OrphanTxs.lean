import BitCrystal.Machine.OrderedMap
import BitCrystal.Model.BestChain
import BitCrystal.Model.TxCodec

/-! # Orphan transactions

Transactions whose inputs are missing are kept as they were received, and indexed by the transactions they
spend. A `tx` message that is accepted releases them. Relaying and the peers are left out.
-/

namespace BitCrystal

open CTransaction

def MAX_ORPHAN_TRANSACTIONS : ℕ := MAX_BLOCK_SIZE / 100

/-- `CDataStream(vMsg) >> tx`. -/
def CTransaction.ofStream (vMsg : List UInt8) : Option CTransaction :=
  (unserialize MAX_SIZE { vin := [], vout := [] }).parse vMsg

/-- The failure of a stream that ends too early. -/
def endOfData : Failure := .throws "CDataStream::read() : end of data"

structure OrphanTxs where
  mapOrphanTransactions : OrderedMap Uint256 (List UInt8) := ∅
  mapOrphanTransactionsByPrev : OrderedMap Uint256 (OrderedMap Uint256 (List UInt8)) := ∅

abbrev OrphanAction := StateAction OrphanTxs Failure

namespace OrphanTxs

/-- `mapOrphanTransactionsByPrev[hashPrev]` after it is looked at. -/
def byPrev (orphans : OrphanTxs) (hashPrev : Uint256) : OrderedMap Uint256 (List UInt8) :=
  (orphans.mapOrphanTransactionsByPrev.find? hashPrev).getD ∅

/-- The subscript operator makes an empty map. -/
def touch (hashPrev : Uint256) (orphans : OrphanTxs) : OrphanTxs :=
  { orphans with
    mapOrphanTransactionsByPrev := orphans.mapOrphanTransactionsByPrev.insert hashPrev (orphans.byPrev hashPrev) }

variable (P : Platform)

/-- The loop of `AddOrphanTx`; `insert` does not replace an entry. -/
def insertByPrev (hash : Uint256) (vMsg : List UInt8) : List CTxIn → OrphanTxs → OrphanTxs
  | [], orphans => orphans
  | txin :: vin, orphans =>
    let inner := orphans.byPrev txin.prevout.hash
    let inner := if (inner.find? hash).isSome then inner else inner.insert hash vMsg
    insertByPrev hash vMsg vin { orphans with
      mapOrphanTransactionsByPrev := orphans.mapOrphanTransactionsByPrev.insert txin.prevout.hash inner }

/-- `AddOrphanTx`. -/
def addOrphanTx (vMsg : List UInt8) : OrphanAction Bool := do
  match ofStream vMsg with
  | none => StateAction.throw endOfData
  | some tx =>
    let hash := tx.getHash P
    let orphans ← StateAction.get
    if (orphans.mapOrphanTransactions.find? hash).isSome then return false
    -- Ignore big transactions, to avoid a send-big-orphans memory exhaustion attack.
    else if 5000 < vMsg.length then return false
    else
      StateAction.modify fun orphans => insertByPrev hash vMsg tx.vin
        { orphans with mapOrphanTransactions := orphans.mapOrphanTransactions.insert hash vMsg }
      return true

/-- The loop of `EraseOrphanTx`. -/
def eraseByPrev (hash : Uint256) : List CTxIn → OrphanTxs → OrphanTxs
  | [], orphans => orphans
  | txin :: vin, orphans =>
    let inner := (orphans.byPrev txin.prevout.hash).erase hash
    eraseByPrev hash vin { orphans with
      mapOrphanTransactionsByPrev :=
        if inner.size = 0 then orphans.mapOrphanTransactionsByPrev.erase txin.prevout.hash
        else orphans.mapOrphanTransactionsByPrev.insert txin.prevout.hash inner }

/-- `EraseOrphanTx`. -/
def eraseOrphanTx (hash : Uint256) : OrphanAction Unit := do
  let orphans ← StateAction.get
  match orphans.mapOrphanTransactions.find? hash with
  | none => pure ()
  | some vMsg =>
    match ofStream vMsg with
    | none => StateAction.throw endOfData
    | some tx =>
      StateAction.modify fun orphans =>
        let orphans := eraseByPrev hash tx.vin orphans
        { orphans with mapOrphanTransactions := orphans.mapOrphanTransactions.erase hash }

/-- `lower_bound(randomhash)`, or the first orphan where that is the end. -/
def orphanAt (orphans : OrphanTxs) (randomhash : Uint256) : Option (Uint256 × List UInt8) :=
  (orphans.mapOrphanTransactions.lowerBound randomhash).or orphans.mapOrphanTransactions.entries.head?

/-- The loop of `LimitOrphanTxSize`: how many were evicted. -/
def limitLoop (randomhash : ℕ → Uint256) (nMaxOrphans : ℕ) : ℕ → ℕ → OrphanAction ℕ
  | 0, nEvicted => do
    let orphans ← StateAction.get
    if orphans.mapOrphanTransactions.size ≤ nMaxOrphans then return nEvicted else StateAction.throw .diverges
  | rounds + 1, nEvicted => do
    let orphans ← StateAction.get
    if orphans.mapOrphanTransactions.size ≤ nMaxOrphans then return nEvicted
    else
      -- Evict a random orphan:
      let it ← StateAction.lift (assertSome .undefined (orphans.orphanAt (randomhash nEvicted)))
      eraseOrphanTx it.1
      limitLoop randomhash nMaxOrphans rounds (nEvicted + 1)

/-- `LimitOrphanTxSize` with the random hashes it gets. -/
def limitOrphanTxSize (randomhash : ℕ → Uint256) (nMaxOrphans : ℕ) : OrphanAction ℕ := do
  let orphans ← StateAction.get
  limitLoop randomhash nMaxOrphans orphans.mapOrphanTransactions.size 0

/-- `AcceptToMemoryPool` at a node, with the pool as it is by now. Failures other than missing inputs refuse the
transaction. -/
def acceptToMemoryPool (node : Node) (mempool : CTxMemPool) (tx : CTransaction) : Check CTxMemPool :=
  mempool.accept P node.mapBlockIndex node.pcoinsTip node.nBestHeight tx true true

/-- The loop over the orphans of one transaction: the pool, and what is pushed to the two queues. -/
def resolve (node : Node) : List (Uint256 × List UInt8) → CTxMemPool → Check (CTxMemPool × List Uint256 × List Uint256)
  | [], mempool => .ok (mempool, [], [])
  | mi :: rest, mempool => do
    let tx ← assertSome endOfData (ofStream mi.2)
    let hash := tx.getHash P
    match acceptToMemoryPool P node mempool tx with
    | .ok mempool =>
      let resolved ← resolve node rest mempool
      return (resolved.1, hash :: resolved.2.1, hash :: resolved.2.2)
    | .error .missingInputs => resolve node rest mempool
    | .error _ =>
      -- invalid or too-little-fee orphan
      let resolved ← resolve node rest mempool
      return (resolved.1, resolved.2.1, hash :: resolved.2.2)

/-- The loop over the rest of `vWorkQueue`: the pool and the rest of `vEraseQueue`. -/
def releaseLoop (node : Node) : ℕ → List Uint256 → CTxMemPool → OrphanAction (CTxMemPool × List Uint256)
  | _, [], mempool => return (mempool, [])
  | 0, _ :: _, _ => StateAction.throw .diverges
  | rounds + 1, hashPrev :: vWorkQueue, mempool => do
    StateAction.modify (touch hashPrev)
    let orphans ← StateAction.get
    let resolved ← StateAction.lift (resolve P node (orphans.byPrev hashPrev).entries mempool)
    let rest ← releaseLoop node rounds (vWorkQueue ++ resolved.2.1) resolved.1
    return (rest.1, resolved.2.2 ++ rest.2)

def eraseAll : List Uint256 → OrphanAction Unit
  | [] => pure ()
  | hash :: vEraseQueue => do
    eraseOrphanTx hash
    eraseAll vEraseQueue

/-- Truncate messages to the size of the tx in them. -/
def truncate (tx : CTransaction) (vMsg : List UInt8) : List UInt8 :=
  if tx.serialize.length < vMsg.length then vMsg.take tx.serialize.length else vMsg

/-- The same with `nSize` and `oldSize` as the `unsigned int` they are, for streams of any length. -/
def truncateMessage (tx : CTransaction) (vMsg : List UInt8) : List UInt8 :=
  let nSize := tx.getSerializeSize % 2 ^ 32
  let oldSize := vMsg.length % 2 ^ 32
  if nSize < oldSize then vMsg.take nSize else vMsg

/-- The message `tx` at a node: the pool after it. Every round of the loop takes one transaction that is accepted. -/
def processTx (node : Node) (randomhash : ℕ → Uint256) (vMsg : List UInt8) : OrphanAction CTxMemPool := do
  match ofStream vMsg with
  | none => StateAction.throw endOfData
  | some tx =>
    match acceptToMemoryPool P node node.mempool tx with
    | .ok mempool =>
      let orphans ← StateAction.get
      let released ← releaseLoop P node (orphans.mapOrphanTransactions.size + 1) [tx.getHash P] mempool
      eraseAll (tx.getHash P :: released.2)
      return released.1
    | .error .missingInputs =>
      let _ ← addOrphanTx P (truncate tx vMsg)
      -- DoS prevention: do not allow mapOrphanTransactions to grow unbounded
      let _ ← limitOrphanTxSize randomhash MAX_ORPHAN_TRANSACTIONS
      return node.mempool
    | .error _ => return node.mempool

end OrphanTxs

end BitCrystal
