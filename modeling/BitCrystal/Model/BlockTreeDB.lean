import BitCrystal.Model.BestChain
import BitCrystal.Model.BlockFiles
import BitCrystal.Model.TxCodec
import BitCrystal.Model.CoinCodec

/-! # The block tree database

Each index entry is a record under the hash of its header. What a restart reads is the list of records
an iterator passes, and the objects get their addresses from the allocator. The file information, the
flags and the invalid work, which are records of their own, are left out.
-/

namespace BitCrystal

open LittleEndian

def CLIENT_VERSION : ℕ := 2000002

namespace BlockStatus

/-- The bit field. -/
def toNat (nStatus : BlockStatus) : ℕ :=
  nStatus.valid + nStatus.haveData.toNat * 8 + nStatus.haveUndo.toNat * 16 + nStatus.failedValid.toNat * 32 +
    nStatus.failedChild.toNat * 64

def ofNat (nStatus : ℕ) : BlockStatus where
  valid := nStatus % 8
  haveData := nStatus.testBit 3
  haveUndo := nStatus.testBit 4
  failedValid := nStatus.testBit 5
  failedChild := nStatus.testBit 6

end BlockStatus

/-! ## Records -/

structure CDiskBlockIndex extends CBlockIndex where
  hashPrev : Uint256 := 0
deriving DecidableEq, Repr

namespace CDiskBlockIndex

/-- `CDiskBlockIndex(pindex)`; the hash of the previous entry is the key it is found under. -/
def ofIndex (pindex : CBlockIndex) : CDiskBlockIndex where
  toCBlockIndex := pindex
  hashPrev := pindex.pprev.getD 0

variable (diskindex : CDiskBlockIndex)

def getBlockHash (P : Platform) : Uint256 :=
  P.hashHeader {
    nVersion := diskindex.nVersion
    hashPrevBlock := diskindex.hashPrev
    hashMerkleRoot := diskindex.hashMerkleRoot
    nTime := diskindex.nTime
    nBits := diskindex.nBits
    nNonce := diskindex.nNonce }

def serialize : List UInt8 :=
  writeVarInt 4 CLIENT_VERSION ++ (writeVarInt 4 diskindex.nHeight ++ (writeVarInt 4 diskindex.nStatus.toNat ++
    (writeVarInt 4 diskindex.nTx ++
    ((if diskindex.nStatus.haveData ∨ diskindex.nStatus.haveUndo then writeVarInt 4 diskindex.nFile else []) ++
    ((if diskindex.nStatus.haveData then writeVarInt 4 diskindex.nDataPos else []) ++
    ((if diskindex.nStatus.haveUndo then writeVarInt 4 diskindex.nUndoPos else []) ++
    -- block header
    (encodeInt 4 diskindex.nVersion ++ (encode 32 diskindex.hashPrev ++ (encode 32 diskindex.hashMerkleRoot ++
    (encode 4 diskindex.nTime ++ (encode 4 diskindex.nBits ++ encode 4 diskindex.nNonce)))))))))))

/-- `Unserialize` into a new object. No height and no file number is negative. -/
def unserialize : Reader CDiskBlockIndex := do
  let _ ← readVarIntSigned
  let nHeight ← readVarIntSigned
  let nStatus ← readVarInt 4
  let nTx ← readVarInt 4
  let nFile ← (if (BlockStatus.ofNat nStatus).haveData ∨ (BlockStatus.ofNat nStatus).haveUndo then readVarIntSigned
    else pure 0)
  let nDataPos ← (if (BlockStatus.ofNat nStatus).haveData then readVarInt 4 else pure 0)
  let nUndoPos ← (if (BlockStatus.ofNat nStatus).haveUndo then readVarInt 4 else pure 0)
  let nVersion ← readInt 4
  let hashPrev ← read 32
  let hashMerkleRoot ← read 32
  let nTime ← read 4
  let nBits ← read 4
  let nNonce ← read 4
  return {
    nHeight := nHeight.toNat, nStatus := .ofNat nStatus, nTx, nFile := nFile.toNat, nDataPos, nUndoPos
    nVersion, hashPrev, hashMerkleRoot, nTime, nBits, nNonce }

end CDiskBlockIndex

/-- The character that block index records start with. -/
def chBlockIndex : UInt8 := 0x62

/-- `make_pair('b', hash)`. -/
def blockIndexKey (hash : Uint256) : List UInt8 := chBlockIndex :: encode 32 hash

abbrev CBlockTreeDB := List UInt8 → Option (List UInt8)

/-- The order of the keys, `BytewiseComparator`. -/
def bytewiseLess : List UInt8 → List UInt8 → Bool
  | _, [] => false
  | [], _ :: _ => true
  | a :: x, b :: y => a < b || a = b && bytewiseLess x y

def CBlockTreeDB.writeBlockIndex (P : Platform) (db : CBlockTreeDB) (blockindex : CDiskBlockIndex) : CBlockTreeDB :=
  Function.update db (blockIndexKey (blockindex.getBlockHash P)) (some blockindex.serialize)

namespace CBlockIndex

/-- `GetBlockPos`; the null position is absent. -/
def getBlockPos (pindex : CBlockIndex) : Option CDiskBlockPos :=
  if pindex.nStatus.haveData then some ⟨pindex.nFile, pindex.nDataPos⟩ else none

def getUndoPos (pindex : CBlockIndex) : Option CDiskBlockPos :=
  if pindex.nStatus.haveUndo then some ⟨pindex.nFile, pindex.nUndoPos⟩ else none

/-- What `LoadBlockIndexGuts` reads into an object. -/
def fill (pindexNew : CBlockIndex) (pprev : Option BlockPtr) (diskindex : CDiskBlockIndex) : CBlockIndex where
  phashBlock := pindexNew.phashBlock
  pprev := pprev
  pnext := pindexNew.pnext
  nHeight := diskindex.nHeight
  nFile := diskindex.nFile
  nDataPos := diskindex.nDataPos
  nUndoPos := diskindex.nUndoPos
  nChainWork := pindexNew.nChainWork
  nTx := diskindex.nTx
  nChainTx := pindexNew.nChainTx
  nStatus := diskindex.nStatus
  nVersion := diskindex.nVersion
  hashMerkleRoot := diskindex.hashMerkleRoot
  nTime := diskindex.nTime
  nBits := diskindex.nBits
  nNonce := diskindex.nNonce

end CBlockIndex

/-- A node with the keys of `mapBlockIndex`. -/
structure LoadingNode extends Node where
  hashes : List BlockPtr := []

namespace LoadingNode

variable (P : Platform) (node : LoadingNode)

def insertBlockIndex (hash : Uint256) : Option BlockPtr × LoadingNode :=
  if hash = 0 then (none, node)
  else if (node.mapBlockIndex hash).isSome then (some hash, node)
  else (some hash, { node with
    mapBlockIndex := Function.update node.mapBlockIndex hash (some { phashBlock := some hash })
    hashes := hash :: node.hashes })

/-- The body of the loop of `LoadBlockIndexGuts` for a block index record. -/
def loadRecord (diskindex : CDiskBlockIndex) : Check LoadingNode := do
  let hash := diskindex.getBlockHash P
  let (pindexNew, node) := node.insertBlockIndex hash
  let (pprev, node) := node.insertBlockIndex diskindex.hashPrev
  let pindexNew ← assertSome .undefined pindexNew
  let entry ← assertSome .undefined (node.mapBlockIndex pindexNew)
  rejectIf (¬ (checkProofOfWork pindexNew diskindex.nBits).isOk) (.error "LoadBlockIndex() : CheckIndex failed")
  return { node with
    mapBlockIndex := Function.update node.mapBlockIndex pindexNew (some (entry.fill pprev diskindex))
    -- Watch for genesis block
    pindexGenesisBlock :=
      if node.pindexGenesisBlock = none ∧ hash = P.hashGenesisBlock then some pindexNew else node.pindexGenesisBlock }

/-- The loop of `LoadBlockIndexGuts` over the records from the first block index record on. -/
def loadBlockIndexGuts (node : LoadingNode) : List (List UInt8 × List UInt8) → Check LoadingNode
  | [] => .ok node
  | ([], _) :: _ => .error (.error "LoadBlockIndexGuts() : deserialize error")
  | (chType :: _, slValue) :: rest =>
    -- finished loading block index
    if chType ≠ chBlockIndex then .ok node
    else do
      let diskindex ← assertSome (.error "LoadBlockIndexGuts() : deserialize error")
        (CDiskBlockIndex.unserialize.parse slValue)
      let node ← node.loadRecord P diskindex
      loadBlockIndexGuts node rest

/-- `vSortedByHeight`, where objects of one height are ordered by their addresses. -/
def sortedByHeight (address : BlockPtr → ℕ) : List (ℕ × BlockPtr) :=
  (node.hashes.map fun hash => ((node.mapBlockIndex hash).elim 0 CBlockIndex.nHeight, hash)).mergeSort
    fun a b => a.1 < b.1 ∨ a.1 = b.1 ∧ address a.2 ≤ address b.2

/-- Calculate `nChainWork` and `nChainTx` of an entry. -/
def calculateChain (pindex : BlockPtr) : LoadingNode :=
  match node.mapBlockIndex pindex with
  | none => node
  | some entry =>
    let prev := entry.pprev.bind node.mapBlockIndex
    { node with
      mapBlockIndex := Function.update node.mapBlockIndex pindex (some { entry with
        nChainWork := (prev.elim 0 CBlockIndex.nChainWork + entry.getBlockWork) % 2 ^ 256
        nChainTx := (prev.elim 0 CBlockIndex.nChainTx + entry.nTx) % 2 ^ 32 })
      setBlockIndexValid :=
        if BLOCK_VALID_TRANSACTIONS ≤ entry.nStatus.valid ∧ ¬ entry.nStatus.failed then pindex :: node.setBlockIndexValid
        else node.setBlockIndexValid }

/-- Set 'next' pointers in best chain, one round for each height. -/
def setNext : ℕ → BlockPtr → LoadingNode → LoadingNode
  | 0, _, node => node
  | rounds + 1, pindex, node =>
    match (node.mapBlockIndex pindex).bind CBlockIndex.pprev with
    | none => node
    | some pindexPrev => setNext rounds pindexPrev { node with
        mapBlockIndex := Function.update node.mapBlockIndex pindexPrev
          ((node.mapBlockIndex pindexPrev).map fun entry => { entry with pnext := some pindex }) }

/-- The end of `LoadBlockIndexDB`: load the pointer to the end of best chain. -/
def loadBestChain : LoadingNode :=
  match node.pcoinsTip.getBestBlock.bind fun hash => (node.mapBlockIndex hash).map (hash, ·) with
  | none => { node with pindexBest := none }
  | some (pindexBest, entry) => setNext entry.nHeight pindexBest { node with
      pindexBest := some pindexBest
      hashBestChain := pindexBest
      nBestHeight := entry.nHeight
      nBestChainWork := entry.nChainWork }

def loadBlockIndexDB (address : BlockPtr → ℕ) (records : List (List UInt8 × List UInt8)) : Check LoadingNode := do
  let node ← node.loadBlockIndexGuts P records
  let node := (node.sortedByHeight address).foldl (fun node item => node.calculateChain item.2) node
  return node.loadBestChain

end LoadingNode

end BitCrystal
