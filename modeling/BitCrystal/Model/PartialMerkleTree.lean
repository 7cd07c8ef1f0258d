import BitCrystal.Model.BloomFilter

/-! # Partial merkle trees

A partial merkle tree proves that some transactions are in a block. It lists the nodes of the tree
depth first, a bit for each node that is visited and a hash for each node at which the walk stops.
-/

namespace BitCrystal

open LittleEndian

/-- `BuildMerkleTree` of a block with these txids. -/
def merkleRoot (P : Platform) (vTxid : List Uint256) : Uint256 :=
  (merkleLevels P vTxid.length vTxid).getLast?.getD 0

structure CPartialMerkleTree where
  nTransactions : ℕ := 0
  vBits : List Bool := []
  vHash : List Uint256 := []
  fBad : Bool := true
deriving DecidableEq, Repr

/-- How far `TraverseAndExtract` has come. -/
structure ExtractState where
  nBitsUsed : ℕ := 0
  nHashUsed : ℕ := 0
  vMatch : List Uint256 := []
  fBad : Bool

/-- The bits packed in bytes, the first in the lowest place. -/
def packBits (bits : List Bool) : List UInt8 :=
  (List.range ((bits.length + 7) / 8)).map fun i =>
    UInt8.ofNat (Nat.ofBits fun p : Fin 8 => bits.getD (i * 8 + p) false)

def unpackBits (bytes : List UInt8) : List Bool :=
  bytes.flatMap fun byte => (List.range 8).map byte.toNat.testBit

namespace CPartialMerkleTree

/-- The number of nodes at a height of the tree. -/
def calcTreeWidth (nTransactions height : ℕ) : ℕ := uint32 (nTransactions + 2 ^ height - 1) / 2 ^ height

/-- The loop that calculates the height of the tree. -/
def treeHeight (nTransactions : ℕ) : ℕ → ℕ → Check ℕ
  | rounds, nHeight =>
    if 1 < calcTreeWidth nTransactions nHeight then
      match rounds with
      | 0 => .error .diverges
      | rounds + 1 => treeHeight nTransactions rounds (nHeight + 1)
    else .ok nHeight

def calcHash (P : Platform) (vTxid : List Uint256) : ℕ → ℕ → Check Uint256
  | 0, pos => assertSome .undefined vTxid[pos]?
  | height + 1, pos => do
    let left ← calcHash P vTxid height (pos * 2)
    let right ← if pos * 2 + 1 < calcTreeWidth vTxid.length height then calcHash P vTxid height (pos * 2 + 1)
      else pure left
    return P.hashPair left right

/-- `fParentOfMatch`: whether one of the txids below a node is matched. -/
def parentOfMatch (nTransactions : ℕ) (vMatch : List Bool) (height pos : ℕ) : Check Bool := do
  let first := pos * 2 ^ height
  let last := min ((pos + 1) * 2 ^ height) nTransactions
  let bits ← (List.range' first (last - first)).mapM fun p => assertSome .undefined vMatch[p]?
  return bits.any id

def traverseAndBuild (P : Platform) (vTxid : List Uint256) (vMatch : List Bool) :
    ℕ → ℕ → CPartialMerkleTree → Check CPartialMerkleTree
  | 0, pos, tree => do
    let fParentOfMatch ← parentOfMatch vTxid.length vMatch 0 pos
    let hash ← calcHash P vTxid 0 pos
    return { tree with vBits := tree.vBits ++ [fParentOfMatch], vHash := tree.vHash ++ [hash] }
  | height + 1, pos, tree => do
    let fParentOfMatch ← parentOfMatch vTxid.length vMatch (height + 1) pos
    let tree := { tree with vBits := tree.vBits ++ [fParentOfMatch] }
    if fParentOfMatch then
      let tree ← traverseAndBuild P vTxid vMatch height (pos * 2) tree
      if pos * 2 + 1 < calcTreeWidth vTxid.length height then traverseAndBuild P vTxid vMatch height (pos * 2 + 1) tree
      else pure tree
    else
      let hash ← calcHash P vTxid (height + 1) pos
      return { tree with vHash := tree.vHash ++ [hash] }

/-- `CPartialMerkleTree(vTxid, vMatch)`. -/
def ofMatches (P : Platform) (vTxid : List Uint256) (vMatch : List Bool) : Check CPartialMerkleTree := do
  let nHeight ← treeHeight vTxid.length 32 0
  traverseAndBuild P vTxid vMatch nHeight 0 { nTransactions := vTxid.length, fBad := false }

abbrev Action (α : Type) := StateAction ExtractState Failure α

variable (P : Platform) (tree : CPartialMerkleTree)

/-- Read a bit, if there is one left. -/
def takeBit : Action (Option Bool) := do
  let s ← StateAction.get
  if tree.vBits.length ≤ s.nBitsUsed then do
    StateAction.modify fun s => { s with fBad := true }
    return none
  else do
    let fParentOfMatch ← StateAction.lift (assertSome .undefined tree.vBits[s.nBitsUsed]?)
    StateAction.modify fun s => { s with nBitsUsed := s.nBitsUsed + 1 }
    return some fParentOfMatch

/-- Use a stored hash, which may be a matched txid. -/
def takeHash (fMatched : Bool) : Action Uint256 := do
  let s ← StateAction.get
  if tree.vHash.length ≤ s.nHashUsed then do
    StateAction.modify fun s => { s with fBad := true }
    return 0
  else do
    let hash ← StateAction.lift (assertSome .undefined tree.vHash[s.nHashUsed]?)
    StateAction.modify fun s =>
      { s with nHashUsed := s.nHashUsed + 1, vMatch := if fMatched then s.vMatch ++ [hash] else s.vMatch }
    return hash

def traverseAndExtract : ℕ → ℕ → Action Uint256
  | 0, _ => do
    match ← tree.takeBit with
    | none => return 0
    | some fParentOfMatch => tree.takeHash fParentOfMatch
  | height + 1, pos => do
    match ← tree.takeBit with
    | none => return 0
    | some false => tree.takeHash false
    | some true => do
      let left ← traverseAndExtract height (pos * 2)
      let right ← if pos * 2 + 1 < calcTreeWidth tree.nTransactions height then traverseAndExtract height (pos * 2 + 1)
        else pure left
      return P.hashPair left right

/-- `ExtractMatches`: the merkle root, or zero in case of failure, and `vMatch`. -/
def extractMatches : Check (Uint256 × List Uint256) :=
  if tree.nTransactions = 0 then .ok (0, [])
  else if MAX_BLOCK_SIZE / 60 < tree.nTransactions then .ok (0, [])
  else if tree.nTransactions < tree.vHash.length then .ok (0, [])
  else if tree.vBits.length < tree.vHash.length then .ok (0, [])
  else do
    let nHeight ← treeHeight tree.nTransactions 32 0
    let (outcome, s) := tree.traverseAndExtract P nHeight 0 { fBad := tree.fBad }
    let hashMerkleRoot ← outcome
    if s.fBad then return (0, s.vMatch)
    else if (s.nBitsUsed + 7) / 8 ≠ (tree.vBits.length + 7) / 8 then return (0, s.vMatch)
    else if s.nHashUsed ≠ tree.vHash.length then return (0, s.vMatch)
    else return (hashMerkleRoot, s.vMatch)

def serialize : List UInt8 :=
  encode 4 tree.nTransactions ++
    (writeObjects (encode 32) tree.vHash ++ writeVector (packBits tree.vBits))

def unserialize (nMaxSize : ℕ) : Reader CPartialMerkleTree := do
  let nTransactions ← read 4
  let vHash ← readObjects nMaxSize (read 32)
  let vBytes ← readVector nMaxSize
  return { nTransactions, vHash, vBits := unpackBits vBytes, fBad := false }

end CPartialMerkleTree

/-- A block as a light client gets it. -/
structure CMerkleBlock where
  header : CBlockHeader
  txn : CPartialMerkleTree
  vMatchedTxn : List (ℕ × Uint256)

namespace CMerkleBlock

/-- The variables of the constructor. -/
structure Matching where
  filter : CBloomFilter
  vMatch : List Bool := []
  vHashes : List Uint256 := []
  vMatchedTxn : List (ℕ × Uint256) := []

variable (P : Platform) (murmur : MurmurHash)

/-- One round of the loop. -/
def matchRound (m : Matching) (entry : CTransaction × ℕ) : Check Matching := do
  let hash := entry.1.getHash P
  let (found, filter) ← m.filter.isRelevantAndUpdate murmur entry.1 hash
  return { filter, vMatch := m.vMatch ++ [found], vHashes := m.vHashes ++ [hash]
           vMatchedTxn := if found then m.vMatchedTxn ++ [(entry.2, hash)] else m.vMatchedTxn }

/-- `CMerkleBlock(block, filter)`, and the filter after it. -/
def ofBlock (block : CBlock) (filter : CBloomFilter) : Check (CMerkleBlock × CBloomFilter) := do
  let m ← block.vtx.zipIdx.foldlM (matchRound P murmur) { filter }
  let txn ← CPartialMerkleTree.ofMatches P m.vHashes m.vMatch
  return (⟨block.toCBlockHeader, txn, m.vMatchedTxn⟩, m.filter)

end CMerkleBlock

end BitCrystal
