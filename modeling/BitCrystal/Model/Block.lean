import BitCrystal.Model.Coins
import Mathlib.Data.Nat.Bitwise

/-! # Block index entries and the checks without context

`Platform` collects what the node takes from outside the modelled code: the hash functions, the
script interpreter and template matcher, the clock and the options. Everything else in a check is
computed here from the block.
-/

namespace BitCrystal

def SCRIPT_VERIFY_NONE : ℕ := 0
def SCRIPT_VERIFY_P2SH : ℕ := 1
def SCRIPT_VERIFY_STRICTENC : ℕ := 2
def SCRIPT_VERIFY_NOCACHE : ℕ := 4

structure Platform where
  /-- `SerializeHash` of a transaction. -/
  hashTx : SerializedTx → Uint256
  /-- `Hash9` of a header. -/
  hashHeader : CBlockHeader → Uint256
  /-- `Hash` of two concatenated hashes. -/
  hashPair : Uint256 → Uint256 → Uint256
  /-- `VerifyScript(scriptSig, scriptPubKey, txTo, nIn, flags, 0)`. -/
  verifyScript : CScript → CScript → CTransaction → ℕ → ℕ → Bool
  /-- `::IsStandard(scriptPubKey)`. -/
  isStandardScript : CScript → Bool
  /-- The loop of `AreInputsStandard` over the outputs the inputs spend. -/
  areInputsStandard : CTransaction → List CTxOut → Bool
  hashGenesisBlock : Uint256
  /-- `GetAdjustedTime()`. -/
  adjustedTime : ℤ
  nScriptCheckThreads : ℕ := 0
  fTestNet : Bool := false
  fTxIndex : Bool := false

def CTransaction.getHash (tx : CTransaction) (P : Platform) : Uint256 := P.hashTx tx.serialized

def CBlock.getHash (block : CBlock) (P : Platform) : Uint256 := P.hashHeader block.toCBlockHeader

/-! ## Index entries -/

/-- The bit field `nStatus`: the validity level and one flag for each further bit. -/
structure BlockStatus where
  valid : ℕ := 0
  haveData : Bool := false
  haveUndo : Bool := false
  failedValid : Bool := false
  failedChild : Bool := false
deriving DecidableEq, Repr

def BLOCK_VALID_TRANSACTIONS : ℕ := 3
def BLOCK_VALID_SCRIPTS : ℕ := 5

/-- `nStatus & BLOCK_FAILED_MASK`. -/
def BlockStatus.failed (nStatus : BlockStatus) : Bool := nStatus.failedValid || nStatus.failedChild

structure CBlockIndex where
  /-- Unset for the entry `CreateNewBlock` makes up for a block without a hash. -/
  phashBlock : Option Uint256 := none
  pprev : Option BlockPtr := none
  pnext : Option BlockPtr := none
  nHeight : ℕ := 0
  nFile : ℕ := 0
  nDataPos : ℕ := 0
  nUndoPos : ℕ := 0
  nChainWork : ℕ := 0
  nTx : ℕ := 0
  nChainTx : ℕ := 0
  nStatus : BlockStatus := {}
  nVersion : ℤ := 0
  hashMerkleRoot : Uint256 := 0
  nTime : ℕ := 0
  nBits : ℕ := 0
  nNonce : ℕ := 0
deriving DecidableEq, Repr

/-- `CBlockIndex(block)`. -/
def CBlockIndex.ofHeader (header : CBlockHeader) : CBlockIndex where
  nVersion := header.nVersion
  hashMerkleRoot := header.hashMerkleRoot
  nTime := header.nTime
  nBits := header.nBits
  nNonce := header.nNonce

/-- `bnProofOfWorkLimit(~uint256(0) >> 20)`. -/
def bnProofOfWorkLimit : ℤ := 2 ^ 236 - 1

/-- `CBigNum::SetCompact`. -/
def setCompact (nCompact : ℕ) : ℤ :=
  let nSize := nCompact / 2 ^ 24
  let nWord := nCompact % 2 ^ 23
  let magnitude : ℕ := if nSize ≤ 3 then nWord / 2 ^ (8 * (3 - nSize)) else nWord * 2 ^ (8 * (nSize - 3))
  if nCompact / 2 ^ 23 % 2 = 1 then -magnitude else magnitude

def checkProofOfWork (hash : Uint256) (nBits : ℕ) : Check Unit := do
  rejectIf (setCompact nBits ≤ 0 ∨ bnProofOfWorkLimit < setCompact nBits)
    (.error "CheckProofOfWork() : nBits below minimum work")
  rejectIf (setCompact nBits < hash) (.error "CheckProofOfWork() : hash doesn't match nBits")

/-- `GetBlockWork().getuint256()`. -/
def CBlockIndex.getBlockWork (pindex : CBlockIndex) : ℕ :=
  if setCompact pindex.nBits ≤ 0 then 0 else 2 ^ 256 / (setCompact pindex.nBits).toNat.succ

/-- One round of `BuildMerkleTree`: the last hash of an odd level is paired with itself. -/
def merkleLevel (P : Platform) : List Uint256 → List Uint256
  | [] => []
  | [a] => [P.hashPair a a]
  | a :: b :: rest => P.hashPair a b :: merkleLevel P rest

/-- The levels `BuildMerkleTree` appends, from the given one on. -/
def merkleLevels (P : Platform) : ℕ → List Uint256 → List Uint256
  | 0, level => level
  | rounds + 1, level =>
    if level.length ≤ 1 then level else level ++ merkleLevels P rounds (merkleLevel P level)

namespace CBlock

def txids (block : CBlock) (P : Platform) : List Uint256 := block.vtx.map (·.getHash P)

/-- `BuildMerkleTree`: the last hash of the tree, zero for no transactions. -/
def buildMerkleTree (block : CBlock) (P : Platform) : Uint256 :=
  (merkleLevels P block.vtx.length (block.txids P)).getLast?.getD 0

/-- Checks that are independent of context. -/
def checkBlock (block : CBlock) (P : Platform) (fCheckPOW fCheckMerkleRoot : Bool) : Check Unit := do
  rejectIf (block.vtx = [] ∨ MAX_BLOCK_SIZE < block.vtx.length ∨
      MAX_BLOCK_SIZE < block.getSerializeSize) (.dos 100 "CheckBlock() : size limits failed")
  rejectIf (fCheckPOW ∧ ¬ (checkProofOfWork (block.getHash P) block.nBits).isOk)
    (.dos 50 "CheckBlock() : proof of work failed")
  rejectIf (P.adjustedTime + 1 * 60 * 60 < block.nTime)
    (.dos 0 "CheckBlock() : block timestamp too far in the future")
  rejectIf (¬ ∃ tx ∈ block.vtx.head?, tx.isCoinBase)
    (.dos 100 "CheckBlock() : first tx is not coinbase")
  rejectIf (∃ tx ∈ block.vtx.tail, tx.isCoinBase) (.dos 100 "CheckBlock() : more than one coinbase")
  block.vtx.forM CTransaction.checkTransaction
  rejectIf (¬ (block.txids P).Nodup) (.dos 100 "CheckBlock() : duplicate transaction")
  rejectIf (MAX_BLOCK_SIGOPS < (block.vtx.map CTransaction.getLegacySigOpCount).sum)
    (.dos 100 "CheckBlock() : out-of-bounds SigOpCount")
  rejectIf (fCheckMerkleRoot ∧ block.hashMerkleRoot ≠ block.buildMerkleTree P)
    (.dos 100 "CheckBlock() : hashMerkleRoot mismatch")

end CBlock

def nGenesisBlockRewardCoin : ℤ := 10000000 * COIN
def nBlockRewardStartCoin : ℤ := 10000000 * COIN
def nBlockRewardMinimumCoin : ℤ := 5 * COIN
def nBlockRewardLastCoin : ℤ := 9766 * COIN
def nBlockRewardFreedomForAllLastCoin : ℤ := 100 * COIN

/-- The subsidy `GetBlockValue` starts from above height 99. -/
def laterSubsidy (nHeight : ℕ) : ℤ :=
  if nHeight < 30000 ∨ nHeight % 30000 ≠ 0 then
    let nSubsidy := shiftRight64 nBlockRewardLastCoin (nHeight / 1440)
    if nSubsidy < nBlockRewardMinimumCoin then nBlockRewardMinimumCoin else nSubsidy
  else nBlockRewardFreedomForAllLastCoin

/-- `GetBlockValue`, which does not read its last argument and adds no fees below height 100. -/
def getBlockValue (nHeight : ℕ) (nFees : ℤ) (_nBits : ℕ) : Check ℤ :=
  if nHeight = 0 then .ok nGenesisBlockRewardCoin
  else if nHeight < 100 then .ok (shiftRight64 nBlockRewardStartCoin (nHeight / 10))
  else int64 (laterSubsidy nHeight + nFees)

/-! ## Merkle branches

The tree of a block is one vector, level after level from the txids up. A branch is read from it and
checked against the root. Sizes are exact.
-/

namespace CBlock

variable (P : Platform) (block : CBlock)

/-- The inner loop of `BuildMerkleTree` from `i` on: the next level is appended to the vector. -/
def appendLevel (j nSize i : ℕ) (vMerkleTree : List Uint256) : Check (List Uint256) :=
  if i < nSize then do
    let i2 := min (i + 1) (nSize - 1)
    let left ← assertSome .undefined vMerkleTree[j + i]?
    let right ← assertSome .undefined vMerkleTree[j + i2]?
    appendLevel j nSize (i + 2) (vMerkleTree ++ [P.hashPair left right])
  else return vMerkleTree
termination_by nSize - i

/-- The outer loop of `BuildMerkleTree`. -/
def appendLevels (j nSize : ℕ) (vMerkleTree : List Uint256) : Check (List Uint256) :=
  if 1 < nSize then do
    let vMerkleTree ← appendLevel P j nSize 0 vMerkleTree
    appendLevels (j + nSize) ((nSize + 1) / 2) vMerkleTree
  else return vMerkleTree
termination_by nSize

/-- `vMerkleTree` after `BuildMerkleTree`, which returns its last hash. -/
def vMerkleTree : Check (List Uint256) := appendLevels P 0 block.vtx.length (block.txids P)

/-- `GetTxHash`. -/
def getTxHash (vMerkleTree : List Uint256) (nIndex : ℕ) : Check Uint256 := do
  rejectIf (vMerkleTree = []) (.assertion "vMerkleTree.size() > 0")
  rejectIf (block.vtx.length ≤ nIndex) (.assertion "nIndex < vtx.size()")
  assertSome .undefined vMerkleTree[nIndex]?

/-- The loop of `GetMerkleBranch`. -/
def branchLoop (vMerkleTree : List Uint256) (j nSize nIndex : ℕ) : Check (List Uint256) :=
  if 1 < nSize then do
    let i := min (nIndex ^^^ 1) (nSize - 1)
    let otherside ← assertSome .undefined vMerkleTree[j + i]?
    let vMerkleBranch ← branchLoop vMerkleTree (j + nSize) ((nSize + 1) / 2) (nIndex / 2)
    return otherside :: vMerkleBranch
  else return []
termination_by nSize

/-- `GetMerkleBranch`, which builds the tree first if the vector is empty. -/
def getMerkleBranch (vMerkleTree : List Uint256) (nIndex : ℕ) : Check (List Uint256) := do
  let vMerkleTree ← if vMerkleTree = [] then block.vMerkleTree P else pure vMerkleTree
  branchLoop vMerkleTree 0 block.vtx.length nIndex

/-- The loop of `CheckMerkleBranch`. -/
def checkLoop : Uint256 → ℤ → List Uint256 → Uint256
  | hash, _, [] => hash
  | hash, nIndex, otherside :: vMerkleBranch =>
    checkLoop (if nIndex % 2 = 1 then P.hashPair otherside hash else P.hashPair hash otherside) (nIndex / 2)
      vMerkleBranch

def checkMerkleBranch (hash : Uint256) (vMerkleBranch : List Uint256) (nIndex : ℤ) : Uint256 :=
  if nIndex = -1 then 0 else checkLoop P hash nIndex vMerkleBranch

end CBlock

end BitCrystal
