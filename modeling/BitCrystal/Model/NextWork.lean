import BitCrystal.Model.ConnectBlock
import Mathlib.Data.List.Sort

/-! # Required work and the time of past blocks

What a header has to satisfy is computed from the index entries behind it. The functions that walk along
`pprev` read the list of these entries, the nearest one first; a null pointer is the empty list.
-/

namespace BitCrystal

def nTargetTimespan : ℕ := 60 * 60
def nTargetSpacing : ℕ := 60
def nInterval : ℕ := nTargetTimespan / nTargetSpacing
def nMedianTimeSpan : ℕ := 12

/-- `CBigNum::GetCompact`. -/
def getCompact (bn : ℤ) : ℕ :=
  let nSize := if bn = 0 then 0 else (bn.natAbs.log2 + 1 + 7) / 8
  let nCompact := if nSize ≤ 3 then bn.natAbs * 2 ^ (8 * (3 - nSize)) else bn.natAbs / 2 ^ (8 * (nSize - 3))
  -- The bit 0x00800000 is the sign: a mantissa that has it moves one byte up.
  let (nCompact, nSize) := if nCompact / 2 ^ 23 % 2 = 1 then (nCompact / 2 ^ 8, nSize + 1) else (nCompact, nSize)
  nCompact + nSize * 2 ^ 24 % 2 ^ 32 + if bn < 0 then 2 ^ 23 else 0

/-- The entry at `pindex` and those behind it. -/
def pprevs (index : BlockMap) : ℕ → Option BlockPtr → List CBlockIndex
  | rounds + 1, some pindex =>
    match index pindex with
    | none => []
    | some entry => entry :: pprevs index rounds entry.pprev
  | _, _ => []

/-- The loop of `ComputeMinWork`, with one round for every four time spans in `nTime`. -/
def minWorkLoop : ℕ → ℤ → ℤ → ℤ
  | 0, bnResult, _ => bnResult
  | rounds + 1, bnResult, nTime =>
    if 0 < nTime ∧ bnResult < bnProofOfWorkLimit then
      minWorkLoop rounds (bnResult * 4) (nTime - nTargetTimespan * 4)
    else bnResult

/-- Minimum amount of work that could possibly be required `nTime` after the work `nBase`. -/
def computeMinWork (P : Platform) (nBase : ℕ) (nTime : ℤ) : ℕ :=
  if P.fTestNet ∧ nTargetSpacing * 2 < nTime then getCompact bnProofOfWorkLimit
  else
    let bnResult := minWorkLoop (nTime.toNat / (nTargetTimespan * 4) + 1) (setCompact nBase) nTime
    getCompact (min bnResult bnProofOfWorkLimit)

/-- The bits of the last block without the difficulty rule of the test network. -/
def lastOrdinaryBits (nProofOfWorkLimit : ℕ) : List CBlockIndex → Check ℕ
  | [] => .error .undefined
  | [pindex] => .ok pindex.nBits
  | pindex :: prev :: rest =>
    if pindex.nHeight % nInterval ≠ 0 ∧ pindex.nBits = nProofOfWorkLimit then
      lastOrdinaryBits nProofOfWorkLimit (prev :: rest)
    else .ok pindex.nBits

/-- The new target after `nActualTimespan` seconds for one interval. -/
def retarget (nBits : ℕ) (nActualTimespan : ℤ) : ℕ :=
  let nActualTimespan := min (max nActualTimespan (nTargetTimespan / 4)) (nTargetTimespan * 4)
  getCompact (min ((setCompact nBits * nActualTimespan).tdiv nTargetTimespan) bnProofOfWorkLimit)

/-- `GetNextWorkRequired` for a block with the given time. -/
def getNextWorkRequired (P : Platform) (chain : List CBlockIndex) (nTime : ℕ) : Check ℕ :=
  let nProofOfWorkLimit := getCompact bnProofOfWorkLimit
  match chain with
  | [] => .ok nProofOfWorkLimit
  | pindexLast :: _ =>
    if (pindexLast.nHeight + 1) % nInterval ≠ 0 then
      if P.fTestNet then
        if pindexLast.nTime + nTargetSpacing * 2 < nTime then .ok nProofOfWorkLimit
        else lastOrdinaryBits nProofOfWorkLimit chain
      else .ok pindexLast.nBits
    else do
      let pindexFirst ← assertSome (.assertion "pindexFirst") chain[nInterval - 1]?
      return retarget pindexLast.nBits ((pindexLast.nTime : ℤ) - pindexFirst.nTime)

/-- `GetMedianTimePast`, the element at two thirds of the sorted times. -/
def getMedianTimePast (chain : List CBlockIndex) : Check ℕ :=
  let pmedian := ((chain.take nMedianTimeSpan).map CBlockIndex.nTime).insertionSort (· ≤ ·)
  assertSome .undefined pmedian[pmedian.length * 2 / 3]?

/-- `IsSuperMajority`; counting on after the answer is known does not change it. -/
def isSuperMajority (minVersion : ℤ) (chain : List CBlockIndex) (nRequired nToCheck : ℕ) : Bool :=
  nRequired ≤ (chain.take nToCheck).countP fun pindex => minVersion ≤ pindex.nVersion

end BitCrystal

/-! ## Checkpoints

Blocks whose hash at a height is fixed. `fCheckpoints` is the option `-checkpoints`. In this source the
results of the three lookups are commented out and replaced by constants.
-/

namespace BitCrystal.Checkpoints

/-- `mapCheckpoints` or `mapCheckpointsTestnet`, by height; the entry at height 0 is the genesis block. -/
def mapCheckpoints (P : Platform) : List (ℕ × Uint256) :=
  if P.fTestNet then [(0, P.hashGenesisBlock)]
  else [(0, P.hashGenesisBlock),
    (20080, 0x000000034154af150f2ea7b36b3c436ce7814e31e74006c7f3531311f0ef3548)]

def checkBlock (P : Platform) (fCheckpoints : Bool) (nHeight : ℕ) (_hash : Uint256) : Bool :=
  if ¬ fCheckpoints then true
  else match (mapCheckpoints P).lookup nHeight with
    | none => true
    -- `return hash == i->second` is commented out.
    | some _ => true

/-- The loop of `GetLastCheckpoint`, over the checkpoints from the highest one down. -/
def lastCheckpointLoop (mapBlockIndex : BlockMap) : List (ℕ × Uint256) → Option CBlockIndex
  | [] => none
  | (_, hash) :: rest =>
    -- `return t->second` is commented out.
    if mapBlockIndex hash ≠ none then none else lastCheckpointLoop mapBlockIndex rest

def getLastCheckpoint (P : Platform) (fCheckpoints : Bool) (mapBlockIndex : BlockMap) : Option CBlockIndex :=
  if ¬ fCheckpoints then none else lastCheckpointLoop mapBlockIndex (mapCheckpoints P).reverse

end BitCrystal.Checkpoints
