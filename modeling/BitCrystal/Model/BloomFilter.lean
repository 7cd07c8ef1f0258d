import BitCrystal.Model.EvalScript
import BitCrystal.Model.Solver

/-! # Bloom filters of light clients

A peer supplies the fields of a filter with `filterload`. The operations take the hash function as a
parameter, for which the node uses `murmurHash3`. A remainder by zero and an index behind the end of
`vData` are undefined, so the operations are checks.
-/

namespace BitCrystal

open LittleEndian

def MAX_BLOOM_FILTER_SIZE : ℕ := 36000
def MAX_HASH_FUNCS : UInt32 := 50

def BLOOM_UPDATE_NONE : UInt8 := 0
def BLOOM_UPDATE_ALL : UInt8 := 1
def BLOOM_UPDATE_P2PUBKEY_ONLY : UInt8 := 2
def BLOOM_UPDATE_MASK : UInt8 := 3

def bitMask : Vector UInt8 8 := #v[0x01, 0x02, 0x04, 0x08, 0x10, 0x20, 0x40, 0x80]

/-- `bit_mask[7 & nIndex]`. -/
def bitMaskAt (nIndex : ℕ) : UInt8 := bitMask.get ⟨7 &&& nIndex, Nat.lt_of_le_of_lt Nat.and_le_left (by decide)⟩

/-- The type of `MurmurHash3(nHashSeed, vDataToHash)`. -/
abbrev MurmurHash := UInt32 → List UInt8 → UInt32

def rotl32 (x r : UInt32) : UInt32 := x <<< r ||| x >>> (32 - r)

def mixBlock (k1 : UInt32) : UInt32 := rotl32 (k1 * 0xcc9e2d51) 15 * 0x1b873593

/-- The body, four bytes at a time, and the tail. -/
def murmurBlocks (h1 : UInt32) : List UInt8 → UInt32
  | a :: b :: c :: d :: rest =>
    let k1 := mixBlock (UInt32.ofNat (decode [a, b, c, d]))
    murmurBlocks (rotl32 (h1 ^^^ k1) 13 * 5 + 0xe6546b64) rest
  | [] => h1
  | tail => h1 ^^^ mixBlock (UInt32.ofNat (decode tail))

def murmurHash3 (nHashSeed : UInt32) (vDataToHash : List UInt8) : UInt32 :=
  let h1 := murmurBlocks nHashSeed vDataToHash ^^^ UInt32.ofNat vDataToHash.length
  let h1 := (h1 ^^^ h1 >>> 16) * 0x85ebca6b
  let h1 := (h1 ^^^ h1 >>> 13) * 0xc2b2ae35
  h1 ^^^ h1 >>> 16

/-! ## The filter -/

structure CBloomFilter where
  vData : List UInt8
  nHashFuncs : UInt32
  nTweak : UInt32
  nFlags : UInt8
deriving DecidableEq, Repr

namespace CBloomFilter

variable (murmur : MurmurHash) (filter : CBloomFilter)

def hash (nHashNum : UInt32) (vDataToHash : List UInt8) : Check ℕ :=
  if filter.vData.length * 8 = 0 then .error .undefined
  else .ok ((murmur (nHashNum * 0xFBA4C795 + filter.nTweak) vDataToHash).toNat % (filter.vData.length * 8))

/-- The filter of one byte that matches everything. -/
def isSaturated : Prop := filter.vData = [0xff]

instance : Decidable filter.isSaturated := inferInstanceAs (Decidable (_ = _))

/-- One round of `insert`. -/
def insertRound (vKey : List UInt8) (i : ℕ) : Check CBloomFilter := do
  let nIndex ← filter.hash murmur (UInt32.ofNat i) vKey
  let byte ← assertSome .undefined filter.vData[nIndex >>> 3]?
  return { filter with vData := filter.vData.set (nIndex >>> 3) (byte ||| bitMaskAt nIndex) }

def insert (vKey : List UInt8) : Check CBloomFilter :=
  if filter.isSaturated then .ok filter
  else (List.range filter.nHashFuncs.toNat).foldlM (fun filter i => filter.insertRound murmur vKey i) filter

def insertOutPoint (outpoint : COutPoint) : Check CBloomFilter := filter.insert murmur outpoint.serialize

def insertHash (hash : Uint256) : Check CBloomFilter := filter.insert murmur (encode 32 hash)

/-- One round of `contains`: the bit is set. -/
def containsRound (vKey : List UInt8) (i : ℕ) : Check Bool := do
  let nIndex ← filter.hash murmur (UInt32.ofNat i) vKey
  let byte ← assertSome .undefined filter.vData[nIndex >>> 3]?
  return byte &&& bitMaskAt nIndex ≠ 0

def contains (vKey : List UInt8) : Check Bool :=
  if filter.isSaturated then .ok true
  else (List.range filter.nHashFuncs.toNat).allM (filter.containsRound murmur vKey)

def containsOutPoint (outpoint : COutPoint) : Check Bool := filter.contains murmur outpoint.serialize

def containsHash (hash : Uint256) : Check Bool := filter.contains murmur (encode 32 hash)

def isWithinSizeConstraints : Prop :=
  filter.vData.length ≤ MAX_BLOOM_FILTER_SIZE ∧ filter.nHashFuncs ≤ MAX_HASH_FUNCS

instance : Decidable filter.isWithinSizeConstraints := inferInstanceAs (Decidable (_ ∧ _))

/-- The walk over a script up to a pushed element that the filter contains; every operation takes
at least one byte, so the length of the script bounds the number of rounds. -/
def matchesScript : ℕ → CScript → Check Bool
  | 0, _ => .ok false
  | rounds + 1, pc =>
    match CScript.getOp pc with
    | none => .ok false
    | some (_, data, pc) => do
      let found ← (if data.length ≠ 0 then filter.contains murmur data else .ok false)
      if found then .ok true else matchesScript rounds pc

/-- The update of the filter at an output that matched. -/
def updateAt (outpoint : COutPoint) (txout : CTxOut) : Check CBloomFilter :=
  if filter.nFlags &&& BLOOM_UPDATE_MASK = BLOOM_UPDATE_ALL then filter.insertOutPoint murmur outpoint
  else if filter.nFlags &&& BLOOM_UPDATE_MASK = BLOOM_UPDATE_P2PUBKEY_ONLY then
    let solution := solver txout.scriptPubKey
    if solution.fSolved ∧ (solution.typeRet = .TX_PUBKEY ∨ solution.typeRet = .TX_MULTISIG) then
      filter.insertOutPoint murmur outpoint
    else .ok filter
  else .ok filter

/-- The loop over the outputs from number `i` on. -/
def outputLoop (hash : Uint256) : CBloomFilter → Bool → ℕ → List CTxOut → Check (Bool × CBloomFilter)
  | filter, fFound, _, [] => .ok (fFound, filter)
  | filter, fFound, i, txout :: rest => do
    let found ← filter.matchesScript murmur txout.scriptPubKey.length txout.scriptPubKey
    if found then
      let filter ← filter.updateAt murmur ⟨hash, i⟩ txout
      outputLoop hash filter true (i + 1) rest
    else outputLoop hash filter fFound (i + 1) rest

/-- The loop over the inputs. -/
def inputLoop : List CTxIn → Check Bool
  | [] => .ok false
  | txin :: rest => do
    let spent ← filter.containsOutPoint murmur txin.prevout
    if spent then .ok true
    else
      let found ← filter.matchesScript murmur txin.scriptSig.length txin.scriptSig
      if found then .ok true else inputLoop rest

def isRelevantAndUpdate (tx : CTransaction) (hash : Uint256) : Check (Bool × CBloomFilter) := do
  let fFound ← filter.containsHash murmur hash
  let (fFound, filter) ← filter.outputLoop murmur hash fFound 0 tx.vout
  if fFound then .ok (true, filter)
  else
    let fFound ← filter.inputLoop murmur tx.vin
    return (fFound, filter)

end CBloomFilter

/-- The members of `CNode` the filter messages use; `nMisbehavior` adds up the penalties. -/
structure FilterPeer where
  pfilter : Option CBloomFilter := none
  fRelayTxes : Bool := false
  nMisbehavior : ℕ := 0
deriving DecidableEq, Repr

namespace FilterPeer

variable (murmur : MurmurHash) (pfrom : FilterPeer)

def misbehaving (howmuch : ℕ) : FilterPeer := { pfrom with nMisbehavior := pfrom.nMisbehavior + howmuch }

def filterload (filter : CBloomFilter) : FilterPeer :=
  if filter.isWithinSizeConstraints then { pfrom with pfilter := some filter, fRelayTxes := true }
  else { pfrom.misbehaving 100 with fRelayTxes := true }

def filteradd (vData : List UInt8) : Check FilterPeer :=
  if MAX_SCRIPT_ELEMENT_SIZE < vData.length then .ok (pfrom.misbehaving 100)
  else match pfrom.pfilter with
    | none => .ok (pfrom.misbehaving 100)
    | some filter => do
      let filter ← filter.insert murmur vData
      return { pfrom with pfilter := some filter }

/-- Whether a transaction is announced to the peer. -/
def relevant (tx : CTransaction) (hash : Uint256) : Check (Bool × FilterPeer) :=
  match pfrom.pfilter with
  | none => .ok (true, pfrom)
  | some filter => do
    let (found, filter) ← filter.isRelevantAndUpdate murmur tx hash
    return (found, { pfrom with pfilter := some filter })

end FilterPeer

end BitCrystal
