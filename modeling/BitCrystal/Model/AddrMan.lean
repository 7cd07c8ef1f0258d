import BitCrystal.Machine.OrderedMap
import BitCrystal.Model.TxCodec
import Mathlib.Data.Finset.Sort

/-! # The address manager

The tables of `CAddrMan`: entries by id, ids by address, all ids in a random order, and buckets of tried and of new
entries. What the random generator gives is an argument `draw`, one number for each call; comparisons of floating point
numbers are arguments as well. `int` counters must not overflow; times are exact.
-/

/-! ## Network addresses

An address is the number its sixteen bytes are in network byte order, so the first bytes are what division by a power of
256 leaves.
-/

namespace BitCrystal

instance ipSize : NeZero (2 ^ 128 : ℕ) := ⟨by decide⟩

/-- `ip[16]`. -/
structure CNetAddr where
  ip : Fin (2 ^ 128) := 0
deriving DecidableEq, Inhabited

def NET_UNROUTABLE : UInt8 := 0
def NET_IPV4 : UInt8 := 1
def NET_IPV6 : UInt8 := 2
def NET_TOR : UInt8 := 3

namespace CNetAddr

variable (addr : CNetAddr)

/-- `ip[15 - n]`. -/
def getByte (n : ℕ) : UInt8 := UInt8.ofNat (addr.ip / 256 ^ n % 256)

/-- `memcmp(ip, pch, n) == 0`, where `pch` are the bytes of a number. -/
def startsWith (n pch : ℕ) : Bool := addr.ip / 256 ^ (16 - n) = pch

def isIPv4 : Bool := addr.startsWith 12 0xffff

def isRFC1918 : Bool :=
  addr.isIPv4 ∧ (addr.getByte 3 = 10 ∨ (addr.getByte 3 = 192 ∧ addr.getByte 2 = 168) ∨
    (addr.getByte 3 = 172 ∧ 16 ≤ addr.getByte 2 ∧ addr.getByte 2 ≤ 31))

def isRFC3927 : Bool := addr.isIPv4 ∧ addr.getByte 3 = 169 ∧ addr.getByte 2 = 254

def isRFC3849 : Bool :=
  addr.getByte 15 = 0x20 ∧ addr.getByte 14 = 0x01 ∧ addr.getByte 13 = 0x0d ∧ addr.getByte 12 = 0xb8

def isRFC3964 : Bool := addr.getByte 15 = 0x20 ∧ addr.getByte 14 = 0x02

def isRFC6052 : Bool := addr.startsWith 12 0x0064ff9b0000000000000000

def isRFC4380 : Bool :=
  addr.getByte 15 = 0x20 ∧ addr.getByte 14 = 0x01 ∧ addr.getByte 13 = 0 ∧ addr.getByte 12 = 0

def isRFC4862 : Bool := addr.startsWith 8 0xfe80000000000000

def isRFC4193 : Bool := addr.getByte 15 &&& 0xfe = 0xfc

def isRFC6145 : Bool := addr.startsWith 12 0xffff0000

def isRFC4843 : Bool :=
  addr.getByte 15 = 0x20 ∧ addr.getByte 14 = 0x01 ∧ addr.getByte 13 = 0x00 ∧ addr.getByte 12 &&& 0xf0 = 0x10

/-- `pchOnionCat`. -/
def isTor : Bool := addr.startsWith 6 0xfd87d87eeb43

def isLocal : Bool := (addr.isIPv4 ∧ (addr.getByte 3 = 127 ∨ addr.getByte 3 = 0)) ∨ addr.startsWith 16 1

def isValid : Bool :=
  -- Addresses shifted by three bytes.
  ¬ addr.startsWith 9 0xffff ∧ ¬ addr.startsWith 16 0 ∧ ¬ addr.isRFC3849 ∧
    ¬ (addr.isIPv4 ∧ (addr.ip.val % 2 ^ 32 = 0xffffffff ∨ addr.ip.val % 2 ^ 32 = 0))

def isRoutable : Bool :=
  addr.isValid ∧ ¬ (addr.isRFC1918 ∨ addr.isRFC3927 ∨ addr.isRFC4862 ∨ (addr.isRFC4193 ∧ ¬ addr.isTor) ∨
    addr.isRFC4843 ∨ addr.isLocal)

/-- The end of `GetGroup`: the class, whole bytes, and what is left of the bits. -/
def groupBytes (nClass : UInt8) (nStartByte nBits : ℕ) : List UInt8 :=
  nClass :: ((List.range (nBits / 8)).map (fun i => addr.getByte (15 - (nStartByte + i))) ++
    if 0 < nBits % 8 then [addr.getByte (15 - (nStartByte + nBits / 8)) ||| UInt8.ofNat (2 ^ (nBits % 8) - 1)] else [])

def getGroup : List UInt8 :=
  -- Local addresses are not routable either.
  if ¬ addr.isRoutable then addr.groupBytes NET_UNROUTABLE 0 0
  else if addr.isIPv4 ∨ addr.isRFC6145 ∨ addr.isRFC6052 then addr.groupBytes NET_IPV4 12 16
  else if addr.isRFC3964 then addr.groupBytes NET_IPV4 2 16
  else if addr.isRFC4380 then [NET_IPV4, addr.getByte 3 ^^^ 0xff, addr.getByte 2 ^^^ 0xff]
  else if addr.isTor then addr.groupBytes NET_TOR 6 4
  else if addr.getByte 15 = 0x20 ∧ addr.getByte 14 = 0x11 ∧ addr.getByte 13 = 0x04 ∧ addr.getByte 12 = 0x70 then
    addr.groupBytes NET_IPV6 0 36
  else addr.groupBytes NET_IPV6 0 32

end CNetAddr

/-- An address and a port. -/
structure CService extends CNetAddr where
  port : UInt16 := 0
deriving DecidableEq, Inhabited

/-- `vKey`. -/
def CService.getKey (service : CService) : List UInt8 :=
  (List.range 16).map (fun i => service.getByte (15 - i)) ++
    [UInt8.ofNat (service.port.toNat / 0x100), UInt8.ofNat (service.port.toNat &&& 0x0ff)]

def NODE_NETWORK : UInt64 := 1

/-- `Init()` gives the defaults. -/
structure CAddress extends CService where
  nServices : UInt64 := NODE_NETWORK
  nTime : UInt32 := 100000000
  nLastTry : ℤ := 0
deriving DecidableEq, Inhabited

open Function LittleEndian

def ADDRMAN_TRIED_BUCKET_COUNT : ℕ := 64
def ADDRMAN_TRIED_BUCKET_SIZE : ℕ := 64
def ADDRMAN_NEW_BUCKET_COUNT : ℕ := 256
def ADDRMAN_NEW_BUCKET_SIZE : ℕ := 64
def ADDRMAN_TRIED_BUCKETS_PER_GROUP : ℕ := 4
def ADDRMAN_NEW_BUCKETS_PER_SOURCE_GROUP : ℕ := 32
def ADDRMAN_NEW_BUCKETS_PER_ADDRESS : ℤ := 4
def ADDRMAN_TRIED_ENTRIES_INSPECT_ON_EVICT : ℕ := 4
def ADDRMAN_HORIZON_DAYS : ℤ := 30
def ADDRMAN_RETRIES : ℤ := 3
def ADDRMAN_MAX_FAILURES : ℤ := 10
def ADDRMAN_MIN_FAIL_DAYS : ℤ := 7
def ADDRMAN_GETADDR_MAX_PCT : ℕ := 23
def ADDRMAN_GETADDR_MAX : ℕ := 2500

abbrev TriedBucket : Type := Fin ADDRMAN_TRIED_BUCKET_COUNT
abbrev NewBucket : Type := Fin ADDRMAN_NEW_BUCKET_COUNT

/-- The greatest `int`. -/
def INT_MAX : ℤ := 2 ^ 31 - 1

/-- Conversion of an `int` to `unsigned int`. -/
def unsignedInt (n : ℤ) : ℕ := (n % 2 ^ 32).toNat

/-- `GetRandInt(nMax)`, from what the generator draws. -/
def getRandInt (nMax draw : ℕ) : ℕ := if nMax = 0 then 0 else draw % nMax

/-- Extended statistics about an address. -/
structure CAddrInfo extends CAddress where
  source : CNetAddr := {}
  nLastSuccess : ℤ := 0
  nAttempts : ℤ := 0
  nRefCount : ℤ := 0
  fInTried : Bool := false
  nRandomPos : ℤ := -1
deriving DecidableEq, Inhabited

namespace CAddrInfo

/-- The constructor of an address and its source. -/
def ofAddress (addrIn : CAddress) (addrSource : CNetAddr) : CAddrInfo :=
  { toCAddress := { addrIn with nLastTry := 0 }, source := addrSource }

variable (hash2 : List UInt8 → Uint256) (info : CAddrInfo) (nKey : List UInt8)

def getTriedBucket : TriedBucket :=
  let hash1 := hash2 (writeVector nKey ++ writeVector info.getKey) % 2 ^ 64
  let hash2 := hash2 (writeVector nKey ++ (writeVector info.getGroup ++
    encode 8 (hash1 % ADDRMAN_TRIED_BUCKETS_PER_GROUP))) % 2 ^ 64
  ⟨hash2 % ADDRMAN_TRIED_BUCKET_COUNT, Nat.mod_lt _ (by decide)⟩

def getNewBucket (src : CNetAddr) : NewBucket :=
  let hash1 := hash2 (writeVector nKey ++ (writeVector info.getGroup ++ writeVector src.getGroup)) % 2 ^ 64
  let hash2 := hash2 (writeVector nKey ++ (writeVector src.getGroup ++
    encode 8 (hash1 % ADDRMAN_NEW_BUCKETS_PER_SOURCE_GROUP))) % 2 ^ 64
  ⟨hash2 % ADDRMAN_NEW_BUCKET_COUNT, Nat.mod_lt _ (by decide)⟩

def isTerrible (nNow : ℤ) : Bool :=
  if info.nLastTry ≠ 0 ∧ nNow - 60 ≤ info.nLastTry then false
  else if nNow + 10 * 60 < info.nTime.toNat then true
  else if info.nTime = 0 ∨ ADDRMAN_HORIZON_DAYS * 86400 < nNow - info.nTime.toNat then true
  else if info.nLastSuccess = 0 ∧ ADDRMAN_RETRIES ≤ info.nAttempts then true
  else ADDRMAN_MIN_FAIL_DAYS * 86400 < nNow - info.nLastSuccess ∧ ADDRMAN_MAX_FAILURES ≤ info.nAttempts

end CAddrInfo

-- A `std::set<int>` is walked in this order.
instance idsTrans : IsTrans ℤ fun a b => a ≤ b := ⟨fun _ _ _ => Int.le_trans⟩
instance idsAntisymm : Std.Antisymm fun a b : ℤ => a ≤ b := ⟨fun _ _ => Int.le_antisymm⟩
instance idsTotal : Std.Total fun a b : ℤ => a ≤ b := ⟨Int.le_total⟩

structure CAddrMan where
  nKey : List UInt8
  nIdCount : ℤ := 0
  mapInfo : OrderedMap ℤ CAddrInfo := ∅
  /-- It is never gone through. -/
  mapAddr : CNetAddr → Option ℤ := fun _ => none
  vRandom : List ℤ := []
  nTried : ℤ := 0
  vvTried : TriedBucket → List ℤ := fun _ => []
  nNew : ℤ := 0
  vvNew : NewBucket → Finset ℤ := fun _ => ∅

namespace CAddrMan

/-- The value of `mapInfo[nId]`. -/
def info (s : CAddrMan) (nId : ℤ) : CAddrInfo := (s.mapInfo.find? nId).getD {}

/-- Write to `mapInfo[nId]`. -/
def modifyInfo (s : CAddrMan) (nId : ℤ) (f : CAddrInfo → CAddrInfo) : CAddrMan :=
  { s with mapInfo := s.mapInfo.insert nId (f (s.info nId)) }

/-- Reading `mapInfo[nId]` makes a missing entry. -/
def subscript (s : CAddrMan) (nId : ℤ) : CAddrMan :=
  if (s.mapInfo.find? nId).isSome then s else s.modifyInfo nId id

/-- `assert(mapInfo.count(nId) == 1)`. -/
def assertInfo (s : CAddrMan) (nId : ℤ) : Check CAddrInfo :=
  assertSome (.assertion "mapInfo.count(nId) == 1") (s.mapInfo.find? nId)

def find (s : CAddrMan) (addr : CNetAddr) : Option (ℤ × CAddrInfo) := do
  let nId ← s.mapAddr addr
  let info ← s.mapInfo.find? nId
  return (nId, info)

def create (addr : CAddress) (addrSource : CNetAddr) (s : CAddrMan) : Check (ℤ × CAddrMan) := do
  rejectIf (s.nIdCount = INT_MAX) .overflow
  let nId := s.nIdCount
  return (nId, { s with
    nIdCount := s.nIdCount + 1
    mapInfo := s.mapInfo.insert nId { CAddrInfo.ofAddress addr addrSource with nRandomPos := s.vRandom.length }
    mapAddr := update s.mapAddr addr.toCNetAddr (some nId)
    vRandom := s.vRandom ++ [nId] })

def swapRandom (nRndPos1 nRndPos2 : ℕ) (s : CAddrMan) : Check CAddrMan :=
  if nRndPos1 = nRndPos2 then return s
  else do
    let nId1 ← assertSome (.assertion "nRndPos1 < vRandom.size()") s.vRandom[nRndPos1]?
    let nId2 ← assertSome (.assertion "nRndPos2 < vRandom.size()") s.vRandom[nRndPos2]?
    let _ ← s.assertInfo nId1
    let _ ← s.assertInfo nId2
    let s := s.modifyInfo nId1 fun info => { info with nRandomPos := nRndPos2 }
    let s := s.modifyInfo nId2 fun info => { info with nRandomPos := nRndPos1 }
    return { s with vRandom := (s.vRandom.set nRndPos1 nId2).set nRndPos2 nId1 }

/-- `if (--info.nRefCount == 0)` and what follows, for `info` of `mapInfo[nId]`. -/
def dropReference (nId : ℤ) (s : CAddrMan) : Check CAddrMan := do
  let s := s.modifyInfo nId fun info => { info with nRefCount := info.nRefCount - 1 }
  if (s.info nId).nRefCount = 0 then do
    let s ← s.swapRandom (unsignedInt (s.info nId).nRandomPos) (unsignedInt (s.vRandom.length - 1))
    rejectIf (s.vRandom = []) .undefined
    return { s with
      vRandom := s.vRandom.dropLast
      mapAddr := update s.mapAddr (s.info nId).toCNetAddr none
      mapInfo := s.mapInfo.erase nId
      nNew := s.nNew - 1 }
  else return s

/-- `vNew.erase(nId)`. -/
def eraseNew (nUBucket : NewBucket) (nId : ℤ) (s : CAddrMan) : CAddrMan :=
  { s with vvNew := update s.vvNew nUBucket ((s.vvNew nUBucket).erase nId) }

def insertNew (nUBucket : NewBucket) (nId : ℤ) (s : CAddrMan) : CAddrMan :=
  { s with vvNew := update s.vvNew nUBucket (insert nId (s.vvNew nUBucket)) }

/-- The first deletable item. -/
def findTerrible (nNow : ℤ) (s : CAddrMan) : List ℤ → Check (Option ℤ)
  | [] => return none
  | nId :: rest => do
    let info ← s.assertInfo nId
    if info.isTerrible nNow then return some nId else findTerrible nNow s rest

/-- The oldest of the items at the positions `n`. -/
def findOldest (n : List ℕ) : ℕ → ℤ → List ℤ → CAddrMan → Check (ℤ × CAddrMan)
  | _, nOldest, [], s => return (nOldest, s)
  | nI, nOldest, nId :: rest, s =>
    if nI ∈ n then do
      rejectIf (nOldest ≠ -1 ∧ (s.mapInfo.find? nId).isNone) (.assertion "mapInfo.count(*it) == 1")
      if nOldest = -1 then findOldest n (nI + 1) nId rest s
      else
        let s := (s.subscript nId).subscript nOldest
        findOldest n (nI + 1) (if (s.info nId).nTime < (s.info nOldest).nTime then nId else nOldest) rest s
    else findOldest n (nI + 1) nOldest rest s

def shrinkNew (nNow : ℤ) (draw : ℕ → ℕ) (nUBucket : NewBucket) (s : CAddrMan) : Check (ℕ × CAddrMan) := do
  let vNew := s.vvNew nUBucket
  match ← findTerrible nNow s vNew.sort with
  | some nId => do
    let s ← s.dropReference nId
    return (0, s.eraseNew nUBucket nId)
  | none => do
    -- Otherwise, select four randomly, and pick the oldest of those to replace.
    let n := (List.range 4).map fun i => getRandInt vNew.card (draw i)
    let (nOldest, s) ← findOldest n 0 (-1) vNew.sort s
    let _ ← s.assertInfo nOldest
    let s ← s.dropReference nOldest
    return (1, s.eraseNew nUBucket nOldest)

/-- The loop of `SelectTried` from `i` on: the position in the bucket, shuffled on the way. -/
def selectTriedLoop (draw : ℕ → ℕ) (nKBucket : TriedBucket) : ℕ → ℕ → ℤ → ℤ → CAddrMan → Check (ℤ × CAddrMan)
  | 0, _, _, nOldestPos, s => return (nOldestPos, s)
  | rounds + 1, i, nOldest, nOldestPos, s =>
    let vTried := s.vvTried nKBucket
    if i < vTried.length then do
      let nPos := getRandInt (vTried.length - i) (draw i) + i
      let nTemp ← assertSome .undefined vTried[nPos]?
      let first ← assertSome .undefined vTried[i]?
      let s := { s with vvTried := update s.vvTried nKBucket ((vTried.set nPos first).set i nTemp) }
      rejectIf (nOldest ≠ -1 ∧ (s.mapInfo.find? nTemp).isNone) (.assertion "mapInfo.count(nTemp) == 1")
      if nOldest = -1 then selectTriedLoop draw nKBucket rounds (i + 1) nTemp nPos s
      else
        let s := (s.subscript nTemp).subscript nOldest
        if (s.info nTemp).nLastSuccess < (s.info nOldest).nLastSuccess then
          selectTriedLoop draw nKBucket rounds (i + 1) nTemp nPos s
        else selectTriedLoop draw nKBucket rounds (i + 1) nOldest nOldestPos s
    else return (nOldestPos, s)

def selectTried (draw : ℕ → ℕ) (nKBucket : TriedBucket) (s : CAddrMan) : Check (ℤ × CAddrMan) :=
  selectTriedLoop draw nKBucket ADDRMAN_TRIED_ENTRIES_INSPECT_ON_EVICT 0 (-1) (-1) s

variable (hash2 : List UInt8 → Uint256)

/-- Erase the entry from all new buckets and count down its references. -/
def eraseAllNew (nId : ℤ) (s : CAddrMan) : CAddrMan :=
  let erased := (Finset.univ.filter fun b => nId ∈ s.vvNew b).card
  { s.modifyInfo nId (fun info => { info with nRefCount := info.nRefCount - erased }) with
    vvNew := fun b => (s.vvNew b).erase nId }

def makeTried (draw : ℕ → ℕ) (nId : ℤ) (nOrigin : NewBucket) (s : CAddrMan) : Check CAddrMan := do
  rejectIf (nId ∉ s.vvNew nOrigin) (.assertion "vvNew[nOrigin].count(nId) == 1")
  let s := s.eraseAllNew nId
  let s := { s with nNew := s.nNew - 1 }
  rejectIf ((s.info nId).nRefCount ≠ 0) (.assertion "info.nRefCount == 0")
  let nKBucket := (s.info nId).getTriedBucket hash2 s.nKey
  let vTried := s.vvTried nKBucket
  if vTried.length < ADDRMAN_TRIED_BUCKET_SIZE then
    let s := { s with vvTried := update s.vvTried nKBucket (vTried ++ [nId]), nTried := s.nTried + 1 }
    return s.modifyInfo nId fun info => { info with fInTried := true }
  else do
    -- Otherwise, find an item to evict.
    let (nPos, s) ← s.selectTried draw nKBucket
    let evicted ← assertSome .undefined ((s.vvTried nKBucket)[unsignedInt nPos]?)
    let infoOld ← s.assertInfo evicted
    let nUBucket := infoOld.getNewBucket hash2 s.nKey infoOld.source
    let s := s.modifyInfo evicted fun info => { info with fInTried := false, nRefCount := 1 }
    let s := s.insertNew (if (s.vvNew nUBucket).card < ADDRMAN_NEW_BUCKET_SIZE then nUBucket else nOrigin) evicted
    let s := { s with
      nNew := s.nNew + 1
      vvTried := update s.vvTried nKBucket ((s.vvTried nKBucket).set (unsignedInt nPos) nId) }
    return s.modifyInfo nId fun info => { info with fInTried := true }

/-! ## Operations -/

def good_ (draw : ℕ → ℕ) (addr : CService) (nTime : ℤ) (s : CAddrMan) : Check CAddrMan :=
  match s.find addr.toCNetAddr with
  | none => return s
  | some (nId, info) =>
    if info.toCService ≠ addr then return s
    else
      let s := s.modifyInfo nId fun info => { info with
        nLastSuccess := nTime, nLastTry := nTime, nTime := UInt32.ofNat (unsignedInt nTime), nAttempts := 0 }
      if info.fInTried then return s
      else
        let nRnd := getRandInt ADDRMAN_NEW_BUCKET_COUNT (draw 0)
        let buckets := (List.finRange ADDRMAN_NEW_BUCKET_COUNT).map fun n : NewBucket =>
          (⟨(n + nRnd) % ADDRMAN_NEW_BUCKET_COUNT, Nat.mod_lt _ (by decide)⟩ : NewBucket)
        match buckets.find? (fun nB => nId ∈ s.vvNew nB) with
        | none => return s
        | some nUBucket => s.makeTried hash2 (fun i => draw (i + 1)) nId nUBucket

/-- `nTime` after a penalty, as an `unsigned int`. -/
def penalized (nTime : UInt32) (nTimePenalty : ℤ) : UInt32 :=
  UInt32.ofNat (unsignedInt (max 0 (nTime.toNat - nTimePenalty)))

/-- The end of `Add_`: one more reference to the entry. -/
def addReference (nAdjustedTime : ℤ) (draw : ℕ → ℕ) (source : CNetAddr) (nId : ℤ) (s : CAddrMan) : Check CAddrMan :=
  let nUBucket := (s.info nId).getNewBucket hash2 s.nKey source
  if nId ∈ s.vvNew nUBucket then return s
  else do
    let s := s.modifyInfo nId fun info => { info with nRefCount := info.nRefCount + 1 }
    let (_, s) ← (if (s.vvNew nUBucket).card = ADDRMAN_NEW_BUCKET_SIZE then s.shrinkNew nAdjustedTime draw nUBucket
      else return (0, s))
    return s.insertNew nUBucket nId

def add_ (nAdjustedTime : ℤ) (draw : ℕ → ℕ) (addr : CAddress) (source : CNetAddr) (nTimePenalty : ℤ) (s : CAddrMan) :
    Check (Bool × CAddrMan) :=
  if ¬ addr.isRoutable then return (false, s)
  else match s.find addr.toCNetAddr with
    | some (nId, info) =>
      -- Periodically update nTime.
      let nUpdateInterval : ℤ := if nAdjustedTime - addr.nTime.toNat < 24 * 60 * 60 then 60 * 60 else 24 * 60 * 60
      let nTime := if addr.nTime ≠ 0 ∧ (info.nTime = 0 ∨
          (info.nTime.toNat : ℤ) < addr.nTime.toNat - nUpdateInterval - nTimePenalty) then
        penalized addr.nTime nTimePenalty else info.nTime
      let s := s.modifyInfo nId fun info => { info with nTime := nTime, nServices := info.nServices ||| addr.nServices }
      if addr.nTime = 0 ∨ (nTime ≠ 0 ∧ addr.nTime ≤ nTime) then return (false, s)
      else if info.fInTried then return (false, s)
      else if info.nRefCount = ADDRMAN_NEW_BUCKETS_PER_ADDRESS then return (false, s)
      else
        -- Previous nRefCount == N: 2^N times harder to increase it.
        let nFactor := 2 ^ info.nRefCount.toNat
        if 1 < nFactor ∧ getRandInt nFactor (draw 0) ≠ 0 then return (false, s)
        else do
          let s ← s.addReference hash2 nAdjustedTime (fun i => draw (i + 1)) source nId
          return (false, s)
    | none => do
      let (nId, s) ← s.create addr source
      let s := s.modifyInfo nId fun info => { info with nTime := penalized info.nTime nTimePenalty }
      let s := { s with nNew := s.nNew + 1 }
      let s ← s.addReference hash2 nAdjustedTime (fun i => draw (i + 1)) source nId
      return (true, s)

def attempt_ (addr : CService) (nTime : ℤ) (s : CAddrMan) : Check CAddrMan :=
  match s.find addr.toCNetAddr with
  | none => return s
  | some (nId, info) =>
    if info.toCService ≠ addr then return s
    else do
      rejectIf (info.nAttempts = INT_MAX) .overflow
      return s.modifyInfo nId fun info => { info with nLastTry := nTime, nAttempts := info.nAttempts + 1 }

def connected_ (addr : CService) (nTime : ℤ) (s : CAddrMan) : CAddrMan :=
  match s.find addr.toCNetAddr with
  | none => s
  | some (nId, info) =>
    if info.toCService ≠ addr then s
    else if 20 * 60 < nTime - info.nTime.toNat then
      s.modifyInfo nId fun info => { info with nTime := UInt32.ofNat (unsignedInt nTime) }
    else s

/-- One round of `Select_`: the draws for a bucket and a position, and whether the entry is taken. -/
structure SelectRound where
  bucket : ℕ
  position : ℕ
  taken : Bool

/-- The ids of a bucket of `Select_`. -/
def selectBucket (s : CAddrMan) (fTried : Bool) (draw : ℕ) : List ℤ :=
  if fTried then s.vvTried ⟨getRandInt ADDRMAN_TRIED_BUCKET_COUNT draw, Nat.mod_lt _ (by decide)⟩
  else (s.vvNew ⟨getRandInt ADDRMAN_NEW_BUCKET_COUNT draw, Nat.mod_lt _ (by decide)⟩).sort

/-- The loop of `Select_`, as far as it goes. -/
def selectLoop (s : CAddrMan) (fTried : Bool) : List SelectRound → Check (Option CAddress)
  | [] => return none
  | round :: rounds =>
    let ids := s.selectBucket fTried round.bucket
    if ids.length = 0 then selectLoop s fTried rounds
    else do
      let nId ← assertSome .undefined ids[getRandInt ids.length round.position]?
      let info ← s.assertInfo nId
      if round.taken then return some info.toCAddress else selectLoop s fTried rounds

def select_ (fTried : Bool) (rounds : List SelectRound) (s : CAddrMan) : Check (Option CAddress) :=
  if s.vRandom.length = 0 then return some {} else s.selectLoop fTried rounds

/-- The loop of `GetAddr_` from `n` on. -/
def getAddrLoop (draw : ℕ → ℕ) : ℕ → ℕ → CAddrMan → Check (List CAddress × CAddrMan)
  | 0, _, s => return ([], s)
  | rounds + 1, n, s => do
    let nRndPos := getRandInt (s.vRandom.length - n) (draw n) + n
    let s ← s.swapRandom n nRndPos
    let nId ← assertSome .undefined s.vRandom[n]?
    let info ← s.assertInfo nId
    let (vAddr, s) ← getAddrLoop draw rounds (n + 1) s
    return (info.toCAddress :: vAddr, s)

def getAddr_ (draw : ℕ → ℕ) (s : CAddrMan) : Check (List CAddress × CAddrMan) :=
  let nNodes := ADDRMAN_GETADDR_MAX_PCT * s.vRandom.length / 100
  getAddrLoop draw (min nNodes ADDRMAN_GETADDR_MAX) 0 s

/-- One round of the loop over `mapInfo`, where `id` is what `mapAddr[info]` gives. -/
def checkInfo (vRandom : List ℤ) (id n : ℤ) (info : CAddrInfo) : Except ℤ Unit :=
  if info.fInTried ∧ info.nLastSuccess = 0 then .error (-1)
  else if info.fInTried ∧ info.nRefCount ≠ 0 then .error (-2)
  else if ¬ info.fInTried ∧ (info.nRefCount < 0 ∨ ADDRMAN_NEW_BUCKETS_PER_ADDRESS < info.nRefCount) then .error (-3)
  else if ¬ info.fInTried ∧ info.nRefCount = 0 then .error (-4)
  else if id ≠ n then .error (-5)
  else if info.nRandomPos < 0 ∨ vRandom.length ≤ info.nRandomPos ∨ vRandom[info.nRandomPos.toNat]? ≠ some n then
    .error (-14)
  else if info.nLastTry < 0 then .error (-6)
  else if info.nLastSuccess < 0 then .error (-8)
  else .ok ()

/-- The loop over `mapInfo`; `mapAddr[info]` makes a missing entry. -/
def checkInfos (vRandom : List ℤ) : List (ℤ × CAddrInfo) → (CNetAddr → Option ℤ) → Finset ℤ → OrderedMap ℤ ℤ →
    Except ℤ (Finset ℤ × OrderedMap ℤ ℤ)
  | [], _, setTried, mapNew => .ok (setTried, mapNew)
  | (n, info) :: rest, mapAddr, setTried, mapNew =>
    let id := (mapAddr info.toCNetAddr).getD 0
    match checkInfo vRandom id n info with
    | .error code => .error code
    | .ok () =>
      checkInfos vRandom rest (update mapAddr info.toCNetAddr (some id))
        (if info.fInTried then insert n setTried else setTried)
        (if info.fInTried then mapNew else mapNew.insert n info.nRefCount)

/-- The loops over `vvTried`. -/
def checkTried : List ℤ → Finset ℤ → Except ℤ (Finset ℤ)
  | [], setTried => .ok setTried
  | n :: rest, setTried => if n ∉ setTried then .error (-11) else checkTried rest (setTried.erase n)

/-- The loops over `vvNew`. -/
def checkNew : List ℤ → OrderedMap ℤ ℤ → Except ℤ (OrderedMap ℤ ℤ)
  | [], mapNew => .ok mapNew
  | n :: rest, mapNew =>
    match mapNew.find? n with
    | none => .error (-12)
    | some count => checkNew rest (if count - 1 = 0 then mapNew.erase n else mapNew.insert n (count - 1))

/-- The ids in the buckets, one bucket after the other. -/
def triedIds (s : CAddrMan) : List ℤ := (List.finRange ADDRMAN_TRIED_BUCKET_COUNT).flatMap s.vvTried

def newIds (s : CAddrMan) : List ℤ := (List.finRange ADDRMAN_NEW_BUCKET_COUNT).flatMap fun b => (s.vvNew b).sort

/-- `Check_`: an error code, or zero. -/
def check_ (s : CAddrMan) : ℤ :=
  if (s.vRandom.length : ℤ) ≠ s.nTried + s.nNew then -7
  else match checkInfos s.vRandom s.mapInfo.entries s.mapAddr ∅ ∅ with
    | .error code => code
    | .ok (setTried, mapNew) =>
      if (setTried.card : ℤ) ≠ s.nTried then -9
      else if (mapNew.size : ℤ) ≠ s.nNew then -10
      else match checkTried s.triedIds setTried, checkNew s.newIds mapNew with
        | .error code, _ => code
        | .ok _, .error code => code
        | .ok setTried, .ok mapNew => if setTried.card ≠ 0 then -13 else if mapNew.size ≠ 0 then -15 else 0

end CAddrMan

end BitCrystal
