import BitCrystal.Model.AddrMan

/-! # The format of the address manager

As it is written to disk: the new entries, the tried entries, and for each bucket of new entries the positions of its
entries among the new ones. What is undefined fails. The version of the stream is the argument `nVersion`.
-/

namespace BitCrystal

open Function LittleEndian

namespace CNetAddr

def serialize (addr : CNetAddr) : List UInt8 := (encode 16 addr.ip).reverse

def unserialize : Reader CNetAddr := do
  let bytes ← Reader.bytes 16
  return ⟨Fin.ofNat _ (decode bytes.reverse)⟩

end CNetAddr

namespace CService

/-- The port is in network order. -/
def serialize (service : CService) : List UInt8 := service.toCNetAddr.serialize ++ (encode 2 service.port.toNat).reverse

def unserialize : Reader CService := do
  let addr ← CNetAddr.unserialize
  let portN ← Reader.bytes 2
  return ⟨addr, UInt16.ofNat (decode portN.reverse)⟩

end CService

namespace CAddrInfo

def serialize (nVersion : ℤ) (info : CAddrInfo) : List UInt8 :=
  encodeInt 4 nVersion ++ (encode 4 info.nTime.toNat ++ (encode 8 info.nServices.toNat ++ (info.toCService.serialize ++
    (info.source.serialize ++ (encodeInt 8 info.nLastSuccess ++ encodeInt 4 info.nAttempts)))))

/-- The fields that are not in the format are as `Init` sets them. -/
def unserialize : Reader CAddrInfo := do
  let _ ← readInt 4
  let nTime ← read 4
  let nServices ← read 8
  let service ← CService.unserialize
  let source ← CNetAddr.unserialize
  let nLastSuccess ← readInt 8
  let nAttempts ← readInt 4
  return {
    toCService := service
    nTime := UInt32.ofNat nTime
    nServices := UInt64.ofNat nServices
    source := source
    nLastSuccess := nLastSuccess
    nAttempts := nAttempts }

end CAddrInfo

namespace CAddrMan

/-- The loop over the new entries, and `mapUnkIds` after it. -/
def writeNew (nVersion nNew : ℤ) : List (ℤ × CAddrInfo) → ℤ → (ℤ → ℤ) → List UInt8 × (ℤ → ℤ)
  | [], _, mapUnkIds => ([], mapUnkIds)
  | (n, info) :: rest, nIds, mapUnkIds =>
    if nIds = nNew then ([], mapUnkIds) -- this means nNew was wrong, oh ow
    else
      let mapUnkIds := update mapUnkIds n nIds
      if info.nRefCount ≠ 0 then
        let (bytes, mapUnkIds) := writeNew nVersion nNew rest (nIds + 1) mapUnkIds
        (info.serialize nVersion ++ bytes, mapUnkIds)
      else writeNew nVersion nNew rest nIds mapUnkIds

/-- The loop over the tried entries. -/
def writeTried (nVersion nTried : ℤ) : List (ℤ × CAddrInfo) → ℤ → List UInt8
  | [], _ => []
  | (_, info) :: rest, nIds =>
    if nIds = nTried then [] -- this means nTried was wrong, oh ow
    else if info.fInTried then info.serialize nVersion ++ writeTried nVersion nTried rest (nIds + 1)
    else writeTried nVersion nTried rest nIds

def writeBucket (mapUnkIds : ℤ → ℤ) (vNew : Finset ℤ) : List UInt8 :=
  encodeInt 4 vNew.card ++ vNew.sort.flatMap fun n => encodeInt 4 (mapUnkIds n)

def serialize (nVersion : ℤ) (s : CAddrMan) : List UInt8 :=
  let (bytes, mapUnkIds) := writeNew nVersion s.nNew s.mapInfo.entries 0 fun _ => 0
  encode 1 0 ++ (writeVector s.nKey ++ (encodeInt 4 s.nNew ++ (encodeInt 4 s.nTried ++
    (encodeInt 4 ADDRMAN_NEW_BUCKET_COUNT ++ (bytes ++ (writeTried nVersion s.nTried s.mapInfo.entries 0 ++
      (List.finRange ADDRMAN_NEW_BUCKET_COUNT).flatMap fun b => writeBucket mapUnkIds (s.vvNew b)))))))

variable (hash2 : List UInt8 → Uint256) (nUBuckets : ℤ)

/-- A new entry that was read. -/
def enterNew (n : ℤ) (info : CAddrInfo) (s : CAddrMan) : CAddrMan :=
  let s := { s with
    mapInfo := s.mapInfo.insert n { info with nRandomPos := s.vRandom.length }
    mapAddr := update s.mapAddr info.toCNetAddr (some n)
    vRandom := s.vRandom ++ [n] }
  if nUBuckets ≠ ADDRMAN_NEW_BUCKET_COUNT then
    (s.insertNew (info.getNewBucket hash2 s.nKey info.source) n).modifyInfo n fun info =>
      { info with nRefCount := info.nRefCount + 1 }
  else s

/-- The loop over the new entries from `n` on. -/
def readNew : ℕ → ℤ → CAddrMan → Reader CAddrMan
  | 0, _, s => return s
  | rounds + 1, n, s => do
    let info ← CAddrInfo.unserialize
    readNew rounds (n + 1) (s.enterNew hash2 nUBuckets n info)

/-- A tried entry that was read and has a place in its bucket. -/
def enterTried (info : CAddrInfo) (s : CAddrMan) : CAddrMan :=
  let b := info.getTriedBucket hash2 s.nKey
  { s with
    mapInfo := s.mapInfo.insert s.nIdCount { info with nRandomPos := s.vRandom.length, fInTried := true }
    mapAddr := update s.mapAddr info.toCNetAddr (some s.nIdCount)
    vRandom := s.vRandom ++ [s.nIdCount]
    vvTried := update s.vvTried b (s.vvTried b ++ [s.nIdCount])
    nIdCount := s.nIdCount + 1 }

/-- The loop over the tried entries, which counts those that are lost. -/
def readTried : ℕ → ℤ → CAddrMan → Reader (ℤ × CAddrMan)
  | 0, nLost, s => return (nLost, s)
  | rounds + 1, nLost, s => do
    let info ← CAddrInfo.unserialize
    if (s.vvTried (info.getTriedBucket hash2 s.nKey)).length < ADDRMAN_TRIED_BUCKET_SIZE then
      if s.nIdCount = INT_MAX then failure
      else readTried rounds nLost (s.enterTried hash2 info)
    else readTried rounds (nLost + 1) s

/-- An element of a bucket that was read. -/
def refer (b : NewBucket) (nIndex : ℤ) (s : CAddrMan) : CAddrMan :=
  let s := s.subscript nIndex
  if nUBuckets = ADDRMAN_NEW_BUCKET_COUNT ∧ (s.info nIndex).nRefCount < ADDRMAN_NEW_BUCKETS_PER_ADDRESS then
    (s.modifyInfo nIndex fun info => { info with nRefCount := info.nRefCount + 1 }).insertNew b nIndex
  else s

/-- The loop over the elements of a bucket. -/
def readBucket (b : NewBucket) : ℕ → CAddrMan → Reader CAddrMan
  | 0, s => return s
  | rounds + 1, s => do
    let nIndex ← readInt 4
    readBucket b rounds (s.refer nUBuckets b nIndex)

/-- The loop over the buckets from `b` on. -/
def readBuckets : ℕ → ℕ → CAddrMan → Reader CAddrMan
  | 0, _, s => return s
  | rounds + 1, b, s =>
    if inside : b < ADDRMAN_NEW_BUCKET_COUNT then do
      let nSize ← readInt 4
      let s ← readBucket nUBuckets ⟨b, inside⟩ nSize.toNat s
      readBuckets rounds (b + 1) s
    else failure

def unserialize (nMaxSize : ℕ) : Reader CAddrMan := do
  let _ ← read 1
  let nKey ← readVector nMaxSize
  let nNew ← readInt 4
  let nTried ← readInt 4
  let nUBuckets ← readInt 4
  let s ← readNew hash2 nUBuckets nNew.toNat 0 { nKey, nNew, nTried }
  let (nLost, s) ← readTried hash2 nTried.toNat 0 { s with nIdCount := nNew }
  readBuckets nUBuckets nUBuckets.toNat 0 { s with nTried := s.nTried - nLost }

end CAddrMan

end BitCrystal
