import BitCrystal.Model.TxCodec

/-! # Alerts

An alert is a signed message. The fields of the object come from the message when the signature is
checked. Notifications and the external command are left out.
-/

namespace BitCrystal

open LittleEndian

/-- The data members of `CUnsignedAlert`, with sets as lists. -/
structure CUnsignedAlert where
  nVersion : Int32 := 1
  nRelayUntil : ℤ := 0
  nExpiration : ℤ := 0
  nID : Int32 := 0
  nCancel : Int32 := 0
  setCancel : List Int32 := []
  nMinVer : Int32 := 0
  nMaxVer : Int32 := 0
  setSubVer : List (List UInt8) := []
  nPriority : Int32 := 0
  strComment : List UInt8 := []
  strStatusBar : List UInt8 := []
  strReserved : List UInt8 := []
deriving DecidableEq, Repr

/-- `READWRITE` of an `int`. -/
def writeInt32 (n : Int32) : List UInt8 := encodeInt 4 n.toInt

def readInt32 : Reader Int32 := do
  let n ← read 4
  return (UInt32.ofNat n).toInt32

def CUnsignedAlert.serialize (alert : CUnsignedAlert) : List UInt8 :=
  writeInt32 alert.nVersion ++ (encodeInt 8 alert.nRelayUntil ++ (encodeInt 8 alert.nExpiration ++
    (writeInt32 alert.nID ++ (writeInt32 alert.nCancel ++ (writeObjects writeInt32 alert.setCancel ++
    (writeInt32 alert.nMinVer ++ (writeInt32 alert.nMaxVer ++ (writeObjects writeVector alert.setSubVer ++
    (writeInt32 alert.nPriority ++ (writeVector alert.strComment ++ (writeVector alert.strStatusBar ++
    writeVector alert.strReserved)))))))))))

def CUnsignedAlert.unserialize : Reader CUnsignedAlert := do
  let nVersion ← readInt32
  let nRelayUntil ← readInt 8
  let nExpiration ← readInt 8
  let nID ← readInt32
  let nCancel ← readInt32
  let setCancel ← readObjects MAX_SIZE readInt32
  let nMinVer ← readInt32
  let nMaxVer ← readInt32
  let setSubVer ← readObjects MAX_SIZE (readVector MAX_SIZE)
  let nPriority ← readInt32
  let strComment ← readVector MAX_SIZE
  let strStatusBar ← readVector MAX_SIZE
  let strReserved ← readVector MAX_SIZE
  return {
    nVersion, nRelayUntil, nExpiration, nID, nCancel, setCancel, nMinVer, nMaxVer, setSubVer, nPriority
    strComment, strStatusBar, strReserved }

structure CAlert extends CUnsignedAlert where
  vchMsg : List UInt8
  vchSig : List UInt8
deriving DecidableEq, Repr

/-- The hash function of messages, and whether the alert key has signed one. -/
structure AlertKey where
  hash2 : List UInt8 → Uint256
  verify : Uint256 → List UInt8 → Bool

/-- `std::numeric_limits<int>::max()`. -/
def maxInt : Int32 := 2147483647

/-- "URGENT: Alert key compromised, upgrade required". -/
def strKeyCompromised : List UInt8 :=
  [0x55, 0x52, 0x47, 0x45, 0x4e, 0x54, 0x3a, 0x20, 0x41, 0x6c, 0x65, 0x72, 0x74, 0x20, 0x6b, 0x65, 0x79, 0x20,
    0x63, 0x6f, 0x6d, 0x70, 0x72, 0x6f, 0x6d, 0x69, 0x73, 0x65, 0x64, 0x2c, 0x20, 0x75, 0x70, 0x67, 0x72, 0x61,
    0x64, 0x65, 0x20, 0x72, 0x65, 0x71, 0x75, 0x69, 0x72, 0x65, 0x64]

namespace CAlert

variable (alertKey : AlertKey) (adjustedTime : ℤ) (alert : CAlert)

def getHash : Uint256 := alertKey.hash2 alert.vchMsg

def isInEffect : Bool := adjustedTime < alert.nExpiration

def cancels (other : CAlert) : Bool :=
  if ¬ alert.isInEffect adjustedTime then false
  else other.nID ≤ alert.nCancel ∨ other.nID ∈ alert.setCancel

/-- `CheckSignature`, with the object it fills. -/
def checkSignature : Check CAlert := do
  rejectIf (¬ alertKey.verify (alertKey.hash2 alert.vchMsg) alert.vchSig)
    (.error "CAlert::CheckSignature() : verify signature failed")
  let unsigned ← assertSome (.throws "CDataStream::read() : end of data") (CUnsignedAlert.unserialize.parse alert.vchMsg)
  return { alert with toCUnsignedAlert := unsigned }

/-- The pre-defined message that `nID` max is reserved for. -/
def isKeyCompromised : Bool :=
  alert.nExpiration = maxInt.toInt ∧ alert.nCancel = maxInt - 1 ∧ alert.nMinVer = 0 ∧ alert.nMaxVer = maxInt ∧
    alert.setSubVer = [] ∧ alert.nPriority = maxInt ∧ alert.strStatusBar = strKeyCompromised

end CAlert

/-- `mapAlerts`. -/
abbrev AlertMap := List (Uint256 × CAlert)

namespace AlertMap

variable (alertKey : AlertKey) (adjustedTime : ℤ)

/-- The loop that cancels and expires previous alerts. -/
def cancelPrevious (alert : CAlert) (mapAlerts : AlertMap) : AlertMap :=
  mapAlerts.filter fun (_, old) => ¬ alert.cancels adjustedTime old ∧ old.isInEffect adjustedTime

/-- `std::map::insert`. -/
def insertAlert (hash : Uint256) (alert : CAlert) (mapAlerts : AlertMap) : AlertMap :=
  if hash ∈ mapAlerts.map Prod.fst then mapAlerts else (hash, alert) :: mapAlerts

/-- `ProcessAlert` once the signature has been checked. -/
def processChecked (alert : CAlert) (mapAlerts : AlertMap) : Bool × AlertMap :=
  if ¬ alert.isInEffect adjustedTime then (false, mapAlerts)
  else if alert.nID = maxInt ∧ ¬ alert.isKeyCompromised then (false, mapAlerts)
  else
    let mapAlerts := cancelPrevious adjustedTime alert mapAlerts
    -- Check if this alert has been cancelled
    if mapAlerts.any fun (_, old) => old.cancels adjustedTime alert then (false, mapAlerts)
    else (true, insertAlert (alert.getHash alertKey) alert mapAlerts)

def processAlert (alert : CAlert) (mapAlerts : AlertMap) : Check Bool × AlertMap :=
  match alert.checkSignature alertKey with
  | .error (.throws message) => (.error (.throws message), mapAlerts)
  | .error _ => (.ok false, mapAlerts)
  | .ok alert =>
    let (fAccepted, mapAlerts) := processChecked alertKey adjustedTime alert mapAlerts
    (.ok fAccepted, mapAlerts)

end AlertMap

end BitCrystal
