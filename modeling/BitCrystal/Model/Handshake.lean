import BitCrystal.Machine.Sampling
import BitCrystal.Machine.StateAction
import BitCrystal.Model.TxCodec

/-! # The version handshake

A peer says what time it has in its `version` message, and its offset moves the clock of the node.
-/

/-! ## Network-adjusted time

The median of the offsets that peers report moves the clock of the node. The system clock and the
addresses of the peers are arguments; translation of texts is left out.
-/

namespace BitCrystal

structure CMedianFilter where
  nSize : ℕ
  vValues : List ℤ
deriving DecidableEq

namespace CMedianFilter

/-- The constructor. -/
def make (size : ℕ) (initial_value : ℤ) : CMedianFilter := { nSize := size, vValues := [initial_value] }

variable (filter : CMedianFilter)

def size : ℕ := filter.vValues.length

/-- `vSorted`, which is renewed with every input. -/
def sorted : List ℤ := filter.vValues.insertionSort (· ≤ ·)

def input (value : ℤ) : CMedianFilter :=
  let kept := if filter.vValues.length = filter.nSize then filter.vValues.drop 1 else filter.vValues
  { filter with vValues := kept ++ [value] }

def median : Check ℤ := do
  rejectIf (filter.size = 0) (.assertion "size>0")
  if filter.size % 2 = 1 then return filter.sorted.getD (filter.size / 2) 0
  else do
    let sum ← int64 (filter.sorted.getD (filter.size / 2 - 1) 0 + filter.sorted.getD (filter.size / 2) 0)
    return sum.tdiv 2

end CMedianFilter

/-- The magnitude of an `int64`, which the lowest one does not have. -/
def abs64 (n : ℤ) : Check ℤ := if 0 ≤ n then .ok n else int64 (-n)

structure TimeState (CNetAddr : Type) where
  vTimeOffsets : CMedianFilter := .make 200 0
  nTimeOffset : ℤ := 0
  setKnown : Finset CNetAddr := ∅
  fDone : Bool := false
  strMiscWarning : String := ""

namespace TimeState

variable {CNetAddr : Type}

/-- `fMatch`: one of the values has `nOffset != 0 && abs64(nOffset) < 5 * 60`. -/
def matchAny : List ℤ → Check Bool
  | [] => return false
  | nOffset :: rest =>
    if nOffset = 0 then matchAny rest
    else do
      let magnitude ← abs64 nOffset
      return decide (magnitude < 5 * 60) || (← matchAny rest)

/-- Without a clock close to ours there is one warning. -/
def warn (s : TimeState CNetAddr) : Check (TimeState CNetAddr) :=
  if s.fDone then return s
  else do
    let fMatch ← matchAny s.vTimeOffsets.sorted
    if fMatch then return s
    else return { s with
      fDone := true
      strMiscWarning := "Warning: Please check that your computer's date and time are correct! If your clock is " ++
        "wrong BitCrystal will not work properly." }

variable [DecidableEq CNetAddr]

def addTimeData (ip : CNetAddr) (nTime getTime : ℤ) (s : TimeState CNetAddr) : Check (TimeState CNetAddr) := do
  let nOffsetSample ← int64 (nTime - getTime)
  -- ignore duplicates
  if ip ∈ s.setKnown then return s
  let s := { s with setKnown := insert ip s.setKnown, vTimeOffsets := s.vTimeOffsets.input nOffsetSample }
  if 5 ≤ s.vTimeOffsets.size ∧ s.vTimeOffsets.size % 2 = 1 then do
    let nMedian ← s.vTimeOffsets.median
    -- only let other nodes change our time by so much
    if (← abs64 nMedian) < 70 * 60 then return { s with nTimeOffset := nMedian }
    else warn { s with nTimeOffset := 0 }
  else return s

end TimeState

/-- A call with the system time at which it is made. -/
structure TimeData (CNetAddr : Type) where
  ip : CNetAddr
  nTime : ℤ
  getTime : ℤ

/-- What the calls leave, from the start of the node. -/
def addTimeDataRun {CNetAddr : Type} [DecidableEq CNetAddr] (calls : List (TimeData CNetAddr)) :
    Check (TimeState CNetAddr) :=
  calls.foldlM (fun s call => s.addTimeData call.ip call.nTime call.getTime) {}

end BitCrystal

/-! ## The version handshake

A peer is not heard before its `version` message, whose fields are read into the node one after the other.
The name of the peer's client, and what the message passes on to others, are left out.
-/

namespace BitCrystal

open LittleEndian

def PROTOCOL_VERSION : ℤ := 70001
def MIN_PROTO_VERSION : ℤ := 209
def CADDR_TIME_VERSION : ℤ := 31402

/-- A peer; `σ` is what only other commands work on. `acted` records the other commands that were acted on, each with
`fSuccessfullyConnected` at that time; the node itself does not keep them. -/
structure CNode (σ : Type) where
  fInbound : Bool
  fOneShot : Bool := false
  nVersion : ℤ := 0
  nServices : ℕ := 0
  nStartingHeight : ℤ := -1
  fRelayTxes : Bool := false
  fClient : Bool := false
  fGetAddr : Bool := false
  fSuccessfullyConnected : Bool := false
  fDisconnect : Bool := false
  nMisbehavior : ℤ := 0
  ssSendVersion : ℤ := MIN_PROTO_VERSION
  /-- The commands of the messages that were pushed, the last one first. -/
  vSendMsg : List String := []
  rest : σ
  acted : List (String × Bool) := []

/-- What the node knows besides: its nonce, the ban score, whether the peer is local, how many addresses there are, and
what the other commands do. -/
structure PeerEnv (σ : Type) where
  nLocalHostNonce : ℕ
  nBanScore : ℤ
  fLocal : Bool
  addrmanSize : σ → ℕ
  command : String → List UInt8 → StateAction (CNode σ) Failure Bool

/-- A message as it was received, and whether `-dropmessagestest` drops it. -/
structure CNetMessage where
  fMessageStart : Bool := true
  fHeaderValid : Bool := true
  fChecksum : Bool := true
  fDropped : Bool := false
  strCommand : String
  vRecv : List UInt8

/-- The rest of a message and the node it is read into. -/
structure Receiving (σ : Type) where
  vRecv : List UInt8
  pfrom : CNode σ

abbrev ReceivingAction (σ : Type) := StateAction (Receiving σ) Failure

namespace Receiving

variable {σ α : Type}

/-- `vRecv >> a`. -/
def extract (reader : Reader α) : ReceivingAction σ α := fun receiving =>
  match reader.run receiving.vRecv with
  | none => (.error (.throws "CDataStream::read() : end of data"), receiving)
  | some (a, vRecv) => (.ok a, { receiving with vRecv })

/-- `if (!vRecv.empty()) vRecv >> a`. -/
def extractMore (reader : Reader α) : ReceivingAction σ (Option α) := do
  let receiving ← StateAction.get
  if receiving.vRecv = [] then return none
  else do
    let a ← extract reader
    return some a

def assign (f : CNode σ → CNode σ) : ReceivingAction σ Unit :=
  StateAction.modify fun receiving => { receiving with pfrom := f receiving.pfrom }

end Receiving

namespace CNode

open Receiving

variable {σ : Type} (env : PeerEnv σ)

def pushMessage (command : String) (pfrom : CNode σ) : CNode σ := { pfrom with vSendMsg := command :: pfrom.vSendMsg }

/-- `Misbehaving`, which closes the connection when the score is reached. -/
def misbehaving (howmuch : ℤ) (pfrom : CNode σ) : CNode σ :=
  if env.fLocal then pfrom
  else { pfrom with
    nMisbehavior := pfrom.nMisbehavior + howmuch
    fDisconnect := pfrom.fDisconnect || env.nBanScore ≤ pfrom.nMisbehavior + howmuch }

/-- What follows the reading of a `version` message. -/
def greet (nNonce : ℕ) (pfrom : CNode σ) : CNode σ :=
  -- Disconnect if we connected to ourself
  if nNonce = env.nLocalHostNonce ∧ 1 < nNonce then { pfrom with fDisconnect := true }
  else
    -- Be shy and don't send version until we hear
    let pfrom : CNode σ := if pfrom.fInbound then pfrom.pushMessage "version" else pfrom
    let pfrom : CNode σ := { pfrom with fClient := pfrom.nServices % 2 = 0 }
    let pfrom : CNode σ := { pfrom.pushMessage "verack" with ssSendVersion := min pfrom.nVersion PROTOCOL_VERSION }
    -- Get recent addresses
    let pfrom : CNode σ :=
      if ¬ pfrom.fInbound ∧ (pfrom.fOneShot ∨ CADDR_TIME_VERSION ≤ pfrom.nVersion ∨ env.addrmanSize pfrom.rest < 1000) then
        { pfrom.pushMessage "getaddr" with fGetAddr := true }
      else pfrom
    { pfrom with fSuccessfullyConnected := true }

/-- A network address in a message before the handshake, without its time. -/
def readAddress : Reader (List UInt8) := Reader.bytes 26

/-- The command `version`. -/
def version : ReceivingAction σ Bool := do
  let nVersion ← extract (readInt 4)
  assign fun pfrom => { pfrom with nVersion }
  let nServices ← extract (read 8)
  assign fun pfrom => { pfrom with nServices }
  let _nTime ← extract (readInt 8)
  let _addrMe ← extract readAddress
  if nVersion < MIN_PROTO_VERSION then
    assign fun pfrom => { pfrom with fDisconnect := true }
    return false
  else
    assign fun pfrom => if pfrom.nVersion = 10300 then { pfrom with nVersion := 300 } else pfrom
    let nNonce ← extractMore (do let _addrFrom ← readAddress; read 8)
    let _strSubVer ← extractMore (readVector MAX_SIZE)
    let nStartingHeight ← extractMore (readInt 4)
    assign fun pfrom => { pfrom with nStartingHeight := nStartingHeight.getD pfrom.nStartingHeight }
    let fRelayTxes ← extractMore (read 1)
    assign fun pfrom => { pfrom with fRelayTxes := fRelayTxes.getD 1 ≠ 0 }
    assign (greet env (nNonce.getD 1))
    return true

/-- A command other than `version`. None of them assigns the version or `fSuccessfullyConnected`, and a node stays
disconnected. -/
def otherCommand (strCommand : String) (vRecv : List UInt8) : StateAction (CNode σ) Failure Bool := fun pfrom =>
  let pfrom := { pfrom with acted := (strCommand, pfrom.fSuccessfullyConnected) :: pfrom.acted }
  let (result, after) := env.command strCommand vRecv pfrom
  (result, { after with
    nVersion := pfrom.nVersion
    fSuccessfullyConnected := pfrom.fSuccessfullyConnected
    fDisconnect := pfrom.fDisconnect || after.fDisconnect
    acted := pfrom.acted })

/-- `ProcessMessage`. -/
def processMessage (strCommand : String) (vRecv : List UInt8) : StateAction (CNode σ) Failure Bool := fun pfrom =>
  if strCommand = "version" then
    -- Each connection can only send one version message
    if pfrom.nVersion ≠ 0 then (.ok false, pfrom.misbehaving env 1)
    else
      let (result, receiving) := version env ⟨vRecv, pfrom⟩
      (result, receiving.pfrom)
  else if pfrom.nVersion = 0 then
    -- Must have a version message before anything else
    (.ok false, pfrom.misbehaving env 1)
  else otherCommand env strCommand vRecv pfrom

/-- One round of `ProcessMessages`; exceptions are caught. `false` breaks the loop, and the caller closes the
connection. -/
def receive (msg : CNetMessage) (pfrom : CNode σ) : Bool × CNode σ :=
  if ¬ msg.fMessageStart then (false, { pfrom with fDisconnect := true })
  else if ¬ msg.fHeaderValid then (true, pfrom)
  else if ¬ msg.fChecksum then (true, pfrom)
  else if msg.fDropped then (true, pfrom)
  else (true, (processMessage env msg.strCommand msg.vRecv pfrom).2)

/-- `ProcessMessages` on the complete messages. -/
def processMessages : List CNetMessage → CNode σ → CNode σ
  | [], pfrom => pfrom
  | msg :: vRecvMsg, pfrom =>
    if pfrom.fDisconnect then pfrom
    else
      let (fOk, pfrom) := receive env msg pfrom
      if fOk then processMessages vRecvMsg pfrom else pfrom

end CNode

end BitCrystal
