import BitCrystal.Model.BaseTexts

/-! # Messages from and to a socket

Messages are put together from the bytes that are received, and queued as bytes until they are sent.
-/

/-! ## Messages from a socket

`ReceiveMsgBytes` fills the messages of a peer from the bytes that `recv` has given, first a header of 24 bytes and
then as many bytes as it announces. The message start of the network is an argument; the version of a message, which its
bytes do not depend on, is left out.
-/

namespace BitCrystal.Socket

open LittleEndian

structure CMessageHeader where
  pchMessageStart : List UInt8
  pchCommand : List UInt8
  nMessageSize : ℕ
  nChecksum : ℕ
deriving DecidableEq

namespace CMessageHeader

/-- The constructor. -/
def make (pchMessageStart : List UInt8) : CMessageHeader where
  pchMessageStart := pchMessageStart
  pchCommand := 0 :: 1 :: List.replicate 10 0
  nMessageSize := 2 ^ 32 - 1
  nChecksum := 0

/-- `IMPLEMENT_SERIALIZE`. -/
def unserialize : Reader CMessageHeader := do
  let pchMessageStart ← Reader.bytes 4
  let pchCommand ← Reader.bytes 12
  let nMessageSize ← read 4
  let nChecksum ← read 4
  return { pchMessageStart, pchCommand, nMessageSize, nChecksum }

end CMessageHeader

/-- `memcpy(&buffer[pos], source, source.length)`, which must stay inside the buffer. -/
def memcpyAt (buffer : List UInt8) (pos : ℕ) (source : List UInt8) : Check (List UInt8) := do
  rejectIf (buffer.length < pos + source.length) .undefined
  return buffer.take pos ++ source ++ buffer.drop (pos + source.length)

/-- `resize`, with zeros at the end. -/
def resize (buffer : List UInt8) (size : ℕ) : List UInt8 :=
  buffer.take size ++ List.replicate (size - buffer.length) 0

theorem length_resize (buffer : List UInt8) (size : ℕ) : (resize buffer size).length = size := by
  rw [resize, List.length_append, List.length_take, List.length_replicate]
  omega

/-- Copying over a field of the same size. -/
theorem memcpyAt_field {before field after source : List UInt8} {pos : ℕ} (start : before.length = pos)
    (same : source.length = field.length) :
    memcpyAt (before ++ field ++ after) pos source = .ok (before ++ source ++ after) := by
  subst start
  have inside : ¬(before ++ field ++ after).length < before.length + source.length := by
    rw [List.length_append, List.length_append]
    omega
  have behind : (before ++ field ++ after).drop (before.length + source.length) = after := by
    rw [same, ← List.length_append, List.drop_left]
  rw [memcpyAt, rejectIf, if_neg inside, Check.ok_bind, behind, List.append_assoc before, List.take_left]
  rfl

/-- An `unsigned int` returned as an `int`. -/
def returnInt (n : ℕ) : ℤ := if n < 2 ^ 31 then n else n - 2 ^ 32

structure CNetMessage where
  in_data : Bool
  hdrbuf : List UInt8
  hdr : CMessageHeader
  nHdrPos : ℕ
  vRecv : List UInt8
  nDataPos : ℕ
deriving DecidableEq

namespace CNetMessage

/-- The constructor. -/
def make (pchMessageStart : List UInt8) : CNetMessage where
  in_data := false
  hdrbuf := resize [] 24
  hdr := .make pchMessageStart
  nHdrPos := 0
  vRecv := []
  nDataPos := 0

variable (msg : CNetMessage)

def complete : Bool := msg.in_data && msg.hdr.nMessageSize == msg.nDataPos

/-- The bytes that are handled, or -1. -/
def readHeader (pch : List UInt8) : Check (ℤ × CNetMessage) := do
  let nRemaining := uint32 (24 + 2 ^ 32 - msg.nHdrPos)
  let nCopy := min nRemaining pch.length
  let hdrbuf ← memcpyAt msg.hdrbuf msg.nHdrPos (pch.take nCopy)
  let msg := { msg with hdrbuf := hdrbuf, nHdrPos := msg.nHdrPos + nCopy }
  if msg.nHdrPos < 24 then return (returnInt nCopy, msg)
  match CMessageHeader.unserialize.run hdrbuf with
  | none => return (-1, msg)
  | some (hdr, hdrbuf) =>
    let msg := { msg with hdr := hdr, hdrbuf := hdrbuf }
    -- reject messages larger than MAX_SIZE
    if hdr.nMessageSize > MAX_SIZE then return (-1, msg)
    return (returnInt nCopy, { msg with in_data := true, vRecv := resize msg.vRecv hdr.nMessageSize })

def readData (pch : List UInt8) : Check (ℤ × CNetMessage) := do
  let nRemaining := uint32 (msg.hdr.nMessageSize + 2 ^ 32 - msg.nDataPos)
  let nCopy := min nRemaining pch.length
  let vRecv ← memcpyAt msg.vRecv msg.nDataPos (pch.take nCopy)
  return (returnInt nCopy, { msg with vRecv := vRecv, nDataPos := msg.nDataPos + nCopy })

/-- What a round of the loop below does with the network data. -/
def absorb (pch : List UInt8) : Check (ℤ × CNetMessage) := if !msg.in_data then msg.readHeader pch else msg.readData pch

end CNetMessage

section

variable (pchMessageStart : List UInt8)

/-- The incomplete message at the back or a new one, behind the messages that stand before it. -/
def currentMessage (vRecvMsg : List CNetMessage) : List CNetMessage × CNetMessage :=
  match vRecvMsg.getLast? with
  | none => (vRecvMsg, .make pchMessageStart)
  | some msg => if msg.complete then (vRecvMsg, .make pchMessageStart) else (vRecvMsg.dropLast, msg)

/-- The loop of `ReceiveMsgBytes`, in which every round handles a byte. -/
def receiveLoop : ℕ → List UInt8 → List CNetMessage → Check (Bool × List CNetMessage)
  | _, [], vRecvMsg => return (true, vRecvMsg)
  | 0, _ :: _, _ => .error .diverges
  | rounds + 1, c :: pch, vRecvMsg => do
    let (before, msg) := currentMessage pchMessageStart vRecvMsg
    let (handled, msg) ← msg.absorb (c :: pch)
    if handled < 0 then return (false, before ++ [msg])
    receiveLoop rounds ((c :: pch).drop handled.toNat) (before ++ [msg])

def receiveMsgBytes (pch : List UInt8) (vRecvMsg : List CNetMessage) : Check (Bool × List CNetMessage) :=
  receiveLoop pchMessageStart pch.length pch vRecvMsg

/-- The calls for what `recv` gives. After the first that fails the socket is closed, and there are no more. -/
def receiveRun : List (List UInt8) → List CNetMessage → Check (Bool × List CNetMessage)
  | [], vRecvMsg => return (true, vRecvMsg)
  | chunk :: chunks, vRecvMsg => do
    let (received, vRecvMsg) ← receiveMsgBytes pchMessageStart chunk vRecvMsg
    if received then receiveRun chunks vRecvMsg else return (false, vRecvMsg)

end

end BitCrystal.Socket

/-! ## Messages to a socket

`EndMessage` queues the message that has been written to `ssSend` and tries to send at once when the queue was empty;
the socket thread sends later. What `send` answers is part of the state, with the time at which it does, as is what the
socket has accepted. Whether a test drops the message is an argument. Sizes of buffers do not run over.
-/

namespace BitCrystal

open LittleEndian
open Socket (memcpyAt resize)

inductive SendResult where
  /-- The bytes taken of those that are offered, at most what an `int` counts. -/
  | accepted (nBytes : ℕ) (getTime : ℤ)
  /-- -1, with the error. -/
  | error (nErr : ℤ)
deriving DecidableEq

def WSAEINTR : ℤ := 4
def WSAEBADF : ℤ := 9
def WSAEWOULDBLOCK : ℤ := 11
def WSAEMSGSIZE : ℤ := 90
def WSAEINPROGRESS : ℤ := 115

/-- What a `CNode` sends with. -/
structure SendNode where
  ssSend : List UInt8 := []
  /-- The total size of the messages in the queue. -/
  nSendSize : ℤ := 0
  /-- The bytes of the first message that have been sent. -/
  nSendOffset : ℕ := 0
  vSendMsg : List (List UInt8) := []
  nLastSend : ℤ := 0
  nSendBytes : ℕ := 0
  /-- `hSocket` is not `INVALID_SOCKET`. -/
  hSocket : Bool := true
  fDisconnect : Bool := false
  /-- What `send` will answer; after that it would block. -/
  answers : List SendResult := []
  /-- The bytes that the socket has accepted. -/
  accepted : List UInt8 := []

namespace SendNode

variable (node : SendNode)

def closeSocketDisconnect : SendNode := { node with fDisconnect := true, hSocket := false }

/-- `send`, which takes no more than it is offered. -/
def send (data : List UInt8) : SendResult × SendNode :=
  if !node.hSocket then (.error WSAEBADF, node)
  else
    match node.answers with
    | [] => (.error WSAEWOULDBLOCK, node)
    | .error nErr :: answers => (.error nErr, { node with answers := answers })
    | .accepted nBytes getTime :: answers =>
      (.accepted (min nBytes data.length) getTime,
        { node with answers := answers, accepted := node.accepted ++ data.take nBytes })

/-- The loop of `SocketSendData` over the messages from `it` on. -/
def sendLoop : List (List UInt8) → SendNode → Check (List (List UInt8) × SendNode)
  | [], node => return ([], node)
  | data :: it, node => do
    rejectIf (data.length ≤ node.nSendOffset) (.assertion "data.size() > pnode->nSendOffset")
    match node.send (data.drop node.nSendOffset) with
    | (.accepted nBytes getTime, node) =>
      -- couldn't send anything at all
      if nBytes = 0 then return (data :: it, node)
      else do
        let node := { node with
          nLastSend := getTime
          nSendBytes := (node.nSendBytes + nBytes) % 2 ^ 64
          nSendOffset := node.nSendOffset + nBytes }
        if node.nSendOffset = data.length then
          sendLoop it { node with nSendOffset := 0, nSendSize := node.nSendSize - data.length }
        -- could not send full message; stop sending more
        else return (data :: it, node)
    | (.error nErr, node) =>
      if nErr ≠ WSAEWOULDBLOCK ∧ nErr ≠ WSAEMSGSIZE ∧ nErr ≠ WSAEINTR ∧ nErr ≠ WSAEINPROGRESS then
        return (data :: it, node.closeSocketDisconnect)
      else return (data :: it, node)

def socketSendData : Check SendNode := do
  let (it, node) ← sendLoop node.vSendMsg node
  if it = [] then
    rejectIf (node.nSendOffset ≠ 0) (.assertion "pnode->nSendOffset == 0")
    rejectIf (node.nSendSize ≠ 0) (.assertion "pnode->nSendSize == 0")
  return { node with vSendMsg := it }

variable (pchMessageStart : Vector UInt8 4)

/-- `CMessageHeader(pszCommand, 0)`, serialized. -/
def messageHeader (pszCommand : List UInt8) : List UInt8 :=
  pchMessageStart.toList ++ resize (cString pszCommand) 12 ++ encode 4 0 ++ encode 4 0

def beginMessage (pszCommand : List UInt8) : Check SendNode := do
  rejectIf (node.ssSend.length ≠ 0) (.assertion "ssSend.size() == 0")
  return { node with ssSend := node.ssSend ++ messageHeader pchMessageStart pszCommand }

def abortMessage : SendNode := { node with ssSend := [] }

variable (hash2 : valtype → Uint256)

def endMessage (dropped : Bool) : Check SendNode :=
  if dropped then return node.abortMessage
  else if node.ssSend.length = 0 then return node
  else do
    -- set the size
    let nSize := uint32 (node.ssSend.length + 2 ^ 32 - 24)
    let ssSend ← memcpyAt node.ssSend 16 (encode 4 nSize)
    -- set the checksum
    let nChecksum := checksum hash2 (ssSend.drop 24)
    rejectIf (ssSend.length < 20 + 4) (.assertion "ssSend.size () >= CMessageHeader::CHECKSUM_OFFSET + sizeof(nChecksum)")
    let data ← memcpyAt ssSend 20 nChecksum
    let before := node.vSendMsg
    let node := { node with
      ssSend := []
      vSendMsg := before ++ [data]
      nSendSize := node.nSendSize + data.length }
    -- if write queue empty, attempt "optimistic write"
    if before = [] then node.socketSendData else return node

/-- `PushMessage`, whose arguments have been serialized. -/
def pushMessage (pszCommand payload : List UInt8) (dropped : Bool) : Check SendNode := do
  let node ← node.beginMessage pchMessageStart pszCommand
  let node := { node with ssSend := node.ssSend ++ payload }
  node.endMessage hash2 dropped

end SendNode

inductive SendStep where
  | endMessage (pszCommand payload : List UInt8) (dropped : Bool)
  | socketSendData
deriving DecidableEq

def SendStep.run (pchMessageStart : Vector UInt8 4) (hash2 : valtype → Uint256) (node : SendNode) :
    SendStep → Check SendNode
  | .endMessage pszCommand payload dropped => node.pushMessage pchMessageStart hash2 pszCommand payload dropped
  | .socketSendData => node.socketSendData

/-- A connected node whose socket will give these answers, after the steps. -/
def sendRun (pchMessageStart : Vector UInt8 4) (hash2 : valtype → Uint256) (answers : List SendResult)
    (steps : List SendStep) : Check SendNode :=
  steps.foldlM (SendStep.run pchMessageStart hash2) { answers := answers }

end BitCrystal
