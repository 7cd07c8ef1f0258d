import BitCrystal.Soundness.MessageReassembly
import BitCrystal.Soundness.SendQueue

/-! # What is sent arrives

Whatever the short writes on one side and the cuts on the other, the complete messages there are the first ones of those
queued here.
-/

namespace BitCrystal

open Frames Socket LittleEndian

/-- The command and the payload that a step queues. -/
def SendStep.pushed : SendStep → Option (List UInt8 × List UInt8)
  | .endMessage pszCommand payload dropped => if dropped then none else some (pszCommand, payload)
  | .socketSendData => none

def pushed (steps : List SendStep) : List (List UInt8 × List UInt8) := steps.filterMap SendStep.pushed

variable (pchMessageStart : Vector UInt8 4) (hash2 : valtype → Uint256)

def frameOf (message : List UInt8 × List UInt8) : List UInt8 := messageBytes pchMessageStart hash2 message.1 message.2

/-- The header and the data of a message that has arrived. -/
def arrived (message : List UInt8 × List UInt8) : CMessageHeader × List UInt8 :=
  ({ pchMessageStart := pchMessageStart.toList
     pchCommand := resize (cString message.1) 12
     nMessageSize := message.2.length
     nChecksum := decode (checksum hash2 message.2) }, message.2)

variable {pchMessageStart hash2}

theorem queuedBytes_eq (steps : List SendStep) : queuedBytes pchMessageStart hash2 steps =
    ((pushed steps).map (frameOf pchMessageStart hash2)).flatten := by
  induction steps with
  | nil => rfl
  | cons step steps ih =>
    rw [queuedBytes, List.flatMap_cons, ← queuedBytes, ih, pushed, pushed, List.filterMap_cons]
    cases step with
    | socketSendData => rfl
    | endMessage pszCommand payload dropped => cases dropped <;> rfl

/-- The header of a message is read back. -/
theorem headerOf_frameOf {message : List UInt8 × List UInt8} (fits : message.2.length ≤ MAX_SIZE) :
    (headerOf (frameOf pchMessageStart hash2 message), (frameOf pchMessageStart hash2 message).drop 24) =
      arrived pchMessageStart hash2 message := by
  have start : pchMessageStart.toList.length = 4 := Vector.length_toList
  have small : message.2.length < 2 ^ 32 := fits.trans_lt (by decide)
  simp only [headerOf, frameOf, messageBytes, arrived, List.append_assoc, show 16 = 4 + 12 from rfl,
    show 20 = 4 + 12 + 4 from rfl, show 24 = 4 + 12 + 4 + 4 from rfl, ← List.drop_drop, List.take_left' start,
    List.drop_left' start, List.take_left' (length_resize _ 12), List.drop_left' (length_resize _ 12),
    List.take_left' (length_encode 4 _), List.drop_left' (length_encode 4 _),
    List.take_left' (length_checksum hash2 _), List.drop_left' (length_checksum hash2 _)]
  rw [Nat.mod_eq_of_lt small, decode_encode (show message.2.length < 256 ^ 4 from small)]

theorem isMessage_frameOf {message : List UInt8 × List UInt8} (fits : message.2.length ≤ MAX_SIZE) :
    IsMessage (frameOf pchMessageStart hash2 message) := by
  have size : announced (frameOf pchMessageStart hash2 message) = message.2.length :=
    congrArg (fun read => read.1.nMessageSize) (headerOf_frameOf fits)
  have length : (frameOf pchMessageStart hash2 message).length = 24 + message.2.length := SendNode.length_messageBytes ..
  refine ⟨?_, ?_, ?_⟩ <;> omega

/-- A stream of messages does not announce too much. -/
theorem not_oversized {messages : List (List UInt8)} (all : ∀ message ∈ messages, IsMessage message) {rest : List UInt8}
    (inside : rest <+: messages.flatten) : ¬Oversized rest := by
  rintro ⟨header, large⟩
  obtain ⟨more, same⟩ := inside
  cases messages with
  | nil =>
    obtain ⟨rfl, -⟩ := List.append_eq_nil_iff.mp same
    exact absurd header (by decide)
  | cons message messages =>
    have one := all message List.mem_cons_self
    rw [List.flatten_cons] at same
    rw [← announced_append header more, same, announced_append one.header] at large
    exact absurd one.allowed (not_le.mpr large)

/-- Whatever `send` answers and however the bytes that it takes are cut, the other side receives the first of the
messages that have been queued, and all of them when nothing is left to be sent. -/
theorem receiveRun_sendRun (answers : List SendResult) (steps : List SendStep)
    (fits : ∀ message ∈ pushed steps, message.2.length ≤ MAX_SIZE) :
    ∃ node, sendRun pchMessageStart hash2 answers steps = .ok node ∧ ∀ chunks, chunks.flatten <+: node.accepted →
      ∃ vRecvMsg, receiveRun pchMessageStart.toList chunks [] = .ok (true, vRecvMsg) ∧
        completeMessages vRecvMsg <+: (pushed steps).map (arrived pchMessageStart hash2) ∧
        (chunks.flatten = node.accepted → node.vSendMsg = [] →
          completeMessages vRecvMsg = (pushed steps).map (arrived pchMessageStart hash2)) := by
  have start : SendNode.Queue [] { answers := answers } := ⟨rfl, rfl, rfl, fun _ => rfl, by simp, by simp⟩
  obtain ⟨node, run, queue⟩ := foldlM_queue start steps
  have bytes := queue.pending.bytes
  rw [List.nil_append, queuedBytes_eq] at bytes
  refine ⟨node, run, fun chunks taken => ?_⟩
  have messages : ∀ frame ∈ (pushed steps).map (frameOf pchMessageStart hash2), IsMessage frame := by
    rw [List.forall_mem_map]
    exact fun message member => isMessage_frameOf (fits message member)
  have read : ((pushed steps).map (frameOf pchMessageStart hash2)).map (fun frame => (headerOf frame, frame.drop 24)) =
      (pushed steps).map (arrived pchMessageStart hash2) := by
    rw [List.map_map]
    exact List.map_congr_left fun message member => headerOf_frameOf (fits message member)
  obtain ⟨received, vRecvMsg, ran, outcome⟩ := receiveRun_outcome (received_nil pchMessageStart.toList) chunks
  obtain ⟨frames, rest, framed, complete, failed⟩ := outcome.parsed
  rw [List.flatten_nil, List.nil_append, List.nil_append] at framed
  obtain ⟨later, whole, behind⟩ := framed.of_prefix prefixFree_isMessage messages (taken.trans ⟨_, bytes⟩)
  rw [whole] at messages
  have fine : received = true := by
    rw [← Bool.not_eq_false, failed]
    exact not_oversized (fun frame member => messages frame (List.mem_append_right _ member)) behind
  subst fine
  refine ⟨vRecvMsg, ran, ?_⟩
  rw [← read, complete, whole, List.map_append]
  refine ⟨List.prefix_append .., fun all done => ?_⟩
  rw [done, List.flatten_nil, List.drop_nil, List.append_nil, ← all, framed.stream_eq, whole, List.flatten_append] at bytes
  have left := List.append_cancel_left bytes
  cases later with
  | nil => exact (List.append_nil _).symm
  | cons frame later =>
    refine absurd ?_ (framed.rest frame (messages frame (List.mem_append_right _ List.mem_cons_self)))
    rw [left, List.flatten_cons]
    exact List.prefix_append ..

/-- Two messages, of which the socket takes a part, cut in two. -/
theorem receiveRun_sendRun_partly : ∃ node, sendRun #v[1, 2, 3, 4] (fun _ => 0) [.accepted 20 5, .accepted 9 6]
    [.endMessage [112, 105] [7] false, .socketSendData, .endMessage [112, 111] [] false] = .ok node ∧ ∃ vRecvMsg,
      receiveRun [1, 2, 3, 4] [node.accepted.take 3, node.accepted.drop 3] [] = .ok (true, vRecvMsg) := by
  obtain ⟨node, run, received⟩ := @receiveRun_sendRun #v[1, 2, 3, 4] (fun _ => 0) [.accepted 20 5, .accepted 9 6]
    [.endMessage [112, 105] [7] false, .socketSendData, .endMessage [112, 111] [] false] (by decide)
  obtain ⟨vRecvMsg, ran, -⟩ := received [node.accepted.take 3, node.accepted.drop 3]
    ⟨[], by simp only [List.flatten_cons, List.flatten_nil, List.append_nil, List.take_append_drop]⟩
  exact ⟨node, run, vRecvMsg, ran⟩

end BitCrystal
