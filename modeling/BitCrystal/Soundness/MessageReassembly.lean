import BitCrystal.Machine.Frames
import BitCrystal.Model.NetMessage

/-! # Messages do not depend on how the stream is cut

However the bytes of a peer are cut into chunks, the complete messages are the frames of the whole stream, each a header
and the bytes that it announces. Receiving fails just when a header has been reached that announces too much.
-/

namespace BitCrystal.Socket

open Frames

/-- The header that the first 24 bytes hold. -/
def headerOf (bytes : List UInt8) : CMessageHeader where
  pchMessageStart := bytes.take 4
  pchCommand := (bytes.drop 4).take 12
  nMessageSize := LittleEndian.decode ((bytes.drop 16).take 4)
  nChecksum := LittleEndian.decode ((bytes.drop 20).take 4)

def announced (bytes : List UInt8) : ℕ := (headerOf bytes).nMessageSize

/-- A header followed by the bytes that it announces. -/
structure IsMessage (bytes : List UInt8) : Prop where
  header : 24 ≤ bytes.length
  allowed : announced bytes ≤ MAX_SIZE
  length : bytes.length = 24 + announced bytes

/-- A header that announces more than the largest size. -/
def Oversized (bytes : List UInt8) : Prop := 24 ≤ bytes.length ∧ MAX_SIZE < announced bytes

instance (bytes : List UInt8) : Decidable (Oversized bytes) := inferInstanceAs (Decidable (_ ∧ _))

/-- The beginning of a message. -/
def Partial (bytes : List UInt8) : Prop :=
  bytes.length < 24 ∨ announced bytes ≤ MAX_SIZE ∧ bytes.length < 24 + announced bytes

variable {bytes : List UInt8}

theorem headerOf_append (header : 24 ≤ bytes.length) (more : List UInt8) :
    headerOf (bytes ++ more) = headerOf bytes := by
  have part {i n : ℕ} (inside : i + n ≤ 24) : ((bytes ++ more).drop i).take n = (bytes.drop i).take n := by
    rw [List.drop_append_of_le_length (by omega), List.take_append_of_le_length (by rw [List.length_drop]; omega)]
  have start := part (i := 0) (n := 4) (by decide)
  rw [List.drop_zero, List.drop_zero] at start
  simp only [headerOf, start, part (i := 4) (n := 12) (by decide), part (i := 16) (n := 4) (by decide),
    part (i := 20) (n := 4) (by decide)]

theorem announced_append (header : 24 ≤ bytes.length) (more : List UInt8) :
    announced (bytes ++ more) = announced bytes := congrArg CMessageHeader.nMessageSize (headerOf_append header more)

theorem prefixFree_isMessage : PrefixFree IsMessage where
  nonempty := fun message => absurd message.header (by decide)
  eq_of_prefix := by
    rintro first second one other ⟨more, rfl⟩
    have size := other.length
    rw [announced_append one.header, List.length_append, one.length] at size
    obtain rfl : more = [] := List.length_eq_zero_iff.mp (by omega)
    exact (List.append_nil first).symm

/-- No message begins a part of a message. -/
theorem Partial.rest (incomplete : Partial bytes) (message : List UInt8) (one : IsMessage message) :
    ¬message <+: bytes := by
  rintro ⟨more, rfl⟩
  have header := one.header
  have size := one.length
  rw [Partial, announced_append header, List.length_append] at incomplete
  omega

/-- No message begins an oversized header. -/
theorem Oversized.rest (excess : Oversized bytes) (message : List UInt8) (one : IsMessage message) :
    ¬message <+: bytes := by
  rintro ⟨more, rfl⟩
  have large := excess.2
  rw [announced_append one.header] at large
  exact absurd one.allowed (not_le.mpr large)

theorem unserialize_headerOf (length : bytes.length = 24) :
    CMessageHeader.unserialize.run bytes = some (headerOf bytes, []) := by
  have part (i n : ℕ) (inside : i + n ≤ 24) : (Reader.bytes n).run (bytes.drop i) =
      some ((bytes.drop i).take n, bytes.drop (i + n)) := by
    have enough : n ≤ (bytes.drop i).length := by
      rw [List.length_drop]
      omega
    rw [← List.drop_drop]
    exact if_pos enough
  have start := part 0 4 (by decide)
  have finish : bytes.drop 24 = [] := List.drop_eq_nil_of_le length.le
  rw [List.drop_zero] at start
  simp [CMessageHeader.unserialize, LittleEndian.read, StateT.run_bind, start, part 4 12 (by decide),
    part 16 4 (by decide), part 20 4 (by decide), finish, headerOf]

theorem resize_nil (size : ℕ) : resize [] size = List.replicate size 0 := by
  rw [resize, List.take_nil, List.nil_append]
  rfl

/-- Copying behind what has been filled fills more of the buffer. -/
theorem memcpyAt_filled (filled source : List UInt8) (room : ℕ) (fits : source.length ≤ room) :
    memcpyAt (filled ++ List.replicate room 0) filled.length source =
      .ok (filled ++ source ++ List.replicate (room - source.length) 0) := by
  have inside : ¬(filled ++ List.replicate room (0 : UInt8)).length < filled.length + source.length := by
    rw [List.length_append, List.length_replicate]
    omega
  rw [memcpyAt, rejectIf, if_neg inside, Check.ok_bind, List.take_left, List.drop_append, List.drop_of_length_le (by omega),
    Nat.add_sub_cancel_left, List.drop_replicate]
  rfl

theorem returnInt_of_lt {n : ℕ} (bound : n < 2 ^ 31) : returnInt n = n := if_pos bound

/-- What is left of a field of 32 bits. -/
theorem remaining (total done : ℕ) (inside : done ≤ total) (bound : total < 2 ^ 32) :
    uint32 (total + 2 ^ 32 - done) = total - done := by
  unfold uint32
  omega

section

variable (pchMessageStart : List UInt8)

/-- The message that has been given these bytes. -/
def messageOf (bytes : List UInt8) : CNetMessage :=
  if bytes.length < 24 then
    { CNetMessage.make pchMessageStart with
      hdrbuf := bytes ++ List.replicate (24 - bytes.length) 0
      nHdrPos := bytes.length }
  else
    { in_data := true
      hdrbuf := []
      hdr := headerOf bytes
      nHdrPos := 24
      vRecv := bytes.drop 24 ++ List.replicate (announced bytes - (bytes.length - 24)) 0
      nDataPos := bytes.length - 24 }

/-- The message whose header announces too much. -/
def refusedMessage (bytes : List UInt8) : CNetMessage :=
  { CNetMessage.make pchMessageStart with hdrbuf := [], hdr := headerOf bytes, nHdrPos := 24 }

theorem messageOf_nil : messageOf pchMessageStart [] = .make pchMessageStart := rfl

variable {pchMessageStart} {bytes pch : List UInt8}

theorem complete_iff (small : announced bytes ≤ MAX_SIZE ∨ bytes.length < 24) :
    (messageOf pchMessageStart bytes).complete = true ↔ IsMessage bytes := by
  unfold messageOf
  split
  next short => exact iff_of_false Bool.false_ne_true fun message => absurd message.header (by omega)
  next header =>
    have length : (announced bytes == bytes.length - 24) = true ↔ bytes.length = 24 + announced bytes := by
      rw [beq_iff_eq]
      omega
    refine length.trans ⟨fun whole => ⟨by omega, small.resolve_right header, whole⟩, IsMessage.length⟩

theorem Partial.not_complete (incomplete : Partial bytes) : (messageOf pchMessageStart bytes).complete = false := by
  rw [← Bool.not_eq_true, complete_iff (incomplete.symm.imp_left And.left)]
  intro message
  have header := message.header
  have size := message.length
  rw [Partial] at incomplete
  omega

/-- Reading into a header that is not complete. -/
theorem readHeader_messageOf {nCopy : ℕ} (short : bytes.length < 24) (copy : nCopy = min (24 - bytes.length) pch.length) :
    (messageOf pchMessageStart bytes).readHeader pch = .ok (if Oversized (bytes ++ pch.take nCopy)
      then (-1, refusedMessage pchMessageStart (bytes ++ pch.take nCopy))
      else ((nCopy : ℤ), messageOf pchMessageStart (bytes ++ pch.take nCopy))) := by
  have taken : (pch.take nCopy).length = nCopy := by
    rw [List.length_take]
    omega
  have length : (bytes ++ pch.take nCopy).length = bytes.length + nCopy := by
    rw [List.length_append, taken]
  have filled := memcpyAt_filled bytes (pch.take nCopy) (24 - bytes.length) (by omega)
  rw [taken] at filled
  have message : messageOf pchMessageStart bytes = { CNetMessage.make pchMessageStart with
      hdrbuf := bytes ++ List.replicate (24 - bytes.length) 0, nHdrPos := bytes.length } := if_pos short
  have room := remaining 24 bytes.length (by omega) (by decide)
  rw [message, CNetMessage.readHeader]
  simp only [room, ← copy, filled, Check.ok_bind, returnInt_of_lt (by omega : nCopy < 2 ^ 31)]
  by_cases still : bytes.length + nCopy < 24
  · have small : ¬Oversized (bytes ++ pch.take nCopy) := fun excess => absurd excess.1 (by omega)
    rw [if_pos still, if_neg small, messageOf, if_pos (by omega), length, Nat.sub_sub]
    rfl
  · have whole : (bytes ++ pch.take nCopy).length = 24 := by omega
    have full : 24 - bytes.length - nCopy = 0 := by omega
    have reached : bytes.length + nCopy = 24 := by omega
    rw [if_neg still, full, List.replicate_zero, List.append_nil, unserialize_headerOf whole]
    simp only
    split
    next large =>
      rw [if_pos ⟨whole.ge, large⟩, refusedMessage, reached]
      rfl
    next allowed =>
      rw [if_neg fun excess : Oversized _ => allowed excess.2, messageOf, if_neg (by omega), List.drop_of_length_le whole.le,
        whole, Nat.sub_self, Nat.sub_zero, reached, ← resize_nil]
      rfl

/-- Reading into the data that the header announces. -/
theorem readData_messageOf {nCopy : ℕ} (header : 24 ≤ bytes.length) (allowed : announced bytes ≤ MAX_SIZE)
    (more : bytes.length < 24 + announced bytes) (copy : nCopy = min (24 + announced bytes - bytes.length) pch.length) :
    (messageOf pchMessageStart bytes).readData pch =
      .ok ((nCopy : ℤ), messageOf pchMessageStart (bytes ++ pch.take nCopy)) := by
  have limit : MAX_SIZE < 2 ^ 31 := by decide
  have taken : (pch.take nCopy).length = nCopy := by
    rw [List.length_take]
    omega
  have length : (bytes ++ pch.take nCopy).length = bytes.length + nCopy := by
    rw [List.length_append, taken]
  have position : (bytes.drop 24).length = bytes.length - 24 := List.length_drop
  have filled := memcpyAt_filled (bytes.drop 24) (pch.take nCopy) (announced bytes - (bytes.length - 24)) (by omega)
  rw [taken, position] at filled
  have room := remaining (announced bytes) (bytes.length - 24) (by omega) (by omega)
  have same : announced bytes - (bytes.length - 24) = 24 + announced bytes - bytes.length := by omega
  rw [messageOf, if_neg (by omega), CNetMessage.readData]
  simp only [show (headerOf bytes).nMessageSize = announced bytes from rfl, room, same, ← copy]
  rw [← same, filled, Check.ok_bind, returnInt_of_lt (by omega), messageOf, if_neg (by omega), length,
    headerOf_append header, announced_append header, List.drop_append_of_le_length header]
  have left : announced bytes - (bytes.length - 24) - nCopy = announced bytes - (bytes.length + nCopy - 24) := by omega
  have next : bytes.length - 24 + nCopy = bytes.length + nCopy - 24 := by omega
  rw [left, next]
  rfl

/-! ## The messages of a peer -/

variable (pchMessageStart) in
/-- The peer has sent these messages and the beginning of another. -/
structure Received (frames : List (List UInt8)) (rest : List UInt8) (vRecvMsg : List CNetMessage) : Prop where
  complete : ∀ frame ∈ frames, IsMessage frame
  incomplete : Partial rest
  messages : vRecvMsg = frames.map (messageOf pchMessageStart) ++
    if rest = [] then [] else [messageOf pchMessageStart rest]

variable (pchMessageStart) in
/-- The peer has sent these messages and then a header that announces too much, and receiving has stopped there. -/
structure Refused (frames : List (List UInt8)) (header : List UInt8) (vRecvMsg : List CNetMessage) : Prop where
  complete : ∀ frame ∈ frames, IsMessage frame
  excess : Oversized header
  length : header.length = 24
  messages : vRecvMsg = frames.map (messageOf pchMessageStart) ++ [refusedMessage pchMessageStart header]

variable (pchMessageStart) in
/-- What receiving a stream has led to. -/
inductive Outcome (stream : List UInt8) : Bool → List CNetMessage → Prop
  | received {frames rest vRecvMsg} (state : Received pchMessageStart frames rest vRecvMsg)
      (whole : frames.flatten ++ rest = stream) : Outcome stream true vRecvMsg
  | refused {frames header unread vRecvMsg} (state : Refused pchMessageStart frames header vRecvMsg)
      (whole : frames.flatten ++ (header ++ unread) = stream) : Outcome stream false vRecvMsg

variable {frames : List (List UInt8)} {rest : List UInt8} {vRecvMsg : List CNetMessage}

theorem partial_nil : Partial [] := .inl (by decide)

theorem Received.currentMessage (state : Received pchMessageStart frames rest vRecvMsg) :
    currentMessage pchMessageStart vRecvMsg =
      (frames.map (messageOf pchMessageStart), messageOf pchMessageStart rest) := by
  rw [state.messages]
  split
  next nothing =>
    rw [nothing, List.append_nil, Socket.currentMessage, messageOf_nil]
    split
    next empty => rfl
    next msg last =>
      obtain ⟨frame, member, rfl⟩ := List.mem_map.mp (List.mem_of_mem_getLast? last)
      have one := state.complete frame member
      rw [if_pos ((complete_iff (.inl one.allowed)).mpr one)]
  next =>
    simp only [Socket.currentMessage, List.getLast?_concat, List.dropLast_concat, state.incomplete.not_complete,
      Bool.false_eq_true, if_false]

/-- More bytes of the message that is received complete it or leave it incomplete. -/
theorem Received.extend (state : Received pchMessageStart frames rest vRecvMsg) {next : List UInt8} (nonempty : next ≠ [])
    (further : Partial next ∨ IsMessage next) : ∃ frames' rest', Received pchMessageStart frames' rest'
      (frames.map (messageOf pchMessageStart) ++ [messageOf pchMessageStart next]) ∧
      frames'.flatten ++ rest' = frames.flatten ++ next := by
  rcases further with incomplete | message
  · exact ⟨frames, next, ⟨state.complete, incomplete, by rw [if_neg nonempty]⟩, rfl⟩
  · refine ⟨frames ++ [next], [], ⟨?_, partial_nil, ?_⟩, ?_⟩
    · rw [List.forall_mem_append, List.forall_mem_singleton]
      exact ⟨state.complete, message⟩
    · rw [if_pos rfl, List.append_nil, List.map_append]
      rfl
    · rw [List.append_nil, List.flatten_append, List.flatten_singleton]

/-- A header that is allowed begins a message or is one. -/
theorem further_of_header {bytes : List UInt8} (short : bytes.length ≤ 24) (small : ¬Oversized bytes) :
    Partial bytes ∨ IsMessage bytes := by
  rcases Nat.lt_or_ge bytes.length 24 with less | header
  · exact .inl (.inl less)
  · have allowed : announced bytes ≤ MAX_SIZE := not_lt.mp fun large => small ⟨header, large⟩
    rcases Nat.eq_zero_or_pos (announced bytes) with zero | positive
    · exact .inr ⟨header, allowed, by omega⟩
    · exact .inl (.inr ⟨allowed, by omega⟩)

/-- One round of the loop handles a byte at least. -/
theorem Received.round (state : Received pchMessageStart frames rest vRecvMsg) (nonempty : pch ≠ []) :
    ∃ nCopy, 0 < nCopy ∧ nCopy ≤ pch.length ∧
      (messageOf pchMessageStart rest).absorb pch = .ok (if Oversized (rest ++ pch.take nCopy)
        then (-1, refusedMessage pchMessageStart (rest ++ pch.take nCopy))
        else ((nCopy : ℤ), messageOf pchMessageStart (rest ++ pch.take nCopy))) ∧
      (Oversized (rest ++ pch.take nCopy) → (rest ++ pch.take nCopy).length = 24) ∧
      (¬Oversized (rest ++ pch.take nCopy) → Partial (rest ++ pch.take nCopy) ∨ IsMessage (rest ++ pch.take nCopy)) := by
  have positive := List.length_pos_iff.mpr nonempty
  by_cases short : rest.length < 24
  · have length : (rest ++ pch.take (min (24 - rest.length) pch.length)).length =
        rest.length + min (24 - rest.length) pch.length := by
      rw [List.length_append, List.length_take]
      omega
    have header : (messageOf pchMessageStart rest).in_data = false := by
      rw [messageOf, if_pos short]
      rfl
    refine ⟨min (24 - rest.length) pch.length, by omega, by omega, ?_, fun excess => ?_, fun small => ?_⟩
    · rw [CNetMessage.absorb, header]
      exact readHeader_messageOf short rfl
    · have := excess.1
      omega
    · exact further_of_header (by omega) small
  · obtain ⟨allowed, more⟩ := state.incomplete.resolve_left short
    have header := not_lt.mp short
    have length : (rest ++ pch.take (min (24 + announced rest - rest.length) pch.length)).length =
        rest.length + min (24 + announced rest - rest.length) pch.length := by
      rw [List.length_append, List.length_take]
      omega
    have same := announced_append header (pch.take (min (24 + announced rest - rest.length) pch.length))
    have small : ¬Oversized (rest ++ pch.take (min (24 + announced rest - rest.length) pch.length)) := by
      intro excess
      have large := excess.2
      omega
    have data : (messageOf pchMessageStart rest).in_data = true := by rw [messageOf, if_neg short]
    refine ⟨min (24 + announced rest - rest.length) pch.length, by omega, by omega, ?_, fun excess => absurd excess small,
      fun _ => ?_⟩
    · rw [CNetMessage.absorb, data, if_neg small]
      exact readData_messageOf header allowed more rfl
    · by_cases whole : rest.length + min (24 + announced rest - rest.length) pch.length = 24 + announced rest
      · exact .inr ⟨by omega, by omega, by omega⟩
      · exact .inl (.inr ⟨by omega, by omega⟩)

theorem Received.loop (state : Received pchMessageStart frames rest vRecvMsg) (pch : List UInt8) {rounds : ℕ}
    (enough : pch.length ≤ rounds) : ∃ received vRecvMsg', receiveLoop pchMessageStart rounds pch vRecvMsg =
      .ok (received, vRecvMsg') ∧ Outcome pchMessageStart (frames.flatten ++ (rest ++ pch)) received vRecvMsg' := by
  induction rounds generalizing pch frames rest vRecvMsg with
  | zero =>
    obtain rfl := List.length_eq_zero_iff.mp (Nat.le_zero.mp enough)
    exact ⟨true, vRecvMsg, rfl, .received state (by rw [List.append_nil])⟩
  | succ rounds ih =>
    cases pch with
    | nil => exact ⟨true, vRecvMsg, rfl, .received state (by rw [List.append_nil])⟩
    | cons c pch =>
      obtain ⟨nCopy, positive, inside, read, excess, further⟩ := state.round (List.cons_ne_nil c pch)
      have split : rest ++ c :: pch = rest ++ (c :: pch).take nCopy ++ (c :: pch).drop nCopy := by
        rw [List.append_assoc, List.take_append_drop]
      rw [receiveLoop, state.currentMessage]
      simp only
      rw [read, Check.ok_bind]
      by_cases large : Oversized (rest ++ (c :: pch).take nCopy)
      · rw [if_pos large]
        exact ⟨false, _, rfl, .refused ⟨state.complete, large, excess large, rfl⟩ (by rw [split])⟩
      · rw [if_neg large]
        have nonempty : rest ++ (c :: pch).take nCopy ≠ [] := by
          apply List.ne_nil_of_length_pos
          rw [List.length_append, List.length_take]
          omega
        obtain ⟨frames', rest', next, whole⟩ := state.extend nonempty (further large)
        have natural : ¬(nCopy : ℤ) < 0 := by omega
        simp only [if_neg natural, Int.toNat_natCast]
        have fewer : ((c :: pch).drop nCopy).length ≤ rounds := by
          rw [List.length_drop]
          omega
        obtain ⟨received, vRecvMsg', run, outcome⟩ := ih next _ fewer
        refine ⟨received, vRecvMsg', run, ?_⟩
        rwa [split, ← List.append_assoc, ← whole, List.append_assoc]

theorem receiveRun_outcome (state : Received pchMessageStart frames rest vRecvMsg) (chunks : List (List UInt8)) :
    ∃ received vRecvMsg', receiveRun pchMessageStart chunks vRecvMsg = .ok (received, vRecvMsg') ∧
      Outcome pchMessageStart (frames.flatten ++ (rest ++ chunks.flatten)) received vRecvMsg' := by
  induction chunks generalizing frames rest vRecvMsg with
  | nil => exact ⟨true, vRecvMsg, rfl, .received state (by rw [List.flatten_nil, List.append_nil])⟩
  | cons chunk chunks ih =>
    obtain ⟨received, vRecvMsg', run, outcome⟩ := state.loop chunk le_rfl
    rw [receiveRun, receiveMsgBytes, run, Check.ok_bind]
    cases outcome with
    | received next whole =>
      obtain ⟨received, vRecvMsg', run, outcome⟩ := ih next
      refine ⟨received, vRecvMsg', run, ?_⟩
      rwa [List.flatten_cons, ← List.append_assoc rest, ← List.append_assoc, ← whole, List.append_assoc]
    | @refused frames' header unread _ next whole =>
      refine ⟨false, vRecvMsg', rfl, @Outcome.refused _ _ frames' header (unread ++ chunks.flatten) _ next ?_⟩
      rw [List.flatten_cons, ← List.append_assoc rest, ← List.append_assoc frames.flatten, ← whole]
      simp only [List.append_assoc]

/-- Header and data of the complete messages. -/
def completeMessages (vRecvMsg : List CNetMessage) : List (CMessageHeader × List UInt8) :=
  (vRecvMsg.filter CNetMessage.complete).map fun msg => (msg.hdr, msg.vRecv)

theorem completeMessages_frames (complete : ∀ frame ∈ frames, IsMessage frame) :
    completeMessages (frames.map (messageOf pchMessageStart)) =
      frames.map fun frame => (headerOf frame, frame.drop 24) := by
  have all : (frames.map (messageOf pchMessageStart)).filter CNetMessage.complete =
      frames.map (messageOf pchMessageStart) := by
    apply List.filter_eq_self.mpr
    intro msg member
    obtain ⟨frame, inside, rfl⟩ := List.mem_map.mp member
    have one := complete frame inside
    exact (complete_iff (.inl one.allowed)).mpr one
  rw [completeMessages, all, List.map_map]
  apply List.map_congr_left
  intro frame inside
  have one := complete frame inside
  have full : announced frame - (frame.length - 24) = 0 := by
    rw [one.length, Nat.add_sub_cancel_left, Nat.sub_self]
  rw [Function.comp_apply, messageOf, if_neg (not_lt.mpr one.header), full, List.replicate_zero, List.append_nil]

/-- An incomplete message at the back does not count. -/
theorem completeMessages_concat {msg : CNetMessage} (incomplete : msg.complete = false) :
    completeMessages (vRecvMsg ++ [msg]) = completeMessages vRecvMsg := by
  rw [completeMessages, List.filter_append, List.filter_singleton, incomplete, completeMessages]
  simp

theorem Outcome.parsed {stream : List UInt8} {received : Bool} (outcome : Outcome pchMessageStart stream received vRecvMsg) :
    ∃ frames rest, Framed IsMessage stream frames rest ∧
      completeMessages vRecvMsg = frames.map (fun frame => (headerOf frame, frame.drop 24)) ∧
      (received = false ↔ Oversized rest) := by
  cases outcome with
  | @received frames rest _ state whole =>
    refine ⟨frames, rest, ⟨whole.symm, state.complete, state.incomplete.rest⟩, ?_, ?_⟩
    · rw [← completeMessages_frames state.complete, state.messages]
      split
      · rw [List.append_nil]
      · exact completeMessages_concat state.incomplete.not_complete
    · refine iff_of_false (by decide) fun excess => ?_
      have header := excess.1
      have large := excess.2
      rcases state.incomplete with short | ⟨allowed, -⟩ <;> omega
  | @refused frames header unread _ state whole =>
    have excess : Oversized (header ++ unread) := by
      refine ⟨?_, ?_⟩
      · rw [List.length_append, state.length]
        omega
      · rw [announced_append state.length.ge]
        exact state.excess.2
    refine ⟨frames, header ++ unread, ⟨whole.symm, state.complete, excess.rest⟩, ?_, iff_of_true rfl excess⟩
    rw [← completeMessages_frames state.complete, state.messages]
    exact completeMessages_concat rfl

variable (pchMessageStart) in
theorem received_nil : Received pchMessageStart [] [] [] := ⟨nofun, partial_nil, rfl⟩

/-- Every stream is parsed in one way. Whatever the chunks, receiving stays inside the buffers, the complete messages are
those of the whole stream, and a call fails just when a header has been reached that announces too much. -/
theorem receive_reassembles (pchMessageStart : List UInt8) :
    (∀ stream, ∃ frames rest, Framed IsMessage stream frames rest ∧
      ∀ others other, Framed IsMessage stream others other → frames = others ∧ rest = other) ∧
    (∀ chunks frames rest, Framed IsMessage chunks.flatten frames rest → ∃ received vRecvMsg,
      receiveRun pchMessageStart chunks [] = .ok (received, vRecvMsg) ∧
      completeMessages vRecvMsg = frames.map (fun frame => (headerOf frame, frame.drop 24)) ∧
      (received = false ↔ Oversized rest)) ∧
    ∀ chunks vRecvMsg, receiveRun pchMessageStart chunks [] = .ok (true, vRecvMsg) → ∀ chunk frames rest,
      Framed IsMessage (chunks.flatten ++ chunk) frames rest → ∃ received vRecvMsg',
      receiveMsgBytes pchMessageStart chunk vRecvMsg = .ok (received, vRecvMsg') ∧ (received = false ↔ Oversized rest) := by
  refine ⟨fun stream => ?_, fun chunks frames rest framed => ?_, fun chunks vRecvMsg run chunk frames rest framed => ?_⟩
  · obtain ⟨received, vRecvMsg, -, outcome⟩ := receiveRun_outcome (received_nil []) [stream]
    obtain ⟨frames, rest, framed, -⟩ := outcome.parsed
    rw [List.flatten_nil, List.nil_append, List.nil_append, List.flatten_singleton] at framed
    exact ⟨frames, rest, framed, fun others other again => framed.unique prefixFree_isMessage again⟩
  · obtain ⟨received, vRecvMsg, run, outcome⟩ := receiveRun_outcome (received_nil pchMessageStart) chunks
    obtain ⟨frames', rest', framed', messages, failed⟩ := outcome.parsed
    rw [List.flatten_nil, List.nil_append, List.nil_append] at framed'
    obtain ⟨rfl, rfl⟩ := framed.unique prefixFree_isMessage framed'
    exact ⟨received, vRecvMsg, run, messages, failed⟩
  · obtain ⟨received, vRecvMsg', run', outcome⟩ := receiveRun_outcome (received_nil pchMessageStart) chunks
    rw [run] at run'
    cases run'
    rw [List.flatten_nil, List.nil_append, List.nil_append] at outcome
    cases outcome with
    | received state whole =>
      obtain ⟨received, vRecvMsg', call, outcome⟩ := state.loop chunk le_rfl
      obtain ⟨frames', rest', framed', -, failed⟩ := outcome.parsed
      rw [← List.append_assoc, whole] at framed'
      obtain ⟨rfl, rfl⟩ := framed.unique prefixFree_isMessage framed'
      exact ⟨received, vRecvMsg', call, failed⟩

end

/-- The first message has no data and the second one has three bytes. -/
def twoMessages : List (List UInt8) :=
  [[1, 2, 3, 4] ++ List.replicate 20 0, [1, 2, 3, 4] ++ List.replicate 12 65 ++ [3, 0, 0, 0, 0, 0, 0, 0, 7, 8, 9]]

/-- They are cut within the header and within the data of the second one, and a third one begins. -/
theorem receive_reassembles_two : let chunks := [(twoMessages.flatten ++ [1, 2]).take 40,
      ((twoMessages.flatten ++ [1, 2]).drop 40).take 9, (twoMessages.flatten ++ [1, 2]).drop 49]
    ∃ received vRecvMsg, receiveRun [1, 2, 3, 4] chunks [] = .ok (received, vRecvMsg) ∧
      completeMessages vRecvMsg = twoMessages.map (fun frame => (headerOf frame, frame.drop 24)) ∧
      (received = false ↔ Oversized [1, 2]) := by
  have messages : ∀ frame ∈ twoMessages, IsMessage frame := List.forall_mem_cons.mpr
    ⟨⟨by decide, by decide, by decide⟩, List.forall_mem_singleton.mpr ⟨by decide, by decide, by decide⟩⟩
  have incomplete : Partial [1, 2] := .inl (by decide)
  exact (receive_reassembles [1, 2, 3, 4]).2.1 _ _ _ ⟨by decide, messages, incomplete.rest⟩

end BitCrystal.Socket
