import BitCrystal.Model.NetMessage

/-! # The send queue loses and repeats nothing

What the socket has accepted and what is still to be sent are together the messages that have been queued, whatever
`send` answers.
-/

namespace BitCrystal

open Socket LittleEndian

/-- The message with its size and checksum. -/
def messageBytes (pchMessageStart : Vector UInt8 4) (hash2 : valtype → Uint256) (pszCommand payload : List UInt8) :
    List UInt8 :=
  pchMessageStart.toList ++ resize (cString pszCommand) 12 ++ encode 4 (payload.length % 2 ^ 32) ++
    checksum hash2 payload ++ payload

namespace SendNode

/-- The messages from `it` on are those that are not sent yet, the first of them up to the offset. -/
structure Pending (queued : List UInt8) (it : List (List UInt8)) (node : SendNode) : Prop where
  bytes : node.accepted ++ it.flatten.drop node.nSendOffset = queued
  size : node.nSendSize = it.flatten.length
  empty : it = [] → node.nSendOffset = 0
  offset : ∀ data ∈ it.head?, node.nSendOffset < data.length
  nonempty : ∀ data ∈ it, 0 < data.length

variable {queued : List UInt8} {it : List (List UInt8)} {node node' : SendNode}

/-- After a whole message the next one follows. -/
theorem Pending.advance {data : List UInt8} (pending : Pending queued (data :: it) node)
    (accepted : node'.accepted = node.accepted ++ data.drop node.nSendOffset) (zero : node'.nSendOffset = 0)
    (size : node'.nSendSize = node.nSendSize - data.length) : Pending queued it node' where
  bytes := by
    have inside := (pending.offset data rfl).le
    rw [accepted, zero, List.drop_zero, List.append_assoc, ← pending.bytes, List.flatten_cons,
      List.drop_append_of_le_length inside]
  size := by
    rw [size, pending.size, List.flatten_cons, List.length_append]
    omega
  empty _ := zero
  offset other first := by
    rw [zero]
    exact pending.nonempty other (List.mem_cons_of_mem _ (List.mem_of_mem_head? first))
  nonempty other member := pending.nonempty other (List.mem_cons_of_mem _ member)

/-- After a part of a message the offset is behind that part. -/
theorem Pending.partly {data : List UInt8}
    (pending : Pending queued (data :: it) node) {n : ℕ} (less : node.nSendOffset + n < data.length)
    (accepted : node'.accepted = node.accepted ++ (data.drop node.nSendOffset).take n)
    (offset : node'.nSendOffset = node.nSendOffset + n) (size : node'.nSendSize = node.nSendSize) :
    Pending queued (data :: it) node' where
  bytes := by
    rw [accepted, offset, List.append_assoc, ← pending.bytes, List.flatten_cons,
      List.drop_append_of_le_length (by omega), List.drop_append_of_le_length (by omega), ← List.drop_drop,
      ← List.append_assoc ((data.drop node.nSendOffset).take n), List.take_append_drop]
  size := size.trans pending.size
  empty := nofun
  offset other first := by
    cases first
    omega
  nonempty := pending.nonempty

/-- A step that sends nothing. -/
theorem Pending.congr (pending : Pending queued it node) (accepted : node'.accepted = node.accepted)
    (offset : node'.nSendOffset = node.nSendOffset) (size : node'.nSendSize = node.nSendSize) :
    Pending queued it node' where
  bytes := by
    rw [accepted, offset]
    exact pending.bytes
  size := size.trans pending.size
  empty nothing := offset.trans (pending.empty nothing)
  offset data first := by
    rw [offset]
    exact pending.offset data first
  nonempty := pending.nonempty

/-- What `send` says and does; the queue and its sizes stay as they are. -/
theorem send_cases (node : SendNode) (data : List UInt8) : ∃ result node', node.send data = (result, node') ∧
    node'.nSendOffset = node.nSendOffset ∧ node'.nSendSize = node.nSendSize ∧ node'.ssSend = node.ssSend ∧
    ((∃ n getTime, result = .accepted n getTime ∧ n ≤ data.length ∧ node'.accepted = node.accepted ++ data.take n) ∨
      ∃ nErr, result = .error nErr ∧ node'.accepted = node.accepted) := by
  unfold send
  split
  next => exact ⟨_, _, rfl, rfl, rfl, rfl, .inr ⟨_, rfl, rfl⟩⟩
  next =>
    split
    next => exact ⟨_, _, rfl, rfl, rfl, rfl, .inr ⟨_, rfl, rfl⟩⟩
    next => exact ⟨_, _, rfl, rfl, rfl, rfl, .inr ⟨_, rfl, rfl⟩⟩
    next nBytes getTime answers _ =>
      have taken : data.take (min nBytes data.length) = data.take nBytes := by
        rw [List.take_eq_take_iff]
        omega
      exact ⟨_, _, rfl, rfl, rfl, rfl, .inl ⟨_, _, rfl, Nat.min_le_right .., by rw [taken]⟩⟩

/-- The loop sends whole messages and a part of the next one. -/
theorem Pending.sendLoop
    (pending : Pending queued it node) : ∃ it' node', SendNode.sendLoop it node = .ok (it', node') ∧
      Pending queued it' node' ∧ node'.ssSend = node.ssSend := by
  induction it generalizing node with
  | nil => exact ⟨[], node, rfl, pending, rfl⟩
  | cons data it ih =>
    have offset := pending.offset data rfl
    have remaining : (data.drop node.nSendOffset).length = data.length - node.nSendOffset := List.length_drop
    obtain ⟨result, next, sent, sameOffset, sameSize, sameStream, taken | failed⟩ :=
      send_cases node (data.drop node.nSendOffset)
    · obtain ⟨n, getTime, rfl, bound, accepted⟩ := taken
      rw [SendNode.sendLoop, rejectIf, if_neg (not_le.mpr offset), Check.ok_bind, sent]
      simp only [sameOffset]
      split
      next zero =>
        subst zero
        rw [List.take_zero, List.append_nil] at accepted
        exact ⟨data :: it, next, rfl, pending.congr accepted sameOffset sameSize, sameStream⟩
      next nonzero =>
        split
        next whole =>
          have all : (data.drop node.nSendOffset).take n = data.drop node.nSendOffset :=
            List.take_of_length_le (by omega)
          rw [all] at accepted
          have advanced : Pending queued it { next with
              nLastSend := getTime, nSendBytes := (next.nSendBytes + n) % 2 ^ 64, nSendOffset := 0
              nSendSize := next.nSendSize - data.length } := pending.advance accepted rfl (by rw [← sameSize])
          obtain ⟨it', node', run, pending', stream⟩ := ih advanced
          exact ⟨it', node', run, pending', stream.trans sameStream⟩
        next part => exact ⟨data :: it, _, rfl, pending.partly (by omega) accepted rfl sameSize, sameStream⟩
    · obtain ⟨nErr, rfl, accepted⟩ := failed
      rw [SendNode.sendLoop, rejectIf, if_neg (not_le.mpr offset), Check.ok_bind, sent]
      simp only
      split
      · exact ⟨data :: it, _, rfl, pending.congr accepted sameOffset sameSize, sameStream⟩
      · exact ⟨data :: it, _, rfl, pending.congr accepted sameOffset sameSize, sameStream⟩

/-- Between the steps no message is being written and the queue is pending. -/
structure Queue (queued : List UInt8) (node : SendNode) : Prop where
  stream : node.ssSend = []
  pending : Pending queued node.vSendMsg node

theorem Queue.socketSendData (queue : Queue queued node) :
    ∃ node', node.socketSendData = .ok node' ∧ Queue queued node' := by
  obtain ⟨it, node', run, pending, stream⟩ := queue.pending.sendLoop
  have left : Queue queued { node' with vSendMsg := it } :=
    ⟨stream.trans queue.stream, pending.bytes, pending.size, pending.empty, pending.offset, pending.nonempty⟩
  rw [SendNode.socketSendData, run, Check.ok_bind]
  simp only
  split
  next empty =>
    have size : node'.nSendSize = 0 := by
      rw [pending.size, empty]
      rfl
    rw [rejectIf, if_neg (not_not.mpr (pending.empty empty)), Check.ok_bind, rejectIf, if_neg (not_not.mpr size)]
    exact ⟨_, rfl, left⟩
  next => exact ⟨_, rfl, left⟩

variable {pchMessageStart : Vector UInt8 4} {hash2 : valtype → Uint256}

/-- The size and the checksum of a message that has been written are filled in, and it comes last. -/
theorem endMessage_written {pszCommand payload : List UInt8}
    (written : node.ssSend = messageHeader pchMessageStart pszCommand ++ payload) : node.endMessage hash2 false =
      let next := { node with
        ssSend := []
        vSendMsg := node.vSendMsg ++ [messageBytes pchMessageStart hash2 pszCommand payload]
        nSendSize := node.nSendSize + (messageBytes pchMessageStart hash2 pszCommand payload).length }
      if node.vSendMsg = [] then next.socketSendData else .ok next := by
  have start : (pchMessageStart.toList ++ resize (cString pszCommand) 12).length = 16 := by
    rw [List.length_append, Vector.length_toList, length_resize]
  have field (n : ℕ) : (encode 4 n).length = 4 := length_encode ..
  have length : node.ssSend.length = 24 + payload.length := by
    rw [written, messageHeader, List.length_append, List.length_append, List.length_append, start, field]
  have nSize : uint32 (node.ssSend.length + 2 ^ 32 - 24) = payload.length % 2 ^ 32 := by
    rw [length, uint32]
    omega
  have sized : memcpyAt node.ssSend 16 (encode 4 (payload.length % 2 ^ 32)) =
      .ok (pchMessageStart.toList ++ resize (cString pszCommand) 12 ++
        encode 4 (payload.length % 2 ^ 32) ++ (encode 4 0 ++ payload)) := by
    rw [written, messageHeader, List.append_assoc _ _ payload]
    exact memcpyAt_field start ((field _).trans (field 0).symm)
  generalize sizedFront : pchMessageStart.toList ++ resize (cString pszCommand) 12 ++
    encode 4 (payload.length % 2 ^ 32) = front at sized
  have frontLength : front.length = 20 := by
    rw [← sizedFront, List.length_append, start, field]
  have behind : (front ++ (encode 4 0 ++ payload)).drop 24 = payload := by
    rw [← List.append_assoc]
    apply List.drop_left'
    rw [List.length_append, frontLength, field]
  have enough : ¬(front ++ (encode 4 0 ++ payload)).length < 20 + 4 := by
    rw [List.length_append, List.length_append, frontLength, field]
    omega
  have summed : memcpyAt (front ++ (encode 4 0 ++ payload)) 20 (checksum hash2 payload) =
      .ok (messageBytes pchMessageStart hash2 pszCommand payload) := by
    rw [messageBytes, sizedFront, ← List.append_assoc]
    exact memcpyAt_field frontLength ((length_checksum hash2 payload).trans (field 0).symm)
  rw [endMessage, if_neg Bool.false_ne_true, if_neg (by omega), nSize]
  simp only [sized, Check.ok_bind, behind, rejectIf, if_neg enough, summed]
  rfl

theorem length_messageBytes (pszCommand payload : List UInt8) :
    (messageBytes pchMessageStart hash2 pszCommand payload).length = 24 + payload.length := by
  simp only [messageBytes, List.length_append, Vector.length_toList, length_resize, length_encode,
    length_checksum]

/-- A message comes behind what is pending. -/
theorem Queue.concat {message : List UInt8} (queue : Queue queued node)
    (positive : 0 < message.length) : Queue (queued ++ message) { node with
      ssSend := [], vSendMsg := node.vSendMsg ++ [message], nSendSize := node.nSendSize + message.length } where
  stream := rfl
  pending := by
    have old := queue.pending
    have inside : node.nSendOffset ≤ node.vSendMsg.flatten.length := by
      cases queue' : node.vSendMsg with
      | nil => exact (old.empty queue').le
      | cons data it =>
        have first := old.offset data (by rw [queue', List.head?_cons]; rfl)
        rw [List.flatten_cons, List.length_append]
        omega
    refine ⟨?_, ?_, ?_, ?_, ?_⟩
    · rw [← old.bytes, List.flatten_append, List.flatten_singleton, List.drop_append_of_le_length inside,
        List.append_assoc]
    · simp only [old.size, List.flatten_append, List.flatten_singleton, List.length_append]
      omega
    · exact fun nothing => absurd nothing (List.append_ne_nil_of_right_ne_nil _ (List.cons_ne_nil _ _))
    · intro data first
      cases queue' : node.vSendMsg with
      | nil =>
        rw [queue', List.nil_append] at first
        cases first
        exact (old.empty queue').trans_lt positive
      | cons other it =>
        rw [queue'] at first
        cases first
        exact old.offset _ (by rw [queue', List.head?_cons]; rfl)
    · intro data member
      rcases List.mem_append.mp member with member | member
      · exact old.nonempty data member
      · rwa [List.mem_singleton.mp member]

/-- A message is queued unless it is dropped. -/
theorem Queue.pushMessage (queue : Queue queued node) (pszCommand payload : List UInt8) (dropped : Bool) :
    ∃ node', node.pushMessage pchMessageStart hash2 pszCommand payload dropped = .ok node' ∧
      Queue (queued ++ if dropped then [] else messageBytes pchMessageStart hash2 pszCommand payload) node' := by
  have clear : ¬node.ssSend.length ≠ 0 := by
    rw [queue.stream]
    exact fun nonzero => nonzero rfl
  rw [SendNode.pushMessage, beginMessage, rejectIf, if_neg clear, Check.ok_bind]
  cases dropped with
  | true =>
    refine ⟨_, rfl, rfl, ?_⟩
    rw [if_pos rfl, List.append_nil]
    exact queue.pending.congr rfl rfl rfl
  | false =>
    have positive : 0 < (messageBytes pchMessageStart hash2 pszCommand payload).length := by
      rw [length_messageBytes]
      omega
    have next := queue.concat positive
    have written : node.ssSend ++ messageHeader pchMessageStart pszCommand ++ payload =
        messageHeader pchMessageStart pszCommand ++ payload := by
      rw [queue.stream, List.nil_append]
    apply (exists_congr fun node' => and_congr_left fun _ => Eq.congr_left (endMessage_written written)).mpr
    simp only
    split
    · exact next.socketSendData
    · exact ⟨_, rfl, next⟩

end SendNode

variable (pchMessageStart : Vector UInt8 4) (hash2 : valtype → Uint256)

/-- The message that a step queues. -/
def SendStep.message : SendStep → List UInt8
  | .endMessage pszCommand payload dropped =>
    if dropped then [] else messageBytes pchMessageStart hash2 pszCommand payload
  | .socketSendData => []

/-- The messages that are queued, one after the other. -/
def queuedBytes (steps : List SendStep) : List UInt8 := steps.flatMap (SendStep.message pchMessageStart hash2)

variable {pchMessageStart hash2}

variable (pchMessageStart hash2) in
theorem SendStep.run_queue {queued : List UInt8} {node : SendNode} (queue : SendNode.Queue queued node)
    (step : SendStep) : ∃ node', step.run pchMessageStart hash2 node = .ok node' ∧
      SendNode.Queue (queued ++ step.message pchMessageStart hash2) node' := by
  cases step with
  | endMessage pszCommand payload dropped => exact queue.pushMessage pszCommand payload dropped
  | socketSendData =>
    obtain ⟨node', run, queue'⟩ := queue.socketSendData
    exact ⟨node', run, by rwa [message, List.append_nil]⟩

theorem foldlM_queue {queued : List UInt8} {node : SendNode} (queue : SendNode.Queue queued node)
    (steps : List SendStep) : ∃ node', steps.foldlM (SendStep.run pchMessageStart hash2) node = .ok node' ∧
      SendNode.Queue (queued ++ queuedBytes pchMessageStart hash2 steps) node' := by
  induction steps generalizing queued node with
  | nil =>
    refine ⟨node, rfl, ?_⟩
    rwa [queuedBytes, List.flatMap_nil, List.append_nil]
  | cons step steps ih =>
    obtain ⟨next, run, queue'⟩ := step.run_queue pchMessageStart hash2 queue
    obtain ⟨node', rest, done⟩ := ih queue'
    refine ⟨node', ?_, ?_⟩
    · rw [List.foldlM_cons, run]
      exact rest
    · rwa [queuedBytes, List.flatMap_cons, ← List.append_assoc]

/-- In every run no assertion fails, the socket has accepted a prefix of what has been queued, and the rest is still
there: the sizes are those of the messages in the queue, and the offset is inside the first of them. Answers that end
early show the moments within a step. -/
theorem sendRun_queue (answers : List SendResult) (steps : List SendStep) :
    ∃ node, sendRun pchMessageStart hash2 answers steps = .ok node ∧
      node.accepted <+: queuedBytes pchMessageStart hash2 steps ∧
      node.accepted ++ node.vSendMsg.flatten.drop node.nSendOffset = queuedBytes pchMessageStart hash2 steps ∧
      node.nSendSize = (node.vSendMsg.map List.length).sum ∧
      (∀ data ∈ node.vSendMsg.head?, node.nSendOffset < data.length) ∧
      (node.vSendMsg = [] → node.nSendOffset = 0) := by
  have start : SendNode.Queue [] { answers := answers } := ⟨rfl, rfl, rfl, fun _ => rfl, nofun, nofun⟩
  obtain ⟨node, run, queue⟩ := foldlM_queue start steps
  have pending := queue.pending
  refine ⟨node, run, ⟨_, pending.bytes⟩, pending.bytes, ?_, pending.offset, pending.empty⟩
  rw [pending.size, List.length_flatten]

end BitCrystal
