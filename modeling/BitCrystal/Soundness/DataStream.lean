import BitCrystal.Machine.ReadBuffers
import BitCrystal.Model.DataStream

/-! # A stream as a queue of bytes

What comes out of a `CDataStream` is what comes out of a queue that can be rewound, unless the stream itself is written
or taken as a whole while bytes that have been read are kept in its buffer, or a position leaves 32 bits.
-/

namespace BitCrystal

open StateAction
open Socket (memcpyAt)

/-- What the operations mean for the queue. -/
def queueStep : StreamOp → RewindQueue UInt8 → Except Failure StreamResult × RewindQueue UInt8
  | .write source, q => (.ok .done, q.put source)
  | .read nSize, q =>
    if q.queue.length < nSize.toNat then (.error (.throws "CDataStream::read() : end of data"), q)
    else (.ok (.bytes (q.queue.take nSize.toNat)), q.take nSize.toNat)
  | .ignore nSize, q =>
    if q.queue.length < nSize.toNat then (.error (.throws "CDataStream::ignore() : end of data"), q)
    else (.ok .done, q.take nSize.toNat)
  | .insertFill n x, q => (.ok .done, q.insert (List.replicate n x))
  | .insert source, q => (.ok .done, q.putFront source)
  | .erase, q => (.ok .done, q.take 1)
  | .eraseRange n, q => (.ok .done, q.take n)
  | .rewind n, q => if n ≤ q.before.length then (.ok (.flag true), q.rewind n) else (.ok (.flag false), q)
  | .compact, q => (.ok .done, q.compact)
  | .serialize, q => (.ok (.bytes q.queue), q)
  | .getAndClear, q => (.ok (.bytes q.queue), .ofList [])

/-- What the callers see to: sizes are not negative, and what is erased is there. -/
def StreamOp.InBounds (q : RewindQueue UInt8) : StreamOp → Prop
  | .read nSize => 0 ≤ nSize
  | .ignore nSize => 0 ≤ nSize
  | .erase => 0 < q.queue.length
  | .eraseRange n => n ≤ q.queue.length
  | _ => True

/-- The read position does not leave its 32 bits, and nothing that has been read is kept when the buffer comes out. -/
def StreamOp.Fits (s : CDataStream) : StreamOp → Prop
  | .read nSize => s.nReadPos + nSize.toNat < 2 ^ 32
  | .ignore nSize => s.nReadPos + nSize.toNat < 2 ^ 32
  | .insert source => source.length < 2 ^ 32 ∨ s.nReadPos < uint32 source.length
  | .erase => s.nReadPos + 1 < 2 ^ 32
  | .eraseRange n => s.nReadPos + n < 2 ^ 32 ∨ s.nReadPos + n = s.vch.length
  | .serialize => s.nReadPos = 0
  | .getAndClear => s.nReadPos = 0
  | _ => True

namespace CDataStream

/-- The stream holds the queue, behind what can be brought back. -/
structure Shows (q : RewindQueue UInt8) (s : CDataStream) : Prop where
  vch : s.vch = q.before ++ q.queue
  nReadPos : s.nReadPos = q.before.length
  bound : s.nReadPos < 2 ^ 32
  state : s.state = 0 ∨ s.state = failbit
  exceptmask : s.exceptmask = badbit ||| failbit

namespace Shows

variable {q : RewindQueue UInt8} {s : CDataStream} (shows : Shows q s)
include shows

theorem length : s.vch.length = s.nReadPos + q.queue.length := by
  rw [shows.vch, List.length_append, shows.nReadPos]

theorem bytes : s.bytes = q.queue := by
  rw [CDataStream.bytes, shows.vch, shows.nReadPos, List.drop_left]

theorem size : s.size = q.queue.length := by
  rw [CDataStream.size, shows.length]
  omega

theorem at? (i : ℕ) : s.at? i = q.queue[i]? := by
  rw [CDataStream.at?, shows.vch, shows.nReadPos, List.getElem?_append_right (by omega), Nat.add_sub_cancel]

/-- A position lies behind the buffer when the queue has fewer bytes than it is ahead. -/
theorem length_lt_iff {n : ℕ} : s.vch.length < s.nReadPos + n ↔ q.queue.length < n := by
  rw [shows.length]
  exact Nat.add_lt_add_iff_left

/-- A read position further on, or an empty buffer when it would be at the end. -/
theorem take {n : ℕ} (inside : n ≤ q.queue.length) (fits : s.nReadPos + n < 2 ^ 32 ∨ n = q.queue.length) :
    Shows (q.take n) (if n = q.queue.length then { s with vch := [], nReadPos := 0 }
      else { s with nReadPos := s.nReadPos + n }) := by
  unfold RewindQueue.take
  split
  next all => exact ⟨by rw [all, List.drop_length]; rfl, rfl, Nat.two_pow_pos 32, shows.state, shows.exceptmask⟩
  next part =>
    refine ⟨?_, ?_, fits.resolve_right part, shows.state, shows.exceptmask⟩
    · rw [List.append_assoc, List.take_append_drop]
      exact shows.vch
    · simp only [List.length_append, List.length_take, shows.nReadPos]
      omega

/-- A failure throws, and leaves a mark. -/
theorem setstate (psz : String) : ∃ s', CDataStream.setstate failbit psz s = (.error (.throws psz), s') ∧ Shows q s' := by
  have bits : (s.state ||| failbit) &&& s.exceptmask ≠ 0 ∧ s.state ||| failbit = failbit := by
    rw [shows.exceptmask]
    rcases shows.state with state | state
    · rw [state]
      decide
    · rw [state]
      decide
  refine ⟨{ s with state := s.state ||| failbit }, ?_, shows.vch, shows.nReadPos, shows.bound, .inr bits.2, shows.exceptmask⟩
  rw [CDataStream.setstate, modify_bind, get_bind]
  exact congrFun (if_pos bits.1) _

/-- What `read` and `ignore` have in common: `whole` at the end of the bytes, `part` before it. -/
def advance {α : Type} (nSize : ℤ) (psz : String) (whole part : CDataStream → StateAction CDataStream Failure α) :
    StateAction CDataStream Failure α := do
  .lift (rejectIf (nSize < 0) (.assertion "nSize >= 0"))
  let s ← .get
  if uint32 (s.nReadPos + nSize.toNat) ≥ s.vch.length then
    if uint32 (s.nReadPos + nSize.toNat) > s.vch.length then CDataStream.setstate failbit psz
    whole s
  else part s

section

variable {nSize : ℤ} (natural : 0 ≤ nSize) (fits : s.nReadPos + nSize.toNat < 2 ^ 32)
  {α : Type} {psz : String} {whole part : CDataStream → StateAction CDataStream Failure α}
include natural fits

theorem advance_beyond (short : q.queue.length < nSize.toNat) :
    ∃ s', advance nSize psz whole part s = (.error (.throws psz), s') ∧ Shows q s' := by
  obtain ⟨s', thrown, shows'⟩ := shows.setstate psz
  have behind := shows.length_lt_iff.mpr short
  rw [advance, rejectIf, if_neg (not_lt.mpr natural), lift_bind_ok, get_bind]
  simp only [uint32_of_lt fits, ge_iff_le, behind.le, if_true, gt_iff_lt, behind]
  exact ⟨s', bind_of_error thrown, shows'⟩

theorem advance_within (inside : nSize.toNat ≤ q.queue.length) :
    advance nSize psz whole part s = if nSize.toNat = q.queue.length then whole s s else part s s := by
  have length := shows.length
  have ahead := shows.length_lt_iff.not.mpr (not_lt.mpr inside)
  rw [advance, rejectIf, if_neg (not_lt.mpr natural), lift_bind_ok, get_bind]
  simp only [uint32_of_lt fits, gt_iff_lt, ahead, if_false]
  rcases inside.eq_or_lt with all | part
  · rw [if_pos (by omega), if_pos all]
  · rw [if_neg (by omega), if_neg part.ne]

theorem read_within (inside : nSize.toNat ≤ q.queue.length) : ∃ s', CDataStream.read nSize s =
    (.ok (q.queue.take nSize.toNat), s') ∧ Shows (q.take nSize.toNat) s' := by
  refine ⟨_, (shows.advance_within natural fits inside).trans ?_, shows.take inside (.inl fits)⟩
  have ahead := shows.length_lt_iff.not.mpr (not_lt.mpr inside)
  rw [uint32_of_lt fits, shows.bytes]
  split
  next all =>
    rw [all, Nat.sub_self, List.take_length, List.replicate_zero, List.append_nil]
    rfl
  next =>
    rw [rejectIf, if_neg ahead]
    rfl

theorem ignore_within (inside : nSize.toNat ≤ q.queue.length) : ∃ s', CDataStream.ignore nSize s =
    (.ok (), s') ∧ Shows (q.take nSize.toNat) s' := by
  refine ⟨_, (shows.advance_within natural fits inside).trans ?_, shows.take inside (.inl fits)⟩
  rw [uint32_of_lt fits]
  split <;> rfl

end

theorem inserted (source : List UInt8) :
    s.vch.take s.nReadPos ++ source ++ s.vch.drop s.nReadPos = q.before ++ (source ++ q.queue) := by
  rw [shows.vch, shows.nReadPos, List.take_left, List.drop_left, List.append_assoc]

theorem insert {source : List UInt8} (fits : source.length < 2 ^ 32 ∨ s.nReadPos < uint32 source.length) :
    ∃ s', CDataStream.insert s.nReadPos source s = (.ok (), s') ∧ Shows (q.putFront source) s' := by
  have position := shows.nReadPos
  have bound := shows.bound
  rw [CDataStream.insert, get_bind]
  by_cases room : uint32 source.length ≤ s.nReadPos
  · have length : uint32 source.length = source.length := uint32_of_lt (fits.resolve_right (not_lt.mpr room))
    rw [length] at room
    have next : uint32 (s.nReadPos + 2 ^ 32 - source.length) = s.nReadPos - source.length := by
      rw [uint32]
      omega
    have split : s.vch = q.before.take (s.nReadPos - source.length) ++ q.before.drop (s.nReadPos - source.length) ++
        q.queue := by
      rw [List.take_append_drop, shows.vch]
    have copied : memcpyAt s.vch (s.nReadPos - source.length) source =
        .ok (q.before.take (s.nReadPos - source.length) ++ source ++ q.queue) := by
      rw [split]
      apply Socket.memcpyAt_field
      · rw [List.length_take]
        omega
      · rw [List.length_drop]
        omega
    have front : q.putFront source = ⟨q.before.take (s.nReadPos - source.length), source ++ q.queue⟩ := by
      rw [RewindQueue.putFront, if_pos (by omega), position]
    have moved : s.nReadPos - source.length = (q.before.take (s.nReadPos - source.length)).length := by
      rw [List.length_take]
      omega
    simp only [length, room, and_self, if_true, next, copied]
    rw [front]
    exact ⟨_, rfl, List.append_assoc .., moved, (Nat.sub_le ..).trans_lt bound, shows.state, shows.exceptmask⟩
  · have far : ¬(s.nReadPos = s.nReadPos ∧ uint32 source.length ≤ s.nReadPos) := fun both => room both.2
    have longer : ¬source.length ≤ q.before.length := by
      have := Nat.mod_le source.length (2 ^ 32)
      rw [uint32] at room
      omega
    have front : q.putFront source = ⟨q.before, source ++ q.queue⟩ := by rw [RewindQueue.putFront, if_neg longer]
    rw [if_neg far, front]
    exact ⟨_, rfl, shows.inserted source, position, bound, shows.state, shows.exceptmask⟩

theorem erase (positive : 0 < q.queue.length) (fits : s.nReadPos + 1 < 2 ^ 32) :
    Shows (q.take 1) (s.erase s.nReadPos) := by
  have length := shows.length
  have taken := shows.take positive (.inl fits)
  rw [CDataStream.erase, if_pos rfl]
  simp only [uint32_of_lt fits]
  split
  next finish =>
    rwa [if_pos (by omega)] at taken
  next more => rwa [if_neg (by omega)] at taken

theorem eraseRange {n : ℕ} (inside : n ≤ q.queue.length)
    (fits : s.nReadPos + n < 2 ^ 32 ∨ s.nReadPos + n = s.vch.length) :
    Shows (q.take n) (s.eraseRange s.nReadPos (s.nReadPos + n)) := by
  have length := shows.length
  have taken := shows.take inside (fits.imp_right (by omega))
  rw [CDataStream.eraseRange, if_pos rfl]
  split
  next finish => rwa [if_pos (by omega)] at taken
  next more =>
    rw [if_neg (by omega)] at taken
    rwa [uint32_of_lt (fits.resolve_right more)]

theorem rewind (n : ℕ) : s.rewind n = if n ≤ q.before.length then (true, { s with nReadPos := s.nReadPos - n })
    else (false, s) := by
  rw [CDataStream.rewind, shows.nReadPos]
  split
  · rw [if_neg (by omega)]
  · rw [if_pos (by omega)]

theorem rewound {n : ℕ} (kept : n ≤ q.before.length) : Shows (q.rewind n) { s with nReadPos := s.nReadPos - n } where
  vch := by
    rw [RewindQueue.rewind, ← List.append_assoc, List.take_append_drop]
    exact shows.vch
  nReadPos := by
    have position := shows.nReadPos
    simp only [RewindQueue.rewind, List.length_take]
    omega
  bound := (Nat.sub_le ..).trans_lt shows.bound
  state := shows.state
  exceptmask := shows.exceptmask

/-- The buffer is the queue just when nothing that has been read is kept. -/
theorem vch_eq_iff : s.vch = q.queue ↔ s.nReadPos = 0 := by
  rw [shows.vch, shows.nReadPos, List.length_eq_zero_iff]
  exact List.append_left_eq_self

end Shows

/-- An operation that fits does to the stream what it means for the queue. -/
theorem Shows.step {q : RewindQueue UInt8} {s : CDataStream} (shows : Shows q s) {op : StreamOp}
    (inside : op.InBounds q) (fits : op.Fits s) :
    (op.run s).1 = (queueStep op q).1 ∧ Shows (queueStep op q).2 (op.run s).2 := by
  cases op with
  | write source =>
    refine ⟨rfl, ?_, shows.nReadPos, shows.bound, shows.state, shows.exceptmask⟩
    change s.vch ++ source = q.before ++ (q.queue ++ source)
    rw [shows.vch, List.append_assoc]
  | read nSize =>
    rcases Nat.lt_or_ge q.queue.length nSize.toNat with short | enough
    · obtain ⟨s', read, shows'⟩ : ∃ s', CDataStream.read nSize s = _ ∧ Shows q s' := shows.advance_beyond inside fits short
      rw [StreamOp.run, bind_of_error read, queueStep, if_pos short]
      exact ⟨rfl, shows'⟩
    · obtain ⟨s', read, shows'⟩ := shows.read_within inside fits enough
      rw [StreamOp.run, bind_of_ok read, queueStep, if_neg (not_lt.mpr enough)]
      exact ⟨rfl, shows'⟩
  | ignore nSize =>
    rcases Nat.lt_or_ge q.queue.length nSize.toNat with short | enough
    · obtain ⟨s', ignored, shows'⟩ : ∃ s', CDataStream.ignore nSize s = _ ∧ Shows q s' :=
        shows.advance_beyond inside fits short
      rw [StreamOp.run, bind_of_error ignored, queueStep, if_pos short]
      exact ⟨rfl, shows'⟩
    · obtain ⟨s', ignored, shows'⟩ := shows.ignore_within inside fits enough
      rw [StreamOp.run, bind_of_ok ignored, queueStep, if_neg (not_lt.mpr enough)]
      exact ⟨rfl, shows'⟩
  | insertFill n x =>
    exact ⟨rfl, shows.inserted _, shows.nReadPos, shows.bound, shows.state, shows.exceptmask⟩
  | insert source =>
    obtain ⟨s', inserted, shows'⟩ := shows.insert fits
    rw [StreamOp.run, get_bind, bind_of_ok inserted]
    exact ⟨rfl, shows'⟩
  | erase => exact ⟨rfl, shows.erase inside fits⟩
  | eraseRange n => exact ⟨rfl, shows.eraseRange inside fits⟩
  | rewind n =>
    change (Except.ok (.flag (s.rewind n).1) : Except Failure StreamResult) = _ ∧ Shows _ (s.rewind n).2
    rw [shows.rewind, queueStep]
    split
    next kept => exact ⟨rfl, shows.rewound kept⟩
    next => exact ⟨rfl, shows⟩
  | compact => exact ⟨rfl, shows.bytes, rfl, Nat.two_pow_pos 32, shows.state, shows.exceptmask⟩
  | serialize =>
    refine ⟨?_, shows⟩
    exact congrArg (fun bytes => (Except.ok (.bytes bytes) : Except Failure StreamResult)) (shows.vch_eq_iff.mpr fits)
  | getAndClear =>
    refine ⟨?_, rfl, fits, shows.bound, shows.state, shows.exceptmask⟩
    exact congrArg (fun bytes => (Except.ok (.bytes bytes) : Except Failure StreamResult)) (shows.vch_eq_iff.mpr fits)

end CDataStream

/-- The results of the operations on the queue. -/
def queueRun : List StreamOp → RewindQueue UInt8 → List (Except Failure StreamResult) × RewindQueue UInt8
  | [], q => ([], q)
  | op :: ops, q =>
    let (result, q) := queueStep op q
    let (results, q) := queueRun ops q
    (result :: results, q)

/-- Every step is within bounds and fits the stream before it. -/
def FitsRun : List StreamOp → RewindQueue UInt8 → CDataStream → Prop
  | [], _, _ => True
  | op :: ops, q, s => (op.InBounds q ∧ op.Fits s) ∧ FitsRun ops (queueStep op q).2 (op.run s).2

namespace CDataStream

theorem Shows.run {q : RewindQueue UInt8} {s : CDataStream} (shows : Shows q s) {ops : List StreamOp}
    (fits : FitsRun ops q s) :
    (streamRun ops s).1 = (queueRun ops q).1 ∧ Shows (queueRun ops q).2 (streamRun ops s).2 := by
  induction ops generalizing q s with
  | nil => exact ⟨rfl, shows⟩
  | cons op ops ih =>
    obtain ⟨result, shows'⟩ := shows.step fits.1.1 fits.1.2
    obtain ⟨results, last⟩ := ih shows' fits.2
    exact ⟨congrArg₂ List.cons result results, last⟩

theorem shows_start (vch : List UInt8) : Shows (.ofList vch) { vch := vch } :=
  ⟨rfl, rfl, Nat.two_pow_pos 32, .inl rfl, rfl⟩

/-- In a run whose steps fit, a stream gives what the queue gives, and shows its bytes at the end: reading and ignoring
throw just when there are not as many, and what has just been read can be put back. What `Serialize` and `GetAndClear`
give are these bytes just when nothing that has been read is kept. -/
theorem dataStream_fifo (vch : List UInt8) (ops : List StreamOp) (fits : FitsRun ops (.ofList vch) { vch := vch }) :
    ∃ q s, queueRun ops (.ofList vch) = ((streamRun ops { vch := vch }).1, q) ∧
      (streamRun ops { vch := vch }).2 = s ∧
      s.bytes = q.queue ∧ s.size = q.queue.length ∧ (∀ i, s.at? i = q.queue[i]?) ∧
      (s.serialize = q.queue ↔ s.nReadPos = 0) ∧ (s.getAndClear.1 = q.queue ↔ s.nReadPos = 0) ∧
      ∀ nSize : ℤ, 0 ≤ nSize → s.nReadPos + nSize.toNat < 2 ^ 32 → nSize.toNat ≤ q.queue.length →
        ∃ bytes s' s'', CDataStream.read nSize s = (.ok bytes, s') ∧
          CDataStream.insert s'.nReadPos bytes s' = (.ok (), s'') ∧ s''.bytes = s.bytes := by
  obtain ⟨results, shows⟩ := (shows_start vch).run fits
  refine ⟨_, _, Prod.ext results.symm rfl, rfl, shows.bytes, shows.size, shows.at?, shows.vch_eq_iff, shows.vch_eq_iff, ?_⟩
  intro nSize natural inside enough
  obtain ⟨s', read, taken⟩ := shows.read_within natural inside enough
  have short : ((queueRun ops (.ofList vch)).2.queue.take nSize.toNat).length < 2 ^ 32 := by
    rw [List.length_take]
    omega
  obtain ⟨s'', inserted, restored⟩ := taken.insert (.inl short)
  refine ⟨_, s', s'', read, inserted, ?_⟩
  rw [restored.bytes, shows.bytes, RewindQueue.putFront_take]

/-- Five bytes of which two are read, one is put back, and the rest comes out after compacting. -/
theorem dataStream_fifo_five : ∃ q s, queueRun [.read 2, .insert [9], .compact, .serialize] (.ofList [1, 2, 3, 4, 5]) =
      ((streamRun [.read 2, .insert [9], .compact, .serialize] { vch := [1, 2, 3, 4, 5] }).1, q) ∧
    (streamRun [.read 2, .insert [9], .compact, .serialize] { vch := [1, 2, 3, 4, 5] }).2 = s ∧ s.bytes = q.queue := by
  obtain ⟨q, s, results, last, bytes, -⟩ := dataStream_fifo [1, 2, 3, 4, 5] [.read 2, .insert [9], .compact, .serialize]
    ⟨⟨(by decide : (0 : ℤ) ≤ 2), (by decide : 0 + (2 : ℤ).toNat < 2 ^ 32)⟩, ⟨trivial, .inl (by decide)⟩, ⟨trivial, trivial⟩, ⟨trivial, rfl⟩, trivial⟩
  exact ⟨q, s, results, last, bytes⟩

/-- A byte that has been read comes out again, with the stream and when it is cleared, after which the position stays. -/
theorem dataStream_not_fifo :
    (streamRun [.read 1, .serialize] { vch := [1, 2] }).1 = [.ok (.bytes [1]), .ok (.bytes [1, 2])] ∧
    (queueRun [.read 1, .serialize] (.ofList [1, 2])).1 = [.ok (.bytes [1]), .ok (.bytes [2])] ∧
    (streamRun [.read 1, .getAndClear] { vch := [1, 2] }).1 = [.ok (.bytes [1]), .ok (.bytes [1, 2])] ∧
    (streamRun [.read 1, .getAndClear] { vch := [1, 2] }).2.size = -1 := ⟨rfl, rfl, rfl, rfl⟩

end CDataStream

end BitCrystal
