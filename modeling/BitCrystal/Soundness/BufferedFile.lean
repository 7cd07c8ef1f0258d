import BitCrystal.Machine.ReadBuffers
import BitCrystal.Model.BufferedFile

/-! # What is read through the ring buffer is the file

The buffer holds the last bytes that have been read from the source since it was positioned. As long as the reading
position stays among these, reading and searching see the bytes of the file.
-/

namespace BitCrystal

open StateAction CBufferedFile
open Socket (memcpyAt)
open RingBuffer

namespace SourceFile

variable (src : SourceFile) (n : ℕ)

/-- `fread` gives bytes from the position on, and everything that is there unless it is cut short. -/
theorem fread_spec : ∃ k, k ≤ n ∧ (src.fread n).1 = (src.content.drop src.pos).take k ∧
    (src.fread n).1.length = k ∧ (src.fread n).2.content = src.content ∧ (src.fread n).2.pos = src.pos + k ∧
    (src.answers = [] → (src.fread n).2.answers = [] ∧ (k = 0 → 0 < n → src.content.length ≤ src.pos)) := by
  refine ⟨((src.content.drop src.pos).take (min (src.answers.headD n) n)).length, ?_, ?_, rfl, rfl, rfl, fun regular => ?_⟩
  · rw [List.length_take]
    omega
  · rw [fread, List.length_take, List.take_eq_take_iff]
    omega
  · rw [fread, regular]
    refine ⟨rfl, fun zero positive => ?_⟩
    rw [List.length_take, List.length_drop, List.headD_nil] at zero
    omega

end SourceFile

namespace CBufferedFile

/-- The bytes of the file from `start` on have been read from the source, and the reading position is among them. -/
structure Reads (content : List UInt8) (start : ℕ) (s : CBufferedFile) : Prop where
  file : s.src.content = content
  pos : s.src.pos = s.nSrcPos
  above : start ≤ s.nReadPos
  below : s.nReadPos ≤ s.nSrcPos
  young : s.nRewind ≤ s.vchBuf.length → s.nSrcPos ≤ s.nReadPos + s.vchBuf.length
  holds : RingBuffer.Holds s.vchBuf content start s.nSrcPos
  bound : s.nSrcPos < 2 ^ 63

/-- What no reading changes, and whether the file still gives everything that is there. -/
structure Frame (s s' : CBufferedFile) : Prop where
  nRewind : s'.nRewind = s.nRewind
  nReadLimit : s'.nReadLimit = s.nReadLimit
  size : s'.vchBuf.length = s.vchBuf.length
  regular : s.src.answers = [] → s'.src.answers = []

theorem Frame.refl (s : CBufferedFile) : Frame s s := ⟨rfl, rfl, rfl, id⟩

theorem Frame.trans {s s' s'' : CBufferedFile} (first : Frame s s') (second : Frame s' s'') : Frame s s'' :=
  ⟨second.nRewind.trans first.nRewind, second.nReadLimit.trans first.nReadLimit, second.size.trans first.size,
    fun regular => second.regular (first.regular regular)⟩

variable {content : List UInt8} {start : ℕ} {s : CBufferedFile}

/-- The buffer has room besides what can be rewound, and its positions have 32 bits. -/
structure Roomy (s : CBufferedFile) : Prop where
  rewind : s.nRewind < s.vchBuf.length
  narrow : s.vchBuf.length < 2 ^ 32

theorem Frame.roomy {s' : CBufferedFile} (frame : Frame s s') (roomy : Roomy s) : Roomy s' := by
  refine ⟨?_, ?_⟩
  · rw [frame.nRewind, frame.size]
    exact roomy.rewind
  · rw [frame.size]
    exact roomy.narrow

theorem Roomy.cell (roomy : Roomy s) (p : ℕ) : p % s.vchBuf.length < s.vchBuf.length ∧
    uint32 (p % s.vchBuf.length) = p % s.vchBuf.length := by
  have inside := Nat.mod_lt p (Nat.zero_lt_of_lt roomy.rewind)
  exact ⟨inside, uint32_of_lt (inside.trans roomy.narrow)⟩

theorem Roomy.readNow (roomy : Roomy s) (all : s.nReadPos = s.nSrcPos) :
    0 < s.readNow ∧ s.nSrcPos % s.vchBuf.length + s.readNow ≤ s.vchBuf.length ∧ s.readNow ≤ s.vchBuf.length := by
  obtain ⟨inside, same⟩ := roomy.cell s.nSrcPos
  have rewind := roomy.rewind
  have narrow := roomy.narrow
  have avail : ((s.vchBuf.length - (s.nSrcPos - s.nReadPos) - s.nRewind : ℤ) % 2 ^ 32).toNat =
      s.vchBuf.length - s.nRewind := by
    rw [all]
    omega
  rw [CBufferedFile.readNow, same, avail, uint32_of_lt (by omega)]
  omega

theorem memcpyAt_eq {buffer source : List UInt8} {pos : ℕ} (fits : pos + source.length ≤ buffer.length) :
    memcpyAt buffer pos source = .ok (overwrite buffer pos source) := by
  rw [memcpyAt, rejectIf, if_neg (not_lt.mpr fits)]
  rfl

/-- Filling reads on, unless there is nothing more. -/
theorem Reads.fill (reads : Reads content start s) (roomy : Roomy s) (all : s.nReadPos = s.nSrcPos) :
    ∃ result s', CBufferedFile.fill s = (result, s') ∧ Reads content start s' ∧ Frame s s' ∧
      s'.nReadPos = s.nReadPos ∧ ((result = .ok true ∧ s'.nReadPos < s'.nSrcPos) ∨
        ∃ psz, result = .error (.throws psz) ∧ (s.src.answers = [] → content.length ≤ s.nReadPos)) := by
  obtain ⟨positive, fits, most⟩ := roomy.readNow all
  obtain ⟨k, few, bytes, length, sameContent, position, regular⟩ := s.src.fread_spec s.readNow
  have nonzero : s.vchBuf.length ≠ 0 := by
    have := roomy.rewind
    omega
  rw [CBufferedFile.fill, StateAction.get_bind, rejectIf, if_neg nonzero, StateAction.lift_bind_ok]
  simp only [positive.ne', if_false, modify_bind, length]
  rcases Nat.eq_zero_or_pos k with rfl | read
  · rw [if_pos rfl]
    refine ⟨_, _, rfl, ?_, ⟨rfl, rfl, rfl, fun answers => (regular answers).1⟩, rfl, .inr ⟨_, rfl, fun answers => ?_⟩⟩
    · exact ⟨sameContent.trans reads.file, position.trans reads.pos, reads.above, reads.below, reads.young, reads.holds,
        reads.bound⟩
    · have behind := (regular answers).2 rfl positive
      rw [reads.file, reads.pos] at behind
      exact behind.trans all.ge
  · have inside : (s.nSrcPos % s.vchBuf.length) + (s.src.fread s.readNow).1.length ≤ s.vchBuf.length := by
      rw [length]
      omega
    rw [if_neg read.ne', (roomy.cell s.nSrcPos).2, memcpyAt_eq inside, StateAction.lift_bind_ok,
      modify_bind]
    have source : (s.src.fread s.readNow).1 = (content.drop s.nSrcPos).take k := by
      rw [bytes, reads.file, reads.pos]
    have taken : ((content.drop s.nSrcPos).take k).length = k := by rw [← source, length]
    have size := length_overwrite inside
    refine ⟨_, _, rfl, ⟨sameContent.trans reads.file, ?_, reads.above, ?_, fun _ => ?_, ?_, ?_⟩,
      ⟨rfl, rfl, size, fun answers => (regular answers).1⟩, rfl, .inl ⟨rfl, ?_⟩⟩
    · exact position.trans (congrArg (· + k) reads.pos)
    · exact reads.below.trans (Nat.le_add_right ..)
    · change s.nSrcPos + k ≤ s.nReadPos + (overwrite s.vchBuf _ (s.src.fread s.readNow).1).length
      rw [size]
      omega
    · rw [source]
      exact reads.holds.extend taken (by omega)
    · have fileSize := s.src.size
      rw [List.length_take, List.length_drop] at taken
      rw [reads.file] at fileSize
      change s.nSrcPos + k < 2 ^ 63
      omega
    · change s.nReadPos < s.nSrcPos + k
      omega

/-- After refilling there is something to read. -/
theorem Reads.refill (reads : Reads content start s) (roomy : Roomy s) :
    ∃ result s', CBufferedFile.refill s = (result, s') ∧ Reads content start s' ∧ Frame s s' ∧
      s'.nReadPos = s.nReadPos ∧ ((result = .ok () ∧ s'.nReadPos < s'.nSrcPos) ∨
        ∃ psz, result = .error (.throws psz) ∧ (s.src.answers = [] → content.length ≤ s.nReadPos)) := by
  rw [CBufferedFile.refill, StateAction.get_bind]
  split
  next all =>
    obtain ⟨result, s', filled, reads', frame, position, ⟨rfl, more⟩ | ⟨psz, rfl, ended⟩⟩ := reads.fill roomy all
    · exact ⟨_, s', bind_of_ok filled, reads', frame, position, .inl ⟨rfl, more⟩⟩
    · exact ⟨_, s', bind_of_error filled, reads', frame, position, .inr ⟨psz, rfl, ended⟩⟩
  next unread => exact ⟨.ok (), s, rfl, reads, .refl s, rfl, .inl ⟨rfl, lt_of_le_of_ne reads.below unread⟩⟩

variable {nSize nPos : ℕ}

section

variable (reads : Reads content start s)
include reads

theorem Reads.nNow (roomy : Roomy s) (more : s.nReadPos < s.nSrcPos)
    (positive : 0 < nSize) : 0 < s.nNow nSize ∧ s.nNow nSize ≤ nSize ∧
      s.nReadPos % s.vchBuf.length + s.nNow nSize ≤ s.vchBuf.length ∧ s.nReadPos + s.nNow nSize ≤ s.nSrcPos := by
  obtain ⟨inside, same⟩ := roomy.cell s.nReadPos
  have bound := reads.bound
  rw [CBufferedFile.nNow, same]
  split
  next beyond =>
    have left : uint64 (s.nSrcPos + 2 ^ 64 - s.nReadPos) = s.nSrcPos - s.nReadPos := by
      rw [uint64]
      omega
    rw [left]
    omega
  next within => omega

/-- A part of the buffer at the reading position is a part of the file. -/
theorem Reads.copy (roomy : Roomy s) {n : ℕ}
    (inside : s.nReadPos % s.vchBuf.length + n ≤ s.vchBuf.length) (below : s.nReadPos + n ≤ s.nSrcPos) :
    s.copy (s.nReadPos % s.vchBuf.length) n = .ok ((content.drop s.nReadPos).take n) ∧
      ((content.drop s.nReadPos).take n).length = n := by
  have part := reads.holds.slice reads.above below (reads.young roomy.rewind.le) inside
  rw [CBufferedFile.copy, rejectIf, if_neg (not_lt.mpr inside), ← part]
  refine ⟨rfl, ?_⟩
  rw [List.length_take, List.length_drop]
  omega

/-- The reading position moves on within what has been read from the source. -/
theorem Reads.advance {n : ℕ} (below : s.nReadPos + n ≤ s.nSrcPos) :
    Reads content start { s with nReadPos := s.nReadPos + n } where
  file := reads.file
  pos := reads.pos
  above := reads.above.trans (Nat.le_add_right ..)
  below := below
  young roomy := (reads.young roomy).trans (Nat.add_le_add_right (Nat.le_add_right ..) _)
  holds := reads.holds
  bound := reads.bound

theorem Reads.readLoop (roomy : Roomy s) {rounds : ℕ} (enough : nSize ≤ rounds) :
    ∃ result s', readLoop rounds nSize s = (result, s') ∧ Reads content start s' ∧ Frame s s' ∧
      ((result = .ok ((content.drop s.nReadPos).take nSize) ∧ ((content.drop s.nReadPos).take nSize).length = nSize ∧
        s'.nReadPos = s.nReadPos + nSize) ∨
      ∃ psz, result = .error (.throws psz) ∧ (s.src.answers = [] → content.length < s.nReadPos + nSize)) := by
  induction rounds generalizing s nSize with
  | zero =>
    obtain rfl := Nat.le_zero.mp enough
    exact ⟨.ok [], s, rfl, reads, .refl s, .inl ⟨rfl, rfl, rfl⟩⟩
  | succ rounds ih =>
    cases nSize with
    | zero => exact ⟨.ok [], s, rfl, reads, .refl s, .inl ⟨rfl, rfl, rfl⟩⟩
    | succ nSize =>
      obtain ⟨result, s₁, refilled, reads₁, frame₁, position, ⟨rfl, more⟩ | ⟨psz, rfl, ended⟩⟩ := reads.refill roomy
      · have roomy₁ := frame₁.roomy roomy
        obtain ⟨positive, less, inside, below⟩ := reads₁.nNow roomy₁ more (by omega : 0 < nSize + 1)
        obtain ⟨copied, length⟩ := reads₁.copy roomy₁ inside below
        have nonzero : s₁.vchBuf.length ≠ 0 := by
          have := roomy₁.rewind
          omega
        have next := reads₁.advance below
        have frame₂ : Frame s₁ { s₁ with nReadPos := s₁.nReadPos + s₁.nNow (nSize + 1) } := ⟨rfl, rfl, rfl, id⟩
        have fewer : nSize + 1 - s₁.nNow (nSize + 1) ≤ rounds := by omega
        obtain ⟨result, s', run, reads', frame', outcome⟩ := ih next (frame₂.roomy roomy₁) fewer
        have split : (content.drop s.nReadPos).take (nSize + 1) = (content.drop s₁.nReadPos).take (s₁.nNow (nSize + 1)) ++
            (content.drop (s₁.nReadPos + s₁.nNow (nSize + 1))).take (nSize + 1 - s₁.nNow (nSize + 1)) := by
          rw [← List.drop_drop, ← List.take_add, Nat.add_sub_cancel' less, position]
        rw [readLoop, bind_of_ok refilled, StateAction.get_bind, rejectIf, if_neg nonzero,
          StateAction.lift_bind_ok, (roomy₁.cell _).2, copied, StateAction.lift_bind_ok, modify_bind, length]
        rcases outcome with ⟨rfl, rest, finish⟩ | ⟨psz, rfl, short⟩
        · refine ⟨_, s', bind_of_ok run, reads', (frame₁.trans frame₂).trans frame', .inl ⟨?_, ?_, ?_⟩⟩
          · rw [split]
          · rw [split, List.length_append, length, rest]
            omega
          · simp only at finish
            omega
        · refine ⟨_, s', bind_of_error run, reads', (frame₁.trans frame₂).trans frame',
            .inr ⟨psz, rfl, fun answers => ?_⟩⟩
          have := short (frame₁.regular answers)
          simp only at this
          omega
      · refine ⟨_, s₁, bind_of_error refilled, reads₁, frame₁, .inr ⟨psz, rfl, fun answers => ?_⟩⟩
        have := ended answers
        omega

theorem Reads.read (narrow : s.vchBuf.length < 2 ^ 32)
    (size : nSize + s.nRewind < 2 ^ 64) (position : nSize + s.nReadPos < 2 ^ 64) :
    ∃ result s', CBufferedFile.read nSize s = (result, s') ∧ Reads content start s' ∧
      ((result = .ok ((content.drop s.nReadPos).take nSize) ∧ ((content.drop s.nReadPos).take nSize).length = nSize ∧
        s'.nReadPos = s.nReadPos + nSize) ∨
      ∃ psz, result = .error (.throws psz) ∧ (s.src.answers = [] → nSize + s.nReadPos ≤ s.nReadLimit →
        nSize + s.nRewind ≤ s.vchBuf.length → content.length < s.nReadPos + nSize)) := by
  rw [CBufferedFile.read, StateAction.get_bind, uint64_of_lt size, uint64_of_lt position]
  by_cases past : nSize + s.nReadPos > s.nReadLimit
  · rw [rejectIf, if_pos past]
    exact ⟨_, s, rfl, reads, .inr ⟨_, rfl, fun _ limit => absurd limit (not_le.mpr past)⟩⟩
  rw [rejectIf, if_neg past, StateAction.lift_bind_ok]
  by_cases large : nSize + s.nRewind > s.vchBuf.length
  · rw [rejectIf, if_pos large]
    exact ⟨_, s, rfl, reads, .inr ⟨_, rfl, fun _ _ room => absurd room (not_le.mpr large)⟩⟩
  rw [rejectIf, if_neg large, StateAction.lift_bind_ok]
  rcases Nat.eq_zero_or_pos nSize with rfl | positive
  · exact ⟨_, s, rfl, reads, .inl ⟨rfl, rfl, rfl⟩⟩
  · obtain ⟨result, s', run, reads', -, outcome⟩ := reads.readLoop ⟨by omega, narrow⟩ (le_refl nSize)
    refine ⟨result, s', run, reads', outcome.imp_right ?_⟩
    rintro ⟨psz, thrown, short⟩
    exact ⟨psz, thrown, fun answers _ _ => short answers⟩

theorem Reads.cell (roomy : Roomy s) (more : s.nReadPos < s.nSrcPos) :
    s.vchBuf[s.nReadPos % s.vchBuf.length]? = content[s.nReadPos]? ∧ s.nReadPos < content.length := by
  have same := reads.holds _ reads.above more (reads.young roomy.rewind.le)
  refine ⟨same, ?_⟩
  rw [List.getElem?_eq_getElem (roomy.cell s.nReadPos).1] at same
  exact (List.getElem?_eq_some_iff.mp same.symm).1

theorem Reads.findLoop (roomy : Roomy s) (ch : UInt8) {rounds : ℕ} (positive : 0 < rounds)
    (enough : content.length < rounds + s.nReadPos) :
    ∃ result s', findLoop ch rounds s = (result, s') ∧ Reads content start s' ∧ s.nReadPos ≤ s'.nReadPos ∧
      (∀ i, s.nReadPos ≤ i → i < s'.nReadPos → content[i]? ≠ ch) ∧ ((result = .ok () ∧ content[s'.nReadPos]? = ch) ∨
        ∃ psz, result = .error (.throws psz) ∧ (s.src.answers = [] → content.length ≤ s'.nReadPos)) := by
  induction rounds generalizing s with
  | zero => exact absurd positive (lt_irrefl 0)
  | succ rounds ih =>
    obtain ⟨result, s₁, refilled, reads₁, frame₁, position, ⟨rfl, more⟩ | ⟨psz, rfl, ended⟩⟩ := reads.refill roomy
    · have roomy₁ := frame₁.roomy roomy
      obtain ⟨cell, inside⟩ := reads₁.cell roomy₁ more
      have nonempty : s₁.vchBuf.length ≠ 0 := by
        have := roomy₁.rewind
        omega
      rw [findLoop, bind_of_ok refilled, StateAction.get_bind, rejectIf, if_neg nonempty,
        StateAction.lift_bind_ok, cell]
      by_cases found : content[s₁.nReadPos]? = ch
      · rw [if_pos found]
        refine ⟨_, s₁, rfl, reads₁, position.ge, fun i above below => ?_, .inl ⟨rfl, found⟩⟩
        omega
      · have next := reads₁.advance (n := 1) more
        have frame₂ : Frame s₁ { s₁ with nReadPos := s₁.nReadPos + 1 } := ⟨rfl, rfl, rfl, id⟩
        obtain ⟨result, s', run, reads', above, unmatched, outcome⟩ := ih next (frame₂.roomy roomy₁) (by omega)
          (by simp only; omega)
        rw [if_neg found, modify_bind]
        simp only at above unmatched
        refine ⟨result, s', run, reads', by omega, fun i low high => ?_, outcome.imp_right ?_⟩
        · rcases Nat.lt_or_ge s₁.nReadPos i with later | here
          · exact unmatched i later high
          · obtain rfl : i = s₁.nReadPos := by omega
            exact found
        · rintro ⟨psz, thrown, short⟩
          exact ⟨psz, thrown, fun answers => short (frame₁.regular answers)⟩
    · rw [findLoop, bind_of_error refilled]
      refine ⟨_, s₁, rfl, reads₁, position.ge, fun i above below => ?_, .inr ⟨psz, rfl, fun answers => ?_⟩⟩
      · omega
      · exact (ended answers).trans position.ge

theorem Reads.setPos (fits : start + s.nRewind ≤ s.nSrcPos ∨ start ≤ nPos ∧ nPos + s.nRewind < 2 ^ 64) :
    Reads content start (s.setPos nPos).2 ∧
      ((s.setPos nPos).1 = true ↔ start ≤ nPos ∧ nPos ≤ s.nSrcPos ∧ s.nSrcPos ≤ nPos + s.nRewind) ∧
      ((s.setPos nPos).1 = true → (s.setPos nPos).2.nReadPos = nPos) := by
  have bound := reads.bound
  have low := reads.above
  have high := reads.below
  rw [CBufferedFile.setPos]
  split
  next old =>
    have kept : start + s.nRewind ≤ s.nSrcPos := by
      rcases fits with kept | ⟨above, small⟩
      · exact kept
      · rw [uint64_of_lt small] at old
        omega
    have window : uint64 (s.nSrcPos + 2 ^ 64 - s.nRewind) = s.nSrcPos - s.nRewind := by
      rw [uint64]
      omega
    have outside : ¬(start ≤ nPos ∧ nPos ≤ s.nSrcPos ∧ s.nSrcPos ≤ nPos + s.nRewind) := by
      rw [uint64] at old
      omega
    rw [window]
    refine ⟨⟨reads.file, reads.pos, ?_, ?_, fun roomy => ?_, reads.holds, bound⟩, iff_of_false Bool.false_ne_true outside,
      nofun⟩
    · exact Nat.le_sub_of_add_le kept
    · exact Nat.sub_le ..
    · change s.nRewind ≤ s.vchBuf.length at roomy
      change s.nSrcPos ≤ s.nSrcPos - s.nRewind + s.vchBuf.length
      omega
  next young =>
    split
    next ahead =>
      refine ⟨⟨reads.file, reads.pos, ?_, le_rfl, fun _ => Nat.le_add_right .., reads.holds, bound⟩,
        iff_of_false Bool.false_ne_true fun inside => absurd inside.2.1 (not_le.mpr ahead), nofun⟩
      exact low.trans high
    next inside =>
      have small : uint64 (nPos + s.nRewind) ≤ nPos + s.nRewind := Nat.mod_le ..
      have above : start ≤ nPos := by omega
      refine ⟨⟨reads.file, reads.pos, above, not_lt.mp inside, fun roomy => ?_, reads.holds, bound⟩,
        iff_of_true rfl ⟨above, not_lt.mp inside, by omega⟩, fun _ => rfl⟩
      change s.nRewind ≤ s.vchBuf.length at roomy
      change s.nSrcPos ≤ nPos + s.vchBuf.length
      omega

theorem Reads.setLimit (nPos : ℕ) : Reads content start (s.setLimit nPos).2 := by
  rw [CBufferedFile.setLimit]
  split
  · exact reads
  · exact ⟨reads.file, reads.pos, reads.above, reads.below, reads.young, reads.holds, reads.bound⟩

end

theorem seek_near (near : nPos < 2 ^ 63) : s.seek nPos = (true, { s with
    src := { s.src with pos := nPos, feof := false }, nSrcPos := nPos, nReadPos := nPos, state := 0 }) := by
  have natural : ¬(nPos : ℤ) < 0 := by omega
  rw [CBufferedFile.seek, if_pos near]
  simp only [SourceFile.fseek, if_neg natural, Int.toNat_natCast]

/-- A position that is no `long` is refused. -/
theorem seek_far (far : ¬nPos < 2 ^ 63) (bound : nPos < 2 ^ 64) : s.seek nPos = (false, s) := by
  have negative : (nPos : ℤ) - 2 ^ 64 < 0 := by omega
  rw [CBufferedFile.seek, if_neg far]
  simp only [SourceFile.fseek, if_pos negative]

/-- Seeking starts anew. -/
theorem Reads.seek (reads : Reads content start s) (near : nPos < 2 ^ 63) : Reads content nPos (s.seek nPos).2 := by
  rw [seek_near near]
  exact ⟨reads.file, rfl, le_rfl, le_rfl, fun _ => Nat.le_add_right .., holds_nothing _ _ _, near⟩

end CBufferedFile

/-! ## Runs -/

namespace FileOp

/-- Arguments are of 64 bits, reading and searching have a buffer of fewer than 2^32 bytes, searching has room besides
what can be rewound, and the position that is set, or else the oldest that can be rewound to, has been read. -/
def Fits (start : ℕ) (s : CBufferedFile) : FileOp → Prop
  | .read nSize => s.vchBuf.length < 2 ^ 32 ∧ nSize + s.nRewind < 2 ^ 64 ∧ nSize + s.nReadPos < 2 ^ 64
  | .setPos nPos => start + s.nRewind ≤ s.nSrcPos ∨ start ≤ nPos ∧ nPos + s.nRewind < 2 ^ 64
  | .seek nPos => nPos < 2 ^ 64
  | .setLimit _ => True
  | .findByte _ => s.nRewind < s.vchBuf.length ∧ s.vchBuf.length < 2 ^ 32

instance (start : ℕ) (s : CBufferedFile) : (op : FileOp) → Decidable (op.Fits start s)
  | .read _ => inferInstanceAs (Decidable (_ ∧ _ ∧ _))
  | .setPos _ => inferInstanceAs (Decidable (_ ∨ _ ∧ _))
  | .seek _ => inferInstanceAs (Decidable (_ < _))
  | .setLimit _ => inferInstanceAs (Decidable True)
  | .findByte _ => inferInstanceAs (Decidable (_ ∧ _))

/-- What is expected of an operation on a file of which the bytes from `start` on have been read. -/
def Meets (content : List UInt8) (start : ℕ) (s : CBufferedFile) (result : Except Failure StreamResult)
    (s' : CBufferedFile) : FileOp → Prop
  | .read nSize =>
    (∀ bytes, result = .ok (.bytes bytes) →
      bytes = (content.drop s.nReadPos).take nSize ∧ bytes.length = nSize ∧ s'.nReadPos = s.nReadPos + nSize) ∧
    (s.src.answers = [] → nSize + s.nReadPos ≤ s.nReadLimit → nSize + s.nRewind ≤ s.vchBuf.length →
      s.nReadPos + nSize ≤ content.length → result = .ok (.bytes ((content.drop s.nReadPos).take nSize)))
  | .setPos nPos => ∃ done, result = .ok (.flag done) ∧
    (done = true ↔ start ≤ nPos ∧ nPos ≤ s.nSrcPos ∧ s.nSrcPos ≤ nPos + s.nRewind) ∧
    (done = true → s'.nReadPos = nPos)
  | .seek nPos => result = .ok (.flag (nPos < 2 ^ 63)) ∧ (nPos < 2 ^ 63 → s'.nReadPos = nPos)
  | .setLimit nPos => result = .ok (.flag (s.nReadPos ≤ nPos)) ∧ (s.nReadPos ≤ nPos → s'.nReadLimit = nPos)
  | .findByte ch =>
    s.nReadPos ≤ s'.nReadPos ∧ (∀ i, s.nReadPos ≤ i → i < s'.nReadPos → content[i]? ≠ ch) ∧
    (result = .ok .done → content[s'.nReadPos]? = ch) ∧
    (s.src.answers = [] → (∃ i, s.nReadPos ≤ i ∧ content[i]? = ch) → result = .ok .done)

/-- No index is outside of the buffer, and no loop goes on forever. -/
def Inside (result : Except Failure StreamResult) : Prop :=
  result ≠ .error .undefined ∧ result ≠ .error .diverges

theorem inside_ok (value : StreamResult) : Inside (.ok value) := ⟨nofun, nofun⟩

theorem inside_throws (psz : String) : Inside (.error (.throws psz)) := ⟨nofun, nofun⟩

/-- From where on the bytes before the source position have been read. -/
def next (start : ℕ) : FileOp → ℕ
  | .seek nPos => if nPos < 2 ^ 63 then nPos else start
  | _ => start

theorem run_seek (nPos : ℕ) (s : CBufferedFile) :
    (FileOp.seek nPos).run s = (.ok (.flag (s.seek nPos).1), (s.seek nPos).2) := rfl

theorem run_setLimit (nPos : ℕ) (s : CBufferedFile) :
    (FileOp.setLimit nPos).run s = (.ok (.flag (s.setLimit nPos).1), (s.setLimit nPos).2) := rfl

open CBufferedFile in
theorem meets {content : List UInt8} {start : ℕ} {s : CBufferedFile} (reads : Reads content start s) {op : FileOp}
    (fits : op.Fits start s) : op.Meets content start s (op.run s).1 (op.run s).2 ∧ Inside (op.run s).1 ∧
      Reads content (op.next start) (op.run s).2 := by
  cases op with
  | read nSize =>
    obtain ⟨result, s', run, reads', ⟨rfl, length, position⟩ | ⟨psz, rfl, short⟩⟩ :=
      reads.read fits.1 fits.2.1 fits.2.2
    · rw [FileOp.run, bind_of_ok run]
      refine ⟨⟨?_, fun _ _ _ _ => rfl⟩, inside_ok _, reads'⟩
      intro bytes same
      cases same
      exact ⟨rfl, length, position⟩
    · rw [FileOp.run, bind_of_error run]
      refine ⟨⟨nofun, fun answers limit room there => ?_⟩, inside_throws _, reads'⟩
      exact absurd there (not_le.mpr (short answers limit room))
  | setPos nPos =>
    obtain ⟨reads', window, position⟩ := reads.setPos fits
    exact ⟨⟨_, rfl, window, position⟩, inside_ok _, reads'⟩
  | seek nPos =>
    rw [run_seek, next]
    by_cases near : nPos < 2 ^ 63
    · have reads' := reads.seek near
      rw [seek_near near] at reads' ⊢
      rw [if_pos near]
      exact ⟨⟨by rw [decide_eq_true near], fun _ => rfl⟩, inside_ok _, reads'⟩
    · rw [seek_far near fits, if_neg near]
      exact ⟨⟨by rw [decide_eq_false near], fun less => absurd less near⟩, inside_ok _, reads⟩
  | setLimit nPos =>
    have reads' := reads.setLimit nPos
    rw [run_setLimit]
    by_cases ahead : nPos < s.nReadPos
    · rw [CBufferedFile.setLimit, if_pos ahead] at reads' ⊢
      exact ⟨⟨by rw [decide_eq_false (not_le.mpr ahead)], fun behind => absurd ahead (not_lt.mpr behind)⟩, inside_ok _,
        reads'⟩
    · rw [CBufferedFile.setLimit, if_neg ahead] at reads' ⊢
      exact ⟨⟨by rw [decide_eq_true (not_lt.mp ahead)], fun _ => rfl⟩, inside_ok _, reads'⟩
  | findByte ch =>
    have enough : s.src.content.length + s.vchBuf.length + 1 > content.length := by
      rw [reads.file]
      omega
    obtain ⟨result, s', run, reads', above, unmatched, outcome⟩ := reads.findLoop ⟨fits.1, fits.2⟩ ch (Nat.succ_pos _)
      (enough.trans_le (Nat.le_add_right ..))
    have found : CBufferedFile.findByte ch s = (result, s') := run
    rcases outcome with ⟨rfl, here⟩ | ⟨psz, rfl, short⟩
    · rw [FileOp.run, bind_of_ok found]
      exact ⟨⟨above, unmatched, fun _ => here, fun _ _ => rfl⟩, inside_ok _, reads'⟩
    · rw [FileOp.run, bind_of_error found]
      refine ⟨⟨above, unmatched, nofun, fun answers there => ?_⟩, inside_throws _, reads'⟩
      obtain ⟨i, behind, same⟩ := there
      have inside : i < content.length := (List.getElem?_eq_some_iff.mp same).1
      exact absurd same (unmatched i behind (inside.trans_le (short answers)))

end FileOp

/-- Every step of the run fits. -/
def FitsFile : List FileOp → ℕ → CBufferedFile → Prop
  | [], _, _ => True
  | op :: ops, start, s => op.Fits start s ∧ FitsFile ops (op.next start) (op.run s).2

instance decidableFitsFile : (ops : List FileOp) → (start : ℕ) → (s : CBufferedFile) → Decidable (FitsFile ops start s)
  | [], _, _ => inferInstanceAs (Decidable True)
  | op :: ops, start, s =>
    letI := decidableFitsFile ops (op.next start) (op.run s).2
    inferInstanceAs (Decidable (op.Fits start s ∧ FitsFile ops (op.next start) (op.run s).2))

/-- Every step of the run, which goes on after an exception, does what is expected and stays inside of the buffer. -/
def MeetsFile (content : List UInt8) : List FileOp → ℕ → CBufferedFile → Prop
  | [], _, _ => True
  | op :: ops, start, s => (op.Meets content start s (op.run s).1 (op.run s).2 ∧ FileOp.Inside (op.run s).1) ∧
    MeetsFile content ops (op.next start) (op.run s).2

theorem CBufferedFile.Reads.run {content : List UInt8} {start : ℕ} {s : CBufferedFile}
    (reads : CBufferedFile.Reads content start s) {ops : List FileOp} (fits : FitsFile ops start s) :
    MeetsFile content ops start s := by
  induction ops generalizing start s with
  | nil => trivial
  | cons op ops ih =>
    obtain ⟨meets, inside, reads'⟩ := FileOp.meets reads fits.1
    exact ⟨⟨meets, inside⟩, ih reads' fits.2⟩

/-- In a run whose steps fit, what is read through the buffer is the file, whatever `fread` gives at a time. -/
theorem bufferedFile_reads (content : List UInt8) (size : content.length < 2 ^ 63) (answers : List ℕ)
    (nBufSize nRewind : ℕ) (ops : List FileOp)
    (fits : FitsFile ops 0 (.make { content := content, size := size, answers := answers } nBufSize nRewind)) :
    MeetsFile content ops 0 (.make { content := content, size := size, answers := answers } nBufSize nRewind) := by
  apply CBufferedFile.Reads.run _ fits
  exact ⟨rfl, rfl, le_rfl, le_rfl, fun _ => Nat.zero_le _, RingBuffer.holds_nothing _ _ _, Nat.two_pow_pos 63⟩

theorem bufferedFile_reads_six :
    MeetsFile [1, 2, 3, 4, 5, 6] [.read 2, .setPos 1, .findByte 4, .seek 4, .read 1] 0
      (.make { content := [1, 2, 3, 4, 5, 6], size := by decide, answers := [3] } 4 2) :=
  bufferedFile_reads [1, 2, 3, 4, 5, 6] (by decide) [3] 4 2 _
    (by decide +kernel)

/-- After a seek, a position that has not been read is in the window, and the buffer does not hold it. -/
theorem bufferedFile_stale : let s₀ := make { content := [1, 2, 3, 4, 5, 6], size := by decide } 4 2
    let s₁ := (s₀.seek 3).2
    let s₂ := (s₁.setPos 2).2
    (s₁.setPos 2).1 = true ∧ s₂.nReadPos = 2 ∧ (s₂.read 1).1 = .ok [0] := by
  refine ⟨rfl, rfl, rfl⟩

end BitCrystal
