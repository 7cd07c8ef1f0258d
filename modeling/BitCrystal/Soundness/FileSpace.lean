import BitCrystal.Proofs.BlockFiles

/-! # Space in the block and undo files

Positions are given out for new blocks, for blocks that are already in a file, and for undo data. Undo
data keep their space as long as no size passes the range of its type. Blocks keep theirs as long as
every block found in a file starts where the recorded part of the file ends or before. The statistics of
a file are right but for the last height.
-/

namespace BitCrystal

open BlockFiles

/-- A call that gives out a position. -/
inductive FileCall
  | newBlock (nAddSize nHeight nTime : ℕ)
  | knownBlock (pos : CDiskBlockPos) (nAddSize nHeight nTime : ℕ)
  | undo (nFile nAddSize : ℕ)

namespace FileCall

def action (disk : FileDisk) (rounds : ℕ) : FileCall → BlockFiles.Action CDiskBlockPos
  | newBlock nAddSize nHeight nTime => findBlockPos disk rounds ⟨0, 0⟩ nAddSize nHeight nTime false
  | knownBlock pos nAddSize nHeight nTime => findBlockPos disk rounds pos nAddSize nHeight nTime true
  | undo nFile nAddSize => findUndoPos disk nFile nAddSize

/-- The bytes of a block in a file; its position is behind the message start and the size. -/
def knownExtent (pos : CDiskBlockPos) (nAddSize : ℕ) : Extent ℕ := ⟨pos.nFile, pos.nPos - 8, nAddSize⟩

end FileCall

/-- The files and the ranges given out in them, the latest first. -/
structure FileRun where
  files : BlockFiles := {}
  blocks : List (Extent ℕ) := []
  undos : List (Extent ℕ) := []

namespace FileRun

variable {run : FileRun} {disk : FileDisk} {rounds : ℕ} {call : FileCall}

/-- Keep the range a call has given out. -/
def record (run : FileRun) (pos : CDiskBlockPos) : FileCall → FileRun
  | .newBlock nAddSize _ _ => { run with blocks := ⟨pos.nFile, pos.nPos, nAddSize⟩ :: run.blocks }
  | .knownBlock _ nAddSize _ _ => { run with blocks := FileCall.knownExtent pos nAddSize :: run.blocks }
  | .undo _ nAddSize => { run with undos := ⟨pos.nFile, pos.nPos, nAddSize⟩ :: run.undos }

def perform (disk : FileDisk) (rounds : ℕ) (call : FileCall) (run : FileRun) : FileRun :=
  match call.action disk rounds run.files with
  | (.ok pos, files) => { run with files }.record pos call
  | (.error _, files) => { run with files }

/-- The runs from an empty data directory in which every call is allowed. -/
inductive Reached (allowed : FileRun → FileCall → Prop) : FileRun → Prop
  | start : Reached allowed {}
  | call {run : FileRun} (before : Reached allowed run) (disk : FileDisk) (rounds : ℕ) (call : FileCall)
      (fine : allowed run call) : Reached allowed (run.perform disk rounds call)

/-- The blocks found in the files overlap no other block. -/
def Given (run : FileRun) : FileCall → Prop
  | .knownBlock pos nAddSize _ _ => ∀ other ∈ run.blocks, (FileCall.knownExtent pos nAddSize).Apart other
  | _ => True

/-- A block found in a file leaves no gap behind the recorded part, and no block size passes its type. -/
def Adjoins (run : FileRun) : FileCall → Prop
  | .newBlock nAddSize _ _ => ∀ nFile, (run.files.infoOf nFile).nSize + nAddSize < 2 ^ 32
  | .knownBlock pos nAddSize _ _ => pos.nPos - 8 ≤ (run.files.infoOf pos.nFile).nSize ∧
      (run.files.infoOf pos.nFile).nSize + nAddSize < 2 ^ 32
  | .undo _ _ => True

/-- No undo size passes its type. -/
def Holds (run : FileRun) : FileCall → Prop
  | .undo nFile nAddSize => (run.files.infoOf nFile).nUndoSize + nAddSize < 2 ^ 32
  | _ => True

instance (run : FileRun) : (call : FileCall) → Decidable (run.Holds call)
  | .newBlock .. => isTrue trivial
  | .knownBlock .. => isTrue trivial
  | .undo .. => inferInstanceAs (Decidable (_ < _))

/-- The blocks share no byte, and every file is recorded to its last one. -/
structure BlocksKept (run : FileRun) : Prop where
  apart : run.blocks.Pairwise Extent.Apart
  below : Extent.Below (fun nFile => (run.files.infoOf nFile).nSize) run.blocks

/-- The undo data share no byte, and every file is recorded to its last one. -/
structure UndosKept (run : FileRun) : Prop where
  apart : run.undos.Pairwise Extent.Apart
  below : Extent.Below (fun nFile => (run.files.infoOf nFile).nUndoSize) run.undos

theorem nSize_addBlock {settled : BlockFiles} {nAddSize nHeight nTime : ℕ}
    (fits : settled.infoLastBlockFile.nSize + nAddSize < 2 ^ 32) :
    (settled.addBlock nAddSize nHeight nTime).infoLastBlockFile.nSize = settled.infoLastBlockFile.nSize + nAddSize :=
  uint32_of_lt fits

theorem nUndoSize_withUndo {info : CBlockFileInfo} {nAddSize : ℕ} (fits : info.nUndoSize + nAddSize < 2 ^ 32) :
    (withUndo info nAddSize).nUndoSize = info.nUndoSize + nAddSize := uint32_of_lt fits

/-- A block whose size fits and which starts at the cached size or before stays protected. -/
theorem marked_record {files' settled : BlockFiles} {blocks : List (Extent ℕ)}
    (marked : Marked CBlockFileInfo.nSize files' blocks) {nAddSize nHeight nTime : ℕ} {extent : Extent ℕ}
    (saved : files'.recorded settled.nLastBlockFile = (settled.addBlock nAddSize nHeight nTime).infoLastBlockFile)
    (fits : settled.infoLastBlockFile.nSize + nAddSize < 2 ^ 32) (space : extent.space = settled.nLastBlockFile)
    (starts : extent.first ≤ settled.infoLastBlockFile.nSize) (size : extent.size = nAddSize)
    (fresh : ∀ other ∈ blocks, extent.Apart other) : Marked CBlockFileInfo.nSize files' (extent :: blocks) := by
  apply marked.cons fresh
  rw [space, saved, nSize_addBlock fits, size]
  exact Nat.add_le_add_right starts _

/-- A call changes the files, and gives out a range if it comes back with a position. -/
theorem perform_cases (disk : FileDisk) (rounds : ℕ) (call : FileCall) (run : FileRun) :
    run.perform disk rounds call = { run with files := (call.action disk rounds run.files).2 } ∨
    ∃ pos, call.action disk rounds run.files = (.ok pos, (call.action disk rounds run.files).2) ∧
      run.perform disk rounds call = record { run with files := (call.action disk rounds run.files).2 } pos call := by
  unfold perform
  rcases call.action disk rounds run.files with ⟨failure | pos, files⟩
  · exact .inl rfl
  · exact .inr ⟨pos, rfl, rfl⟩

theorem marked_blocks (marked : Marked CBlockFileInfo.nSize run.files run.blocks) (given : run.Given call)
    (adjoins : run.Adjoins call) :
    Marked CBlockFileInfo.nSize (run.perform disk rounds call).files (run.perform disk rounds call).blocks := by
  cases call with
  | newBlock nAddSize nHeight nTime =>
    have fits {settled : BlockFiles} (found : run.files.settle rounds ⟨0, 0⟩ nAddSize false = some settled) :
        settled.infoLastBlockFile.nSize + nAddSize < 2 ^ 32 := by
      rw [info_of_settle found]
      exact adjoins _
    have kept : Marked _ (findBlockPos disk rounds ⟨0, 0⟩ nAddSize nHeight nTime false run.files).2 run.blocks :=
      marked.findBlockPos fun settled found => by
        rw [nSize_addBlock (fits found)]
        exact Nat.le_add_right ..
    obtain same | ⟨pos, ran, same⟩ := perform_cases disk rounds (.newBlock nAddSize nHeight nTime) run <;> rw [same]
    · exact kept
    · obtain ⟨settled, found, rfl, saved⟩ := findBlockPos_ok ran
      have before := marked.settle found
      apply marked_record kept saved (fits found) rfl le_rfl rfl
      exact before.below.apart before.cached
  | knownBlock pos nAddSize nHeight nTime =>
    have fits {settled : BlockFiles} (found : run.files.settle rounds pos nAddSize true = some settled) :
        pos.nFile = settled.nLastBlockFile ∧ pos.nPos - 8 ≤ settled.infoLastBlockFile.nSize ∧
          settled.infoLastBlockFile.nSize + nAddSize < 2 ^ 32 := by
      have same := (settle_cases found).2 rfl
      rw [info_of_settle found, same]
      exact ⟨rfl, adjoins⟩
    have kept : Marked _ (findBlockPos disk rounds pos nAddSize nHeight nTime true run.files).2 run.blocks :=
      marked.findBlockPos fun settled found => by
        rw [nSize_addBlock (fits found).2.2]
        exact Nat.le_add_right ..
    obtain same | ⟨_, ran, same⟩ := perform_cases disk rounds (.knownBlock pos nAddSize nHeight nTime) run <;> rw [same]
    · exact kept
    · obtain ⟨settled, found, rfl, saved⟩ := findBlockPos_ok ran
      obtain ⟨space, starts, small⟩ := fits found
      exact marked_record kept saved small space starts rfl given
  | undo nFile nAddSize =>
    have kept : Marked _ (findUndoPos disk nFile nAddSize run.files).2 run.blocks := marked.findUndoPos le_rfl
    obtain same | ⟨pos, ran, same⟩ := perform_cases disk rounds (.undo nFile nAddSize) run <;> rw [same]
    · exact kept
    · exact kept

theorem marked_undos (marked : Marked CBlockFileInfo.nUndoSize run.files run.undos) (holds : run.Holds call) :
    Marked CBlockFileInfo.nUndoSize (run.perform disk rounds call).files (run.perform disk rounds call).undos := by
  cases call with
  | newBlock nAddSize nHeight nTime =>
    have kept : Marked _ (findBlockPos disk rounds ⟨0, 0⟩ nAddSize nHeight nTime false run.files).2 run.undos :=
      marked.findBlockPos fun _ _ => le_rfl
    obtain same | ⟨pos, ran, same⟩ := perform_cases disk rounds (.newBlock nAddSize nHeight nTime) run <;> rw [same]
    · exact kept
    · exact kept
  | knownBlock pos nAddSize nHeight nTime =>
    have kept : Marked _ (findBlockPos disk rounds pos nAddSize nHeight nTime true run.files).2 run.undos :=
      marked.findBlockPos fun _ _ => le_rfl
    obtain same | ⟨_, ran, same⟩ := perform_cases disk rounds (.knownBlock pos nAddSize nHeight nTime) run <;> rw [same]
    · exact kept
    · exact kept
  | undo nFile nAddSize =>
    have grows := nUndoSize_withUndo holds
    have kept : Marked _ (findUndoPos disk nFile nAddSize run.files).2 run.undos := marked.findUndoPos (by
      rw [grows]
      exact Nat.le_add_right ..)
    obtain same | ⟨pos, ran, same⟩ := perform_cases disk rounds (.undo nFile nAddSize) run <;> rw [same]
    · exact kept
    · obtain ⟨rfl, saved⟩ := findUndoPos_ok ran
      apply kept.cons (marked.below.apart (marked.recorded_le nFile))
      exact (saved ▸ grows.ge :)

theorem perform_files (disk : FileDisk) (rounds : ℕ) (call : FileCall) (run : FileRun) :
    (run.perform disk rounds call).files = (call.action disk rounds run.files).2 := by
  obtain same | ⟨pos, -, same⟩ := perform_cases disk rounds call run <;> rw [same]
  cases call <;> rfl

/-- A call that makes another file the last one changes no other record, and the undo data of the new
last file continue where its record ends. -/
theorem switch_keeps (switches : (run.perform disk rounds call).files.nLastBlockFile ≠ run.files.nLastBlockFile) :
    (∀ nFile, nFile ≠ (run.perform disk rounds call).files.nLastBlockFile →
      (run.perform disk rounds call).files.blockFileInfo nFile = run.files.blockFileInfo nFile) ∧
    (run.perform disk rounds call).files.infoLastBlockFile.nUndoSize =
      (run.files.recorded (run.perform disk rounds call).files.nLastBlockFile).nUndoSize := by
  rw [perform_files] at switches ⊢
  rw [← infoOf_of_ne switches]
  cases call with
  | newBlock nAddSize nHeight nTime => exact findBlockPos_keeps run.files
  | knownBlock pos nAddSize nHeight nTime => exact findBlockPos_keeps run.files
  | undo nFile nAddSize => exact absurd (findUndoPos_last run.files) switches

/-- In a run without gaps no two blocks share a byte, and every file is recorded to its last block. -/
theorem blockSpace_of_run (reached : Reached (fun run call => run.Given call ∧ run.Adjoins call) run) :
    run.BlocksKept := by
  have marked : Marked CBlockFileInfo.nSize run.files run.blocks := by
    induction reached with
    | start => exact .start _ _ le_rfl
    | call before disk rounds call fine ih => exact marked_blocks ih fine.1 fine.2
  exact ⟨marked.apart, marked.below_infoOf⟩

/-- A block is stored, and another one is found right behind it. -/
theorem blockSpace_of_run_adjacent :
    let first : FileRun := perform {} 0 (.newBlock 300 1 0) {}
    let second := perform {} 0 (.knownBlock ⟨0, 308⟩ 100 2 0) first
    second.blocks = [⟨0, 300, 100⟩, ⟨0, 0, 300⟩] ∧ second.BlocksKept := by
  intro first second
  refine ⟨by decide, blockSpace_of_run ((Reached.start.call {} 0 (.newBlock 300 1 0) ?_).call {} 0 (.knownBlock _ _ _ _) ?_)⟩
  · refine ⟨trivial, fun nFile => ?_⟩
    have empty : ∀ nFile, (BlockFiles.infoOf {} nFile).nSize = 0 := fun nFile => by
      unfold infoOf
      split <;> rfl
    rw [empty]
    decide
  · refine ⟨fun other member => ?_, by decide, by decide⟩
    obtain rfl := List.mem_singleton.mp member
    exact Extent.apart_of_le (by decide)

/-- A block is found behind a gap, and the next new block is stored over it. -/
theorem not_blockSpace_gap : ∃ run : FileRun, Reached Given run ∧ ¬ run.blocks.Pairwise Extent.Apart ∧
    ¬ Extent.Below (fun nFile => (run.files.infoOf nFile).nSize) run.blocks := by
  let found : FileRun := perform {} 0 (.knownBlock ⟨0, 1008⟩ 100 1 0) {}
  let stored := perform {} 0 (.newBlock 950 2 0) found
  have reached : Reached Given stored :=
    (Reached.start.call {} 0 (.knownBlock ⟨0, 1008⟩ 100 1 0) fun _ member => absurd member List.not_mem_nil).call {} 0
      (.newBlock 950 2 0) trivial
  have blocks : stored.blocks = [⟨0, 100, 950⟩, ⟨0, 1000, 100⟩] := by decide
  refine ⟨stored, reached, ?_, fun below => ?_⟩
  · rw [blocks]
    exact Extent.not_pairwise_apart (.refl _) rfl 1000 (by decide) (by decide)
  · rw [blocks] at below
    exact absurd (below ⟨0, 1000, 100⟩ (by decide)) (by decide)

/-- Undo data share no byte and stay within the recorded size of their file. When another file becomes
the last one, no other record changes, and the undo data of that file continue where its record ends. -/
theorem undoSpace_of_run (reached : Reached Holds run) :
    run.UndosKept ∧ Extent.Below (fun nFile => (run.files.recorded nFile).nUndoSize) run.undos ∧
    ∀ disk rounds call, (run.perform disk rounds call).files.nLastBlockFile ≠ run.files.nLastBlockFile →
      (∀ nFile, nFile ≠ (run.perform disk rounds call).files.nLastBlockFile →
        (run.perform disk rounds call).files.blockFileInfo nFile = run.files.blockFileInfo nFile) ∧
      (run.perform disk rounds call).files.infoLastBlockFile.nUndoSize =
        (run.files.recorded (run.perform disk rounds call).files.nLastBlockFile).nUndoSize := by
  have marked : Marked CBlockFileInfo.nUndoSize run.files run.undos := by
    induction reached with
    | start => exact .start _ _ le_rfl
    | call before disk rounds call fine ih => exact marked_undos ih fine
  exact ⟨⟨marked.apart, marked.below_infoOf⟩, marked.below, fun _ _ _ switches => switch_keeps switches⟩

/-- Undo data go to the last file, to the next one after a known block of it, and to the first again. -/
theorem undoSpace_of_run_switching :
    let first : FileRun := perform {} 0 (.undo 0 70) (perform {} 0 (.newBlock 300 1 0) {})
    let second := perform {} 0 (.undo 0 30) (perform {} 0 (.undo 1 20) (perform {} 0 (.knownBlock ⟨1, 8⟩ 100 2 0) first))
    second.undos = [⟨0, 70, 30⟩, ⟨1, 0, 20⟩, ⟨0, 0, 70⟩] ∧ second.UndosKept := by
  intro first second
  refine ⟨by decide, (undoSpace_of_run ?_).1⟩
  have stored : Reached Holds _ := Reached.start.call {} 0 (.newBlock 300 1 0) trivial
  have before := (stored.call {} 0 (.undo 0 70) (by decide)).call {} 0 (.knownBlock ⟨1, 8⟩ 100 2 0) trivial
  exact (before.call {} 0 (.undo 1 20) (by decide)).call {} 0 (.undo 0 30) (by decide)

/-- The undo data of eighteen blocks fill the range of the size, which starts again from zero. -/
theorem not_undoSpace_wrapped :
    ∃ run : FileRun, Reached (fun _ call => call matches .newBlock .. | .undo 0 240000000) run ∧
      ¬ run.undos.Pairwise Extent.Apart := by
  let stored : FileRun := perform {} 0 (.newBlock 300 1 0) {}
  have reached (n : ℕ) : Reached (fun _ call => call matches .newBlock .. | .undo 0 240000000)
      ((perform {} 0 (.undo 0 240000000))^[n] stored) := by
    induction n with
    | zero => exact Reached.start.call {} 0 (.newBlock 300 1 0) rfl
    | succ n ih =>
      rw [Function.iterate_succ_apply']
      exact ih.call {} 0 (.undo 0 240000000) rfl
  have overlap : [⟨0, 25032704, 240000000⟩, ⟨0, 0, 240000000⟩].Sublist
      ((perform {} 0 (.undo 0 240000000))^[19] stored).undos := by decide
  exact ⟨_, reached 19, Extent.not_pairwise_apart overlap rfl 30000000 (by decide) (by decide)⟩

end FileRun

end BitCrystal

/-! ## The statistics of a block file

The number of blocks, the lowest height and both times are right for fewer than 2^32 blocks. The last height is that of
the last block above an earlier one, whether or not a higher block came before it.
-/

namespace BitCrystal.CBlockFileInfo

variable {info : CBlockFileInfo} {blocks : List (ℕ × ℕ)} {heights values : List ℕ} {h m n value : ℕ}

/-- `AddBlock` for a sequence of heights and times. -/
def addBlocks (info : CBlockFileInfo) (blocks : List (ℕ × ℕ)) : CBlockFileInfo :=
  blocks.foldl (fun info block => info.addBlock block.1 block.2) info

theorem addBlocks_concat (info : CBlockFileInfo) (blocks : List (ℕ × ℕ)) (block : ℕ × ℕ) :
    info.addBlocks (blocks ++ [block]) = (info.addBlocks blocks).addBlock block.1 block.2 := by
  rw [addBlocks, List.foldl_concat]
  rfl

/-- The values in a list. -/
def valuesOf (values : List ℕ) : Set ℕ := { value | value ∈ values }

/-- The statistics are those of the blocks. -/
structure Exact (blocks : List (ℕ × ℕ)) (info : CBlockFileInfo) : Prop where
  nBlocks : info.nBlocks = blocks.length
  nHeightFirst : blocks ≠ [] → IsLeast (valuesOf (blocks.map Prod.fst)) info.nHeightFirst
  nHeightLast : blocks ≠ [] → IsGreatest (valuesOf (blocks.map Prod.fst)) info.nHeightLast
  nTimeFirst : blocks ≠ [] → IsLeast (valuesOf (blocks.map Prod.snd)) info.nTimeFirst
  nTimeLast : blocks ≠ [] → IsGreatest (valuesOf (blocks.map Prod.snd)) info.nTimeLast

theorem valuesOf_concat (values : List ℕ) (n : ℕ) : valuesOf (values ++ [n]) = insert n (valuesOf values) := by
  ext value
  rw [valuesOf, Set.mem_ofPred_eq, List.mem_append, List.mem_singleton, or_comm]
  exact Iff.rfl

/-- The lower of the two, where the first value counts alone. -/
theorem isLeast_concat {p : Prop} [Decidable p] (nothing : p ↔ values = [])
    (least : values ≠ [] → IsLeast (valuesOf values) m) :
    IsLeast (valuesOf (values ++ [n])) (if p ∨ n < m then n else m) := by
  rw [valuesOf_concat]
  split_ifs with lower
  · refine ⟨Set.mem_insert .., fun value member => ?_⟩
    rcases member with rfl | member
    · exact le_rfl
    · rcases lower with empty | lower
      · rw [nothing.mp empty] at member
        cases member
      · exact lower.le.trans ((least (List.ne_nil_of_mem member)).2 member)
  · obtain ⟨nonempty, upper⟩ := not_or.mp lower
    obtain ⟨there, below⟩ := least (mt nothing.mpr nonempty)
    refine ⟨Set.mem_insert_of_mem _ there, fun value member => ?_⟩
    rcases member with rfl | member
    · exact not_lt.mp upper
    · exact below member

/-- The higher of the two; zero stands for no value. -/
theorem isGreatest_concat (greatest : values ≠ [] → IsGreatest (valuesOf values) m) (zero : values = [] → m = 0) :
    IsGreatest (valuesOf (values ++ [n])) (if m < n then n else m) := by
  rw [valuesOf_concat]
  rcases eq_or_ne values [] with rfl | nonempty
  · have kept : (if m < n then n else m) = n := by
      rw [zero rfl]
      split <;> omega
    rw [kept]
    refine ⟨Set.mem_insert .., fun value member => ?_⟩
    rcases member with rfl | member
    · exact le_rfl
    · cases member
  · obtain ⟨there, above⟩ := greatest nonempty
    split_ifs with higher
    · refine ⟨Set.mem_insert .., fun value member => ?_⟩
      rcases member with rfl | member
      · exact le_rfl
      · exact (above member).trans higher.le
    · refine ⟨Set.mem_insert_of_mem _ there, fun value member => ?_⟩
      rcases member with rfl | member
      · exact not_lt.mp higher
      · exact above member

/-- A height that is above an earlier one. -/
def Rises (heights : List ℕ) (i m : ℕ) : Prop := heights[i]? = some m ∧ ∃ j k, j < i ∧ heights[j]? = some k ∧ k < m

/-- The last height that is above an earlier one. -/
def LastRise (heights : List ℕ) (m : ℕ) : Prop := ∃ i, Rises heights i m ∧ ∀ i' m', i < i' → ¬ Rises heights i' m'

def NoRise (heights : List ℕ) : Prop := ∀ i m, ¬ Rises heights i m

theorem LastRise.unique (last : LastRise heights m) (other : LastRise heights n) : m = n := by
  obtain ⟨i, rise, after⟩ := last
  obtain ⟨j, rise', after'⟩ := other
  rcases Nat.lt_trichotomy i j with before | rfl | behind
  · exact absurd rise' (after j n before)
  · exact Option.some.inj (rise.1.symm.trans rise'.1)
  · exact absurd rise (after' i m behind)

theorem rises_concat {i : ℕ} : Rises (heights ++ [h]) i m ↔
    Rises heights i m ∨ i = heights.length ∧ m = h ∧ ∃ k ∈ heights, k < h := by
  have inside {j k : ℕ} (found : heights[j]? = some k) : (heights ++ [h])[j]? = some k := by
    rw [List.getElem?_append_left (List.getElem?_eq_some_iff.mp found).1, found]
  constructor
  · rintro ⟨found, j, k, before, there, lower⟩
    rcases Nat.lt_trichotomy i heights.length with old | rfl | beyond
    · rw [List.getElem?_append_left old] at found
      rw [List.getElem?_append_left (before.trans old)] at there
      exact .inl ⟨found, j, k, before, there, lower⟩
    · rw [List.getElem?_concat_length] at found
      obtain rfl := Option.some.inj found
      rw [List.getElem?_append_left before] at there
      exact .inr ⟨rfl, rfl, k, List.mem_of_getElem? there, lower⟩
    · rw [List.getElem?_eq_none (by rw [List.length_append, List.length_singleton]; omega)] at found
      cases found
  · rintro (⟨found, j, k, before, there, lower⟩ | ⟨rfl, rfl, k, member, lower⟩)
    · exact ⟨inside found, j, k, before, inside there, lower⟩
    · obtain ⟨j, there⟩ := List.mem_iff_getElem?.mp member
      exact ⟨List.getElem?_concat_length, j, k, (List.getElem?_eq_some_iff.mp there).1, inside there, lower⟩

theorem lastRise_concat (rise : ∃ k ∈ heights, k < h) : LastRise (heights ++ [h]) h := by
  refine ⟨heights.length, rises_concat.mpr (.inr ⟨rfl, rfl, rise⟩), fun i m beyond rises => ?_⟩
  have inside := (List.getElem?_eq_some_iff.mp rises.1).1
  rw [List.length_append, List.length_singleton] at inside
  omega

theorem rises_concat_of_not {i : ℕ} (low : ¬ ∃ k ∈ heights, k < h) : Rises (heights ++ [h]) i m ↔ Rises heights i m := by
  rw [rises_concat]
  exact or_iff_left fun rise => low rise.2.2

/-- What `AddBlock` keeps right as long as the number of blocks does not run over. -/
structure Kept (blocks : List (ℕ × ℕ)) (info : CBlockFileInfo) : Prop where
  nBlocks : info.nBlocks = blocks.length
  nHeightFirst : blocks ≠ [] → IsLeast (valuesOf (blocks.map Prod.fst)) info.nHeightFirst
  nHeightLast : LastRise (blocks.map Prod.fst) info.nHeightLast ∨
    NoRise (blocks.map Prod.fst) ∧ info.nHeightLast = 0
  nTimeFirst : blocks ≠ [] → IsLeast (valuesOf (blocks.map Prod.snd)) info.nTimeFirst
  nTimeLast : blocks ≠ [] → IsGreatest (valuesOf (blocks.map Prod.snd)) info.nTimeLast
  nTimeNone : blocks = [] → info.nTimeLast = 0

theorem Kept.fresh : Kept [] {} where
  nBlocks := rfl
  nHeightFirst nonempty := absurd rfl nonempty
  nHeightLast := .inr ⟨fun _ _ rises => (nomatch rises.1), rfl⟩
  nTimeFirst nonempty := absurd rfl nonempty
  nTimeLast nonempty := absurd rfl nonempty
  nTimeNone _ := rfl

theorem Kept.addBlock (kept : Kept blocks info) (few : blocks.length + 1 < 2 ^ 32) (block : ℕ × ℕ) :
    Kept (blocks ++ [block]) (info.addBlock block.1 block.2) := by
  have nothing : info.nBlocks = 0 ↔ blocks = [] := by rw [kept.nBlocks, List.length_eq_zero_iff]
  have lists (f : ℕ × ℕ → ℕ) : blocks = [] ↔ blocks.map f = [] := List.map_eq_nil_iff.symm
  have first := @isLeast_concat _ _ block.1 _ _ (nothing.trans (lists Prod.fst))
    fun nonempty => kept.nHeightFirst fun empty => nonempty ((lists _).mp empty)
  have time := @isLeast_concat _ _ block.2 _ _ (nothing.trans (lists Prod.snd))
    fun nonempty => kept.nTimeFirst fun empty => nonempty ((lists _).mp empty)
  have last := @isGreatest_concat (blocks.map Prod.snd) _ block.2
    (fun nonempty => kept.nTimeLast fun empty => nonempty ((lists _).mp empty)) fun empty => kept.nTimeNone ((lists _).mpr empty)
  have concat (f : ℕ × ℕ → ℕ) : (blocks ++ [block]).map f = blocks.map f ++ [f block] := by
    rw [List.map_append, List.map_singleton]
  constructor
  · rw [List.length_append, List.length_singleton, ← kept.nBlocks]
    exact Nat.mod_eq_of_lt (by rw [kept.nBlocks]; exact few)
  · intro _
    rw [concat]
    exact first
  · rw [concat]
    -- the lowest height is below the new one exactly if an earlier one is
    have rise : (info.addBlock block.1 block.2).nHeightFirst < block.1 ↔ ∃ k ∈ blocks.map Prod.fst, k < block.1 := by
      rw [valuesOf_concat] at first
      constructor
      · intro lower
        rcases first.1 with same | member
        · exact absurd same lower.ne
        · exact ⟨_, member, lower⟩
      · rintro ⟨k, member, lower⟩
        exact (first.2 (Set.mem_insert_of_mem _ member)).trans_lt lower
    change LastRise _ (if (info.addBlock block.1 block.2).nHeightFirst < block.1 then block.1 else info.nHeightLast) ∨
      _ ∧ (if (info.addBlock block.1 block.2).nHeightFirst < block.1 then block.1 else info.nHeightLast) = 0
    split_ifs with lower
    · exact .inl (lastRise_concat (rise.mp lower))
    · have low := fun exceeded => lower (rise.mpr exceeded)
      rcases kept.nHeightLast with ⟨i, rises, after⟩ | ⟨flat, zero⟩
      · refine .inl ⟨i, (rises_concat_of_not low).mpr rises, fun i' m' later rises' => ?_⟩
        exact after i' m' later ((rises_concat_of_not low).mp rises')
      · exact .inr ⟨fun i m rises => flat i m ((rises_concat_of_not low).mp rises), zero⟩
  · intro _
    rw [concat]
    exact time
  · intro _
    rw [concat]
    exact last
  · intro empty
    exact absurd (List.append_eq_nil_iff.mp empty).2 (List.cons_ne_nil block [])

theorem Kept.addBlocks (few : blocks.length < 2 ^ 32) : Kept blocks (CBlockFileInfo.addBlocks {} blocks) := by
  induction blocks using List.reverseRecOn with
  | nil => exact Kept.fresh
  | append_singleton blocks block ih =>
    rw [List.length_append, List.length_singleton] at few
    rw [addBlocks_concat]
    exact (ih (Nat.lt_of_succ_lt few)).addBlock few block

theorem nBlocks_addBlocks (blocks : List (ℕ × ℕ)) : (CBlockFileInfo.addBlocks {} blocks).nBlocks = blocks.length % 2 ^ 32 := by
  induction blocks using List.reverseRecOn with
  | nil => rfl
  | append_singleton blocks block ih =>
    rw [addBlocks_concat, List.length_append, List.length_singleton, ← Nat.mod_add_mod, ← ih]
    rfl

/-- The highest block comes after a lower one, and after it only new lowest ones, or all heights are zero. -/
def HighestLast (heights : List ℕ) : Prop :=
  (∀ h ∈ heights, h = 0) ∨ ∃ m, LastRise heights m ∧ ∀ h ∈ heights, h ≤ m

theorem LastRise.mem (last : LastRise heights m) : m ∈ heights := by
  obtain ⟨i, rises, -⟩ := last
  exact List.mem_of_getElem? rises.1

/-- Only the last height and the number of blocks can be wrong. -/
theorem addBlocks_exact_iff (blocks : List (ℕ × ℕ)) : Exact blocks (addBlocks {} blocks) ↔
    blocks.length < 2 ^ 32 ∧ HighestLast (blocks.map Prod.fst) := by
  constructor
  · intro isExact
    have few : blocks.length < 2 ^ 32 := by
      rw [← isExact.nBlocks, nBlocks_addBlocks]
      exact Nat.mod_lt _ (by decide)
    refine ⟨few, ?_⟩
    rcases eq_or_ne blocks [] with rfl | nonempty
    · exact .inl nofun
    · have greatest := isExact.nHeightLast nonempty
      rcases (Kept.addBlocks few).nHeightLast with last | ⟨flat, zero⟩
      · exact .inr ⟨_, last, fun h member => greatest.2 member⟩
      · rw [zero] at greatest
        exact .inl fun h member => Nat.le_zero.mp (greatest.2 member)
  · rintro ⟨few, highest⟩
    have kept := Kept.addBlocks few
    refine ⟨kept.nBlocks, kept.nHeightFirst, fun nonempty => ?_, kept.nTimeFirst, kept.nTimeLast⟩
    rcases highest with zeros | ⟨m, last, above⟩
    · have zero : (addBlocks {} blocks).nHeightLast = 0 := by
        rcases kept.nHeightLast with last | ⟨-, zero⟩
        · exact zeros _ last.mem
        · exact zero
      obtain ⟨h, member⟩ := List.exists_mem_of_ne_nil _ (mt List.map_eq_nil_iff.mp nonempty)
      rw [zero]
      exact ⟨zeros h member ▸ member, fun h member => (zeros h member).le⟩
    · rcases kept.nHeightLast with other | ⟨flat, -⟩
      · obtain rfl := last.unique other
        exact ⟨last.mem, above⟩
      · obtain ⟨i, rises, -⟩ := last
        exact absurd rises (flat i m)

/-- The highest block is forgotten when one between it and the lowest follows. -/
theorem addBlocks_not_exact : ¬ Exact [(5, 100), (9, 90), (7, 110)] (addBlocks {} [(5, 100), (9, 90), (7, 110)]) := by
  intro isExact
  have highest := (isExact.nHeightLast (by decide)).2 (show 9 ∈ [5, 9, 7] by decide)
  exact absurd highest (by decide)

end BitCrystal.CBlockFileInfo
