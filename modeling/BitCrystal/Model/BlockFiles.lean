import BitCrystal.Machine.Frames
import BitCrystal.Machine.StateAction
import BitCrystal.Model.Validation

/-! # Positions in the block and undo files

`FindBlockPos` and `FindUndoPos` give out positions in the files. The sizes of the newest file are
cached in `infoLastBlockFile`, those of all files are records of the block tree database. What the
disk answers is an argument. Sizes are unsigned 32-bit integers.
-/

namespace BitCrystal

def MAX_BLOCKFILE_SIZE : ℕ := 0x8000000
def BLOCKFILE_CHUNK_SIZE : ℕ := 0x1000000
def UNDOFILE_CHUNK_SIZE : ℕ := 0x100000

structure CBlockFileInfo where
  nBlocks : ℕ := 0
  nSize : ℕ := 0
  nUndoSize : ℕ := 0
  nHeightFirst : ℕ := 0
  nHeightLast : ℕ := 0
  nTimeFirst : ℕ := 0
  nTimeLast : ℕ := 0
deriving DecidableEq, Repr

/-- `AddBlock`; the last height is compared with the first one. -/
def CBlockFileInfo.addBlock (info : CBlockFileInfo) (nHeightIn nTimeIn : ℕ) : CBlockFileInfo :=
  let nHeightFirst := if info.nBlocks = 0 ∨ nHeightIn < info.nHeightFirst then nHeightIn else info.nHeightFirst
  { info with
    nHeightFirst
    nTimeFirst := if info.nBlocks = 0 ∨ nTimeIn < info.nTimeFirst then nTimeIn else info.nTimeFirst
    nBlocks := uint32 (info.nBlocks + 1)
    nHeightLast := if nHeightFirst < nHeightIn then nHeightIn else info.nHeightLast
    nTimeLast := if info.nTimeLast < nTimeIn then nTimeIn else info.nTimeLast }

structure CDiskBlockPos where
  nFile : ℕ
  nPos : ℕ
deriving DecidableEq, Repr

/-- The globals behind `cs_LastBlockFile` and the file records of `pblocktree`. -/
structure BlockFiles where
  nLastBlockFile : ℕ := 0
  infoLastBlockFile : CBlockFileInfo := {}
  /-- `ReadBlockFileInfo`. -/
  blockFileInfo : ℕ → Option CBlockFileInfo := fun _ => none
  /-- `ReadLastBlockFile`. -/
  lastBlockFile : Option ℕ := none

/-- What the disk does during a call. -/
structure FileDisk where
  fDiskSpace : Bool := true
  fWriteInfo : Bool := true
  fWriteLast : Bool := true

namespace BlockFiles

abbrev Action (α : Type) := StateAction BlockFiles Failure α

/-- The information on a file: cached for the last file, recorded for the others. -/
def infoOf (files : BlockFiles) (nFile : ℕ) : CBlockFileInfo :=
  if nFile = files.nLastBlockFile then files.infoLastBlockFile else (files.blockFileInfo nFile).getD {}

/-- Make a file the last one; a record that does not exist leaves the cache empty. -/
def switchTo (files : BlockFiles) (nFile : ℕ) : BlockFiles :=
  { files with nLastBlockFile := nFile, infoLastBlockFile := (files.blockFileInfo nFile).getD {} }

/-- The loop that leaves full files, with a bound on its rounds. -/
def leaveFull (nAddSize : ℕ) : ℕ → BlockFiles → Option BlockFiles
  | rounds, files =>
    if MAX_BLOCKFILE_SIZE ≤ uint32 (files.infoLastBlockFile.nSize + nAddSize) then
      match rounds with
      | 0 => none
      | rounds + 1 => leaveFull nAddSize rounds (files.switchTo (files.nLastBlockFile + 1))
    else some files

/-- The files as `FindBlockPos` finds or makes them before it adds the block. -/
def settle (rounds : ℕ) (pos : CDiskBlockPos) (nAddSize : ℕ) (fKnown : Bool) (files : BlockFiles) :
    Option BlockFiles :=
  if fKnown then some (if files.nLastBlockFile = pos.nFile then files else files.switchTo pos.nFile)
  else leaveFull nAddSize rounds files

/-- `infoLastBlockFile` with the block added. -/
def addBlock (files : BlockFiles) (nAddSize nHeight nTime : ℕ) : BlockFiles :=
  { files with
    infoLastBlockFile := { files.infoLastBlockFile with
      nSize := uint32 (files.infoLastBlockFile.nSize + nAddSize) }.addBlock nHeight nTime }

def writeBlockFileInfo (files : BlockFiles) (nFile : ℕ) (info : CBlockFileInfo) : BlockFiles :=
  { files with blockFileInfo := Function.update files.blockFileInfo nFile (some info) }

/-- The number of chunks of a size that `n` bytes touch. -/
def chunks (chunk n : ℕ) : ℕ := uint32 (n + (chunk - 1)) / chunk

/-- Whether growing from one size to another enters a new chunk, for which disk space is needed. -/
def entersChunk (chunk nOldSize nNewSize : ℕ) : Prop := chunks chunk nOldSize < chunks chunk nNewSize

instance (chunk nOldSize nNewSize : ℕ) : Decidable (entersChunk chunk nOldSize nNewSize) :=
  inferInstanceAs (Decidable (_ < _))

/-- `FindBlockPos`; `rounds` bounds the loop. -/
def findBlockPos (disk : FileDisk) (rounds : ℕ) (pos : CDiskBlockPos) (nAddSize nHeight nTime : ℕ) (fKnown : Bool) :
    Action CDiskBlockPos := do
  let start ← StateAction.get
  let files ← StateAction.lift (assertSome .diverges (start.settle rounds pos nAddSize fKnown))
  let pos := if fKnown then pos else ⟨files.nLastBlockFile, files.infoLastBlockFile.nSize⟩
  let added := files.addBlock nAddSize nHeight nTime
  StateAction.modify fun _ => added
  StateAction.lift (rejectIf (¬ fKnown ∧ ¬ disk.fDiskSpace ∧
    entersChunk BLOCKFILE_CHUNK_SIZE pos.nPos added.infoLastBlockFile.nSize) (.abort ""))
  StateAction.lift (rejectIf (¬ disk.fWriteInfo) (.abort "Failed to write file info"))
  StateAction.modify fun files => files.writeBlockFileInfo added.nLastBlockFile added.infoLastBlockFile
  -- `fUpdatedLast`
  StateAction.modify fun files =>
    if files.nLastBlockFile ≠ start.nLastBlockFile ∧ disk.fWriteLast then
      { files with lastBlockFile := some files.nLastBlockFile }
    else files
  return pos

/-- The information on a file after undo data were added. -/
def withUndo (info : CBlockFileInfo) (nAddSize : ℕ) : CBlockFileInfo :=
  { info with nUndoSize := uint32 (info.nUndoSize + nAddSize) }

/-- `FindUndoPos`. -/
def findUndoPos (disk : FileDisk) (nFile nAddSize : ℕ) : Action CDiskBlockPos := do
  let files ← StateAction.get
  let info ← StateAction.lift (if nFile = files.nLastBlockFile then .ok files.infoLastBlockFile
    else assertSome (.abort "Failed to read block info") (files.blockFileInfo nFile))
  StateAction.modify fun files =>
    if nFile = files.nLastBlockFile then { files with infoLastBlockFile := withUndo info nAddSize } else files
  StateAction.lift (rejectIf (¬ disk.fWriteInfo) (.abort "Failed to write block info"))
  StateAction.modify fun files => files.writeBlockFileInfo nFile (withUndo info nAddSize)
  StateAction.lift (rejectIf (¬ disk.fDiskSpace ∧
    entersChunk UNDOFILE_CHUNK_SIZE info.nUndoSize (withUndo info nAddSize).nUndoSize) (.abort ""))
  return ⟨nFile, info.nUndoSize⟩

end BlockFiles

end BitCrystal
