import BitCrystal.Model.DataStream

/-! # Files read through a ring buffer

`CBufferedFile` keeps the last bytes of a file in a ring buffer. How many bytes `fread` gives at most is part of the
file; positions in a file do not run over. Type and version are left out.
-/

namespace BitCrystal

open Socket (memcpyAt)

def uint64 (n : ℕ) : ℕ := n % 2 ^ 64

theorem uint64_of_lt {n : ℕ} (bound : n < 2 ^ 64) : uint64 n = n := Nat.mod_eq_of_lt bound

/-- A `FILE`. -/
structure SourceFile where
  content : List UInt8
  /-- The size of a file is an `off_t`. -/
  size : content.length < 2 ^ 63
  pos : ℕ := 0
  feof : Bool := false
  /-- The most that the next calls of `fread` give; the others give what is there. -/
  answers : List ℕ := []
deriving DecidableEq

namespace SourceFile

variable (src : SourceFile)

/-- `fread` of single bytes. -/
def fread (n : ℕ) : List UInt8 × SourceFile :=
  let most := min (src.answers.headD n) n
  let source := (src.content.drop src.pos).take most
  (source, { src with
    pos := src.pos + source.length
    feof := src.feof || source.length < most
    answers := src.answers.tail })

/-- `fseek` to a `long` from the beginning of a regular file; zero is success. -/
def fseek (offset : ℤ) : Bool × SourceFile :=
  if offset < 0 then (false, src) else (true, { src with pos := offset.toNat, feof := false })

end SourceFile

structure CBufferedFile where
  src : SourceFile
  /-- How many bytes have been read from source. -/
  nSrcPos : ℕ := 0
  /-- How many bytes have been read from this. -/
  nReadPos : ℕ := 0
  /-- Up to which position we're allowed to read. -/
  nReadLimit : ℕ := 2 ^ 64 - 1
  /-- How many bytes we guarantee to rewind. -/
  nRewind : ℕ
  vchBuf : List UInt8
  state : ℕ := 0
deriving DecidableEq

namespace CBufferedFile

/-- The constructor. -/
def make (fileIn : SourceFile) (nBufSize nRewindIn : ℕ) : CBufferedFile where
  src := fileIn
  nRewind := nRewindIn
  vchBuf := List.replicate nBufSize 0

variable (s : CBufferedFile)

/-- `readNow`: what fits behind the position in the buffer and leaves what can be rewound, in 32 bits. -/
def readNow : ℕ :=
  let pos := uint32 (s.nSrcPos % s.vchBuf.length)
  let nAvail := ((s.vchBuf.length - (s.nSrcPos - s.nReadPos) - s.nRewind : ℤ) % 2 ^ 32).toNat
  min (uint32 (s.vchBuf.length - pos)) nAvail

/-- Read data from the source to fill the buffer. A modulus of zero is undefined. -/
def fill : StateAction CBufferedFile Failure Bool := do
  let s ← .get
  .lift (rejectIf (s.vchBuf.length = 0) .undefined)
  if s.readNow = 0 then return false
  let (source, src) := s.src.fread s.readNow
  .modify fun s => { s with src := src }
  if source.length = 0 then
    .modify fun s => { s with state := s.state ||| failbit }
    .throw (.throws (if src.feof then "CBufferedFile::Fill : end of file" else "CBufferedFile::Fill : fread failed"))
  else
    let vchBuf ← .lift (memcpyAt s.vchBuf (uint32 (s.nSrcPos % s.vchBuf.length)) source)
    .modify fun s => { s with vchBuf := vchBuf, nSrcPos := s.nSrcPos + source.length }
    return true

/-- Fill the buffer when all of it has been read. -/
def refill : StateAction CBufferedFile Failure Unit := do
  let s ← .get
  if s.nReadPos = s.nSrcPos then
    let _ ← fill
    return ()

/-- `nNow`: what is asked for, up to the end of the buffer and of what has been read from the source. -/
def nNow (nSize : ℕ) : ℕ :=
  let nNow := min nSize (s.vchBuf.length - uint32 (s.nReadPos % s.vchBuf.length))
  if nNow + s.nReadPos > s.nSrcPos then uint64 (s.nSrcPos + 2 ^ 64 - s.nReadPos) else nNow

/-- A part of the buffer, which must be inside. -/
def copy (pos n : ℕ) : Check (List UInt8) := do
  rejectIf (s.vchBuf.length < pos + n) .undefined
  return (s.vchBuf.drop pos).take n

/-- The loop of `read`, in which every round copies a byte. -/
def readLoop : ℕ → ℕ → StateAction CBufferedFile Failure (List UInt8)
  | _, 0 => return []
  | 0, _ + 1 => .throw .diverges
  | rounds + 1, nSize + 1 => do
    refill
    let s ← .get
    .lift (rejectIf (s.vchBuf.length = 0) .undefined)
    let bytes ← .lift (s.copy (uint32 (s.nReadPos % s.vchBuf.length)) (s.nNow (nSize + 1)))
    .modify fun s => { s with nReadPos := s.nReadPos + bytes.length }
    let rest ← readLoop rounds (nSize + 1 - bytes.length)
    return bytes ++ rest

/-- Read a number of bytes. -/
def read (nSize : ℕ) : StateAction CBufferedFile Failure (List UInt8) := do
  let s ← .get
  .lift (rejectIf (uint64 (nSize + s.nReadPos) > s.nReadLimit) (.throws "Read attempted past buffer limit"))
  .lift (rejectIf (uint64 (nSize + s.nRewind) > s.vchBuf.length) (.throws "Read larger than buffer size"))
  readLoop nSize nSize

/-- Rewind to a given reading position. -/
def setPos (nPos : ℕ) : Bool × CBufferedFile :=
  if uint64 (nPos + s.nRewind) < s.nSrcPos then
    (false, { s with nReadPos := uint64 (s.nSrcPos + 2 ^ 64 - s.nRewind) })
  else if nPos > s.nSrcPos then (false, { s with nReadPos := s.nSrcPos })
  else (true, { s with nReadPos := nPos })

def seek (nPos : ℕ) : Bool × CBufferedFile :=
  let nLongPos : ℤ := if nPos < 2 ^ 63 then nPos else nPos - 2 ^ 64
  match s.src.fseek nLongPos with
  | (false, src) => (false, { s with src := src })
  | (true, src) => (true, { s with src := src, nSrcPos := src.pos, nReadPos := src.pos, state := 0 })

/-- Prevent reading beyond a certain position. -/
def setLimit (nPos : ℕ) : Bool × CBufferedFile :=
  if nPos < s.nReadPos then (false, s) else (true, { s with nReadLimit := nPos })

/-- Search for a given byte in the stream, and remain positioned on it. -/
def findLoop (ch : UInt8) : ℕ → StateAction CBufferedFile Failure Unit
  | 0 => .throw .diverges
  | rounds + 1 => do
    refill
    let s ← .get
    .lift (rejectIf (s.vchBuf.length = 0) .undefined)
    if s.vchBuf[s.nReadPos % s.vchBuf.length]? = some ch then return ()
    else
      .modify fun s => { s with nReadPos := s.nReadPos + 1 }
      findLoop ch rounds

/-- A search that reads no more and has been once around the buffer goes on forever. -/
def findByte (ch : UInt8) : StateAction CBufferedFile Failure Unit := fun s =>
  findLoop ch (s.src.content.length + s.vchBuf.length + 1) s

end CBufferedFile

inductive FileOp where
  | read (nSize : ℕ)
  | setPos (nPos : ℕ)
  | seek (nPos : ℕ)
  | setLimit (nPos : ℕ)
  | findByte (ch : UInt8)
deriving DecidableEq

def FileOp.run : FileOp → StateAction CBufferedFile Failure StreamResult
  | .read nSize => do return .bytes (← CBufferedFile.read nSize)
  | .setPos nPos => fun s => (.ok (.flag (s.setPos nPos).1), (s.setPos nPos).2)
  | .seek nPos => fun s => (.ok (.flag (s.seek nPos).1), (s.seek nPos).2)
  | .setLimit nPos => fun s => (.ok (.flag (s.setLimit nPos).1), (s.setLimit nPos).2)
  | .findByte ch => do
    CBufferedFile.findByte ch
    return .done

end BitCrystal
