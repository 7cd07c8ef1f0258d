import BitCrystal.Model.NetMessage

/-! # Streams of bytes in memory

`CDataStream` keeps the bytes that have been read in front of a read position of 32 bits. Iterators are offsets from
the beginning of the vector. Type and version of a stream, which its bytes do not depend on, are left out.
-/

namespace BitCrystal

open Socket (memcpyAt)

def badbit : ℕ := 1
def failbit : ℕ := 4

structure CDataStream where
  vch : List UInt8
  nReadPos : ℕ := 0
  state : ℕ := 0
  exceptmask : ℕ := badbit ||| failbit
deriving DecidableEq

namespace CDataStream

variable (s : CDataStream)

/-- The bytes from `begin()` to `end()`, which are also `str()`. -/
def bytes : List UInt8 := s.vch.drop s.nReadPos

/-- The difference, which `size_type` takes modulo its range. -/
def size : ℤ := s.vch.length - s.nReadPos

/-- `operator[]`. -/
def at? (pos : ℕ) : Option UInt8 := s.vch[pos + s.nReadPos]?

/-- `insert(it, n, x)`. -/
def insertFill (it n : ℕ) (x : UInt8) : CDataStream :=
  { s with vch := s.vch.take it ++ List.replicate n x ++ s.vch.drop it }

/-- `insert(it, first, last)`. -/
def insert (it : ℕ) (source : List UInt8) : StateAction CDataStream Failure Unit := do
  let s ← .get
  if it = s.nReadPos ∧ uint32 source.length ≤ s.nReadPos then
    -- special case for inserting at the front when there's room
    let nReadPos := uint32 (s.nReadPos + 2 ^ 32 - uint32 source.length)
    let vch ← .lift (memcpyAt s.vch nReadPos source)
    .modify fun s => { s with vch := vch, nReadPos := nReadPos }
  else .modify fun s => { s with vch := s.vch.take it ++ source ++ s.vch.drop it }

/-- `erase(it)`. -/
def erase (it : ℕ) : CDataStream :=
  if it = s.nReadPos then
    -- special case for erasing from the front
    let nReadPos := uint32 (s.nReadPos + 1)
    -- whenever we reach the end, we take the opportunity to clear the buffer
    if nReadPos ≥ s.vch.length then { s with vch := [], nReadPos := 0 }
    else { s with nReadPos := nReadPos }
  else { s with vch := s.vch.eraseIdx it }

/-- `erase(first, last)`. -/
def eraseRange (first last : ℕ) : CDataStream :=
  if first = s.nReadPos then
    -- special case for erasing from the front
    if last = s.vch.length then { s with vch := [], nReadPos := 0 }
    else { s with nReadPos := uint32 last }
  else { s with vch := s.vch.take first ++ s.vch.drop last }

def compact : CDataStream := { s with vch := s.vch.drop s.nReadPos, nReadPos := 0 }

/-- Rewind by n characters if the buffer hasn't been compacted yet. -/
def rewind (n : ℕ) : Bool × CDataStream :=
  if n > s.nReadPos then (false, s) else (true, { s with nReadPos := s.nReadPos - n })

def setstate (bits : ℕ) (psz : String) : StateAction CDataStream Failure Unit := do
  .modify fun s => { s with state := s.state ||| bits }
  let s ← .get
  if s.state &&& s.exceptmask ≠ 0 then .throw (.throws psz)

/-- `read`; the bytes come with zeros behind them where failures do not throw. -/
def read (nSize : ℤ) : StateAction CDataStream Failure (List UInt8) := do
  .lift (rejectIf (nSize < 0) (.assertion "nSize >= 0"))
  let s ← .get
  let nReadPosNext := uint32 (s.nReadPos + nSize.toNat)
  if nReadPosNext ≥ s.vch.length then
    if nReadPosNext > s.vch.length then setstate failbit "CDataStream::read() : end of data"
    .modify fun s => { s with vch := [], nReadPos := 0 }
    return s.bytes ++ List.replicate (nSize.toNat - s.bytes.length) 0
  else
    .lift (rejectIf (s.vch.length < s.nReadPos + nSize.toNat) .undefined)
    .modify fun s => { s with nReadPos := nReadPosNext }
    return s.bytes.take nSize.toNat

def ignore (nSize : ℤ) : StateAction CDataStream Failure Unit := do
  .lift (rejectIf (nSize < 0) (.assertion "nSize >= 0"))
  let s ← .get
  let nReadPosNext := uint32 (s.nReadPos + nSize.toNat)
  if nReadPosNext ≥ s.vch.length then
    if nReadPosNext > s.vch.length then setstate failbit "CDataStream::ignore() : end of data"
    .modify fun s => { s with vch := [], nReadPos := 0 }
  else .modify fun s => { s with nReadPos := nReadPosNext }

def write (source : List UInt8) : CDataStream := { s with vch := s.vch ++ source }

/-- The bytes that `Serialize` writes: stream << stream concatenates like stream += stream. -/
def serialize : List UInt8 := s.vch

def getAndClear : List UInt8 × CDataStream := (s.vch, { s with vch := [] })

end CDataStream

/-- What is done to a stream, insertions and erasures at the front. -/
inductive StreamOp where
  | write (source : List UInt8)
  | read (nSize : ℤ)
  | ignore (nSize : ℤ)
  | insertFill (n : ℕ) (x : UInt8)
  | insert (source : List UInt8)
  | erase
  | eraseRange (n : ℕ)
  | rewind (n : ℕ)
  | compact
  | serialize
  | getAndClear
deriving DecidableEq

/-- What comes out. -/
inductive StreamResult where
  | done
  | flag (value : Bool)
  | bytes (value : List UInt8)
deriving DecidableEq

def StreamOp.run : StreamOp → StateAction CDataStream Failure StreamResult
  | .write source => do
    .modify fun s => s.write source
    return .done
  | .read nSize => do return .bytes (← CDataStream.read nSize)
  | .ignore nSize => do
    CDataStream.ignore nSize
    return .done
  | .insertFill n x => do
    .modify fun s => s.insertFill s.nReadPos n x
    return .done
  | .insert source => do
    let s ← .get
    CDataStream.insert s.nReadPos source
    return .done
  | .erase => do
    .modify fun s => s.erase s.nReadPos
    return .done
  | .eraseRange n => do
    .modify fun s => s.eraseRange s.nReadPos (s.nReadPos + n)
    return .done
  | .rewind n => fun s => (.ok (.flag (s.rewind n).1), (s.rewind n).2)
  | .compact => do
    .modify CDataStream.compact
    return .done
  | .serialize => do return .bytes (← .get).serialize
  | .getAndClear => fun s => (.ok (.bytes s.getAndClear.1), s.getAndClear.2)

/-- The results of a run, which goes on after an exception, and the stream at its end. -/
def streamRun : List StreamOp → CDataStream → List (Except Failure StreamResult) × CDataStream
  | [], s => ([], s)
  | op :: ops, s =>
    let (result, s) := op.run s
    let (results, s) := streamRun ops s
    (result :: results, s)

end BitCrystal
