import BitCrystal.Machine.Reader
import BitCrystal.Model.Transaction

/-! # The transaction format

Sizes of vectors are compact sizes, which the reader refuses above `MAX_SIZE`; the readers take this
limit as an argument. A field the format leaves out keeps the value it has in the object that is
read into.
-/

namespace BitCrystal

open LittleEndian

def MAX_SIZE : ℕ := 0x02000000

/-- `WriteCompactSize`. -/
def writeCompactSize (nSize : ℕ) : List UInt8 :=
  if nSize < 253 then encode 1 nSize
  else if nSize ≤ 65535 then 253 :: encode 2 nSize
  else if nSize ≤ UINT_MAX then 254 :: encode 4 nSize
  else 255 :: encode 8 nSize

/-- `ReadCompactSize`. -/
def readCompactSize (nMaxSize : ℕ) : Reader ℕ := do
  let chSize ← read 1
  let nSizeRet ← (if chSize < 253 then pure chSize
    else if chSize = 253 then read 2 else if chSize = 254 then read 4 else read 8)
  if nMaxSize < nSizeRet then failure else pure nSizeRet

/-- `Serialize` of a string, a script or another vector of bytes. -/
def writeVector (bytes : List UInt8) : List UInt8 := writeCompactSize bytes.length ++ bytes

def readVector (nMaxSize : ℕ) : Reader (List UInt8) := do
  let nSize ← readCompactSize nMaxSize
  Reader.bytes nSize

/-- `Serialize` of a vector of objects. -/
def writeObjects {α : Type} (serialize : α → List UInt8) (v : List α) : List UInt8 :=
  writeCompactSize v.length ++ v.flatMap serialize

def readObjects {α : Type} (nMaxSize : ℕ) (unserialize : Reader α) : Reader (List α) := do
  let nSize ← readCompactSize nMaxSize
  Reader.many unserialize nSize

namespace COutPoint

def serialize (out : COutPoint) : List UInt8 := encode 32 out.hash ++ encode 4 out.n

def unserialize : Reader COutPoint := do
  let hash ← read 32
  let n ← read 4
  return ⟨hash, n⟩

end COutPoint

namespace CTxIn

def serialize (txin : CTxIn) : List UInt8 :=
  txin.prevout.serialize ++ (writeVector txin.scriptSig ++ encode 4 txin.nSequence)

def unserialize (nMaxSize : ℕ) : Reader CTxIn := do
  let prevout ← COutPoint.unserialize
  let scriptSig ← readVector nMaxSize
  let nSequence ← read 4
  return { prevout, scriptSig, nSequence }

end CTxIn

namespace CTxOut

/-- `Serialize` without the compressor. -/
def serializePlain (txout : CTxOut) : List UInt8 := encodeInt 8 txout.nValue ++ writeVector txout.scriptPubKey

def unserializePlain (nMaxSize : ℕ) : Reader CTxOut := do
  let nValue ← readInt 8
  let scriptPubKey ← readVector nMaxSize
  return ⟨nValue, scriptPubKey⟩

end CTxOut

namespace CTransaction

def serialize (tx : CTransaction) : List UInt8 :=
  encodeInt 4 tx.nVersion ++ (writeObjects CTxIn.serialize tx.vin ++ (writeObjects CTxOut.serializePlain tx.vout ++
    (encode 4 tx.nLockTime ++ if TXCOMMENT_VERSION ≤ tx.nVersion then writeVector tx.strTxComment else [])))

/-- `Unserialize` into an object. -/
def unserialize (nMaxSize : ℕ) (old : CTransaction) : Reader CTransaction := do
  let nVersion ← readInt 4
  let vin ← readObjects nMaxSize (CTxIn.unserialize nMaxSize)
  let vout ← readObjects nMaxSize (CTxOut.unserializePlain nMaxSize)
  let nLockTime ← read 4
  let strTxComment ← (if TXCOMMENT_VERSION ≤ nVersion then readVector nMaxSize else pure old.strTxComment)
  return { nVersion, vin, vout, nLockTime, strTxComment }

end CTransaction

/-- The fields are values of the C++ types. -/
def CTxIn.Representable (txin : CTxIn) : Prop :=
  txin.prevout.hash < 2 ^ 256 ∧ txin.prevout.n < 2 ^ 32 ∧ txin.scriptSig.length < 2 ^ 64 ∧ txin.nSequence < 2 ^ 32

def CTxOut.Representable (txout : CTxOut) : Prop := InInt64 txout.nValue ∧ txout.scriptPubKey.length < 2 ^ 64

/-- The fields are values of the C++ types. -/
@[mk_iff]
structure CTransaction.Representable (tx : CTransaction) : Prop where
  nVersion : -2 ^ 31 ≤ tx.nVersion ∧ tx.nVersion < 2 ^ 31
  vinSize : tx.vin.length < 2 ^ 64
  vin : ∀ txin ∈ tx.vin, txin.Representable
  voutSize : tx.vout.length < 2 ^ 64
  vout : ∀ txout ∈ tx.vout, txout.Representable
  nLockTime : tx.nLockTime < 2 ^ 32
  comment : tx.strTxComment.length < 2 ^ 64

/-- No vector is longer than the reader allows. -/
@[mk_iff]
structure CTransaction.Readable (nMaxSize : ℕ) (tx : CTransaction) : Prop where
  vinSize : tx.vin.length ≤ nMaxSize
  vin : ∀ txin ∈ tx.vin, txin.scriptSig.length ≤ nMaxSize
  voutSize : tx.vout.length ≤ nMaxSize
  vout : ∀ txout ∈ tx.vout, txout.scriptPubKey.length ≤ nMaxSize
  comment : TXCOMMENT_VERSION ≤ tx.nVersion → tx.strTxComment.length ≤ nMaxSize

instance (txin : CTxIn) : Decidable txin.Representable := inferInstanceAs (Decidable (_ ∧ _))

instance (txout : CTxOut) : Decidable txout.Representable := inferInstanceAs (Decidable (_ ∧ _))

instance (tx : CTransaction) : Decidable tx.Representable := decidable_of_iff _ (tx.representable_iff).symm

instance (nMaxSize : ℕ) (tx : CTransaction) : Decidable (tx.Readable nMaxSize) :=
  decidable_of_iff _ (tx.readable_iff nMaxSize).symm

end BitCrystal
