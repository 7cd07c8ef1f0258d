import BitCrystal.Model.Script
import BitCrystal.Model.Validation

/-! # Transactions, headers and blocks

The records follow the classes field by field. A hash is a natural number: the width of `uint256`
plays no role where hashing is an uninterpreted function. `SerializedTx` and the size functions
are the parts of the serialization the rules look at; the comment of a transaction is written
only from version two on.
-/

namespace BitCrystal

abbrev Uint256 := ℕ

def MAX_BLOCK_SIZE : ℕ := 1000000
def MAX_TX_COMMENT_LEN : ℕ := 140
def MAX_BLOCK_SIZE_GEN : ℕ := MAX_BLOCK_SIZE / 2
def MAX_STANDARD_TX_SIZE : ℕ := MAX_BLOCK_SIZE_GEN / 5
def MAX_BLOCK_SIGOPS : ℕ := MAX_BLOCK_SIZE / 50
def COINBASE_MATURITY : ℤ := 120
def LOCKTIME_THRESHOLD : ℕ := 500000000

/-- `std::numeric_limits<unsigned int>::max()`. -/
def UINT_MAX : ℕ := 4294967295

structure COutPoint where
  hash : Uint256
  n : ℕ
deriving DecidableEq, Repr

namespace COutPoint

def null : COutPoint := ⟨0, UINT_MAX⟩

def isNull (out : COutPoint) : Prop := out.hash = 0 ∧ out.n = UINT_MAX

instance (out : COutPoint) : Decidable out.isNull := inferInstanceAs (Decidable (_ ∧ _))

end COutPoint

structure CTxIn where
  prevout : COutPoint
  scriptSig : CScript
  nSequence : ℕ := UINT_MAX
deriving DecidableEq, Repr

structure CTxOut where
  nValue : ℤ
  scriptPubKey : CScript
deriving DecidableEq, Repr

namespace CTxOut

/-- The default constructor, also written by `SetNull`. -/
def null : CTxOut := ⟨-1, []⟩

def isNull (out : CTxOut) : Prop := out.nValue = -1

instance (out : CTxOut) : Decidable out.isNull := inferInstanceAs (Decidable (_ = _))

@[simp] theorem isNull_null : CTxOut.null.isNull := rfl

end CTxOut

/-- What `IMPLEMENT_SERIALIZE` of a transaction writes. -/
structure SerializedTx where
  nVersion : ℤ
  vin : List CTxIn
  vout : List CTxOut
  nLockTime : ℕ
  strTxComment : Option (List UInt8)
deriving DecidableEq, Repr

structure CTransaction where
  nVersion : ℤ := 1
  vin : List CTxIn
  vout : List CTxOut
  nLockTime : ℕ := 0
  strTxComment : List UInt8 := []
deriving DecidableEq, Repr

/-- `GetSizeOfCompactSize`. -/
def getSizeOfCompactSize (nSize : ℕ) : ℕ :=
  if nSize < 253 then 1 else if nSize ≤ 65535 then 3 else if nSize ≤ UINT_MAX then 5 else 9

/-- The serialized size of a byte vector. -/
def vectorSize (bytes : List UInt8) : ℕ := getSizeOfCompactSize bytes.length + bytes.length

def CTxIn.getSerializeSize (txin : CTxIn) : ℕ := 36 + vectorSize txin.scriptSig + 4

def CTxOut.getSerializeSize (txout : CTxOut) : ℕ := 8 + vectorSize txout.scriptPubKey

namespace CTransaction

def TXCOMMENT_VERSION : ℤ := 2

def serialized (tx : CTransaction) : SerializedTx where
  nVersion := tx.nVersion
  vin := tx.vin
  vout := tx.vout
  nLockTime := tx.nLockTime
  strTxComment := if TXCOMMENT_VERSION ≤ tx.nVersion then some tx.strTxComment else none

def getSerializeSize (tx : CTransaction) : ℕ :=
  4 + getSizeOfCompactSize tx.vin.length + (tx.vin.map CTxIn.getSerializeSize).sum +
    getSizeOfCompactSize tx.vout.length + (tx.vout.map CTxOut.getSerializeSize).sum + 4 +
    if TXCOMMENT_VERSION ≤ tx.nVersion then vectorSize tx.strTxComment else 0

/-- `operator==`, which does not look at the comment. -/
def eq (a b : CTransaction) : Prop :=
  a.nVersion = b.nVersion ∧ a.vin = b.vin ∧ a.vout = b.vout ∧ a.nLockTime = b.nLockTime

instance (a b : CTransaction) : Decidable (a.eq b) := inferInstanceAs (Decidable (_ ∧ _))

/-- A coinbase has one input, and that input refers to nothing. -/
def isCoinBase (tx : CTransaction) : Prop := tx.vin.length = 1 ∧ ∀ txin ∈ tx.vin, txin.prevout.isNull

instance (tx : CTransaction) : Decidable tx.isCoinBase := inferInstanceAs (Decidable (_ ∧ ∀ _ ∈ _, _))

/-- The outpoints the inputs name, in order. -/
def prevouts (tx : CTransaction) : List COutPoint := tx.vin.map CTxIn.prevout

/-- The loop of `GetValueOut`. -/
def valueOutLoop : ℤ → List CTxOut → Check ℤ
  | nValueOut, [] => .ok nValueOut
  | nValueOut, txout :: rest => do
    let nValueOut ← int64 (nValueOut + txout.nValue)
    rejectIf (¬ moneyRange txout.nValue ∨ ¬ moneyRange nValueOut)
      (.throws "CTransaction::GetValueOut() : value out of range")
    valueOutLoop nValueOut rest

def getValueOut (tx : CTransaction) : Check ℤ := valueOutLoop 0 tx.vout

/-- The output loop of `CheckTransaction`. -/
def checkOutputs : ℤ → List CTxOut → Check ℤ
  | nValueOut, [] => .ok nValueOut
  | nValueOut, txout :: rest => do
    rejectIf (txout.nValue < 0)
      (.dos 100 "CTransaction::CheckTransaction() : txout.nValue negative")
    rejectIf (MAX_MONEY < txout.nValue)
      (.dos 100 "CTransaction::CheckTransaction() : txout.nValue too high")
    let nValueOut ← int64 (nValueOut + txout.nValue)
    rejectIf (¬ moneyRange nValueOut)
      (.dos 100 "CTransaction::CheckTransaction() : txout total out of range")
    checkOutputs nValueOut rest

/-- The basic checks that do not depend on any context. -/
def checkTransaction (tx : CTransaction) : Check Unit := do
  rejectIf (tx.vin = []) (.dos 10 "CTransaction::CheckTransaction() : vin empty")
  rejectIf (tx.vout = []) (.dos 10 "CTransaction::CheckTransaction() : vout empty")
  rejectIf (MAX_BLOCK_SIZE < tx.getSerializeSize)
    (.dos 100 "CTransaction::CheckTransaction() : size limits failed")
  let _ ← checkOutputs 0 tx.vout
  rejectIf (¬ tx.prevouts.Nodup) (.dos 100 "CTransaction::CheckTransaction() : duplicate inputs")
  if tx.isCoinBase then
    rejectIf (∃ txin ∈ tx.vin, txin.scriptSig.length < 2 ∨ 100 < txin.scriptSig.length)
      (.dos 100 "CTransaction::CheckTransaction() : coinbase script size")
  else
    rejectIf (∃ txin ∈ tx.vin, txin.prevout.isNull)
      (.dos 10 "CTransaction::CheckTransaction() : prevout is null")

def getLegacySigOpCount (tx : CTransaction) : ℕ :=
  (tx.vin.map fun txin => txin.scriptSig.getSigOpCount false).sum +
    (tx.vout.map fun txout => txout.scriptPubKey.getSigOpCount false).sum

end CTransaction

structure CBlockHeader where
  nVersion : ℤ := 112
  hashPrevBlock : Uint256
  hashMerkleRoot : Uint256
  nTime : ℕ
  nBits : ℕ
  nNonce : ℕ
deriving DecidableEq, Repr

structure CBlock extends CBlockHeader where
  vtx : List CTransaction
deriving DecidableEq, Repr

def CBlock.getSerializeSize (block : CBlock) : ℕ :=
  80 + getSizeOfCompactSize block.vtx.length + (block.vtx.map CTransaction.getSerializeSize).sum

end BitCrystal
