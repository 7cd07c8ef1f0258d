import BitCrystal.Machine.OrderedMap
import BitCrystal.Model.BaseTexts
import BitCrystal.Model.Wallet

/-! # The records of accounting entries and wallet transactions

Some fields are written as entries of `mapValue` under reserved keys, and the map of an accounting entry behind a NUL
in its comment. Writing edits the object, so it gives the object it leaves. Strings are byte strings.
-/

namespace BitCrystal

namespace WalletRecords

open LittleEndian

/-- Bytes in the order in which strings compare them. -/
scoped instance byteOrder : LinearOrder UInt8 where
  le_refl := UInt8.le_refl
  le_trans _ _ _ := UInt8.le_trans
  le_antisymm _ _ := UInt8.le_antisymm
  le_total := UInt8.le_total
  lt_iff_le_not_ge a b := by
    simp only [UInt8.lt_iff_toNat_lt, UInt8.le_iff_toNat_le]
    omega
  toDecidableLE := inferInstance

abbrev mapValue_t := OrderedMap valtype valtype

def ascii (text : List Char) : valtype := text.map fun c => UInt8.ofNat c.toNat

def fromaccountKey : valtype := ascii ['f', 'r', 'o', 'm', 'a', 'c', 'c', 'o', 'u', 'n', 't']
def versionKey : valtype := ascii ['v', 'e', 'r', 's', 'i', 'o', 'n']
def spentKey : valtype := ascii ['s', 'p', 'e', 'n', 't']
def nKey : valtype := ascii ['n']
def timesmartKey : valtype := ascii ['t', 'i', 'm', 'e', 's', 'm', 'a', 'r', 't']

def i64tostr (n : ℤ) : valtype := if n < 0 then minusChar :: Decimal.write n.natAbs else Decimal.write n.natAbs

/-- `strtoll` to the base ten, which stops at the first character that is no digit and at the bounds of the type. -/
def atoi64 (str : valtype) : ℤ :=
  let magnitude (digits : valtype) : ℤ := Decimal.value (digits.takeWhile isdigit)
  match (cString str).dropWhile isspace with
  | minusChar :: digits => max (-magnitude digits) (-2 ^ 63)
  | plusChar :: digits => min (magnitude digits) (2 ^ 63 - 1)
  | digits => min (magnitude digits) (2 ^ 63 - 1)

def readOrderPos (mapValue : mapValue_t) : ℤ :=
  match mapValue.find? nKey with
  | none => -1
  | some str => atoi64 str

def writeOrderPos (nOrderPos : ℤ) (mapValue : mapValue_t) : mapValue_t :=
  if nOrderPos = -1 then mapValue else mapValue.insert nKey (i64tostr nOrderPos)

def writePair (item : valtype × valtype) : List UInt8 := writeVector item.1 ++ writeVector item.2

def readPair (nMaxSize : ℕ) : Reader (valtype × valtype) := do
  let first ← readVector nMaxSize
  let second ← readVector nMaxSize
  return (first, second)

def writeMap (mapValue : mapValue_t) : List UInt8 := writeObjects writePair mapValue.entries

def readMap (nMaxSize : ℕ) : Reader mapValue_t := do
  let items ← readObjects nMaxSize (readPair nMaxSize)
  return items.foldl OrderedMap.insertNew ∅

def readChar : Reader UInt8
  | [] => none
  | c :: stream => some (c, stream)

structure CAccountingEntry where
  strAccount : valtype := []
  nCreditDebit : ℤ := 0
  nTime : ℤ := 0
  strOtherAccount : valtype := []
  strComment : valtype := []
  mapValue : mapValue_t := ∅
  nOrderPos : ℤ := -1
  nEntryNo : ℕ := 0
  _ssExtra : List UInt8 := []

namespace CAccountingEntry

/-- What is appended to the comment. -/
def extra (mapValue : mapValue_t) (_ssExtra : List UInt8) : List UInt8 :=
  if mapValue.size = 0 ∧ _ssExtra = [] then [] else 0 :: (writeMap mapValue ++ _ssExtra)

/-- The bytes, and the object that is left. Account and number are serialized as part of the key, not here. -/
def serialize (nVersion : ℤ) (entry : CAccountingEntry) : List UInt8 × CAccountingEntry :=
  let mapValue := writeOrderPos entry.nOrderPos entry.mapValue
  let strComment := entry.strComment ++ extra mapValue entry._ssExtra
  (encodeInt 4 nVersion ++ (encodeInt 8 entry.nCreditDebit ++ (encodeInt 8 entry.nTime ++
      (writeVector entry.strOtherAccount ++ writeVector strComment))),
    { entry with strComment := strComment.takeWhile fun c => c != 0, mapValue := mapValue.erase nKey })

/-- The map and what is behind it in a comment, if there is a NUL. -/
def readExtra (nMaxSize : ℕ) (old : CAccountingEntry) (strComment : valtype) : Option (mapValue_t × List UInt8) :=
  match strComment.dropWhile fun c => c != 0 with
  | [] => some (∅, old._ssExtra)
  | _ :: ss => (readMap nMaxSize).run ss

/-- The fields that are taken out of the comment. -/
def setExtra (entry : CAccountingEntry) (strComment : valtype) (ss : mapValue_t × List UInt8) : CAccountingEntry :=
  { entry with
    strComment := strComment.takeWhile fun c => c != 0
    mapValue := ss.1.erase nKey
    nOrderPos := readOrderPos ss.1
    _ssExtra := ss.2 }

/-- `Unserialize` into an object. -/
def unserialize (nMaxSize : ℕ) (old : CAccountingEntry) : Reader CAccountingEntry := do
  let _ ← readInt 4
  let nCreditDebit ← readInt 8
  let nTime ← readInt 8
  let strOtherAccount ← readVector nMaxSize
  let strComment ← readVector nMaxSize
  match readExtra nMaxSize old strComment with
  | none => failure
  | some ss => return setExtra { old with nCreditDebit, nTime, strOtherAccount } strComment ss

end CAccountingEntry

end WalletRecords

namespace CMerkleTx

open LittleEndian

def serialize (wtx : CMerkleTx) : List UInt8 :=
  wtx.tx.serialize ++ (encode 32 wtx.hashBlock ++ (writeObjects (encode 32) wtx.vMerkleBranch ++ encodeInt 4 wtx.nIndex))

/-- `Unserialize` into an object. -/
def unserialize (nMaxSize : ℕ) (old : CMerkleTx) : Reader CMerkleTx := do
  let tx ← CTransaction.unserialize nMaxSize old.tx
  let hashBlock ← read 32
  let vMerkleBranch ← readObjects nMaxSize (read 32)
  let nIndex ← readInt 4
  return { tx, hashBlock, vMerkleBranch, nIndex }

/-- A fresh object. -/
def fresh : CMerkleTx := { tx := { vin := [], vout := [] } }

end CMerkleTx

namespace WalletRecords

open LittleEndian

/-- The fields that are written, with the spent flags as truth values. -/
structure CWalletTx extends CMerkleTx where
  vtxPrev : List CMerkleTx := []
  mapValue : mapValue_t := ∅
  vOrderForm : List (valtype × valtype) := []
  fTimeReceivedIsTxTime : ℕ := 0
  nTimeReceived : ℕ := 0
  nTimeSmart : ℕ := 0
  fFromMe : UInt8 := 0
  strFromAccount : valtype := []
  vfSpent : List Bool := []
  nOrderPos : ℤ := -1

namespace CWalletTx

def reservedKeys : List valtype := [fromaccountKey, versionKey, spentKey, nKey, timesmartKey]

def eraseReserved (mapValue : mapValue_t) : mapValue_t := reservedKeys.foldl OrderedMap.erase mapValue

/-- The map with the fields that are written as its entries. -/
def fullMap (wtx : CWalletTx) : mapValue_t :=
  let mapValue := wtx.mapValue.insert fromaccountKey wtx.strFromAccount
  let str := wtx.vfSpent.map fun f => if f then 49 else 48
  let mapValue := mapValue.insert spentKey str
  let mapValue := writeOrderPos wtx.nOrderPos mapValue
  if wtx.nTimeSmart ≠ 0 then mapValue.insert timesmartKey (Decimal.write wtx.nTimeSmart) else mapValue

/-- The bytes, and the object that is left. -/
def serialize (wtx : CWalletTx) : List UInt8 × CWalletTx :=
  let fSpent : UInt8 := if wtx.vfSpent.any id then 1 else 0
  (wtx.toCMerkleTx.serialize ++ (writeObjects CMerkleTx.serialize wtx.vtxPrev ++ (writeMap wtx.fullMap ++
      (writeObjects writePair wtx.vOrderForm ++ (encode 4 wtx.fTimeReceivedIsTxTime ++ (encode 4 wtx.nTimeReceived ++
        [wtx.fFromMe, fSpent]))))),
    { wtx with mapValue := eraseReserved wtx.fullMap })

/-- The number is converted to `unsigned int`. -/
def readTimeSmart (mapValue : mapValue_t) : ℕ :=
  match mapValue.find? timesmartKey with
  | some str => (atoi64 str % 2 ^ 32).toNat
  | none => 0

/-- The fields that are taken out of the map. -/
def takeFields (wtx : CWalletTx) (fSpent : UInt8) : CWalletTx :=
  { wtx with
    strFromAccount := (wtx.mapValue.find? fromaccountKey).getD []
    vfSpent := match wtx.mapValue.find? spentKey with
      | some str => str.map fun c => c != 48
      | none => List.replicate wtx.tx.vout.length (fSpent != 0)
    nOrderPos := readOrderPos wtx.mapValue
    nTimeSmart := readTimeSmart wtx.mapValue
    mapValue := eraseReserved wtx.mapValue }

/-- `Unserialize` into an object; `Init` clears all but the transaction with its place. -/
def unserialize (nMaxSize : ℕ) (old : CWalletTx) : Reader CWalletTx := do
  let merkle ← CMerkleTx.unserialize nMaxSize old.toCMerkleTx
  let vtxPrev ← readObjects nMaxSize (CMerkleTx.unserialize nMaxSize .fresh)
  let mapValue ← readMap nMaxSize
  let vOrderForm ← readObjects nMaxSize (readPair nMaxSize)
  let fTimeReceivedIsTxTime ← read 4
  let nTimeReceived ← read 4
  let fFromMe ← readChar
  let fSpent ← readChar
  let wtx : CWalletTx :=
    { toCMerkleTx := merkle, vtxPrev, mapValue, vOrderForm, fTimeReceivedIsTxTime, nTimeReceived, fFromMe }
  return wtx.takeFields fSpent

/-- A fresh object. -/
def fresh : CWalletTx where
  toCMerkleTx := .fresh

end CWalletTx

end WalletRecords

end BitCrystal
