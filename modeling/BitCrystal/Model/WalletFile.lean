import Mathlib.Data.List.Sort
import BitCrystal.Machine.StateAction
import BitCrystal.Machine.Journal
import BitCrystal.Model.Validation

/-! # The wallet file

Records, the `move` command and the order of the transactions.
-/

namespace BitCrystal

/-! ## Records

Records of the wallet file that the accounting, the order of the transactions and the encryption of the wallet use.
The account of an entry is part of its key in the file. `CWalletDB` is a handle whose calls may fail.
-/

structure CAccountingEntry where
  strAccount : String := ""
  nCreditDebit : ℤ := 0
  nTime : ℤ := 0
  strOtherAccount : String := ""
  strComment : String := ""
  nOrderPos : ℤ := -1
deriving DecidableEq

/-- The part of `CWalletTx` that the order of the transactions depends on. -/
structure OrderedWalletTx where
  nTimeReceived : ℕ
  nOrderPos : ℤ := -1
deriving DecidableEq

structure CMasterKey where
  vchCryptedKey : List UInt8 := []
  vchSalt : List UInt8 := []
  nDerivationMethod : ℕ := 0
  nDeriveIterations : ℕ := 25000
deriving DecidableEq

inductive WalletKey
  | acentry (strAccount : String) (nAccEntryNum : ℕ)
  | orderposnext
  | tx (hash : ℕ)
  | mkey (nID : ℕ)
  | key (vchPubKey : List UInt8)
  | wkey (vchPubKey : List UInt8)
  | ckey (vchPubKey : List UInt8)
  | setting (strKey : String)
  | minversion
  | pool (nIndex : ℕ)
deriving DecidableEq

inductive WalletRecord
  | acentry (acentry : CAccountingEntry)
  | orderposnext (nOrderPosNext : ℤ)
  | tx (wtx : OrderedWalletTx)
  | mkey (kMasterKey : CMasterKey)
  | key (vchPrivKey : List UInt8)
  | ckey (vchCryptedSecret : List UInt8)
  | addrIncoming
  | minversion (nVersion : ℤ)
  | pool (vchPubKey : List UInt8)
deriving DecidableEq

abbrev WalletRecords : Type := Records WalletKey WalletRecord

/-- The order in which a cursor goes through the records. -/
structure Cursor where
  toList : WalletRecords → List (Sigma fun _ : WalletKey => WalletRecord)
  perm : ∀ records, (toList records).Perm records.entries

abbrev CWalletDB : Type := TxnStore WalletKey WalletRecord

namespace CWalletDB

variable (ok : ℕ → Bool)

def writeOrderPosNext (nOrderPosNext : ℤ) (db : CWalletDB) : Bool × CWalletDB :=
  db.put ok true .orderposnext (.orderposnext nOrderPosNext)

/-- `WriteAccountingEntry` with a number. -/
def writeAccountingEntry (nAccEntryNum : ℕ) (acentry : CAccountingEntry) (db : CWalletDB) : Bool × CWalletDB :=
  db.put ok true (.acentry acentry.strAccount nAccEntryNum) (.acentry acentry)

def writeTx (hash : ℕ) (wtx : OrderedWalletTx) (db : CWalletDB) : Bool × CWalletDB :=
  db.put ok true (.tx hash) (.tx wtx)

end CWalletDB

/-- What the command works on: the handle, and the counters of the wallet and of the database. -/
structure AccountBook where
  walletdb : CWalletDB
  nOrderPosNext : ℤ
  nAccountingEntryNumber : ℕ

namespace AccountBook

variable (ok : ℕ → Bool)

/-- A call of the handle. -/
def onDB (f : CWalletDB → Bool × CWalletDB) : StateAction AccountBook Failure Bool := fun book =>
  (.ok (f book.walletdb).1, { book with walletdb := (f book.walletdb).2 })

/-- `IncOrderPosNext` with a handle; the result of the write is dropped. -/
def incOrderPosNext : StateAction AccountBook Failure ℤ := do
  let book ← StateAction.get
  let nRet := book.nOrderPosNext
  let nOrderPosNext ← StateAction.lift (int64 (nRet + 1))
  StateAction.modify fun book => { book with nOrderPosNext }
  let _ ← onDB (CWalletDB.writeOrderPosNext ok nOrderPosNext)
  return nRet

/-- `WriteAccountingEntry` with the next number, a `uint64`. -/
def writeAccountingEntry (acentry : CAccountingEntry) : StateAction AccountBook Failure Bool := do
  StateAction.modify fun book =>
    { book with nAccountingEntryNumber := (book.nAccountingEntryNumber + 1) % 2 ^ 64 }
  let book ← StateAction.get
  onDB (CWalletDB.writeAccountingEntry ok book.nAccountingEntryNumber acentry)

/-- An entry of the command, its position and the write of it, whose result is dropped. -/
def moveEntry (strAccount : String) (nCreditDebit nTime : ℤ) (strOtherAccount strComment : String) :
    StateAction AccountBook Failure Unit := do
  let nOrderPos ← incOrderPosNext ok
  let _ ← writeAccountingEntry ok { strAccount, nCreditDebit, nTime, strOtherAccount, strComment, nOrderPos }

/-- `movecmd` from the handle on. -/
def moveThrough (strFrom strTo : String) (nAmount nNow : ℤ) (strComment : String) :
    StateAction AccountBook Failure Bool := do
  let fBegun ← onDB (TxnStore.begin ok)
  if ¬ fBegun then StateAction.throw (.throws "database error")
  moveEntry ok strFrom (-nAmount) nNow strTo strComment
  moveEntry ok strTo nAmount nNow strFrom strComment
  let fCommitted ← onDB (TxnStore.commit ok)
  if ¬ fCommitted then StateAction.throw (.throws "database error")
  return true

/-- `movecmd`; the handle is made for it, and an open transaction is dropped at the end. -/
def movecmd (strFrom strTo : String) (nAmount nNow : ℤ) (strComment : String) (book : AccountBook) :
    Check Bool × AccountBook :=
  let (result, book) := moveThrough ok strFrom strTo nAmount nNow strComment
    { book with walletdb := .new book.walletdb.file }
  (result, { book with walletdb := book.walletdb.abort })

end AccountBook

/-! ## Reordering the transactions of a wallet

`ReorderTransactions` gives a position to the transactions and the accounting entries that have none. The
transactions are changed in memory, the entries in the wallet file. The order of the records under a cursor is a
parameter.
-/

inductive DBErrors
  | DB_LOAD_OK
  | DB_LOAD_FAIL
deriving DecidableEq

/-- What is sorted: a pointer to a transaction, or an entry read from the file with its number. -/
inductive TxPair
  | pwtx (hash : ℕ)
  | pacentry (nEntryNo : ℕ) (acentry : CAccountingEntry)
deriving DecidableEq

/-- The wallet with the handle of its file. -/
structure OrderBook where
  walletdb : CWalletDB
  mapWallet : AList fun _ : ℕ => OrderedWalletTx
  nOrderPosNext : ℤ

namespace OrderBook

variable (ok : ℕ → Bool) (cursor : Cursor)

/-- An entry of the account under a record, which keeps its account in the key. -/
def acentryOf (strAccount : String) : (Sigma fun _ : WalletKey => WalletRecord) → Option (ℕ × CAccountingEntry)
  | ⟨.acentry strKeyAccount nEntryNo, .acentry acentry⟩ =>
    if strAccount = "*" ∨ strKeyAccount = strAccount then
      some (nEntryNo, { acentry with strAccount := strKeyAccount })
    else none
  | _ => none

/-- A call of the handle. -/
def onFile (f : CWalletDB → Bool × CWalletDB) : StateAction OrderBook Failure Bool := fun book =>
  (.ok (f book.walletdb).1, { book with walletdb := (f book.walletdb).2 })

/-- `ListAccountCreditDebit`; getting the cursor and scanning the file may fail. -/
def listAccountCreditDebit (strAccount : String) : StateAction OrderBook Failure (List (ℕ × CAccountingEntry)) := do
  let fCursor ← onFile fun db => db.call (ok db.calls)
  StateAction.lift (rejectIf (¬ fCursor) (.throws "CWalletDB::ListAccountCreditDebit() : cannot create DB cursor"))
  let fScanned ← onFile fun db => db.call (ok db.calls)
  StateAction.lift (rejectIf (¬ fScanned) (.throws "CWalletDB::ListAccountCreditDebit() : error scanning DB"))
  let book ← StateAction.get
  return (cursor.toList book.walletdb.view).filterMap (acentryOf strAccount)

/-- The items with their times: all transactions, and then the entries. -/
def txItems (mapWallet : AList fun _ : ℕ => OrderedWalletTx) (acentries : List (ℕ × CAccountingEntry)) :
    List (ℤ × TxPair) :=
  mapWallet.entries.map (fun entry => ((entry.2.nTimeReceived : ℤ), .pwtx entry.1)) ++
    acentries.map fun entry => (entry.2.nTime, .pacentry entry.1 entry.2)

/-- The multimap by time; items of one time stay in the order in which they are inserted. -/
def txByTime (mapWallet : AList fun _ : ℕ => OrderedWalletTx) (acentries : List (ℕ × CAccountingEntry)) :
    List TxPair :=
  ((txItems mapWallet acentries).insertionSort fun a b => a.1 ≤ b.1).map Prod.snd

/-- `nOrderPos` of what an item points to. -/
def nOrderPosOf : TxPair → StateAction OrderBook Failure ℤ
  | .pwtx hash => do
    let book ← StateAction.get
    let wtx ← StateAction.lift (assertSome .undefined (book.mapWallet.lookup hash))
    return wtx.nOrderPos
  | .pacentry _ acentry => return acentry.nOrderPos

/-- Assign a position through the reference. -/
def assign (nOrderPos : ℤ) : TxPair → StateAction OrderBook Failure TxPair
  | .pwtx hash => do
    let book ← StateAction.get
    let wtx ← StateAction.lift (assertSome .undefined (book.mapWallet.lookup hash))
    StateAction.modify fun book => { book with mapWallet := book.mapWallet.insert hash { wtx with nOrderPos } }
    return .pwtx hash
  | .pacentry nEntryNo acentry => return .pacentry nEntryNo { acentry with nOrderPos }

def write : TxPair → StateAction OrderBook Failure Bool
  | .pwtx hash => do
    let book ← StateAction.get
    let wtx ← StateAction.lift (assertSome .undefined (book.mapWallet.lookup hash))
    onFile (CWalletDB.writeTx ok hash wtx)
  | .pacentry nEntryNo acentry => onFile (CWalletDB.writeAccountingEntry ok nEntryNo acentry)

def reorderLoop : List TxPair → List ℤ → StateAction OrderBook Failure DBErrors
  | [], _ => return .DB_LOAD_OK
  | item :: items, nOrderPosOffsets => do
    let nOrderPos ← nOrderPosOf item
    let book ← StateAction.get
    if nOrderPos = -1 then
      let nOrderPosNext ← StateAction.lift (int64 (book.nOrderPosNext + 1))
      let nOrderPos := book.nOrderPosNext
      StateAction.modify fun book => { book with nOrderPosNext }
      let item ← assign nOrderPos item
      -- Have to write accounting regardless, since we don't keep it in memory
      let fWritten ← (match item with
        | .pwtx _ => return true
        | .pacentry .. => write ok item : StateAction OrderBook Failure Bool)
      if fWritten then reorderLoop items (nOrderPosOffsets ++ [nOrderPos]) else return .DB_LOAD_FAIL
    else
      let nOrderPosOff := nOrderPosOffsets.countP fun nOffsetStart => nOffsetStart ≤ nOrderPos
      let nOrderPos ← StateAction.lift (int64 (nOrderPos + nOrderPosOff))
      let item ← assign nOrderPos item
      let nAfter ← StateAction.lift (int64 (nOrderPos + 1))
      StateAction.modify fun book => { book with nOrderPosNext := max book.nOrderPosNext nAfter }
      if nOrderPosOff = 0 then reorderLoop items nOrderPosOffsets
      else
        -- Since we're changing the order, write it back
        let fWritten ← write ok item
        if fWritten then reorderLoop items nOrderPosOffsets else return .DB_LOAD_FAIL

def reorderTransactions : StateAction OrderBook Failure DBErrors := do
  let acentries ← listAccountCreditDebit ok cursor ""
  let book ← StateAction.get
  StateAction.modify fun book => { book with nOrderPosNext := 0 }
  reorderLoop ok (txByTime book.mapWallet acentries) []

end OrderBook

end BitCrystal
