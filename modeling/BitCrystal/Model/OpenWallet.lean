import BitCrystal.Model.Accounts
import BitCrystal.Model.KeyPool

/-! # A wallet at work

The operations that change the transactions of a wallet, with its key pool, its address book and the
records of its file. An operation that throws keeps what it has done. Times, the order of the
transactions and the names in the file are left out.
-/

namespace BitCrystal

/-- A record as the wallet file holds it, without cached amounts. -/
def CWalletTx.uncached (wtx : CWalletTx) : CWalletTx :=
  { wtx with
    nDebitCached := none
    nCreditCached := none
    nImmatureCreditCached := none
    nAvailableCreditCached := none
    nChangeCached := none }

namespace CWallet

variable (crypto : Crypto) (wallet : CWallet)

/-- The loop of `GetChange`. -/
def changeLoop : ℤ → List CTxOut → Check ℤ
  | nChange, [] => .ok nChange
  | nChange, txout :: rest => do
    rejectIf (¬ moneyRange txout.nValue) (.throws "CWallet::GetChange() : value out of range")
    let nChange ← int64 (nChange + if wallet.isChange crypto txout then txout.nValue else 0)
    rejectIf (¬ moneyRange nChange) (.throws "CWallet::GetChange() : value out of range")
    changeLoop nChange rest

end CWallet

/-- The amounts of a wallet transaction that are cached. -/
inductive TxAmount
  | debit
  | credit
  | immatureCredit
  | availableCredit
  | change
deriving DecidableEq, Repr

namespace CWalletTx

variable (crypto : Crypto) (P : Platform) (node : Node) (wallet : CWallet) (wtx : CWalletTx)

/-! The amount and the record that has it cached then. `CWallet.getCredit` is the one for the credit. -/

def getDebit : Check (ℤ × CWalletTx) :=
  if wtx.tx.vin = [] then .ok (0, wtx)
  else match wtx.nDebitCached with
    | some nDebit => .ok (nDebit, wtx)
    | none => do
      let nDebit ← wallet.getDebit crypto wtx.tx
      return (nDebit, { wtx with nDebitCached := some nDebit })

def getImmatureCredit : Check (ℤ × CWalletTx) :=
  if wtx.isImmature P node ∧ 0 < wtx.getDepthInMainChain P node then
    match wtx.nImmatureCreditCached with
    | some nCredit => .ok (nCredit, wtx)
    | none => do
      let nCredit ← wallet.creditLoop crypto 0 wtx.tx.vout
      return (nCredit, { wtx with nImmatureCreditCached := some nCredit })
  else .ok (0, wtx)

def getAvailableCredit : Check (ℤ × CWalletTx) :=
  -- Must wait until coinbase is safely deep enough in the chain before valuing it
  if wtx.isImmature P node then .ok (0, wtx)
  else match wtx.nAvailableCreditCached with
    | some nCredit => .ok (nCredit, wtx)
    | none => do
      let nCredit ← wallet.availableLoop crypto wtx 0 0 wtx.tx.vout
      return (nCredit, { wtx with nAvailableCreditCached := some nCredit })

def getChange : Check (ℤ × CWalletTx) :=
  match wtx.nChangeCached with
  | some nChange => .ok (nChange, wtx)
  | none => do
    let nChange ← wallet.changeLoop crypto 0 wtx.tx.vout
    return (nChange, { wtx with nChangeCached := some nChange })

def amount : TxAmount → Check (ℤ × CWalletTx)
  | .debit => wtx.getDebit crypto wallet
  | .credit => wallet.getCredit crypto (fun merkleTx => merkleTx.getBlocksToMaturity P node) wtx
  | .immatureCredit => wtx.getImmatureCredit crypto P node wallet
  | .availableCredit => wtx.getAvailableCredit crypto P node wallet
  | .change => wtx.getChange crypto wallet

end CWalletTx

/-! ## The wallet -/

/-- The members of `CWallet` that the operations change, and the transaction records of the file. -/
structure OpenWallet where
  keys : KeyPoolWallet := {}
  mapWallet : Uint256 → Option CWalletTx := fun _ => none
  mapAddressBook : List (CTxDestination × String) := []
  file : Uint256 → Option CWalletTx := fun _ => none
  mapRequestCount : Uint256 → Option ℕ := fun _ => none
  /-- How many records were to be written. -/
  nWrites : ℕ := 0

/-- What does not change while a wallet is open: the library, the keys that are made, which of the writes
are carried out, and whether there is a user interface (`QT_GUI`). -/
structure WalletEnv where
  crypto : Crypto
  P : Platform
  maker : KeyMaker
  fWritten : ℕ → Bool
  fGui : Bool

/-- What is found outside: the chain, the lock of the wallet and the option `-keypool`. -/
structure Surroundings where
  node : Node
  fLocked : Bool
  keypool : ℤ

abbrev OpenWalletAction := StateAction OpenWallet Failure

namespace CScript

/-- `CScriptVisitor` for a key, whose identifier has 20 bytes. -/
def payToPubKeyHash (keyID : valtype) : CScript :=
  OP_DUP :: OP_HASH160 :: 0x14 :: keyID ++ [OP_EQUALVERIFY, OP_CHECKSIG]

end CScript

namespace OpenWallet

/-- The keys, the transactions and the address book. -/
def book (wallet : OpenWallet) : CWallet where
  keystore := wallet.keys.keystore
  mapWallet := wallet.mapWallet
  mapAddressBook := wallet.mapAddressBook

def setTx (hash : Uint256) (wtx : CWalletTx) (wallet : OpenWallet) : OpenWallet :=
  { wallet with mapWallet := Function.update wallet.mapWallet hash (some wtx) }

/-- `SetAddressBookName`. -/
def setAddressBookName (address : CTxDestination) (strName : String) (wallet : OpenWallet) : OpenWallet :=
  { wallet with mapAddressBook := (address, strName) :: wallet.mapAddressBook.filter fun entry => entry.1 ≠ address }

/-- `MarkDirty` of the wallet. -/
def markDirty (wallet : OpenWallet) : OpenWallet :=
  { wallet with mapWallet := fun hash => (wallet.mapWallet hash).map CWalletTx.markDirty }

/-- A call of the key pool. -/
def onKeys {α : Type} (action : KeyPoolAction α) : OpenWalletAction α := fun wallet =>
  ((action wallet.keys).1, { wallet with keys := (action wallet.keys).2 })

variable (env : WalletEnv) (around : Surroundings)

/-- `AddKey`. -/
def addKey (vchPubKey : valtype) (wallet : OpenWallet) : OpenWallet :=
  { wallet with keys := { wallet.keys with keystore := wallet.keys.keystore.addKey env.crypto vchPubKey } }

/-- One of the amounts of a record, with the caches. -/
def readAmount (hash : Uint256) (kind : TxAmount) : OpenWalletAction (Option ℤ) := do
  let wallet ← StateAction.get
  match wallet.mapWallet hash with
  | none => return none
  | some wtx =>
    let result ← StateAction.lift (wtx.amount env.crypto env.P around.node wallet.book kind)
    StateAction.modify (setTx hash result.2)
    return some result.1

/-- `WriteToDisk` of a transaction. -/
def writeToDisk (wtx : CWalletTx) : OpenWalletAction Bool := fun wallet =>
  (.ok (env.fWritten wallet.nWrites),
    { wallet with
      file :=
        if env.fWritten wallet.nWrites then Function.update wallet.file (wtx.tx.getHash env.P) (some wtx.uncached)
        else wallet.file
      nWrites := wallet.nWrites + 1 })

/-- `SetDefaultKey`. -/
def setDefaultKey (vchPubKey : valtype) : OpenWalletAction Bool := fun wallet =>
  (.ok (env.fWritten wallet.nWrites),
    { wallet with
      keys :=
        if env.fWritten wallet.nWrites then { wallet.keys with vchDefaultKey := vchPubKey } else wallet.keys
      nWrites := wallet.nWrites + 1 })

/-- Take a new default key from the pool. -/
def newDefaultKey : OpenWalletAction Unit := do
  match ← onKeys (KeyPoolWallet.getKeyFromPool env.crypto env.maker around.fLocked around.keypool false) with
  | none => pure ()
  | some (_, newDefaultKey) =>
    let _ ← setDefaultKey env newDefaultKey
    StateAction.modify fun wallet =>
      wallet.setAddressBookName (.CKeyID (env.crypto.hash160 wallet.keys.vchDefaultKey)) ""

/-- The loop that replaces the default key; `scriptDefaultKey` is that of the key before the loop. -/
def replaceDefaultKey (scriptDefaultKey : CScript) : List CTxOut → OpenWalletAction Unit
  | [] => pure ()
  | txout :: vout => do
    let _ ← (if txout.scriptPubKey = scriptDefaultKey then newDefaultKey env around else pure () : OpenWalletAction Unit)
    replaceDefaultKey scriptDefaultKey vout

/-- One round of `WalletUpdateSpent`. -/
def updateSpentAt (txin : CTxIn) : OpenWalletAction Unit := do
  let wallet ← StateAction.get
  match wallet.mapWallet txin.prevout.hash with
  | none => pure ()
  | some wtx =>
    match wtx.tx.vout[txin.prevout.n]? with
    | none => pure ()
    | some txout =>
      let fSpent ← StateAction.lift (wtx.isSpent txin.prevout.n)
      if fSpent = false ∧ wallet.book.isMine env.crypto txout then
        -- the message shows the credit
        let credit ← StateAction.lift (wtx.amount env.crypto env.P around.node wallet.book .credit)
        StateAction.modify (setTx txin.prevout.hash credit.2)
        let marked ← StateAction.lift (credit.2.markSpent txin.prevout.n)
        StateAction.modify (setTx txin.prevout.hash marked)
        let _ ← writeToDisk env marked
        pure ()

def walletUpdateSpent : List CTxIn → OpenWalletAction Unit
  | [] => pure ()
  | txin :: vin => do
    updateSpentAt env around txin
    walletUpdateSpent vin

/-- If default receiving address gets used, replace it with a new one. -/
def checkDefaultKey (vout : List CTxOut) : OpenWalletAction Unit := do
  let wallet ← StateAction.get
  if ¬ env.fGui ∧ validPubKey wallet.keys.vchDefaultKey then
    replaceDefaultKey env around (CScript.payToPubKeyHash (env.crypto.hash160 wallet.keys.vchDefaultKey)) vout
  else pure ()

def addToWallet (wtxIn : CWalletTx) : OpenWalletAction Bool := do
  let wallet ← StateAction.get
  let hash := wtxIn.tx.getHash env.P
  let merged := wallet.book.insertOrMerge hash wtxIn
  StateAction.modify (setTx hash merged.2)
  let fWritten ← if merged.1 then writeToDisk env merged.2 else pure true
  if fWritten then
    checkDefaultKey env around merged.2.tx.vout
    -- since AddToWallet is called directly for self-originating transactions, check for consumption of own coins
    walletUpdateSpent env around merged.2.tx.vin
    return true
  else return false

/-- Whether `AddToWalletIfInvolvingMe` adds the transaction; `none` if it returns at once. -/
def involvesMe (position : CMerkleTx) (fUpdate : Bool) (wallet : OpenWallet) : Check (Option Bool) :=
  let fExisted := (wallet.mapWallet (position.tx.getHash env.P)).isSome
  if fExisted ∧ ¬ fUpdate then .ok none
  else if fExisted ∨ wallet.book.isMineTx env.crypto position.tx then .ok (some true)
  else do
    let fFromMe ← wallet.book.isFromMe env.crypto position.tx
    return some fFromMe

/-- `AddToWalletIfInvolvingMe`; `position` is what `SetMerkleBranch` finds if there is a block. -/
def addToWalletIfInvolvingMe (position : CMerkleTx) (fUpdate : Bool) : OpenWalletAction Bool := do
  let wallet ← StateAction.get
  match ← StateAction.lift (wallet.involvesMe env position fUpdate) with
  | none => return false
  | some true => addToWallet env around { toCMerkleTx := position }
  | some false =>
    walletUpdateSpent env around position.tx.vin
    return false

/-- `mapWallet[txin.prevout.hash]` is marked; it is made if it is not there. -/
def markInput (txin : CTxIn) : OpenWalletAction Unit := do
  let wallet ← StateAction.get
  let coin := ((wallet.mapWallet txin.prevout.hash).getD { tx := { vin := [], vout := [] } }).markDirty
  StateAction.modify (setTx txin.prevout.hash coin)
  let marked ← StateAction.lift (coin.markSpent txin.prevout.n)
  StateAction.modify (setTx txin.prevout.hash marked)
  let _ ← writeToDisk env marked
  pure ()

/-- Mark old coins as spent. -/
def markInputs : List CTxIn → OpenWalletAction Unit
  | [] => pure ()
  | txin :: vin => do
    markInput env txin
    markInputs vin

/-- `CommitTransaction`; `fAccepted` is what the memory pool says, which tells the wallets when it accepts. -/
def commitTransaction (reservekey : CReserveKey) (fAccepted : Bool) (wtxNew : CWalletTx) : OpenWalletAction Bool := do
  -- Take key pair from key pool so it won't be used again
  StateAction.modify fun wallet => { wallet with keys := reservekey.keepKey wallet.keys }
  let _ ← addToWallet env around wtxNew
  markInputs env wtxNew.tx.vin
  -- Track how many getdata requests our transaction gets
  StateAction.modify fun wallet =>
    { wallet with mapRequestCount := Function.update wallet.mapRequestCount (wtxNew.tx.getHash env.P) (some 0) }
  if fAccepted then
    let _ ← addToWalletIfInvolvingMe env around { tx := wtxNew.tx } true
    return true
  else return false

end OpenWallet

end BitCrystal
