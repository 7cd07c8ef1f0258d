import BitCrystal.Model.KeyStore

/-! # The transactions of a wallet

A wallet keeps the transactions that involve its keys, each with a flag for every output that is known
to be spent. The times and the order of the transactions and the replacement of the default receiving
key are left out; whether a record could be written to the wallet file is an argument.
-/

namespace BitCrystal

/-- A transaction with the place in a block that `SetMerkleBranch` found for it. -/
structure CMerkleTx where
  tx : CTransaction
  hashBlock : Uint256 := 0
  vMerkleBranch : List Uint256 := []
  nIndex : ℤ := -1
deriving DecidableEq, Repr

/-- The amounts are absent while they are not cached. -/
structure CWalletTx extends CMerkleTx where
  /-- Copies of the transactions it depends on. -/
  vtxPrev : List CMerkleTx := []
  strFromAccount : String := ""
  fFromMe : Bool := false
  vfSpent : List Bool := []
  nDebitCached : Option ℤ := none
  nCreditCached : Option ℤ := none
  nImmatureCreditCached : Option ℤ := none
  nAvailableCreditCached : Option ℤ := none
  nChangeCached : Option ℤ := none
deriving DecidableEq, Repr

namespace CWalletTx

variable (wtx : CWalletTx)

/-- The loop of `UpdateSpent`. -/
def mergeSpent : List Bool → List Bool → List Bool
  | [], _ => []
  | vfSpent, [] => vfSpent
  | fSpent :: vfSpent, fNew :: vfNewSpent => (fSpent || fNew) :: mergeSpent vfSpent vfNewSpent

def updateSpent (vfNewSpent : List Bool) : Bool × CWalletTx :=
  let fReturn := (wtx.vfSpent.zip vfNewSpent).any fun (fSpent, fNew) => fNew && !fSpent
  (fReturn, { wtx with
    vfSpent := mergeSpent wtx.vfSpent vfNewSpent
    nAvailableCreditCached := if fReturn then none else wtx.nAvailableCreditCached })

def markDirty : CWalletTx :=
  { wtx with nCreditCached := none, nAvailableCreditCached := none, nDebitCached := none, nChangeCached := none }

def markSpent (nOut : ℕ) : Check CWalletTx := do
  rejectIf (wtx.tx.vout.length ≤ nOut) (.throws "CWalletTx::MarkSpent() : nOut out of range")
  let vfSpent := (wtx.vfSpent ++ List.replicate wtx.tx.vout.length false).take wtx.tx.vout.length
  return if vfSpent.getD nOut false then { wtx with vfSpent }
    else { wtx with vfSpent := vfSpent.set nOut true, nAvailableCreditCached := none }

def isSpent (nOut : ℕ) : Check Bool := do
  rejectIf (wtx.tx.vout.length ≤ nOut) (.throws "CWalletTx::IsSpent() : nOut out of range")
  return wtx.vfSpent.getD nOut false

/-- The merge of `AddToWallet`, and whether it changed anything. -/
def merge (wtxIn : CWalletTx) : Bool × CWalletTx :=
  let fBlock := wtxIn.hashBlock ≠ 0 ∧ wtxIn.hashBlock ≠ wtx.hashBlock
  let fBranch := wtxIn.nIndex ≠ -1 ∧ (wtxIn.vMerkleBranch ≠ wtx.vMerkleBranch ∨ wtxIn.nIndex ≠ wtx.nIndex)
  let fMine := wtxIn.fFromMe ∧ wtxIn.fFromMe ≠ wtx.fFromMe
  let (fSpent, wtx) := updateSpent { wtx with
    hashBlock := if fBlock then wtxIn.hashBlock else wtx.hashBlock
    vMerkleBranch := if fBranch then wtxIn.vMerkleBranch else wtx.vMerkleBranch
    nIndex := if fBranch then wtxIn.nIndex else wtx.nIndex
    fFromMe := if fMine then wtxIn.fFromMe else wtx.fFromMe } wtxIn.vfSpent
  (fBlock ∨ fBranch ∨ fMine ∨ fSpent, wtx)

end CWalletTx

structure CWallet where
  keystore : CKeyStore := {}
  mapWallet : Uint256 → Option CWalletTx := fun _ => none
  mapAddressBook : List (CTxDestination × String) := []

namespace CWallet

variable (crypto : Crypto) (P : Platform) (wallet : CWallet)

def isMine (txout : CTxOut) : Bool := wallet.keystore.isMine crypto txout.scriptPubKey

/-- `IsMine` of a transaction. -/
def isMineTx (tx : CTransaction) : Bool := tx.vout.any (wallet.isMine crypto)

/-- A payment to an address that is mine but not in the address book is taken for change. -/
def isChange (txout : CTxOut) : Bool :=
  match extractDestination crypto txout.scriptPubKey with
  | none => false
  | some address => wallet.keystore.isMineDestination address && (wallet.mapAddressBook.lookup address).isNone

/-- `GetDebit` of an input. -/
def debitOf (txin : CTxIn) : ℤ :=
  match wallet.mapWallet txin.prevout.hash with
  | none => 0
  | some prev =>
    match prev.tx.vout[txin.prevout.n]? with
    | none => 0
    | some txout => if wallet.isMine crypto txout then txout.nValue else 0

/-- The loop of `GetDebit`. -/
def debitLoop : ℤ → List CTxIn → Check ℤ
  | nDebit, [] => .ok nDebit
  | nDebit, txin :: rest => do
    let nDebit ← int64 (nDebit + wallet.debitOf crypto txin)
    rejectIf (¬ moneyRange nDebit) (.throws "CWallet::GetDebit() : value out of range")
    debitLoop nDebit rest

def getDebit (tx : CTransaction) : Check ℤ := wallet.debitLoop crypto 0 tx.vin

def isFromMe (tx : CTransaction) : Check Bool := do
  let nDebit ← wallet.getDebit crypto tx
  return 0 < nDebit

/-- The loop of `GetCredit`. -/
def creditLoop : ℤ → List CTxOut → Check ℤ
  | nCredit, [] => .ok nCredit
  | nCredit, txout :: rest => do
    rejectIf (¬ moneyRange txout.nValue) (.throws "CWallet::GetCredit() : value out of range")
    let nCredit ← int64 (nCredit + if wallet.isMine crypto txout then txout.nValue else 0)
    rejectIf (¬ moneyRange nCredit) (.throws "CWallet::GetCredit() : value out of range")
    creditLoop nCredit rest

/-- `GetCredit` of a wallet transaction, whose distance from maturity the chain determines. -/
def getCredit (blocksToMaturity : CMerkleTx → ℤ) (wtx : CWalletTx) : Check (ℤ × CWalletTx) :=
  if wtx.tx.isCoinBase ∧ 0 < blocksToMaturity wtx.toCMerkleTx then .ok (0, wtx)
  else match wtx.nCreditCached with
    | some nCredit => .ok (nCredit, wtx)
    | none => do
      let nCredit ← wallet.creditLoop crypto 0 wtx.tx.vout
      return (nCredit, { wtx with nCreditCached := some nCredit })

/-- One round of `WalletUpdateSpent`. The message shows the credit, and the value is cached. -/
def updateSpentAt (blocksToMaturity : CMerkleTx → ℤ) (txin : CTxIn) : Check CWallet :=
  match wallet.mapWallet txin.prevout.hash with
  | none => .ok wallet
  | some wtx =>
    match wtx.tx.vout[txin.prevout.n]? with
    | none => .ok wallet
    | some txout => do
      let fSpent ← wtx.isSpent txin.prevout.n
      if fSpent = false ∧ wallet.isMine crypto txout then
        let (_, wtx) ← wallet.getCredit crypto blocksToMaturity wtx
        let wtx ← wtx.markSpent txin.prevout.n
        return { wallet with mapWallet := Function.update wallet.mapWallet txin.prevout.hash (some wtx) }
      else .ok wallet

def walletUpdateSpent (blocksToMaturity : CMerkleTx → ℤ) (tx : CTransaction) : Check CWallet :=
  tx.vin.foldlM (fun wallet txin => wallet.updateSpentAt crypto blocksToMaturity txin) wallet

/-- The record that the insertion or the merge leaves, and whether it is new or has changed. -/
def insertOrMerge (hash : Uint256) (wtxIn : CWalletTx) : Bool × CWalletTx :=
  match wallet.mapWallet hash with
  | none => (true, wtxIn.markDirty)
  | some wtx => wtx.markDirty.merge wtxIn

/-- `AddToWallet`; `fWritten` is the result of `WriteToDisk`. -/
def addToWallet (blocksToMaturity : CMerkleTx → ℤ) (fWritten : Bool) (wtxIn : CWalletTx) : Check (Bool × CWallet) :=
  let hash := wtxIn.tx.getHash P
  let (fChanged, wtx) := wallet.insertOrMerge hash wtxIn
  let wallet := { wallet with mapWallet := Function.update wallet.mapWallet hash (some wtx) }
  if fChanged ∧ ¬ fWritten then .ok (false, wallet)
  else do
    let wallet ← wallet.walletUpdateSpent crypto blocksToMaturity wtx.tx
    return (true, wallet)

/-- `AddToWalletIfInvolvingMe`; `position` is what `SetMerkleBranch` finds if there is a block. -/
def addToWalletIfInvolvingMe (blocksToMaturity : CMerkleTx → ℤ) (fWritten : Bool) (hash : Uint256) (position : CMerkleTx)
    (fUpdate : Bool) : Check (Bool × CWallet) :=
  let fExisted := (wallet.mapWallet hash).isSome
  if fExisted ∧ ¬ fUpdate then .ok (false, wallet)
  else do
    let fInvolved ← if fExisted ∨ wallet.isMineTx crypto position.tx then .ok true
      else wallet.isFromMe crypto position.tx
    if fInvolved then wallet.addToWallet crypto P blocksToMaturity fWritten { toCMerkleTx := position }
    else
      let wallet ← wallet.walletUpdateSpent crypto blocksToMaturity position.tx
      return (false, wallet)

end CWallet

end BitCrystal
