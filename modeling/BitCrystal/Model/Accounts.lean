import Mathlib.Data.Finset.Basic
import Mathlib.Data.List.ReduceOption
import BitCrystal.Machine.Tally
import BitCrystal.Model.BestChain
import BitCrystal.Model.Wallet

/-! # Balances, accounts and groups of addresses

What the wallet adds up, and which addresses it knows to belong together.
-/

/-! ## Balances and accounts

The wallet adds up its money in several ways: over unspent outputs, over what every transaction
received and sent, and the same for each account. The totals of a whole wallet are exact, the amounts
of one transaction are computed as in the source. Cached amounts are read but not stored.
-/

namespace BitCrystal

namespace CMerkleTx

variable (P : Platform) (node : Node) (wtx : CMerkleTx)

/-- `CheckMerkleBranch`, with the hash of the transaction and its index. -/
def checkMerkleBranch : Uint256 → ℕ → List Uint256 → Uint256
  | hash, _, [] => hash
  | hash, nIndex, otherside :: vMerkleBranch =>
    checkMerkleBranch (if nIndex % 2 = 1 then P.hashPair otherside hash else P.hashPair hash otherside) (nIndex / 2)
      vMerkleBranch

/-- `GetDepthInMainChain`. That the branch has been verified is not remembered. -/
def getDepthInMainChain : ℤ :=
  if wtx.hashBlock = 0 ∨ wtx.nIndex = -1 then 0
  else match node.mapBlockIndex wtx.hashBlock with
    | none => 0
    | some pindex =>
      if ¬ (pindex.pnext ≠ none ∨ node.pindexBest = some wtx.hashBlock) then 0
      else if checkMerkleBranch P (wtx.tx.getHash P) wtx.nIndex.toNat wtx.vMerkleBranch ≠ pindex.hashMerkleRoot then 0
      else node.best.elim 0 (fun best => (best.nHeight : ℤ)) - pindex.nHeight + 1

def getBlocksToMaturity : ℤ :=
  if ¬ wtx.tx.isCoinBase then 0 else max 0 (COINBASE_MATURITY + 20 - wtx.getDepthInMainChain P node)

def isImmature : Prop := wtx.tx.isCoinBase ∧ 0 < wtx.getBlocksToMaturity P node

instance : Decidable (wtx.isImmature P node) := inferInstanceAs (Decidable (_ ∧ _))

end CMerkleTx

/-- What `GetAmounts` finds out about a transaction. -/
structure TxAmounts where
  listReceived : List (CTxDestination × ℤ)
  listSent : List (CTxDestination × ℤ)
  nFee : ℤ
  strSentAccount : String
deriving DecidableEq, Repr

/-- The part of the amounts that belongs to an account. -/
structure AccountAmounts where
  nReceived : ℤ
  nSent : ℤ
  nFee : ℤ
deriving DecidableEq, Repr

namespace CWallet

variable (crypto : Crypto) (P : Platform) (node : Node) (wallet : CWallet) (wtx : CWalletTx)

/-- `GetDebit` of a wallet transaction. -/
def debit : Check ℤ :=
  if wtx.tx.vin = [] then .ok 0
  else match wtx.nDebitCached with
    | some nDebit => .ok nDebit
    | none => wallet.getDebit crypto wtx.tx

/-- The work queue of `IsConfirmed`; every round takes one transaction off it. -/
def isConfirmedLoop : ℕ → List CMerkleTx → Check Bool
  | _, [] => .ok true
  | 0, _ :: _ => .error .diverges
  | rounds + 1, ptx :: vWorkQueue =>
    if ¬ ptx.tx.isFinal P node.nBestHeight then .ok false
    else if 1 ≤ ptx.getDepthInMainChain P node then isConfirmedLoop rounds vWorkQueue
    else do
      let fFromMe ← wallet.isFromMe crypto ptx.tx
      if ¬ fFromMe then .ok false
      -- `mapPrev` keeps the last copy with a hash
      else match ptx.tx.vin.mapM fun txin => wtx.vtxPrev.reverse.find? fun tx => tx.tx.getHash P = txin.prevout.hash with
        | none => .ok false
        | some vPrev => isConfirmedLoop rounds (vWorkQueue ++ vPrev)

def isConfirmed (rounds : ℕ) : Check Bool :=
  if ¬ wtx.tx.isFinal P node.nBestHeight then .ok false
  else if 1 ≤ wtx.getDepthInMainChain P node then .ok true
  else do
    let nDebit ← wallet.debit crypto wtx
    if nDebit ≤ 0 then .ok false else wallet.isConfirmedLoop crypto P node wtx rounds [wtx.toCMerkleTx]

/-- The loop of `GetAvailableCredit` over the outputs from a number on. -/
def availableLoop : ℕ → ℤ → List CTxOut → Check ℤ
  | _, nCredit, [] => .ok nCredit
  | i, nCredit, txout :: rest => do
    let fSpent ← wtx.isSpent i
    if fSpent then availableLoop (i + 1) nCredit rest
    else
      rejectIf (¬ moneyRange txout.nValue) (.throws "CWallet::GetCredit() : value out of range")
      let nCredit ← int64 (nCredit + if wallet.isMine crypto txout then txout.nValue else 0)
      rejectIf (¬ moneyRange nCredit) (.throws "CWalletTx::GetAvailableCredit() : value out of range")
      availableLoop (i + 1) nCredit rest

def getAvailableCredit : Check ℤ :=
  if wtx.isImmature P node then .ok 0
  else match wtx.nAvailableCreditCached with
    | some nCredit => .ok nCredit
    | none => wallet.availableLoop crypto wtx 0 0 wtx.tx.vout

/-- The destination and the value of an output; the destination stays empty if there is none. -/
def amountTo (txout : CTxOut) : CTxDestination × ℤ :=
  ((extractDestination crypto txout.scriptPubKey).getD .CNoDestination, txout.nValue)

/-- The fee; debit>0 means we signed/sent this transaction. -/
def getFee (nDebit : ℤ) : Check ℤ :=
  if 0 < nDebit then do
    let nValueOut ← wtx.tx.getValueOut
    return nDebit - nValueOut
  else .ok 0

def getAmounts : Check TxAmounts := do
  let nDebit ← wallet.debit crypto wtx
  let nFee ← getFee wtx nDebit
  -- Don't report 'change' txouts
  let vout := wtx.tx.vout.filter fun txout => ¬ (0 < nDebit ∧ wallet.isChange crypto txout)
  return {
    listReceived := (vout.filter (wallet.isMine crypto)).map (amountTo crypto)
    listSent := if 0 < nDebit then vout.map (amountTo crypto) else []
    nFee := nFee
    strSentAccount := wtx.strFromAccount }

def sumOfValues (payments : List (CTxDestination × ℤ)) : ℤ := (payments.map Prod.snd).sum

/-- Whether a received payment belongs to the account. -/
def isReceivedBy (strAccount : String) (received : CTxDestination × ℤ) : Bool :=
  match wallet.mapAddressBook.lookup received.1 with
  | some name => name = strAccount
  | none => strAccount = ""

def getAccountAmounts (strAccount : String) : Check AccountAmounts := do
  let amounts ← wallet.getAmounts crypto wtx
  return {
    nReceived := sumOfValues (amounts.listReceived.filter (wallet.isReceivedBy strAccount))
    nSent := if strAccount = amounts.strSentAccount then sumOfValues amounts.listSent else 0
    nFee := if strAccount = amounts.strSentAccount then amounts.nFee else 0 }

end CWallet

/-- A wallet with the keys of `mapWallet` in order and the accounting entries in its file. -/
structure CWalletFile extends CWallet where
  hashes : List Uint256
  acentries : List (String × ℤ)
  sorted : hashes.Pairwise (· < ·)
  complete : ∀ hash, hash ∈ hashes ↔ mapWallet hash ≠ none

namespace CWalletFile

variable (crypto : Crypto) (P : Platform) (node : Node) (file : CWalletFile)

/-- The transactions of `mapWallet`. -/
def transactions : List CWalletTx := file.hashes.filterMap file.mapWallet

/-- A loop over `mapWallet` that adds an amount for every transaction. -/
def accumulate (amount : CWalletTx → Check ℤ) : Check ℤ :=
  file.transactions.foldlM (fun nTotal wtx => do
    let nAmount ← amount wtx
    return nTotal + nAmount) 0

/-- What a transaction adds to the balance of the server. -/
def netAmount (nMinDepth : ℤ) (wtx : CWalletTx) : Check ℤ := do
  let amounts ← file.getAmounts crypto wtx
  let nReceived := if nMinDepth ≤ wtx.getDepthInMainChain P node then CWallet.sumOfValues amounts.listReceived else 0
  return nReceived - CWallet.sumOfValues amounts.listSent - amounts.nFee

def netIfConfirmed (rounds : ℕ) (nMinDepth : ℤ) (wtx : CWalletTx) : Check ℤ := do
  let fConfirmed ← file.isConfirmed crypto P node wtx rounds
  if fConfirmed then file.netAmount crypto P node nMinDepth wtx else .ok 0

/-- `getbalance "*"`. -/
def getbalance (rounds : ℕ) (nMinDepth : ℤ) : Check ℤ :=
  file.accumulate (file.netIfConfirmed crypto P node rounds nMinDepth)

/-- `ListAccountCreditDebit`. -/
def listAccountCreditDebit (strAccount : String) : List (String × ℤ) :=
  file.acentries.filter fun acentry => strAccount = "*" ∨ acentry.1 = strAccount

def getAccountCreditDebit (strAccount : String) : ℤ := ((file.listAccountCreditDebit strAccount).map Prod.snd).sum

/-- What a transaction adds to the balance of an account. -/
def accountAmount (strAccount : String) (nMinDepth : ℤ) (wtx : CWalletTx) : Check ℤ :=
  if ¬ wtx.tx.isFinal P node.nBestHeight then .ok 0
  else do
    let amounts ← file.getAccountAmounts crypto wtx strAccount
    let nReceived := if amounts.nReceived ≠ 0 ∧ nMinDepth ≤ wtx.getDepthInMainChain P node then amounts.nReceived else 0
    return nReceived - (amounts.nSent + amounts.nFee)

def getAccountBalance (strAccount : String) (nMinDepth : ℤ) : Check ℤ := do
  let nBalance ← file.accumulate (file.accountAmount crypto P node strAccount nMinDepth)
  return nBalance + file.getAccountCreditDebit strAccount

/-- The account of a received payment. -/
def accountOf (address : CTxDestination) : String := (file.mapAddressBook.lookup address).getD ""

/-- One round of `listaccounts`. -/
def addToAccounts (nMinDepth : ℤ) (mapAccountBalances : Tally String ℤ) (wtx : CWalletTx) : Check (Tally String ℤ) := do
  let amounts ← file.getAmounts crypto wtx
  let mapAccountBalances := mapAccountBalances.add amounts.strSentAccount (-amounts.nFee)
  let mapAccountBalances := mapAccountBalances.addAll (amounts.listSent.map fun s => (amounts.strSentAccount, -s.2))
  return if nMinDepth ≤ wtx.getDepthInMainChain P node then
      mapAccountBalances.addAll (amounts.listReceived.map fun r => (file.accountOf r.1, r.2))
    else mapAccountBalances

def listaccounts (nMinDepth : ℤ) : Check (Tally String ℤ) := do
  let mine := file.mapAddressBook.filter fun entry => file.keystore.isMineDestination entry.1
  let mapAccountBalances : Tally String ℤ := mine.foldl (fun accounts entry => accounts.touch entry.2) []
  let mapAccountBalances ← file.transactions.foldlM (file.addToAccounts crypto P node nMinDepth) mapAccountBalances
  return mapAccountBalances.addAll (file.listAccountCreditDebit "*")

end CWalletFile

/-! ## Which addresses are known to belong together

Sets of addresses lie on the heap. A set of pointers knows the sets that are in use, and a map leads from every
address to the set that contains it. The iterator of a set is any enumeration of its elements, and `new` returns any
address at which nothing lies, perhaps one that has been deleted before.
-/

/-- An order in which the iterators of sets go through the elements. -/
structure SetOrder (α : Type) where
  toList : Finset α → List α
  nodup : ∀ s, (toList s).Nodup
  mem : ∀ s a, a ∈ toList s ↔ a ∈ s

abbrev AddressSet := Finset CTxDestination

abbrev AddressHeap := AList fun _ : ℕ => AddressSet

/-- What the language leaves open. -/
structure SetRuntime where
  addresses : SetOrder CTxDestination
  groupings : SetOrder AddressSet
  pointers : SetOrder ℕ
  alloc : AddressHeap → ℕ
  fresh : ∀ heap, alloc heap ∉ heap

namespace CWallet

variable (crypto : Crypto) (wallet : CWallet)

/-- `IsMine` of an input. -/
def isMineTxIn (txin : CTxIn) : Bool :=
  match wallet.mapWallet txin.prevout.hash with
  | none => false
  | some prev =>
    match prev.tx.vout[txin.prevout.n]? with
    | none => false
    | some txout => wallet.isMine crypto txout

/-- The address that an input of mine spends from. -/
def inputAddress (txin : CTxIn) : Check (Option CTxDestination) :=
  if ¬ wallet.isMineTxIn crypto txin then .ok none
  else do
    let prev ← assertSome .undefined (wallet.mapWallet txin.prevout.hash)
    let txout ← assertSome .undefined prev.tx.vout[txin.prevout.n]?
    return extractDestination crypto txout.scriptPubKey

/-- The input addresses with each other and with the change. -/
def inputGrouping (tx : CTransaction) : Check AddressSet := do
  let addresses ← tx.vin.mapM (wallet.inputAddress crypto)
  let own := addresses.reduceOption
  let change := (tx.vout.filter (wallet.isChange crypto)).filterMap fun txout =>
    extractDestination crypto txout.scriptPubKey
  return own.toFinset ∪ if own = [] then ∅ else change.toFinset

/-- Lone addresses by themselves. -/
def loneGroupings (tx : CTransaction) : List AddressSet :=
  (tx.vout.filter (wallet.isMine crypto)).filterMap fun txout =>
    (extractDestination crypto txout.scriptPubKey).map fun address => {address}

/-- One round over `mapWallet`. -/
def insertGroupings (groupings : Finset AddressSet) (pcoin : CWalletTx) : Check (Finset AddressSet) := do
  let grouping ← (if pcoin.tx.vin ≠ [] then wallet.inputGrouping crypto pcoin.tx else .ok ∅ : Check AddressSet)
  let groupings := if grouping ≠ ∅ then insert grouping groupings else groupings
  return (wallet.loneGroupings crypto pcoin.tx).foldl (fun groupings grouping => insert grouping groupings) groupings

end CWallet

/-- The local variables of `GetAddressGroupings` and the sets on the heap. -/
structure GroupingState where
  heap : AddressHeap := ∅
  uniqueGroupings : Finset ℕ := ∅
  setmap : CTxDestination → Option ℕ := fun _ => none

namespace GroupingState

variable (runtime : SetRuntime)

/-- Merge a hit group and delete it. -/
def mergeHit (merged : ℕ) (state : GroupingState) (hit : ℕ) : Check GroupingState := do
  let addresses ← assertSome .undefined (state.heap.lookup hit)
  let grouping ← assertSome .undefined (state.heap.lookup merged)
  return { state with
    heap := (state.heap.insert merged (grouping ∪ addresses)).erase hit
    uniqueGroupings := state.uniqueGroupings.erase hit }

/-- The loop over the groupings. -/
def addGrouping (state : GroupingState) (grouping : AddressSet) : Check GroupingState := do
  let hits := ((runtime.addresses.toList grouping).filterMap state.setmap).toFinset
  let merged := runtime.alloc state.heap
  let state := { state with heap := state.heap.insert merged grouping }
  let state ← (runtime.pointers.toList hits).foldlM (mergeHit merged) state
  let elements ← assertSome .undefined (state.heap.lookup merged)
  return { state with
    uniqueGroupings := insert merged state.uniqueGroupings
    setmap := (runtime.addresses.toList elements).foldl
      (fun setmap element => Function.update setmap element (some merged)) state.setmap }

/-- The loop that collects the result and deletes the sets. -/
def collect (ret : Finset AddressSet × AddressHeap) (uniqueGrouping : ℕ) :
    Check (Finset AddressSet × AddressHeap) := do
  let addresses ← assertSome .undefined (ret.2.lookup uniqueGrouping)
  return (insert addresses ret.1, ret.2.erase uniqueGrouping)

end GroupingState

namespace CWalletFile

variable (runtime : SetRuntime) (crypto : Crypto) (file : CWalletFile)

/-- `GetAddressGroupings`, with what is left on the heap. -/
def getAddressGroupings : Check (Finset AddressSet × AddressHeap) := do
  let groupings ← file.transactions.foldlM (file.insertGroupings crypto) ∅
  let state ← (runtime.groupings.toList groupings).foldlM (GroupingState.addGrouping runtime) {}
  (runtime.pointers.toList state.uniqueGroupings).foldlM GroupingState.collect (∅, state.heap)

end CWalletFile

end BitCrystal
