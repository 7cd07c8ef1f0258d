import BitCrystal.Model.Accounts
import BitCrystal.Model.BaseTexts
import BitCrystal.Model.WalletFile

/-! # `listtransactions`

The activity log of the wallet is gone through from its end until there are enough entries, which are then cut and
reversed. The iterators of the array are positions. Getting a cursor of the wallet file does not fail here.
-/

namespace BitCrystal

/-- The values of the type `int`. -/
def InInt32 (n : ℤ) : Prop := -2 ^ 31 ≤ n ∧ n < 2 ^ 31

instance (n : ℤ) : Decidable (InInt32 n) := inferInstanceAs (Decidable (_ ∧ _))

/-- The result of an `int` operation, whose overflow is undefined. -/
def int32 (n : ℤ) : Check ℤ := if InInt32 n then .ok n else .error .overflow

/-- Conversion to `int`. -/
def toInt (n : ℤ) : ℤ := n.bmod (2 ^ 32)

/-! ## JSON -/

/-- A value that is no object and no array. A real one is an amount, from `ValueFromAmount`. -/
inductive Value where
  | str (s : String)
  | bool (b : Bool)
  | int (n : ℤ)
  | real (amount : ℤ)
  | null
deriving DecidableEq

abbrev Object := List (String × Value)

namespace Value

/-- `Value_type_name`. -/
def typeName : Value → String
  | .str _ => "str"
  | .bool _ => "bool"
  | .int _ => "int"
  | .real _ => "real"
  | .null => "null"

/-- What `check_type` throws. -/
def wrongType (value : Value) (expected : String) : Failure :=
  .throws ("value is type " ++ value.typeName ++ ", expected " ++ expected)

def getStr : Value → Check String
  | .str s => .ok s
  | value => .error (value.wrongType "str")

def getInt : Value → Check ℤ
  | .int n => .ok (toInt n)
  | value => .error (value.wrongType "int")

end Value

/-- The digits of `GetHex`. -/
def getHex (hash : Uint256) : String :=
  String.ofList ((List.range 64).reverse.map fun i => Nat.digitChar (hash / 16 ^ i % 16))

/-- `CBitcoinAddress(dest).ToString()`. What is no destination leaves version zero without data. -/
def addressToString (crypto : Crypto) (fTestNet : Bool) (dest : CTxDestination) : String :=
  let vch : valtype := match dest with
    | .CKeyID id => (if fTestNet then 111 else 0) :: id
    | .CScriptID id => (if fTestNet then 199 else 9) :: id
    | .CNoDestination => [0]
  String.ofList ((encodeBase58Check (fun v => LittleEndian.decode (crypto.hash2 v)) vch).map fun c => Char.ofNat c.toNat)

/-- The fields of `CWalletTx` that its listing shows or that order it. -/
structure TxDetails where
  mapValue : List (String × String) := []
  nTimeReceived : ℕ := 0
  nTimeSmart : ℕ := 0
  nOrderPos : ℤ := -1
deriving DecidableEq

def TxDetails.getTxTime (details : TxDetails) : ℕ :=
  if details.nTimeSmart ≠ 0 then details.nTimeSmart else details.nTimeReceived

/-- The `TxPair` that is a pointer to a transaction or to an accounting entry. -/
inductive ActivityItem where
  | pwtx (wtx : CWalletTx) (details : TxDetails)
  | pacentry (acentry : CAccountingEntry)

/-- A wallet with the keys of `mapWallet` in order and the accounting entries in its file. -/
structure ActivityLog extends CWallet where
  hashes : List Uint256 := []
  details : Uint256 → TxDetails := fun _ => {}
  acentries : List CAccountingEntry := []
  sorted : hashes.Pairwise (· < ·)
  complete : ∀ hash, hash ∈ hashes ↔ mapWallet hash ≠ none

namespace ActivityLog

variable (crypto : Crypto) (P : Platform) (node : Node) (fTestNet : Bool) (log : ActivityLog) (strAccount : String)

def listAccountCreditDebit : List CAccountingEntry :=
  log.acentries.filter fun acentry => strAccount = "*" ∨ acentry.strAccount = strAccount

/-- The items with their positions in the order in which they are inserted. -/
def txItems : List (ℤ × ActivityItem) :=
  (log.hashes.filterMap fun hash => (log.mapWallet hash).map fun wtx =>
    ((log.details hash).nOrderPos, .pwtx wtx (log.details hash))) ++
  (log.listAccountCreditDebit strAccount).map fun acentry => (acentry.nOrderPos, .pacentry acentry)

/-- The multimap by position; items of one position stay in the order in which they are inserted. -/
def orderedTxItems : List ActivityItem :=
  ((log.txItems strAccount).insertionSort fun a b => a.1 ≤ b.1).map Prod.snd

/-! ## The entries of an item -/

def walletTxToJSON (wtx : CWalletTx) (details : TxDetails) : Check Object := do
  let confirms := wtx.getDepthInMainChain P node
  let block ← if confirms ≠ 0 then do
      let pindex ← assertSome .undefined (node.mapBlockIndex wtx.hashBlock)
      pure [("blockhash", .str (getHex wtx.hashBlock)), ("blockindex", .int wtx.nIndex),
        ("blocktime", .int pindex.nTime)]
    else pure []
  return [("confirmations", .int confirms)] ++ (if wtx.tx.isCoinBase then [("generated", .bool true)] else []) ++
    block ++ [("txid", .str (getHex (wtx.tx.getHash P))), ("time", .int details.getTxTime),
      ("timereceived", .int details.nTimeReceived)] ++ details.mapValue.map fun item => (item.1, .str item.2)

/-- The fields that `fLong` adds. -/
def longFields (fLong : Bool) (wtx : CWalletTx) (details : TxDetails) : Check Object :=
  if fLong then walletTxToJSON P node wtx details else .ok []

def sentEntry (amounts : TxAmounts) (long : Object) (s : CTxDestination × ℤ) : Object :=
  [("account", .str amounts.strSentAccount), ("address", .str (addressToString crypto fTestNet s.1)),
    ("category", .str "send"), ("amount", .real (-s.2)), ("fee", .real (-amounts.nFee))] ++ long

/-- The account of a received payment. -/
def accountOf (address : CTxDestination) : String := (log.mapAddressBook.lookup address).getD ""

def categoryOf (wtx : CWalletTx) : String :=
  if wtx.tx.isCoinBase then
    if wtx.getDepthInMainChain P node < 1 then "orphan"
    else if 0 < wtx.getBlocksToMaturity P node then "immature"
    else "generate"
  else "receive"

def receivedEntry (wtx : CWalletTx) (long : Object) (r : CTxDestination × ℤ) : Object :=
  [("account", .str (log.accountOf r.1)), ("address", .str (addressToString crypto fTestNet r.1)),
    ("category", .str (categoryOf P node wtx)), ("amount", .real r.2)] ++ long

/-- What `ListTransactions` appends. -/
def listTransactions (wtx : CWalletTx) (details : TxDetails) (nMinDepth : ℤ) (fLong : Bool) : Check (List Object) := do
  let amounts ← log.getAmounts crypto wtx
  let fAllAccounts := strAccount = "*"
  let sent ← if (amounts.listSent ≠ [] ∨ amounts.nFee ≠ 0) ∧ (fAllAccounts ∨ strAccount = amounts.strSentAccount) then
      amounts.listSent.mapM fun s => do
        let long ← longFields P node fLong wtx details
        return sentEntry crypto fTestNet amounts long s
    else .ok []
  let received ← if amounts.listReceived.length > 0 ∧ nMinDepth ≤ wtx.getDepthInMainChain P node then
      (amounts.listReceived.filter fun r => fAllAccounts ∨ log.accountOf r.1 = strAccount).mapM fun r => do
        let long ← longFields P node fLong wtx details
        return log.receivedEntry crypto P node fTestNet wtx long r
    else .ok []
  return sent ++ received

/-- What `AcentryToJSON` appends. -/
def acentryToJSON (acentry : CAccountingEntry) : List Object :=
  if strAccount = "*" ∨ acentry.strAccount = strAccount then
    [[("account", .str acentry.strAccount), ("category", .str "move"), ("time", .int acentry.nTime),
      ("amount", .real acentry.nCreditDebit), ("otheraccount", .str acentry.strOtherAccount),
      ("comment", .str acentry.strComment)]]
  else []

def entriesOf : ActivityItem → Check (List Object)
  | .pwtx wtx details => log.listTransactions crypto P node fTestNet strAccount wtx details 0 true
  | .pacentry acentry => .ok (acentryToJSON strAccount acentry)

/-- Iterate backwards until we have `nCount` items to return. -/
def listLoop (nCount nFrom : ℤ) : List ActivityItem → List Object → Check (List Object)
  | [], ret => .ok ret
  | item :: txOrdered, ret => do
    let entries ← log.entriesOf crypto P node fTestNet strAccount item
    let nEnd ← int32 (nCount + nFrom)
    if nEnd ≤ toInt (ret ++ entries).length then return ret ++ entries
    else listLoop nCount nFrom txOrdered (ret ++ entries)

/-- `std::advance` from the beginning, inside of the array. -/
def advance (ret : List Object) (n : ℤ) : Check ℕ := do
  rejectIf (n < 0 ∨ ret.length < n) .undefined
  return n.toNat

/-- `if (first != last) ret.erase(first, last)`. -/
def erase (ret : List Object) (first last : ℕ) : Check (List Object) :=
  if first ≠ last then do
    rejectIf (¬(first ≤ last ∧ last ≤ ret.length)) .undefined
    return ret.take first ++ ret.drop last
  else .ok ret

/-- The cut after the loop; what the loop leaves is newest to oldest. -/
def clip (nCount nFrom : ℤ) (ret : List Object) : Check (List Object) := do
  let nFrom := if nFrom > toInt ret.length then toInt ret.length else nFrom
  let nEnd ← int32 (nFrom + nCount)
  let nCount := if nEnd > toInt ret.length then toInt (ret.length - nFrom) else nCount
  let first ← advance ret nFrom
  let nEnd ← int32 (nFrom + nCount)
  let last ← advance ret nEnd
  let ret ← erase ret last ret.length
  let ret ← erase ret 0 first
  -- Return oldest to newest
  return ret.reverse

def helpText : String :=
  "listtransactions [account] [count=10] [from=0]\n" ++
  "Returns up to [count] most recent transactions skipping the first [from] transactions for account [account]."

def listtransactions (params : List Value) : Check (List Object) := do
  rejectIf (params.length > 3) (.throws helpText)
  let strAccount ← (params[0]?.map Value.getStr).getD (.ok "*")
  let nCount ← (params[1]?.map Value.getInt).getD (.ok 10)
  let nFrom ← (params[2]?.map Value.getInt).getD (.ok 0)
  rejectIf (nCount < 0) (.throws "Negative count")
  rejectIf (nFrom < 0) (.throws "Negative from")
  let ret ← log.listLoop crypto P node fTestNet strAccount nCount nFrom (log.orderedTxItems strAccount).reverse []
  clip nCount nFrom ret

end ActivityLog

end BitCrystal
