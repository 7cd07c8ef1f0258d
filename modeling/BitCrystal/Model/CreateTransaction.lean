import BitCrystal.Model.Accounts
import BitCrystal.Model.CoinSelection
import BitCrystal.Model.KeyPool
import BitCrystal.Model.Multisig

/-! # CreateTransaction

Coins are chosen and signed for again as long as the fee is too low. The priority of the transaction only decides whether
it may be free and is left to chance, as is the order in which a set of pointers is gone through. An exception of
`GetDebit`, which ends the function, is taken for no in `IsFromMe`.
-/

namespace BitCrystal

def IS_FREE : ℕ := 1

/-- The fees of the options and of `settxfee`. -/
structure FeeSettings where
  nTransactionFee : ℤ
  nMinTxFee : ℤ
  nMinRelayTxFee : ℤ

/-- `IsDust`. -/
def CTxOut.isDust (txout : CTxOut) (nMinRelayTxFee : ℤ) : Check Bool := do
  let nValue ← int64 (txout.nValue * 1000)
  return nValue.tdiv (3 * ((txout.getSerializeSize : ℤ) + 148)) < nMinRelayTxFee

/-- `GetMinFee` with a block size of one and `GMF_SEND`. -/
def CTransaction.getMinFee (tx : CTransaction) (nMinTxFee : ℤ) (fAllowFree : Bool) : Check ℤ :=
  if IS_FREE = 1 then .ok 0
  else do
    let nBaseFee := nMinTxFee
    let nBytes := tx.getSerializeSize
    let nMinFee ← int64 ((1 + (nBytes / 1000 : ℕ)) * nBaseFee)
    -- Transactions under 10K are free
    let nMinFee := if fAllowFree ∧ nBytes < 10000 then 0 else nMinFee
    -- To limit dust spam, require base fee if any output is less than 0.01
    let nMinFee := if nMinFee < nBaseFee ∧ ∃ txout ∈ tx.vout, txout.nValue < CENT then nBaseFee else nMinFee
    return if ¬ moneyRange nMinFee then -1 else nMinFee

structure CCoinControl where
  destChange : CTxDestination := .CNoDestination
  setSelected : Finset COutPoint := ∅

/-- A wallet with its locked coins; its key store is the one of the key pool. -/
structure SpendingWallet extends CWalletFile where
  setLockedCoins : Finset COutPoint

/-- What `CreateTransaction` uses and does not change. -/
structure Spending where
  crypto : Crypto
  P : Platform
  node : Node
  signer : Signer
  wallet : SpendingWallet
  maker : KeyMaker
  fLocked : Bool
  keypool : ℤ
  fees : FeeSettings
  coinControl : Option CCoinControl
  /-- The rounds of the queue of `IsConfirmed`. -/
  nConfirming : ℕ

/-- What chance decides in one round of `CreateTransaction`. -/
structure SpendingChance where
  /-- For each of the calls of `SelectCoinsMinConf`. -/
  select : ℕ → Chance
  order : Finset CoinRef → List CoinRef
  order_nodup : ∀ setCoins, (order setCoins).Nodup
  mem_order : ∀ setCoins coin, coin ∈ order setCoins ↔ coin ∈ setCoins
  getRandInt : ℕ → ℕ
  getRandInt_lt : ∀ nMax, 0 < nMax → getRandInt nMax < nMax
  fAllowFree : Bool

namespace Spending

variable (spending : Spending)

/-- The wallet with the keys it has by now. -/
def book (keys : KeyPoolWallet) : CWallet := { spending.wallet.toCWallet with keystore := keys.keystore }

/-- The outputs of a transaction of the wallet. -/
def coinsOf (hash : Uint256) (pcoin : CWalletTx) : List CoinRef :=
  (List.finRange pcoin.tx.vout.length).map fun (i : Fin _) => ⟨hash, pcoin, i, i.isLt⟩

/-- The output is unspent, mine, not locked and not left out by the coin control. -/
def isAvailable (keys : KeyPoolWallet) (coin : CoinRef) : Bool :=
  let out : COutPoint := ⟨coin.hash, coin.i⟩
  !coin.pcoin.vfSpent.getD coin.i false &&
    (spending.book keys).isMine spending.crypto (coin.pcoin.tx.vout.get ⟨coin.i, coin.inside⟩) &&
    out ∉ spending.wallet.setLockedCoins && 0 < coin.nValue &&
    match spending.coinControl with
    | none => true
    | some coinControl => coinControl.setSelected = ∅ || out ∈ coinControl.setSelected

/-- The round of `AvailableCoins` for one transaction, which has to be confirmed. -/
def availableOf (keys : KeyPoolWallet) (hash : Uint256) : Check (List COutput) :=
  match spending.wallet.mapWallet hash with
  | none => .ok []
  | some pcoin =>
    if ¬ pcoin.tx.isFinal spending.P spending.node.nBestHeight then .ok []
    else do
      let fConfirmed ← (spending.book keys).isConfirmed spending.crypto spending.P spending.node pcoin
        spending.nConfirming
      if ¬ fConfirmed then return []
      else if pcoin.tx.isCoinBase ∧ 0 < pcoin.getBlocksToMaturity spending.P spending.node then return []
      else
        return ((coinsOf hash pcoin).filter (spending.isAvailable keys)).map fun coin =>
          ⟨coin, pcoin.getDepthInMainChain spending.P spending.node⟩

/-- The loop of `AvailableCoins`. -/
def availableLoop (keys : KeyPoolWallet) : List Uint256 → Check (List COutput)
  | [] => .ok []
  | hash :: hashes => do
    let vCoins ← spending.availableOf keys hash
    return vCoins ++ (← availableLoop keys hashes)

def availableCoins (keys : KeyPoolWallet) : Check (List COutput) :=
  spending.availableLoop keys spending.wallet.hashes

def isFromMe (keys : KeyPoolWallet) (pcoin : CWalletTx) : Bool :=
  match (spending.book keys).debit spending.crypto pcoin with
  | .ok nDebit => 0 < nDebit
  | .error _ => false

/-- The selection of all the coins there are. -/
def selectAll : List COutput → ℤ → Check ℤ
  | [], nValueRet => .ok nValueRet
  | out :: vCoins, nValueRet => do selectAll vCoins (← int64 (nValueRet + out.nValue))

def selectCoins (keys : KeyPoolWallet) (chance : SpendingChance) (nTargetValue : ℤ) :
    Check (Option (Finset CoinRef × ℤ)) := do
  let vCoins ← spending.availableCoins keys
  let fromMe := spending.isFromMe keys
  if spending.coinControl.any fun coinControl => coinControl.setSelected ≠ ∅ then
    -- coin control -> return all selected outputs
    let nValueRet ← selectAll vCoins 0
    return if nTargetValue ≤ nValueRet then some ((vCoins.map COutput.toCoinRef).toFinset, nValueRet) else none
  else
    match ← selectCoinsMinConf fromMe nTargetValue 1 6 (chance.select 0) vCoins with
    | some selected => return some selected
    | none =>
      match ← selectCoinsMinConf fromMe nTargetValue 1 1 (chance.select 1) vCoins with
      | some selected => return some selected
      | none => selectCoinsMinConf fromMe nTargetValue 0 1 (chance.select 2) vCoins

/-- The outputs for the recipients. -/
def payees : List (CScript × ℤ) → Check (List CTxOut)
  | [] => .ok []
  | (scriptPubKey, nValue) :: vecSend => do
    let txout : CTxOut := ⟨nValue, scriptPubKey⟩
    rejectIf (← txout.isDust spending.fees.nMinRelayTxFee) (.error "Transaction amount too small")
    return txout :: (← payees vecSend)

/-- The part of sub-cent change that goes to the fee. -/
def nMoveToFee (nFeeRet nChange : ℤ) : Check ℤ :=
  if nFeeRet < spending.fees.nMinTxFee ∧ 0 < nChange ∧ nChange < CENT then do
    let room ← int64 (spending.fees.nMinTxFee - nFeeRet)
    return min nChange room
  else .ok 0

/-- The custom address of the coin control for the change. -/
def customChange : Option CTxDestination :=
  spending.coinControl.bind fun coinControl =>
    if coinControl.destChange = .CNoDestination then none else some coinControl.destChange

/-- Where the change is sent: to the custom address or to a new key. -/
def scriptChange (reservekey : CReserveKey) : KeyPoolAction (CReserveKey × CScript) :=
  match spending.customChange with
  | some destChange => return (reservekey, CScript.setDestination destChange)
  | none => do
    match ← reservekey.getReservedKey spending.crypto spending.maker spending.fLocked spending.keypool with
    -- should never fail, as we just unlocked
    | (_, none) => StateAction.throw (.assertion "reservekey.GetReservedKey(vchPubKey)")
    | (reservekey, some vchPubKey) =>
      return (reservekey, CScript.setDestination (.CKeyID (spending.crypto.hash160 vchPubKey)))

/-- `ReturnKey`. -/
def giveBack (reservekey : CReserveKey) : KeyPoolAction CReserveKey := do
  StateAction.modify reservekey.returnKey
  return {}

/-- The outputs with the change among them, and the fee with change that would be dust. -/
def addChange (chance : SpendingChance) (reservekey : CReserveKey) (vout : List CTxOut) (nChange nFeeRet : ℤ) :
    KeyPoolAction (CReserveKey × List CTxOut × ℤ) := do
  if 0 < nChange then
    let (reservekey, script) ← spending.scriptChange reservekey
    let newTxOut : CTxOut := ⟨nChange, script⟩
    -- Never create dust outputs; if we would, just add the dust to the fee.
    if ← StateAction.lift (newTxOut.isDust spending.fees.nMinRelayTxFee) then
      let reservekey ← giveBack reservekey
      return (reservekey, vout, nFeeRet + nChange)
    else return (reservekey, vout.insertIdx (chance.getRandInt (vout.length + 1)) newTxOut, nFeeRet)
  else
    let reservekey ← giveBack reservekey
    return (reservekey, vout, nFeeRet)

/-- The loop over the coins that signs. -/
def signAll (keys : KeyPoolWallet) : List CoinRef → ℕ → CTransaction → Check CTransaction
  | [], _, tx => .ok tx
  | coin :: coins, nIn, tx => do
    let tx ← signSignature spending.crypto spending.signer keys.keystore coin.pcoin.tx tx nIn SIGHASH_ALL
    signAll keys coins (nIn + 1) tx

/-- What a round has made: the transaction, its coins and its fee. -/
structure Draft where
  tx : CTransaction
  setCoins : Finset CoinRef
  nFeeRet : ℤ
  reservekey : CReserveKey

/-- A round up to the check of the fee; `nTotalValue` is computed before the outputs. -/
def draft (chance : SpendingChance) (vecSend : List (CScript × ℤ)) (nValue : ℤ) (wtxNew : CTransaction)
    (nFeeRet : ℤ) (reservekey : CReserveKey) : KeyPoolAction Draft := do
  let nTotalValue ← StateAction.lift (int64 (nValue + nFeeRet))
  let vout ← StateAction.lift (spending.payees vecSend)
  let keys ← StateAction.get
  match ← StateAction.lift (spending.selectCoins keys chance nTotalValue) with
  | none => StateAction.throw (.error "Insufficient funds")
  | some (setCoins, nValueIn) =>
    let nChange ← StateAction.lift (do int64 ((← int64 (nValueIn - nValue)) - nFeeRet))
    let moved ← StateAction.lift (spending.nMoveToFee nFeeRet nChange)
    let (reservekey, vout, nFeeRet) ← spending.addChange chance reservekey vout (nChange - moved) (nFeeRet + moved)
    let coins := chance.order setCoins
    let vin : List CTxIn := coins.map fun coin => ⟨⟨coin.pcoin.tx.getHash spending.P, coin.i⟩, [], UINT_MAX⟩
    let keys ← StateAction.get
    let tx ← StateAction.lift (spending.signAll keys coins 0 { wtxNew with vin, vout })
    return ⟨tx, setCoins, nFeeRet, reservekey⟩

/-- `max(nPayFee, nMinFee)`, when the size is not above the limits. -/
def neededFee (chance : SpendingChance) (tx : CTransaction) : Check ℤ := do
  let nBytes := tx.getSerializeSize
  rejectIf (MAX_STANDARD_TX_SIZE ≤ nBytes + 4000 ∨ 160 ≤ tx.vin.length) (.error "Transaction too large")
  let nPayFee ← int64 (spending.fees.nTransactionFee * (1 + (nBytes / 1000 : ℕ)))
  let nMinFee ← tx.getMinFee spending.fees.nMinTxFee chance.fAllowFree
  return max nPayFee nMinFee

/-- The loop; there is no result when the rounds do not suffice. -/
def createLoop (chance : ℕ → SpendingChance) (vecSend : List (CScript × ℤ)) (nValue : ℤ) (wtxNew : CTransaction) :
    ℕ → ℕ → ℤ → CReserveKey → StateAction KeyPoolWallet Failure (Option Draft)
  | 0, _, _, _ => return none
  | rounds + 1, nRound, nFeeRet, reservekey => do
    let draft ← spending.draft (chance nRound) vecSend nValue wtxNew nFeeRet reservekey
    let needed ← StateAction.lift (spending.neededFee (chance nRound) draft.tx)
    if draft.nFeeRet < needed then
      createLoop chance vecSend nValue wtxNew rounds (nRound + 1) needed draft.reservekey
    else return some draft

/-- The sum of the amounts, each checked before the next is added. -/
def sendValue : List (CScript × ℤ) → ℤ → Check ℤ
  | [], nValue => .ok nValue
  | s :: vecSend, nValue => do
    rejectIf (nValue < 0) (.error "Transaction amounts must be positive")
    sendValue vecSend (← int64 (nValue + s.2))

/-- `CreateTransaction` with a loop of so many rounds; a failure is a return of false or worse. -/
def createTransaction (rounds : ℕ) (chance : ℕ → SpendingChance) (vecSend : List (CScript × ℤ))
    (wtxNew : CTransaction) (reservekey : CReserveKey) : StateAction KeyPoolWallet Failure (Option Draft) := do
  let nValue ← StateAction.lift (sendValue vecSend 0)
  if vecSend = [] ∨ nValue < 0 then StateAction.throw (.error "Transaction amounts must be positive")
  else spending.createLoop chance vecSend nValue wtxNew rounds 0 spending.fees.nTransactionFee reservekey

end Spending

end BitCrystal
