import BitCrystal.Model.ConnectBlock

/-! # The memory pool

`CTxMemPool` keeps the pooled transactions under their txids and, for every outpoint one of them
spends, a pointer to that transaction. A pointer into `mapTx` is the key it points to; following
one whose transaction is gone is undefined. `remove` calls itself for the transactions that spend
the removed one, at most `depth` calls deep.
-/

namespace BitCrystal

/-- An input of a pooled transaction. -/
structure CInPoint where
  ptx : Uint256
  n : ℕ
deriving DecidableEq, Repr

structure CTxMemPool where
  mapTx : Uint256 → Option CTransaction := fun _ => none
  mapNextTx : COutPoint → Option CInPoint := fun _ => none

namespace CTransaction

/-- `IsFinal` with the default arguments. -/
def isFinal (tx : CTransaction) (P : Platform) (nBestHeight : ℤ) : Prop :=
  tx.nLockTime = 0 ∨
    (tx.nLockTime : ℤ) < (if tx.nLockTime < LOCKTIME_THRESHOLD then nBestHeight else P.adjustedTime) ∨
    ∀ txin ∈ tx.vin, txin.nSequence = UINT_MAX

instance (tx : CTransaction) (P : Platform) (nBestHeight : ℤ) : Decidable (tx.isFinal P nBestHeight) :=
  inferInstanceAs (Decidable (_ ∨ _ ∨ _))

/-- The loop of `IsStandard` over the outputs; `nMinRelayTxFee` is 0 in `IsDust`. -/
def checkStandardOutputs (P : Platform) : List CTxOut → Check Unit
  | [] => .ok ()
  | txout :: rest => do
    rejectIf (¬ P.isStandardScript txout.scriptPubKey) (.error "")
    let nDust ← int64 (txout.nValue * 1000)
    rejectIf (nDust.tdiv (3 * ((txout.getSerializeSize : ℤ) + 148)) < 0) (.error "")
    checkStandardOutputs P rest

/-- `IsStandard`. -/
def checkStandard (tx : CTransaction) (P : Platform) (nBestHeight : ℤ) : Check Unit := do
  rejectIf (TXCOMMENT_VERSION < tx.nVersion) (.error "")
  rejectIf (¬ tx.isFinal P nBestHeight) (.error "")
  rejectIf (MAX_TX_COMMENT_LEN < tx.strTxComment.length) (.error "")
  rejectIf (MAX_STANDARD_TX_SIZE ≤ tx.getSerializeSize) (.error "")
  rejectIf (∃ txin ∈ tx.vin, 500 < txin.scriptSig.length ∨ ¬ CScript.isPushOnly txin.scriptSig) (.error "")
  checkStandardOutputs P tx.vout

/-- The outputs `GetOutputFor` finds for the inputs. -/
def inputOutputs (view : CCoinsViewCache) : List CTxIn → Check (List CTxOut)
  | [] => .ok []
  | txin :: rest => do
    let txout ← getOutputFor view txin
    let vout ← inputOutputs view rest
    return txout :: vout

end CTransaction

namespace CTxMemPool

/-- `CCoinsViewMemPool`: the outputs of pooled transactions behind those of the base view. -/
def viewMemPool (pool : CTxMemPool) (base : CCoinsView) : CCoinsView where
  getCoins txid := (base.getCoins txid).or ((pool.mapTx txid).map fun tx => .ofTx tx MEMPOOL_HEIGHT)
  getBestBlock := base.getBestBlock

/-- Enter the inputs from number `n` on into `mapNextTx`. -/
def addInputs (hash : Uint256) : ℕ → List CTxIn → (COutPoint → Option CInPoint) → COutPoint → Option CInPoint
  | _, [], mapNextTx => mapNextTx
  | n, txin :: rest, mapNextTx =>
    addInputs hash (n + 1) rest (Function.update mapNextTx txin.prevout (some ⟨hash, n⟩))

def addUnchecked (pool : CTxMemPool) (hash : Uint256) (tx : CTransaction) : CTxMemPool where
  mapTx := Function.update pool.mapTx hash (some tx)
  mapNextTx := addInputs hash 0 tx.vin pool.mapNextTx

/-- The checks of `accept` against the coins of the chain and the pool. -/
def checkPoolInputs (pool : CTxMemPool) (P : Platform) (index : BlockMap) (pcoinsTip : CCoinsViewCache)
    (tx : CTransaction) (fLimitFree : Bool) : Check Unit := do
  let view : CCoinsViewCache := { base := pool.viewMemPool pcoinsTip.answers }
  rejectIf (view.haveCoins (tx.getHash P)) (.error "")
  rejectIf (∃ txin ∈ tx.vin, ¬ view.haveCoins txin.prevout.hash) .missingInputs
  rejectIf (¬ tx.haveInputs view) (.dos 0 "CTxMemPool::accept() : inputs already spent")
  let vout ← CTransaction.inputOutputs view tx.vin
  rejectIf (¬ P.areInputsStandard tx vout ∧ ¬ P.fTestNet)
    (.error "CTxMemPool::accept() : nonstandard transaction input")
  let nValueIn ← tx.getValueIn view
  let nValueOut ← tx.getValueOut
  let nFees ← int64 (nValueIn - nValueOut)
  -- `GetMinFee` and `nMinRelayTxFee` are 0, so the rate limiter behind this check is not reached.
  rejectIf (fLimitFree ∧ nFees < 0) (.error "CTxMemPool::accept() : not enough fees")
  let _ ← tx.checkInputs P index view true (SCRIPT_VERIFY_P2SH + SCRIPT_VERIFY_STRICTENC) false
  return ()

/-- `CTxMemPool::accept`; replacement is disabled in the source. -/
def accept (pool : CTxMemPool) (P : Platform) (index : BlockMap) (pcoinsTip : CCoinsViewCache)
    (nBestHeight : ℤ) (tx : CTransaction) (fCheckInputs fLimitFree : Bool) : Check CTxMemPool := do
  tx.checkTransaction
  rejectIf tx.isCoinBase (.dos 100 "CTxMemPool::accept() : coinbase as individual tx")
  rejectIf (2147483647 < tx.nLockTime)
    (.error "CTxMemPool::accept() : not accepting nLockTime beyond 2038 yet")
  if P.fTestNet then pure () else tx.checkStandard P nBestHeight
  rejectIf (pool.mapTx (tx.getHash P) ≠ none) (.error "")
  rejectIf (∃ txin ∈ tx.vin, pool.mapNextTx txin.prevout ≠ none) (.error "")
  if fCheckInputs then pool.checkPoolInputs P index pcoinsTip tx fLimitFree else pure ()
  return pool.addUnchecked (tx.getHash P) tx

/-- Erase a transaction and what `mapNextTx` has for its inputs. -/
def erase (pool : CTxMemPool) (hash : Uint256) (vin : List CTxIn) : CTxMemPool where
  mapTx := Function.update pool.mapTx hash none
  mapNextTx out := if out ∈ vin.map CTxIn.prevout then none else pool.mapNextTx out

/-- The loop of `remove` over the outputs; `recurse` is the call for the transaction that spends one. -/
def removeSpenders (recurse : CTxMemPool → CTransaction → Check CTxMemPool) (hash : Uint256) :
    CTxMemPool → List ℕ → Check CTxMemPool
  | pool, [] => .ok pool
  | pool, i :: rest =>
    match pool.mapNextTx ⟨hash, i⟩ with
    | none => removeSpenders recurse hash pool rest
    | some inpoint => do
      let spender ← assertSome .undefined (pool.mapTx inpoint.ptx)
      let pool ← recurse pool spender
      removeSpenders recurse hash pool rest

/-- `CTxMemPool::remove`; it always returns true. -/
def remove (P : Platform) (fRecursive : Bool) : ℕ → CTxMemPool → CTransaction → Check CTxMemPool
  | 0, _, _ => .error .diverges
  | depth + 1, pool, tx =>
    let hash := tx.getHash P
    match pool.mapTx hash with
    | none => .ok pool
    | some _ => do
      let pool ← (if fRecursive then
        removeSpenders (remove P true depth) hash pool (List.range tx.vout.length)
      else .ok pool)
      return pool.erase hash tx.vin

/-- The loop of `removeConflicts` over the inputs. -/
def removeConflictsLoop (P : Platform) (depth : ℕ) (tx : CTransaction) :
    CTxMemPool → List CTxIn → Check CTxMemPool
  | pool, [] => .ok pool
  | pool, txin :: rest =>
    match pool.mapNextTx txin.prevout with
    | none => removeConflictsLoop P depth tx pool rest
    | some inpoint => do
      let txConflict ← assertSome .undefined (pool.mapTx inpoint.ptx)
      let pool ← (if ¬ txConflict.eq tx then remove P true depth pool txConflict else .ok pool)
      removeConflictsLoop P depth tx pool rest

/-- `CTxMemPool::removeConflicts`. -/
def removeConflicts (P : Platform) (depth : ℕ) (pool : CTxMemPool) (tx : CTransaction) : Check CTxMemPool :=
  removeConflictsLoop P depth tx pool tx.vin

/-- `CTxMemPool::clear`. -/
def clear (_ : CTxMemPool) : CTxMemPool := {}

end CTxMemPool

end BitCrystal
