import BitCrystal.Model.Block

/-! # Connecting and disconnecting a block

The functions follow `CTransaction::HaveInputs`, `CheckInputs`, `UpdateCoins` and
`CBlock::ConnectBlock`, `DisconnectBlock` statement by statement over a coin view. A reference into
the cache that is modified is a read followed by `setCoins`. With script-checking threads the checks
of a transaction are queued and evaluated by the final `Wait`, else at once.
-/

namespace BitCrystal

/-- `mapBlockIndex`, through which a block pointer is followed. -/
abbrev BlockMap := BlockPtr → Option CBlockIndex

/-- A queued `CScriptCheck`. -/
structure CScriptCheck where
  scriptPubKey : CScript
  ptxTo : CTransaction
  nIn : ℕ
  nFlags : ℕ
deriving DecidableEq, Repr

/-- `CScriptCheck::operator()`. -/
def CScriptCheck.run (check : CScriptCheck) (P : Platform) : Bool :=
  match check.ptxTo.vin[check.nIn]? with
  | none => false
  | some txin => P.verifyScript txin.scriptSig check.scriptPubKey check.ptxTo check.nIn check.nFlags

namespace CTransaction

/-- The output an input spends; the assertion is that of `GetOutputFor`. -/
def getOutputFor (view : CCoinsViewCache) (input : CTxIn) : Check CTxOut := do
  let coins ← assertSome (.assertion "GetCoins") (view.getCoins input.prevout.hash)
  let txout ← assertSome (.assertion "coins.IsAvailable(input.prevout.n)") coins.vout[input.prevout.n]?
  rejectIf txout.isNull (.assertion "coins.IsAvailable(input.prevout.n)")
  return txout

def valueInLoop (view : CCoinsViewCache) : ℤ → List CTxIn → Check ℤ
  | nResult, [] => .ok nResult
  | nResult, txin :: rest => do
    let txout ← getOutputFor view txin
    let nResult ← int64 (nResult + txout.nValue)
    valueInLoop view nResult rest

def getValueIn (tx : CTransaction) (view : CCoinsViewCache) : Check ℤ :=
  if tx.isCoinBase then .ok 0 else valueInLoop view 0 tx.vin

def p2shSigOpLoop (view : CCoinsViewCache) : ℕ → List CTxIn → Check ℕ
  | nSigOps, [] => .ok nSigOps
  | nSigOps, txin :: rest => do
    let prevout ← getOutputFor view txin
    let nSigOps :=
      if prevout.scriptPubKey.isPayToScriptHash then
        nSigOps + prevout.scriptPubKey.getSigOpCountP2SH txin.scriptSig
      else nSigOps
    p2shSigOpLoop view nSigOps rest

def getP2SHSigOpCount (tx : CTransaction) (view : CCoinsViewCache) : Check ℕ :=
  if tx.isCoinBase then .ok 0 else p2shSigOpLoop view 0 tx.vin

/-- Whether all outputs the inputs name are there and unspent. -/
def haveInputs (tx : CTransaction) (view : CCoinsViewCache) : Prop :=
  tx.isCoinBase ∨ ∀ txin ∈ tx.vin, ∃ coins, view.getCoins txin.prevout.hash = some coins ∧
    coins.isAvailable txin.prevout.n

instance (tx : CTransaction) (view : CCoinsViewCache) : Decidable (tx.haveInputs view) :=
  have each (txin : CTxIn) : Decidable (∃ coins, view.getCoins txin.prevout.hash = some coins ∧
      coins.isAvailable txin.prevout.n) :=
    match found : view.getCoins txin.prevout.hash with
    | none => isFalse (by simp)
    | some coins => decidable_of_iff (coins.isAvailable txin.prevout.n) (by simp)
  inferInstanceAs (Decidable (_ ∨ ∀ txin ∈ tx.vin, _))

/-- The inexpensive loop of `CheckInputs`: maturity and the range of the input values. -/
def checkInputValues (view : CCoinsViewCache) (nSpendHeight : ℤ) : ℤ → List CTxIn → Check ℤ
  | nValueIn, [] => .ok nValueIn
  | nValueIn, txin :: rest => do
    let coins ← assertSome (.assertion "GetCoins") (view.getCoins txin.prevout.hash)
    rejectIf (coins.fCoinBase ∧ nSpendHeight - coins.nHeight < COINBASE_MATURITY)
      (.dos 0 "CheckInputs() : tried to spend coinbase")
    let txout ← assertSome .undefined coins.vout[txin.prevout.n]?
    let nValueIn ← int64 (nValueIn + txout.nValue)
    rejectIf (¬ moneyRange txout.nValue ∨ ¬ moneyRange nValueIn)
      (.dos 100 "CheckInputs() : txin values out of range")
    checkInputValues view nSpendHeight nValueIn rest

/-- The script checks of the inputs from number `nIn` on. -/
def scriptChecks (tx : CTransaction) (view : CCoinsViewCache) (flags : ℕ) :
    ℕ → List CTxIn → Check (List CScriptCheck)
  | _, [] => .ok []
  | nIn, txin :: rest => do
    let coins ← assertSome (.assertion "GetCoins") (view.getCoins txin.prevout.hash)
    let txout ← assertSome .undefined coins.vout[txin.prevout.n]?
    let checks ← scriptChecks tx view flags (nIn + 1) rest
    return ⟨txout.scriptPubKey, tx, nIn, flags⟩ :: checks

/-- Perform the checks in order, as `CheckInputs` does without a queue. -/
def runScriptChecks (P : Platform) : List CScriptCheck → Check Unit
  | [] => .ok ()
  | check :: rest => do
    if ¬ check.run P then
      -- A failure only strict encoding sees does not count as misbehaviour.
      if check.nFlags.testBit 1 ∧ { check with nFlags := check.nFlags - SCRIPT_VERIFY_STRICTENC }.run P then
        .error (.dos 0 "")
      else .error (.dos 100 "")
    else runScriptChecks P rest

/-- `CheckInputs`; the result is the list of checks left to the queue. -/
def checkInputs (tx : CTransaction) (P : Platform) (index : BlockMap) (view : CCoinsViewCache)
    (fScriptChecks : Bool) (flags : ℕ) (pvChecks : Bool) : Check (List CScriptCheck) :=
  if tx.isCoinBase then .ok []
  else do
    rejectIf (¬ tx.haveInputs view) (.dos 0 "CheckInputs() : inputs unavailable")
    let tip ← assertSome .undefined (view.getBestBlock.bind index)
    let nValueIn ← checkInputValues view (tip.nHeight + 1) 0 tx.vin
    let nValueOut ← tx.getValueOut
    rejectIf (nValueIn < nValueOut) (.dos 100 "CheckInputs() : value in < value out")
    let nTxFee ← int64 (nValueIn - nValueOut)
    rejectIf (nTxFee < 0) (.dos 100 "CheckInputs() : nTxFee < 0")
    let nFees ← int64 (0 + nTxFee)
    rejectIf (¬ moneyRange nFees) (.dos 100 "CheckInputs() : nFees out of range")
    if fScriptChecks then
      let checks ← tx.scriptChecks view flags 0 tx.vin
      if pvChecks then return checks
      else
        runScriptChecks P checks
        return []
    else return []

/-- Mark the outputs the inputs name spent, collecting the undo information. -/
def spendInputs : CCoinsViewCache → List CTxIn → Check (CCoinsViewCache × CTxUndo)
  | view, [] => .ok (view, [])
  | view, txin :: rest => do
    let coins ← assertSome (.assertion "GetCoins") (view.getCoins txin.prevout.hash)
    let (left, undo) ← assertSome (.assertion "coins.Spend(txin.prevout, undo)")
      (coins.spend txin.prevout.n)
    let (view, txundo) ← spendInputs (view.setCoins txin.prevout.hash left) rest
    return (view, undo :: txundo)

/-- `UpdateCoins`: mark inputs spent, then add outputs. -/
def updateCoins (tx : CTransaction) (view : CCoinsViewCache) (nHeight : ℕ) (txhash : Uint256) :
    Check (CCoinsViewCache × CTxUndo) := do
  let (view, txundo) ← (if tx.isCoinBase then .ok (view, []) else spendInputs view tx.vin)
  return (view.setCoins txhash (.ofTx tx nHeight), txundo)

end CTransaction

/-! ## Connecting -/

/-- What the transaction loop of `ConnectBlock` carries along. -/
structure ConnectState where
  view : CCoinsViewCache
  nFees : ℤ := 0
  nSigOps : ℕ := 0
  vtxundo : List CTxUndo := []
  /-- The script checks handed to the queue. -/
  checks : List CScriptCheck := []

def ConnectState.blockundo (state : ConnectState) : CBlockUndo := ⟨state.vtxundo⟩

namespace CBlock

def nBIP16SwitchTime : ℕ := 1333238400

/-- The script flags `ConnectBlock` uses for a block with this index entry. -/
def scriptFlags (pindex : CBlockIndex) : ℕ :=
  SCRIPT_VERIFY_NOCACHE +
    if nBIP16SwitchTime ≤ pindex.nTime then SCRIPT_VERIFY_P2SH else SCRIPT_VERIFY_NONE

/-- One round of the transaction loop of `ConnectBlock`. -/
def connectTx (P : Platform) (index : BlockMap) (pindex : CBlockIndex) (state : ConnectState)
    (tx : CTransaction) : Check ConnectState := do
  let nSigOps := state.nSigOps + tx.getLegacySigOpCount
  rejectIf (MAX_BLOCK_SIGOPS < nSigOps) (.dos 100 "ConnectBlock() : too many sigops")
  if tx.isCoinBase then
    let (view, _) ← tx.updateCoins state.view pindex.nHeight (tx.getHash P)
    return { state with view, nSigOps }
  else
    rejectIf (¬ tx.haveInputs state.view) (.dos 100 "ConnectBlock() : inputs missing/spent")
    let p2sh ← (if nBIP16SwitchTime ≤ pindex.nTime then tx.getP2SHSigOpCount state.view else .ok 0)
    let nSigOps := nSigOps + p2sh
    rejectIf (MAX_BLOCK_SIGOPS < nSigOps) (.dos 100 "ConnectBlock() : too many sigops")
    let nValueIn ← tx.getValueIn state.view
    let nValueOut ← tx.getValueOut
    let nTxFee ← int64 (nValueIn - nValueOut)
    let nFees ← int64 (state.nFees + nTxFee)
    -- `GetTotalBlocksEstimate` is 0, so every height has its scripts checked.
    let vChecks ← tx.checkInputs P index state.view true (scriptFlags pindex) (P.nScriptCheckThreads ≠ 0)
    let (view, txundo) ← tx.updateCoins state.view pindex.nHeight (tx.getHash P)
    return { view, nFees, nSigOps, vtxundo := state.vtxundo ++ [txundo], checks := state.checks ++ vChecks }

def connectTxs (P : Platform) (index : BlockMap) (pindex : CBlockIndex) :
    ConnectState → List CTransaction → Check ConnectState
  | state, [] => .ok state
  | state, tx :: rest => do
    let state ← connectTx P index pindex state tx
    connectTxs P index pindex state rest

/-- The loop that refuses to overwrite a transaction with unspent outputs. -/
def enforceBIP30 (block : CBlock) (P : Platform) (view : CCoinsViewCache) : Prop :=
  ∃ tx ∈ block.vtx, ∃ coins ∈ view.getCoins (tx.getHash P), ¬ coins.isPruned

instance (block : CBlock) (P : Platform) (view : CCoinsViewCache) :
    Decidable (block.enforceBIP30 P view) :=
  inferInstanceAs (Decidable (∃ tx ∈ block.vtx, ∃ coins ∈ view.getCoins (tx.getHash P), ¬ coins.isPruned))

/-- `ConnectBlock` from the BIP30 test to the point where `fJustCheck` returns. -/
def connectCoins (block : CBlock) (P : Platform) (index : BlockMap) (pindex : CBlockIndex)
    (view : CCoinsViewCache) : Check ConnectState := do
  -- bool fEnforceBIP30 = !pindex->phashBlock;
  rejectIf (pindex.phashBlock = none ∧ block.enforceBIP30 P view)
    (.dos 100 "ConnectBlock() : tried to overwrite transaction")
  let state ← connectTxs P index pindex { view } block.vtx
  let coinbase ← assertSome .undefined block.vtx.head?
  let nValueOut ← coinbase.getValueOut
  let nLimit ← getBlockValue pindex.nHeight state.nFees pindex.nBits
  rejectIf (nLimit < nValueOut) (.dos 100 "ConnectBlock() : coinbase pays too much")
  rejectIf (∃ check ∈ state.checks, ¬ check.run P) (.dos 100 "")
  return state

/-- Which of the disk operations of `ConnectBlock` succeed. -/
structure ConnectDisk where
  findUndoPos : Option ℕ
  writeUndo : Bool := true
  writeBlockIndex : Bool := true
  writeTxIndex : Bool := true

/-- The outcome of `ConnectBlock` and what it leaves outside the view. -/
structure ConnectResult where
  result : Check CCoinsViewCache
  nStatus : BlockStatus
  nUndoPos : ℕ
  /-- The undo record it built; none for the genesis block. -/
  blockundo : Option CBlockUndo := none
  fUndoWritten : Bool := false
  /-- It has set `pindexGenesisBlock`. -/
  fGenesis : Bool := false

/-- The index entry after the call. -/
def ConnectResult.indexed (r : ConnectResult) (pindex : CBlockIndex) : CBlockIndex :=
  { pindex with nStatus := r.nStatus, nUndoPos := r.nUndoPos }

def ConnectResult.fail (r : ConnectResult) (failure : Failure) : ConnectResult :=
  { r with result := .error failure }

/-- The last write of `ConnectBlock`. -/
def writeTxIndex (P : Platform) (disk : ConnectDisk) (r : ConnectResult) : ConnectResult :=
  if P.fTxIndex ∧ ¬ disk.writeTxIndex then r.fail (.abort "Failed to write transaction index") else r

/-- Raise the validity level and write the index entry. -/
def writeBlockIndex (P : Platform) (disk : ConnectDisk) (r : ConnectResult) : ConnectResult :=
  let r := { r with nStatus := { r.nStatus with valid := BLOCK_VALID_SCRIPTS } }
  if ¬ disk.writeBlockIndex then r.fail (.abort "Failed to write block index")
  else writeTxIndex P disk r

/-- The writes of `ConnectBlock` after its checks, the undo record first. -/
def connectWrites (P : Platform) (disk : ConnectDisk) (pindex : CBlockIndex) (self : BlockPtr)
    (state : ConnectState) : ConnectResult :=
  let checked : ConnectResult :=
    { result := .ok (state.view.setBestBlock (some self))
      nStatus := pindex.nStatus
      nUndoPos := pindex.nUndoPos
      blockundo := some state.blockundo }
  if pindex.nStatus.haveUndo then
    if BLOCK_VALID_SCRIPTS ≤ pindex.nStatus.valid then writeTxIndex P disk checked
    else writeBlockIndex P disk checked
  else match disk.findUndoPos with
    | none => checked.fail (.error "ConnectBlock() : FindUndoPos failed")
    | some nPos =>
      if pindex.pprev = none then checked.fail .undefined
      else if ¬ disk.writeUndo then checked.fail (.abort "Failed to write undo data")
      else writeBlockIndex P disk
        { checked with
          nUndoPos := nPos
          fUndoWritten := true
          nStatus := { pindex.nStatus with haveUndo := true } }

/-- `ConnectBlock`; `self` is the pointer to `pindex`. With `fJustCheck` the view is returned as it
stands after the transactions. -/
def connectBlock (block : CBlock) (P : Platform) (disk : ConnectDisk) (index : BlockMap)
    (pindex : CBlockIndex) (self : BlockPtr) (view : CCoinsViewCache) (fJustCheck : Bool) : ConnectResult :=
  let stop (result : Check CCoinsViewCache) : ConnectResult :=
    { result, nStatus := pindex.nStatus, nUndoPos := pindex.nUndoPos }
  match block.checkBlock P (!fJustCheck) (!fJustCheck) with
  | .error failure => stop (.error failure)
  | .ok () =>
    if pindex.pprev ≠ view.getBestBlock then stop (.error (.assertion "pindex->pprev == view.GetBestBlock()"))
    else if block.getHash P = P.hashGenesisBlock then
      { stop (.ok (view.setBestBlock (some self))) with fGenesis := true }
    else match block.connectCoins P index pindex view with
      | .error failure => stop (.error failure)
      | .ok state =>
        if fJustCheck then { stop (.ok state.view) with blockundo := some state.blockundo }
        else connectWrites P disk pindex self state

/-- Restore the output one input spent. The flag is `fClean`. -/
def restoreInput (state : Bool × CCoinsViewCache) (out : COutPoint) (undo : CTxInUndo) :
    Bool × CCoinsViewCache :=
  let coins := (state.2.getCoins out.hash).getD {}
  let fClean := state.1 && decide (if undo.nHeight ≠ 0 then coins.isPruned else ¬ coins.isPruned)
  let coins : CCoins :=
    if undo.nHeight ≠ 0 then
      { fCoinBase := undo.fCoinBase, nHeight := undo.nHeight, nVersion := undo.nVersion }
    else coins
  let fClean := fClean && decide (¬ coins.isAvailable out.n)
  let vout := coins.vout ++ List.replicate (out.n + 1 - coins.vout.length) .null
  (fClean, state.2.setCoins out.hash { coins with vout := vout.set out.n undo.txout })

/-- Restore the inputs of a transaction, the last one first. -/
def restoreInputs : Bool × CCoinsViewCache → List (CTxIn × CTxInUndo) → Bool × CCoinsViewCache
  | state, [] => state
  | state, (txin, undo) :: rest => restoreInput (restoreInputs state rest) txin.prevout undo

/-- Remove the outputs of a transaction, comparing them with what the block added. -/
def removeOutputs (P : Platform) (nHeight : ℕ) (state : Bool × CCoinsViewCache) (tx : CTransaction) :
    Bool × CCoinsViewCache :=
  let hash := tx.getHash P
  let fClean := state.1 && state.2.haveCoins hash
  let outs := (state.2.getCoins hash).getD {}
  (fClean && decide (outs = .ofTx tx nHeight), state.2.setCoins hash {})

/-- Undo the transactions behind the coinbase in reverse order. -/
def disconnectTxs (P : Platform) (nHeight : ℕ) (state : Bool × CCoinsViewCache) :
    List (CTransaction × CTxUndo) → Check (Bool × CCoinsViewCache)
  | [] => .ok state
  | (tx, txundo) :: rest => do
    let state ← disconnectTxs P nHeight state rest
    let state := removeOutputs P nHeight state tx
    rejectIf (txundo.length ≠ tx.vin.length)
      (.error "DisconnectBlock() : transaction and undo data inconsistent")
    return restoreInputs state (tx.vin.zip txundo)

/-- `DisconnectBlock`: `fClean` and the view. `undoFile` is what reading the undo file returns. With
`pfClean = NULL` the function returns `fClean`. -/
def disconnectBlock (block : CBlock) (P : Platform) (pindex : CBlockIndex) (self : BlockPtr)
    (undoFile : Option CBlockUndo) (view : CCoinsViewCache) : Check (Bool × CCoinsViewCache) := do
  rejectIf (some self ≠ view.getBestBlock) (.assertion "pindex == view.GetBestBlock()")
  rejectIf (¬ pindex.nStatus.haveUndo) (.error "DisconnectBlock() : no undo data available")
  rejectIf (pindex.pprev = none) .undefined
  let blockUndo ← assertSome (.error "DisconnectBlock() : failure reading undo data") undoFile
  rejectIf (blockUndo.vtxundo.length + 1 ≠ block.vtx.length)
    (.error "DisconnectBlock() : block and undo data inconsistent")
  let state ← disconnectTxs P pindex.nHeight (true, view) (block.vtx.tail.zip blockUndo.vtxundo)
  let coinbase ← assertSome .undefined block.vtx.head?
  let (fClean, view) := removeOutputs P pindex.nHeight state coinbase
  return (fClean, view.setBestBlock pindex.pprev)

end CBlock

end BitCrystal
