import BitCrystal.Proofs.CoinEvents

/-! # What a successful ConnectBlock has done

Inversion lemmas for the stages of `ConnectBlock`: the shape `CheckBlock` guarantees, one round of
the transaction loop, the loop, the whole function. The coin changes are always given as a journal
of events, so that the users of these lemmas never unfold the functions.
-/

namespace BitCrystal

open Journal Check

namespace CTransaction

private theorem checkOutputs_mem {start total : ℤ} {vout : List CTxOut}
    (passed : checkOutputs start vout = .ok total) {out : CTxOut} (member : out ∈ vout) :
    0 ≤ out.nValue ∧ out.nValue ≤ MAX_MONEY := by
  induction vout generalizing start with
  | nil => simp at member
  | cons first rest ih =>
    simp only [checkOutputs, bind_eq_ok, rejectIf_eq_ok, not_lt] at passed
    obtain ⟨-, low, -, high, sum, -, -, -, others⟩ := passed
    rcases List.mem_cons.mp member with rfl | later
    · exact ⟨low, high⟩
    · exact ih others later

private theorem valueOutLoop_of_checkOutputs {start total : ℤ} {vout : List CTxOut}
    (passed : checkOutputs start vout = .ok total) (range : moneyRange start) :
    valueOutLoop start vout = .ok total ∧ moneyRange total := by
  induction vout generalizing start with
  | nil =>
    cases passed
    exact ⟨rfl, range⟩
  | cons first rest ih =>
    simp only [checkOutputs, bind_eq_ok, rejectIf_eq_ok, not_lt, not_not] at passed
    obtain ⟨-, low, -, high, sum, added, -, sumRange, others⟩ := passed
    obtain ⟨summed, totalRange⟩ := ih others sumRange
    refine ⟨?_, totalRange⟩
    simp only [valueOutLoop, bind_eq_ok, rejectIf_eq_ok, not_or, not_not]
    exact ⟨sum, added, (), ⟨⟨low, high⟩, sumRange⟩, summed⟩

/-- What the checks without context say about a transaction. -/
structure Valid (tx : CTransaction) : Prop where
  some : tx.vout ≠ []
  size : tx.getSerializeSize ≤ MAX_BLOCK_SIZE
  values : ∀ out ∈ tx.vout, 0 ≤ out.nValue ∧ out.nValue ≤ MAX_MONEY
  valueOut : ∃ nValueOut, tx.getValueOut = .ok nValueOut ∧ moneyRange nValueOut
  distinct : tx.prevouts.Nodup

variable {tx : CTransaction}

theorem valid_of_checkTransaction (passed : tx.checkTransaction = .ok ()) : tx.Valid := by
  simp only [checkTransaction, bind_eq_ok, rejectIf_eq_ok, not_not, not_lt] at passed
  obtain ⟨-, -, -, empty, -, size, total, outputs, -, distinct, -⟩ := passed
  refine ⟨empty, size, fun out member => checkOutputs_mem outputs member, ⟨total, ?_⟩, distinct⟩
  exact valueOutLoop_of_checkOutputs outputs ⟨le_rfl, by decide⟩

theorem vin_ne_nil_of_checkTransaction (passed : tx.checkTransaction = .ok ()) : tx.vin ≠ [] := by
  simp only [checkTransaction, bind_eq_ok, rejectIf_eq_ok] at passed
  obtain ⟨-, empty, -⟩ := passed
  exact empty

theorem Valid.not_isNull (valid : tx.Valid) {out : CTxOut} (member : out ∈ tx.vout) : ¬ out.isNull := by
  have := (valid.values out member).1
  rw [CTxOut.isNull]
  omega

end CTransaction

namespace CBlock

/-- What the checks without context say about the transactions of a block. -/
structure Checked (block : CBlock) (P : Platform) : Prop where
  first : ∃ coinbase rest, block.vtx = coinbase :: rest ∧ coinbase.isCoinBase ∧ ∀ tx ∈ rest, ¬ tx.isCoinBase
  each : ∀ tx ∈ block.vtx, tx.Valid
  distinct : (block.txids P).Nodup

private theorem forM_eq_ok {α : Type*} {check : α → Check Unit} {l : List α}
    (passed : l.forM check = .ok ()) : ∀ a ∈ l, check a = .ok () := by
  induction l with
  | nil => simp
  | cons a rest ih =>
    rw [List.forM_eq_forM, List.forM_cons] at passed
    obtain ⟨done, first, others⟩ := bind_eq_ok.mp passed
    intro b member
    rcases List.mem_cons.mp member with rfl | later
    · exact first
    · exact ih others b later

variable {tx : CTransaction}

/-- Every transaction has passed `CheckTransaction`. -/
theorem each_of_checkBlock {block : CBlock} {P : Platform} {fCheckPOW fCheckMerkleRoot : Bool}
    (passed : block.checkBlock P fCheckPOW fCheckMerkleRoot = .ok ()) (member : tx ∈ block.vtx) :
    tx.checkTransaction = .ok () := by
  simp only [checkBlock, bind_eq_ok, rejectIf_eq_ok, not_not] at passed
  obtain ⟨-, -, -, -, -, -, -, -, -, -, ⟨⟩, each, -⟩ := passed
  exact forM_eq_ok each tx member

theorem checked_of_checkBlock {block : CBlock} {P : Platform} {fCheckPOW fCheckMerkleRoot : Bool}
    (passed : block.checkBlock P fCheckPOW fCheckMerkleRoot = .ok ()) : block.Checked P := by
  simp only [checkBlock, bind_eq_ok, rejectIf_eq_ok, not_not] at passed
  obtain ⟨-, -, -, -, -, -, -, coinbase, -, ordinary, ⟨⟩, each, -, distinct, -⟩ := passed
  refine ⟨?_, fun tx member => CTransaction.valid_of_checkTransaction (forM_eq_ok each tx member), distinct⟩
  obtain ⟨tx, member, isCoinBase⟩ := coinbase
  cases vtx : block.vtx with
  | nil => simp [vtx] at member
  | cons first rest =>
    simp only [vtx, List.head?_cons, Option.mem_some_iff] at member
    subst member
    refine ⟨first, rest, rfl, isCoinBase, fun tx member coinbase => ordinary ⟨tx, ?_, coinbase⟩⟩
    rw [vtx]
    exact member

variable {P : Platform} {index : BlockMap} {pindex : CBlockIndex} {state next : ConnectState}

/-- A coinbase adds its outputs and nothing else. -/
theorem connectTx_coinBase (coinbase : tx.isCoinBase) (connected : connectTx P index pindex state tx = .ok next) :
    next.view = state.view.setCoins (tx.getHash P) (.ofTx tx pindex.nHeight) ∧
      next.nFees = state.nFees ∧ next.vtxundo = state.vtxundo := by
  simp only [connectTx, bind_eq_ok, if_pos coinbase, updateCoins_coinBase coinbase] at connected
  obtain ⟨-, -, _, updated, result⟩ := connected
  cases updated
  cases result
  exact ⟨rfl, rfl, rfl⟩

/-- The facts a round of the loop establishes about an ordinary transaction. -/
structure ConnectedTx (P : Platform) (index : BlockMap) (pindex : CBlockIndex) (tx : CTransaction)
    (state next : ConnectState) (txundo : CTxUndo) (nValueIn nValueOut : ℤ) : Prop where
  haveInputs : tx.haveInputs state.view
  valueIn : tx.getValueIn state.view = .ok nValueIn
  valueOut : tx.getValueOut = .ok nValueOut
  checked : ∃ checks, tx.checkInputs P index state.view true (scriptFlags pindex)
    (P.nScriptCheckThreads ≠ 0) = .ok checks
  fees : next.nFees = state.nFees + (nValueIn - nValueOut)
  updated : tx.updateCoins state.view pindex.nHeight (tx.getHash P) = .ok (next.view, txundo)
  undo : next.vtxundo = state.vtxundo ++ [txundo]

theorem connectTx_ordinary (ordinary : ¬ tx.isCoinBase) (connected : connectTx P index pindex state tx = .ok next) :
    ∃ txundo nValueIn nValueOut, ConnectedTx P index pindex tx state next txundo nValueIn nValueOut := by
  simp only [connectTx, bind_eq_ok, if_neg ordinary, rejectIf_eq_ok, int64_eq_ok,
    not_not] at connected
  obtain ⟨-, -, -, haveInputs, p2sh, -, -, -, nValueIn, valueIn, nValueOut, valueOut, nTxFee, ⟨-, fee⟩,
    nFees, ⟨-, fees⟩, checks, checked, ⟨view, txundo⟩, updated, result⟩ := connected
  cases result
  exact ⟨txundo, nValueIn, nValueOut, haveInputs, valueIn, valueOut, ⟨checks, checked⟩,
    by rw [fee, fees], updated, rfl⟩

/-- The loop over ordinary transactions performs their journal. -/
theorem connectTxs_ordinary {txs : List CTransaction} (ordinary : ∀ tx ∈ txs, ¬ tx.isCoinBase)
    (connected : connectTxs P index pindex state txs = .ok next) :
    ∃ undos, next.vtxundo = state.vtxundo ++ undos ∧ undos.length = txs.length ∧
      (∀ pair ∈ txs.zip undos, pair.2.length = pair.1.vin.length) ∧
      perform CoinEvent.apply state.view (txsEvents P pindex.nHeight (txs.zip undos)) = some next.view := by
  induction txs generalizing state with
  | nil =>
    cases connected
    exact ⟨[], by simp, rfl, by simp, rfl⟩
  | cons tx rest ih =>
    obtain ⟨middle, first, others⟩ := bind_eq_ok.mp connected
    obtain ⟨txundo, _, _, facts⟩ := connectTx_ordinary (ordinary tx (List.mem_cons_self ..)) first
    obtain ⟨undos, collected, count, lengths, performed⟩ :=
      ih (fun tx member => ordinary tx (List.mem_cons_of_mem _ member)) others
    obtain ⟨length, before⟩ := updateCoins_ok (ordinary tx (List.mem_cons_self ..)) facts.updated
    refine ⟨txundo :: undos, ?_, by simp only [List.length_cons, count], ?_, ?_⟩
    · rw [collected, facts.undo, List.append_assoc, List.singleton_append]
    · intro pair member
      rcases List.mem_cons.mp member with rfl | later
      · exact length
      · exact lengths pair later
    · rw [List.zip_cons_cons, txsEvents, List.flatMap_cons]
      exact perform_append_eq_some.mpr ⟨_, before, performed⟩

end CBlock

/-! ## The whole function -/

namespace CBlock

variable {block : CBlock} {P : Platform} {index : BlockMap} {pindex : CBlockIndex}

/-- The transaction loop over the block has performed its journal. -/
structure Journaled (block : CBlock) (P : Platform) (pindex : CBlockIndex) (view : CCoinsViewCache)
    (state : ConnectState) : Prop where
  count : state.blockundo.vtxundo.length + 1 = block.vtx.length
  lengths : ∀ pair ∈ block.vtx.tail.zip state.blockundo.vtxundo, pair.2.length = pair.1.vin.length
  performed : perform CoinEvent.apply view (blockEvents P pindex.nHeight block state.blockundo) =
    some state.view

variable {view : CCoinsViewCache} {state : ConnectState} {disk : ConnectDisk} {next : CCoinsViewCache}
  {self : BlockPtr}

/-- The loop over the transactions of a block, or over a non-empty beginning of them. -/
theorem journaled_of_connectTxs
    (shape : ∃ coinbase rest, block.vtx = coinbase :: rest ∧ coinbase.isCoinBase ∧ ∀ tx ∈ rest, ¬ tx.isCoinBase)
    (loop : connectTxs P index pindex { view } block.vtx = .ok state) : block.Journaled P pindex view state := by
  obtain ⟨coinbase, rest, vtx, isCoinBase, ordinary⟩ := shape
  rw [vtx] at loop
  obtain ⟨middle, first, others⟩ := bind_eq_ok.mp loop
  obtain ⟨added, -, kept⟩ := connectTx_coinBase isCoinBase first
  obtain ⟨undos, collected, count, lengths, performed⟩ := connectTxs_ordinary ordinary others
  have all : state.blockundo = ⟨undos⟩ := by rw [ConnectState.blockundo, collected, kept, List.nil_append]
  refine ⟨?_, ?_, ?_⟩
  · rw [all, vtx, List.length_cons, count]
  · rw [all, vtx, List.tail_cons]
    exact lengths
  · rw [all, blockEvents, vtx]
    exact perform_cons_eq_some.mpr ⟨_, CoinEvent.apply_add.mpr rfl, by rw [← added]; exact performed⟩

/-- The stages `ConnectBlock` passes before its writes. -/
structure ConnectedCoins (block : CBlock) (P : Platform) (index : BlockMap) (pindex : CBlockIndex)
    (view : CCoinsViewCache) (state : ConnectState) (coinbase : CTransaction) (nValueOut nLimit : ℤ) : Prop where
  bip30 : pindex.phashBlock ≠ none ∨ ¬ block.enforceBIP30 P view
  loop : connectTxs P index pindex { view } block.vtx = .ok state
  first : block.vtx.head? = some coinbase
  valueOut : coinbase.getValueOut = .ok nValueOut
  limit : getBlockValue pindex.nHeight state.nFees pindex.nBits = .ok nLimit
  pays : nValueOut ≤ nLimit

theorem connectCoins_ok (connected : block.connectCoins P index pindex view = .ok state) :
    ∃ coinbase nValueOut nLimit, block.ConnectedCoins P index pindex view state coinbase nValueOut nLimit := by
  simp only [connectCoins, bind_eq_ok, rejectIf_eq_ok, assertSome_eq_ok, not_lt] at connected
  obtain ⟨-, bip30, final, loop, coinbase, first, nValueOut, valueOut, nLimit, limit, -, pays, -, -, result⟩ :=
    connected
  cases result
  exact ⟨coinbase, nValueOut, nLimit, not_and_or.mp bip30, loop, first, valueOut, limit, pays⟩

theorem journaled_of_ok (checked : block.Checked P) (connected : block.connectCoins P index pindex view = .ok state) :
    block.Journaled P pindex view state := by
  obtain ⟨_, _, _, stages⟩ := connectCoins_ok connected
  exact journaled_of_connectTxs checked.first stages.loop

theorem connectTxs_append (before after : List CTransaction) (state : ConnectState) :
    connectTxs P index pindex state (before ++ after) =
      connectTxs P index pindex state before >>= fun state => connectTxs P index pindex state after := by
  induction before generalizing state with
  | nil => rfl
  | cons tx rest ih =>
    simp only [List.cons_append, connectTxs, ih]
    cases connectTx P index pindex state tx <;> rfl

/-- What `ConnectBlock` has established when it returns true. -/
structure Connected (block : CBlock) (P : Platform) (index : BlockMap) (pindex : CBlockIndex)
    (hash : BlockPtr) (view : CCoinsViewCache) (fJustCheck : Bool) (r : ConnectResult)
    (next : CCoinsViewCache) : Prop where
  checked : block.Checked P
  prev : pindex.pprev = view.getBestBlock
  coins : (block.getHash P = P.hashGenesisBlock ∧ next = view.setBestBlock (some hash) ∧ r.blockundo = none) ∨
    block.getHash P ≠ P.hashGenesisBlock ∧ ∃ state, block.connectCoins P index pindex view = .ok state ∧
      r.blockundo = some state.blockundo ∧
      if fJustCheck then next = state.view
      else next = state.view.setBestBlock (some hash) ∧ r.nStatus.haveUndo = true

private theorem writeTxIndex_ok {r : ConnectResult}
    (written : (writeTxIndex P disk r).result = .ok next) : writeTxIndex P disk r = r := by
  unfold writeTxIndex at written ⊢
  split_ifs at written ⊢ with failed
  · cases written
  · rfl

private theorem writeBlockIndex_ok {r : ConnectResult} (written : (writeBlockIndex P disk r).result = .ok next) :
    writeBlockIndex P disk r = { r with nStatus := { r.nStatus with valid := BLOCK_VALID_SCRIPTS } } := by
  unfold writeBlockIndex at written ⊢
  dsimp only at written ⊢
  split_ifs at written ⊢ with fine
  · exact writeTxIndex_ok written
  · cases written

/-- When no write fails the view is the one of the transactions, and undo data are there. -/
theorem connectWrites_ok (written : (connectWrites P disk pindex self state).result = .ok next) :
    next = state.view.setBestBlock (some self) ∧
      (connectWrites P disk pindex self state).blockundo = some state.blockundo ∧
      (connectWrites P disk pindex self state).nStatus.haveUndo = true := by
  unfold connectWrites at written ⊢
  dsimp only at written ⊢
  split_ifs at written ⊢ with haveUndo valid noPrev fine
  · have same := writeTxIndex_ok written
    rw [same] at written ⊢
    cases written
    exact ⟨rfl, rfl, haveUndo⟩
  · have same := writeBlockIndex_ok written
    rw [same] at written ⊢
    cases written
    exact ⟨rfl, rfl, haveUndo⟩
  · cases found : disk.findUndoPos <;> rw [found] at written <;> cases written
  · cases found : disk.findUndoPos with
    | none =>
      rw [found] at written
      cases written
    | some nPos =>
      simp only [found] at written ⊢
      have same := writeBlockIndex_ok written
      rw [same] at written ⊢
      cases written
      exact ⟨rfl, rfl, rfl⟩
  · cases found : disk.findUndoPos <;> rw [found] at written <;> cases written

theorem connected_of_ok {fJustCheck : Bool}
    (ok : (block.connectBlock P disk index pindex self view fJustCheck).result = .ok next) :
    block.Connected P index pindex self view fJustCheck
      (block.connectBlock P disk index pindex self view fJustCheck) next := by
  unfold connectBlock at ok ⊢
  dsimp only at ok ⊢
  cases passed : block.checkBlock P (!fJustCheck) (!fJustCheck) with
  | error failure =>
    rw [passed] at ok
    cases ok
  | ok done =>
    simp only [passed] at ok ⊢
    by_cases prev : pindex.pprev = view.getBestBlock
    · rw [if_neg (not_not.mpr prev)] at ok ⊢
      by_cases genesis : block.getHash P = P.hashGenesisBlock
      · rw [if_pos genesis] at ok ⊢
        cases ok
        exact ⟨checked_of_checkBlock passed, prev, .inl ⟨genesis, rfl, rfl⟩⟩
      · rw [if_neg genesis] at ok ⊢
        cases coins : block.connectCoins P index pindex view with
        | error failure =>
          rw [coins] at ok
          cases ok
        | ok state =>
          simp only [coins] at ok ⊢
          refine ⟨checked_of_checkBlock passed, prev, .inr ⟨genesis, state, coins, ?_⟩⟩
          cases fJustCheck with
          | true =>
            cases ok
            exact ⟨rfl, rfl⟩
          | false =>
            obtain ⟨view, undo, haveUndo⟩ := connectWrites_ok ok
            exact ⟨undo, view, haveUndo⟩
    · rw [if_pos prev] at ok
      cases ok

/-- A block that is connected has passed `CheckBlock`. -/
theorem checkBlock_of_ok {fJustCheck : Bool}
    (ok : (block.connectBlock P disk index pindex self view fJustCheck).result = .ok next) :
    block.checkBlock P (!fJustCheck) (!fJustCheck) = .ok () := by
  unfold connectBlock at ok
  dsimp only at ok
  cases passed : block.checkBlock P (!fJustCheck) (!fJustCheck) with
  | error failure =>
    rw [passed] at ok
    cases ok
  | ok done => rfl

/-- Connecting a block with undo data has performed its journal. -/
theorem journaled_of_built {blockundo : CBlockUndo}
    (connected : (block.connectBlock P disk index pindex self view false).result = .ok next)
    (built : (block.connectBlock P disk index pindex self view false).blockundo = some blockundo) :
    block.Checked P ∧ ∃ state, block.Journaled P pindex view state ∧ blockundo = state.blockundo ∧
      next = state.view.setBestBlock (some self) ∧
      (block.connectBlock P disk index pindex self view false).nStatus.haveUndo = true := by
  have facts := connected_of_ok connected
  obtain ⟨-, -, nothing⟩ | ⟨-, state, coins, undo, result⟩ := facts.coins
  · rw [nothing] at built
    cases built
  · rw [undo] at built
    cases built
    exact ⟨facts.checked, state, journaled_of_ok facts.checked coins, rfl, result⟩

private theorem fGenesis_writeTxIndex (disk : ConnectDisk) (r : ConnectResult) :
    (writeTxIndex P disk r).fGenesis = r.fGenesis := by
  unfold writeTxIndex
  split_ifs <;> rfl

private theorem fGenesis_writeBlockIndex (disk : ConnectDisk) (r : ConnectResult) :
    (writeBlockIndex P disk r).fGenesis = r.fGenesis := by
  unfold writeBlockIndex
  dsimp only
  split_ifs
  · exact fGenesis_writeTxIndex disk _
  · rfl

private theorem fGenesis_connectWrites (disk : ConnectDisk) (self : BlockPtr) (state : ConnectState) :
    (connectWrites P disk pindex self state).fGenesis = false := by
  unfold connectWrites
  cases disk.findUndoPos <;> dsimp only <;> split_ifs <;>
    simp [fGenesis_writeTxIndex, fGenesis_writeBlockIndex, ConnectResult.fail]

/-- Only the genesis block sets the pointer. -/
theorem getHash_of_fGenesis (set : (block.connectBlock P disk index pindex self view false).fGenesis = true) :
    block.getHash P = P.hashGenesisBlock := by
  unfold connectBlock at set
  dsimp only at set
  cases passed : block.checkBlock P (!false) (!false) with
  | error failure =>
    rw [passed] at set
    cases set
  | ok done =>
    simp only [passed] at set
    split at set
    · cases set
    · split at set
      next genesis => exact genesis
      next =>
        cases coins : block.connectCoins P index pindex view with
        | error failure =>
          rw [coins] at set
          cases set
        | ok state =>
          simp only [coins, Bool.false_eq_true, if_false, fGenesis_connectWrites] at set

/-- Connecting the genesis block sets it. -/
theorem fGenesis_of_ok (connected : (block.connectBlock P disk index pindex self view false).result = .ok next)
    (genesis : block.getHash P = P.hashGenesisBlock) :
    (block.connectBlock P disk index pindex self view false).fGenesis = true := by
  unfold connectBlock at connected ⊢
  dsimp only at connected ⊢
  cases passed : block.checkBlock P (!false) (!false) with
  | error failure =>
    rw [passed] at connected
    cases connected
  | ok done =>
    simp only [passed] at connected ⊢
    by_cases prev : pindex.pprev = view.getBestBlock
    · rw [if_neg (not_not.mpr prev), if_pos genesis]
    · rw [if_pos prev] at connected
      cases connected

end CBlock

end BitCrystal
