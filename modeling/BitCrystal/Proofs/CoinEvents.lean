import BitCrystal.Machine.Journal
import BitCrystal.Model.ConnectBlock
import BitCrystal.Proofs.Coins

/-! # The coin changes of a block as a journal

`ConnectBlock` changes a view by spending outputs and adding entries, in the order of the
transactions; its undo information is what is needed to name these events. `DisconnectBlock` takes
the same events back from the last one on. Everything proved about the two functions goes through
this journal.
-/

namespace BitCrystal

open CTransaction CBlock

namespace CCoinsViewCache

/-- The view as a set of unspent outputs. -/
def output? (view : CCoinsViewCache) (out : COutPoint) : Option CTxOut :=
  (view.getCoins out.hash).bind fun coins => coins.output? out.n

/-- The meaning of an entry, nothing when it is absent or pruned. -/
def unspent? (view : CCoinsViewCache) (txid : Uint256) : Option (CoinMeta × (ℕ → Option CTxOut)) :=
  (view.getCoins txid).bind CCoins.unspent?

variable {view other : CCoinsViewCache} {txid : Uint256} {coins : CCoins}

@[simp] theorem unspent?_setCoins (h : Uint256) :
    (view.setCoins txid coins).unspent? h = if h = txid then coins.unspent? else view.unspent? h := by
  simp only [unspent?, getCoins_setCoins]
  split_ifs <;> rfl

@[simp] theorem unspent?_setBestBlock (pindex : Option BlockPtr) (h : Uint256) :
    (view.setBestBlock pindex).unspent? h = view.unspent? h := rfl

@[simp] theorem output?_setCoins (out : COutPoint) :
    (view.setCoins txid coins).output? out = if out.hash = txid then coins.output? out.n else view.output? out := by
  simp only [output?, getCoins_setCoins]
  split_ifs <;> rfl

@[simp] theorem output?_setBestBlock (pindex : Option BlockPtr) (out : COutPoint) :
    (view.setBestBlock pindex).output? out = view.output? out := rfl

/-- An entry without unspent outputs, or none. -/
theorem unspent?_eq_none {h : Uint256} :
    view.unspent? h = none ↔ ∀ coins, view.getCoins h = some coins → coins.isPruned := by
  cases found : view.getCoins h <;> simp [unspent?, found, CCoins.unspent?_eq_none]

/-- The entry `DisconnectBlock` reads means the same; an absent one reads as a pruned one. -/
theorem unspent?_getD (h : Uint256) : ((view.getCoins h).getD {}).unspent? = view.unspent? h := by
  rw [unspent?]
  cases view.getCoins h with
  | none => exact CCoins.unspent?_eq_none.mpr CCoins.isPruned_default
  | some coins => rfl

theorem trimmed_getD (trimmed : ∀ h coins, view.getCoins h = some coins → coins.Trimmed) (h : Uint256) :
    ((view.getCoins h).getD {}).Trimmed := by
  cases found : view.getCoins h with
  | none => exact CCoins.trimmed_default
  | some coins => exact trimmed h coins found

end CCoinsViewCache

/-- One change to the entries of a view. -/
inductive CoinEvent
  | spend (out : COutPoint) (undo : CTxInUndo)
  | add (txid : Uint256) (coins : CCoins)

namespace CoinEvent

/-- The entry an event changes. -/
def txid : CoinEvent → Uint256
  | spend out _ => out.hash
  | add txid _ => txid

/-- Make the change; a spent output must be there and give the recorded undo information. -/
def apply (view : CCoinsViewCache) : CoinEvent → Option CCoinsViewCache
  | spend out undo => do
    let coins ← view.getCoins out.hash
    let (left, made) ← coins.spend out.n
    if made = undo then some (view.setCoins out.hash left) else none
  | add txid coins => some (view.setCoins txid coins)

/-- Take the change back as `DisconnectBlock` does; the flag is `fClean`. -/
def revert (state : Bool × CCoinsViewCache) : CoinEvent → Bool × CCoinsViewCache
  | spend out undo => restoreInput state out undo
  | add txid coins =>
    (state.1 && state.2.haveCoins txid && decide ((state.2.getCoins txid).getD {} = coins),
      state.2.setCoins txid {})

variable {view next : CCoinsViewCache}

theorem apply_spend {out : COutPoint} {undo : CTxInUndo} : (spend out undo).apply view = some next ↔ ∃ coins left,
      view.getCoins out.hash = some coins ∧ coins.spend out.n = some (left, undo) ∧
        next = view.setCoins out.hash left := by
  simp only [apply, bind, Option.bind_eq_some_iff, Prod.exists, Option.ite_none_right_eq_some,
    Option.some.injEq]
  constructor
  · rintro ⟨coins, found, left, made, spent, rfl, rfl⟩
    exact ⟨coins, left, found, spent, rfl⟩
  · rintro ⟨coins, left, found, spent, rfl⟩
    exact ⟨coins, found, left, undo, spent, rfl, rfl⟩

theorem apply_add {txid : Uint256} {coins : CCoins} :
    (add txid coins).apply view = some next ↔ next = view.setCoins txid coins := by
  simp only [apply, Option.some.injEq, eq_comm]

/-- An event leaves every other entry alone. -/
theorem getCoins_apply {event : CoinEvent}
    (applied : event.apply view = some next) {h : Uint256} (other : h ≠ event.txid) :
    next.getCoins h = view.getCoins h := by
  cases event with
  | spend out undo =>
    obtain ⟨coins, left, _, _, rfl⟩ := apply_spend.mp applied
    simp only [CCoinsViewCache.getCoins_setCoins, if_neg (show h ≠ out.hash from other)]
  | add txid coins =>
    rw [apply_add.mp applied]
    simp only [CCoinsViewCache.getCoins_setCoins, if_neg (show h ≠ txid from other)]

/-- Spending takes exactly one output out of the set. -/
theorem output?_apply_spend {out : COutPoint} {undo : CTxInUndo} (applied : (spend out undo).apply view = some next) :
    view.output? out = some undo.txout ∧ next.output? = Function.update view.output? out none := by
  obtain ⟨coins, left, found, spent, rfl⟩ := apply_spend.mp applied
  obtain ⟨there, outputs, -⟩ := CCoins.spend_spec spent
  refine ⟨by rw [CCoinsViewCache.output?, found]; exact there, ?_⟩
  funext o
  rw [CCoinsViewCache.output?_setCoins]
  by_cases same : o = out
  · subst same
    simp [outputs]
  · rw [Function.update_of_ne same]
    split_ifs with hash
    · have number : o.n ≠ out.n := fun number => same (by cases o; cases out; simp_all)
      rw [outputs, Function.update_of_ne number, CCoinsViewCache.output?, hash, found]
      rfl
    · rfl

theorem getCoins_revert (state : Bool × CCoinsViewCache) (event : CoinEvent) {h : Uint256}
    (other : h ≠ event.txid) : (event.revert state).2.getCoins h = state.2.getCoins h := by
  cases event with
  | spend out undo => simp [revert, restoreInput, show h ≠ out.hash from other]
  | add txid coins => simp [revert, show h ≠ txid from other]

end CoinEvent

/-- The inputs of a transaction with their undo information. -/
def spendEvents (vin : List CTxIn) (txundo : CTxUndo) : List CoinEvent :=
  (vin.zip txundo).map fun (txin, undo) => .spend txin.prevout undo

def txEvents (P : Platform) (nHeight : ℕ) (tx : CTransaction) (txundo : CTxUndo) : List CoinEvent :=
  spendEvents tx.vin txundo ++ [.add (tx.getHash P) (.ofTx tx nHeight)]

/-- The events of the transactions behind the coinbase. -/
def txsEvents (P : Platform) (nHeight : ℕ) (txs : List (CTransaction × CTxUndo)) : List CoinEvent :=
  txs.flatMap fun (tx, txundo) => txEvents P nHeight tx txundo

/-- The events of a block: the coinbase spends nothing. -/
def blockEvents (P : Platform) (nHeight : ℕ) (block : CBlock) (blockundo : CBlockUndo) : List CoinEvent :=
  match block.vtx with
  | [] => []
  | coinbase :: rest =>
    .add (coinbase.getHash P) (.ofTx coinbase nHeight) :: txsEvents P nHeight (rest.zip blockundo.vtxundo)

open Journal

variable {view : CCoinsViewCache} {P : Platform}

/-- `spendInputs` performs the spending events of its inputs. -/
theorem spendInputs_ok {next : CCoinsViewCache} {vin : List CTxIn} {txundo : CTxUndo}
    (spent : spendInputs view vin = .ok (next, txundo)) : txundo.length = vin.length ∧
      perform CoinEvent.apply view (spendEvents vin txundo) = some next := by
  induction vin generalizing view next txundo with
  | nil =>
    cases spent
    exact ⟨rfl, rfl⟩
  | cons txin rest ih =>
    simp only [spendInputs, Check.bind_eq_ok, Check.assertSome_eq_ok, Prod.exists] at spent
    obtain ⟨coins, found, left, undo, taken, last, undos, tail, result⟩ := spent
    cases result
    obtain ⟨lengths, performed⟩ := ih tail
    refine ⟨by simp only [List.length_cons, lengths], ?_⟩
    exact perform_cons_eq_some.mpr
      ⟨_, CoinEvent.apply_spend.mpr ⟨coins, left, found, taken, rfl⟩, performed⟩

theorem updateCoins_coinBase {tx : CTransaction} (coinbase : tx.isCoinBase) (view : CCoinsViewCache)
    (nHeight : ℕ) (txhash : Uint256) :
    tx.updateCoins view nHeight txhash = .ok (view.setCoins txhash (.ofTx tx nHeight), []) := by
  simp only [updateCoins, if_pos coinbase]
  rfl

theorem updateCoins_ok {tx : CTransaction} (ordinary : ¬ tx.isCoinBase)
    {next : CCoinsViewCache} {nHeight : ℕ} {txundo : CTxUndo}
    (updated : tx.updateCoins view nHeight (tx.getHash P) = .ok (next, txundo)) : txundo.length = tx.vin.length ∧
      perform CoinEvent.apply view (txEvents P nHeight tx txundo) = some next := by
  simp only [updateCoins, if_neg ordinary, Check.bind_eq_ok, Prod.exists] at updated
  obtain ⟨middle, undos, spent, result⟩ := updated
  cases result
  obtain ⟨lengths, performed⟩ := spendInputs_ok spent
  refine ⟨lengths, perform_append_eq_some.mpr ⟨_, performed, ?_⟩⟩
  rw [perform_singleton]
  rfl

theorem restoreInputs_eq_unwind (state : Bool × CCoinsViewCache) (vin : List CTxIn) (txundo : CTxUndo) :
    restoreInputs state (vin.zip txundo) = unwind CoinEvent.revert state (spendEvents vin txundo) := by
  simp only [spendEvents]
  induction vin.zip txundo with
  | nil => rfl
  | cons pair rest ih =>
    obtain ⟨txin, undo⟩ := pair
    simp only [restoreInputs, ih]
    rfl

theorem disconnectTxs_eq_unwind {nHeight : ℕ} (state : Bool × CCoinsViewCache)
    {txs : List (CTransaction × CTxUndo)} (lengths : ∀ pair ∈ txs, pair.2.length = pair.1.vin.length) :
    disconnectTxs P nHeight state txs = .ok (unwind CoinEvent.revert state (txsEvents P nHeight txs)) := by
  induction txs with
  | nil => rfl
  | cons pair rest ih =>
    obtain ⟨tx, txundo⟩ := pair
    have same : ¬ txundo.length ≠ tx.vin.length := not_not.mpr (lengths _ (List.mem_cons_self ..))
    simp only [disconnectTxs, ih fun pair member => lengths pair (List.mem_cons_of_mem _ member),
      rejectIf, if_neg same, restoreInputs_eq_unwind, txsEvents, List.flatMap_cons, txEvents,
      unwind_append]
    rfl

/-- With undo data of the right shape `DisconnectBlock` unwinds the journal of the block. -/
theorem disconnectBlock_eq_unwind {block : CBlock} {pindex : CBlockIndex} {self : BlockPtr} {blockundo : CBlockUndo}
    (best : view.getBestBlock = some self) (haveUndo : pindex.nStatus.haveUndo = true)
    (hasPrev : pindex.pprev ≠ none) (count : blockundo.vtxundo.length + 1 = block.vtx.length)
    (lengths : ∀ pair ∈ block.vtx.tail.zip blockundo.vtxundo, pair.2.length = pair.1.vin.length) :
    block.disconnectBlock P pindex self (some blockundo) view =
      let state := unwind CoinEvent.revert (true, view) (blockEvents P pindex.nHeight block blockundo)
      .ok (state.1, state.2.setBestBlock pindex.pprev) := by
  obtain ⟨header, vtx⟩ := block
  cases vtx with
  | nil => simp at count
  | cons coinbase rest =>
    simp only [List.tail_cons] at lengths
    have opened : disconnectBlock ⟨header, coinbase :: rest⟩ P pindex self (some blockundo) view =
        (disconnectTxs P pindex.nHeight (true, view) (rest.zip blockundo.vtxundo)).bind fun state =>
          let state := removeOutputs P pindex.nHeight state coinbase
          .ok (state.1, state.2.setBestBlock pindex.pprev) := by
      simp only [disconnectBlock, rejectIf, assertSome, best, haveUndo, hasPrev, not_true_eq_false,
        ne_eq, ↓reduceIte, Check.ok_bind, if_neg (not_not.mpr count)]
      rfl
    rw [opened, disconnectTxs_eq_unwind _ lengths]
    rfl

end BitCrystal
