import BitCrystal.Proofs.ConnectBlock

/-! # The journal of a block and the entries along it

Which entries a block adds and spends, in terms of its transactions, and what stays true of the
entries of a view while the journal is performed.
-/

namespace BitCrystal

open Journal CCoinsViewCache CTransaction CoinEvent

namespace CoinEvent

/-- The entry an event creates. -/
def added : CoinEvent → Option Uint256
  | spend _ _ => none
  | add txid _ => some txid

/-- The output an event spends. -/
def spent : CoinEvent → Option COutPoint
  | spend out _ => some out
  | add _ _ => none

end CoinEvent

private theorem exists_zip_of_mem_right {α β : Type*} {l : List α} {r : List β} (length : r.length = l.length)
    {b : β} (member : b ∈ r) : ∃ a, (a, b) ∈ l.zip r := by
  obtain ⟨i, bound, rfl⟩ := List.mem_iff_getElem.mp member
  refine ⟨l[i], List.mem_iff_getElem.mpr ⟨i, ?_, ?_⟩⟩
  · rw [List.length_zip]
    omega
  · rw [List.getElem_zip]

variable {txundo : CTxUndo} {P : Platform} {nHeight : ℕ} {block : CBlock} {blockundo : CBlockUndo} {out : COutPoint}
  {es : List CoinEvent} {good : CoinMeta → Prop}

theorem mem_spendEvents {vin : List CTxIn} {event : CoinEvent} (member : event ∈ spendEvents vin txundo) :
    ∃ txin ∈ vin, ∃ undo ∈ txundo, event = .spend txin.prevout undo := by
  obtain ⟨⟨txin, undo⟩, pair, rfl⟩ := List.mem_map.mp member
  exact ⟨txin, (List.of_mem_zip pair).1, undo, (List.of_mem_zip pair).2, rfl⟩

theorem mem_txEvents {tx : CTransaction} {event : CoinEvent} (member : event ∈ txEvents P nHeight tx txundo) :
    (∃ txin ∈ tx.vin, ∃ undo ∈ txundo, event = .spend txin.prevout undo) ∨
      event = .add (tx.getHash P) (.ofTx tx nHeight) := by
  rcases List.mem_append.mp member with spent | added
  · exact .inl (mem_spendEvents spent)
  · exact .inr (List.mem_singleton.mp added)

theorem mem_blockEvents {event : CoinEvent} (member : event ∈ blockEvents P nHeight block blockundo) :
    (∃ tx ∈ block.vtx.tail, ∃ txin ∈ tx.vin, ∃ txundo ∈ blockundo.vtxundo, ∃ undo ∈ txundo,
        event = .spend txin.prevout undo) ∨ ∃ tx ∈ block.vtx, event = .add (tx.getHash P) (.ofTx tx nHeight) := by
  unfold blockEvents at member
  split at member
  · simp at member
  next coinbase rest vtx =>
  rw [vtx, List.tail_cons]
  rcases List.mem_cons.mp member with rfl | later
  · exact .inr ⟨coinbase, List.mem_cons_self .., rfl⟩
  · obtain ⟨⟨tx, txundo⟩, pair, inside⟩ := List.mem_flatMap.mp later
    obtain ⟨there, undone⟩ := List.of_mem_zip pair
    rcases mem_txEvents inside with ⟨txin, input, undo, record, rfl⟩ | rfl
    · exact .inl ⟨tx, there, txin, input, txundo, undone, undo, record, rfl⟩
    · exact .inr ⟨tx, List.mem_cons_of_mem _ there, rfl⟩

/-- The entries a block adds are those of its transactions. -/
theorem add_mem_blockEvents
    {txid : Uint256} {coins : CCoins} (member : .add txid coins ∈ blockEvents P nHeight block blockundo) :
    ∃ tx ∈ block.vtx, txid = tx.getHash P ∧ coins = .ofTx tx nHeight := by
  rcases mem_blockEvents member with ⟨_, _, _, _, _, _, _, _, same⟩ | ⟨tx, inside, same⟩
  · cases same
  · obtain ⟨rfl, rfl⟩ := CoinEvent.add.inj same
    exact ⟨tx, inside, rfl, rfl⟩

theorem spend_mem_blockEvents {undo : CTxInUndo} (member : .spend out undo ∈ blockEvents P nHeight block blockundo) :
    ∃ txundo ∈ blockundo.vtxundo, undo ∈ txundo := by
  rcases mem_blockEvents member with ⟨_, _, _, _, txundo, undone, undo, record, same⟩ | ⟨_, _, same⟩
  · obtain ⟨rfl, rfl⟩ := CoinEvent.spend.inj same
    exact ⟨txundo, undone, record⟩
  · cases same

/-- Every undo record belongs to an event of the journal. -/
theorem exists_spend_mem_blockEvents (nHeight : ℕ) (count : blockundo.vtxundo.length + 1 = block.vtx.length)
    (lengths : ∀ pair ∈ block.vtx.tail.zip blockundo.vtxundo, pair.2.length = pair.1.vin.length)
    (member : txundo ∈ blockundo.vtxundo) {undo : CTxInUndo} (record : undo ∈ txundo) :
    ∃ out, CoinEvent.spend out undo ∈ blockEvents P nHeight block blockundo := by
  unfold blockEvents
  cases vtx : block.vtx with
  | nil => simp [vtx] at count
  | cons coinbase rest =>
    rw [vtx, List.length_cons] at count
    rw [vtx, List.tail_cons] at lengths
    obtain ⟨tx, pair⟩ := exists_zip_of_mem_right (Nat.succ.inj count) member
    obtain ⟨txin, input⟩ := exists_zip_of_mem_right (lengths _ pair) record
    refine ⟨txin.prevout, List.mem_cons_of_mem _ (List.mem_flatMap.mpr ⟨_, pair, ?_⟩)⟩
    exact List.mem_append_left _ (List.mem_map.mpr ⟨_, input, rfl⟩)

theorem added_spendEvents (vin : List CTxIn) (txundo : CTxUndo) :
    (spendEvents vin txundo).filterMap CoinEvent.added = [] := by
  rw [List.filterMap_eq_nil_iff]
  intro event member
  obtain ⟨txin, -, undo, -, rfl⟩ := mem_spendEvents member
  rfl

theorem added_txsEvents (P : Platform) (nHeight : ℕ) {txs : List CTransaction} {undos : List CTxUndo}
    (count : undos.length = txs.length) :
    (txsEvents P nHeight (txs.zip undos)).filterMap CoinEvent.added = txs.map (·.getHash P) := by
  induction txs generalizing undos with
  | nil => rfl
  | cons tx rest ih =>
    cases undos with
    | nil => simp at count
    | cons txundo others =>
      have head : (txEvents P nHeight tx txundo).filterMap CoinEvent.added = [tx.getHash P] := by
        rw [txEvents, List.filterMap_append, added_spendEvents]
        rfl
      calc
        _ = (txEvents P nHeight tx txundo).filterMap CoinEvent.added ++
            (txsEvents P nHeight (rest.zip others)).filterMap CoinEvent.added := List.filterMap_append ..
        _ = _ := by rw [head, ih (Nat.succ.inj count), List.map_cons, List.singleton_append]

/-- A block adds one entry for each transaction, in order. -/
theorem added_blockEvents (nHeight : ℕ) (count : blockundo.vtxundo.length + 1 = block.vtx.length) :
    (blockEvents P nHeight block blockundo).filterMap CoinEvent.added = block.txids P := by
  unfold blockEvents CBlock.txids
  cases vtx : block.vtx with
  | nil => rfl
  | cons coinbase rest =>
    rw [vtx, List.length_cons] at count
    simp only [List.filterMap_cons, CoinEvent.added, List.map_cons,
      added_txsEvents P nHeight (Nat.succ.inj count)]

theorem spent_spendEvents {vin : List CTxIn} (length : txundo.length = vin.length) :
    (spendEvents vin txundo).filterMap CoinEvent.spent = vin.map CTxIn.prevout := by
  induction vin generalizing txundo with
  | nil => rfl
  | cons txin rest ih =>
    cases txundo with
    | nil => simp at length
    | cons undo others =>
      simp only [spendEvents, List.zip_cons_cons, List.map_cons, List.filterMap_cons, CoinEvent.spent]
      exact congrArg _ (ih (Nat.succ.inj length))

private theorem spent_txsEvents (P : Platform) (nHeight : ℕ) {txs : List CTransaction} {undos : List CTxUndo}
    (count : undos.length = txs.length) (lengths : ∀ pair ∈ txs.zip undos, pair.2.length = pair.1.vin.length) :
    (txsEvents P nHeight (txs.zip undos)).filterMap CoinEvent.spent = txs.flatMap prevouts := by
  induction txs generalizing undos with
  | nil => rfl
  | cons tx rest ih =>
    cases undos with
    | nil => simp at count
    | cons txundo others =>
      have head : (txEvents P nHeight tx txundo).filterMap CoinEvent.spent = tx.prevouts := by
        rw [txEvents, List.filterMap_append, spent_spendEvents (lengths (tx, txundo) (List.mem_cons_self ..))]
        exact List.append_nil _
      calc
        _ = (txEvents P nHeight tx txundo).filterMap CoinEvent.spent ++
            (txsEvents P nHeight (rest.zip others)).filterMap CoinEvent.spent := List.filterMap_append ..
        _ = _ := by
          rw [head, ih (Nat.succ.inj count) fun pair member => lengths pair (List.mem_cons_of_mem _ member),
            List.flatMap_cons]

/-- A block spends the outpoints its ordinary transactions name. -/
theorem spent_blockEvents (nHeight : ℕ) (count : blockundo.vtxundo.length + 1 = block.vtx.length)
    (lengths : ∀ pair ∈ block.vtx.tail.zip blockundo.vtxundo, pair.2.length = pair.1.vin.length) :
    (blockEvents P nHeight block blockundo).filterMap CoinEvent.spent = block.vtx.tail.flatMap prevouts := by
  unfold blockEvents
  cases vtx : block.vtx with
  | nil => rfl
  | cons coinbase rest =>
    rw [vtx, List.length_cons] at count
    rw [vtx, List.tail_cons] at lengths
    simp only [List.filterMap_cons, CoinEvent.spent, List.tail_cons,
      spent_txsEvents P nHeight (Nat.succ.inj count) lengths]

namespace CBlock.Journaled

variable {block : CBlock} {P : Platform} {pindex : CBlockIndex} {view : CCoinsViewCache} {state : ConnectState}

theorem added (journal : block.Journaled P pindex view state) :
    (blockEvents P pindex.nHeight block state.blockundo).filterMap CoinEvent.added = block.txids P :=
  added_blockEvents pindex.nHeight journal.count

theorem spent (journal : block.Journaled P pindex view state) :
    (blockEvents P pindex.nHeight block state.blockundo).filterMap CoinEvent.spent =
      block.vtx.tail.flatMap prevouts :=
  spent_blockEvents pindex.nHeight journal.count journal.lengths

end CBlock.Journaled

variable {view next : CCoinsViewCache} {event : CoinEvent}

namespace CoinEvent

/-- A spent entry had unspent outputs, and keeps its metadata while it has. -/
theorem unspent?_apply_spend {out : COutPoint} {undo : CTxInUndo}
    (applied : (spend out undo).apply view = some next) :
    ∃ coins, view.getCoins out.hash = some coins ∧ ¬ coins.isPruned ∧
      ∀ data outputs, next.unspent? out.hash = some (data, outputs) → data = coins.metadata := by
  obtain ⟨coins, left, found, spent, rfl⟩ := apply_spend.mp applied
  obtain ⟨there, -, data, -⟩ := CCoins.spend_spec spent
  refine ⟨coins, found, fun pruned => ?_, fun kept outputs entry => ?_⟩
  · rw [CCoins.isPruned_iff.mp pruned] at there
    contradiction
  · rw [unspent?_setCoins, if_pos rfl] at entry
    rw [← (CCoins.unspent?_eq_some.mp entry).2.1, data]

end CoinEvent

/-- An event leaves the meaning of every other entry alone. -/
theorem CCoinsViewCache.unspent?_apply (applied : event.apply view = some next) {h : Uint256}
    (other : h ≠ event.txid) : next.unspent? h = view.unspent? h := by
  rw [unspent?, getCoins_apply applied other]
  rfl

/-- The entries a journal does not add have outputs after it only if they had before. -/
theorem unspent?_perform_none (run : perform apply view es = some next)
    {h : Uint256} (absent : view.unspent? h = none) (notAdded : h ∉ es.filterMap CoinEvent.added) :
    next.unspent? h = Option.none := by
  induction es generalizing view with
  | nil =>
    cases run
    exact absent
  | cons event rest ih =>
    obtain ⟨middle, applied, others⟩ := perform_cons_eq_some.mp run
    rw [List.mem_filterMap] at notAdded
    push Not at notAdded
    refine ih others ?_ ?_
    · by_cases same : h = event.txid
      · subst same
        cases event with
        | spend out undo =>
          obtain ⟨coins, found, unpruned, -⟩ := CoinEvent.unspent?_apply_spend applied
          exact absurd (unspent?_eq_none.mp absent coins found) unpruned
        | add txid coins => exact absurd rfl (notAdded _ (List.mem_cons_self ..))
      · rw [unspent?_apply applied same, absent]
    · rw [List.mem_filterMap]
      rintro ⟨event, member, created⟩
      exact notAdded event (List.mem_cons_of_mem _ member) created

/-- Outputs of entries a journal does not add are still there, except those it spends. -/
theorem output?_perform (run : perform apply view es = some next)
    (notAdded : out.hash ∉ es.filterMap CoinEvent.added) :
    next.output? out = if out ∈ es.filterMap CoinEvent.spent then none else view.output? out := by
  induction es generalizing view with
  | nil =>
    cases run
    simp
  | cons event rest ih =>
    obtain ⟨middle, applied, others⟩ := perform_cons_eq_some.mp run
    cases event with
    | spend place undo =>
      simp only [List.filterMap_cons, CoinEvent.added, CoinEvent.spent, List.mem_cons] at notAdded ⊢
      rw [ih others notAdded, (output?_apply_spend applied).2]
      by_cases same : out = place
      · simp [same]
      · simp only [same, false_or, Function.update_of_ne same]
    | add txid coins =>
      simp only [List.filterMap_cons, CoinEvent.added, CoinEvent.spent, List.mem_cons, not_or] at notAdded ⊢
      rw [ih others notAdded.2, apply_add.mp applied, output?_setCoins,
        if_neg notAdded.1]
      congr

theorem CBlock.Journaled.output? {pindex : CBlockIndex}
    {state : ConnectState} (journal : block.Journaled P pindex view state) (notAdded : out.hash ∉ block.txids P) :
    state.view.output? out = if out ∈ block.vtx.tail.flatMap prevouts then none else view.output? out := by
  rw [output?_perform journal.performed (by rwa [journal.added]), journal.spent]

/-- Every unspent output belongs to an entry of this kind. -/
def CCoinsViewCache.EveryMeta (good : CoinMeta → Prop) (view : CCoinsViewCache) : Prop :=
  ∀ txid data outputs, view.unspent? txid = some (data, outputs) → good data

theorem CCoinsViewCache.everyMeta_of_coins
    (every : ∀ txid coins, view.getCoins txid = some coins → ¬ coins.isPruned → good coins.metadata) :
    view.EveryMeta good := by
  intro txid data outputs entry
  obtain ⟨coins, found, meaning⟩ := Option.bind_eq_some_iff.mp entry
  obtain ⟨unpruned, rfl, -⟩ := CCoins.unspent?_eq_some.mp meaning
  exact every txid coins found unpruned

/-- Metadata only come from the entries already there and the entries added. -/
theorem everyMeta_apply (added : ∀ txid coins, event = .add txid coins → good coins.metadata)
    (applied : event.apply view = some next) (before : view.EveryMeta good) : next.EveryMeta good := by
  intro txid data outputs entry
  by_cases same : txid = event.txid
  · subst same
    cases event with
    | spend out undo =>
      obtain ⟨coins, found, unpruned, kept⟩ := CoinEvent.unspent?_apply_spend applied
      rw [kept data outputs entry]
      apply before out.hash _ coins.output?
      rw [unspent?, found]
      exact CCoins.unspent?_eq_some.mpr ⟨unpruned, rfl, rfl⟩
    | add txid coins =>
      rw [apply_add.mp applied, unspent?_setCoins, CoinEvent.txid, if_pos rfl] at entry
      rw [← (CCoins.unspent?_eq_some.mp entry).2.1]
      exact added txid coins rfl
  · exact before txid data outputs (unspent?_apply applied same ▸ entry)

theorem everyMeta_perform (added : ∀ txid coins, CoinEvent.add txid coins ∈ es → good coins.metadata)
    (run : perform apply view es = some next) (before : view.EveryMeta good) : next.EveryMeta good := by
  refine perform_history (fun _ view => view.EveryMeta good) before ?_ run
  intro _ middle event last good applied member
  exact everyMeta_apply (fun txid coins same => added txid coins (same ▸ member)) applied good

/-- What spending preserves and added entries have, all entries have. -/
theorem everyCoins_apply {good : CCoins → Prop}
    (spent : ∀ coins n left undo, CCoins.spend coins n = some (left, undo) → good coins → good left)
    (added : ∀ txid coins, event = .add txid coins → good coins) (applied : event.apply view = some next)
    (before : ∀ txid coins, view.getCoins txid = some coins → good coins) :
    ∀ txid coins, next.getCoins txid = some coins → good coins := by
  intro txid coins found
  by_cases same : txid = event.txid
  · subst same
    cases event with
    | spend out undo =>
      obtain ⟨whole, left, there, taken, rfl⟩ := CoinEvent.apply_spend.mp applied
      rw [getCoins_setCoins, CoinEvent.txid, if_pos rfl] at found
      cases found
      exact spent whole out.n _ undo taken (before out.hash whole there)
    | add txid new =>
      rw [apply_add.mp applied, getCoins_setCoins, CoinEvent.txid, if_pos rfl] at found
      cases found
      exact added txid _ rfl
  · exact before txid coins (getCoins_apply applied same ▸ found)

theorem everyCoins_perform {good : CCoins → Prop}
    (spent : ∀ coins n left undo, CCoins.spend coins n = some (left, undo) → good coins → good left)
    (added : ∀ txid coins, CoinEvent.add txid coins ∈ es → good coins) (run : perform apply view es = some next)
    (before : ∀ txid coins, view.getCoins txid = some coins → good coins) :
    ∀ txid coins, next.getCoins txid = some coins → good coins := by
  refine perform_history (fun _ view => ∀ txid coins, view.getCoins txid = some coins → good coins) before ?_ run
  intro _ middle event last every applied member
  exact everyCoins_apply spent (fun txid coins same => added txid coins (same ▸ member)) applied every

/-- What spending an entry makes of its undo record, all undo records of the journal are. -/
theorem everyUndo_perform (good : CCoins → Prop) (goodUndo : CTxInUndo → Prop)
    (spent : ∀ coins n left undo, CCoins.spend coins n = some (left, undo) → good coins → good left ∧ goodUndo undo)
    (added : ∀ txid coins, CoinEvent.add txid coins ∈ es → good coins) (run : perform apply view es = some next)
    (before : ∀ txid coins, view.getCoins txid = some coins → good coins) :
    ∀ out undo, CoinEvent.spend out undo ∈ es → goodUndo undo := by
  have kept : ∀ coins n left undo, CCoins.spend coins n = some (left, undo) → good coins → good left :=
    fun coins n left undo taken whole => (spent coins n left undo taken whole).1
  suffices history : (∀ txid coins, next.getCoins txid = some coins → good coins) ∧
      ∀ out undo, CoinEvent.spend out undo ∈ es → goodUndo undo from history.2
  refine perform_history (fun past view => (∀ txid coins, view.getCoins txid = some coins → good coins) ∧
    ∀ out undo, CoinEvent.spend out undo ∈ past → goodUndo undo) ⟨before, by simp⟩ ?_ run
  rintro past middle event last ⟨every, undone⟩ applied inside
  constructor
  · exact everyCoins_apply kept (fun txid coins same => added txid coins (same ▸ inside)) applied every
  · intro out undo member
    rcases List.mem_append.mp member with earlier | now
    · exact undone out undo earlier
    · obtain rfl := List.mem_singleton.mp now
      obtain ⟨coins, left, found, taken, -⟩ := CoinEvent.apply_spend.mp applied
      exact (spent coins out.n left undo taken (every out.hash coins found)).2

end BitCrystal
