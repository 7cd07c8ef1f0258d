import BitCrystal.Proofs.PoolUpdate

/-! # The staging view of a switch

What disconnecting and connecting blocks does to the view: the view below stays, entries once written
stay in the cache, outputs that nothing spends or removes are still there, and those of a connected
transaction that no other one spends are there.
-/

namespace BitCrystal

open Journal CCoinsViewCache CCoins ChainOps

variable {view next : CCoinsViewCache} {out : COutPoint}

namespace CoinEvent

variable {event : CoinEvent}

theorem base_apply (applied : event.apply view = some next) : next.base = view.base := by
  cases event with
  | spend out undo =>
    obtain ⟨_, _, -, -, rfl⟩ := apply_spend.mp applied
    rfl
  | add txid coins =>
    rw [apply_add.mp applied]
    rfl

theorem base_revert (state : Bool × CCoinsViewCache) (event : CoinEvent) : (event.revert state).2.base = state.2.base := by
  cases event <;> rfl

/-- An event writes to its own entry only. -/
theorem cacheCoins_revert (state : Bool × CCoinsViewCache) (event : CoinEvent) {h : Uint256}
    (cached : h = event.txid ∨ state.2.cacheCoins h ≠ none) : (event.revert state).2.cacheCoins h ≠ none := by
  have written (coins : CCoins) : (state.2.setCoins event.txid coins).cacheCoins h ≠ none := by
    rw [setCoins]
    by_cases same : h = event.txid
    · simp [same]
    · simpa [same] using cached.resolve_left same
  cases event <;> exact written _

theorem cacheCoins_apply (applied : event.apply view = some next) {h : Uint256}
    (cached : view.cacheCoins h ≠ none) : next.cacheCoins h ≠ none := by
  have written (txid : Uint256) (coins : CCoins) : (view.setCoins txid coins).cacheCoins h ≠ none := by
    rw [setCoins]
    by_cases same : h = txid
    · simp [same]
    · simpa [same] using cached
  cases event with
  | spend out undo =>
    obtain ⟨_, _, -, -, rfl⟩ := apply_spend.mp applied
    exact written _ _
  | add txid coins =>
    rw [apply_add.mp applied]
    exact written _ _

/-- Taking an event back cleanly loses no output of another transaction than the one it removes. -/
theorem output?_revert {state : Bool × CCoinsViewCache} (clean : (event.revert state).1 = true)
    (other : event.added ≠ some out.hash) (there : state.2.output? out ≠ none) :
    (event.revert state).2.output? out ≠ none := by
  cases event with
  | add txid coins =>
    simp only [revert, output?_setCoins]
    rwa [if_neg]
    exact fun same => other (congrArg some same.symm)
  | spend place undo =>
    simp only [revert, CBlock.restoreInput, Bool.and_eq_true, decide_eq_true_eq] at clean
    obtain ⟨⟨-, consistent⟩, free⟩ := clean
    simp only [revert, CBlock.restoreInput, output?_setCoins]
    split
    next same =>
      obtain ⟨coins, found, output⟩ : ∃ coins, state.2.getCoins place.hash = some coins ∧ coins.output? out.n ≠ none := by
        rw [CCoinsViewCache.output?, same] at there
        cases found : state.2.getCoins place.hash with
        | none => simp [found] at there
        | some coins => exact ⟨coins, rfl, by simpa [found] using there⟩
      rw [found, Option.getD_some] at consistent free ⊢
      split at consistent
      next => exact absurd (isPruned_iff.mp consistent out.n) output
      next low =>
        simp only [if_neg low] at free ⊢
        have number : out.n ≠ place.n := fun number => output (output?_eq_none.mpr (number ▸ free))
        exact (output?_putOutput_of_ne number).symm ▸ output
    next => exact there

end CoinEvent

theorem base_unwind (state : Bool × CCoinsViewCache) (es : List CoinEvent) :
    (unwind CoinEvent.revert state es).2.base = state.2.base := by
  induction es with
  | nil => rfl
  | cons e es ih => rw [unwind, CoinEvent.base_revert, ih]

variable {es : List CoinEvent}

theorem cacheCoins_unwind {state : Bool × CCoinsViewCache} {h : Uint256}
    (cached : h ∈ es.filterMap CoinEvent.added ∨ state.2.cacheCoins h ≠ none) :
    (unwind CoinEvent.revert state es).2.cacheCoins h ≠ none := by
  induction es with
  | nil => simpa using cached
  | cons e es ih =>
    apply CoinEvent.cacheCoins_revert
    cases e with
    | spend out undo => exact .inr (ih (by simpa [CoinEvent.added] using cached))
    | add txid coins =>
      by_cases same : h = txid
      · exact .inl same
      · exact .inr (ih (by simpa [CoinEvent.added, same] using cached))

theorem output?_unwind {state : Bool × CCoinsViewCache}
    (clean : (unwind CoinEvent.revert state es).1 = true) (other : out.hash ∉ es.filterMap CoinEvent.added)
    (there : state.2.output? out ≠ none) : (unwind CoinEvent.revert state es).2.output? out ≠ none := by
  induction es with
  | nil => exact there
  | cons e es ih =>
    have before : (unwind CoinEvent.revert state es).1 = true := by
      cases e <;> simp_all [unwind, CoinEvent.revert, CBlock.restoreInput]
    refine CoinEvent.output?_revert clean ?_ (ih before fun later => other ?_)
    · exact fun added => other (List.mem_filterMap.mpr ⟨e, List.mem_cons_self .., added⟩)
    · exact List.mem_filterMap.mpr (by
        obtain ⟨event, member, added⟩ := List.mem_filterMap.mp later
        exact ⟨event, List.mem_cons_of_mem _ member, added⟩)

/-- An output nothing spends is there at the end if it was there or has been added with its transaction. -/
theorem output?_perform_of_unspent (run : perform CoinEvent.apply view es = some next)
    (unspent : out ∉ es.filterMap CoinEvent.spent)
    (full : ∀ coins, CoinEvent.add out.hash coins ∈ es → coins.output? out.n ≠ none)
    (there : view.output? out ≠ none ∨ out.hash ∈ es.filterMap CoinEvent.added) : next.output? out ≠ none := by
  induction es generalizing view with
  | nil =>
    cases run
    simpa using there
  | cons event rest ih =>
    obtain ⟨middle, applied, others⟩ := perform_cons_eq_some.mp run
    have full' (coins : CCoins) (member : CoinEvent.add out.hash coins ∈ rest) := full coins (List.mem_cons_of_mem _ member)
    cases event with
    | spend place undo =>
      simp only [List.filterMap_cons, CoinEvent.spent, CoinEvent.added, List.mem_cons, not_or] at unspent there
      refine ih others unspent.2 full' (there.imp (fun before => ?_) id)
      rwa [(CoinEvent.output?_apply_spend applied).2, Function.update_of_ne unspent.1]
    | add txid coins =>
      simp only [List.filterMap_cons, CoinEvent.spent, CoinEvent.added, List.mem_cons] at unspent there
      apply ih others unspent full'
      rw [CoinEvent.apply_add.mp applied, output?_setCoins]
      split
      next same =>
        subst same
        exact .inl (full coins (List.mem_cons_self ..))
      next distinct => exact there.imp id fun added => added.resolve_left distinct

namespace CBlock

variable {block : CBlock} {P : Platform} {pindex : CBlockIndex}

private theorem lengths_of_disconnectTxs {nHeight : ℕ} {state state' : Bool × CCoinsViewCache}
    {txs : List (CTransaction × CTxUndo)} (ran : disconnectTxs P nHeight state txs = .ok state') :
    ∀ pair ∈ txs, pair.2.length = pair.1.vin.length := by
  induction txs generalizing state' with
  | nil => simp
  | cons pair rest ih =>
    obtain ⟨tx, txundo⟩ := pair
    simp only [disconnectTxs, Check.bind_eq_ok, Check.rejectIf_eq_ok, not_not] at ran
    obtain ⟨middle, others, -, length, -⟩ := ran
    intro pair member
    rcases List.mem_cons.mp member with rfl | later
    · exact length
    · exact ih others pair later

/-- Disconnecting a block has unwound a journal of it. -/
theorem disconnectBlock_ok {self : BlockPtr} {undoFile : Option CBlockUndo} {fClean : Bool}
    (ran : block.disconnectBlock P pindex self undoFile view = .ok (fClean, next)) :
    pindex.pprev ≠ none ∧ ∃ blockundo : CBlockUndo, blockundo.vtxundo.length + 1 = block.vtx.length ∧
      fClean = (unwind CoinEvent.revert (true, view) (blockEvents P pindex.nHeight block blockundo)).1 ∧
      next = (unwind CoinEvent.revert (true, view) (blockEvents P pindex.nHeight block blockundo)).2.setBestBlock
        pindex.pprev := by
  have stages := ran
  simp only [disconnectBlock, Check.bind_eq_ok, Check.rejectIf_eq_ok, Check.assertSome_eq_ok, not_not] at stages
  obtain ⟨-, best, -, haveUndo, -, hasPrev, blockundo, rfl, -, count, state, undone, -⟩ := stages
  rw [disconnectBlock_eq_unwind best.symm haveUndo hasPrev count (lengths_of_disconnectTxs undone)] at ran
  cases ran
  exact ⟨hasPrev, blockundo, count, rfl, rfl⟩

/-- The outputs of a transaction in the entry it adds. -/
theorem output?_ofTx {tx : CTransaction} (valid : tx.Valid) (nHeight : ℕ) {n : ℕ} :
    (ofTx tx nHeight).output? n ≠ none ↔ n < tx.vout.length := by
  constructor
  · intro there
    obtain ⟨txout, found⟩ := Option.ne_none_iff_exists'.mp there
    exact (List.getElem?_eq_some_iff.mp (output?_eq_some.mp found).1).1
  · intro inside
    have found : (ofTx tx nHeight).output? n = some tx.vout[n] :=
      output?_eq_some.mpr ⟨List.getElem?_eq_getElem inside, valid.not_isNull (List.getElem_mem inside)⟩
    rw [found]
    exact Option.some_ne_none _

variable {index : BlockMap} {self : BlockPtr} {disk : ConnectDisk}

/-- What a connected block has done to the view: nothing if it is genesis, else its journal. -/
theorem journaled_of_connected
    (connected : (block.connectBlock P disk index pindex self view false).result = .ok next) :
    block.getHash P = P.hashGenesisBlock ∧ pindex.pprev = view.getBestBlock ∧ next = view.setBestBlock (some self) ∨
      ∃ state, block.Checked P ∧ block.Journaled P pindex view state ∧ next = state.view.setBestBlock (some self) := by
  have facts := connected_of_ok connected
  obtain ⟨genesis, rfl, -⟩ | ⟨-, state, coins, -, rfl, -⟩ := facts.coins
  · exact .inl ⟨genesis, facts.prev, rfl⟩
  · exact .inr ⟨state, facts.checked, journaled_of_ok facts.checked coins, rfl⟩

variable {state : ConnectState}

theorem Journaled.base (journal : block.Journaled P pindex view state) : state.view.base = view.base :=
  perform_preserves (fun current => current.base = view.base)
    (fun _ _ _ applied same => (CoinEvent.base_apply applied).trans same) journal.performed rfl

theorem Journaled.cacheCoins (journal : block.Journaled P pindex view state) {h : Uint256}
    (cached : view.cacheCoins h ≠ none) : state.view.cacheCoins h ≠ none :=
  perform_preserves (fun current => current.cacheCoins h ≠ none)
    (fun _ _ _ applied cached => CoinEvent.cacheCoins_apply applied cached) journal.performed cached

/-- An output no transaction of the block spends is there after it, if it was there or is one of the block. -/
theorem Journaled.output?_of_unspent (journal : block.Journaled P pindex view state)
    (checked : block.Checked P) (unspent : ∀ tx ∈ block.vtx, out ∉ tx.prevouts)
    (full : ∀ tx ∈ block.vtx, tx.getHash P = out.hash → out.n < tx.vout.length)
    (there : view.output? out ≠ none ∨ ∃ tx ∈ block.vtx, tx.getHash P = out.hash) :
    state.view.output? out ≠ none := by
  refine output?_perform_of_unspent journal.performed ?_ (fun coins member => ?_) (there.imp id ?_)
  · rw [journal.spent, List.mem_flatMap]
    rintro ⟨tx, member, spends⟩
    exact unspent tx (List.mem_of_mem_tail member) spends
  · obtain ⟨tx, inside, hash, rfl⟩ := add_mem_blockEvents member
    exact (output?_ofTx (checked.each tx inside) _).mpr (full tx inside hash.symm)
  · rintro ⟨tx, member, hash⟩
    rw [journal.added]
    exact List.mem_map.mpr ⟨tx, member, hash⟩

end CBlock

namespace Node

variable {P : Platform} {depth : ℕ} {disk : SwitchDisk} {index : BlockMap} {last : CCoinsViewCache}
  {vDisconnect : List BlockPtr} {vResurrect : List CTransaction} {vConnect : List BlockPtr}
  {vDelete : List CTransaction}

theorem Disconnects.base (disconnects : Disconnects (.real P depth disk) index view vDisconnect last vResurrect) :
    last.base = view.base := by
  induction disconnects with
  | nil view => rfl
  | cons found read clean others ih =>
    obtain ⟨-, _, -, -, rfl⟩ := CBlock.disconnectBlock_ok clean
    exact ih.trans (base_unwind ..)

theorem Connects.base
    (connects : Connects (.real P depth disk) index view vConnect last vDelete) : last.base = view.base := by
  induction connects with
  | nil view => rfl
  | cons same found read connected others ih =>
    rcases CBlock.journaled_of_connected connected with ⟨-, -, rfl⟩ | ⟨state, -, journal, rfl⟩
    · exact ih
    · exact ih.trans journal.base

/-- The entries of disconnected transactions have been written. -/
theorem Disconnects.cacheCoins
    (disconnects : Disconnects (.real P depth disk) index view vDisconnect last vResurrect) {h : Uint256}
    (cached : h ∈ txidsOf P ((real P depth disk).transactions vDisconnect) ∨ view.cacheCoins h ≠ none) :
    last.cacheCoins h ≠ none := by
  induction disconnects with
  | nil view => simpa [txidsOf, transactions] using cached
  | @cons view next last pindex entry block rest vResurrect found read clean others ih =>
    obtain ⟨-, blockundo, count, -, rfl⟩ := CBlock.disconnectBlock_ok clean
    refine ih (cached.elim ?_ fun before => .inr (cacheCoins_unwind (.inr before)))
    rintro ⟨tx, member, rfl⟩
    rw [transactions, List.flatMap_cons, read] at member
    rcases List.mem_append.mp member with here | later
    · refine .inr (cacheCoins_unwind (.inl ?_))
      rw [added_blockEvents _ count]
      exact List.mem_map_of_mem here
    · exact .inl ⟨tx, later, rfl⟩

theorem Connects.cacheCoins (connects : Connects (.real P depth disk) index view vConnect last vDelete) {h : Uint256}
    (cached : view.cacheCoins h ≠ none) : last.cacheCoins h ≠ none := by
  induction connects with
  | nil view => exact cached
  | cons same found read connected others ih =>
    rcases CBlock.journaled_of_connected connected with ⟨-, -, rfl⟩ | ⟨state, -, journal, rfl⟩
    · exact ih cached
    · exact ih (journal.cacheCoins cached)

/-- Disconnecting cleanly keeps the outputs of the other transactions. -/
theorem Disconnects.output? (disconnects : Disconnects (.real P depth disk) index view vDisconnect last vResurrect)
    (other : out.hash ∉ txidsOf P ((real P depth disk).transactions vDisconnect))
    (there : view.output? out ≠ none) : last.output? out ≠ none := by
  induction disconnects with
  | nil view => exact there
  | @cons view next last pindex entry block rest vResurrect found read clean others ih =>
    obtain ⟨-, blockundo, count, flag, rfl⟩ := CBlock.disconnectBlock_ok clean
    rw [transactions, List.flatMap_cons, read] at other
    refine ih (fun later => other ?_) (output?_unwind flag.symm (fun added => other ?_) there)
    · obtain ⟨tx, member, hash⟩ := later
      exact ⟨tx, List.mem_append_right _ member, hash⟩
    · rw [added_blockEvents _ count] at added
      obtain ⟨tx, member, hash⟩ := List.mem_map.mp added
      exact ⟨tx, List.mem_append_left _ member, hash⟩

/-- Connecting keeps and adds the outputs that no connected transaction spends, genesis apart. -/
theorem Connects.output?_of_unspent (connects : Connects (.real P depth disk) index view vConnect last vDelete)
    (top : ∀ entry, index P.hashGenesisBlock = some entry → entry.pprev = none) (started : view.getBestBlock ≠ none)
    (unspent : ∀ tx ∈ vDelete, out ∉ tx.prevouts) (full : ∀ tx ∈ vDelete, tx.getHash P = out.hash → out.n < tx.vout.length)
    (there : view.output? out ≠ none ∨ ∃ tx ∈ vDelete, tx.getHash P = out.hash) : last.output? out ≠ none := by
  induction connects with
  | nil view => simpa using there
  | @cons view next last index' pindex entry block rest vDelete same found read connected others ih =>
    simp only [List.mem_append, or_imp, forall_and] at unspent full
    rcases CBlock.journaled_of_connected connected with ⟨genesis, prev, -⟩ | ⟨state, checked, journal, rfl⟩
    · obtain ⟨source, indexed, agree⟩ := same.symm.entry found
      have parent : source.bare.pprev = entry.bare.pprev := congrArg _ agree
      change source.pprev = entry.pprev at parent
      rw [getHash_of_read read] at genesis
      rw [← prev, ← parent] at started
      exact absurd (top source (genesis ▸ indexed)) started
    · apply ih (Option.some_ne_none _) unspent.2 full.2
      rw [output?_setBestBlock]
      by_cases here : view.output? out ≠ none ∨ ∃ tx ∈ block.vtx, tx.getHash P = out.hash
      · exact .inl (journal.output?_of_unspent checked unspent.1 full.1 here)
      · rw [not_or] at here
        obtain ⟨tx, member, hash⟩ := there.resolve_left here.1
        refine .inr ⟨tx, (List.mem_append.mp member).resolve_left fun inside => ?_, hash⟩
        exact here.2 ⟨tx, inside, hash⟩

/-- The tip view reads as the staging view once that has been pushed to it. -/
theorem getCoins_mergedTip {node : Node} (base : last.base = node.pcoinsTip.answers) (h : Uint256) :
    (node.mergedTip last).getCoins h = last.getCoins h := by
  have below : last.base.getCoins h = node.pcoinsTip.getCoins h := by rw [base, answers_getCoins]
  rw [mergedTip, getCoins_batchWrite, ← below, CCoinsViewCache.getCoins]

end Node

/-- Flushing to the database erases pruned entries. -/
theorem CCoinsViewCache.getCoins_flushDB_of_cached {h : Uint256} (cached : view.cacheCoins h ≠ none) :
    view.flushDB.getCoins h = (view.getCoins h).filter fun coins => ¬ coins.isPruned := by
  obtain ⟨coins, found⟩ := Option.ne_none_iff_exists'.mp cached
  simp only [getCoins, flushDB, CCoinsView.batchWriteDB, found, Option.none_or, Option.some_or]
  by_cases pruned : coins.isPruned
  · simp [pruned, Option.filter]
  · simp [pruned, Option.filter]

/-- It loses no output. -/
theorem CCoinsViewCache.output?_flushDB : view.flushDB.output? out = view.output? out := by
  cases found : view.cacheCoins out.hash with
  | none => simp only [output?, getCoins, flushDB, CCoinsView.batchWriteDB, found, Option.none_or]
  | some coins =>
    have cached : view.cacheCoins out.hash ≠ none := by simp [found]
    have there : view.getCoins out.hash = some coins := by simp [getCoins, found]
    rw [output?, output?, getCoins_flushDB_of_cached cached, there]
    by_cases pruned : coins.isPruned
    · simp [pruned, Option.filter, isPruned_iff.mp pruned]
    · simp [pruned, Option.filter]

end BitCrystal
