import BitCrystal.Model.TestNet
import BitCrystal.Proofs.BlockJournal

/-! # DisconnectBlock takes ConnectBlock back

Every event of a block can be taken back where it was performed, provided no entry with unspent
outputs was overwritten. Taking the journal of the whole block back restores the outputs and the
metadata of every entry, and `fClean` stays set.
-/

namespace BitCrystal

open Journal Check CCoinsViewCache CoinEvent CCoins TestNet

/-- The state of `DisconnectBlock` while it stands for a view of `ConnectBlock`. -/
structure Restores (state : Bool × CCoinsViewCache) (view : CCoinsViewCache) : Prop where
  clean : state.1 = true
  entries : ∀ txid, state.2.unspent? txid = view.unspent? txid
  trimmed : ∀ txid coins, state.2.getCoins txid = some coins → coins.Trimmed

/-- What an event needs of the view it is performed on to be taken back. -/
def CoinEvent.Revertible (view : CCoinsViewCache) : CoinEvent → Prop
  | .spend _ _ => view.EveryMeta fun data => data.nHeight ≠ 0
  | .add txid coins => view.unspent? txid = none ∧ coins.vout ≠ [] ∧ ∀ out ∈ coins.vout, ¬ out.isNull

/-- Restoring an input: the entry it writes to is a new one when the undo record has a height. -/
theorem restoreInput_eq (state : Bool × CCoinsViewCache) (out : COutPoint) (undo : CTxInUndo) :
    CBlock.restoreInput state out undo =
      let coins := (state.2.getCoins out.hash).getD {}
      let target := if undo.nHeight ≠ 0 then ⟨undo.fCoinBase, [], undo.nHeight, undo.nVersion⟩ else coins
      (state.1 && decide (if undo.nHeight ≠ 0 then coins.isPruned else ¬ coins.isPruned) &&
          decide (¬ target.isAvailable out.n),
        state.2.setCoins out.hash (target.putOutput out.n undo.txout)) := rfl

namespace Restores

variable {state : Bool × CCoinsViewCache} {view next : CCoinsViewCache}

theorem unspent?_getD (restores : Restores state view) (txid : Uint256) :
    ((state.2.getCoins txid).getD {}).unspent? = view.unspent? txid := by
  rw [CCoinsViewCache.unspent?_getD, restores.entries]

theorem trimmed_getD (restores : Restores state view) (txid : Uint256) :
    ((state.2.getCoins txid).getD {}).Trimmed := CCoinsViewCache.trimmed_getD restores.trimmed txid

/-- Replacing one entry by one of the meaning it had before. -/
theorem set (restores : Restores state next) {txid : Uint256} {coins : CCoins}
    (others : ∀ h, h ≠ txid → next.unspent? h = view.unspent? h) (entry : coins.unspent? = view.unspent? txid)
    (trimmed : coins.Trimmed) : Restores (true, state.2.setCoins txid coins) view where
  clean := rfl
  entries h := by
    rw [unspent?_setCoins]
    split_ifs with same
    · rw [entry, same]
    · rw [restores.entries, others h same]
  trimmed h found := by
    rw [getCoins_setCoins]
    split_ifs with same
    · rintro ⟨⟩
      exact trimmed
    · exact restores.trimmed h found

/-- Removing the outputs of a transaction finds exactly what the block had added. -/
theorem revert_add {txid : Uint256} {coins : CCoins}
    (revertible : (CoinEvent.add txid coins).Revertible view)
    (applied : (CoinEvent.add txid coins).apply view = some next) (restores : Restores state next) :
    Restores ((CoinEvent.add txid coins).revert state) view := by
  obtain ⟨absent, nonempty, full⟩ := revertible
  have result := apply_add.mp applied
  have unpruned : ¬ coins.isPruned := by
    obtain ⟨out, member⟩ := List.exists_mem_of_ne_nil _ nonempty
    exact fun pruned => full out member (pruned out member)
  have equal : (state.2.getCoins txid).getD {} = coins := by
    rw [eq_iff_unspent? (restores.trimmed_getD txid) nonempty full, restores.unspent?_getD, result,
      unspent?_setCoins, if_pos rfl]
  have found : state.2.haveCoins txid = true := by
    rw [haveCoins]
    cases getCoins : state.2.getCoins txid with
    | none =>
      rw [getCoins] at equal
      exact absurd (equal ▸ isPruned_default) unpruned
    | some coins => rfl
  have removed : (CoinEvent.add txid coins).revert state = (true, state.2.setCoins txid {}) := by
    simp only [CoinEvent.revert, restores.clean, found, equal, decide_true, Bool.and_self]
  rw [removed]
  refine restores.set (fun h other => ?_) ?_ ?_
  · exact unspent?_apply applied other
  · rw [absent]
    exact CCoins.unspent?_eq_none.mpr isPruned_default
  · exact trimmed_default

/-- Restoring an input writes back the output, and the metadata when they were lost. -/
theorem revert_spend {out : COutPoint} {undo : CTxInUndo}
    (revertible : (CoinEvent.spend out undo).Revertible view)
    (applied : (CoinEvent.spend out undo).apply view = some next) (restores : Restores state next) :
    Restores ((CoinEvent.spend out undo).revert state) view := by
  obtain ⟨coins, left, found, spent, result⟩ := apply_spend.mp applied
  obtain ⟨there, outputs, data, -, undone⟩ := spend_spec spent
  have unpruned : ¬ coins.isPruned := fun pruned => by
    rw [isPruned_iff.mp pruned] at there
    contradiction
  have before : view.unspent? out.hash = some (coins.metadata, coins.output?) := by
    rw [CCoinsViewCache.unspent?, found]
    exact unspent?_eq_some.mpr ⟨unpruned, rfl, rfl⟩
  have notNull : ¬ undo.txout.isNull := (output?_eq_some.mp there).2
  have height : coins.nHeight ≠ 0 := revertible _ _ _ before
  have read := restores.unspent?_getD out.hash
  rw [result, unspent?_setCoins, if_pos rfl] at read
  have trimmed := restores.trimmed_getD out.hash
  -- Either way the entry it writes to has the metadata before and the outputs left.
  obtain ⟨target, restored, targetData, targetOutputs, targetTrimmed⟩ : ∃ target : CCoins,
      CBlock.restoreInput state out undo =
        (true, state.2.setCoins out.hash (target.putOutput out.n undo.txout)) ∧
      target.metadata = coins.metadata ∧ target.output? = left.output? ∧ target.Trimmed := by
    by_cases pruned : left.isPruned
    · rw [if_pos pruned] at undone
      have restoresMeta : undo.nHeight ≠ 0 := by
        rw [show undo.nHeight = coins.nHeight from congrArg CoinMeta.nHeight undone]
        exact height
      have readPruned : ((state.2.getCoins out.hash).getD {}).isPruned := by
        rw [← CCoins.unspent?_eq_none, read, CCoins.unspent?_eq_none]
        exact pruned
      refine ⟨⟨undo.fCoinBase, [], undo.nHeight, undo.nVersion⟩, ?_, undone, ?_, ?_⟩
      · have unavailable : ¬ (⟨undo.fCoinBase, [], undo.nHeight, undo.nVersion⟩ : CCoins).isAvailable out.n := by
          rw [← output?_eq_none, output?_nil]
        simp only [restoreInput_eq, restores.clean, restoresMeta, ne_eq, not_false_eq_true, ↓reduceIte, readPruned,
          unavailable, decide_true, Bool.and_self]
      · funext n
        rw [output?_nil, isPruned_iff.mp pruned]
      · exact trimmed_nil
    · rw [if_neg pruned] at undone
      have keepsMeta : undo.nHeight = 0 := congrArg CoinMeta.nHeight undone
      obtain ⟨readUnpruned, readData, readOutputs⟩ := unspent?_eq_some.mp
        (read.trans (unspent?_eq_some.mpr ⟨pruned, rfl, rfl⟩))
      have unavailable : ¬ ((state.2.getCoins out.hash).getD {}).isAvailable out.n := by
        rw [← output?_eq_none, readOutputs, outputs, Function.update_self]
      refine ⟨(state.2.getCoins out.hash).getD {}, ?_, readData.trans data, readOutputs, trimmed⟩
      simp only [restoreInput_eq, restores.clean, keepsMeta, ne_eq, not_true_eq_false, ↓reduceIte, readUnpruned,
        unavailable, not_false_eq_true, decide_true, Bool.and_self]
  rw [CoinEvent.revert, restored]
  refine restores.set (fun h other => ?_) ?_ (trimmed_putOutput targetTrimmed notNull)
  · exact unspent?_apply applied other
  · rw [before]
    refine unspent?_eq_some.mpr ⟨?_, by rw [metadata_putOutput, targetData], ?_⟩
    · rw [isPruned_iff, output?_putOutput notNull]
      intro empty
      have := empty out.n
      rw [Function.update_self] at this
      contradiction
    · rw [output?_putOutput notNull, targetOutputs, outputs, Function.update_idem,
        ← there, Function.update_eq_self]

/-- Taking back one event. -/
theorem revert {event : CoinEvent} (revertible : event.Revertible view)
    (applied : event.apply view = some next) (restores : Restores state next) :
    Restores (event.revert state) view := by
  cases event with
  | spend out undo => exact revert_spend revertible applied restores
  | add txid coins => exact revert_add revertible applied restores

end Restores

variable {block : CBlock} {P : Platform} {nHeight : ℕ} {blockundo : CBlockUndo} {view : CCoinsViewCache}

/-- Every event of a block is revertible where it is performed. -/
theorem revertible_blockEvents (checked : block.Checked P)
    (count : blockundo.vtxundo.length + 1 = block.vtx.length) (height : nHeight ≠ 0)
    (heights : view.EveryMeta fun data => data.nHeight ≠ 0)
    (fresh : ∀ txid ∈ block.txids P, view.unspent? txid = none) :
    ∀ past event rest middle, blockEvents P nHeight block blockundo = past ++ event :: rest →
      perform apply view past = some middle → event.Revertible middle := by
  intro past event rest middle split before
  cases event with
  | spend out undo =>
    refine everyMeta_perform (fun txid coins member => ?_) before heights
    have inside : .add txid coins ∈ past ++ CoinEvent.spend out undo :: rest := List.mem_append_left _ member
    obtain ⟨tx, -, -, rfl⟩ := add_mem_blockEvents (split ▸ inside)
    exact height
  | add txid coins =>
    have order := congrArg (List.filterMap added) split
    rw [added_blockEvents nHeight count, List.filterMap_append, List.filterMap_cons] at order
    have distinct := order ▸ checked.distinct
    have notBefore : txid ∉ past.filterMap added := fun member =>
      (List.nodup_append.mp distinct).2.2 _ member _ (List.mem_cons_self ..) rfl
    have here : txid ∈ block.txids P := by
      rw [order]
      exact List.mem_append_right _ (List.mem_cons_self ..)
    have inside : .add txid coins ∈ past ++ CoinEvent.add txid coins :: rest := by simp
    obtain ⟨tx, member, -, rfl⟩ := add_mem_blockEvents (split ▸ inside)
    have valid := checked.each tx member
    exact ⟨unspent?_perform_none before (fresh txid here) notBefore, valid.some,
      fun out inside => valid.not_isNull inside⟩

theorem trimmed_blockEvents {next : CCoinsViewCache} (checked : block.Checked P)
    (performed : perform apply view (blockEvents P nHeight block blockundo) = some next)
    (trimmed : ∀ txid coins, view.getCoins txid = some coins → coins.Trimmed) :
    ∀ txid coins, next.getCoins txid = some coins → coins.Trimmed := by
  refine everyCoins_perform (fun coins n left undo spent _ => (spend_spec spent).2.2.2.1) ?_ performed trimmed
  intro txid coins member
  obtain ⟨tx, inside, -, rfl⟩ := add_mem_blockEvents member
  exact fun out last => (checked.each tx inside).not_isNull (List.mem_of_getLast? last)

/-- Taking the journal of a block back restores the view before it. -/
theorem Restores.unwind_blockEvents
    {next : CCoinsViewCache} {state : Bool × CCoinsViewCache} (checked : block.Checked P)
    (count : blockundo.vtxundo.length + 1 = block.vtx.length)
    (performed : perform apply view (blockEvents P nHeight block blockundo) = some next)
    (height : nHeight ≠ 0) (heights : view.EveryMeta fun data => data.nHeight ≠ 0)
    (fresh : ∀ txid ∈ block.txids P, view.unspent? txid = none) (initial : Restores state next) :
    Restores (unwind CoinEvent.revert state (blockEvents P nHeight block blockundo)) view :=
  unwind_of_perform Restores CoinEvent.Revertible (fun _ _ _ _ good applied => Restores.revert good applied)
    performed (revertible_blockEvents checked count height heights fresh) initial

/-- Disconnecting a block with the undo data connecting it has built is clean and restores the view. -/
theorem disconnectBlock_connectBlock {block : CBlock} {P : Platform} {disk : CBlock.ConnectDisk}
    {index : BlockMap} {pindex : CBlockIndex} {self : BlockPtr} {view next : CCoinsViewCache}
    {blockundo : CBlockUndo}
    (connected : (block.connectBlock P disk index pindex self view false).result = .ok next)
    (built : (block.connectBlock P disk index pindex self view false).blockundo = some blockundo)
    (height : 0 < pindex.nHeight) (hasPrev : pindex.pprev ≠ none)
    (trimmed : ∀ txid coins, view.getCoins txid = some coins → coins.Trimmed)
    (heights : ∀ txid coins, view.getCoins txid = some coins → ¬ coins.isPruned → coins.nHeight ≠ 0)
    (fresh : ∀ txid ∈ block.txids P, ∀ coins, view.getCoins txid = some coins → coins.isPruned) :
    let r := block.connectBlock P disk index pindex self view false
    ∃ before, block.disconnectBlock P (r.indexed pindex) self (some blockundo) next = .ok (true, before) ∧
      (∀ txid, before.unspent? txid = view.unspent? txid) ∧ before.getBestBlock = pindex.pprev := by
  intro r
  obtain ⟨checked, state, ⟨count, lengths, performed⟩, rfl, rfl, haveUndo⟩ := CBlock.journaled_of_built connected built
  have initial : Restores (true, state.view.setBestBlock (some self)) state.view :=
    { clean := rfl, entries := fun _ => rfl, trimmed := (trimmed_blockEvents checked performed trimmed :) }
  have restored := initial.unwind_blockEvents checked count performed height.ne'
    (everyMeta_of_coins heights) fun txid member => CCoinsViewCache.unspent?_eq_none.mpr (fresh txid member)
  have undone : block.disconnectBlock P (r.indexed pindex) self (some state.blockundo)
      (state.view.setBestBlock (some self)) = .ok _ :=
    disconnectBlock_eq_unwind rfl haveUndo hasPrev count lengths
  rw [undone]
  refine ⟨_, congrArg Except.ok (Prod.ext restored.clean rfl), restored.entries, ?_⟩
  exact getBestBlock_setBestBlock _ hasPrev

private theorem trimmed_olderCoins : olderCoins.Trimmed := by
  intro out last
  cases last
  decide

/-- Disconnecting the chained block of the test network. -/
theorem disconnectBlock_connectBlock_chained :
    let view := viewOf 7 olderCoins 4
    let r := chained.connectBlock platform disk tipIndex (entry 5 4 200) 5 view false
    ∃ next blockundo before, r.result = .ok next ∧ r.blockundo = some blockundo ∧
      chained.disconnectBlock platform (r.indexed (entry 5 4 200)) 5 (some blockundo) next = .ok (true, before) ∧
      (∀ txid, before.unspent? txid = view.unspent? txid) ∧ before.getBestBlock = some 4 := by
  intro view r
  obtain ⟨next, connected⟩ := exists_of_isOk (show r.result.isOk = true by decide)
  obtain ⟨blockundo, built⟩ := Option.isSome_iff_exists.mp (show r.blockundo.isSome = true by decide)
  obtain ⟨before, undone⟩ := disconnectBlock_connectBlock connected built (by decide) (by decide)
    (fun txid found there => getCoins_viewOf there ▸ trimmed_olderCoins)
    (fun txid found there _ => getCoins_viewOf there ▸ (by decide))
    (by decide)
  exact ⟨next, blockundo, before, connected, built, undone⟩

/-! ## Branches -/

/-- Blocks above a view, the latest first, and their ordinary transactions. Each block was connected on the one below it
and does not repeat a txid with unspent outputs; its undo data are on disk, and its entry is as `ConnectBlock` left it. -/
inductive Stacked (P : Platform) (depth : ℕ) (disk : SwitchDisk) (index : BlockMap) (view : CCoinsViewCache) :
    List BlockPtr → List CTransaction → CCoinsViewCache → Prop
  | nil : Stacked P depth disk index view [] [] view
  | cons {below : List BlockPtr} {txs : List CTransaction} {middle next : CCoinsViewCache} {pindex : BlockPtr} {entry : CBlockIndex}
      {block : CBlock} {index' : BlockMap} {r : CBlock.ConnectResult} {blockundo : CBlockUndo}
      (stacked : Stacked P depth disk index view below txs middle) (height : entry.nHeight ≠ 0)
      (read : (ChainOps.real P depth disk).readFromDisk pindex = some block)
      (ran : block.connectBlock P (disk.connectDisk pindex) index' entry pindex middle false = r)
      (connected : r.result = .ok next) (built : r.blockundo = some blockundo)
      (stored : disk.undoFile pindex = some blockundo) (found : index pindex = some (r.indexed entry))
      (fresh : ∀ txid ∈ block.txids P, middle.unspent? txid = none) :
      Stacked P depth disk index view (pindex :: below) (block.vtx.filter (¬ ·.isCoinBase) ++ txs) next

/-- What taking a branch back needs of the view below it. -/
structure CCoinsViewCache.Restorable (view : CCoinsViewCache) : Prop where
  tip : view.getBestBlock ≠ none
  trimmed : ∀ txid coins, view.getCoins txid = some coins → coins.Trimmed
  heights : view.EveryMeta fun data => data.nHeight ≠ 0

theorem Stacked.undone {depth : ℕ} {disk : SwitchDisk} {index : BlockMap} {last : CCoinsViewCache}
    {blocks : List BlockPtr} {txs : List CTransaction} (stacked : Stacked P depth disk index view blocks txs last)
    (restorable : view.Restorable) :
    last.Restorable ∧ ∀ state, Restores (true, state) last → state.getBestBlock = last.getBestBlock →
      ∃ before, Node.disconnectBlocks (.real P depth disk) index state blocks = .ok (before, txs) ∧
        Restores (true, before) view ∧ before.getBestBlock = view.getBestBlock := by
  induction stacked with
  | nil => exact ⟨restorable, fun state restores same => ⟨state, rfl, restores, same⟩⟩
  | @cons below txs middle next pindex entry block index' r blockundo _ height read ran connected built stored found fresh ih =>
    obtain ⟨⟨tip, trimmed, heights⟩, back⟩ := ih
    have prev := (CBlock.connected_of_ok (ran ▸ connected)).prev
    obtain ⟨checked, made, ⟨count, lengths, performed⟩, rfl, rfl, haveUndo⟩ :=
      CBlock.journaled_of_built (ran ▸ connected) (ran ▸ built)
    rw [ran] at haveUndo
    have best : (made.view.setBestBlock (some pindex)).getBestBlock = some pindex :=
      getBestBlock_setBestBlock _ (Option.some_ne_none _)
    refine ⟨⟨?_, ?_, ?_⟩, fun state restores same => ?_⟩
    · rw [best]
      exact Option.some_ne_none _
    · exact (trimmed_blockEvents checked performed trimmed :)
    · refine (everyMeta_perform (fun txid coins member => ?_) performed heights :)
      obtain ⟨tx, -, -, rfl⟩ := add_mem_blockEvents member
      exact height
    · have initial : Restores (true, state) made.view := ⟨rfl, restores.entries, restores.trimmed⟩
      have restored := initial.unwind_blockEvents checked count performed height heights fresh
      have hasPrev : entry.pprev ≠ none := prev ▸ tip
      have undone : block.disconnectBlock P (r.indexed entry) pindex (some made.blockundo) state = .ok _ :=
        disconnectBlock_eq_unwind (same.trans best) haveUndo hasPrev count lengths
      rw [← stored] at undone
      have cleanly : (ChainOps.real P depth disk).disconnectBlock (r.indexed entry) pindex block state = .ok (true, _) :=
        undone.trans (congrArg Except.ok (Prod.ext restored.clean rfl))
      obtain ⟨before, rest, back, tip⟩ := back (setBestBlock _ entry.pprev)
        ⟨rfl, restored.entries, restored.trimmed⟩ ((getBestBlock_setBestBlock _ hasPrev).trans prev)
      refine ⟨before, ?_, back, tip⟩
      have above : 0 < (r.indexed entry).nHeight := Nat.pos_of_ne_zero height
      simp only [Node.disconnectBlocks, found, read, assertSome, ok_bind, cleanly, rejectIf, not_true_eq_false, if_false,
        above, and_true]
      exact bind_eq_ok.mpr ⟨_, rest, rfl⟩

/-- A branch is taken back: every block is disconnected cleanly, and the outputs, their metadata and the best block are
those below the branch. Its ordinary transactions are resurrected. -/
theorem disconnectBlocks_stacked {P : Platform} {depth : ℕ} {disk : SwitchDisk} {index : BlockMap}
    {view last : CCoinsViewCache} {blocks : List BlockPtr} {txs : List CTransaction}
    (stacked : Stacked P depth disk index view blocks txs last) (restorable : view.Restorable) :
    ∃ before, Node.disconnectBlocks (.real P depth disk) index last blocks = .ok (before, txs) ∧
      (∀ txid, before.unspent? txid = view.unspent? txid) ∧ before.getBestBlock = view.getBestBlock := by
  obtain ⟨⟨-, trimmed, -⟩, back⟩ := stacked.undone restorable
  obtain ⟨before, ran, restored, tip⟩ := back last ⟨rfl, fun _ => rfl, trimmed⟩ rfl
  exact ⟨before, ran, restored.entries, tip⟩

section TestNet

open TestNet CBlock

/-- It spends the last output of the chained block. -/
def following : CBlock := mine 6 5 [coinbase 9 0, spending 4 [⟨3001, 0⟩] [600000]]

def connectedChained : ConnectResult :=
  chained.connectBlock platform disk tipIndex (entry 5 4 200) 5 (viewOf 7 olderCoins 4) false

def afterChained : CCoinsViewCache := connectedChained.result.toOption.getD (viewOf 7 olderCoins 4)

def connectedFollowing : ConnectResult :=
  following.connectBlock platform disk (fun _ => some (entry 5 4 200)) (entry 6 5 201) 6 afterChained false

def bothFiles : SwitchDisk where
  blockFile hash := [(5, chained), (6, following)].lookup hash
  undoFile hash := if hash = 5 then connectedChained.blockundo else connectedFollowing.blockundo

def bothIndexed : BlockMap :=
  treeOf [(5, connectedChained.indexed (entry 5 4 200)), (6, connectedFollowing.indexed (entry 6 5 201))]

/-- A branch of two blocks, the second of which spends an output of the first one. -/
theorem disconnectBlocks_stacked_two : ∃ last before, connectedFollowing.result = .ok last ∧
    Node.disconnectBlocks (.real platform 1 bothFiles) bothIndexed last [6, 5] =
      .ok (before, [spending 4 [⟨3001, 0⟩] [600000], spending 2 [⟨7, 0⟩] [400000],
        spending 3 [⟨2001, 0⟩, ⟨7, 1⟩] [700000]]) ∧
      ∀ txid, before.unspent? txid = (viewOf 7 olderCoins 4).unspent? txid := by
  have connected : connectedChained.result = .ok afterChained := by
    obtain ⟨next, connected⟩ := exists_of_isOk (show connectedChained.result.isOk = true by decide)
    rw [afterChained, connected]
    rfl
  obtain ⟨last, connected'⟩ := exists_of_isOk (show connectedFollowing.result.isOk = true by decide)
  obtain ⟨blockundo, built⟩ := Option.isSome_iff_exists.mp (show connectedChained.blockundo.isSome = true by decide)
  obtain ⟨blockundo', built'⟩ := Option.isSome_iff_exists.mp (show connectedFollowing.blockundo.isSome = true by decide)
  have fresh : ∀ txid ∈ chained.txids platform, (viewOf 7 olderCoins 4).unspent? txid = none := by decide
  have fresh' : ∀ txid ∈ following.txids platform, afterChained.unspent? txid = none := by decide
  have first : Stacked platform 1 bothFiles bothIndexed (viewOf 7 olderCoins 4) [5] _ afterChained :=
    .cons .nil (by decide) (show _ = some chained by decide) rfl connected built built rfl fresh
  have stacked : Stacked platform 1 bothFiles bothIndexed (viewOf 7 olderCoins 4) [6, 5] _ last :=
    .cons first (by decide) (show _ = some following by decide) rfl connected' built' built' rfl fresh'
  have restorable : (viewOf 7 olderCoins 4).Restorable := ⟨by decide, fun txid found there => getCoins_viewOf there ▸ trimmed_olderCoins,
    everyMeta_of_coins fun txid found there _ => getCoins_viewOf there ▸ (by decide)⟩
  obtain ⟨before, ran, entries, -⟩ := disconnectBlocks_stacked stacked restorable
  exact ⟨last, before, connected', ran, entries⟩

end TestNet

/-! ## Transactions with the txid of an older one

`ConnectBlock` refuses to overwrite a transaction with unspent outputs only for an index entry
without a hash, that is for block templates. For a block of the tree the outputs of the older
transaction survive exactly when the block itself spends them before it repeats the txid.
-/

namespace CBlock

/-- No transaction finds unspent outputs under its own txid when its turn comes. -/
def OverwritesNothing (block : CBlock) (P : Platform) (index : BlockMap) (pindex : CBlockIndex)
    (view : CCoinsViewCache) : Prop :=
  block.getHash P ≠ P.hashGenesisBlock → ∀ before tx after state, block.vtx = before ++ tx :: after →
    connectTxs P index pindex { view } before = .ok state →
    ∀ coins, state.view.getCoins (tx.getHash P) = some coins → coins.isPruned

/-- An output no input of the block spends is still there. -/
def KeepsUnspent (block : CBlock) (view next : CCoinsViewCache) : Prop :=
  ∀ out txout, view.output? out = some txout →
    (∀ tx ∈ block.vtx, ¬ tx.isCoinBase → out ∉ tx.prevouts) → next.output? out = some txout

/-- Unspent outputs under the txid of a transaction are spent by earlier transactions of the block. -/
def SpendsBeforeReuse (block : CBlock) (P : Platform) (view : CCoinsViewCache) : Prop :=
  block.getHash P ≠ P.hashGenesisBlock → ∀ before tx after, block.vtx = before ++ tx :: after →
    ∀ n, view.output? ⟨tx.getHash P, n⟩ ≠ none →
      ∃ earlier ∈ before, ¬ earlier.isCoinBase ∧ ⟨tx.getHash P, n⟩ ∈ earlier.prevouts

variable {block : CBlock} {P : Platform} {index : BlockMap} {pindex : CBlockIndex} {view : CCoinsViewCache}

/-- A non-empty beginning of a block has the shape of a block. -/
theorem Checked.beginning_shape (checked : block.Checked P) {coinbase : CTransaction}
    {before after : List CTransaction} (split : block.vtx = coinbase :: before ++ after) :
    coinbase.isCoinBase ∧ ∀ tx ∈ before, ¬ tx.isCoinBase := by
  obtain ⟨first, rest, vtx, isCoinBase, ordinary⟩ := checked.first
  rw [vtx, List.cons_append, List.cons.injEq] at split
  obtain ⟨rfl, rfl⟩ := split
  exact ⟨isCoinBase, fun tx member => ordinary tx (List.mem_append_left _ member)⟩

/-- What the view holds under the txid of a transaction when its turn comes. -/
theorem output?_connectTxs (checked : block.Checked P) {tx : CTransaction} {before after : List CTransaction}
    (split : block.vtx = before ++ tx :: after) {state : ConnectState}
    (loop : connectTxs P index pindex { view } before = .ok state) (n : ℕ) :
    state.view.output? ⟨tx.getHash P, n⟩ =
      if ∃ earlier ∈ before, ¬ earlier.isCoinBase ∧ ⟨tx.getHash P, n⟩ ∈ earlier.prevouts then none
      else view.output? ⟨tx.getHash P, n⟩ := by
  cases before with
  | nil =>
    cases loop
    simp
  | cons coinbase rest =>
    obtain ⟨isCoinBase, ordinary⟩ := checked.beginning_shape split
    have journal : Journaled { block with vtx := coinbase :: rest } P pindex view state :=
      journaled_of_connectTxs ⟨coinbase, rest, rfl, isCoinBase, ordinary⟩ loop
    have notAdded : tx.getHash P ∉ ({ block with vtx := coinbase :: rest } : CBlock).txids P := by
      have distinct := checked.distinct
      rw [txids, split, List.map_append, List.map_cons] at distinct
      exact fun member => (List.nodup_append.mp distinct).2.2 _ member _ (List.mem_cons_self ..) rfl
    rw [journal.output? notAdded]
    have same : ⟨tx.getHash P, n⟩ ∈ rest.flatMap CTransaction.prevouts ↔
        ∃ earlier ∈ coinbase :: rest, ¬ earlier.isCoinBase ∧ ⟨tx.getHash P, n⟩ ∈ earlier.prevouts := by
      rw [List.mem_flatMap]
      constructor
      · rintro ⟨earlier, member, named⟩
        exact ⟨earlier, List.mem_cons_of_mem _ member, ordinary earlier member, named⟩
      · rintro ⟨earlier, member, notCoinbase, named⟩
        rcases List.mem_cons.mp member with rfl | later
        · exact absurd isCoinBase notCoinbase
        · exact ⟨earlier, later, named⟩
    simp only [List.tail_cons, same]

end CBlock

open CBlock in
/-- A connected block overwrites no unspent output exactly when it spends them first. -/
theorem connectBlock_overwritesNothing_iff {block : CBlock} {P : Platform} {disk : ConnectDisk}
    {index : BlockMap} {pindex : CBlockIndex} {self : BlockPtr} {view next : CCoinsViewCache}
    (connected : (block.connectBlock P disk index pindex self view false).result = .ok next) :
    (block.OverwritesNothing P index pindex view ∧ block.KeepsUnspent view next) ↔
      block.SpendsBeforeReuse P view := by
  have facts := connected_of_ok connected
  obtain ⟨genesis, rfl, -⟩ | ⟨notGenesis, final, coins, -, rfl, -⟩ := facts.coins
  · exact ⟨fun _ notGenesis => absurd genesis notGenesis, fun _ => ⟨fun notGenesis => absurd genesis notGenesis,
      fun out txout there _ => there⟩⟩
  obtain ⟨_, _, _, stages⟩ := connectCoins_ok coins
  constructor
  · rintro ⟨overwrites, -⟩ - before tx after split n unspent
    have loop := stages.loop
    rw [split, connectTxs_append] at loop
    obtain ⟨state, start, -⟩ := bind_eq_ok.mp loop
    by_contra kept
    have there := output?_connectTxs facts.checked split start n
    rw [if_neg kept] at there
    obtain ⟨coins, found, output⟩ := Option.bind_eq_some_iff.mp
      (there.trans (Option.some_get (Option.isSome_iff_ne_none.mpr unspent)).symm)
    have pruned := overwrites notGenesis before tx after state split start coins found
    rw [isPruned_iff.mp pruned] at output
    contradiction
  · intro spends
    have empty {before after : List CTransaction} {tx : CTransaction} {state : ConnectState}
        (split : block.vtx = before ++ tx :: after)
        (start : connectTxs P index pindex { view } before = .ok state) (n : ℕ) :
        state.view.output? ⟨tx.getHash P, n⟩ = none := by
      rw [output?_connectTxs facts.checked split start n]
      by_cases unspent : view.output? ⟨tx.getHash P, n⟩ = none
      · rw [unspent, ite_self]
      · rw [if_pos (spends notGenesis before tx after split n unspent)]
    refine ⟨fun _ before tx after state split start coins found => ?_, fun out txout there notSpent => ?_⟩
    · rw [isPruned_iff]
      intro n
      have := empty split start n
      rwa [CCoinsViewCache.output?, found] at this
    · by_cases member : out.hash ∈ block.txids P
      · obtain ⟨tx, inBlock, hash⟩ := List.mem_map.mp member
        obtain ⟨before, after, split⟩ := List.append_of_mem inBlock
        obtain ⟨earlier, first, notCoinbase, named⟩ := spends notGenesis before tx after split out.n
          (by rw [hash]; exact there ▸ Option.some_ne_none _)
        rw [hash] at named
        exact absurd named (notSpent earlier (split ▸ List.mem_append_left _ first) notCoinbase)
      · obtain ⟨coinbase, rest, vtx, -, ordinary⟩ := facts.checked.first
        rw [output?_setBestBlock, (journaled_of_ok facts.checked coins).output? member, if_neg,
          there]
        rw [List.mem_flatMap]
        rintro ⟨tx, inTail, named⟩
        rw [vtx, List.tail_cons] at inTail
        exact notSpent tx (vtx ▸ List.mem_cons_of_mem _ inTail) (ordinary tx inTail) named

/-- The chained block reuses no txid. -/
theorem connectBlock_overwritesNothing_chained :
    let view := viewOf 7 olderCoins 4
    let r := chained.connectBlock platform disk tipIndex (entry 5 4 200) 5 view false
    ∃ next, r.result = .ok next ∧ chained.OverwritesNothing platform tipIndex (entry 5 4 200) view ∧
      chained.KeepsUnspent view next := by
  intro view r
  obtain ⟨next, connected⟩ := exists_of_isOk (show r.result.isOk = true by decide)
  refine ⟨next, connected, (connectBlock_overwritesNothing_iff connected).mpr ?_⟩
  intro _ before tx after split n unspent
  have other : ∀ tx ∈ chained.vtx, tx.getHash platform ≠ 7 := by decide
  have absent := getCoins_viewOf_none olderCoins 4 (other tx (by rw [split]; simp))
  exact absurd (by rw [CCoinsViewCache.output?, absent]; rfl) unspent

/-- A coinbase repeated while its first output is unspent: `ConnectBlock` returns true, although the
index entry has a hash and the block spends nothing. -/
theorem connectBlock_overwrites_unspent_coinbase :
    let block := { mine 5 4 [coinbase 1 100] with nVersion := 1 }
    let view := viewOf 1001 (.ofTx (coinbase 1 100) 50) 4
    let r := block.connectBlock platform disk tipIndex (entry 5 4 200) 5 view false
    (entry 5 4 200).phashBlock ≠ none ∧ r.result.isOk = true ∧
      ¬ block.OverwritesNothing platform tipIndex (entry 5 4 200) view := by
  intro block view r
  refine ⟨by decide, by decide, fun overwrites => ?_⟩
  have pruned := overwrites (by decide) [] (coinbase 1 100) [] { view } rfl rfl _ rfl
  exact absurd pruned (by decide)

end BitCrystal
