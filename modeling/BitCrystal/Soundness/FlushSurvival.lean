import BitCrystal.Proofs.CoinCodec
import BitCrystal.Soundness.DisconnectBlock

/-! # Disconnecting a block after a flush

The database and the undo file return what was written except for negative versions, of which one
byte survives. Without them the view and the undo data mean the same after the flush, and unwinding
the block gives the same result. With a negative version `DisconnectBlock` finds other metadata than
the block added.
-/

namespace BitCrystal

open Journal CCoinsViewCache CoinEvent CCoins TestNet

variable {K : KeyLibrary}

/-- Disconnecting the block gives the same flag and the same view after a flush as without one. -/
def CBlock.SurvivesFlush (block : CBlock) (P : Platform) (K : KeyLibrary) (pindex : CBlockIndex)
    (self : BlockPtr) (blockundo : CBlockUndo) (view : CCoinsViewCache) : Prop :=
  ∃ fClean direct reread,
    block.disconnectBlock P pindex self (some blockundo) view = .ok (fClean, direct) ∧
    block.disconnectBlock P pindex self (blockundo.stored K) (view.flushed K) = .ok (fClean, reread) ∧
    (∀ txid, reread.unspent? txid = direct.unspent? txid) ∧ reread.getBestBlock = direct.getBestBlock

/-- Neither the block nor the view it is connected on has a transaction with a negative version. -/
def CBlock.NonnegVersions (block : CBlock) (view : CCoinsViewCache) : Prop :=
  (∀ tx ∈ block.vtx, 0 ≤ tx.nVersion) ∧
    ∀ txid coins, view.getCoins txid = some coins → ¬ coins.isPruned → 0 ≤ coins.nVersion

/-- An entry the code can have made: it fits the format and has a height unless it is spent. -/
structure CCoins.Kept (coins : CCoins) : Prop where
  storable : coins.Storable
  height : ¬ coins.isPruned → coins.nHeight ≠ 0

theorem CCoins.unpruned_of_spend {coins left : CCoins} {n : ℕ} {undo : CTxInUndo}
    (spent : coins.spend n = some (left, undo)) : ¬ coins.isPruned := by
  intro pruned
  have there := (spend_spec spent).1
  rw [isPruned_iff.mp pruned] at there
  contradiction

theorem CCoins.Kept.spend {coins left : CCoins} {n : ℕ} {undo : CTxInUndo} (kept : coins.Kept)
    (spent : coins.spend n = some (left, undo)) : left.Kept ∧ undo.Storable := by
  have height := kept.height (unpruned_of_spend spent)
  obtain ⟨storable, undone⟩ := kept.storable.spend spent height
  have same : left.nHeight = coins.nHeight := congrArg CoinMeta.nHeight (spend_spec spent).2.2.1
  exact ⟨⟨storable, fun _ => same ▸ height⟩, undone⟩

/-- The entry of a transaction that passes the checks without context. -/
theorem CTransaction.Valid.kept {tx : CTransaction} (valid : tx.Valid) {nHeight : ℕ} (positive : nHeight ≠ 0)
    (height : nHeight < 2 ^ 31) (version : -2 ^ 31 ≤ tx.nVersion ∧ tx.nVersion < 2 ^ 31) :
    (ofTx tx nHeight).Kept := by
  have size := valid.size
  rw [CTransaction.getSerializeSize, MAX_BLOCK_SIZE] at size
  refine ⟨⟨fun out last => valid.not_isNull (List.mem_of_getLast? last), fun out member _ => ?_, ?_, height,
    version⟩, fun _ => positive⟩
  · have := valid.values out member
    have inside : out.getSerializeSize ≤ (tx.vout.map CTxOut.getSerializeSize).sum :=
      List.le_sum_of_mem (List.mem_map_of_mem member)
    rw [CTxOut.getSerializeSize, vectorSize] at inside
    refine ⟨this.1, this.2.trans_lt (by decide), ?_⟩
    rw [CScript.nSpecialScripts]
    omega
  · have several : (tx.vout.map CTxOut.getSerializeSize).length ≤ (tx.vout.map CTxOut.getSerializeSize).sum := by
      apply List.length_le_sum_of_one_le
      intro bytes member
      obtain ⟨out, -, rfl⟩ := List.mem_map.mp member
      rw [CTxOut.getSerializeSize]
      omega
    rw [List.length_map] at several
    exact show tx.vout.length + 6 ≤ 2 ^ 32 by omega

namespace CoinEvent

/-- Taking the event back writes the metadata of its entry. -/
def RestoresMeta : CoinEvent → Prop
  | spend _ undo => undo.nHeight ≠ 0
  | add _ _ => False

/-- Spent outputs and added entries are not null. -/
def Proper : CoinEvent → Prop
  | spend _ undo => ¬ undo.txout.isNull
  | add _ coins => coins.vout ≠ [] ∧ ∀ out ∈ coins.vout, ¬ out.isNull

end CoinEvent

/-- Two states from which unwinding the events gives the same: where an entry has no outputs, its
metadata agree or will be written before they are looked at. -/
structure SameCoins (es : List CoinEvent) (t u : Bool × CCoinsViewCache) : Prop where
  proper : ∀ e ∈ es, e.Proper
  clean : t.1 = u.1
  entries : ∀ h, t.2.unspent? h = u.2.unspent? h
  trimmed : ∀ h, ((t.2.getCoins h).getD {}).Trimmed ∧ ((u.2.getCoins h).getD {}).Trimmed
  pending : ∀ h, t.2.unspent? h = none →
    ((t.2.getCoins h).getD {}).metadata = ((u.2.getCoins h).getD {}).metadata ∨
      ∀ e ∈ latest CoinEvent.txid h es, e.RestoresMeta

namespace SameCoins

variable {es : List CoinEvent} {t u : Bool × CCoinsViewCache}

/-- Writing two entries of one meaning under the txid of the last event. -/
theorem set {e : CoinEvent} {fClean fClean' : Bool} {coins coins' : CCoins} (same : SameCoins (es ++ [e]) t u)
    (clean : fClean = fClean') (entry : coins.unspent? = coins'.unspent?)
    (trimmed : coins.Trimmed ∧ coins'.Trimmed) (data : coins.metadata = coins'.metadata) :
    SameCoins es (fClean, t.2.setCoins e.txid coins) (fClean', u.2.setCoins e.txid coins') where
  proper event member := same.proper event (List.mem_append_left _ member)
  clean := clean
  entries h := by
    rw [unspent?_setCoins, unspent?_setCoins, entry, same.entries]
  trimmed h := by
    rw [getCoins_setCoins, getCoins_setCoins]
    split
    · exact trimmed
    · exact same.trimmed h
  pending h absent := by
    rw [unspent?_setCoins] at absent
    rw [getCoins_setCoins, getCoins_setCoins]
    split at absent
    next here =>
      left
      rw [if_pos here, if_pos here]
      exact data
    next other =>
      rw [if_neg other, if_neg other]
      have before := same.pending h absent
      rwa [latest_append_singleton, if_neg (Ne.symm other)] at before

theorem read (same : SameCoins es t u) (h : Uint256) :
    ((t.2.getCoins h).getD {}).unspent? = ((u.2.getCoins h).getD {}).unspent? := by
  rw [unspent?_getD, unspent?_getD, same.entries]

theorem revert_add {txid : Uint256} {coins : CCoins} (same : SameCoins (es ++ [.add txid coins]) t u) :
    SameCoins es ((CoinEvent.add txid coins).revert t) ((CoinEvent.add txid coins).revert u) := by
  obtain ⟨nonempty, full⟩ : coins.vout ≠ [] ∧ ∀ out ∈ coins.vout, ¬ out.isNull := same.proper (.add txid coins) (by simp)
  have equal : (t.2.getCoins txid).getD {} = coins ↔ (u.2.getCoins txid).getD {} = coins := by
    rw [eq_iff_unspent? (same.trimmed txid).1 nonempty full,
      eq_iff_unspent? (same.trimmed txid).2 nonempty full, same.read]
  have present {state : Bool × CCoinsViewCache} (found : (state.2.getCoins txid).getD {} = coins) :
      state.2.haveCoins txid = true := by
    rw [haveCoins]
    cases getCoins : state.2.getCoins txid with
    | none =>
      rw [getCoins] at found
      exact absurd (found ▸ rfl) nonempty
    | some coins => rfl
  refine same.set ?_ rfl ⟨trimmed_default, trimmed_default⟩ rfl
  rw [same.clean, decide_eq_decide.mpr equal]
  by_cases found : (u.2.getCoins txid).getD {} = coins
  · rw [present found, present (equal.mpr found)]
  · rw [decide_eq_false found, Bool.and_false, Bool.and_false]

theorem revert_spend {out : COutPoint} {undo : CTxInUndo} (same : SameCoins (es ++ [.spend out undo]) t u) :
    SameCoins es ((CoinEvent.spend out undo).revert t) ((CoinEvent.spend out undo).revert u) := by
  have notNull : ¬ undo.txout.isNull := same.proper (.spend out undo) (by simp)
  have read := same.read out.hash
  have pruned : ((t.2.getCoins out.hash).getD {}).isPruned ↔ ((u.2.getCoins out.hash).getD {}).isPruned := by
    rw [← CCoins.unspent?_eq_none, ← CCoins.unspent?_eq_none, read]
  have outputs : ((t.2.getCoins out.hash).getD {}).output? = ((u.2.getCoins out.hash).getD {}).output? :=
    output?_congr read
  have data (bare : undo.nHeight = 0) :
      ((t.2.getCoins out.hash).getD {}).metadata = ((u.2.getCoins out.hash).getD {}).metadata := by
    by_cases empty : ((t.2.getCoins out.hash).getD {}).isPruned
    · have absent : t.2.unspent? out.hash = none := by
        rw [← unspent?_getD, CCoins.unspent?_eq_none]
        exact empty
      rcases same.pending out.hash absent with agree | restores
      · exact agree
      · rw [latest_append_singleton, CoinEvent.txid, if_pos rfl] at restores
        exact absurd bare (restores _ rfl)
    · obtain ⟨-, agree, -⟩ := unspent?_eq_some.mp
        (read.symm.trans (unspent?_eq_some.mpr ⟨empty, rfl, rfl⟩))
      exact agree.symm
  simp only [revert, restoreInput_eq]
  by_cases bare : undo.nHeight = 0
  · simp only [bare, ne_eq, not_true_eq_false, ↓reduceIte]
    refine same.set ?_ ?_ ⟨trimmed_putOutput (same.trimmed _).1 notNull,
      trimmed_putOutput (same.trimmed _).2 notNull⟩ (data bare)
    · have available : ((t.2.getCoins out.hash).getD {}).isAvailable out.n ↔
          ((u.2.getCoins out.hash).getD {}).isAvailable out.n := by
        rw [isAvailable_iff, isAvailable_iff, outputs]
      simp only [same.clean, pruned, available]
    · refine unspent?_congr ((metadata_putOutput ..).trans (data bare)) ?_
      rw [output?_putOutput notNull, output?_putOutput notNull, outputs]
  · simp only [bare, ne_eq, not_false_eq_true, ↓reduceIte]
    have trimmed : (putOutput ⟨undo.fCoinBase, [], undo.nHeight, undo.nVersion⟩ out.n undo.txout).Trimmed :=
      trimmed_putOutput trimmed_nil notNull
    refine same.set ?_ rfl ⟨trimmed, trimmed⟩ rfl
    simp only [same.clean, pruned]

/-- Both runs end with the same flag and entries of the same meaning. -/
theorem unwind (same : SameCoins es t u) :
    SameCoins [] (Journal.unwind revert t es) (Journal.unwind revert u es) := by
  refine unwind_related SameCoins ?_ same
  intro es e t u same
  cases e with
  | spend out undo => exact same.revert_spend
  | add txid coins => exact same.revert_add

end SameCoins

/-- Where nothing is left of an entry, the last event on it has recorded the metadata. -/
theorem latest_restoresMeta {es : List CoinEvent} {view next : CCoinsViewCache}
    (run : perform CoinEvent.apply view es = some next) (proper : ∀ e ∈ es, e.Proper)
    (heights : view.EveryMeta fun data => data.nHeight ≠ 0)
    (added : ∀ txid coins, CoinEvent.add txid coins ∈ es → coins.nHeight ≠ 0) (h : Uint256)
    (absent : next.unspent? h = none) : ∀ e ∈ latest CoinEvent.txid h es, e.RestoresMeta := by
  suffices history : next.EveryMeta (fun data => data.nHeight ≠ 0) ∧
      ∀ h, next.unspent? h = Option.none → ∀ e ∈ latest CoinEvent.txid h es, e.RestoresMeta from
    history.2 h absent
  refine perform_history (fun past view => view.EveryMeta (fun data => data.nHeight ≠ 0) ∧
    ∀ h, view.unspent? h = Option.none → ∀ e ∈ latest CoinEvent.txid h past, e.RestoresMeta)
    ⟨heights, by simp⟩ ?_ run
  rintro past middle event last ⟨every, restores⟩ applied member
  constructor
  · exact everyMeta_apply (fun txid coins same => added txid coins (same ▸ member)) applied every
  · intro h absent
    rw [latest_append_singleton]
    split
    next same =>
      subst same
      rintro e ⟨⟩
      cases event with
      | spend out undo =>
        obtain ⟨coins, left, found, spent, rfl⟩ := apply_spend.mp applied
        rw [unspent?_setCoins, CoinEvent.txid, if_pos rfl, CCoins.unspent?_eq_none] at absent
        have data := (CCoins.spend_spec spent).2.2.2.2
        rw [if_pos absent] at data
        have before : middle.unspent? out.hash = some (coins.metadata, coins.output?) := by
          rw [CCoinsViewCache.unspent?, found]
          exact unspent?_eq_some.mpr ⟨CCoins.unpruned_of_spend spent, rfl, rfl⟩
        have height : undo.nHeight = coins.nHeight := congrArg CoinMeta.nHeight data
        exact show undo.nHeight ≠ 0 from height ▸ every _ _ _ before
      | add txid coins =>
        obtain ⟨nonempty, full⟩ : coins.vout ≠ [] ∧ ∀ out ∈ coins.vout, ¬ out.isNull := proper _ member
        rw [apply_add.mp applied, unspent?_setCoins, CoinEvent.txid, if_pos rfl,
          CCoins.unspent?_eq_none] at absent
        obtain ⟨out, inside⟩ := List.exists_mem_of_ne_nil _ nonempty
        exact absurd (absent out inside) (full out inside)
    next other => exact restores h (unspent?_apply applied (Ne.symm other) ▸ absent)

/-- What the database returns for an entry of a view. -/
theorem CCoinsViewCache.getCoins_flushed (lawful : K.Lawful) {view : CCoinsViewCache}
    (kept : ∀ txid coins, view.getCoins txid = some coins → coins.Kept) (h : Uint256) :
    (view.flushed K).unspent? h =
        (view.unspent? h).map (fun entry => ({ entry.1 with nVersion := wireInt entry.1.nVersion }, entry.2)) ∧
      ∀ coins, (view.flushed K).getCoins h = some coins → coins.Trimmed ∧ 0 ≤ coins.nVersion := by
  have read : (view.flushed K).getCoins h = (view.getCoins h).bind (CCoins.stored K) := rfl
  rw [unspent?, unspent?, read]
  cases found : view.getCoins h with
  | none => simp
  | some coins =>
    by_cases pruned : coins.isPruned
    · simp [CCoins.stored, pruned, CCoins.unspent?_eq_none.mpr pruned]
    · obtain ⟨back, stored, trimmed, meaning⟩ := stored_eq_some lawful (kept h coins found).storable pruned
      rw [Option.bind_some, stored, Option.bind_some, meaning, Option.bind_some,
        unspent?_eq_some.mpr ⟨pruned, rfl, rfl⟩]
      constructor
      · rfl
      · rintro _ ⟨⟩
        have version : back.nVersion = wireInt coins.nVersion :=
          congrArg CoinMeta.nVersion (unspent?_eq_some.mp meaning).2.1
        exact ⟨trimmed, version ▸ wireInt_nonneg coins.nVersion⟩

/-- Unwinding with non-negative versions keeps them so, and is clean only if the added ones are. -/
theorem unwind_nonneg (es : List CoinEvent) (state : Bool × CCoinsViewCache)
    (before : ∀ h coins, state.2.getCoins h = some coins → 0 ≤ coins.nVersion)
    (undone : ∀ out undo, CoinEvent.spend out undo ∈ es → 0 ≤ undo.nVersion) :
    (∀ h coins, (unwind revert state es).2.getCoins h = some coins → 0 ≤ coins.nVersion) ∧
      ((unwind revert state es).1 = true → ∀ txid coins, CoinEvent.add txid coins ∈ es → 0 ≤ coins.nVersion) := by
  induction es with
  | nil => exact ⟨before, fun _ => by simp⟩
  | cons e es ih =>
    obtain ⟨every, compared⟩ := ih fun out undo member => undone out undo (List.mem_cons_of_mem _ member)
    rw [unwind]
    have read (h : Uint256) : 0 ≤ (((unwind revert state es).2.getCoins h).getD {}).nVersion := by
      cases found : (unwind revert state es).2.getCoins h with
      | none => exact le_rfl
      | some coins => exact every h coins found
    constructor
    · intro h coins found
      by_cases same : h = e.txid
      · subst same
        cases e with
        | spend out undo =>
          rw [revert, restoreInput_eq, CoinEvent.txid] at found
          simp only [getCoins_setCoins, ↓reduceIte, Option.some.injEq] at found
          subst found
          split
          · exact undone out undo (List.mem_cons_self ..)
          · exact read out.hash
        | add txid _ =>
          rw [revert, CoinEvent.txid, getCoins_setCoins, if_pos rfl] at found
          cases found
          exact le_rfl
      · exact every h coins (getCoins_revert _ e same ▸ found)
    · intro clean txid coins member
      cases e with
      | spend out undo =>
        rw [revert, restoreInput_eq] at clean
        simp only [Bool.and_eq_true] at clean
        exact compared clean.1.1 txid coins (by simpa using member)
      | add added new =>
        simp only [revert, Bool.and_eq_true, decide_eq_true_eq] at clean
        rcases List.mem_cons.mp member with same | later
        · obtain ⟨rfl, rfl⟩ := CoinEvent.add.inj same
          have version := read txid
          rwa [clean.2] at version
        · exact compared clean.1.1 txid coins later

/-! ## The whole block -/

namespace CBlock

variable {block : CBlock} {P : Platform} {nHeight : ℕ} {blockundo : CBlockUndo} {view next : CCoinsViewCache}

/-- A block that can be disconnected: its journal has been performed on entries that can be stored. -/
structure Undoable (block : CBlock) (P : Platform) (nHeight : ℕ) (blockundo : CBlockUndo)
    (view next : CCoinsViewCache) : Prop where
  checked : block.Checked P
  count : blockundo.vtxundo.length + 1 = block.vtx.length
  lengths : ∀ pair ∈ block.vtx.tail.zip blockundo.vtxundo, pair.2.length = pair.1.vin.length
  performed : perform CoinEvent.apply view (blockEvents P nHeight block blockundo) = some next
  height : nHeight ≠ 0 ∧ nHeight < 2 ^ 31
  versions : ∀ tx ∈ block.vtx, -2 ^ 31 ≤ tx.nVersion ∧ tx.nVersion < 2 ^ 31
  before : ∀ txid coins, view.getCoins txid = some coins → coins.Kept

namespace Undoable

section

variable (undoable : block.Undoable P nHeight blockundo view next)
include undoable

theorem added {txid : Uint256} {coins : CCoins}
    (member : .add txid coins ∈ blockEvents P nHeight block blockundo) : coins.Kept := by
  obtain ⟨tx, inside, -, rfl⟩ := add_mem_blockEvents member
  exact (undoable.checked.each tx inside).kept undoable.height.1 undoable.height.2 (undoable.versions tx inside)

theorem after : ∀ txid coins, next.getCoins txid = some coins → coins.Kept :=
  everyCoins_perform (fun _ _ _ _ spent kept => (kept.spend spent).1) (fun _ _ => undoable.added)
    undoable.performed undoable.before

/-- The undo file returns every record, with its version as it travels. -/
theorem stored (lawful : K.Lawful) : blockundo.stored K = some blockundo.reread := by
  apply CBlockUndo.stored_eq_some lawful
  intro txundo member undo record
  obtain ⟨out, inside⟩ := exists_spend_mem_blockEvents nHeight undoable.count undoable.lengths member record
  exact everyUndo_perform CCoins.Kept CTxInUndo.Storable (fun _ _ _ _ spent kept => kept.spend spent)
    (fun _ _ => undoable.added) undoable.performed undoable.before out undo inside

theorem heights : view.EveryMeta fun data => data.nHeight ≠ 0 :=
  everyMeta_of_coins fun txid coins found => (undoable.before txid coins found).height

theorem proper : ∀ e ∈ blockEvents P nHeight block blockundo, e.Proper := by
  intro e member
  cases e with
  | spend out undo =>
    exact everyUndo_perform (fun _ => True) (fun undo => ¬ undo.txout.isNull)
      (fun coins n left undo spent _ => ⟨trivial, (output?_eq_some.mp (CCoins.spend_spec spent).1).2⟩)
      (fun _ _ _ => trivial) undoable.performed (fun _ _ _ => trivial) out undo member
  | add txid coins =>
    obtain ⟨tx, inside, -, rfl⟩ := add_mem_blockEvents member
    have valid := undoable.checked.each tx inside
    exact ⟨valid.some, fun out there => valid.not_isNull there⟩

/-- After a flush `DisconnectBlock` unwinds the journal with the undo records as they come back. -/
theorem disconnectBlock_flushed {pindex : CBlockIndex}
    {self : BlockPtr} (entry : pindex.nHeight = nHeight) (haveUndo : pindex.nStatus.haveUndo = true)
    (hasPrev : pindex.pprev ≠ none) (lawful : K.Lawful) (tip : CCoinsViewCache)
    (best : tip.getBestBlock = some self) : block.disconnectBlock P pindex self (blockundo.stored K) (tip.flushed K) =
      let state := unwind revert (true, tip.flushed K) (blockEvents P nHeight block blockundo.reread)
      .ok (state.1, state.2.setBestBlock pindex.pprev) := by
  rw [undoable.stored lawful, ← entry]
  rw [← getBestBlock_flushed K] at best
  apply disconnectBlock_eq_unwind best haveUndo hasPrev
  · rw [CBlockUndo.reread, List.length_map]
    exact undoable.count
  · intro pair member
    rw [CBlockUndo.reread, List.zip_map_right, List.mem_map] at member
    obtain ⟨source, there, rfl⟩ := member
    rw [Prod.map_snd, List.length_map]
    exact undoable.lengths source there

end

private theorem spend_nonneg {coins left : CCoins} {n : ℕ} {undo : CTxInUndo}
    (spent : coins.spend n = some (left, undo)) (nonneg : ¬ coins.isPruned → 0 ≤ coins.nVersion) :
    (¬ left.isPruned → 0 ≤ left.nVersion) ∧ 0 ≤ undo.nVersion := by
  obtain ⟨-, -, data, -, undone⟩ := CCoins.spend_spec spent
  have version := nonneg (CCoins.unpruned_of_spend spent)
  constructor
  · intro _
    exact show 0 ≤ left.metadata.nVersion from data ▸ version
  · change 0 ≤ undo.metadata.nVersion
    rw [undone]
    split
    · exact version
    · exact le_rfl

theorem nonneg_after (undoable : block.Undoable P nHeight blockundo view next) (nonneg : block.NonnegVersions view) :
    ∀ txid coins, next.getCoins txid = some coins → ¬ coins.isPruned → 0 ≤ coins.nVersion := by
  refine everyCoins_perform (fun _ _ _ _ spent before => (spend_nonneg spent before).1) ?_ undoable.performed nonneg.2
  intro txid coins member _
  obtain ⟨tx, inside, -, rfl⟩ := add_mem_blockEvents member
  exact nonneg.1 tx inside

/-- Without negative versions every record comes back as it was. -/
theorem reread_eq (undoable : block.Undoable P nHeight blockundo view next) (nonneg : block.NonnegVersions view) :
    blockundo.reread = blockundo := by
  have added : ∀ txid coins, CoinEvent.add txid coins ∈ blockEvents P nHeight block blockundo →
      ¬ coins.isPruned → 0 ≤ coins.nVersion := by
    intro txid coins member _
    obtain ⟨tx, inside, -, rfl⟩ := add_mem_blockEvents member
    exact nonneg.1 tx inside
  have versions := everyUndo_perform (fun coins => ¬ coins.isPruned → 0 ≤ coins.nVersion)
    (fun undo => 0 ≤ undo.nVersion) (fun _ _ _ _ spent before => spend_nonneg spent before) added undoable.performed
    nonneg.2
  have same : blockundo.vtxundo.map (fun txundo => List.map CTxInUndo.reread txundo) = blockundo.vtxundo.map id := by
    refine List.map_congr_left fun txundo member => ?_
    have each : List.map CTxInUndo.reread txundo = txundo.map id := by
      refine List.map_congr_left fun undo record => ?_
      obtain ⟨out, inside⟩ := exists_spend_mem_blockEvents nHeight undoable.count undoable.lengths member record
      rw [CTxInUndo.reread, wireInt_of_nonneg (versions out undo inside), id_eq]
    rwa [List.map_id] at each
  rw [CBlockUndo.reread, same, List.map_id]

theorem reread_nonneg (out : COutPoint) (undo : CTxInUndo)
    (member : .spend out undo ∈ blockEvents P nHeight block blockundo.reread) : 0 ≤ undo.nVersion := by
  obtain ⟨txundo, undone, record⟩ := spend_mem_blockEvents member
  obtain ⟨txundo, -, rfl⟩ := List.mem_map.mp undone
  obtain ⟨undo, -, rfl⟩ := List.mem_map.mp record
  exact wireInt_nonneg undo.nVersion

/-- Without negative versions disconnecting starts from the same coins after a flush. -/
theorem sameCoins (undoable : block.Undoable P nHeight blockundo view next) (nonneg : block.NonnegVersions view)
    (lawful : K.Lawful) (tip : CCoinsViewCache) (coins : ∀ h, tip.getCoins h = next.getCoins h) :
    SameCoins (blockEvents P nHeight block blockundo) (true, tip) (true, tip.flushed K) := by
  have kept : ∀ txid coins, tip.getCoins txid = some coins → coins.Kept :=
    fun txid entry found => undoable.after txid entry (coins txid ▸ found)
  have meaning (h : Uint256) : tip.unspent? h = next.unspent? h := by
    rw [CCoinsViewCache.unspent?, coins]
    rfl
  refine ⟨undoable.proper, rfl, fun h => ?_, fun h => ⟨?_, ?_⟩, fun h absent => .inr ?_⟩
  · rw [(getCoins_flushed lawful kept h).1]
    cases entry : tip.unspent? h with
    | none => rfl
    | some pair =>
      obtain ⟨found, there, meant⟩ := Option.bind_eq_some_iff.mp entry
      obtain ⟨unpruned, data, -⟩ := unspent?_eq_some.mp meant
      have version : 0 ≤ pair.1.nVersion := data ▸ undoable.nonneg_after nonneg h found (coins h ▸ there) unpruned
      rw [Option.map_some, wireInt_of_nonneg version]
  · exact trimmed_getD (fun h entry found => (kept h entry found).storable.trimmed) h
  · exact trimmed_getD
      (fun h entry found => ((getCoins_flushed lawful kept h).2 entry found).1) h
  · refine latest_restoresMeta undoable.performed undoable.proper undoable.heights ?_ h (meaning h ▸ absent)
    intro txid entry member
    obtain ⟨tx, -, -, rfl⟩ := add_mem_blockEvents member
    exact undoable.height.1

/-- Every transaction of the block has its event. -/
theorem mem_of_tx (undoable : block.Undoable P nHeight blockundo view next) {undos : CBlockUndo}
    (count : undos.vtxundo.length = blockundo.vtxundo.length) {tx : CTransaction} (member : tx ∈ block.vtx) :
    CoinEvent.add (tx.getHash P) (.ofTx tx nHeight) ∈ blockEvents P nHeight block undos := by
  have named : tx.getHash P ∈ (blockEvents P nHeight block undos).filterMap CoinEvent.added := by
    rw [added_blockEvents nHeight (count ▸ undoable.count)]
    exact List.mem_map_of_mem member
  obtain ⟨e, inside, created⟩ := List.mem_filterMap.mp named
  cases e with
  | spend out undo => cases created
  | add txid coins =>
    cases created
    obtain ⟨other, there, hash, rfl⟩ := add_mem_blockEvents inside
    rwa [← List.inj_on_of_nodup_map undoable.checked.distinct member there hash] at inside

end Undoable

end CBlock

/-- Without negative versions a flush changes nothing about disconnecting a block; where the block
overwrites no unspent outputs, a negative version always makes a difference. -/
theorem disconnectBlock_survivesFlush {block : CBlock} {P : Platform} {disk : CBlock.ConnectDisk}
    {index : BlockMap} {pindex : CBlockIndex} {self : BlockPtr} {view next : CCoinsViewCache}
    {blockundo : CBlockUndo} (lawful : K.Lawful)
    (connected : (block.connectBlock P disk index pindex self view false).result = .ok next)
    (built : (block.connectBlock P disk index pindex self view false).blockundo = some blockundo)
    (height : 0 < pindex.nHeight ∧ pindex.nHeight < 2 ^ 31) (hasPrev : pindex.pprev ≠ none)
    (versions : ∀ tx ∈ block.vtx, -2 ^ 31 ≤ tx.nVersion ∧ tx.nVersion < 2 ^ 31)
    (kept : ∀ txid coins, view.getCoins txid = some coins → coins.Kept) :
    let r := block.connectBlock P disk index pindex self view false
    (block.NonnegVersions view → block.SurvivesFlush P K (r.indexed pindex) self blockundo next) ∧
      ((∀ txid ∈ block.txids P, ∀ coins, view.getCoins txid = some coins → coins.isPruned) →
        block.SurvivesFlush P K (r.indexed pindex) self blockundo next → block.NonnegVersions view) := by
  intro r
  obtain ⟨checked, state, ⟨count, lengths, performed⟩, rfl, rfl, haveUndo⟩ := CBlock.journaled_of_built connected built
  have undoable : block.Undoable P pindex.nHeight state.blockundo view state.view :=
    ⟨checked, count, lengths, performed, ⟨height.1.ne', height.2⟩, versions, kept⟩
  have direct : block.disconnectBlock P (r.indexed pindex) self (some state.blockundo)
      (state.view.setBestBlock (some self)) = .ok _ :=
    disconnectBlock_eq_unwind rfl haveUndo hasPrev count lengths
  have reread := undoable.disconnectBlock_flushed (show (r.indexed pindex).nHeight = pindex.nHeight from rfl)
    haveUndo hasPrev lawful (state.view.setBestBlock (some self)) rfl
  have best (coins : CCoinsViewCache) : (coins.setBestBlock pindex.pprev).getBestBlock = pindex.pprev :=
    getBestBlock_setBestBlock _ hasPrev
  constructor
  · intro nonneg
    rw [undoable.reread_eq nonneg] at reread
    have same := (undoable.sameCoins nonneg lawful (state.view.setBestBlock (some self)) fun _ => rfl).unwind
    refine ⟨_, _, _, direct, reread.trans (congrArg (fun fClean => Except.ok (fClean, _)) same.clean.symm),
      fun h => (same.entries h).symm, (best _).trans (best _).symm⟩
  · rintro fresh ⟨fClean, before, after, first, second, entries, -⟩
    obtain ⟨rfl, rfl⟩ := Prod.mk.inj (Except.ok.inj (direct.symm.trans first))
    obtain ⟨clean, rfl⟩ := Prod.mk.inj (Except.ok.inj (reread.symm.trans second))
    have initial : Restores (true, state.view.setBestBlock (some self)) state.view :=
      { clean := rfl
        entries := fun _ => rfl
        trimmed := fun txid coins found => (undoable.after txid coins found).storable.trimmed }
    have restored := initial.unwind_blockEvents checked count performed height.1.ne' undoable.heights
      fun txid member => CCoinsViewCache.unspent?_eq_none.mpr (fresh txid member)
    obtain ⟨every, compared⟩ := unwind_nonneg (blockEvents P pindex.nHeight block state.blockundo.reread)
      (true, (state.view.setBestBlock (some self)).flushed K)
      (fun h coins found => (getCoins_flushed lawful undoable.after h).2 coins found |>.2)
      CBlock.Undoable.reread_nonneg
    constructor
    · intro tx member
      exact compared (clean.trans restored.clean) _ _ (undoable.mem_of_tx (List.length_map _) member)
    · intro txid coins found unpruned
      have there := (entries txid).trans (restored.entries txid)
      rw [unspent?_setBestBlock, CCoinsViewCache.unspent?, CCoinsViewCache.unspent?, found,
        Option.bind_some, unspent?_eq_some.mpr ⟨unpruned, rfl, rfl⟩] at there
      obtain ⟨back, stored, meaning⟩ := Option.bind_eq_some_iff.mp there
      have version : back.nVersion = coins.nVersion :=
        congrArg CoinMeta.nVersion (unspent?_eq_some.mp meaning).2.1
      exact version ▸ every txid back stored

theorem TestNet.olderCoins_kept : TestNet.olderCoins.Kept := by
  refine ⟨⟨?_, ?_, by decide, by decide, by decide⟩, by decide⟩
  · intro out last
    cases last
    decide
  · intro out member _
    simp only [TestNet.olderCoins, List.mem_cons, List.not_mem_nil, or_false] at member
    rcases member with rfl | rfl <;> exact ⟨by decide, by decide, by decide⟩

/-- The chained block of the test network survives a flush. -/
theorem disconnectBlock_survivesFlush_chained :
    let view := viewOf 7 olderCoins 4
    let r := chained.connectBlock platform disk tipIndex (entry 5 4 200) 5 view false
    ∃ next blockundo, r.result = .ok next ∧ r.blockundo = some blockundo ∧
      chained.SurvivesFlush platform keys (r.indexed (entry 5 4 200)) 5 blockundo next := by
  intro view r
  obtain ⟨next, connected⟩ := Check.exists_of_isOk (show r.result.isOk = true by decide)
  obtain ⟨blockundo, built⟩ := Option.isSome_iff_exists.mp (show r.blockundo.isSome = true by decide)
  have kept : ∀ txid coins, view.getCoins txid = some coins → coins.Kept :=
    fun txid coins found => getCoins_viewOf found ▸ olderCoins_kept
  have survives := disconnectBlock_survivesFlush keys_lawful connected built (by decide) (by decide) (by decide) kept
  refine ⟨next, blockundo, connected, built, survives.1 ⟨by decide, fun txid coins found _ => ?_⟩⟩
  exact getCoins_viewOf found ▸ (by decide)

/-- The coinbase of the block has version -1; one byte of it comes back from the database, and
`DisconnectBlock` is clean only without a flush. -/
theorem disconnectBlock_lost_by_flush :
    let block := mine 5 4 [{ coinbase 1 0 with nVersion := -1 }]
    let r := block.connectBlock platform disk tipIndex (entry 5 4 200) 5 (viewOf 7 olderCoins 4) false
    ∃ next blockundo, r.result = .ok next ∧ r.blockundo = some blockundo ∧
      ¬ block.SurvivesFlush platform keys (r.indexed (entry 5 4 200)) 5 blockundo next := by
  intro block r
  obtain ⟨next, connected⟩ := Check.exists_of_isOk (show r.result.isOk = true by decide)
  obtain ⟨blockundo, built⟩ := Option.isSome_iff_exists.mp (show r.blockundo.isSome = true by decide)
  refine ⟨next, blockundo, connected, built, ?_⟩
  rintro ⟨fClean, direct, reread, first, second, -⟩
  have clean : (r.result >>= fun next => (block.disconnectBlock platform (r.indexed (entry 5 4 200)) 5
      r.blockundo next).map Prod.fst).toOption = some true := by decide
  have unclean : (r.result >>= fun next => (block.disconnectBlock platform (r.indexed (entry 5 4 200)) 5
      (r.blockundo.bind (CBlockUndo.stored keys)) (next.flushed keys)).map Prod.fst).toOption = some false := by
    decide +kernel
  rw [connected, built, Check.ok_bind, first] at clean
  rw [connected, built, Check.ok_bind, Option.bind_some, second] at unclean
  cases clean
  cases unclean

end BitCrystal
