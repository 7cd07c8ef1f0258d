import BitCrystal.Model.ProcessBlock
import BitCrystal.Proofs.Decided

/-! # What accepting a block does to the index

Once an entry is in the map only its `pnext`, its status and its undo position change. So `AcceptBlock`
adds at most the given block, whatever `ConnectBlock`, the pool and the disk do.
-/

namespace BitCrystal

open StateAction Forest

/-- What the block and its place in the tree determine of an entry. -/
def CBlockIndex.placed (entry : CBlockIndex) : CBlockIndex :=
  { entry.bare with pnext := none, nFile := 0, nDataPos := 0 }

namespace Node

/-- The same blocks are indexed, with the same data. -/
def SameBlocks (index index' : BlockMap) : Prop :=
  ∀ pindex, (index' pindex).map CBlockIndex.placed = (index pindex).map CBlockIndex.placed

namespace SameBlocks

variable {index index' index'' : BlockMap}

theorem refl (index : BlockMap) : SameBlocks index index := fun _ => rfl

theorem trans (first : SameBlocks index index') (second : SameBlocks index' index'') : SameBlocks index index'' :=
  fun pindex => (second pindex).trans (first pindex)

theorem symm (same : SameBlocks index index') : SameBlocks index' index := fun pindex => (same pindex).symm

theorem of_sameTree (same : SameTree index index') : SameBlocks index index' := by
  intro pindex
  have bare := same pindex
  rw [show CBlockIndex.placed = (fun entry => { entry with pnext := none, nFile := 0, nDataPos := 0 }) ∘ CBlockIndex.bare from rfl,
    ← Option.map_map, ← Option.map_map, bare]

theorem entry (same : SameBlocks index index') {pindex : BlockPtr} {e : CBlockIndex} (found : index pindex = some e) :
    ∃ e', index' pindex = some e' ∧ e'.placed = e.placed := by
  have there := same pindex
  rw [found, Option.map_some, Option.map_eq_some_iff] at there
  exact there

theorem eq_none_iff (same : SameBlocks index index') (pindex : BlockPtr) :
    index' pindex = none ↔ index pindex = none := by
  rw [← Option.map_eq_none_iff (f := CBlockIndex.placed), same pindex, Option.map_eq_none_iff]

theorem indexed_iff (same : SameBlocks index index') (pindex : BlockPtr) :
    (∃ e, index' pindex = some e) ↔ ∃ e, index pindex = some e := by
  rw [← Option.ne_none_iff_exists', ← Option.ne_none_iff_exists', ne_eq, same.eq_none_iff]

theorem setEntry {node : Node} {pindex : BlockPtr} {e e' : CBlockIndex} (found : node.mapBlockIndex pindex = some e)
    (same : e'.placed = e.placed) : SameBlocks node.mapBlockIndex (node.setEntry pindex e').mapBlockIndex := by
  intro other
  change (Function.update node.mapBlockIndex pindex (some e') other).map CBlockIndex.placed = _
  rw [Function.update_apply]
  split
  next here => rw [here, found, Option.map_some, Option.map_some, same]
  next => rfl

theorem relink (index : BlockMap) (vDisconnect vConnect : List BlockPtr) :
    SameBlocks index (Node.relink index vDisconnect vConnect) := by
  intro pindex
  rw [relink_apply, Option.map_map]
  rfl

end SameBlocks

/-- The action changes no entry in the index but for `pnext`, the status and the undo position. -/
abbrev IndexKept {α : Type} (action : NodeAction α) : Prop :=
  Keeps (fun node node' => SameBlocks node.mapBlockIndex node'.mapBlockIndex) action

variable {α β : Type} {ops : ChainOps} {reorganise : NodeAction Unit} {pindexNew pindex : BlockPtr}

theorem IndexKept.bind {action : NodeAction α} {next : α → NodeAction β} (first : IndexKept action)
    (second : ∀ a, IndexKept (next a)) : IndexKept (action >>= next) := Keeps.bind SameBlocks.trans first second

theorem IndexKept.of_eq {action : NodeAction α} (same : ∀ node, (action node).2.mapBlockIndex = node.mapBlockIndex) :
    IndexKept action := by
  intro node
  have unchanged : SameBlocks node.mapBlockIndex (action node).2.mapBlockIndex := by rw [same]; exact .refl _
  exact unchanged

theorem IndexKept.lift_bind {result : Check α} {next : α → NodeAction β} (second : ∀ a, IndexKept (next a)) :
    IndexKept (StateAction.lift result >>= next) := Keeps.lift_bind (fun node => .refl node.mapBlockIndex) second

theorem IndexKept.deref_bind {next : CBlockIndex → NodeAction β}
    (rest : ∀ node entry, node.mapBlockIndex pindex = some entry →
      SameBlocks node.mapBlockIndex (next entry node).2.mapBlockIndex) : IndexKept (deref pindex >>= next) := by
  intro node
  cases found : node.mapBlockIndex pindex with
  | none =>
    rw [bind_of_error (deref_none found)]
    exact .refl _
  | some entry =>
    rw [bind_of_ok (deref_some found)]
    exact rest node entry found

theorem invalidChainFound_indexKept : IndexKept (invalidChainFound pindex) := fun node =>
  .of_sameTree (@invalidChainFound_sameChain 0 pindex node).tree

theorem markFailed_sameBlocks {node : Node} {entry : CBlockIndex} (found : node.mapBlockIndex pindex = some entry)
    (nStatus : BlockStatus) : SameBlocks node.mapBlockIndex (node.markFailed pindex entry nStatus).mapBlockIndex :=
  .of_sameTree (@markFailed_sameChain 0 node pindex entry found nStatus).tree

@[simp] theorem catchErrors_snd (action : NodeAction Unit) (node : Node) :
    (catchErrors action node).2 = (action node).2 := by
  unfold catchErrors
  split
  next failed => rw [failed]
  next => rfl

section

variable (kept : IndexKept reorganise)
include kept

theorem invalidBlockFound_indexKept : IndexKept (invalidBlockFound reorganise pindex) := by
  refine .deref_bind fun node entry found => ?_
  rw [modify_bind]
  refine (markFailed_sameBlocks found _).trans (IndexKept.bind invalidChainFound_indexKept (fun _ => ?_) _)
  split
  · exact .of_eq fun _ => rfl
  · exact Keeps.attempt kept

theorem connectFailed_indexKept (failure : Failure) : IndexKept (connectFailed reorganise pindexNew pindex failure) := by
  unfold connectFailed
  split
  · exact invalidChainFound_indexKept.bind fun _ => invalidBlockFound_indexKept kept
  · exact .of_eq fun _ => rfl

theorem connectBlocks_indexKept (view : CCoinsViewCache) (vConnect : List BlockPtr) :
    IndexKept (connectBlocks ops reorganise pindexNew view vConnect) := by
  induction vConnect generalizing view with
  | nil => exact .of_eq fun _ => rfl
  | cons pindex rest ih =>
    refine .deref_bind fun node entry found => ?_
    rw [get_bind]
    cases ops.readFromDisk pindex with
    | none => exact .refl _
    | some block =>
      rw [show assertSome (.abort "Failed to read block") (some block) = .ok block from rfl, lift_bind_ok, modify_bind]
      have tried : SameBlocks node.mapBlockIndex (node.applyResult pindex entry
          (ops.connectBlock node.mapBlockIndex entry pindex block view)).mapBlockIndex := .setEntry found rfl
      apply tried.trans
      cases (ops.connectBlock node.mapBlockIndex entry pindex block view).result with
      | error failure =>
        exact IndexKept.bind (connectFailed_indexKept kept failure) (fun _ => .of_eq fun _ => rfl) _
      | ok next => exact IndexKept.bind (ih next) (fun _ => .of_eq fun _ => rfl) _

theorem setBestChain_indexKept : IndexKept (setBestChain ops reorganise pindexNew) := by
  intro node
  rw [setBestChain, get_bind]
  refine IndexKept.lift_bind (fun found => ?_) node
  refine IndexKept.lift_bind fun disconnected => ?_
  refine (connectBlocks_indexKept kept _ _).bind fun connected => ?_
  refine IndexKept.bind (fun node => ?_) fun _ node => ?_
  · rcases flushed : flushCoins (ops.conditions pindexNew) connected.1 node with ⟨failure | done, after⟩
    · obtain ⟨-, rfl⟩ := flushCoins_error flushed
      exact .refl _
    · obtain ⟨-, _, rfl, -⟩ := flushCoins_ok flushed
      exact .refl _
  · rw [activate, modify_bind, get_bind]
    apply SameBlocks.trans (SameBlocks.relink node.mapBlockIndex found.1 found.2)
    refine IndexKept.lift_bind (fun mempool => ?_) _
    refine .deref_bind fun node entry _ => ?_
    exact IndexKept.lift_bind (fun hash => .of_eq fun _ => rfl) node

theorem switchTo_indexKept (vAttach : List BlockPtr) : IndexKept (switchTo ops reorganise vAttach) := by
  induction vAttach with
  | nil => exact .of_eq fun _ => rfl
  | cons pindex rest ih =>
    refine IndexKept.bind (fun node => ?_) fun _ => ih
    rw [catchErrors_snd]
    exact setBestChain_indexKept kept node

end

theorem markDescendants_indexKept (pindexTest : BlockPtr) (rounds : ℕ) :
    IndexKept (markDescendants pindexTest rounds pindex) := by
  induction rounds generalizing pindex with
  | zero =>
    unfold markDescendants
    split <;> exact .of_eq fun _ => rfl
  | succ rounds ih =>
    unfold markDescendants
    split
    · exact .of_eq fun _ => rfl
    · refine .deref_bind fun node entry found => ?_
      rw [modify_bind]
      apply SameBlocks.trans (markFailed_sameBlocks found { entry.nStatus with failedChild := true })
      exact IndexKept.lift_bind (fun prev => ih) _

theorem connectBestBlock_indexKept (ops : ChainOps) (rounds : ℕ) : IndexKept (connectBestBlock ops rounds) := by
  induction rounds with
  | zero => exact .of_eq fun _ => rfl
  | succ rounds ih =>
    intro node
    rw [connectBestBlock, get_bind]
    cases lastCandidate node.mapBlockIndex node.setBlockIndexValid with
    | none => exact .refl _
    | some top =>
      refine IndexKept.deref_bind (fun _ entry _ => ?_) node
      split
      · exact .refl _
      · refine IndexKept.lift_bind (fun ancestry => ?_) _
        cases ancestry with
        | inl pindexTest =>
          exact (markDescendants_indexKept pindexTest entry.nHeight).bind fun _ =>
            invalidChainFound_indexKept.bind fun _ => ih
        | inr vAttach => exact switchTo_indexKept ih vAttach

variable {P : Platform} {fCheckpoints : Bool} {block : CBlock} {node : Node}

/-- The block is new, passed the checks and is in the index now. -/
structure Stored (P : Platform) (fCheckpoints : Bool) (block : CBlock) (index index' : BlockMap) : Prop where
  fresh : index (block.getHash P) = none
  passed : block.checkContext P fCheckpoints index = .ok ()
  stored : SameBlocks (Function.update index (block.getHash P) (some (newEntry P index block 0 0))) index'

namespace Stored

variable {index index' : BlockMap} (stored : Stored P fCheckpoints block index index')
include stored

theorem indexed_iff (pindex : BlockPtr) : (∃ e, index' pindex = some e) ↔
    (∃ e, index pindex = some e) ∨ pindex = block.getHash P := by
  rw [stored.stored.indexed_iff, Function.update_apply]
  split
  next same => simp [same]
  next other => simp [other]

/-- Only the genesis block is stored without its parent. -/
theorem parent (later : block.getHash P ≠ P.hashGenesisBlock) : ∃ e, index block.hashPrevBlock = some e := by
  have passed := stored.passed
  rw [CBlock.checkContext, if_neg later] at passed
  obtain ⟨pindexPrev, found, -⟩ := Check.bind_eq_ok.mp passed
  exact ⟨pindexPrev, Check.assertSome_eq_ok.mp found⟩

end Stored

theorem placed_newEntry (index : BlockMap) (nFile nPos : ℕ) :
    (newEntry P index block nFile nPos).placed = (newEntry P index block 0 0).placed := rfl

theorem addToBlockIndex_stored {disk : IndexDisk} (passed : block.checkContext P fCheckpoints node.mapBlockIndex = .ok ())
    (fresh : node.mapBlockIndex (block.getHash P) = none) (nFile nPos : ℕ) :
    Stored P fCheckpoints block node.mapBlockIndex
      (addToBlockIndex P ops disk block nFile nPos node).2.mapBlockIndex := by
  refine ⟨fresh, passed, ?_⟩
  rw [addToBlockIndex, get_bind, if_neg (not_not.mpr fresh), modify_bind]
  have placed : SameBlocks
      (Function.update node.mapBlockIndex (block.getHash P) (some (newEntry P node.mapBlockIndex block 0 0)))
      (Function.update node.mapBlockIndex (block.getHash P) (some (newEntry P node.mapBlockIndex block nFile nPos))) := by
    intro pindex
    rw [Function.update_apply, Function.update_apply]
    split
    · exact congrArg some (placed_newEntry node.mapBlockIndex nFile nPos)
    · rfl
  apply placed.trans
  split
  · exact .refl _
  · refine IndexKept.bind (connectBestBlock_indexKept ops _) (fun _ => ?_) _
    split <;> exact .of_eq fun _ => rfl

/-- A block that is not stored leaves the node as it is. -/
theorem acceptBlock_cases (P : Platform) (fCheckpoints : Bool) (ops : ChainOps) (disk : AcceptDisk)
    (dbp : Option (ℕ × ℕ)) (block : CBlock) (node : Node) :
    (∃ failure, acceptBlock P fCheckpoints ops disk dbp block node = (.error failure, node)) ∨
      Stored P fCheckpoints block node.mapBlockIndex
        (acceptBlock P fCheckpoints ops disk dbp block node).2.mapBlockIndex := by
  rw [acceptBlock, get_bind]
  by_cases known : node.mapBlockIndex (block.getHash P) ≠ none
  · rw [if_pos known]
    exact .inl ⟨_, rfl⟩
  · rw [if_neg known]
    cases checked : block.checkContext P fCheckpoints node.mapBlockIndex with
    | error failure => exact .inl ⟨failure, rfl⟩
    | ok done =>
      rw [lift_bind_ok]
      cases disk.findBlockPos with
      | error failure => cases failure <;> exact .inl ⟨_, rfl⟩
      | ok pos =>
        rcases located : dbp.getD pos with ⟨nFile, nPos⟩
        by_cases unwritten : dbp = none ∧ ¬ disk.fWriteToDisk
        · refine .inl ⟨.abort "Failed to write block", ?_⟩
          simp only [catchErrors, lift_bind_ok, if_pos unwritten, throw_apply]
        · refine .inr ?_
          simp only [catchErrors_snd, lift_bind_ok, located, if_neg unwritten]
          exact addToBlockIndex_stored checked (not_not.mp known) nFile nPos

end Node

end BitCrystal
