import BitCrystal.Proofs.PoolUpdate

/-! # The main chain

Whatever calls of `SetBestChain` succeed or are refused, `pindexBest` and the blocks with a `pnext`
are one chain of the tree, the tip data are those of its last block, and `FindBlockByHeight` finds
the blocks of this chain.
-/

namespace BitCrystal

open StateAction Forest ChainOps TestNet

namespace Node

/-- What a query of the coins, the active chain or the pool sees is the same. -/
structure Unchanged (node node' : Node) : Prop where
  coins : node'.pcoinsTip.answers = node.pcoinsTip.answers
  links : nextOf node'.mapBlockIndex = nextOf node.mapBlockIndex
  best : node'.pindexBest = node.pindexBest
  hash : node'.hashBestChain = node.hashBestChain
  height : node'.nBestHeight = node.nBestHeight
  work : node'.nBestChainWork = node.nBestChainWork
  pool : node'.mempool = node.mempool

variable {genesis pindexNew : BlockPtr} {node node' : Node} {ops : ChainOps} {reorganise : NodeAction Unit}

theorem SameChain.unchanged (same : SameChain genesis node node') : Unchanged node node' where
  coins := congrArg _ same.coins
  links := same.tree.nextOf
  best := same.best
  hash := same.hash
  height := same.height
  work := same.work
  pool := same.pool

/-! ## Runs -/

/-- A chain before its first block. -/
structure Unstarted (genesis : BlockPtr) (node : Node) : Prop where
  tree : Rooted node.mapBlockIndex genesis
  links : ∀ pindex, nextOf node.mapBlockIndex pindex = none
  best : node.pindexBest = none
  height : node.nBestHeight = -1
  genesisBlock : node.pindexGenesisBlock = none
  last : node.pblockindexFBBHLast = none
  coins : node.pcoinsTip.getBestBlock = none

/-- A call of `SetBestChain` that succeeds or is refused before the flush, or a lookup. -/
inductive ChainStep (genesis : BlockPtr) (node node' : Node) : Prop
  | switched {ops : ChainOps} {reorganise : NodeAction Unit} {pindexNew : BlockPtr} (sound : ops.Sound genesis)
      (ran : setBestChain ops reorganise pindexNew node = (.ok (), node'))
  | refused {ops : ChainOps} {reorganise : NodeAction Unit} {pindexNew : BlockPtr} {failure : Failure}
      (sound : ops.Sound genesis) (written : ¬ (ops.conditions pindexNew).FlushFails)
      (ran : setBestChain ops reorganise pindexNew node = (.error failure, node'))
      (back : failure.returnsFalse = true)
  | lookedUp {nHeight : ℤ} {found : BlockPtr} (ran : findBlockByHeight nHeight node = (.ok found, node'))

inductive ChainRun (genesis : BlockPtr) : Node → Prop
  | start {node : Node} (unstarted : Unstarted genesis node) : ChainRun genesis node
  | step {node node' : Node} (run : ChainRun genesis node) (step : ChainStep genesis node node') :
      ChainRun genesis node'

theorem Unstarted.linked (unstarted : Unstarted genesis node) : Linked genesis node where
  tree := unstarted.tree
  links x y := by
    rw [unstarted.links, unstarted.best]
    simp [not_onChain_none]
  coins := unstarted.coins.trans unstarted.best.symm
  tip best found := by simp [unstarted.best] at found
  idle _ := unstarted.height
  started present := absurd unstarted.best present
  origin pindex found := by simp [unstarted.genesisBlock] at found
  looked pindex found := by simp [unstarted.last] at found

namespace Linked

variable (linked : Linked genesis node)
include linked

/-- A refused call has left the chain alone, or the flush of the staged coins has failed. -/
theorem refused_or_unflushed (sound : ops.Sound genesis) {failure : Failure}
    (ran : setBestChain ops reorganise pindexNew node = (.error failure, node'))
    (back : failure.returnsFalse = true) :
    SameChain genesis node node' ∨
      ∃ vDisconnect vConnect view last vResurrect vDelete staged,
        Staged ops reorganise pindexNew node vDisconnect vConnect view last vResurrect vDelete staged ∧
        (ops.conditions pindexNew).FlushFails ∧ node' = { staged with pcoinsTip := staged.mergedTip last } := by
  rcases setBestChain_error ran with rfl | ⟨vDisconnect, vConnect, view, vResurrect, found, -, failed⟩ |
    ⟨vDisconnect, vConnect, view, last, vResurrect, vDelete, staged, stages, failed | ⟨flushed, -, failed⟩⟩
  · exact .inl (.refl _)
  · rw [linked.coins] at found
    obtain ⟨fork, switch⟩ := findSwitch_ok linked.tree found
    have same : SameChain genesis node (connectBlocks ops reorganise pindexNew view vConnect node).2 :=
      connectBlocks_sameChain sound (linked.unlinked switch)
    rw [failed] at same
    exact .inl same
  · obtain ⟨unwritten, rfl⟩ := flushCoins_error failed
    exact .inr ⟨vDisconnect, vConnect, view, last, vResurrect, vDelete, staged, stages, unwritten, rfl⟩
  · rw [activate_error sound failed] at back
    contradiction

theorem refused (sound : ops.Sound genesis) (written : ¬ (ops.conditions pindexNew).FlushFails) {failure : Failure}
    (ran : setBestChain ops reorganise pindexNew node = (.error failure, node'))
    (back : failure.returnsFalse = true) : SameChain genesis node node' := by
  rcases linked.refused_or_unflushed sound ran back with same | ⟨_, _, _, _, _, _, _, -, unwritten, -⟩
  · exact same
  · exact absurd unwritten written

theorem step (step : ChainStep genesis node node') : Linked genesis node' := by
  cases step with
  | switched sound ran =>
    obtain ⟨_, _, _, _, _, _, _, _, switched⟩ := linked.switched sound ran
    exact switched.linked linked sound
  | refused sound written ran back => exact linked.sameChain (linked.refused sound written ran back)
  | lookedUp ran =>
    obtain ⟨on, rfl⟩ := linked.findBlockByHeight_ok ran
    exact { linked with looked := fun pindex found => by cases found; exact on }

/-- The blocks with a `pnext` and the best one are the best one and its ancestors. -/
theorem isInMainChain_iff (pindex : BlockPtr) :
    node.isInMainChain pindex ↔ OnChain (parentOf node.mapBlockIndex) node.pindexBest pindex := by
  constructor
  · rintro (⟨entry, found, pnext⟩ | best)
    · obtain ⟨next, edge⟩ := Option.ne_none_iff_exists'.mp pnext
      have link := (nextOf_of_some found).trans edge
      obtain ⟨on, above⟩ := (linked.links pindex next).mp link
      exact on.of_ancestor (.of_parent above)
    · rw [best]
      exact onChain_some.mpr (.refl pindex)
  · rintro on
    obtain ⟨best, found, ancestor⟩ := id on
    rcases (linked.tree.graded.height_le ancestor).eq_or_lt with same | below
    · exact .inr (linked.tree.graded.eq_of_height_le ancestor same.ge ▸ found)
    · obtain ⟨entry, there, -, height, -⟩ := linked.tip best found
      have top := heightOf_of_some there
      obtain ⟨next, link, -⟩ := linked.exists_next on (by omega)
      obtain ⟨lower, indexed, edge⟩ := Option.bind_eq_some_iff.mp link
      exact .inl ⟨lower, indexed, edge ▸ Option.some_ne_none next⟩

end Linked

theorem ChainRun.linked (run : ChainRun genesis node) : Linked genesis node := by
  induction run with
  | start unstarted => exact unstarted.linked
  | step _ step ih => exact ih.step step

/-- After every run of calls the main chain is `pindexBest` with its ancestors, the tip data and the
coins belong to it, a refused call changes nothing, and lookups find every height. -/
theorem mainChain_of_run (run : ChainRun genesis node) :
    (∀ pindex, node.isInMainChain pindex ↔ OnChain (parentOf node.mapBlockIndex) node.pindexBest pindex) ∧
      (∀ pindex next, nextOf node.mapBlockIndex pindex = some next ↔
        OnChain (parentOf node.mapBlockIndex) node.pindexBest next ∧
          parentOf node.mapBlockIndex next = some pindex) ∧
      (∀ best ∈ node.pindexBest, ∃ entry, node.mapBlockIndex best = some entry ∧ node.hashBestChain = best ∧
        node.nBestHeight = entry.nHeight ∧ node.nBestChainWork = entry.nChainWork) ∧
      node.pcoinsTip.getBestBlock = node.pindexBest ∧
      (∀ (ops : ChainOps) (reorganise : NodeAction Unit) (pindexNew : BlockPtr) (failure : Failure) (node' : Node),
        ops.Sound genesis → ¬ (ops.conditions pindexNew).FlushFails →
        setBestChain ops reorganise pindexNew node = (.error failure, node') → failure.returnsFalse = true →
        Unchanged node node') ∧
      ∀ nHeight : ℤ, 0 ≤ nHeight → nHeight ≤ node.nBestHeight →
        ∃ found, findBlockByHeight nHeight node = (.ok found, { node with pblockindexFBBHLast := some found }) ∧
          ∀ pindex, node.isInMainChain pindex ∧ (heightOf node.mapBlockIndex pindex : ℤ) = nHeight ↔
            pindex = found := by
  have linked := run.linked
  refine ⟨linked.isInMainChain_iff, linked.links, linked.tip, linked.coins, ?_, ?_⟩
  · intro ops reorganise pindexNew failure node' sound written ran back
    exact (linked.refused sound written ran back).unchanged
  · intro nHeight positive low
    obtain ⟨found, ran, on, height⟩ := linked.findBlockByHeight_returns positive low
    refine ⟨found, ran, fun pindex => ?_⟩
    rw [linked.isInMainChain_iff]
    constructor
    · rintro ⟨other, same⟩
      exact linked.tree.graded.onChain_eq other on (by omega)
    · rintro rfl
      exact ⟨on, height⟩

section TestNet

open TestNet

variable {entries : List (BlockPtr × CBlockIndex)}

theorem mem_of_treeOf {pindex : BlockPtr} {entry : CBlockIndex} (found : treeOf entries pindex = some entry) :
    (pindex, entry) ∈ entries := by
  obtain ⟨before, after, same, -⟩ := List.lookup_eq_some_iff.mp found
  simp [same]

theorem rooted_treeOf
    (fine : ∀ e ∈ entries, e.2.phashBlock = some e.1 ∧
      (e.2.pprev = none → e.1 = genesis ∧ e.2.nHeight = 0) ∧
      ∀ prev ∈ e.2.pprev, ∃ above ∈ treeOf entries prev, e.2.nHeight = above.nHeight + 1) :
    Rooted (treeOf entries) genesis where
  self _ _ found := (fine _ (mem_of_treeOf found)).1
  parent _ _ prev found edge := (fine _ (mem_of_treeOf found)).2.2 prev edge
  root _ _ found := (fine _ (mem_of_treeOf found)).2.1

theorem nextOf_treeOf (fine : ∀ e ∈ entries, e.2.pnext = none) (pindex : BlockPtr) :
    nextOf (treeOf entries) pindex = none := by
  rw [nextOf, Option.bind_eq_none_iff]
  exact fun entry found => fine _ (mem_of_treeOf found)

theorem unstarted_blank : Unstarted 0 blank where
  tree := rooted_treeOf (by decide)
  links := nextOf_treeOf (by decide)
  best := rfl
  height := rfl
  genesisBlock := rfl
  last := rfl
  coins := rfl

theorem unstarted_forked : Unstarted 0 forked where
  tree := rooted_treeOf (by decide)
  links := nextOf_treeOf (by decide)
  best := rfl
  height := rfl
  genesisBlock := rfl
  last := rfl
  coins := rfl

/-- Two blocks above genesis, and then block 3 in their place. -/
theorem mainChain_of_run_reorganised : let ops := real platform 10 (branches [])
    let before := switchedTo ops [2] forked
    let node := switchedTo ops [2, 3] forked
    before.isInMainChain 2 ∧ node.isInMainChain 3 ∧ ¬ node.isInMainChain 2 ∧
      ∀ pindex, node.isInMainChain pindex ↔ OnChain (parentOf node.mapBlockIndex) node.pindexBest pindex := by
  intro ops before node
  have ends : (setBestChain ops (pure ()) 2 forked).1 = .ok () := by decide
  have ends' : (setBestChain ops (pure ()) 3 before).1 = .ok () := by decide
  have run : ChainRun 0 before :=
    .step (.start unstarted_forked) (.switched (real_sound ..) (StateAction.outcome_of_fst ends))
  have run' : ChainRun 0 node := .step run (.switched (real_sound ..) (StateAction.outcome_of_fst ends'))
  exact ⟨by decide, by decide, by decide, (mainChain_of_run run').1⟩

end TestNet

end Node

/-! ## Failed switches

A call of `SetBestChain` that returns false has changed nothing, unless everything was connected in
the staging view and only the write to the coin database failed: by then the staged coins are part of
`pcoinsTip`, and nothing takes them out again.
-/

namespace Node

variable {genesis pindexNew : BlockPtr} {node node' : Node} {ops : ChainOps} {reorganise : NodeAction Unit}

/-- The blocks of the switch can be read, disconnected cleanly and connected. -/
def Stageable (ops : ChainOps) (reorganise : NodeAction Unit) (pindexNew : BlockPtr) (node : Node) : Prop :=
  ∃ vDisconnect vConnect view last vResurrect vDelete staged,
    Staged ops reorganise pindexNew node vDisconnect vConnect view last vResurrect vDelete staged

variable {vDisconnect vConnect : List BlockPtr} {view last : CCoinsViewCache}
  {vResurrect vDelete : List CTransaction} {staged : Node}

/-- A due flush that fails makes the call return false with the staged coins in `pcoinsTip`. -/
theorem Staged.unflushed
    (stages : Staged ops reorganise pindexNew node vDisconnect vConnect view last vResurrect vDelete staged)
    (unwritten : (ops.conditions pindexNew).FlushFails) :
    ∃ what, setBestChain ops reorganise pindexNew node =
      (.error (.abort what), { staged with pcoinsTip := staged.mergedTip last }) := by
  obtain ⟨what, failed⟩ : ∃ what, flushCoins (ops.conditions pindexNew) last staged =
      (.error (.abort what), { staged with pcoinsTip := staged.mergedTip last }) := by
    obtain ⟨due, fails⟩ := unwritten
    rw [flushCoins, modify_bind, if_neg (by rcases due with idle | full <;> simp [*])]
    split
    · exact ⟨_, rfl⟩
    next space =>
      have unwritten : (ops.conditions pindexNew).fCoinsFlush = false :=
        fails.resolve_left fun full => space (by simp [full])
      rw [if_pos (by simp [unwritten])]
      exact ⟨_, rfl⟩
  refine ⟨what, ?_⟩
  rw [setBestChain, get_bind, getBestBlock_stagingView, stages.found, lift_bind_ok]
  dsimp only
  rw [stages.disconnected, lift_bind_ok]
  dsimp only
  rw [bind_of_ok stages.connected]
  dsimp only
  exact bind_of_error failed

private theorem findSwitch_self (index : BlockMap) (pindex : BlockPtr) :
    findSwitch index (some pindex) pindex = .ok ([], []) := by
  have forked (rounds : ℕ) : findFork index rounds (some pindex) pindex = .ok (some pindex) := by
    unfold findFork
    exact if_pos rfl
  have nothing (rounds : ℕ) : pathTo index (some pindex) rounds (some pindex) = .ok [] := by
    unfold pathTo
    exact if_pos rfl
  rw [findSwitch, forked, Check.ok_bind, nothing, Check.ok_bind, Check.ok_bind]
  rfl

namespace Linked

variable (linked : Linked genesis node)
include linked

/-- The staging view ends at the new block. -/
theorem pindexTip_of_staged (sound : ops.Sound genesis)
    (stages : Staged ops reorganise pindexNew node vDisconnect vConnect view last vResurrect vDelete staged) :
    last.pindexTip = some pindexNew ∧ SameChain genesis node staged := by
  have found := stages.found
  rw [linked.coins] at found
  obtain ⟨fork, switch⟩ := findSwitch_ok linked.tree found
  obtain ⟨connects, chain⟩ := connectBlocks_ok sound stages.connected (.refl _)
  have start : node.stagingView.pindexTip = node.pindexBest := linked.coins
  rw [connects.pindexTip sound, (disconnectBlocks_ok stages.disconnected).pindexTip sound switch.down start]
  exact ⟨switch.getLast?_connect, chain⟩

/-- Switching to the best block stages nothing. -/
theorem unchanged_of_best (best : node.pindexBest = some pindexNew)
    (stages : Staged ops reorganise pindexNew node vDisconnect vConnect view last vResurrect vDelete staged) :
    Unchanged node { staged with pcoinsTip := staged.mergedTip last } := by
  obtain ⟨found, disconnected, connected⟩ := stages
  rw [linked.coins, best, findSwitch_self] at found
  cases found
  cases disconnected
  cases connected
  refine ⟨?_, rfl, rfl, rfl, rfl, rfl, rfl⟩
  have tip : (node.pcoinsTip.getBestBlock).or node.pcoinsTip.base.getBestBlock = node.pcoinsTip.getBestBlock := by
    rw [CCoinsViewCache.getBestBlock, Option.or_assoc, Option.or_self]
  exact congrArg (CCoinsView.mk node.pcoinsTip.getCoins) tip

end Linked

/-- A call that returns false leaves everything alone exactly when it has not staged a switch to
another block that the coin database then fails to take. -/
theorem setBestChain_unchanged_iff (linked : Linked genesis node) (sound : ops.Sound genesis) :
    (∀ failure node', setBestChain ops reorganise pindexNew node = (.error failure, node') →
        failure.returnsFalse = true →
        Unchanged node node' ∧ node'.pcoinsTip.getBestBlock = node'.pindexBest) ↔
      ¬ ((ops.conditions pindexNew).FlushFails ∧ node.pindexBest ≠ some pindexNew ∧
        Stageable ops reorganise pindexNew node) := by
  constructor
  · rintro unchanged ⟨unwritten, other, _, _, _, _, _, _, staged, stages⟩
    obtain ⟨what, ran⟩ := stages.unflushed unwritten
    obtain ⟨same, best⟩ := unchanged _ _ ran rfl
    obtain ⟨tip, chain⟩ := linked.pindexTip_of_staged sound stages
    rw [(getBestBlock_mergedTip staged tip).1] at best
    exact other (chain.best ▸ best.symm)
  · intro fine failure node' ran back
    have same : Unchanged node node' := by
      rcases linked.refused_or_unflushed sound ran back with same | ⟨_, _, _, _, _, _, _, stages, unwritten, rfl⟩
      · exact same.unchanged
      · by_cases best : node.pindexBest = some pindexNew
        · exact linked.unchanged_of_best best stages
        · exact absurd ⟨unwritten, best, _, _, _, _, _, _, _, stages⟩ fine
    have answers : node'.pcoinsTip.getBestBlock = node.pcoinsTip.getBestBlock :=
      congrArg CCoinsView.getBestBlock same.coins
    exact ⟨same, by rw [answers, linked.coins, same.best]⟩

/-- Genesis is connected; for the next block the disk is full. -/
theorem setBestChain_disk_full :
    let started := (setBestChain (.real platform 10 twoBlocks) (pure ()) 0 blank).2
    let full := { twoBlocks with conditions := fun _ => { fDiskSpace := false } }
    let r := setBestChain (.real platform 10 full) (pure ()) 1 started
    Linked 0 started ∧ r.1 = .error (.abort "") ∧ r.2.pindexBest = some 0 ∧
      r.2.pcoinsTip.getBestBlock = some 1 ∧ ¬ Unchanged started r.2 := by
  intro started full r
  have first : (setBestChain (.real platform 10 twoBlocks) (pure ()) 0 blank).1 = .ok () := by decide
  have run : ChainRun 0 started :=
    .step (.start unstarted_blank) (.switched (real_sound ..) (Prod.ext first rfl))
  have before : started.pcoinsTip.getBestBlock = some 0 := by decide
  have after : r.2.pcoinsTip.getBestBlock = some 1 := by decide
  refine ⟨run.linked, by decide, by decide, after, fun same => ?_⟩
  have kept : r.2.pcoinsTip.getBestBlock = started.pcoinsTip.getBestBlock :=
    congrArg CCoinsView.getBestBlock same.coins
  rw [before, after] at kept
  contradiction

/-- In the same state the next block cannot be read. -/
theorem setBestChain_unreadable :
    let started := (setBestChain (.real platform 10 twoBlocks) (pure ()) 0 blank).2
    let r := setBestChain (.real platform 10 { twoBlocks with blockFile := fun _ => none }) (pure ()) 1 started
    r.1 = .error (.abort "Failed to read block") ∧
      Unchanged started r.2 ∧ r.2.pcoinsTip.getBestBlock = r.2.pindexBest := by
  intro started r
  have first : (setBestChain (.real platform 10 twoBlocks) (pure ()) 0 blank).1 = .ok () := by decide
  have run : ChainRun 0 started :=
    .step (.start unstarted_blank) (.switched (real_sound ..) (Prod.ext first rfl))
  have ends : r.1 = .error (.abort "Failed to read block") := by decide
  refine ⟨ends, (setBestChain_unchanged_iff run.linked (real_sound ..)).mpr ?_ _ _ (Prod.ext ends rfl) rfl⟩
  rintro ⟨⟨-, full | unwritten⟩, -⟩
  · contradiction
  · contradiction

end Node

end BitCrystal
