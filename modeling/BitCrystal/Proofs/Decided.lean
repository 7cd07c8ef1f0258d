import BitCrystal.Proofs.Linked

/-! # SetBestChain when validity is decided

Without disk errors, and with `ConnectBlock` a fixed predicate on blocks, `SetBestChain` succeeds when
every block above the fork is valid. Otherwise it marks the first invalid one failed, takes it out of
the candidates and changes nothing else.
-/

namespace BitCrystal

open StateAction Forest

/-- `ConnectBlock` accepts exactly the valid blocks, and nothing else fails. -/
structure ChainOps.Decided (ops : ChainOps) (valid : BlockPtr → Prop) : Prop where
  read : ∀ pindex, ∃ block, ops.readFromDisk pindex = some block
  accepts : ∀ index entry pindex block view, ops.readFromDisk pindex = some block → valid pindex →
    ∃ next, (ops.connectBlock index entry pindex block view).result = .ok next
  refuses : ∀ index entry pindex block view, ops.readFromDisk pindex = some block → ¬ valid pindex →
    ∃ nDoS what, (ops.connectBlock index entry pindex block view).result = .error (.dos nDoS what)
  status : ∀ index entry pindex block view,
    (ops.connectBlock index entry pindex block view).nStatus.failed = entry.nStatus.failed
  clean : ∀ entry pindex block view, ops.readFromDisk pindex = some block → entry.pprev ≠ none →
    ∃ next, ops.disconnectBlock entry pindex block view = .ok (true, next)
  pool : ∀ node vResurrect vDelete, ∃ mempool, ops.updateMemPool node vResurrect vDelete = .ok mempool
  written : ∀ pindex, ¬ (ops.conditions pindex).FlushFails

namespace Node

def failedOf (index : BlockMap) (pindex : BlockPtr) : Bool := (index pindex).elim false fun entry => entry.nStatus.failed

def workOf (index : BlockMap) (pindex : BlockPtr) : ℕ := (index pindex).elim 0 CBlockIndex.nChainWork

/-- The chain is the same, and the given blocks are failed and no candidates any more. -/
structure Marked (genesis : BlockPtr) (marked : BlockPtr → Prop) (node node' : Node) : Prop where
  chain : SameChain genesis node node'
  failed : ∀ pindex, failedOf node'.mapBlockIndex pindex = true ↔
    failedOf node.mapBlockIndex pindex = true ∨ marked pindex
  candidates : ∀ pindex, pindex ∈ node'.setBlockIndexValid ↔ pindex ∈ node.setBlockIndexValid ∧ ¬ marked pindex
  sublist : node'.setBlockIndexValid.Sublist node.setBlockIndexValid

variable {genesis pindexNew : BlockPtr} {valid : BlockPtr → Prop} {index : BlockMap} {node node' : Node}
  {ops : ChainOps} {reorganise : NodeAction Unit} {pindex : BlockPtr} {entry : CBlockIndex}

theorem failedOf_of_some (found : index pindex = some entry) : failedOf index pindex = entry.nStatus.failed := by
  rw [failedOf, found, Option.elim_some]

theorem workOf_of_some (found : index pindex = some entry) : workOf index pindex = entry.nChainWork := by
  rw [workOf, found, Option.elim_some]

theorem SameTree.workOf {index' : BlockMap} (same : SameTree index index') (pindex : BlockPtr) :
    Node.workOf index' pindex = Node.workOf index pindex :=
  same.elim 0 CBlockIndex.nChainWork (fun _ => rfl) pindex

namespace Marked

theorem refl (node : Node) : Marked genesis (fun _ => False) node node where
  chain := .refl node
  failed _ := by simp
  candidates _ := by simp
  sublist := .refl _

theorem trans {node'' : Node} {marked marked' both : BlockPtr → Prop} (first : Marked genesis marked node node')
    (second : Marked genesis marked' node' node'') (union : ∀ pindex, both pindex ↔ marked pindex ∨ marked' pindex) :
    Marked genesis both node node'' where
  chain := first.chain.trans second.chain
  failed pindex := by rw [second.failed, first.failed, union, or_assoc]
  candidates pindex := by rw [second.candidates, first.candidates, union, not_or, and_assoc]
  sublist := second.sublist.trans first.sublist

end Marked

theorem failedOf_setEntry (pindex : BlockPtr) (entry : CBlockIndex) (other : BlockPtr) :
    failedOf (node.setEntry pindex entry).mapBlockIndex other =
      if other = pindex then entry.nStatus.failed else failedOf node.mapBlockIndex other := by
  simp only [failedOf, setEntry, Function.update_apply]
  split <;> rfl

theorem markFailed_marked
    (found : node.mapBlockIndex pindex = some entry) {nStatus : BlockStatus} (failed : nStatus.failed = true) :
    Marked genesis (· = pindex) node (node.markFailed pindex entry nStatus) where
  chain := markFailed_sameChain found nStatus
  failed other := by
    change failedOf (node.setEntry pindex _).mapBlockIndex other = true ↔ _
    rw [failedOf_setEntry]
    split
    next same => simp [same, failed]
    next other => simp [other]
  candidates other := by simp [markFailed]
  sublist := List.filter_sublist

theorem invalidChainFound_returns (indexed : ∃ entry, node.mapBlockIndex pindex = some entry)
    (started : node.pindexBest ≠ none) :
    ∃ node', invalidChainFound pindex node = (.ok (), node') ∧ Marked genesis (fun _ => False) node node' := by
  obtain ⟨entry, found⟩ := indexed
  refine ⟨{ node with nBestInvalidWork := max node.nBestInvalidWork entry.nChainWork }, ?_, ?_⟩
  · rw [invalidChainFound, bind_of_ok (deref_some found), modify_bind, get_bind, if_neg started]
    rfl
  · refine ⟨⟨.refl _, rfl, rfl, rfl, rfl, rfl, rfl, rfl, .inl rfl⟩, fun _ => ?_, fun _ => ?_, .refl _⟩ <;> simp

theorem invalidBlockFound_returns (indexed : ∃ entry, node.mapBlockIndex pindex = some entry)
    (started : node.pindexBest ≠ none) (unlinked : nextOf node.mapBlockIndex pindex = none) :
    ∃ node', invalidBlockFound reorganise pindex node = (.ok (), node') ∧ Marked genesis (· = pindex) node node' := by
  obtain ⟨entry, found⟩ := indexed
  rw [nextOf, found] at unlinked
  have pnext : entry.pnext = none := unlinked
  have marks : Marked genesis (· = pindex) node
      (node.markFailed pindex entry { entry.nStatus with failedValid := true }) := markFailed_marked found rfl
  obtain ⟨after, ran, same⟩ : ∃ after, invalidChainFound pindex
      (node.markFailed pindex entry { entry.nStatus with failedValid := true }) = (.ok (), after) ∧
      Marked genesis (fun _ => False) (node.markFailed pindex entry { entry.nStatus with failedValid := true }) after := by
    refine invalidChainFound_returns ?_ started
    exact ⟨_, Function.update_self ..⟩
  refine ⟨after, ?_, marks.trans same (by simp)⟩
  rw [invalidBlockFound, bind_of_ok (deref_some found), modify_bind, bind_of_ok ran, if_pos pnext]
  rfl

variable (sound : ops.Sound genesis) (decided : ops.Decided valid)
include decided

theorem disconnectBlocks_returns {view : CCoinsViewCache} {vDisconnect : List BlockPtr}
    (parents : ∀ pindex ∈ vDisconnect, parentOf index pindex ≠ none) :
    ∃ last vResurrect, disconnectBlocks ops index view vDisconnect = .ok (last, vResurrect) := by
  induction vDisconnect generalizing view with
  | nil => exact ⟨view, [], rfl⟩
  | cons pindex rest ih =>
    obtain ⟨prev, edge⟩ := Option.ne_none_iff_exists'.mp (parents pindex (List.mem_cons_self ..))
    obtain ⟨entry, found, above⟩ := Option.bind_eq_some_iff.mp edge
    obtain ⟨block, read⟩ := decided.read pindex
    obtain ⟨next, clean⟩ := decided.clean entry pindex block view read (by rw [above]; exact Option.some_ne_none prev)
    obtain ⟨last, vResurrect, others⟩ : ∃ last vResurrect, disconnectBlocks ops index next rest = .ok (last, vResurrect) :=
      ih fun p member => parents p (List.mem_cons_of_mem _ member)
    refine ⟨last, block.vtx.filter (fun tx => ¬ tx.isCoinBase ∧ 0 < entry.nHeight) ++ vResurrect, ?_⟩
    simp only [disconnectBlocks, Check.bind_eq_ok, Check.assertSome_eq_ok, Check.rejectIf_eq_ok, Prod.exists, not_not]
    exact ⟨entry, found, block, read, true, next, clean, (), rfl, last, vResurrect, others, rfl⟩

include sound

theorem applyResult_marked {block : CBlock}
    (found : node.mapBlockIndex pindex = some entry) (read : ops.readFromDisk pindex = some block)
    (view : CCoinsViewCache) : Marked genesis (fun _ => False) node
      (node.applyResult pindex entry (ops.connectBlock node.mapBlockIndex entry pindex block view)) where
  chain := applyResult_sameChain sound found read view
  failed other := by
    change failedOf (node.setEntry pindex _).mapBlockIndex other = true ↔ _
    rw [failedOf_setEntry, or_false]
    split
    next same =>
      rw [same, failedOf, found, Option.elim_some]
      exact iff_of_eq (congrArg (· = true) (decided.status ..))
    next => rfl
  candidates _ := by simp [applyResult, setEntry]
  sublist := .refl _

/-- The loop over `vConnect` connects valid blocks and stops at the first invalid one. -/
theorem connectBlocks_returns {view : CCoinsViewCache} {vConnect : List BlockPtr}
    (indexed : ∀ pindex ∈ vConnect, ∃ entry, node.mapBlockIndex pindex = some entry)
    (newIndexed : ∃ entry, node.mapBlockIndex pindexNew = some entry)
    (unlinked : ∀ pindex ∈ vConnect, nextOf node.mapBlockIndex pindex = none)
    (started : node.pindexBest = none → ∀ pindex ∈ vConnect, valid pindex) :
    ((∀ pindex ∈ vConnect, valid pindex) ∧ ∃ last vDelete node',
      connectBlocks ops reorganise pindexNew view vConnect node = (.ok (last, vDelete), node') ∧
      Marked genesis (fun _ => False) node node') ∨
    ∃ pindex ∈ vConnect, ¬ valid pindex ∧ ∃ nDoS what node',
      connectBlocks ops reorganise pindexNew view vConnect node = (.error (.dos nDoS what), node') ∧
      Marked genesis (· = pindex) node node' := by
  induction vConnect generalizing view node with
  | nil => exact .inl ⟨by simp, view, [], node, rfl, .refl node⟩
  | cons pindex rest ih =>
    obtain ⟨entry, found⟩ := indexed pindex (List.mem_cons_self ..)
    obtain ⟨block, read⟩ := decided.read pindex
    have tried := applyResult_marked sound decided found read view
    have accepted {next : CCoinsViewCache} := @connectBlocks_accepted node ops reorganise pindexNew view pindex entry block
      rest found read next
    have refused {failure : Failure} := @connectBlocks_refused node ops reorganise pindexNew view pindex entry block rest
      found read failure
    generalize node.applyResult pindex entry (ops.connectBlock node.mapBlockIndex entry pindex block view) =
      after at accepted refused tried
    have same := tried.chain
    have indexedThere {p : BlockPtr} (there : ∃ entry, node.mapBlockIndex p = some entry) :
        ∃ entry, after.mapBlockIndex p = some entry := same.tree.indexed there
    have unlinkedThere {p : BlockPtr} (member : p ∈ pindex :: rest) : nextOf after.mapBlockIndex p = none := by
      rw [same.tree.nextOf]
      exact unlinked p member
    by_cases fine : valid pindex
    · obtain ⟨next, outcome⟩ := decided.accepts node.mapBlockIndex entry pindex block view read fine
      rw [accepted outcome]
      have laterIndexed (p : BlockPtr) (member : p ∈ rest) : ∃ entry, after.mapBlockIndex p = some entry :=
        indexedThere (indexed p (List.mem_cons_of_mem _ member))
      have laterStarted (nothing : after.pindexBest = none) (p : BlockPtr) (member : p ∈ rest) : valid p :=
        started (same.best ▸ nothing) p (List.mem_cons_of_mem _ member)
      rcases @ih after next laterIndexed (indexedThere newIndexed)
          (fun p member => unlinkedThere (List.mem_cons_of_mem _ member)) laterStarted with
        ⟨all, last, vDelete, final, ran, marks⟩ | ⟨p, member, wrong, nDoS, what, final, ran, marks⟩
      · refine .inl ⟨List.forall_mem_cons.mpr ⟨fine, all⟩, last, block.vtx ++ vDelete, final, ?_,
          tried.trans marks (by simp)⟩
        exact bind_of_ok ran
      · refine .inr ⟨p, List.mem_cons_of_mem _ member, wrong, nDoS, what, final, ?_, tried.trans marks (by simp)⟩
        exact bind_of_error ran
    · obtain ⟨nDoS, what, outcome⟩ := decided.refuses node.mapBlockIndex entry pindex block view read fine
      rw [refused outcome]
      have best : after.pindexBest ≠ none := by
        rw [same.best]
        exact fun nothing => fine (started nothing pindex (List.mem_cons_self ..))
      obtain ⟨warned, first, chainMarks⟩ : ∃ warned, invalidChainFound pindexNew after = (.ok (), warned) ∧
          Marked genesis (fun _ => False) after warned := invalidChainFound_returns (indexedThere newIndexed) best
      obtain ⟨final, second, blockMarks⟩ : ∃ final, invalidBlockFound reorganise pindex warned = (.ok (), final) ∧
          Marked genesis (· = pindex) warned final := by
        refine invalidBlockFound_returns (chainMarks.chain.tree.indexed (indexedThere ⟨entry, found⟩)) ?_ ?_
        · rwa [chainMarks.chain.best]
        · rw [chainMarks.chain.tree.nextOf]
          exact unlinkedThere (List.mem_cons_self ..)
      have quiet : Marked genesis (fun _ => False) node warned := tried.trans chainMarks (by simp)
      refine .inr ⟨pindex, List.mem_cons_self .., fine, nDoS, what, final, ?_, quiet.trans blockMarks (by simp)⟩
      have failed : connectFailed reorganise pindexNew pindex (.dos nDoS what) after = (.ok (), final) := by
        change (invalidChainFound pindexNew >>= fun _ => invalidBlockFound reorganise pindex) after = _
        rw [bind_of_ok first, second]
      exact bind_of_ok failed

omit sound in
theorem flushCoins_returns (view : CCoinsViewCache) :
    ∃ tip, flushCoins (ops.conditions pindexNew) view node = (.ok (), { node with pcoinsTip := tip }) := by
  rcases outcome : flushCoins (ops.conditions pindexNew) view node with ⟨failure | done, after⟩
  · exact absurd (flushCoins_error outcome).1 (decided.written pindexNew)
  · obtain ⟨-, tip, rfl, -⟩ := flushCoins_ok outcome
    exact ⟨tip, rfl⟩

omit sound in
theorem activate_returns (rooted : Rooted node.mapBlockIndex genesis)
    (indexed : ∃ entry, node.mapBlockIndex pindexNew = some entry) (vDisconnect vConnect : List BlockPtr)
    (vResurrect vDelete : List CTransaction) :
    ∃ node', activate ops vDisconnect vConnect vResurrect vDelete pindexNew node = (.ok (), node') := by
  obtain ⟨mempool, updated⟩ := decided.pool
    { node with mapBlockIndex := relink node.mapBlockIndex vDisconnect vConnect } vResurrect vDelete
  obtain ⟨entry, found⟩ := indexed
  obtain ⟨linked, there⟩ : ∃ linked, relink node.mapBlockIndex vDisconnect vConnect pindexNew = some linked := by
    rw [relink_apply, found]
    exact ⟨_, rfl⟩
  have hash := (rooted.relink vDisconnect vConnect).self pindexNew linked there
  have ends : (activate ops vDisconnect vConnect vResurrect vDelete pindexNew node).1 = .ok () := by
    rw [activate, modify_bind, get_bind, updated, lift_bind_ok, bind_of_ok (deref_some there), hash]
    rfl
  exact ⟨_, Prod.ext ends rfl⟩

omit sound decided in
theorem failedOf_relink (index : BlockMap) (vDisconnect vConnect : List BlockPtr) (pindex : BlockPtr) :
    failedOf (relink index vDisconnect vConnect) pindex = failedOf index pindex := by
  rw [failedOf, failedOf, relink_apply]
  cases index pindex <;> rfl

/-- Everything but the tip is the same. -/
structure Moved (pindexNew : BlockPtr) (node node' : Node) : Prop where
  parents : parentOf node'.mapBlockIndex = parentOf node.mapBlockIndex
  entries : ∀ pindex, (∃ entry, node'.mapBlockIndex pindex = some entry) ↔ ∃ entry, node.mapBlockIndex pindex = some entry
  works : workOf node'.mapBlockIndex = workOf node.mapBlockIndex
  failed : failedOf node'.mapBlockIndex = failedOf node.mapBlockIndex
  candidates : ∀ pindex, pindex ∈ node'.setBlockIndexValid ↔ pindex ∈ node.setBlockIndexValid
  best : node'.pindexBest = some pindexNew

omit sound decided in
theorem activate_moved {vDisconnect vConnect : List BlockPtr} {vResurrect vDelete : List CTransaction}
    (activated : activate ops vDisconnect vConnect vResurrect vDelete pindexNew node = (.ok (), node')) :
    Moved pindexNew node node' := by
  obtain ⟨entry, hash, mempool, -, -, -, rfl⟩ := activate_ok activated
  refine ⟨parentOf_relink .., fun pindex => ?_, ?_, funext fun pindex => failedOf_relink .., fun _ => Iff.rfl, rfl⟩
  · change (∃ entry, relink node.mapBlockIndex vDisconnect vConnect pindex = some entry) ↔ _
    rw [relink_apply]
    cases node.mapBlockIndex pindex <;> simp
  · funext pindex
    change workOf (relink node.mapBlockIndex vDisconnect vConnect) pindex = _
    rw [workOf, workOf, relink_apply]
    cases node.mapBlockIndex pindex <;> rfl

omit sound decided in
theorem Moved.of_marked {between : Node} (first : Marked genesis (fun _ => False) node between)
    (second : Moved pindexNew between node') : Moved pindexNew node node' where
  parents := second.parents.trans first.chain.tree.parentOf
  entries pindex := by
    rw [second.entries]
    exact ⟨first.chain.tree.symm.indexed, first.chain.tree.indexed⟩
  works := second.works.trans (funext first.chain.tree.workOf)
  failed := by
    refine second.failed.trans (funext fun pindex => Bool.eq_iff_iff.mpr ?_)
    rw [first.failed, or_false]
  candidates pindex := by rw [second.candidates, first.candidates, not_false_eq_true, and_true]
  best := second.best

/-- With all its blocks valid the switch is made; otherwise an invalid one above the fork is marked. -/
theorem setBestChain_returns (linked : Linked genesis node)
    (indexed : ∃ entry, node.mapBlockIndex pindexNew = some entry)
    (started : node.pindexBest = none → ∀ pindex, Ancestor (parentOf node.mapBlockIndex) pindex pindexNew → valid pindex) :
    (∃ node', setBestChain ops reorganise pindexNew node = (.ok (), node') ∧ Linked genesis node' ∧
      Moved pindexNew node node' ∧
      ∀ pindex, Ancestor (parentOf node.mapBlockIndex) pindex pindexNew →
        ¬ OnChain (parentOf node.mapBlockIndex) node.pindexBest pindex → valid pindex) ∨
    ∃ pindex, Ancestor (parentOf node.mapBlockIndex) pindex pindexNew ∧ ¬ valid pindex ∧ ∃ nDoS what node',
      setBestChain ops reorganise pindexNew node = (.error (.dos nDoS what), node') ∧
      Marked genesis (· = pindex) node node' := by
  have bestIndexed (pindex : BlockPtr) (best : pindex ∈ node.pindexBest) :
      ∃ entry, node.mapBlockIndex pindex = some entry := by
    obtain ⟨entry, there, -⟩ := linked.tip pindex best
    exact ⟨entry, there⟩
  obtain ⟨vDisconnect, vConnect, fork, found, switch, forked⟩ := findSwitch_returns linked.tree bestIndexed indexed
  have above {pindex : BlockPtr} (member : pindex ∈ vConnect) :
      Ancestor (parentOf node.mapBlockIndex) pindex pindexNew :=
    onChain_some.mp (switch.up.onChain_iff.mpr (.inl (List.mem_reverse.mpr member)))
  obtain ⟨view, vResurrect, disconnected⟩ : ∃ view vResurrect,
      disconnectBlocks ops node.mapBlockIndex node.stagingView vDisconnect = .ok (view, vResurrect) := by
    refine disconnectBlocks_returns decided fun pindex member => ?_
    cases fork with
    | some low => exact switch.down.parent_ne_none member
    | none =>
      have down := switch.down
      rw [forked rfl] at down
      cases down
      simp at member
  have begun : setBestChain ops reorganise pindexNew node =
      (connectBlocks ops reorganise pindexNew view vConnect >>= fun connected =>
        flushCoins (ops.conditions pindexNew) connected.1 >>= fun _ =>
          activate ops vDisconnect vConnect vResurrect connected.2 pindexNew) node := by
    rw [setBestChain, get_bind, getBestBlock_stagingView, linked.coins, found, lift_bind_ok]
    dsimp only
    rw [disconnected, lift_bind_ok]
  have bound (pindex : BlockPtr) (member : pindex ∈ vConnect) : ∃ entry, node.mapBlockIndex pindex = some entry :=
    linked.tree.indexed_of_ancestor (above member) indexed
  have outcome : ((∀ pindex ∈ vConnect, valid pindex) ∧ ∃ last vDelete staged,
      connectBlocks ops reorganise pindexNew view vConnect node = (.ok (last, vDelete), staged) ∧
      Marked genesis (fun _ => False) node staged) ∨
      ∃ pindex ∈ vConnect, ¬ valid pindex ∧ ∃ nDoS what node',
        connectBlocks ops reorganise pindexNew view vConnect node = (.error (.dos nDoS what), node') ∧
        Marked genesis (· = pindex) node node' :=
    connectBlocks_returns sound decided bound indexed (linked.unlinked switch)
      fun nothing pindex member => started nothing pindex (above member)
  rcases outcome with ⟨all, last, vDelete, staged, connected, marks⟩ |
    ⟨pindex, member, wrong, nDoS, what, after, failed, marks⟩
  · obtain ⟨tip, flushed⟩ : ∃ tip, flushCoins (ops.conditions pindexNew) last staged =
        (.ok (), { staged with pcoinsTip := tip }) := flushCoins_returns decided last
    obtain ⟨final, activated⟩ : ∃ final, activate ops vDisconnect vConnect vResurrect vDelete pindexNew
        { staged with pcoinsTip := tip } = (.ok (), final) := by
      apply activate_returns decided
      · exact marks.chain.tree.rooted linked.tree
      · exact marks.chain.tree.indexed indexed
    have ran : setBestChain ops reorganise pindexNew node = (.ok (), final) := by
      rw [begun, bind_of_ok connected, bind_of_ok flushed, activated]
    obtain ⟨_, _, _, _, _, _, _, _, switched⟩ := linked.switched sound ran
    have moved := activate_moved activated
    have further : Moved pindexNew staged final :=
      ⟨moved.parents, moved.entries, moved.works, moved.failed, moved.candidates, moved.best⟩
    refine .inl ⟨final, ran, switched.linked linked sound, further.of_marked marks, fun pindex ancestor off => ?_⟩
    rcases switch.up.onChain_iff.mp (onChain_some.mpr ancestor) with member | below
    · exact all pindex (List.mem_reverse.mp member)
    · exact absurd (switch.down.onChain_iff.mpr (.inr below)) off
  · refine .inr ⟨pindex, above member, wrong, nDoS, what, after, ?_, marks⟩
    rw [begun]
    exact bind_of_error failed

end Node

end BitCrystal
