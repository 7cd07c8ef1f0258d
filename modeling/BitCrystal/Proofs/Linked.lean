import BitCrystal.Proofs.BestChain

/-! # The active chain as an invariant

`Linked` says that the globals describe one chain of the tree: the `pnext` pointers follow it, the
cached tip data and the coins belong to its last block, and the last lookup is on it. A call of
`SetBestChain` that fails without flushing leaves the chain alone, a successful one moves it.
-/

namespace BitCrystal

open StateAction Forest Check

namespace Node

structure Linked (genesis : BlockPtr) (node : Node) : Prop where
  tree : Rooted node.mapBlockIndex genesis
  links : Links (parentOf node.mapBlockIndex) (nextOf node.mapBlockIndex) node.pindexBest
  coins : node.pcoinsTip.getBestBlock = node.pindexBest
  tip : ∀ best ∈ node.pindexBest, ∃ entry, node.mapBlockIndex best = some entry ∧ node.hashBestChain = best ∧
    node.nBestHeight = entry.nHeight ∧ node.nBestChainWork = entry.nChainWork
  idle : node.pindexBest = none → node.nBestHeight = -1
  started : node.pindexBest ≠ none → node.pindexGenesisBlock = some genesis
  origin : ∀ pindex ∈ node.pindexGenesisBlock, pindex = genesis
  looked : ∀ pindex ∈ node.pblockindexFBBHLast, OnChain (parentOf node.mapBlockIndex) node.pindexBest pindex

variable {genesis pindexNew : BlockPtr} {node node' : Node} {ops : ChainOps} {reorganise : NodeAction Unit}

namespace Linked

theorem sameChain (linked : Linked genesis node) (same : SameChain genesis node node') : Linked genesis node' where
  tree := same.tree.rooted linked.tree
  links := by
    rw [same.tree.parentOf, same.tree.nextOf, same.best]
    exact linked.links
  coins := by
    rw [same.coins, same.best]
    exact linked.coins
  tip best found := by
    rw [same.best] at found
    obtain ⟨entry, indexed, hash, height, work⟩ := linked.tip best found
    obtain ⟨entry', there, agree⟩ := same.tree.entry indexed
    have height' : entry'.bare.nHeight = entry.bare.nHeight := congrArg _ agree
    have work' : entry'.bare.nChainWork = entry.bare.nChainWork := congrArg _ agree
    refine ⟨entry', there, same.hash.trans hash, ?_, ?_⟩
    · rw [same.height, height]
      exact congrArg _ height'.symm
    · rw [same.work, work]
      exact work'.symm
  idle absent := by
    rw [same.height]
    exact linked.idle (same.best ▸ absent)
  started present := by
    rcases same.started with kept | set
    · rw [kept]
      exact linked.started (same.best ▸ present)
    · exact set
  origin pindex found := by
    rcases same.started with kept | set
    · exact linked.origin pindex (kept ▸ found)
    · rw [set] at found
      exact (Option.some.inj found).symm
  looked pindex found := by
    rw [same.last] at found
    rw [same.tree.parentOf, same.best]
    exact linked.looked pindex found

/-- No block to connect has a `pnext`. -/
theorem unlinked (linked : Linked genesis node) {vDisconnect vConnect : List BlockPtr} {fork : Option BlockPtr}
    (switch : Switch node.mapBlockIndex node.pindexBest pindexNew vDisconnect vConnect fork)
    (pindex : BlockPtr) (member : pindex ∈ vConnect) : nextOf node.mapBlockIndex pindex = none := by
  rw [Option.eq_none_iff_forall_ne_some]
  intro next found
  obtain ⟨on, edge⟩ := (linked.links pindex next).mp found
  exact switch.not_onChain linked.tree member (on.of_ancestor (.of_parent edge))

end Linked

variable {index : BlockMap} {view last : CCoinsViewCache} {vDisconnect : List BlockPtr}
  {vResurrect : List CTransaction} {vConnect : List BlockPtr} {vDelete : List CTransaction}

theorem Disconnects.pindexTip (sound : ops.Sound genesis)
    (disconnects : Disconnects ops index view vDisconnect last vResurrect) {top bottom : Option BlockPtr}
    (path : Path (parentOf index) top vDisconnect bottom) (best : view.pindexTip = top) :
    last.pindexTip = bottom := by
  induction disconnects generalizing top with
  | nil view =>
    cases path
    exact best
  | @cons view next last pindex entry block rest vResurrect found read clean others ih =>
    cases path with
    | cons below =>
      apply ih below
      rw [sound.disconnected _ _ _ _ _ _ clean, parentOf, found]
      rfl

theorem Connects.pindexTip (sound : ops.Sound genesis) (connects : Connects ops index view vConnect last vDelete) :
    last.pindexTip = vConnect.getLast?.or view.pindexTip := by
  induction connects with
  | nil view => rfl
  | @cons view next last index' pindex entry block rest vDelete same found read connected others ih =>
    rw [ih, (sound.connected _ _ _ _ _ _ read connected).1]
    cases rest with
    | nil => rfl
    | cons second rest => rw [List.getLast?_cons_cons, List.getLast?_eq_some_getLast (List.cons_ne_nil second rest)]; rfl

/-- Connecting genesis sets the pointer to it. -/
theorem connectBlocks_started (sound : ops.Sound genesis)
    (connected : connectBlocks ops reorganise pindexNew view vConnect node = (.ok (last, vDelete), node'))
    (member : genesis ∈ vConnect) : node'.pindexGenesisBlock = some genesis := by
  induction vConnect generalizing view node vDelete with
  | nil => simp at member
  | cons pindex rest ih =>
    obtain ⟨entry, block, next, more, found, read, outcome, rfl, others⟩ := connectBlocks_cons_ok connected
    rcases List.mem_cons.mp member with rfl | later
    · have set := (sound.connected _ _ _ _ _ _ read outcome).2 rfl
      have first : (node.applyResult genesis entry
          (ops.connectBlock node.mapBlockIndex entry genesis block view)).pindexGenesisBlock = some genesis := by
        rw [applyResult, set]
        rfl
      rcases (connectBlocks_ok sound others (.refl _)).2.started with kept | set
      · exact kept.trans first
      · exact set
    · exact ih others later

theorem getBestBlock_mergedTip (node : Node) {best : BlockPtr} (tip : view.pindexTip = some best) :
    (node.mergedTip view).getBestBlock = some best ∧ (node.mergedTip view).flushDB.getBestBlock = some best := by
  simp only [mergedTip, CCoinsViewCache.batchWrite, CCoinsViewCache.flushDB, CCoinsViewCache.getBestBlock, tip,
    Option.some_or, and_self]

/-- The end of `SetBestChain`. -/
theorem activate_ok
    (activated : activate ops vDisconnect vConnect vResurrect vDelete pindexNew node = (.ok (), node')) :
    ∃ entry hash mempool, relink node.mapBlockIndex vDisconnect vConnect pindexNew = some entry ∧
      entry.phashBlock = some hash ∧
      ops.updateMemPool { node with mapBlockIndex := relink node.mapBlockIndex vDisconnect vConnect }
        vResurrect vDelete = .ok mempool ∧
      node' =
        { node with
          mapBlockIndex := relink node.mapBlockIndex vDisconnect vConnect
          mempool
          hashBestChain := hash
          pindexBest := some pindexNew
          pblockindexFBBHLast := none
          nBestHeight := entry.nHeight
          nBestChainWork := entry.nChainWork } := by
  rw [activate, modify_bind, get_bind] at activated
  simp only [StateAction.bind_eq_ok, lift_apply, modify_apply, deref_eq_ok, Prod.mk.injEq,
    assertSome_eq_ok] at activated
  obtain ⟨mempool, _, ⟨updated, rfl⟩, entry, _, ⟨found, rfl⟩, hash, _, ⟨hashed, rfl⟩, -, rfl⟩ := activated
  exact ⟨entry, hash, mempool, found, hashed, updated, rfl⟩

/-- The end of `SetBestChain` comes back with true or not at all. -/
theorem activate_error (sound : ops.Sound genesis) {failure : Failure}
    (failed : activate ops vDisconnect vConnect vResurrect vDelete pindexNew node = (.error failure, node')) :
    failure.returnsFalse = false := by
  rw [activate, modify_bind, get_bind] at failed
  simp only [StateAction.bind_eq_error, lift_apply, modify_apply, deref_eq_error, Prod.mk.injEq,
    assertSome_eq_error] at failed
  rcases failed with ⟨crashed, -⟩ | ⟨mempool, _, -, ⟨-, rfl, -⟩ | ⟨entry, _, -, ⟨⟨-, rfl⟩, -⟩ | ⟨_, _, -, ⟨⟩, -⟩⟩⟩
  · exact sound.pool _ _ _ _ crashed
  · rfl
  · rfl

theorem Rooted.relink (rooted : Rooted index genesis) (vDisconnect vConnect : List BlockPtr) :
    Rooted (Node.relink index vDisconnect vConnect) genesis where
  self pindex entry found := by
    rw [relink_apply, Option.map_eq_some_iff] at found
    obtain ⟨source, there, rfl⟩ := found
    exact rooted.self pindex source there
  parent pindex entry prev found edge := by
    rw [relink_apply, Option.map_eq_some_iff] at found
    obtain ⟨source, there, rfl⟩ := found
    obtain ⟨above, indexed, height⟩ := rooted.parent pindex source prev there edge
    rw [relink_apply, indexed]
    exact ⟨_, rfl, height⟩
  root pindex entry found edge := by
    rw [relink_apply, Option.map_eq_some_iff] at found
    obtain ⟨source, there, rfl⟩ := found
    exact rooted.root pindex source there edge

/-- A path down to nothing contains a root. -/
private theorem exists_root {top bottom : Option BlockPtr} {path : List BlockPtr}
    (down : Path (parentOf index) top path bottom) (nothing : bottom = none) (start : top ≠ none) :
    ∃ root ∈ path, parentOf index root = none := by
  induction down with
  | nil top => exact absurd nothing start
  | @cons a path bottom rest ih =>
    cases edge : parentOf index a with
    | none => exact ⟨a, List.mem_cons_self .., edge⟩
    | some above =>
      obtain ⟨root, member, last⟩ := ih nothing (by rw [edge]; exact Option.some_ne_none above)
      exact ⟨root, List.mem_cons_of_mem _ member, last⟩

/-- What a successful call has done, starting from a linked chain. -/
structure Switched (ops : ChainOps) (genesis pindexNew : BlockPtr) (node node' : Node)
    (vDisconnect vConnect : List BlockPtr) (fork : Option BlockPtr) (view last : CCoinsViewCache)
    (vResurrect vDelete : List CTransaction) (linking : Node) : Prop where
  switch : Switch node.mapBlockIndex node.pindexBest pindexNew vDisconnect vConnect fork
  disconnects : Disconnects ops node.mapBlockIndex node.stagingView vDisconnect view vResurrect
  connects : Connects ops node.mapBlockIndex view vConnect last vDelete
  /-- The state when the pool is updated, apart from the coins. -/
  relinked : SameChain genesis node { linking with mapBlockIndex := node.mapBlockIndex, pcoinsTip := node.pcoinsTip }
  index : ∃ index, SameTree node.mapBlockIndex index ∧ linking.mapBlockIndex = relink index vDisconnect vConnect
  pcoinsTip : linking.pcoinsTip = node.mergedTip last ∨ linking.pcoinsTip = (node.mergedTip last).flushDB
  started : genesis ∈ vConnect → linking.pindexGenesisBlock = some genesis
  mempool : ops.updateMemPool linking vResurrect vDelete = .ok node'.mempool
  tip : ∃ entry, linking.mapBlockIndex pindexNew = some entry ∧ node' =
    { linking with
      mempool := node'.mempool
      hashBestChain := pindexNew
      pindexBest := some pindexNew
      pblockindexFBBHLast := none
      nBestHeight := entry.nHeight
      nBestChainWork := entry.nChainWork }

theorem Linked.switched (linked : Linked genesis node) (sound : ops.Sound genesis)
    (ran : setBestChain ops reorganise pindexNew node = (.ok (), node')) :
    ∃ vDisconnect vConnect fork view last vResurrect vDelete linking, Switched ops genesis pindexNew node node'
      vDisconnect vConnect fork view last vResurrect vDelete linking := by
  obtain ⟨vDisconnect, vConnect, view, last, vResurrect, vDelete, staged, flushed, stages, flushes, activated⟩ :=
    setBestChain_ok ran
  have found := stages.found
  rw [linked.coins] at found
  obtain ⟨fork, switch⟩ := findSwitch_ok linked.tree found
  obtain ⟨connects, chain⟩ := connectBlocks_ok sound stages.connected (.refl _)
  obtain ⟨-, tip, rfl, coins⟩ := flushCoins_ok flushes
  obtain ⟨entry, hash, mempool, indexed, hashed, updated, rfl⟩ := activate_ok activated
  have self := (chain.tree.rooted linked.tree).relink vDisconnect vConnect |>.self pindexNew entry indexed
  cases hashed.symm.trans self
  have merged : staged.mergedTip last = node.mergedTip last := by rw [mergedTip, chain.coins, mergedTip]
  exact ⟨vDisconnect, vConnect, fork, view, last, vResurrect, vDelete,
    { staged with pcoinsTip := tip, mapBlockIndex := relink staged.mapBlockIndex vDisconnect vConnect },
    { switch
      disconnects := disconnectBlocks_ok stages.disconnected
      connects
      relinked := { chain with tree := .refl _, coins := rfl }
      index := ⟨staged.mapBlockIndex, chain.tree, rfl⟩
      pcoinsTip := merged ▸ coins
      started := fun member =>
        show staged.pindexGenesisBlock = some genesis from connectBlocks_started sound stages.connected member
      mempool := updated
      tip := ⟨entry, indexed, rfl⟩ }⟩

namespace Switched

variable {vDisconnect vConnect : List BlockPtr} {fork : Option BlockPtr} {view last : CCoinsViewCache}
  {vResurrect vDelete : List CTransaction} {linking : Node}

/-- The chain is linked again, with the new tip. -/
theorem linked (switched : Switched ops genesis pindexNew node node' vDisconnect vConnect fork view last
    vResurrect vDelete linking) (before : Linked genesis node) (sound : ops.Sound genesis) : Linked genesis node' := by
  obtain ⟨index, same, relinked⟩ := switched.index
  have tree := (same.rooted before.tree).relink vDisconnect vConnect
  obtain ⟨entry, indexed, result⟩ := switched.tip
  have started := switched.relinked.started
  have startTip : node.stagingView.pindexTip = node.pindexBest := before.coins
  have lastTip : last.pindexTip = some pindexNew := by
    rw [switched.connects.pindexTip sound, switched.disconnects.pindexTip sound switched.switch.down startTip]
    exact switched.switch.getLast?_connect
  have best : linking.pcoinsTip.getBestBlock = some pindexNew := by
    rcases switched.pcoinsTip with merged | written
    · rw [merged]
      exact (getBestBlock_mergedTip node lastTip).1
    · rw [written]
      exact (getBestBlock_mergedTip node lastTip).2
  rw [← relinked] at tree
  have map : node'.mapBlockIndex = linking.mapBlockIndex := by rw [result]
  have tip : node'.pindexBest = some pindexNew := by rw [result]
  have coins : node'.pcoinsTip = linking.pcoinsTip := by rw [result]
  have genesisBlock : node'.pindexGenesisBlock = linking.pindexGenesisBlock := by rw [result]
  refine ⟨map ▸ tree, ?_, ?_, ?_, ?_, ?_, ?_, ?_⟩
  · have links := before.links.rewire before.tree.graded switched.switch.down switched.switch.up
    rw [map, tip, relinked, parentOf_relink, nextOf_relink (same.rooted before.tree), same.parentOf, same.nextOf]
    exact links
  · rw [coins, tip, best]
  · intro b found
    rw [tip] at found
    cases found
    exact ⟨entry, map ▸ indexed, by rw [result], by rw [result], by rw [result]⟩
  · intro absent
    rw [tip] at absent
    contradiction
  · intro _
    rw [genesisBlock]
    cases old : node.pindexBest with
    | some b =>
      rcases started with kept | set
      · exact kept.trans (before.started (by rw [old]; exact Option.some_ne_none b))
      · exact set
    | none =>
      apply switched.started
      have down := switched.switch.down
      rw [old] at down
      cases down
      obtain ⟨root, member, top⟩ := exists_root switched.switch.up rfl (Option.some_ne_none _)
      have ancestor := onChain_some.mp (switched.switch.up.onChain_iff.mpr (.inl member))
      have new : ∃ e, node.mapBlockIndex pindexNew = some e := by
        rw [relinked, relink_apply, Option.map_eq_some_iff] at indexed
        obtain ⟨source, there, -⟩ := indexed
        obtain ⟨e, there, -⟩ := same.symm.entry there
        exact ⟨e, there⟩
      obtain ⟨e, there⟩ := before.tree.indexed_of_ancestor ancestor new
      rw [parentOf, there] at top
      exact (before.tree.root root e there top).1 ▸ List.mem_reverse.mp member
  · intro pindex found
    rw [genesisBlock] at found
    rcases started with kept | set
    · exact before.origin pindex (kept ▸ found)
    · exact (Option.some.inj (set.symm.trans found)).symm
  · intro pindex found
    rw [result] at found
    contradiction

end Switched

end Node

/-! ## FindBlockByHeight

On a linked chain the two walks of `FindBlockByHeight` stay on the chain, and for a height of the
chain they end at its block.
-/

namespace Node

variable {genesis : BlockPtr} {node node' : Node} {index : BlockMap} {nHeight : ℤ}

theorem walkDown_ok {rounds : ℕ} {start low : BlockPtr} (walked : walkDown index nHeight rounds start = .ok low) :
    Ancestor (parentOf index) low start ∧ (heightOf index low : ℤ) ≤ nHeight := by
  induction rounds generalizing start with
  | zero =>
    rw [walkDown] at walked
    obtain ⟨entry, found, walked⟩ := Check.bind_eq_ok.mp walked
    have found := assertSome_eq_ok.mp found
    split at walked <;> cases walked
    next below => exact ⟨.refl _, by rwa [heightOf, found]⟩
  | succ rounds ih =>
    rw [walkDown] at walked
    obtain ⟨entry, found, walked⟩ := Check.bind_eq_ok.mp walked
    have found := assertSome_eq_ok.mp found
    split at walked
    next below =>
      cases walked
      exact ⟨.refl _, by rwa [heightOf, found]⟩
    next =>
      obtain ⟨prev, edge, walked⟩ := Check.bind_eq_ok.mp walked
      have edge := assertSome_eq_ok.mp edge
      have link := (parentOf_of_some found).trans edge
      obtain ⟨ancestor, below⟩ := ih walked
      exact ⟨ancestor.trans (.of_parent link), below⟩

/-- Walking down comes to the height, or stays where it is when that is below it. -/
theorem walkDown_returns (rooted : Rooted index genesis) (positive : 0 ≤ nHeight) (rounds : ℕ) {start : BlockPtr}
    (indexed : ∃ entry, index start = some entry) (enough : (heightOf index start : ℤ) ≤ nHeight + rounds) :
    ∃ low, walkDown index nHeight rounds start = .ok low ∧ (low = start ∨ nHeight ≤ heightOf index low) := by
  induction rounds generalizing start with
  | zero =>
    obtain ⟨entry, found⟩ := indexed
    have height := heightOf_of_some found
    have low : (entry.nHeight : ℤ) ≤ nHeight := by omega
    refine ⟨start, ?_, .inl rfl⟩
    rw [walkDown, found]
    exact if_pos low
  | succ rounds ih =>
    obtain ⟨entry, found⟩ := indexed
    have height := heightOf_of_some found
    by_cases low : (entry.nHeight : ℤ) ≤ nHeight
    · refine ⟨start, ?_, .inl rfl⟩
      rw [walkDown, found]
      exact if_pos low
    · have link := parentOf_of_some found
      cases edge : entry.pprev with
      | none =>
        have := rooted.height_root start (link.trans edge)
        omega
      | some prev =>
        have step := rooted.graded start prev (link.trans edge)
        obtain ⟨above, there, -⟩ := rooted.parent start entry prev found edge
        obtain ⟨last, walked, reached⟩ := ih ⟨above, there⟩ (by omega)
        refine ⟨last, ?_, .inr ?_⟩
        · rw [walkDown, found]
          apply (if_neg low).trans
          rw [edge]
          exact walked
        · rcases reached with rfl | reached
          · omega
          · exact reached

namespace Linked

variable (linked : Linked genesis node)
include linked

theorem indexed_of_onChain {pindex : BlockPtr} (on : OnChain (parentOf node.mapBlockIndex) node.pindexBest pindex) :
    ∃ entry, node.mapBlockIndex pindex = some entry := by
  obtain ⟨best, found, ancestor⟩ := on
  obtain ⟨entry, there, -⟩ := linked.tip best found
  exact linked.tree.indexed_of_ancestor ancestor ⟨entry, there⟩

/-- The chain has a block of every height up to the best one. -/
theorem exists_at_height (positive : 0 ≤ nHeight) (low : nHeight ≤ node.nBestHeight) :
    ∃ pindex, OnChain (parentOf node.mapBlockIndex) node.pindexBest pindex ∧
      (heightOf node.mapBlockIndex pindex : ℤ) = nHeight := by
  cases best : node.pindexBest with
  | none =>
    have := linked.idle best
    omega
  | some tip =>
    obtain ⟨entry, there, -, height, -⟩ := linked.tip tip best
    have top := heightOf_of_some there
    obtain ⟨pindex, ancestor, same⟩ := linked.tree.graded.exists_of_height_le linked.tree.height_root
      (by omega : nHeight.toNat ≤ heightOf node.mapBlockIndex tip)
    exact ⟨pindex, onChain_some.mpr ancestor, by omega⟩

/-- Below the best height a block of the chain has a `pnext`, one level higher on the chain. -/
theorem exists_next {pindex : BlockPtr} (on : OnChain (parentOf node.mapBlockIndex) node.pindexBest pindex)
    (below : (heightOf node.mapBlockIndex pindex : ℤ) < node.nBestHeight) :
    ∃ next, nextOf node.mapBlockIndex pindex = some next ∧
      OnChain (parentOf node.mapBlockIndex) node.pindexBest next ∧
      heightOf node.mapBlockIndex next = heightOf node.mapBlockIndex pindex + 1 := by
  obtain ⟨next, higher, height⟩ :=
    linked.exists_at_height (show (0 : ℤ) ≤ heightOf node.mapBlockIndex pindex + 1 by omega) (by omega)
  refine ⟨next, (linked.links pindex next).mpr ⟨higher, ?_⟩, higher, by omega⟩
  cases edge : parentOf node.mapBlockIndex next with
  | none =>
    have := linked.tree.height_root next edge
    omega
  | some above =>
    have step := linked.tree.graded next above edge
    rw [linked.tree.graded.onChain_eq on (higher.of_ancestor (.of_parent edge)) (by omega)]

theorem walkUp_ok {rounds : ℕ} {start high : BlockPtr}
    (on : OnChain (parentOf node.mapBlockIndex) node.pindexBest start)
    (walked : walkUp node.mapBlockIndex nHeight rounds start = .ok high) :
    OnChain (parentOf node.mapBlockIndex) node.pindexBest high := by
  induction rounds generalizing start with
  | zero =>
    rw [walkUp] at walked
    obtain ⟨entry, -, walked⟩ := Check.bind_eq_ok.mp walked
    split at walked <;> cases walked
    exact on
  | succ rounds ih =>
    rw [walkUp] at walked
    obtain ⟨entry, found, walked⟩ := Check.bind_eq_ok.mp walked
    have found := assertSome_eq_ok.mp found
    split at walked
    · cases walked
      exact on
    · obtain ⟨next, edge, walked⟩ := Check.bind_eq_ok.mp walked
      have edge := assertSome_eq_ok.mp edge
      have link := (nextOf_of_some found).trans edge
      exact ih ((linked.links start next).mp link).1 walked

/-- From a block at or below the height, walking up comes to it. -/
theorem walkUp_returns (low : nHeight ≤ node.nBestHeight) (rounds : ℕ) {start : BlockPtr}
    (on : OnChain (parentOf node.mapBlockIndex) node.pindexBest start)
    (below : (heightOf node.mapBlockIndex start : ℤ) ≤ nHeight)
    (enough : nHeight ≤ heightOf node.mapBlockIndex start + rounds) :
    ∃ high, walkUp node.mapBlockIndex nHeight rounds start = .ok high ∧
      (heightOf node.mapBlockIndex high : ℤ) = nHeight := by
  obtain ⟨entry, found⟩ := linked.indexed_of_onChain on
  have height := heightOf_of_some found
  induction rounds generalizing start entry with
  | zero =>
    refine ⟨start, ?_, by omega⟩
    rw [walkUp, found]
    exact if_pos (by omega)
  | succ rounds ih =>
    by_cases reached : nHeight ≤ (entry.nHeight : ℤ)
    · refine ⟨start, ?_, by omega⟩
      rw [walkUp, found]
      exact if_pos reached
    · obtain ⟨next, link, higher, step⟩ := linked.exists_next on (by omega)
      obtain ⟨above, there⟩ := linked.indexed_of_onChain higher
      obtain ⟨high, walked, same⟩ := ih higher (by omega) (by omega) above there (heightOf_of_some there)
      refine ⟨high, ?_, same⟩
      have edge : entry.pnext = some next := by rwa [nextOf, found] at link
      rw [walkUp, found]
      apply (if_neg reached).trans
      rw [edge]
      exact walked

theorem onChain_genesis (started : node.pindexBest ≠ none) :
    OnChain (parentOf node.mapBlockIndex) node.pindexBest genesis := by
  obtain ⟨best, found⟩ := Option.ne_none_iff_exists'.mp started
  obtain ⟨entry, -, -, height, -⟩ := linked.tip best found
  obtain ⟨root, on, low⟩ := linked.exists_at_height (le_refl (0 : ℤ)) (by omega)
  obtain ⟨bottom, there⟩ := linked.indexed_of_onChain on
  cases edge : bottom.pprev with
  | none => exact (linked.tree.root root bottom there edge).1 ▸ on
  | some above =>
    have link := (parentOf_of_some there).trans edge
    have := linked.tree.graded root above link
    omega

variable {pstart : BlockPtr}

/-- The pointer the lookup starts from without the last one. -/
theorem lookupStart (positive : 0 ≤ nHeight)
    (start : (if nHeight < node.nBestHeight.tdiv 2 then node.pindexGenesisBlock else node.pindexBest) = some pstart) :
    OnChain (parentOf node.mapBlockIndex) node.pindexBest pstart := by
  split at start
  next early =>
    rw [linked.origin pstart start]
    refine linked.onChain_genesis fun nothing => ?_
    rw [linked.idle nothing] at early
    exact absurd early (not_lt.mpr positive)
  next =>
    rw [start]
    exact onChain_some.mpr (.refl pstart)

theorem exists_lookupStart (positive : 0 ≤ nHeight) (low : nHeight ≤ node.nBestHeight) :
    ∃ pstart, (if nHeight < node.nBestHeight.tdiv 2 then node.pindexGenesisBlock else node.pindexBest) =
      some pstart := by
  have started : node.pindexBest ≠ none := by
    intro nothing
    have := linked.idle nothing
    omega
  split
  · exact ⟨genesis, linked.started started⟩
  · exact Option.ne_none_iff_exists'.mp started

omit linked in
theorem nearerStart_ok {chosen : BlockPtr} (ran : nearerStart nHeight pstart node = (.ok chosen, node')) :
    node' = node ∧ (chosen = pstart ∨ node.pblockindexFBBHLast = some chosen) := by
  rw [nearerStart, get_bind] at ran
  obtain ⟨start, between, read, ran⟩ := StateAction.bind_eq_ok.mp ran
  obtain ⟨-, rfl⟩ := deref_eq_ok.mp read
  cases last : between.pblockindexFBBHLast with
  | none =>
    simp only [last, pure_apply, Prod.mk.injEq, Except.ok.injEq] at ran
    exact ⟨ran.2.symm, .inl ran.1.symm⟩
  | some plast =>
    simp only [last, StateAction.bind_eq_ok, deref_eq_ok, pure_apply, Prod.mk.injEq, Except.ok.injEq] at ran
    obtain ⟨_, _, ⟨-, rfl⟩, rfl, rfl⟩ := ran
    refine ⟨rfl, ?_⟩
    split
    · exact .inr rfl
    · exact .inl rfl

theorem nearerStart_returns (on : OnChain (parentOf node.mapBlockIndex) node.pindexBest pstart) :
    ∃ chosen, nearerStart nHeight pstart node = (.ok chosen, node) ∧
      OnChain (parentOf node.mapBlockIndex) node.pindexBest chosen := by
  obtain ⟨start, indexed⟩ := linked.indexed_of_onChain on
  rw [nearerStart, get_bind, bind_of_ok (deref_some indexed)]
  cases last : node.pblockindexFBBHLast with
  | none => exact ⟨pstart, rfl, on⟩
  | some plast =>
    have onLast := linked.looked plast last
    obtain ⟨entry, there⟩ := linked.indexed_of_onChain onLast
    simp only [bind_of_ok (deref_some there)]
    refine ⟨_, rfl, ?_⟩
    split
    · exact onLast
    · exact on

/-- Whatever it finds is on the chain, and it remembers nothing else. -/
theorem findBlockByHeight_ok {found : BlockPtr} (ran : findBlockByHeight nHeight node = (.ok found, node')) :
    OnChain (parentOf node.mapBlockIndex) node.pindexBest found ∧
      node' = { node with pblockindexFBBHLast := some found } := by
  rw [findBlockByHeight, get_bind] at ran
  simp only [StateAction.bind_eq_ok, lift_apply, deref_eq_ok, modify_apply, pure_apply, Prod.mk.injEq, Except.ok.injEq,
    assertSome_eq_ok] at ran
  obtain ⟨pstart, _, ⟨start, rfl⟩, chosen, _, choice, entry, last, ⟨there, rfl⟩, below, _, ⟨down, rfl⟩, _, _,
    ⟨up, rfl⟩, _, _, ⟨-, rfl⟩, rfl, rfl⟩ := ran
  obtain ⟨rfl, origin⟩ := nearerStart_ok choice
  obtain ⟨ancestor, under⟩ := walkDown_ok down
  have on : OnChain (parentOf last.mapBlockIndex) last.pindexBest chosen := by
    rcases origin with rfl | remembered
    · exact linked.lookupStart (by omega) start
    · exact linked.looked chosen remembered
  exact ⟨linked.walkUp_ok (on.of_ancestor ancestor) up, rfl⟩

/-- Every height of the chain is found. -/
theorem findBlockByHeight_returns (positive : 0 ≤ nHeight) (low : nHeight ≤ node.nBestHeight) :
    ∃ found, findBlockByHeight nHeight node = (.ok found, { node with pblockindexFBBHLast := some found }) ∧
      OnChain (parentOf node.mapBlockIndex) node.pindexBest found ∧
      (heightOf node.mapBlockIndex found : ℤ) = nHeight := by
  obtain ⟨pstart, start⟩ := linked.exists_lookupStart positive low
  obtain ⟨chosen, choice, on⟩ := linked.nearerStart_returns (linked.lookupStart positive start)
  obtain ⟨entry, indexed⟩ := linked.indexed_of_onChain on
  have height := heightOf_of_some indexed
  obtain ⟨below, down, reached⟩ :=
    walkDown_returns linked.tree positive (entry.nHeight - nHeight).toNat ⟨entry, indexed⟩ (by omega)
  obtain ⟨ancestor, under⟩ := walkDown_ok down
  have onBelow := on.of_ancestor ancestor
  have enough : nHeight ≤ heightOf node.mapBlockIndex below + (nHeight - entry.nHeight).toNat := by
    rcases reached with rfl | reached <;> omega
  obtain ⟨found, up, same⟩ := linked.walkUp_returns low _ onBelow under enough
  refine ⟨found, ?_, linked.walkUp_ok onBelow up, same⟩
  rw [findBlockByHeight, get_bind, start, show assertSome .undefined (some pstart) = .ok pstart from rfl,
    lift_bind_ok, bind_of_ok choice, bind_of_ok (deref_some indexed), down, lift_bind_ok, up, lift_bind_ok,
    modify_bind]
  rfl

end Linked

end Node

end BitCrystal
