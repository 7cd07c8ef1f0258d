import BitCrystal.Soundness.MainChain
import BitCrystal.Soundness.PoolConflicts
import BitCrystal.Proofs.ViewSwitch

/-! # Where pooled transactions find their inputs

Every input of a pooled transaction is an unspent output of the chain or an output of another pooled
transaction, as long as no call of `SetBestChain` disconnects a transaction for good that a pooled one
spends, or keeps a conflict that differs from a connected transaction in the comment alone.
-/

namespace BitCrystal

open CTxMemPool CCoinsViewCache ChainOps TestNet

namespace Node

variable {P : Platform} {depth : ℕ} {node node' : Node} {pool pool' : CTxMemPool}

/-- Every input of a pooled transaction is an unspent output or one of another pooled transaction. -/
def InputsKnown (node : Node) : Prop :=
  ∀ h tx, node.mempool.mapTx h = some tx → ∀ out ∈ tx.prevouts,
    node.pcoinsTip.output? out ≠ none ∨
      out.hash ≠ h ∧ ∃ parent, node.mempool.mapTx out.hash = some parent ∧ out.n < parent.vout.length

/-- The outputs that staying transactions spend from disconnected or connected ones are outputs of a
connected or a pooled one. -/
def Provides (P : Platform) (before pool : CTxMemPool) (disconnected connected : List CTransaction) : Prop :=
  ∀ h tx, before.mapTx h = some tx → h ∉ txidsOf P connected ∪ pool.doomedBy P ∅ connected → ∀ out ∈ tx.prevouts,
    out.hash ∈ txidsOf P disconnected ∪ txidsOf P connected →
      (∃ parent ∈ connected, parent.getHash P = out.hash ∧ out.n < parent.vout.length) ∨
        ∃ parent, pool.mapTx out.hash = some parent ∧ out.n < parent.vout.length

/-- The blocks of a call and the pool after its resurrections tell conflicts apart and provide the inputs. Only the loop
over `vDelete` after them can leave a transaction without its inputs, and this pool is what it starts from; of `node'` the
resurrections read the coins and the index, which that loop does not change. -/
def SwitchFits (P : Platform) (depth : ℕ) (disk : SwitchDisk) (pindexNew : BlockPtr) (node node' : Node) : Prop :=
  ∀ vDisconnect vConnect pool,
    findSwitch node.mapBlockIndex node.pcoinsTip.getBestBlock pindexNew = .ok (vDisconnect, vConnect) →
    resurrect P (linking node node') node.mempool
      ((real P depth disk).resurrectable node.mapBlockIndex vDisconnect) = .ok pool →
    pool.TellsApart P ((real P depth disk).transactions vConnect) ∧
      Provides P node.mempool pool ((real P depth disk).transactions vDisconnect)
        ((real P depth disk).transactions vConnect)

/-- Accepting transactions and switching chains from an empty pool; in between the block index changes. -/
inductive PooledRun (P : Platform) (depth : ℕ) : Node → Prop
  | start {node : Node} (linked : Linked P.hashGenesisBlock node) (empty : node.mempool = {}) : PooledRun P depth node
  | accepted {node : Node} {tx : CTransaction} {fLimitFree : Bool} {pool : CTxMemPool} (before : PooledRun P depth node)
      (done : node.mempool.accept P node.mapBlockIndex node.pcoinsTip node.nBestHeight tx true fLimitFree = .ok pool) :
      PooledRun P depth { node with mempool := pool }
  | switched {node node' : Node} {disk : SwitchDisk} {reorganise : NodeAction Unit} {pindexNew : BlockPtr}
      (before : PooledRun P depth node)
      (ran : setBestChain (.real P depth disk) reorganise pindexNew node = (.ok (), node'))
      (fits : SwitchFits P depth disk pindexNew node node') : PooledRun P depth node'
  | indexed {node node' : Node} (before : PooledRun P depth node) (linked : Linked P.hashGenesisBlock node')
      (pool : node'.mempool = node.mempool) (coins : node'.pcoinsTip = node.pcoinsTip) : PooledRun P depth node'

/-- What holds along such a run. -/
structure Supplied (P : Platform) (node : Node) : Prop where
  linked : Linked P.hashGenesisBlock node
  indexed : Indexed P node.mempool
  inputs : node.InputsKnown
  started : ∀ h tx, node.mempool.mapTx h = some tx → node.pcoinsTip.getBestBlock ≠ none

variable {tx : CTransaction} {index : BlockMap} {pindexNew : BlockPtr} {vConnect : List BlockPtr} {disk : SwitchDisk}

/-- An input `accept` has found. -/
theorem known_of_accepted (free : P.CollisionFree) {pcoinsTip : CCoinsViewCache}
    (ordinary : ¬ tx.isCoinBase) (passes : tx.PassesCoins P index (pool.viewOn pcoinsTip)) {out : COutPoint}
    (spent : out ∈ tx.prevouts) : pcoinsTip.output? out ≠ none ∨
      out.hash ≠ tx.getHash P ∧ ∃ parent, pool.mapTx out.hash = some parent ∧ out.n < parent.vout.length := by
  obtain ⟨txin, member, rfl⟩ := List.mem_map.mp spent
  obtain ⟨coins, found, available⟩ := passes.inputs.resolve_left ordinary txin member
  obtain ⟨txout, there⟩ := CCoins.isAvailable_iff.mp available
  rw [getCoins_viewOn] at found
  cases chain : pcoinsTip.getCoins txin.prevout.hash with
  | some entry =>
    rw [chain, Option.some_or, Option.some.injEq] at found
    refine .inl ?_
    rw [output?, chain, Option.bind_some, found, there]
    exact Option.some_ne_none txout
  | none =>
    rw [chain, Option.none_or, Option.map_eq_some_iff] at found
    obtain ⟨parent, pooled, rfl⟩ := found
    refine .inr ⟨fun same => ?_, parent, pooled, ?_⟩
    · exact free.acyclic.irrefl.irrefl _ ⟨tx, rfl, txin.prevout, spent, same⟩
    · exact (List.getElem?_eq_some_iff.mp (CCoins.output?_eq_some.mp there).1).1

theorem started_of_accepted {pcoinsTip : CCoinsViewCache}
    (ordinary : ¬ tx.isCoinBase) (passes : tx.PassesCoins P index (pool.viewOn pcoinsTip)) :
    pcoinsTip.getBestBlock ≠ none := by
  obtain ⟨checks, checked⟩ := passes.scripts
  simp only [CTransaction.checkInputs, if_neg ordinary, Check.bind_eq_ok, Check.assertSome_eq_ok,
    Option.bind_eq_some_iff, getBestBlock_viewOn] at checked
  obtain ⟨-, -, tip, ⟨best, there, -⟩, -⟩ := checked
  rw [there]
  exact Option.some_ne_none best

/-- A transaction that enters finds its inputs, and the others keep theirs. -/
theorem Supplied.accepted (free : P.CollisionFree) (supplied : Supplied P node) {fLimitFree : Bool}
    (done : node.mempool.accept P node.mapBlockIndex node.pcoinsTip node.nBestHeight tx true fLimitFree = .ok pool) :
    Supplied P { node with mempool := pool } := by
  have facts := accept_eq_ok.mp done
  obtain ⟨-, passes⟩ := passesCoins_of_checkPoolInputs (facts.inputs rfl)
  have kept {h : Uint256} {other : CTransaction} (found : node.mempool.mapTx h = some other) :
      pool.mapTx h = some other := by
    rw [facts.mapTx, if_neg, found]
    rintro rfl
    exact absurd found (by simp [facts.fresh])
  refine ⟨⟨?_, ?_, ?_, ?_, ?_, ?_, ?_, ?_⟩, supplied.indexed.accept done, fun h other found out spent => ?_,
    fun _ _ _ => started_of_accepted facts.notCoinBase passes⟩
  · exact supplied.linked.tree
  · exact supplied.linked.links
  · exact supplied.linked.coins
  · exact supplied.linked.tip
  · exact supplied.linked.idle
  · exact supplied.linked.started
  · exact supplied.linked.origin
  · exact supplied.linked.looked
  · have known : node.pcoinsTip.output? out ≠ none ∨
        out.hash ≠ h ∧ ∃ parent, node.mempool.mapTx out.hash = some parent ∧ out.n < parent.vout.length := by
      change pool.mapTx h = some other at found
      rw [facts.mapTx] at found
      split at found
      next same =>
        cases found
        rw [same]
        exact known_of_accepted free facts.notCoinBase passes spent
      next => exact supplied.inputs h other found out spent
    refine known.imp id fun ⟨other, parent, found, inside⟩ => ⟨other, parent, kept found, inside⟩

/-- The pool after the resurrections: what was there before, and transactions whose inputs are known. -/
private theorem resurrect_known (free : P.CollisionFree) {vResurrect : List CTransaction}
    (indexed : Indexed P node.mempool) (ran : resurrect P node node.mempool vResurrect = .ok pool) :
    Indexed P pool ∧ (∀ h tx, node.mempool.mapTx h = some tx → pool.mapTx h = some tx) ∧
      ∀ h tx, pool.mapTx h = some tx → node.mempool.mapTx h = some tx ∨ ∀ out ∈ tx.prevouts,
        node.pcoinsTip.output? out ≠ none ∨ ∃ parent, pool.mapTx out.hash = some parent ∧ out.n < parent.vout.length := by
  refine resurrect_keeps (motive := fun current => Indexed P current ∧
    (∀ h tx, node.mempool.mapTx h = some tx → current.mapTx h = some tx) ∧
    ∀ h tx, current.mapTx h = some tx → node.mempool.mapTx h = some tx ∨ ∀ out ∈ tx.prevouts,
      node.pcoinsTip.output? out ≠ none ∨ ∃ parent, current.mapTx out.hash = some parent ∧ out.n < parent.vout.length)
    ?_ ran ⟨indexed, fun _ _ found => found, fun _ _ found => .inl found⟩
  rintro current tx next - ⟨indexed, kept, known⟩ accepted
  have facts := accept_eq_ok.mp accepted
  obtain ⟨-, passes⟩ := passesCoins_of_checkPoolInputs (facts.inputs rfl)
  have grows {h : Uint256} {other : CTransaction} (found : current.mapTx h = some other) : next.mapTx h = some other := by
    rw [facts.mapTx, if_neg, found]
    rintro rfl
    exact absurd found (by simp [facts.fresh])
  refine ⟨indexed.accept accepted, fun h other before => grows (kept h other before), fun h other found => ?_⟩
  rw [facts.mapTx] at found
  split at found
  next same =>
    cases found
    refine .inr fun out spent => ?_
    obtain chain | ⟨-, parent, pooled, inside⟩ := known_of_accepted free facts.notCoinBase passes spent
    · exact .inl chain
    · exact .inr ⟨parent, grows pooled, inside⟩
  next =>
    refine (known h other found).imp id fun known out spent => (known out spent).imp id ?_
    exact fun ⟨parent, pooled, inside⟩ => ⟨parent, grows pooled, inside⟩

/-- Without a tip there is nothing to disconnect. -/
private theorem disconnect_of_unstarted {vDisconnect : List BlockPtr}
    (found : findSwitch index none pindexNew = .ok (vDisconnect, vConnect)) : vDisconnect = [] := by
  have forked (rounds : ℕ) : findFork index rounds none pindexNew = .ok none := by
    unfold findFork
    rfl
  have nothing (rounds : ℕ) : pathTo index none rounds none = .ok [] := by
    unfold pathTo
    exact if_pos rfl
  rw [findSwitch, forked, Check.ok_bind, nothing, Check.ok_bind] at found
  obtain ⟨up, -, result⟩ := Check.bind_eq_ok.mp found
  cases result
  rfl

/-- A switch that fits supplies the inputs again. -/
theorem Supplied.switched (free : P.CollisionFree) (supplied : Supplied P node) {reorganise : NodeAction Unit}
    (ran : setBestChain (.real P depth disk) reorganise pindexNew node = (.ok (), node'))
    (fits : SwitchFits P depth disk pindexNew node node') : Supplied P node' := by
  have sound := real_sound P depth disk
  have linked : Linked P.hashGenesisBlock node' := by
    obtain ⟨_, _, _, _, _, _, _, _, moved⟩ := supplied.linked.switched sound ran
    exact moved.linked supplied.linked sound
  obtain ⟨vDisconnect, vConnect, view, last, pool, switched⟩ := poolSwitched ran
  obtain ⟨apart, provides⟩ := fits vDisconnect vConnect pool switched.found switched.resurrected
  obtain ⟨indexed, kept, known⟩ := @resurrect_known P (linking node node') pool free _ supplied.indexed switched.resurrected
  have removed := deleteConnected_ok free indexed switched.deleted
  have clear := (deleteConnected_clearOf_iff free indexed (fun tx member => switched.connects.checked member)
    switched.deleted).mpr apart
  set connected := (real P depth disk).transactions vConnect
  set disconnected := (real P depth disk).transactions vDisconnect
  -- The coins of the staging view are those of the new tip.
  have base : last.base = node.pcoinsTip.answers := switched.connects.base.trans switched.disconnects.base
  have outputs (out : COutPoint) : node'.pcoinsTip.output? out = last.output? out := by
    have merged : (node.mergedTip last).output? out = last.output? out := by
      rw [output?, getCoins_mergedTip base, output?]
    by_cases due : (disk.conditions pindexNew).FlushDue
    · rw [switched.flushed due, output?_flushDB, merged]
    · rw [switched.unflushed due, merged]
  refine ⟨linked, removed.indexed, fun h tx found out spent => ?_, fun _ _ _ => ?_⟩
  case refine_2 =>
    obtain ⟨_, _, _, _, _, _, _, _, moved⟩ := supplied.linked.switched sound ran
    obtain ⟨entry, -, result⟩ := moved.tip
    rw [linked.coins, result]
    exact Option.some_ne_none pindexNew
  have joins := clear h tx found
  obtain ⟨found, left⟩ := removed.mapTx_eq_some.mp found
  have hash := indexed.hash h tx found
  have other : out.hash ≠ h := fun same =>
    free.acyclic.irrefl.irrefl _ ⟨tx, hash, out, spent, same⟩
  have tip : node.pcoinsTip.getBestBlock ≠ none := by
    intro unstarted
    have nothing := disconnect_of_unstarted (unstarted ▸ switched.found)
    have resurrected := switched.resurrected
    rw [nothing] at resurrected
    cases resurrected
    exact supplied.started h tx found unstarted
  have started : view.getBestBlock ≠ none := by
    rw [getBestBlock, switched.disconnects.base]
    intro unstarted
    exact tip (Option.or_eq_none_iff.mp unstarted).2
  -- An output of the chain that no connected transaction spends is there afterwards.
  have stays (full : ∀ parent ∈ connected, parent.getHash P = out.hash → out.n < parent.vout.length)
      (there : view.output? out ≠ none ∨ ∃ parent ∈ connected, parent.getHash P = out.hash) :
      node'.pcoinsTip.output? out ≠ none := by
    rw [outputs]
    exact switched.connects.output?_of_unspent (fun entry found => supplied.linked.tree.pprev_genesis found) started
      (fun parent member => (joins parent member).2 out spent) full there
  have same {a b : CTransaction} (hash : a.getHash P = b.getHash P) : a.vout.length = b.vout.length :=
    congrArg (fun tx : SerializedTx => tx.vout.length) (free.injective a b hash)
  have ofConnected {parent : CTransaction} (member : parent ∈ connected) (named : parent.getHash P = out.hash)
      (inside : out.n < parent.vout.length) : node'.pcoinsTip.output? out ≠ none := by
    refine stays (fun another _ named' => ?_) (.inr ⟨parent, member, named⟩)
    rwa [same (named'.trans named.symm)]
  have ofPooled {parent : CTransaction} (pooled : pool.mapTx out.hash = some parent) (inside : out.n < parent.vout.length) :
      node'.pcoinsTip.output? out ≠ none ∨
        out.hash ≠ h ∧ ∃ parent, node'.mempool.mapTx out.hash = some parent ∧ out.n < parent.vout.length := by
    by_cases goes : out.hash ∈ txidsOf P connected
    · obtain ⟨twin, member, named⟩ := goes
      have inside' : out.n < twin.vout.length := by rwa [same (named.trans (indexed.hash _ _ pooled).symm)]
      exact .inl (ofConnected member named inside')
    · refine .inr ⟨other, parent, removed.mapTx_eq_some.mpr ⟨pooled, ?_⟩, inside⟩
      rintro (connects | doomed)
      · exact goes connects
      · -- Then the transaction that spends it would have gone, too.
        have edge : pool.Spends out.hash h := ⟨parent, tx, pooled, found, out.n, inside, spent⟩
        refine left (.inr (closed_doomedBy pool ∅ connected _ _ doomed ⟨edge, ?_, ?_⟩))
        · rwa [Set.empty_union]
        · rw [Set.empty_union]
          exact fun there => left (.inl there)
  rcases known h tx found with before | known
  · rcases supplied.inputs h tx before out spent with chain | ⟨-, parent, pooled, inside⟩
    · by_cases touched : out.hash ∈ txidsOf P disconnected ∪ txidsOf P connected
      · rcases provides h tx before left out spent touched with ⟨parent, member, named, inside⟩ | ⟨parent, pooled, inside⟩
        · exact .inl (ofConnected member named inside)
        · exact ofPooled pooled inside
      · rw [Set.mem_union, not_or] at touched
        refine .inl (stays (fun parent member named => absurd ⟨parent, member, named⟩ touched.2) (.inl ?_))
        apply switched.disconnects.output?
        · exact touched.1
        · exact chain
    · exact ofPooled (kept _ _ pooled) inside
  · rcases known out spent with chain | ⟨parent, pooled, inside⟩
    · exact .inl chain
    · exact ofPooled pooled inside

theorem PooledRun.supplied (free : P.CollisionFree) (run : PooledRun P depth node) : Supplied P node := by
  induction run with
  | start linked empty =>
    refine ⟨linked, empty ▸ indexed_empty, fun h tx found => ?_, fun h tx found => ?_⟩
    · rw [empty] at found
      cases found
    · rw [empty] at found
      cases found
  | accepted _ done ih => exact ih.accepted free done
  | switched _ ran fits ih => exact ih.switched free ran fits
  | indexed _ linked pool coins ih =>
    obtain ⟨-, indexed, inputs, started⟩ := ih
    refine ⟨linked, pool ▸ indexed, ?_, ?_⟩
    · rw [InputsKnown, pool, coins]
      exact inputs
    · rw [pool, coins]
      exact started

/-- In every state reached with switches that fit, the pooled transactions have their inputs in the chain or
in the pool. -/
theorem inputsKnown_of_run (free : P.CollisionFree) (run : PooledRun P depth node) : node.InputsKnown :=
  (run.supplied free).inputs

/-- A switch fits if what it computes does. -/
private theorem SwitchFits.of_paths {vDisconnect : List BlockPtr}
    (path : findSwitch node.mapBlockIndex node.pcoinsTip.getBestBlock pindexNew = .ok (vDisconnect, vConnect))
    (resurrected : resurrect P (linking node node') node.mempool
      ((real P depth disk).resurrectable node.mapBlockIndex vDisconnect) = .ok pool)
    (apart : pool.TellsApart P ((real P depth disk).transactions vConnect))
    (provides : Provides P node.mempool pool ((real P depth disk).transactions vDisconnect)
      ((real P depth disk).transactions vConnect)) : SwitchFits P depth disk pindexNew node node' := by
  intro others others' pool' found resurrected'
  cases path.symm.trans found
  cases resurrected.symm.trans resurrected'
  exact ⟨apart, provides⟩

/-- An extension of the chain fits an empty pool. -/
private theorem switchFits_of_empty (empty : node.mempool = {})
    (path : findSwitch node.mapBlockIndex node.pcoinsTip.getBestBlock pindexNew = .ok ([], vConnect)) :
    SwitchFits P depth disk pindexNew node node' := by
  apply SwitchFits.of_paths path rfl
  · rw [empty]
    exact fun _ _ found => absurd found.symm (Option.some_ne_none _)
  · rw [empty]
    exact fun _ _ found => absurd found.symm (Option.some_ne_none _)

/-- The fork without further transactions, with genesis and block 1 connected. -/
def forkNet : Platform := numbered (forkTable [])

def forkOps : ChainOps := .real forkNet 10 (branches [])

def firstConnected : Node := switchedTo forkOps [0, 1] forked

/-- The same with a pooled transaction that spends an output of block 1. -/
def upperPooled : Node :=
  { firstConnected with mempool := firstConnected.mempool.addUnchecked (upper.getHash forkNet) upper }

private theorem pooledRun_upperPooled : PooledRun forkNet 10 upperPooled := by
  have run : PooledRun forkNet 10 (switchedTo forkOps [0] forked) := by
    have ends : (setBestChain forkOps (pure ()) 0 forked).1 = .ok () := by decide
    apply PooledRun.switched (.start unstarted_forked.linked rfl) (StateAction.outcome_of_fst ends)
    have path : findSwitch forked.mapBlockIndex forked.pcoinsTip.getBestBlock 0 = .ok ([], [0]) := by decide
    exact switchFits_of_empty rfl path
  have run : PooledRun forkNet 10 firstConnected := by
    have ends : (setBestChain forkOps (pure ()) 1 (switchedTo forkOps [0] forked)).1 = .ok () := by decide
    apply PooledRun.switched run (StateAction.outcome_of_fst ends)
    have path : findSwitch (switchedTo forkOps [0] forked).mapBlockIndex
      (switchedTo forkOps [0] forked).pcoinsTip.getBestBlock 1 = .ok ([], [1]) := by decide
    exact switchFits_of_empty rfl path
  have accepted : firstConnected.mempool.accept forkNet firstConnected.mapBlockIndex firstConnected.pcoinsTip
      firstConnected.nBestHeight upper true true = .ok upperPooled.mempool :=
    accept_eq_ok.mpr
      ⟨by decide, by decide, by decide, fun off => absurd off (by decide), by decide, by decide, by decide, rfl⟩
  exact run.accepted accepted

/-- Block 3 replaces block 1, whose transaction is pooled again. -/
theorem inputsKnown_of_run_replaced :
    let r := setBestChain forkOps (pure ()) 3 upperPooled
    r.1 = .ok () ∧ r.2.mempool.mapTx (lower.getHash forkNet) = some lower ∧
      r.2.mempool.mapTx (upper.getHash forkNet) = some upper ∧ r.2.InputsKnown := by
  intro r
  have free : forkNet.CollisionFree := collisionFree_numbered (by decide) (by decide)
  have ends : r.1 = .ok () := by decide
  have path : findSwitch upperPooled.mapBlockIndex upperPooled.pcoinsTip.getBestBlock 3 = .ok ([1], [3]) := by decide
  have resurrected : resurrect forkNet (linking upperPooled r.2) upperPooled.mempool
      (forkOps.resurrectable upperPooled.mapBlockIndex [1]) =
        .ok (upperPooled.mempool.addUnchecked (lower.getHash forkNet) lower) := by
    have again : upperPooled.mempool.accept forkNet r.2.mapBlockIndex r.2.pcoinsTip upperPooled.nBestHeight lower true false =
        .ok (upperPooled.mempool.addUnchecked (lower.getHash forkNet) lower) :=
      accept_eq_ok.mpr
        ⟨by decide, by decide, by decide, fun off => absurd off (by decide), by decide, by decide, by decide, rfl⟩
    have one : forkOps.resurrectable upperPooled.mapBlockIndex [1] = [lower] := by decide
    rw [one]
    simp only [resurrect, linking, again]
  have empty : firstConnected.mempool = {} := rfl
  have one {h : Uint256} {tx : CTransaction} (found : upperPooled.mempool.mapTx h = some tx) :
      h = upper.getHash forkNet ∧ tx = upper := by
    rw [upperPooled, empty] at found
    simpa [addUnchecked, Function.update_apply, eq_comm] using found
  have two {h : Uint256} {tx : CTransaction}
      (found : (upperPooled.mempool.addUnchecked (lower.getHash forkNet) lower).mapTx h = some tx) :
      tx = upper ∨ tx = lower := by
    simp only [addUnchecked, Function.update_apply] at found
    split at found
    next => exact .inr (Option.some.inj found).symm
    next => exact .inl (one found).2
  refine ⟨ends, by decide, by decide, inputsKnown_of_run free (pooledRun_upperPooled.switched (StateAction.outcome_of_fst ends)
    (.of_paths path resurrected ?_ ?_))⟩
  · intro h pooled found tx connects differs
    have others : ∀ tx ∈ forkOps.transactions [3], ¬ upper.DifferInComment tx ∧ ¬ lower.DifferInComment tx := by decide
    obtain ⟨notUpper, notLower⟩ := others tx connects
    rcases two found with rfl | rfl
    · exact absurd differs notUpper
    · exact absurd differs notLower
  · intro h tx found _ out spent _
    rcases one found with ⟨rfl, rfl⟩
    cases List.mem_singleton.mp spent
    exact .inr ⟨lower, by decide, by decide⟩

private theorem not_inputsKnown_of_missing {h : Uint256} {out : COutPoint}
    (found : node.mempool.mapTx h = some tx) (spent : out ∈ tx.prevouts)
    (coins : node.pcoinsTip.getCoins out.hash = none) (gone : node.mempool.mapTx out.hash = none) :
    ¬ node.InputsKnown := by
  intro known
  rcases known h tx found out spent with chain | ⟨-, parent, pooled, -⟩
  · rw [output?, coins] at chain
    exact chain rfl
  · rw [gone] at pooled
    cases pooled

/-- Block 3 spends what the transaction of block 1 spends; a transaction that spends its output stays pooled. -/
theorem not_inputsKnown_orphaned :
    let rival := spending 4 [⟨7, 0⟩] [300000]
    let P := numbered (forkTable [rival])
    let ops := real P 10 (branches [rival])
    let node := switchedTo ops [0, 1] forked
    let pool := node.mempool.addUnchecked (upper.getHash P) upper
    let r := setBestChain ops (pure ()) 3 { node with mempool := pool }
    P.CollisionFree ∧ Linked 0 forked ∧ (setBestChain ops (pure ()) 0 forked).1 = .ok () ∧
      (setBestChain ops (pure ()) 1 (switchedTo ops [0] forked)).1 = .ok () ∧
      node.mempool.accept P node.mapBlockIndex node.pcoinsTip node.nBestHeight upper true true = .ok pool ∧
      r.1 = .ok () ∧ ¬ r.2.InputsKnown := by
  intro rival P ops node pool r
  have accepted : node.mempool.accept P node.mapBlockIndex node.pcoinsTip node.nBestHeight upper true true = .ok pool :=
    accept_eq_ok.mpr
      ⟨by decide, by decide, by decide, fun off => absurd off (by decide), by decide, by decide, by decide, rfl⟩
  refine ⟨collisionFree_numbered (by decide) (by decide), unstarted_forked.linked, by decide, by decide, accepted,
    by decide, fun known => ?_⟩
  have pooled : r.2.mempool.mapTx (upper.getHash P) = some upper := by decide
  have spent : r.2.pcoinsTip.getCoins (COutPoint.mk 2001 0).hash = none := by decide
  have gone : r.2.mempool.mapTx (COutPoint.mk 2001 0).hash = none := by decide
  have input : COutPoint.mk 2001 0 ∈ upper.prevouts := by decide
  exact not_inputsKnown_of_missing pooled input spent gone known

end Node

end BitCrystal
