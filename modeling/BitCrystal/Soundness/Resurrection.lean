import BitCrystal.Proofs.Resurrection
import BitCrystal.Proofs.ViewSwitch

/-! # Completeness of the resurrection

A reorganisation takes back every disconnected transaction that still fits exactly when it writes the
coins to the database, which drops the spent entries, and finds parents before children in `vResurrect`.
The list is filled from the tip downwards, so a child in a higher block comes before its parent.
-/

namespace BitCrystal

open CTxMemPool CCoinsViewCache ChainOps TestNet

namespace Node

variable {P : Platform} {node : Node} {pool pool' : CTxMemPool} {vResurrect vDelete : List CTransaction}
  {stage : ℕ → CTxMemPool}

/-- What a resurrectable transaction spends in the pool is resurrectable. -/
private theorem exists_parent_of_spends (free : P.CollisionFree) (start : Indexed P node.mempool)
    (stages : Stages P node vResurrect node.mempool pool stage) {tx : CTransaction}
    (back : Resurrectable P node vResurrect vDelete tx) {above : Uint256} (spends : pool.Spends above (tx.getHash P)) :
    ∃ parent, Resurrectable P node vResurrect vDelete parent ∧ parent.getHash P = above := by
  have last : stage vResurrect.length = pool := stages.final _ le_rfl
  have indexed : Indexed P pool := last ▸ stages.indexed start _
  obtain ⟨txParent, pooled, there, found, i, -, spent⟩ := spends
  have vin : tx.vin = pooled.vin := congrArg SerializedTx.vin (indexed.same_of_getHash free found)
  obtain ⟨txin, input, place⟩ := List.mem_map.mp spent
  have hash : txin.prevout.hash = above := by rw [place]
  rw [← vin] at input
  have apart := back.apart
  cases back with
  | intro parents hashed others member unconfirmed passes _ =>
    obtain ⟨coins, ideal, -⟩ := passes.coins.inputs.resolve_left passes.notCoinBase txin input
    rw [hash] at ideal
    cases ours : parents.mapTx above with
    | some parent => exact ⟨parent, others above parent ours, hashed above parent ours⟩
    | none =>
      change ((node.pcoinsTip.getCoins above).filter _).or ((parents.mapTx above).map _) = _ at ideal
      rw [ours, Option.map_none, Option.or_none, Option.filter_eq_some_iff] at ideal
      have fresh : node.mempool.mapTx above = none := by
        rw [Option.eq_none_iff_forall_ne_some]
        intro other before
        exact (apart.pooled above other before txin.prevout (List.mem_map_of_mem input)).1 hash
      have absent := stages.getCoins_eq_none vResurrect.length fresh (by simp [last, there])
      rw [absent] at ideal
      exact nomatch ideal.1

/-- The loop over `vDelete` leaves what has been taken back. -/
private theorem kept_of_resurrectable (free : P.CollisionFree) (start : Indexed P node.mempool)
    (stages : Stages P node vResurrect node.mempool pool stage) {tx : CTransaction}
    (back : Resurrectable P node vResurrect vDelete tx) :
    tx.getHash P ∉ txidsOf P vDelete ∪ pool.doomedBy P ∅ vDelete := by
  have indexed : Indexed P pool := stages.final _ le_rfl ▸ stages.indexed start _
  rintro (⟨other, member, hash⟩ | doomed)
  · exact (back.apart.connected other member).1 hash
  · obtain ⟨deleted, member, h, other, found, ⟨-, out, spent, spends⟩, reach⟩ := exists_conflict_of_mem_doomedBy doomed
    -- Up the chain of spent outputs everything is resurrectable, the conflict included.
    have ancestors (above : Uint256) (reach : Relation.ReflTransGen pool.Spends above (tx.getHash P)) :
        ∃ ancestor, Resurrectable P node vResurrect vDelete ancestor ∧ ancestor.getHash P = above := by
      induction reach using Relation.ReflTransGen.head_induction_on with
      | refl => exact ⟨tx, back, rfl⟩
      | head edge _ ih =>
        obtain ⟨child, among, rfl⟩ := ih
        exact exists_parent_of_spends free start stages among edge
    obtain ⟨ancestor, among, rfl⟩ := ancestors h reach
    have same : ancestor.prevouts = other.prevouts :=
      congrArg (fun tx : SerializedTx => tx.vin.map CTxIn.prevout) (indexed.same_of_getHash free found)
    exact (among.apart.connected deleted member).2 out (same ▸ spends) spent

variable {depth : ℕ} {disk : SwitchDisk} {reorganise : NodeAction Unit} {pindexNew : BlockPtr} {node' : Node}

/-- A successful call has everything resurrectable in the pool exactly when the coins are written to the
database, should there be any, and parents come first in the list. -/
theorem setBestChain_resurrects_iff (free : P.CollisionFree) (indexed : Indexed P node.mempool)
    (ran : setBestChain (.real P depth disk) reorganise pindexNew node = (.ok (), node')) : ∃ vDisconnect vConnect,
      findSwitch node.mapBlockIndex node.pcoinsTip.getBestBlock pindexNew = .ok (vDisconnect, vConnect) ∧
      let vResurrect := (real P depth disk).resurrectable node.mapBlockIndex vDisconnect
      let vDelete := (real P depth disk).transactions vConnect
      ((∀ tx, Resurrectable P (linking node node') vResurrect vDelete tx → node'.mempool.mapTx (tx.getHash P) ≠ none) ↔
        ((∃ tx, Resurrectable P (linking node node') vResurrect vDelete tx) →
          (disk.conditions pindexNew).FlushDue) ∧
        ParentsFirst P (linking node node') vResurrect vDelete) := by
  obtain ⟨vDisconnect, vConnect, view, last, pool, switched⟩ := poolSwitched ran
  refine ⟨vDisconnect, vConnect, switched.found, ?_⟩
  intro vResurrect vDelete
  obtain ⟨stage, stages⟩ : ∃ stage, Stages P (linking node node') vResurrect (linking node node').mempool pool stage :=
    exists_stages switched.resurrected
  have indexed : Indexed P (linking node node').mempool := indexed
  have kept := (stages.final _ le_rfl ▸ stages.indexed indexed vResurrect.length : Indexed P pool)
  have removed := deleteConnected_ok free kept switched.deleted
  -- The entries of disconnected transactions are in the cache that is pushed to the tip.
  have cached {tx : CTransaction} (back : Resurrectable P (linking node node') vResurrect vDelete tx) :
      (node.mergedTip last).cacheCoins (tx.getHash P) ≠ none := by
    have disconnected : tx.getHash P ∈ txidsOf P ((real P depth disk).transactions vDisconnect) :=
      ⟨tx, mem_transactions_of_resurrectable back.member, rfl⟩
    obtain ⟨coins, written⟩ := Option.ne_none_iff_exists'.mp
      (switched.connects.cacheCoins (switched.disconnects.cacheCoins (.inl disconnected)))
    simp [mergedTip, batchWrite, written]
  constructor
  · intro all
    have early (tx : CTransaction) (back : Resurrectable P (linking node node') vResurrect vDelete tx) :
        pool.mapTx (tx.getHash P) ≠ none := by
      obtain ⟨pooled, found⟩ := Option.ne_none_iff_exists'.mp (all tx back)
      simp [(removed.mapTx_eq_some.mp found).1]
    refine ⟨?_, stages.parentsFirst_of_pooled free indexed early⟩
    rintro ⟨tx, back⟩
    by_contra idle
    have absent : node'.pcoinsTip.getCoins (tx.getHash P) = none := by
      apply stages.getCoins_eq_none vResurrect.length (back.fresh indexed free)
      rw [stages.final _ le_rfl]
      exact early tx back
    rw [switched.unflushed idle, getCoins, Option.or_eq_none_iff] at absent
    exact cached back absent.1
  · rintro ⟨flushed, place, order⟩ tx back
    have clean (tx : CTransaction) (back : Resurrectable P (linking node node') vResurrect vDelete tx) :
        node'.pcoinsTip.getCoins (tx.getHash P) = none := by
      have unconfirmed := unspent?_eq_none.mp back.unconfirmed
      have written := getCoins_flushDB_of_cached (cached back)
      rw [← switched.flushed (flushed ⟨tx, back⟩)] at written
      rw [Option.eq_none_iff_forall_ne_some]
      intro coins found
      have pruned := unconfirmed coins found
      rw [found] at written
      obtain ⟨-, unpruned⟩ := Option.filter_eq_some_iff.mp written.symm
      simp [pruned] at unpruned
    have entered := stages.pooled_of_place free indexed order clean (place (tx.getHash P) + 1 + vResurrect.length) back
      (by omega)
    rw [stages.final _ (by omega)] at entered
    rwa [removed.kept _ (kept_of_resurrectable free indexed stages back)]

/-- A switch from block 1 to block 3 takes the transaction of block 1 back. -/
theorem setBestChain_resurrects_lower :
    let P := numbered (forkTable [])
    let ops := real P 10 (branches [])
    let node := { switchedTo ops [0, 1] forked with mempool := {} }
    let r := setBestChain ops (pure ()) 3 node
    r.1 = .ok () ∧ ∀ tx,
      Resurrectable P (linking node r.2) (ops.resurrectable node.mapBlockIndex [1]) (ops.transactions [3]) tx →
        r.2.mempool.mapTx (tx.getHash P) ≠ none := by
  intro P ops node r
  have free : P.CollisionFree := collisionFree_numbered (by decide) (by decide)
  have ends : r.1 = .ok () := by decide
  have list : ops.resurrectable node.mapBlockIndex [1] = [lower] := by decide
  have path : findSwitch node.mapBlockIndex node.pcoinsTip.getBestBlock 3 = .ok ([1], [3]) := by decide
  have indexed : Indexed P node.mempool := indexed_empty
  obtain ⟨vDisconnect, vConnect, found, complete⟩ :=
    setBestChain_resurrects_iff free indexed (StateAction.outcome_of_fst ends)
  cases path.symm.trans found
  have only (tx : CTransaction)
      (back : Resurrectable P (linking node r.2) (ops.resurrectable node.mapBlockIndex [1]) (ops.transactions [3]) tx) :
      tx = lower := by
    have member := back.member
    rw [list] at member
    exact List.mem_singleton.mp member
  refine ⟨ends, ?_⟩
  dsimp only [r, ops]
  apply complete.mpr
  refine ⟨fun _ => ?_, fun _ => 0, fun tx back => ⟨tx, ?_, ?_, back, ?_⟩⟩
  · exact .inl rfl
  · rw [only tx back]
    decide
  · rfl
  · rintro parent again ⟨out, member, hash⟩
    rw [only tx back] at member
    rw [only parent again] at hash
    have other : ∀ out ∈ lower.prevouts, out.hash ≠ lower.getHash P := by decide
    exact absurd hash (other out member)

/-- Blocks 1 and 2 are disconnected; the transaction of block 2 is tried before the one of block 1 it spends. -/
theorem setBestChain_loses_child :
    let P := numbered (forkTable [])
    let ops := real P 10 (branches [])
    let node := { switchedTo ops [0, 1, 2] forked with mempool := {} }
    let r := setBestChain ops (pure ()) 3 node
    P.CollisionFree ∧ Indexed P node.mempool ∧ r.1 = .ok () ∧
      findSwitch node.mapBlockIndex node.pcoinsTip.getBestBlock 3 = .ok ([2, 1], [3]) ∧
      Resurrectable P (linking node r.2) (ops.resurrectable node.mapBlockIndex [2, 1]) (ops.transactions [3]) upper ∧
      r.2.mempool.mapTx (upper.getHash P) = none := by
  intro P ops node r
  have list : ops.resurrectable node.mapBlockIndex [2, 1] = [upper, lower] := by decide
  have connected : ops.transactions [3] = [coinbase 13 0] := by decide
  have testNet : P.fTestNet = true := rfl
  have empty : (linking node r.2).mempool = {} := rfl
  rw [list, connected]
  refine ⟨collisionFree_numbered (by decide) (by decide), indexed_empty, by decide, by decide, ?_, by decide⟩
  -- Either transaction passes on a view that has its input.
  have passes {tx : CTransaction} {parents : CTxMemPool} (checked : tx.checkTransaction = .ok ()) (ordinary : ¬ tx.isCoinBase)
      (nLockTime : tx.nLockTime ≤ 2147483647)
      (coins : tx.PassesCoins P (linking node r.2).mapBlockIndex (parents.unspentOn (linking node r.2).pcoinsTip)) :
      tx.PassesAccept P (linking node r.2) (parents.unspentOn (linking node r.2).pcoinsTip) :=
    ⟨checked, ordinary, nLockTime, fun off => absurd (testNet.symm.trans off) (by decide), coins⟩
  have apart {tx : CTransaction} (disconnected : ∀ other ∈ [upper, lower], other.getHash P ≠ tx.getHash P →
      ∀ out ∈ tx.prevouts, out ∉ other.prevouts)
      (connected : ∀ other ∈ [coinbase 13 0], other.getHash P ≠ tx.getHash P ∧ ∀ out ∈ tx.prevouts, out ∉ other.prevouts) :
      tx.Apart P (linking node r.2).mempool [upper, lower] [coinbase 13 0] := by
    refine ⟨fun h other found => ?_, disconnected, connected⟩
    rw [empty] at found
    cases found
  have unconfirmed {h : Uint256} (absent : (linking node r.2).pcoinsTip.getCoins h = none) :
      (linking node r.2).pcoinsTip.unspent? h = none := by
    rw [unspent?, absent, Option.bind_none]
  have first : Resurrectable P (linking node r.2) [upper, lower] [coinbase 13 0] lower := by
    apply Resurrectable.intro {}
    · simp
    · simp
    · decide
    · apply unconfirmed
      decide
    · refine passes (by decide) (by decide) (by decide) ⟨by decide, ⟨[⟨500000, opTrue⟩], by decide, .inr testNet⟩, ?_, ?_⟩
      · exact ⟨500000, 400000, by decide, by decide, by decide⟩
      · exact ⟨[], by decide⟩
    · exact apart (by decide) (by decide)
  apply Resurrectable.intro (addUnchecked {} (lower.getHash P) lower)
  · intro h parent found
    simp only [addUnchecked, Function.update_apply] at found
    split at found
    next same =>
      cases found
      exact same.symm
    · cases found
  · intro h parent found
    simp only [addUnchecked, Function.update_apply] at found
    split at found
    · cases found
      exact first
    · cases found
  · decide
  · apply unconfirmed
    decide
  · refine passes (by decide) (by decide) (by decide) ⟨by decide, ⟨[⟨400000, opTrue⟩], by decide, .inr testNet⟩, ?_, ?_⟩
    · exact ⟨400000, 400000, by decide, by decide, by decide⟩
    · exact ⟨[], by decide⟩
  · exact apart (by decide) (by decide)

end Node

end BitCrystal
