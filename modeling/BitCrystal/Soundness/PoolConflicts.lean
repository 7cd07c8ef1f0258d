import BitCrystal.Proofs.PoolUpdate
import BitCrystal.Soundness.TransactionIdentity

/-! # Pooled conflicts of connected transactions

After a successful `SetBestChain` the pool neither has a connected transaction nor spends an input of
one, except where `operator==` takes a pooled transaction for the connected one because they differ in
the comment alone.
-/

namespace BitCrystal

open CTxMemPool CTransaction ChainOps

variable {P : Platform}

/-- The pool has none of the transactions and spends none of their inputs. -/
def CTxMemPool.ClearOf (P : Platform) (pool : CTxMemPool) (connected : List CTransaction) : Prop :=
  ∀ h pooled, pool.mapTx h = some pooled → ∀ tx ∈ connected,
    h ≠ tx.getHash P ∧ ∀ out ∈ pooled.prevouts, out ∉ tx.prevouts

/-- A pooled transaction that differs from a connected one in the comment alone is connected itself or goes
with a conflict. -/
def CTxMemPool.TellsApart (P : Platform) (pool : CTxMemPool) (connected : List CTransaction) : Prop :=
  ∀ h pooled, pool.mapTx h = some pooled → ∀ tx ∈ connected, pooled.DifferInComment tx →
    h ∈ txidsOf P connected ∪ pool.doomedBy P ∅ connected

/-- Equality without the same txid is a difference in the comment alone. -/
theorem CTransaction.differInComment_iff (free : P.CollisionFree) {a b : CTransaction} :
    a.DifferInComment b ↔ a.eq b ∧ a.getHash P ≠ b.getHash P := by
  constructor
  · intro differ
    have alike : a.eq b := by
      rw [differ.2.1]
      exact ⟨rfl, rfl, rfl, rfl⟩
    exact ⟨alike, fun same => (serialized_eq_iff.mp (free.injective a b same)).2 differ⟩
  · rintro ⟨alike, other⟩
    by_contra same
    exact other (congrArg P.hashTx (serialized_eq_iff.mpr ⟨alike, same⟩))

namespace Node

variable {depth : ℕ} {pool pool' : CTxMemPool} {connected : List CTransaction}

/-- The loop over `vDelete` clears the pool exactly when it tells the conflicts apart. -/
theorem deleteConnected_clearOf_iff (free : P.CollisionFree) (indexed : Indexed P pool)
    (checked : ∀ tx ∈ connected, tx.checkTransaction = .ok ())
    (ran : deleteConnected P depth pool connected = .ok pool') :
    pool'.ClearOf P connected ↔ pool.TellsApart P connected := by
  have removed := deleteConnected_ok free indexed ran
  constructor
  · intro clear h pooled found tx member differ
    by_contra left
    have alike := ((differInComment_iff free).mp differ).1
    have inputs : pooled.prevouts = tx.prevouts := congrArg (List.map CTxIn.prevout) alike.2.1
    obtain ⟨out, spent⟩ : ∃ out, out ∈ tx.prevouts := by
      have nonempty := vin_ne_nil_of_checkTransaction (checked tx member)
      apply List.exists_mem_of_ne_nil
      exact fun nothing => nonempty (List.map_eq_nil_iff.mp nothing)
    obtain ⟨-, unspent⟩ := clear h pooled (removed.mapTx_eq_some.mpr ⟨found, left⟩) tx member
    exact unspent out (inputs ▸ spent) spent
  · intro apart h pooled found tx member
    obtain ⟨found, left⟩ := removed.mapTx_eq_some.mp found
    have other : h ≠ tx.getHash P := fun same => left (.inl ⟨tx, member, same.symm⟩)
    refine ⟨other, fun out spends spent => ?_⟩
    by_cases alike : pooled.eq tx
    · have hash := indexed.hash h pooled found
      have differ := (differInComment_iff free).mpr ⟨alike, fun same => other (hash ▸ same)⟩
      exact left (apart h pooled found tx member differ)
    · exact left (.inr (mem_doomedBy member found (Set.notMem_empty h) (fun there => left (.inl there))
        ⟨alike, out, spent, spends⟩))

/-- A successful call clears the pool of the connected transactions exactly when it tells their conflicts
apart, in the pool before it or among the disconnected transactions it takes back. -/
theorem setBestChain_clearOf_iff (free : P.CollisionFree) {disk : SwitchDisk} {reorganise : NodeAction Unit}
    {pindexNew : BlockPtr} {node node' : Node} (indexed : Indexed P node.mempool)
    (ran : setBestChain (.real P depth disk) reorganise pindexNew node = (.ok (), node')) :
    ∃ vDisconnect vConnect pool,
      findSwitch node.mapBlockIndex node.pcoinsTip.getBestBlock pindexNew = .ok (vDisconnect, vConnect) ∧
      resurrect P (linking node node') node.mempool
        ((real P depth disk).resurrectable node.mapBlockIndex vDisconnect) = .ok pool ∧
      (∀ h tx, pool.mapTx h = some tx → node.mempool.mapTx h = some tx ∨
        tx ∈ (real P depth disk).resurrectable node.mapBlockIndex vDisconnect) ∧
      (node'.mempool.ClearOf P ((real P depth disk).transactions vConnect) ↔
        pool.TellsApart P ((real P depth disk).transactions vConnect)) := by
  obtain ⟨vDisconnect, vConnect, view, last, pool, switched⟩ := poolSwitched ran
  obtain ⟨kept, origin⟩ := resurrect_indexed indexed switched.resurrected
  refine ⟨vDisconnect, vConnect, pool, switched.found, switched.resurrected, origin, ?_⟩
  exact deleteConnected_clearOf_iff free kept (fun tx member => switched.connects.checked member) switched.deleted

/-- The pool with one transaction. -/
private theorem indexed_single (P : Platform) (tx : CTransaction) (distinct : tx.prevouts.Nodup) :
    Indexed P (addUnchecked {} (tx.getHash P) tx) :=
  indexed_empty.addUnchecked rfl distinct fun _ _ => rfl

open TestNet in
/-- A connected transaction takes the other spender of its input out of the pool. -/
theorem setBestChain_clearOf_other :
    let tx := spending 2 [⟨7, 0⟩] [400000]
    let other := spending 3 [⟨7, 0⟩] [300000]
    let P := numbered [(coinbase 1 0).serialized, tx.serialized, other.serialized]
    let ops := real P 10 (blockOne [coinbase 1 0, tx])
    let r := setBestChain ops (pure ()) 1 (onGenesis (addUnchecked {} 3001 other))
    r.1 = .ok () ∧ r.2.mempool.ClearOf P (ops.transactions [1]) := by
  intro tx other P ops r
  have free : P.CollisionFree := collisionFree_numbered (by decide) (by decide)
  have ends : r.1 = .ok () := by decide
  obtain ⟨vDisconnect, vConnect, pool, found, resurrected, -, clear⟩ :=
    setBestChain_clearOf_iff free (indexed_single P other (by decide)) (Prod.ext ends rfl)
  have path : findSwitch (onGenesis {}).mapBlockIndex (some 0) 1 = .ok ([], [1]) := by decide
  cases path.symm.trans found
  cases resurrected
  refine ⟨ends, clear.mpr fun h pooled there tx member differ => ?_⟩
  simp only [onGenesis, addUnchecked, Function.update_apply] at there
  split at there
  · cases there
    have comment : CTransaction.TXCOMMENT_VERSION ≤ other.nVersion := differ.1
    contradiction
  · cases there

open TestNet in
/-- The pool keeps a transaction that differs from the connected one in the comment. -/
theorem setBestChain_keeps_twin : let tx := greeting [0x61]
    let twin := greeting [0x61, 0x62]
    let P := numbered [(coinbase 1 0).serialized, tx.serialized, twin.serialized]
    let node := onGenesis (addUnchecked {} (twin.getHash P) twin)
    let ops := real P 10 (blockOne [coinbase 1 0, tx])
    let r := setBestChain ops (pure ()) 1 node
    P.CollisionFree ∧ Indexed P node.mempool ∧
      findSwitch node.mapBlockIndex node.pcoinsTip.getBestBlock 1 = .ok ([], [1]) ∧
      r.1 = .ok () ∧ r.2.mempool.mapTx (twin.getHash P) = some twin ∧ tx ∈ ops.transactions [1] ∧
      ⟨7, 0⟩ ∈ tx.prevouts ∧ ⟨7, 0⟩ ∈ twin.prevouts ∧ ¬ r.2.mempool.ClearOf P (ops.transactions [1]) := by
  intro tx twin P node ops r
  have kept : r.2.mempool.mapTx (twin.getHash P) = some twin := by decide
  have connected : tx ∈ ops.transactions [1] := by decide
  refine ⟨collisionFree_numbered (by decide) (by decide), indexed_single P twin (by decide), by decide, by decide, kept,
    connected, by decide, by decide, fun clear => ?_⟩
  exact (clear _ twin kept tx connected).2 ⟨7, 0⟩ (by decide) (by decide)

end Node

end BitCrystal

/-! ## The memory pool keeps its index

Whatever sequence of operations has led to a pool, `mapNextTx` is the inverse index of the inputs of
`mapTx`, and the removals follow no dangling pointer and end.
-/

namespace BitCrystal.CTxMemPool

variable {P : Platform} {pool pool' : CTxMemPool}

/-- One operation on the pool. A failed `accept` leaves it alone. -/
inductive PoolStep (P : Platform) (pool : CTxMemPool) : CTxMemPool → Prop
  | accept (index : BlockMap) (pcoinsTip : CCoinsViewCache) (nBestHeight : ℤ) (tx : CTransaction)
      (fCheckInputs fLimitFree : Bool) {pool' : CTxMemPool}
      (done : pool.accept P index pcoinsTip nBestHeight tx fCheckInputs fLimitFree = .ok pool') : PoolStep P pool pool'
  | remove (fRecursive : Bool) (depth : ℕ) (tx : CTransaction) {pool' : CTxMemPool}
      (done : remove P fRecursive depth pool tx = .ok pool') : PoolStep P pool pool'
  | removeConflicts (depth : ℕ) (tx : CTransaction) {pool' : CTxMemPool}
      (done : removeConflicts P depth pool tx = .ok pool') : PoolStep P pool pool'
  | clear : PoolStep P pool pool.clear

/-- The pools reached from the empty one. -/
inductive PoolRun (P : Platform) : CTxMemPool → Prop
  | empty : PoolRun P {}
  | step {pool pool' : CTxMemPool} (before : PoolRun P pool) (step : PoolStep P pool pool') : PoolRun P pool'

theorem Indexed.step (free : P.CollisionFree) (indexed : Indexed P pool) (step : PoolStep P pool pool') :
    Indexed P pool' := by
  cases step with
  | accept _ _ _ _ _ _ done => exact indexed.accept done
  | remove fRecursive depth tx done =>
    cases found : pool.mapTx (tx.getHash P) with
    | none => rwa [remove_of_absent done found]
    | some pooled =>
      cases fRecursive with
      | false => exact (remove_single_ok free indexed done found).indexed
      | true => exact (remove_ok free indexed done found).indexed
  | removeConflicts depth tx done => exact (removeConflicts_ok free indexed done).indexed
  | clear => exact indexed_empty

theorem PoolRun.indexed (free : P.CollisionFree) (run : PoolRun P pool) : Indexed P pool := by
  induction run with
  | empty => exact indexed_empty
  | step _ step ih => exact ih.step free step

/-- In every reachable pool `mapNextTx` is the inverse index of the inputs of `mapTx`: no two pooled
transactions share an input and every pointer refers to a pooled transaction. With more nested calls
than pooled transactions the removals return, and the recursive one takes out exactly the
transaction and its descendants. -/
theorem index_of_run (free : P.CollisionFree) (run : PoolRun P pool) :
    (∀ out h n, pool.mapNextTx out = some ⟨h, n⟩ ↔ ∃ tx, pool.mapTx h = some tx ∧ tx.prevouts[n]? = some out) ∧
    (∀ h h' tx tx', pool.mapTx h = some tx → pool.mapTx h' = some tx' →
      (∃ out, out ∈ tx.prevouts ∧ out ∈ tx'.prevouts) → h = h') ∧
    (∀ out inpoint, pool.mapNextTx out = some inpoint → pool.mapTx inpoint.ptx ≠ none) ∧
    ∀ (tx : CTransaction) (depth : ℕ), pool.pooled.ncard < depth →
      (∃ pool', removeConflicts P depth pool tx = .ok pool') ∧
      ∃ pool', remove P true depth pool tx = .ok pool' ∧
        (∀ h ∈ Cascade.dependants pool.Spends (tx.getHash P), pool'.mapTx h = none) ∧
        ∀ h ∉ Cascade.dependants pool.Spends (tx.getHash P), pool'.mapTx h = pool.mapTx h := by
  have indexed := run.indexed free
  refine ⟨indexed.next, ?_, ?_, fun tx depth enough => ⟨removeConflicts_returns free indexed enough, ?_⟩⟩
  · rintro h h' tx tx' found found' ⟨out, member, member'⟩
    exact indexed.eq_of_mem_prevouts found found' member member'
  · rintro out ⟨h, n⟩ pointer
    obtain ⟨tx, found, -⟩ := (indexed.next out h n).mp pointer
    simp [found]
  · have bound := ncard_dependants_le indexed (tx.getHash P)
    obtain ⟨pool', done⟩ := remove_returns free indexed (bound.trans enough)
    refine ⟨pool', done, ?_⟩
    cases found : pool.mapTx (tx.getHash P) with
    | none =>
      cases remove_of_absent done found
      refine ⟨fun h reach => ?_, fun _ _ => rfl⟩
      rcases Relation.ReflTransGen.cases_head reach with rfl | ⟨_, ⟨_, _, above, -⟩, -⟩
      · exact found
      · cases found.symm.trans above
    | some pooled =>
      have removed := remove_ok free indexed done found
      exact ⟨removed.absent, removed.kept⟩

open TestNet in
/-- A transaction and its child enter the pool, and go together. -/
theorem index_of_run_chain :
    let parent := spending 2 [⟨7, 0⟩] [400000]
    let child := spending 3 [⟨2001, 0⟩] [400000]
    let P := numbered [parent.serialized, child.serialized]
    ∃ pool, PoolRun P pool ∧ pool.mapNextTx ⟨2001, 0⟩ = some ⟨3001, 0⟩ ∧
      ∀ depth, pool.pooled.ncard < depth → ∃ pool', remove P true depth pool parent = .ok pool' ∧
        pool'.mapTx 3001 = none := by
  intro parent child P
  have free : P.CollisionFree := collisionFree_numbered (by decide) (by decide)
  let view := viewOf 7 olderCoins 4
  let first := addUnchecked {} 2001 parent
  let pool := first.addUnchecked 3001 child
  have entered : accept {} P tipIndex view 200 parent true true = .ok first := rfl
  have chained : accept first P tipIndex view 200 child true true = .ok pool := rfl
  have run : PoolRun P pool := (PoolRun.empty.step (.accept _ _ _ _ _ _ entered)).step (.accept _ _ _ _ _ _ chained)
  obtain ⟨inverse, -, -, removals⟩ := index_of_run free run
  have spends : pool.Spends (parent.getHash P) 3001 := ⟨parent, child, rfl, rfl, 0, by decide, by decide⟩
  refine ⟨pool, run, (inverse _ _ _).mpr ⟨child, rfl, rfl⟩, fun depth enough => ?_⟩
  obtain ⟨-, pool', done, gone, -⟩ := removals parent depth enough
  exact ⟨pool', done, gone 3001 (.single spends)⟩

end BitCrystal.CTxMemPool
