import BitCrystal.Machine.Components
import BitCrystal.Model.TestNet
import BitCrystal.Proofs.ConnectBlock

/-! # The memory pool as an index

`mapNextTx` is the inverse index of the inputs of the pooled transactions. Entering, erasing and the
recursive removal keep it; the recursive removal takes out a transaction with everything in the pool
that depends on it, and ends because the dependants of a dependant are fewer.
-/

namespace BitCrystal

open Check Function Cascade

namespace CTxMemPool

variable {P : Platform} {pool pool' : CTxMemPool}

/-- The txids of the pooled transactions. -/
def pooled (pool : CTxMemPool) : Set Uint256 := {h | pool.mapTx h ≠ none}

/-- Transactions are under their txids, and `mapNextTx` is the inverse index of their inputs. -/
structure Indexed (P : Platform) (pool : CTxMemPool) : Prop where
  hash : ∀ h tx, pool.mapTx h = some tx → tx.getHash P = h
  next : ∀ out h n, pool.mapNextTx out = some ⟨h, n⟩ ↔
    ∃ tx, pool.mapTx h = some tx ∧ tx.prevouts[n]? = some out
  finite : pool.pooled.Finite

/-- `child` spends an output of `parent`, both pooled. -/
def Spends (pool : CTxMemPool) (parent child : Uint256) : Prop :=
  ∃ txParent tx, pool.mapTx parent = some txParent ∧ pool.mapTx child = some tx ∧
    ∃ i < txParent.vout.length, ⟨parent, i⟩ ∈ tx.prevouts

theorem indexed_empty : Indexed P {} where
  hash h tx found := by cases found
  next out h n := by simp
  finite := by simp [pooled]

namespace Indexed

variable (indexed : Indexed P pool)
include indexed

theorem next_eq_none (out : COutPoint) :
    pool.mapNextTx out = none ↔ ∀ h tx, pool.mapTx h = some tx → out ∉ tx.prevouts := by
  constructor
  · intro nothing h tx found member
    obtain ⟨n, there⟩ := List.mem_iff_getElem?.mp member
    rw [(indexed.next out h n).mpr ⟨tx, found, there⟩] at nothing
    contradiction
  · intro unspent
    rw [Option.eq_none_iff_forall_ne_some]
    rintro ⟨h, n⟩ found
    obtain ⟨tx, there, input⟩ := (indexed.next out h n).mp found
    exact unspent h tx there (List.mem_of_getElem? input)

/-- No two pooled transactions share an input. -/
theorem eq_of_mem_prevouts {h h' : Uint256} {tx tx' : CTransaction} {out : COutPoint} (found : pool.mapTx h = some tx)
    (found' : pool.mapTx h' = some tx') (member : out ∈ tx.prevouts) (member' : out ∈ tx'.prevouts) : h = h' := by
  obtain ⟨n, there⟩ := List.mem_iff_getElem?.mp member
  obtain ⟨n', there'⟩ := List.mem_iff_getElem?.mp member'
  have same := ((indexed.next out h n).mpr ⟨tx, found, there⟩).symm.trans
    ((indexed.next out h' n').mpr ⟨tx', found', there'⟩)
  cases same
  rfl

theorem wellFounded_spends (free : P.CollisionFree) : WellFounded pool.Spends := by
  refine Subrelation.wf ?_ free.acyclic
  rintro parent child ⟨_, tx, -, found, i, -, member⟩
  exact ⟨tx, indexed.hash child tx found, _, member, rfl⟩

/-- A transaction with the txid of a pooled one has its inputs and outputs. -/
theorem same_of_getHash (free : P.CollisionFree) {tx pooled : CTransaction}
    (found : pool.mapTx (tx.getHash P) = some pooled) : tx.serialized = pooled.serialized :=
  free.injective tx pooled (indexed.hash _ pooled found).symm

end Indexed

theorem addInputs_eq_some {hash : Uint256} {start : ℕ} {vin : List CTxIn} {mapNextTx : COutPoint → Option CInPoint}
    (distinct : (vin.map CTxIn.prevout).Nodup) {out : COutPoint} {h : Uint256} {n : ℕ} :
    addInputs hash start vin mapNextTx out = some ⟨h, n⟩ ↔
      (∃ i, (vin.map CTxIn.prevout)[i]? = some out ∧ h = hash ∧ n = start + i) ∨
        out ∉ vin.map CTxIn.prevout ∧ mapNextTx out = some ⟨h, n⟩ := by
  induction vin generalizing start mapNextTx with
  | nil => simp [addInputs]
  | cons txin rest ih =>
    obtain ⟨fresh, distinct⟩ := List.nodup_cons.mp (List.map_cons ▸ distinct)
    rw [addInputs, ih distinct]
    by_cases same : out = txin.prevout
    · subst same
      have elsewhere (i : ℕ) : (rest.map CTxIn.prevout)[i]? ≠ some txin.prevout := fun there => fresh (List.mem_of_getElem? there)
      constructor
      · rintro (⟨i, there, -⟩ | ⟨-, entered⟩)
        · exact absurd there (elsewhere i)
        · rw [update_self] at entered
          cases entered
          exact .inl ⟨0, rfl, rfl, rfl⟩
      · rintro (⟨_ | i, there, rfl, rfl⟩ | ⟨absent, -⟩)
        · exact .inr ⟨fresh, update_self ..⟩
        · exact absurd there (elsewhere i)
        · exact absurd (List.mem_cons_self ..) absent
    · rw [update_of_ne same, List.map_cons, List.mem_cons, not_or]
      constructor
      · rintro (⟨i, there, rfl, rfl⟩ | ⟨absent, old⟩)
        · exact .inl ⟨i + 1, there, rfl, by omega⟩
        · exact .inr ⟨⟨same, absent⟩, old⟩
      · rintro (⟨_ | i, there, rfl, rfl⟩ | ⟨⟨-, absent⟩, old⟩)
        · exact absurd (Option.some.inj there).symm same
        · exact .inl ⟨i, there, rfl, by omega⟩
        · exact .inr ⟨absent, old⟩

variable {tx : CTransaction} {index : BlockMap} {pcoinsTip : CCoinsViewCache} {nBestHeight : ℤ}
  {fCheckInputs fLimitFree : Bool}

theorem Indexed.addUnchecked (indexed : Indexed P pool) (fresh : pool.mapTx (tx.getHash P) = none)
    (distinct : tx.prevouts.Nodup) (unspent : ∀ out ∈ tx.prevouts, pool.mapNextTx out = none) :
    Indexed P (pool.addUnchecked (tx.getHash P) tx) where
  hash h other found := by
    simp only [CTxMemPool.addUnchecked, update_apply] at found
    split at found
    next same =>
      cases found
      exact same.symm
    next => exact indexed.hash h other found
  next out h n := by
    simp only [CTxMemPool.addUnchecked]
    rw [addInputs_eq_some distinct, indexed.next]
    constructor
    · rintro (⟨i, there, rfl, rfl⟩ | ⟨-, other, found, input⟩)
      · exact ⟨tx, update_self .., by rwa [Nat.zero_add]⟩
      · refine ⟨other, ?_, input⟩
        rw [update_of_ne, found]
        rintro rfl
        rw [fresh] at found
        contradiction
    · rintro ⟨other, found, input⟩
      rw [update_apply] at found
      split at found
      next same =>
        cases found
        exact .inl ⟨n, input, same, (Nat.zero_add n).symm⟩
      next =>
        refine .inr ⟨fun member => ?_, other, found, input⟩
        exact (indexed.next_eq_none out).mp (unspent out member) h other found (List.mem_of_getElem? input)
  finite := by
    refine (indexed.finite.insert (tx.getHash P)).subset fun h found => ?_
    simp only [CTxMemPool.addUnchecked, pooled, update_apply, Set.mem_ofPred_eq] at found
    split at found
    next same => exact .inl same
    next => exact .inr found

theorem Indexed.erase (indexed : Indexed P pool) {hash : Uint256} {pooled : CTransaction}
    (found : pool.mapTx hash = some pooled) : Indexed P (pool.erase hash pooled.vin) where
  hash h other there := by
    simp only [CTxMemPool.erase, update_apply] at there
    split at there
    · cases there
    · exact indexed.hash h other there
  next out h n := by
    simp only [CTxMemPool.erase, update_apply]
    change (if out ∈ pooled.prevouts then none else pool.mapNextTx out) = _ ↔ _
    split
    next spent =>
      constructor
      · rintro ⟨⟩
      · rintro ⟨tx, there, input⟩
        split at there
        · cases there
        next other => exact absurd (indexed.eq_of_mem_prevouts there found (List.mem_of_getElem? input) spent) other
    next unspent =>
      rw [indexed.next]
      constructor
      · rintro ⟨tx, there, input⟩
        refine ⟨tx, ?_, input⟩
        rw [if_neg, there]
        rintro rfl
        cases there.symm.trans found
        exact unspent (List.mem_of_getElem? input)
      · rintro ⟨tx, there, input⟩
        split at there
        · cases there
        · exact ⟨tx, there, input⟩
  finite := by
    refine indexed.finite.subset fun h found => ?_
    simp only [CTxMemPool.erase, CTxMemPool.pooled, update_apply, Set.mem_ofPred_eq] at found
    split at found
    · exact absurd rfl found
    · exact found

/-- What a transaction entered by `accept` has passed. -/
@[mk_iff]
structure Accepted (P : Platform) (index : BlockMap) (pcoinsTip : CCoinsViewCache) (nBestHeight : ℤ)
    (fCheckInputs fLimitFree : Bool) (pool : CTxMemPool) (tx : CTransaction) (pool' : CTxMemPool) : Prop where
  checked : tx.checkTransaction = .ok ()
  notCoinBase : ¬ tx.isCoinBase
  nLockTime : tx.nLockTime ≤ 2147483647
  standard : P.fTestNet = false → tx.checkStandard P nBestHeight = .ok ()
  fresh : pool.mapTx (tx.getHash P) = none
  unspent : ∀ out ∈ tx.prevouts, pool.mapNextTx out = none
  inputs : fCheckInputs = true → pool.checkPoolInputs P index pcoinsTip tx fLimitFree = .ok ()
  added : pool.addUnchecked (tx.getHash P) tx = pool'

theorem accept_eq_ok : pool.accept P index pcoinsTip nBestHeight tx fCheckInputs fLimitFree = .ok pool' ↔
      Accepted P index pcoinsTip nBestHeight fCheckInputs fLimitFree pool tx pool' := by
  rw [accepted_iff]
  cases testNet : P.fTestNet <;> cases fCheckInputs <;>
    simp [accept, testNet, CTransaction.prevouts, Unique.exists_iff, -bind_pure_comp]

/-- Accepting adds one transaction. -/
theorem Accepted.mapTx
    (accepted : Accepted P index pcoinsTip nBestHeight fCheckInputs fLimitFree pool tx pool') (h : Uint256) :
    pool'.mapTx h = if h = tx.getHash P then some tx else pool.mapTx h := by
  rw [← accepted.added]
  exact update_apply ..

theorem Indexed.accept (indexed : Indexed P pool)
    (done : pool.accept P index pcoinsTip nBestHeight tx fCheckInputs fLimitFree = .ok pool') : Indexed P pool' := by
  have accepted := accept_eq_ok.mp done
  rw [← accepted.added]
  have distinct := (CTransaction.valid_of_checkTransaction accepted.checked).distinct
  exact indexed.addUnchecked accepted.fresh distinct accepted.unspent

/-- The pool without some of its transactions. -/
structure Removed (P : Platform) (pool : CTxMemPool) (gone : Set Uint256) (pool' : CTxMemPool) : Prop where
  indexed : Indexed P pool'
  absent : ∀ h ∈ gone, pool'.mapTx h = none
  kept : ∀ h, h ∉ gone → pool'.mapTx h = pool.mapTx h

namespace Removed

variable {gone more : Set Uint256} {pool'' : CTxMemPool}

theorem refl (indexed : Indexed P pool) : Removed P pool ∅ pool := ⟨indexed, nofun, fun _ _ => rfl⟩

theorem trans (first : Removed P pool gone pool') (second : Removed P pool' more pool'') :
    Removed P pool (gone ∪ more) pool'' where
  indexed := second.indexed
  absent h member := by
    by_cases later : h ∈ more
    · exact second.absent h later
    · rw [second.kept h later]
      exact first.absent h (member.resolve_right later)
  kept h left := by
    rw [second.kept h fun later => left (.inr later), first.kept h fun earlier => left (.inl earlier)]

theorem mapTx_eq_some (removed : Removed P pool gone pool') {h : Uint256} {tx : CTransaction} :
    pool'.mapTx h = some tx ↔ pool.mapTx h = some tx ∧ h ∉ gone := by
  by_cases member : h ∈ gone
  · simp [removed.absent h member, member]
  · simp [removed.kept h member, member]

theorem spends (removed : Removed P pool gone pool') : pool'.Spends = remaining pool.Spends gone := by
  funext parent child
  refine propext ⟨?_, ?_⟩
  · rintro ⟨txParent, tx, above, below, spends⟩
    obtain ⟨above, leftAbove⟩ := removed.mapTx_eq_some.mp above
    obtain ⟨below, leftBelow⟩ := removed.mapTx_eq_some.mp below
    exact ⟨⟨txParent, tx, above, below, spends⟩, leftAbove, leftBelow⟩
  · rintro ⟨⟨txParent, tx, above, below, spends⟩, leftAbove, leftBelow⟩
    exact ⟨txParent, tx, removed.mapTx_eq_some.mpr ⟨above, leftAbove⟩, removed.mapTx_eq_some.mpr ⟨below, leftBelow⟩,
      spends⟩

end Removed

/-- The loops of `remove` and `removeConflicts`: go through outpoints and remove those spenders that
the condition hits. -/
def sweep (recurse : CTxMemPool → CTransaction → Check CTxMemPool) (hit : CTransaction → Prop) [DecidablePred hit] :
    CTxMemPool → List COutPoint → Check CTxMemPool
  | pool, [] => .ok pool
  | pool, out :: rest =>
    match pool.mapNextTx out with
    | none => sweep recurse hit pool rest
    | some inpoint => do
      let spender ← assertSome .undefined (pool.mapTx inpoint.ptx)
      let pool ← (if hit spender then recurse pool spender else .ok pool)
      sweep recurse hit pool rest

theorem removeSpenders_eq_sweep (recurse : CTxMemPool → CTransaction → Check CTxMemPool) (hash : Uint256)
    (pool : CTxMemPool) (outputs : List ℕ) :
    removeSpenders recurse hash pool outputs =
      sweep recurse (fun _ => True) pool (outputs.map fun i => ⟨hash, i⟩) := by
  induction outputs generalizing pool with
  | nil => rfl
  | cons i rest ih =>
    cases next : pool.mapNextTx ⟨hash, i⟩ with
    | none => simp only [removeSpenders, List.map_cons, sweep, ih, next]
    | some inpoint => simp only [removeSpenders, List.map_cons, sweep, ih, next, if_true]

theorem removeConflictsLoop_eq_sweep (depth : ℕ) (tx : CTransaction) (pool : CTxMemPool) (vin : List CTxIn) :
    removeConflictsLoop P depth tx pool vin =
      sweep (remove P true depth) (fun txConflict => ¬ txConflict.eq tx) pool (vin.map CTxIn.prevout) := by
  induction vin generalizing pool with
  | nil => rfl
  | cons txin rest ih =>
    cases next : pool.mapNextTx txin.prevout with
    | none => simp only [removeConflictsLoop, List.map_cons, sweep, ih, next]
    | some inpoint => simp only [removeConflictsLoop, List.map_cons, sweep, ih, next]

/-- The spenders that are hit, with their dependants. -/
def swept (pool : CTxMemPool) (hit : CTransaction → Prop) (outs : List COutPoint) : Set Uint256 :=
  {x | ∃ out ∈ outs, ∃ h tx, pool.mapTx h = some tx ∧ out ∈ tx.prevouts ∧ hit tx ∧
    x ∈ dependants pool.Spends h}

theorem closed_swept (pool : CTxMemPool) (hit : CTransaction → Prop) (outs : List COutPoint) :
    Cascade.Closed pool.Spends (pool.swept hit outs) := by
  rintro a b ⟨out, member, h, tx, found, spends, hits, reach⟩ edge
  exact ⟨out, member, h, tx, found, spends, hits, closed_dependants h a b reach edge⟩

section Sweep

variable {recurse : CTxMemPool → CTransaction → Check CTxMemPool} {hit : CTransaction → Prop} [DecidablePred hit]
  {gone : Set Uint256} {current : CTxMemPool}

/-- What removing one spender of the current pool takes out of the first one. -/
theorem Removed.step (removed : Removed P pool gone current) (closed : Cascade.Closed pool.Spends gone) {h : Uint256}
    (next : Removed P current (dependants current.Spends h) pool') :
    Removed P pool (gone ∪ dependants pool.Spends h) pool' := by
  rw [← union_dependants closed, ← removed.spends]
  exact removed.trans next

theorem sweep_ok (indexed : Indexed P pool)
    (spec : ∀ current tx pool', Indexed P current → current.mapTx (tx.getHash P) = some tx →
      recurse current tx = .ok pool' → Removed P current (dependants current.Spends (tx.getHash P)) pool')
    (removed : Removed P pool gone current) (closed : Cascade.Closed pool.Spends gone) {outs : List COutPoint}
    (ran : sweep recurse hit current outs = .ok pool') : Removed P pool (gone ∪ pool.swept hit outs) pool' := by
  induction outs generalizing current gone with
  | nil =>
    cases ran
    have nothing : pool.swept hit [] = ∅ := by simp [swept]
    rwa [nothing, Set.union_empty]
  | cons out rest ih =>
    have split : pool.swept hit (out :: rest) = pool.swept hit [out] ∪ pool.swept hit rest := by
      ext x
      simp [swept, or_and_right, exists_or]
    rw [split, ← Set.union_assoc]
    suffices round : ∃ middle, sweep recurse hit middle rest = .ok pool' ∧
        Removed P pool (gone ∪ pool.swept hit [out]) middle by
      obtain ⟨middle, ran, removed⟩ := round
      exact ih removed (Cascade.Closed.union closed (pool.closed_swept hit [out])) ran
    rw [sweep] at ran
    cases found : current.mapNextTx out with
    | none =>
      rw [found] at ran
      have nothing : gone ∪ pool.swept hit [out] = gone := by
        apply Set.union_eq_self_of_subset_right
        rintro x ⟨other, member, h, tx, there, spends, -, reach⟩
        cases List.mem_singleton.mp member
        refine closed.reach ?_ reach
        by_contra left
        exact (removed.indexed.next_eq_none out).mp found h tx (removed.mapTx_eq_some.mpr ⟨there, left⟩) spends
      exact ⟨current, ran, by rwa [nothing]⟩
    | some inpoint =>
      obtain ⟨tx, there, input⟩ := (removed.indexed.next out inpoint.ptx inpoint.n).mp found
      obtain ⟨pooled, left⟩ := removed.mapTx_eq_some.mp there
      have spends := List.mem_of_getElem? input
      simp only [found, there, assertSome, ok_bind] at ran
      obtain ⟨middle, removal, ran⟩ := bind_eq_ok.mp ran
      refine ⟨middle, ran, ?_⟩
      split at removal
      next hits =>
        have same : pool.swept hit [out] = dependants pool.Spends inpoint.ptx := by
          ext x
          constructor
          · rintro ⟨other, member, h, tx', there', spends', -, reach⟩
            cases List.mem_singleton.mp member
            rwa [indexed.eq_of_mem_prevouts pooled there' spends spends']
          · exact fun reach => ⟨out, List.mem_cons_self .., _, tx, pooled, spends, hits, reach⟩
        have hash := removed.indexed.hash _ tx there
        rw [same, ← hash]
        exact removed.step closed (spec current tx middle removed.indexed (hash ▸ there) removal)
      next misses =>
        cases removal
        have nothing : pool.swept hit [out] = ∅ := by
          rw [Set.eq_empty_iff_forall_notMem]
          rintro x ⟨other, member, h, tx', there', spends', hits, -⟩
          cases List.mem_singleton.mp member
          cases indexed.eq_of_mem_prevouts pooled there' spends spends'
          cases pooled.symm.trans there'
          exact misses hits
        rwa [nothing, Set.union_empty]

/-- The loop returns if the removals of the spenders do. -/
theorem sweep_returns (spec : ∀ current tx pool', Indexed P current → current.mapTx (tx.getHash P) = some tx →
      recurse current tx = .ok pool' →
      Removed P current (dependants current.Spends (tx.getHash P)) pool') {outs : List COutPoint}
    (returns : ∀ current gone, Removed P pool gone current → ∀ out ∈ outs, ∀ tx,
      current.mapTx (tx.getHash P) = some tx → out ∈ tx.prevouts → ∃ pool', recurse current tx = .ok pool')
    (removed : Removed P pool gone current) (closed : Cascade.Closed pool.Spends gone) :
    ∃ pool', sweep recurse hit current outs = .ok pool' := by
  induction outs generalizing current gone with
  | nil => exact ⟨current, rfl⟩
  | cons out rest ih =>
    have ih {current gone} := @ih gone current fun current gone removed out member =>
      returns current gone removed out (List.mem_cons_of_mem _ member)
    rw [sweep]
    cases found : current.mapNextTx out with
    | none => exact ih removed closed
    | some inpoint =>
      obtain ⟨tx, there, input⟩ := (removed.indexed.next out inpoint.ptx inpoint.n).mp found
      have hash := removed.indexed.hash _ tx there
      simp only [there, assertSome, ok_bind]
      split
      next hits =>
        obtain ⟨middle, removal⟩ := returns current gone removed out (List.mem_cons_self ..) tx (hash ▸ there)
          (List.mem_of_getElem? input)
        rw [removal, ok_bind]
        have step := removed.step closed (spec current tx middle removed.indexed (hash ▸ there) removal)
        exact ih step (Cascade.Closed.union closed (closed_dependants _))
      next misses => exact ih removed closed

end Sweep

/-! ## Recursive removal -/

section Remove

variable {depth : ℕ} {tx pooled : CTransaction}

theorem remove_of_absent {fRecursive : Bool} (ran : remove P fRecursive depth pool tx = .ok pool')
    (absent : pool.mapTx (tx.getHash P) = none) : pool' = pool := by
  cases depth with
  | zero => cases ran
  | succ depth =>
    simp only [remove, absent] at ran
    cases ran
    rfl

theorem removed_erase (indexed : Indexed P pool) {hash : Uint256} (found : pool.mapTx hash = some pooled) :
    Removed P pool {hash} (pool.erase hash pooled.vin) where
  indexed := indexed.erase found
  absent h member := by
    cases Set.mem_singleton_iff.mp member
    exact update_self ..
  kept h other := update_of_ne other ..

/-- The transactions the loop over the outputs removes are those that depend on one of the spenders. -/
theorem swept_outputs {hash : Uint256} (found : pool.mapTx hash = some pooled) :
    pool.swept (fun _ => True) ((List.range pooled.vout.length).map fun i => ⟨hash, i⟩) =
      beneath pool.Spends hash := by
  ext x
  constructor
  · rintro ⟨out, member, child, tx, there, spends, -, reach⟩
    obtain ⟨i, bound, rfl⟩ := List.mem_map.mp member
    exact ⟨child, ⟨pooled, tx, found, there, i, List.mem_range.mp bound, spends⟩, reach⟩
  · rintro ⟨child, ⟨_, tx, above, there, i, bound, spends⟩, reach⟩
    cases found.symm.trans above
    exact ⟨⟨hash, i⟩, List.mem_map.mpr ⟨i, List.mem_range.mpr bound, rfl⟩, child, tx, there, spends, trivial, reach⟩

theorem dependants_subset (hash : Uint256) : dependants pool.Spends hash ⊆ insert hash pool.pooled := by
  intro h reach
  rcases Relation.ReflTransGen.cases_tail reach with rfl | ⟨_, -, _, tx, -, found, -⟩
  · exact .inl rfl
  · exact .inr (by simp [pooled, found])

theorem finite_dependants (indexed : Indexed P pool) (hash : Uint256) :
    (dependants pool.Spends hash).Finite := (indexed.finite.insert hash).subset (dependants_subset hash)

theorem ncard_dependants_le (indexed : Indexed P pool) (hash : Uint256) :
    (dependants pool.Spends hash).ncard ≤ pool.pooled.ncard + 1 :=
  (Set.ncard_le_ncard (dependants_subset hash) (indexed.finite.insert hash)).trans (Set.ncard_insert_le ..)

variable (free : P.CollisionFree)
include free

/-- Without recursion only the transaction itself goes. -/
theorem remove_single_ok (indexed : Indexed P pool) (ran : remove P false depth pool tx = .ok pool')
    (found : pool.mapTx (tx.getHash P) = some pooled) : Removed P pool {tx.getHash P} pool' := by
  cases depth with
  | zero => cases ran
  | succ depth =>
    simp only [remove, found] at ran
    cases ran
    have same : tx.vin = pooled.vin := congrArg SerializedTx.vin (indexed.same_of_getHash free found)
    rw [same]
    exact removed_erase indexed found

/-- The recursive removal takes the transaction out with everything that depends on it. -/
theorem remove_ok (indexed : Indexed P pool) (ran : remove P true depth pool tx = .ok pool')
    (found : pool.mapTx (tx.getHash P) = some pooled) :
    Removed P pool (dependants pool.Spends (tx.getHash P)) pool' := by
  induction depth generalizing pool pool' tx pooled with
  | zero => cases ran
  | succ depth ih =>
    simp only [remove, found, if_true] at ran
    obtain ⟨middle, removal, ran⟩ := bind_eq_ok.mp ran
    cases ran
    have same := indexed.same_of_getHash free found
    have vin : tx.vin = pooled.vin := congrArg SerializedTx.vin same
    have vout : tx.vout = pooled.vout := congrArg SerializedTx.vout same
    rw [removeSpenders_eq_sweep, vout] at removal
    have removed := sweep_ok indexed (fun current tx pool' indexed found ran => ih indexed ran found)
      (.refl indexed) (fun _ _ => nofun) removal
    rw [Set.empty_union, swept_outputs found] at removed
    have left := not_mem_beneath (indexed.wellFounded_spends free) (a := tx.getHash P)
    have erased := removed.trans (removed_erase removed.indexed (removed.mapTx_eq_some.mpr ⟨found, left⟩))
    rwa [vin, ← beneath_union]

/-- As many nested calls as there are dependants are enough for the recursive removal. -/
theorem remove_returns (indexed : Indexed P pool) (enough : (dependants pool.Spends (tx.getHash P)).ncard ≤ depth) :
    ∃ pool', remove P true depth pool tx = .ok pool' := by
  induction depth generalizing pool tx with
  | zero =>
    have nonempty : (dependants pool.Spends (tx.getHash P)).Nonempty := ⟨_, Relation.ReflTransGen.refl⟩
    have positive := (Set.ncard_pos (finite_dependants indexed _)).mpr nonempty
    omega
  | succ depth ih =>
    cases found : pool.mapTx (tx.getHash P) with
    | none => exact ⟨pool, by simp only [remove, found]⟩
    | some pooled =>
      have vout : tx.vout = pooled.vout := congrArg SerializedTx.vout (indexed.same_of_getHash free found)
      have round : ∃ middle, sweep (remove P true depth) (fun _ => True) pool
          ((List.range pooled.vout.length).map fun i => ⟨tx.getHash P, i⟩) = .ok middle := by
        refine sweep_returns (fun current spender pool' indexed found ran => remove_ok free indexed ran found)
          ?_ (.refl indexed) (fun _ _ => nofun)
        intro current gone removed out member spender there input
        obtain ⟨i, bound, rfl⟩ := List.mem_map.mp member
        have edge : pool.Spends (tx.getHash P) (spender.getHash P) :=
          ⟨pooled, spender, found, (removed.mapTx_eq_some.mp there).1, i, List.mem_range.mp bound, input⟩
        have fewer := ncard_dependants_lt (indexed.wellFounded_spends free) (finite_dependants indexed _) edge
        have subset : dependants current.Spends (spender.getHash P) ⊆ dependants pool.Spends _ :=
          removed.spends ▸ dependants_remaining_subset
        have smaller := Set.ncard_le_ncard subset (finite_dependants indexed _)
        exact ih removed.indexed (by omega)
      obtain ⟨middle, removal⟩ := round
      refine ⟨middle.erase (tx.getHash P) tx.vin, ?_⟩
      simp only [remove, found, if_true, removeSpenders_eq_sweep, vout, removal]
      rfl

/-- `removeConflicts` takes out the other spenders of the inputs with everything that depends on them. -/
theorem removeConflicts_ok (indexed : Indexed P pool) (ran : removeConflicts P depth pool tx = .ok pool') :
    Removed P pool (pool.swept (fun txConflict => ¬ txConflict.eq tx) tx.prevouts) pool' := by
  rw [removeConflicts, removeConflictsLoop_eq_sweep] at ran
  have removed := sweep_ok indexed (fun current spender pool' indexed found ran => remove_ok free indexed ran found)
    (.refl indexed) (fun _ _ => nofun) ran
  rwa [Set.empty_union] at removed

/-- Removing conflicts returns when there are more nested calls than pooled transactions. -/
theorem removeConflicts_returns (indexed : Indexed P pool) (enough : pool.pooled.ncard < depth) :
    ∃ pool', removeConflicts P depth pool tx = .ok pool' := by
  rw [removeConflicts, removeConflictsLoop_eq_sweep]
  refine sweep_returns (fun current spender pool' indexed found ran => remove_ok free indexed ran found)
    ?_ (.refl indexed) (fun _ _ => nofun)
  intro current gone removed out member spender there input
  apply remove_returns free removed.indexed
  have subset : current.pooled ⊆ pool.pooled := fun h found => by
    obtain ⟨tx, found⟩ := Option.ne_none_iff_exists'.mp found
    simp [pooled, (removed.mapTx_eq_some.mp found).1]
  have fewer := Set.ncard_le_ncard subset indexed.finite
  have bound := ncard_dependants_le removed.indexed (spender.getHash P)
  omega

end Remove

section Stops

variable {depth : ℕ} {tx : CTransaction} {failure : Failure}

theorem sweep_error {recurse : CTxMemPool → CTransaction → Check CTxMemPool} {hit : CTransaction → Prop}
    [DecidablePred hit] {outs : List COutPoint}
    (spec : ∀ pool tx, recurse pool tx = .error failure → failure.returnsFalse = false)
    (failed : sweep recurse hit pool outs = .error failure) : failure.returnsFalse = false := by
  induction outs generalizing pool with
  | nil => cases failed
  | cons out rest ih =>
    rw [sweep] at failed
    split at failed
    · exact ih failed
    · rcases bind_eq_error.mp failed with missing | ⟨spender, -, failed⟩
      · obtain ⟨-, rfl⟩ := assertSome_eq_error.mp missing
        rfl
      · rcases bind_eq_error.mp failed with stopped | ⟨_, -, failed⟩
        · split at stopped
          · exact spec _ _ stopped
          · cases stopped
        · exact ih failed

theorem remove_error {fRecursive : Bool} (failed : remove P fRecursive depth pool tx = .error failure) :
    failure.returnsFalse = false := by
  induction depth generalizing fRecursive pool tx with
  | zero =>
    cases failed
    rfl
  | succ depth ih =>
    simp only [remove] at failed
    split at failed
    · cases failed
    · rcases bind_eq_error.mp failed with stopped | ⟨_, -, failed⟩
      · split at stopped
        · rw [removeSpenders_eq_sweep] at stopped
          exact sweep_error (fun _ _ => ih) stopped
        · cases stopped
      · cases failed

theorem removeConflicts_error (failed : removeConflicts P depth pool tx = .error failure) :
    failure.returnsFalse = false := by
  rw [removeConflicts, removeConflictsLoop_eq_sweep] at failed
  exact sweep_error (fun _ _ => remove_error) failed

end Stops

end CTxMemPool

namespace Node

variable {P : Platform} {depth : ℕ} {pool : CTxMemPool} {failure : Failure}

private theorem resurrect_error {node : Node} {vResurrect : List CTransaction}
    (failed : resurrect P node pool vResurrect = .error failure) : failure.returnsFalse = false := by
  induction vResurrect generalizing pool with
  | nil => cases failed
  | cons tx rest ih =>
    rw [resurrect] at failed
    split at failed
    · exact ih failed
    · split at failed
      · exact ih failed
      next crashed =>
        cases failed
        cases failure <;> simp_all [Failure.survived, Failure.returnsFalse]

private theorem deleteConnected_error {vDelete : List CTransaction}
    (failed : deleteConnected P depth pool vDelete = .error failure) : failure.returnsFalse = false := by
  induction vDelete generalizing pool with
  | nil => cases failed
  | cons tx rest ih =>
    rcases bind_eq_error.mp failed with crashed | ⟨_, -, failed⟩
    · exact CTxMemPool.remove_error crashed
    · rcases bind_eq_error.mp failed with crashed | ⟨_, -, failed⟩
      · exact CTxMemPool.removeConflicts_error crashed
      · exact ih failed

/-- The pool update of `SetBestChain` never makes it return false. -/
theorem updateMemPool_error {node : Node} {vResurrect vDelete : List CTransaction}
    (failed : updateMemPool P depth node vResurrect vDelete = .error failure) : failure.returnsFalse = false := by
  rcases bind_eq_error.mp failed with crashed | ⟨_, -, crashed⟩
  · exact resurrect_error crashed
  · exact deleteConnected_error crashed

end Node

end BitCrystal
