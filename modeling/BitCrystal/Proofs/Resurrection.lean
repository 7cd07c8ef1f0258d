import BitCrystal.Proofs.PoolUpdate
import Mathlib.Order.Lattice.Nat

/-! # Taking disconnected transactions back

The loop over `vResurrect` goes through stages. A transaction with its inputs in the chain or among the
others that can be taken back enters when its place in the list comes behind theirs, and only then.
-/

namespace BitCrystal

open CTxMemPool

/-- The coins with unspent outputs and, under the other txids, the outputs of some transactions. -/
def CTxMemPool.unspentOn (parents : CTxMemPool) (pcoinsTip : CCoinsViewCache) : CCoinsViewCache where
  base := parents.viewMemPool
    ⟨fun h => (pcoinsTip.getCoins h).filter fun coins => ¬ coins.isPruned, pcoinsTip.getBestBlock⟩

/-- The transaction shares no input with a pooled, another disconnected or a connected one, spends no
output of a pooled one and is not connected itself. -/
structure CTransaction.Apart (P : Platform) (pool : CTxMemPool) (vResurrect vDelete : List CTransaction)
    (tx : CTransaction) : Prop where
  pooled : ∀ h other, pool.mapTx h = some other → ∀ out ∈ tx.prevouts, out.hash ≠ h ∧ out ∉ other.prevouts
  disconnected : ∀ other ∈ vResurrect, other.getHash P ≠ tx.getHash P → ∀ out ∈ tx.prevouts, out ∉ other.prevouts
  connected : ∀ other ∈ vDelete, other.getHash P ≠ tx.getHash P ∧ ∀ out ∈ tx.prevouts, out ∉ other.prevouts

/-- A disconnected transaction that is not part of the new chain, passes the checks of `accept` on coins
that are unspent in the new chain or outputs of other such transactions, and conflicts with nothing. -/
inductive Resurrectable (P : Platform) (node : Node) (vResurrect vDelete : List CTransaction) : CTransaction → Prop
  | intro {tx : CTransaction} (parents : CTxMemPool)
      (hashed : ∀ h parent, parents.mapTx h = some parent → parent.getHash P = h)
      (others : ∀ h parent, parents.mapTx h = some parent → Resurrectable P node vResurrect vDelete parent)
      (member : tx ∈ vResurrect) (unconfirmed : node.pcoinsTip.unspent? (tx.getHash P) = none)
      (passes : tx.PassesAccept P node (parents.unspentOn node.pcoinsTip))
      (apart : tx.Apart P node.mempool vResurrect vDelete) : Resurrectable P node vResurrect vDelete tx

/-- Each resurrectable transaction has a place in the list behind those it spends. -/
def ParentsFirst (P : Platform) (node : Node) (vResurrect vDelete : List CTransaction) : Prop :=
  ∃ place : Uint256 → ℕ, ∀ tx, Resurrectable P node vResurrect vDelete tx →
    ∃ listed, vResurrect[place (tx.getHash P)]? = some listed ∧ listed.getHash P = tx.getHash P ∧
      Resurrectable P node vResurrect vDelete listed ∧
      ∀ parent, Resurrectable P node vResurrect vDelete parent → (∃ out ∈ listed.prevouts, out.hash = parent.getHash P) →
        place (parent.getHash P) < place (tx.getHash P)

namespace Node

variable {P : Platform} {node : Node} {pool pool' : CTxMemPool} {vResurrect vDelete : List CTransaction}
  {stage : ℕ → CTxMemPool}

/-- The pool before each round of the loop. -/
structure Stages (P : Platform) (node : Node) (vResurrect : List CTransaction) (pool pool' : CTxMemPool)
    (stage : ℕ → CTxMemPool) : Prop where
  start : stage 0 = pool
  final : ∀ n, vResurrect.length ≤ n → stage n = pool'
  round : ∀ n tx, vResurrect[n]? = some tx →
    (stage n).accept P node.mapBlockIndex node.pcoinsTip node.nBestHeight tx true false = .ok (stage (n + 1)) ∨
      stage (n + 1) = stage n ∧ ∀ next,
        (stage n).accept P node.mapBlockIndex node.pcoinsTip node.nBestHeight tx true false ≠ .ok next

theorem exists_stages (ran : resurrect P node pool vResurrect = .ok pool') :
    ∃ stage, Stages P node vResurrect pool pool' stage := by
  induction vResurrect generalizing pool with
  | nil =>
    cases ran
    exact ⟨fun _ => pool', rfl, fun _ _ => rfl, by simp⟩
  | cons first rest ih =>
    -- The stages of the rest, one round later.
    have later {next : CTxMemPool} (ran : resurrect P node next rest = .ok pool')
        (here : pool.accept P node.mapBlockIndex node.pcoinsTip node.nBestHeight first true false = .ok next ∨
          next = pool ∧ ∀ other,
            pool.accept P node.mapBlockIndex node.pcoinsTip node.nBestHeight first true false ≠ .ok other) :
        ∃ stage, Stages P node (first :: rest) pool pool' stage := by
      obtain ⟨stage, start, final, round⟩ := ih ran
      refine ⟨fun n => n.casesOn pool stage, rfl, fun n bound => ?_, fun n tx listed => ?_⟩
      · cases n with
        | zero => simp at bound
        | succ n => exact final n (Nat.le_of_succ_le_succ bound)
      · cases n with
        | zero =>
          cases listed
          rw [← start] at here
          exact here
        | succ n => exact round n tx listed
    rw [resurrect] at ran
    split at ran
    next entered accepted => exact later ran (.inl accepted)
    next failure refused =>
      split at ran
      · refine later ran (.inr ⟨rfl, fun other accepted => ?_⟩)
        cases refused.symm.trans accepted
      · cases ran

namespace Stages

variable (stages : Stages P node vResurrect pool pool' stage)
include stages

/-- A round enters one transaction of the list or leaves the pool alone. -/
theorem step (n : ℕ) : stage (n + 1) = stage n ∨ ∃ tx, vResurrect[n]? = some tx ∧
    (stage n).accept P node.mapBlockIndex node.pcoinsTip node.nBestHeight tx true false = .ok (stage (n + 1)) := by
  cases listed : vResurrect[n]? with
  | none =>
    have bound : vResurrect.length ≤ n := List.getElem?_eq_none_iff.mp listed
    exact .inl ((stages.final (n + 1) (by omega)).trans (stages.final n bound).symm)
  | some tx =>
    rcases stages.round n tx listed with accepted | ⟨same, -⟩
    · exact .inr ⟨tx, rfl, accepted⟩
    · exact .inl same

/-- Nothing leaves the pool. -/
theorem mono {m n : ℕ} (later : m ≤ n) {h : Uint256} (there : (stage m).mapTx h ≠ none) : (stage n).mapTx h ≠ none := by
  induction n, later using Nat.le_induction with
  | base => exact there
  | succ n _ ih =>
    rcases stages.step n with same | ⟨tx, -, accepted⟩
    · rwa [same]
    · rw [(accept_eq_ok.mp accepted).mapTx]
      split
      · exact Option.some_ne_none tx
      · exact ih

theorem indexed (indexed : Indexed P pool) (n : ℕ) : Indexed P (stage n) := by
  induction n with
  | zero => rwa [stages.start]
  | succ n ih =>
    rcases stages.step n with same | ⟨tx, -, accepted⟩
    · rwa [same]
    · exact ih.accept accepted

theorem origin (n : ℕ) {h : Uint256} {tx : CTransaction} (there : (stage n).mapTx h = some tx) :
    pool.mapTx h = some tx ∨ tx ∈ vResurrect := by
  induction n with
  | zero => exact .inl (stages.start ▸ there)
  | succ n ih =>
    rcases stages.step n with same | ⟨other, listed, accepted⟩
    · exact ih (same ▸ there)
    · rw [(accept_eq_ok.mp accepted).mapTx] at there
      split at there
      · cases there
        exact .inr (List.mem_of_getElem? listed)
      · exact ih there

/-- A transaction that is in the final pool only has entered in the round before which it was absent. -/
theorem entered {h : Uint256} {n : ℕ} (before : (stage n).mapTx h = none) (after : (stage (n + 1)).mapTx h ≠ none) :
    ∃ tx, vResurrect[n]? = some tx ∧ tx.getHash P = h ∧
      (stage n).accept P node.mapBlockIndex node.pcoinsTip node.nBestHeight tx true false = .ok (stage (n + 1)) := by
  rcases stages.step n with same | ⟨tx, listed, accepted⟩
  · exact absurd (same ▸ before) after
  · refine ⟨tx, listed, ?_, accepted⟩
    by_contra other
    rw [(accept_eq_ok.mp accepted).mapTx, if_neg (Ne.symm other)] at after
    exact after before

end Stages

/-- The view of `accept` has the coins of the ideal one where the parents are pooled and the chain has no
entry for them. -/
theorem getCoins_viewOn_of_unspentOn (free : P.CollisionFree) (indexed : Indexed P pool) {pcoinsTip : CCoinsViewCache}
    {parents : CTxMemPool} {h : Uint256} {coins : CCoins} (ideal : (parents.unspentOn pcoinsTip).getCoins h = some coins)
    (ready : ∀ parent, parents.mapTx h = some parent →
      parent.getHash P = h ∧ pcoinsTip.getCoins h = none ∧ pool.mapTx h ≠ none) :
    (pool.viewOn pcoinsTip).getCoins h = some coins := by
  change ((pcoinsTip.getCoins h).filter _).or ((parents.mapTx h).map fun tx => CCoins.ofTx tx MEMPOOL_HEIGHT) = _ at ideal
  rw [getCoins_viewOn]
  cases found : parents.mapTx h with
  | none =>
    rw [found, Option.map_none, Option.or_none, Option.filter_eq_some_iff] at ideal
    rw [ideal.1, Option.some_or]
  | some parent =>
    obtain ⟨hash, absent, pooled⟩ := ready parent found
    obtain ⟨tx, there⟩ := Option.ne_none_iff_exists'.mp pooled
    rw [found, absent] at ideal
    rw [absent, there]
    have same := free.injective tx parent ((indexed.hash h tx there).trans hash.symm)
    rw [← ideal]
    exact congrArg some (CCoins.ofTx_congr same MEMPOOL_HEIGHT)

namespace Stages

variable (stages : Stages P node vResurrect node.mempool pool' stage)
include stages

/-- The inputs of a transaction are seen as in the ideal view when its parents have been taken back. -/
private theorem agree (free : P.CollisionFree) (start : Indexed P node.mempool)
    (clean : ∀ tx, Resurrectable P node vResurrect vDelete tx → node.pcoinsTip.getCoins (tx.getHash P) = none)
    {tx : CTransaction} {parents : CTxMemPool} (hashed : ∀ h parent, parents.mapTx h = some parent → parent.getHash P = h)
    (others : ∀ h parent, parents.mapTx h = some parent → Resurrectable P node vResurrect vDelete parent)
    (ordinary : ¬ tx.isCoinBase) (inputs : tx.haveInputs (parents.unspentOn node.pcoinsTip)) {n : ℕ}
    (ready : ∀ parent, Resurrectable P node vResurrect vDelete parent →
      (∃ out ∈ tx.prevouts, out.hash = parent.getHash P) → (stage n).mapTx (parent.getHash P) ≠ none) :
    ∀ txin ∈ tx.vin, ((stage n).viewOn node.pcoinsTip).getCoins txin.prevout.hash =
      (parents.unspentOn node.pcoinsTip).getCoins txin.prevout.hash := by
  intro txin member
  obtain ⟨coins, ideal, -⟩ := inputs.resolve_left ordinary txin member
  rw [ideal]
  refine getCoins_viewOn_of_unspentOn free (stages.indexed start n) ideal fun parent found => ?_
  have hash := hashed _ parent found
  have back := others _ parent found
  refine ⟨hash, hash ▸ clean parent back, ?_⟩
  rw [← hash]
  exact ready parent back ⟨txin.prevout, List.mem_map_of_mem member, hash.symm⟩

/-- With places behind those of the parents and no leftover entries, everything resurrectable enters in time. -/
theorem pooled_of_place (free : P.CollisionFree) (start : Indexed P node.mempool) {place : Uint256 → ℕ}
    (order : ∀ tx, Resurrectable P node vResurrect vDelete tx →
      ∃ listed, vResurrect[place (tx.getHash P)]? = some listed ∧ listed.getHash P = tx.getHash P ∧
        Resurrectable P node vResurrect vDelete listed ∧
        ∀ parent, Resurrectable P node vResurrect vDelete parent →
          (∃ out ∈ listed.prevouts, out.hash = parent.getHash P) → place (parent.getHash P) < place (tx.getHash P))
    (clean : ∀ tx, Resurrectable P node vResurrect vDelete tx → node.pcoinsTip.getCoins (tx.getHash P) = none)
    (n : ℕ) {tx : CTransaction} (back : Resurrectable P node vResurrect vDelete tx) (behind : place (tx.getHash P) < n) :
    (stage n).mapTx (tx.getHash P) ≠ none := by
  induction n generalizing tx with
  | zero => omega
  | succ n ih =>
    by_cases early : (stage n).mapTx (tx.getHash P) = none
    case neg => exact stages.mono (Nat.le_succ n) early
    have here : place (tx.getHash P) = n := by
      by_contra other
      exact ih back (by omega) early
    obtain ⟨listed, there, hash, again, parentsFirst⟩ := order tx back
    rw [here] at there parentsFirst
    rw [← hash] at early ⊢
    have absent := clean listed again
    obtain ⟨parents, hashed, others, member, -, passes, apart⟩ := again
    have agree := stages.agree free start clean hashed others passes.notCoinBase passes.coins.inputs
      fun parent back spent => ih back (parentsFirst parent back spent)
    have accepted := accept_eq_ok_iff.mpr
      (⟨{ passes with coins := passes.coins.congr agree rfl }, ?absent, ?unspent, rfl⟩ :
        listed.PassesAccept P node ((stage n).viewOn node.pcoinsTip) ∧ _)
    case absent => simp [CCoinsViewCache.haveCoins, absent, early]
    case unspent =>
      intro out spent
      rw [(stages.indexed start n).next_eq_none]
      intro h other found spends
      rcases stages.origin n found with before | queued
      · exact (apart.pooled h other before out spent).2 spends
      · refine apart.disconnected other queued (fun same => ?_) out spent spends
        rw [← same, (stages.indexed start n).hash h other found] at early
        exact absurd found (by simp [early])
    rcases stages.round n listed there with entered | ⟨-, refused⟩
    · rw [(accept_eq_ok.mp entered).mapTx, if_pos rfl]
      exact Option.some_ne_none listed
    · exact absurd accepted (refused _)

/-- A pooled transaction was there before or had no entry in the chain. -/
theorem getCoins_eq_none (n : ℕ) {h : Uint256} (fresh : node.mempool.mapTx h = none)
    (there : (stage n).mapTx h ≠ none) : node.pcoinsTip.getCoins h = none := by
  induction n with
  | zero =>
    rw [stages.start] at there
    exact absurd fresh there
  | succ n ih =>
    by_cases before : (stage n).mapTx h = none
    case neg => exact ih before
    obtain ⟨tx, -, rfl, accepted⟩ := stages.entered before there
    have absent := (accept_eq_ok_iff.mp accepted).2.1
    simp only [CCoinsViewCache.haveCoins, getCoins_viewOn, Option.isSome_eq_false_iff, Option.isNone_iff_eq_none,
      Option.or_eq_none_iff] at absent
    exact absent.1

end Stages

end Node

namespace Resurrectable

variable {P : Platform} {node : Node} {vResurrect vDelete : List CTransaction} {tx : CTransaction}

section

variable (back : Resurrectable P node vResurrect vDelete tx)
include back

theorem apart : tx.Apart P node.mempool vResurrect vDelete := by
  cases back with
  | intro parents hashed others member unconfirmed passes apart => exact apart

theorem member : tx ∈ vResurrect := by
  cases back with
  | intro parents hashed others member unconfirmed passes apart => exact member

theorem unconfirmed : node.pcoinsTip.unspent? (tx.getHash P) = none := by
  cases back with
  | intro parents hashed others member unconfirmed passes apart => exact unconfirmed

theorem checked : tx.checkTransaction = .ok () := by
  cases back with
  | intro parents hashed others member unconfirmed passes apart => exact passes.checked

/-- It is not pooled before. -/
theorem fresh (indexed : Indexed P node.mempool)
    (free : P.CollisionFree) : node.mempool.mapTx (tx.getHash P) = none := by
  rw [Option.eq_none_iff_forall_ne_some]
  intro pooled found
  have same : tx.prevouts = pooled.prevouts :=
    congrArg (fun tx : SerializedTx => tx.vin.map CTxIn.prevout) (indexed.same_of_getHash free found)
  obtain ⟨txin, member⟩ := List.exists_mem_of_ne_nil _ (CTransaction.vin_ne_nil_of_checkTransaction back.checked)
  have spent : txin.prevout ∈ tx.prevouts := List.mem_map_of_mem member
  exact (back.apart.pooled _ pooled found _ spent).2 (same ▸ spent)

/-- The transaction in the list with the same txid is resurrectable too, if it passes the checks. -/
theorem of_listed (free : P.CollisionFree) {listed : CTransaction}
    (member : listed ∈ vResurrect) (hash : listed.getHash P = tx.getHash P)
    (passes : ∀ parents : CTxMemPool, (∀ h parent, parents.mapTx h = some parent → parent.getHash P = h) →
      (∀ h parent, parents.mapTx h = some parent → Resurrectable P node vResurrect vDelete parent) →
      tx.haveInputs (parents.unspentOn node.pcoinsTip) → listed.PassesAccept P node (parents.unspentOn node.pcoinsTip)) :
    Resurrectable P node vResurrect vDelete listed := by
  have same : listed.prevouts = tx.prevouts :=
    congrArg (fun tx : SerializedTx => tx.vin.map CTxIn.prevout) (free.injective listed tx hash)
  cases back with
  | intro parents hashed others _ unconfirmed checks apart =>
    refine ⟨parents, hashed, others, member, hash ▸ unconfirmed, passes parents hashed others checks.coins.inputs, ?_⟩
    obtain ⟨pooled, disconnected, connected⟩ := apart
    refine ⟨fun h other found => ?_, fun other queued different => ?_, fun other joined => ?_⟩
    · rw [same]
      exact pooled h other found
    · rw [same]
      exact disconnected other queued (hash ▸ different)
    · rw [same, hash]
      exact connected other joined

end

end Resurrectable

namespace Node.Stages

variable {P : Platform} {node : Node} {pool' : CTxMemPool} {vResurrect vDelete : List CTransaction}
  {stage : ℕ → CTxMemPool} (stages : Stages P node vResurrect node.mempool pool' stage)
include stages

/-- When everything resurrectable is in the pool at the end, the first rounds after which it is there are
places behind those of the parents. -/
theorem parentsFirst_of_pooled (free : P.CollisionFree) (start : Indexed P node.mempool)
    (all : ∀ tx, Resurrectable P node vResurrect vDelete tx → pool'.mapTx (tx.getHash P) ≠ none) :
    ParentsFirst P node vResurrect vDelete := by
  have clean (tx : CTransaction) (back : Resurrectable P node vResurrect vDelete tx) :
      node.pcoinsTip.getCoins (tx.getHash P) = none := by
    apply stages.getCoins_eq_none vResurrect.length (back.fresh start free)
    rw [stages.final _ le_rfl]
    exact all tx back
  -- The round that enters a transaction.
  let entries (h : Uint256) : Set ℕ := {n | (stage (n + 1)).mapTx h ≠ none}
  have absent {h : Uint256} {n : ℕ} (fresh : node.mempool.mapTx h = none) (early : n ≤ sInf (entries h)) :
      (stage n).mapTx h = none := by
    cases n with
    | zero => rwa [stages.start]
    | succ n =>
      by_contra there
      have := @Nat.sInf_le (entries h) n there
      omega
  refine ⟨fun h => sInf (entries h), fun tx back => ?_⟩
  have fresh := back.fresh start free
  have nonempty : (entries (tx.getHash P)).Nonempty := by
    refine ⟨vResurrect.length, ?_⟩
    change (stage (vResurrect.length + 1)).mapTx _ ≠ none
    rw [stages.final _ (Nat.le_succ _)]
    exact all tx back
  obtain ⟨listed, there, hash, accepted⟩ := stages.entered (absent fresh le_rfl) (Nat.sInf_mem nonempty)
  obtain ⟨passes, -, -, -⟩ := accept_eq_ok_iff.mp accepted
  have same : listed.prevouts = tx.prevouts :=
    congrArg (fun tx : SerializedTx => tx.vin.map CTxIn.prevout) (free.injective listed tx hash)
  -- Where the transaction enters, the parents it spends are pooled.
  have ready (parent : CTransaction) (back : Resurrectable P node vResurrect vDelete parent)
      (spent : ∃ out ∈ listed.prevouts, out.hash = parent.getHash P) :
      (stage (sInf (entries (tx.getHash P)))).mapTx (parent.getHash P) ≠ none := by
    obtain ⟨out, member, hash⟩ := spent
    obtain ⟨txin, input, rfl⟩ := List.mem_map.mp member
    obtain ⟨coins, found, -⟩ := passes.coins.inputs.resolve_left passes.notCoinBase txin input
    rw [getCoins_viewOn, hash, clean parent back, Option.none_or] at found
    intro missing
    simp [missing] at found
  refine ⟨listed, there, hash, ?_, fun parent back spent => ?_⟩
  · refine back.of_listed free (List.mem_of_getElem? there) hash fun parents hashed others inputs => ?_
    have vin : listed.vin = tx.vin := congrArg SerializedTx.vin (free.injective listed tx hash)
    have ordinary : ¬ tx.isCoinBase := by
      have := passes.notCoinBase
      rwa [CTransaction.isCoinBase, vin] at this
    have agree := stages.agree free start clean hashed others ordinary inputs
      fun parent back spent => ready parent back (same ▸ spent)
    exact { passes with coins := passes.coins.congr (fun txin member => (agree txin (vin ▸ member)).symm) rfl }
  · by_contra late
    exact ready parent back spent (absent (back.fresh start free) (Nat.not_lt.mp late))

end Node.Stages

end BitCrystal
