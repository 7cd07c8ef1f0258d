import BitCrystal.Proofs.OrphanTxs

/-! # The orphan maps stay consistent

Whatever arrives, the orphans lie under their hashes and are listed under what they spend. A list that is looked at
stays behind empty exactly when no orphan spends the transaction that was accepted.
-/

namespace BitCrystal

open StateAction CTransaction

/-- What happens to the orphans. -/
inductive OrphanEvent
  | addOrphanTx (vMsg : List UInt8)
  | limitOrphanTxSize (randomhash : ℕ → Uint256) (nMaxOrphans : ℕ)
  | tx (node : Node) (randomhash : ℕ → Uint256) (vMsg : List UInt8)

namespace OrphanTxs

variable {P : Platform} {orphans after : OrphanTxs} {node : Node} {randomhash : ℕ → Uint256} {vMsg : List UInt8}

/-- The orphans after an event, whether it throws or not. -/
def step (P : Platform) (orphans : OrphanTxs) : OrphanEvent → OrphanTxs
  | .addOrphanTx vMsg => (addOrphanTx P vMsg orphans).2
  | .limitOrphanTxSize randomhash nMaxOrphans => (limitOrphanTxSize randomhash nMaxOrphans orphans).2
  | .tx node randomhash vMsg => (processTx P node randomhash vMsg orphans).2

/-- Every transaction that is accepted with the message is spent by an orphan. -/
def Awaited (P : Platform) (node : Node) (vMsg : List UInt8) (orphans : OrphanTxs) : Prop :=
  ∀ tx mempool released, ofStream vMsg = some tx → acceptToMemoryPool P node node.mempool tx = .ok mempool →
    Releases P node orphans [tx.getHash P] mempool released → ∀ p ∈ released, orphans.IsSpent p

/-- The transactions that the orphans spend, with repetitions. -/
def spentHashes (orphans : OrphanTxs) : List Uint256 :=
  orphans.mapOrphanTransactions.entries.flatMap fun entry =>
    (ofStream entry.2).elim [] fun tx => tx.vin.map fun txin => txin.prevout.hash

/-- There are no more lists than inputs. -/
theorem size_lists_le (consistent : Consistent P orphans) (tidy : orphans.Tidy) :
    orphans.mapOrphanTransactionsByPrev.size ≤ orphans.spentHashes.length := by
  refine OrderedMap.size_le_length fun p listed => ?_
  obtain ⟨inner, found⟩ := Option.isSome_iff_exists.mp listed
  have nonzero := tidy p inner found
  obtain ⟨o, vMsg, tx, held, parsed, txin, member, spent⟩ := (consistent.isSpent_iff p).mpr (by rw [byPrev, found]; exact nonzero)
  refine List.mem_flatMap.mpr ⟨(o, vMsg), OrderedMap.mem_entries.mpr held, ?_⟩
  rw [parsed]
  exact List.mem_map.mpr ⟨txin, member, spent⟩

theorem processTx_ran (consistent : Consistent P orphans) {tx : CTransaction} {mempool : CTxMemPool}
    (parsed : ofStream vMsg = some tx) (accepted : acceptToMemoryPool P node node.mempool tx = .ok mempool) :
    ∃ middle released, Releases P node orphans [tx.getHash P] mempool released ∧
      middle.mapOrphanTransactions = orphans.mapOrphanTransactions ∧
      (∀ p, middle.mapOrphanTransactionsByPrev.find? p =
        if p ∈ released then some (orphans.byPrev p) else orphans.mapOrphanTransactionsByPrev.find? p) ∧
      ∃ vEraseQueue, (processTx P node randomhash vMsg orphans).2 = (eraseAll vEraseQueue middle).2 := by
  have few : [tx.getHash P].length + unpooled orphans.mapOrphanTransactions.keys mempool ≤
      orphans.mapOrphanTransactions.size + 1 := by
    have bound := @List.countP_le_length _ (fun hash => (mempool.mapTx hash).isNone) orphans.mapOrphanTransactions.keys
    rw [OrderedMap.length_keys] at bound
    rw [unpooled, List.length_singleton]
    omega
  obtain ⟨result, released, middle, ran, releases, held, lists⟩ :=
    @releaseLoop_spec P orphans node mempool consistent orphans _ _ rfl (fun _ => rfl) few
  have consistentMiddle : Consistent P middle := consistent.congr held fun p => by
    rw [byPrev, lists]
    split_ifs
    · rfl
    · rfl
  obtain ⟨after, erased, -⟩ := eraseAll_spec consistentMiddle (tx.getHash P :: result.2)
  refine ⟨middle, released, releases, held, lists, tx.getHash P :: result.2, ?_⟩
  have whole : processTx P node randomhash vMsg orphans = (.ok result.1, after) := by
    rw [processTx, parsed]
    dsimp only
    rw [accepted]
    exact bind_eq_ok.mpr ⟨_, _, rfl, bind_eq_ok.mpr ⟨result, middle, ran,
      bind_eq_ok.mpr ⟨(), after, erased, rfl⟩⟩⟩
  rw [whole, erased]

/-- An accepted transaction releases orphans; a list is left empty when nothing spends what was accepted. -/
theorem processTx_accepted (consistent : Consistent P orphans) {tx : CTransaction} {mempool : CTxMemPool}
    (parsed : ofStream vMsg = some tx) (accepted : acceptToMemoryPool P node node.mempool tx = .ok mempool) :
    Consistent P (processTx P node randomhash vMsg orphans).2 ∧
      (orphans.Tidy → ((processTx P node randomhash vMsg orphans).2.Tidy ↔ orphans.Awaited P node vMsg)) ∧
      (processTx P node randomhash vMsg orphans).2.mapOrphanTransactions.size ≤ orphans.mapOrphanTransactions.size := by
  obtain ⟨middle, released, releases, held, lists, vEraseQueue, result⟩ :=
    @processTx_ran P orphans node randomhash vMsg consistent tx mempool parsed accepted
  have same : ∀ p, middle.byPrev p = orphans.byPrev p := fun p => by
    rw [byPrev, lists]
    split_ifs
    · rfl
    · rfl
  obtain ⟨after, erased, consistentAfter, tidyAfter, fewer, others⟩ :=
    eraseAll_spec (consistent.congr held same) vEraseQueue
  rw [result, erased]
  refine ⟨consistentAfter, fun tidy => ⟨fun tidyLast => ?_, fun awaited => tidyAfter fun p inner found => ?_⟩, held ▸ fewer⟩
  · intro other pool all parsed' accepted' releases' p member
    rw [parsed, Option.some.injEq] at parsed'
    subst parsed'
    rw [accepted, Except.ok.injEq] at accepted'
    subst accepted'
    rw [releases.unique releases'] at member
    by_contra unspent
    have empty : (orphans.byPrev p).size = 0 := by
      by_contra nonzero
      exact unspent ((consistent.isSpent_iff p).mpr nonzero)
    have unlisted : ¬ middle.IsSpent p := by
      rintro ⟨o, stored, tx, lies, rest⟩
      rw [held] at lies
      exact unspent ⟨o, stored, tx, lies, rest⟩
    refine tidyLast p (orphans.byPrev p) ?_ empty
    rw [others p unlisted, lists, if_pos member]
  · rw [lists] at found
    split_ifs at found with member
    · cases found
      exact (consistent.isSpent_iff p).mp (awaited tx mempool released parsed accepted releases p member)
    · exact tidy p inner found

/-- The events that leave no empty list, and the messages that find at most as many orphans as are kept. -/
def Fine (P : Platform) (orphans : OrphanTxs) : OrphanEvent → Prop
  | .tx node _ vMsg => orphans.Awaited P node vMsg ∧ orphans.mapOrphanTransactions.size ≤ MAX_ORPHAN_TRANSACTIONS
  | _ => True

theorem addOrphanTx_error {failure : Failure} (ran : addOrphanTx P vMsg orphans = (.error failure, after)) :
    after = orphans := by
  rw [addOrphanTx] at ran
  cases parsed : ofStream vMsg with
  | none =>
    rw [parsed] at ran
    exact (congrArg Prod.snd ran).symm
  | some tx =>
    rw [parsed] at ran
    dsimp only at ran
    rw [get_bind] at ran
    split_ifs at ran
    · cases congrArg Prod.fst ran
    · cases congrArg Prod.fst ran
    · cases congrArg Prod.fst ran

/-- A message that is not accepted. -/
theorem processTx_refused (consistent : Consistent P orphans)
    (refused : ∀ tx mempool, ofStream vMsg = some tx → acceptToMemoryPool P node node.mempool tx ≠ .ok mempool) :
    Consistent P (processTx P node randomhash vMsg orphans).2 ∧
      (orphans.Tidy → (processTx P node randomhash vMsg orphans).2.Tidy) ∧
      (orphans.mapOrphanTransactions.size ≤ MAX_ORPHAN_TRANSACTIONS →
        (processTx P node randomhash vMsg orphans).2.mapOrphanTransactions.size ≤ MAX_ORPHAN_TRANSACTIONS) := by
  rw [processTx]
  cases parsed : ofStream vMsg with
  | none => exact ⟨consistent, id, id⟩
  | some tx =>
    dsimp only
    cases answer : acceptToMemoryPool P node node.mempool tx with
    | ok mempool => exact absurd answer (refused tx mempool parsed)
    | error failure =>
      cases failure with
      | missingInputs =>
        obtain ⟨consistentAdded, tidyAdded⟩ := addOrphanTx_spec consistent (truncate tx vMsg)
        dsimp only
        rcases outcome : addOrphanTx P (truncate tx vMsg) orphans with ⟨failure | stored, added⟩ <;>
          rw [outcome] at consistentAdded tidyAdded
        · rw [bind_of_error outcome, addOrphanTx_error outcome]
          exact ⟨consistent, id, id⟩
        · obtain ⟨total, after, limited, consistentAfter, tidyAfter, few⟩ :=
            limitOrphanTxSize_spec randomhash MAX_ORPHAN_TRANSACTIONS consistentAdded
          rw [bind_of_ok outcome, bind_of_ok limited]
          exact ⟨consistentAfter, fun tidy => tidyAfter (tidyAdded tidy), fun _ => few⟩
      | _ => exact ⟨consistent, id, id⟩

/-- What one event preserves. -/
theorem step_spec (consistent : Consistent P orphans) (tidy : orphans.Tidy) {event : OrphanEvent}
    (fine : orphans.Fine P event) : Consistent P (orphans.step P event) ∧ (orphans.step P event).Tidy := by
  cases event with
  | addOrphanTx vMsg =>
    obtain ⟨consistentAfter, tidyAfter⟩ := addOrphanTx_spec consistent vMsg
    exact ⟨consistentAfter, tidyAfter tidy⟩
  | limitOrphanTxSize randomhash nMaxOrphans =>
    obtain ⟨total, after, ran, consistentAfter, tidyAfter, -⟩ := limitOrphanTxSize_spec randomhash nMaxOrphans consistent
    rw [step, ran]
    exact ⟨consistentAfter, tidyAfter tidy⟩
  | tx node randomhash vMsg =>
    rw [step]
    by_cases accepted : ∃ tx mempool, ofStream vMsg = some tx ∧
        acceptToMemoryPool P node node.mempool tx = .ok mempool
    · obtain ⟨tx, mempool, parsed, accepted⟩ := accepted
      obtain ⟨consistentAfter, tidyIff, -⟩ :=
        @processTx_accepted P orphans node randomhash vMsg consistent tx mempool parsed accepted
      exact ⟨consistentAfter, (tidyIff tidy).mpr fine.1⟩
    · obtain ⟨consistentAfter, tidyAfter, -⟩ := @processTx_refused P orphans node randomhash vMsg consistent
        fun tx mempool parsed answer => accepted ⟨tx, mempool, parsed, answer⟩
      exact ⟨consistentAfter, tidyAfter tidy⟩

theorem size_processTx (consistent : Consistent P orphans) (few : orphans.mapOrphanTransactions.size ≤ MAX_ORPHAN_TRANSACTIONS) :
    (processTx P node randomhash vMsg orphans).2.mapOrphanTransactions.size ≤ MAX_ORPHAN_TRANSACTIONS := by
  by_cases accepted : ∃ tx mempool, ofStream vMsg = some tx ∧
      acceptToMemoryPool P node node.mempool tx = .ok mempool
  · obtain ⟨tx, mempool, parsed, accepted⟩ := accepted
    exact (processTx_accepted consistent parsed accepted).2.2.trans few
  · exact (processTx_refused consistent fun tx mempool parsed answer => accepted ⟨tx, mempool, parsed, answer⟩).2.2 few

/-- Runs from no orphans on whose events are all fine. -/
inductive FineRun (P : Platform) : OrphanTxs → Prop
  | start : FineRun P {}
  | step {orphans : OrphanTxs} {event : OrphanEvent} (run : FineRun P orphans) (fine : orphans.Fine P event) :
      FineRun P (orphans.step P event)

theorem FineRun.sound (run : FineRun P orphans) : Consistent P orphans ∧ orphans.Tidy := by
  induction run with
  | start => exact ⟨⟨nofun, fun p o vMsg => ⟨nofun, nofun⟩⟩, nofun⟩
  | step run fine ih => exact step_spec ih.1 ih.2 fine

/-- In a run whose events are fine the orphans lie under their hashes, they are listed exactly under what they spend, no
list is empty, and after each message there are at most as many orphans as are kept and as many lists as inputs. -/
theorem orphans_of_run (run : FineRun P orphans) : Consistent P orphans ∧ orphans.Tidy ∧
    ∀ node randomhash vMsg, orphans.Fine P (.tx node randomhash vMsg) →
      (orphans.step P (.tx node randomhash vMsg)).mapOrphanTransactions.size ≤ MAX_ORPHAN_TRANSACTIONS ∧
      (orphans.step P (.tx node randomhash vMsg)).mapOrphanTransactionsByPrev.size ≤
        (orphans.step P (.tx node randomhash vMsg)).spentHashes.length := by
  obtain ⟨consistent, tidy⟩ := run.sound
  refine ⟨consistent, tidy, fun node randomhash vMsg fine => ⟨size_processTx consistent fine.2, ?_⟩⟩
  obtain ⟨consistentAfter, tidyAfter⟩ := step_spec consistent tidy fine
  exact size_lists_le consistentAfter tidyAfter

open TestNet

/-- The pool takes a transaction that no orphan spends, and an empty list stays. -/
theorem processTx_leaves_empty_list :
    let after := step platform {} (.tx (onGenesis {}) (fun _ => 0) lower.serialize)
    after.mapOrphanTransactions.size = 0 ∧ after.spentHashes = [] ∧ after.mapOrphanTransactionsByPrev.size = 1 ∧
      (after.mapOrphanTransactionsByPrev.find? 2001).map OrderedMap.size = some 0 := by
  decide

/-- A message that the pool does not take. -/
private theorem fine_of_refused {tx : CTransaction} (parsed : ofStream vMsg = some tx)
    (refused : (acceptToMemoryPool P node node.mempool tx).isOk = false)
    (few : orphans.mapOrphanTransactions.size ≤ MAX_ORPHAN_TRANSACTIONS) : Fine P orphans (.tx node randomhash vMsg) := by
  refine ⟨fun other mempool released parsed' accepted => ?_, few⟩
  cases parsed.symm.trans parsed'
  rw [accepted] at refused
  cases refused

/-- It spends an output of the other orphan and one that nobody knows. -/
def missing : CTransaction := spending 4 [⟨3001, 0⟩, ⟨9001, 0⟩] [100]

def arrives (tx : CTransaction) : OrphanEvent := .tx (onGenesis {}) (fun _ => 0) tx.serialize

def bothOrphaned : OrphanTxs := step platform (step platform {} (arrives upper)) (arrives missing)

/-- What the loop over the orphans of a transaction gives. -/
private def resolvedBy (hashPrev : Uint256) (mempool : CTxMemPool) : CTxMemPool × List Uint256 × List Uint256 :=
  (resolve platform (onGenesis {}) (bothOrphaned.byPrev hashPrev).entries mempool).toOption.getD (mempool, [], [])

private theorem ok_resolvedBy {hashPrev : Uint256} {mempool : CTxMemPool}
    (ok : (resolve platform (onGenesis {}) (bothOrphaned.byPrev hashPrev).entries mempool).isOk = true) :
    resolve platform (onGenesis {}) (bothOrphaned.byPrev hashPrev).entries mempool = .ok (resolvedBy hashPrev mempool) := by
  obtain ⟨resolved, ran⟩ := Check.exists_of_isOk ok
  rw [resolvedBy, ran]
  rfl

/-- The parent of the first orphan releases it, and the second one stays. -/
theorem orphans_of_run_released : let after := step platform bothOrphaned (arrives lower)
    bothOrphaned.mapOrphanTransactions.size = 2 ∧ (bothOrphaned.byPrev 2001).size = 1 ∧
      after.mapOrphanTransactions.size = 1 ∧ after.mapOrphanTransactionsByPrev.find? 2001 = none ∧
      (after.byPrev 3001).size = 1 ∧ after.Tidy := by
  intro after
  have parsed : ofStream upper.serialize = some upper := by decide +kernel
  have parsed' : ofStream missing.serialize = some missing := by decide +kernel
  have run : FineRun platform bothOrphaned := by
    refine .step (.step .start (fine_of_refused parsed ?_ ?_)) (fine_of_refused parsed' ?_ ?_)
    all_goals decide +kernel
  let pool : CTxMemPool := CTxMemPool.addUnchecked {} 2001 lower
  have accepted : acceptToMemoryPool platform (onGenesis {}) {} lower = .ok pool :=
    CTxMemPool.accept_eq_ok.mpr
      ⟨by decide, by decide, by decide, fun off => absurd off (by decide), by decide, by decide, by decide, rfl⟩
  have fine : Fine platform bothOrphaned (arrives lower) := by
    refine ⟨fun tx mempool released parsed entered releases => ?_, by decide +kernel⟩
    have same : ofStream lower.serialize = some lower := by decide +kernel
    cases same.symm.trans parsed
    cases accepted.symm.trans entered
    have txid : lower.getHash platform = 2001 := by decide
    rw [txid] at releases
    have only : released = [2001, 3001] := by
      apply Releases.unique _ releases
      refine .next (ok_resolvedBy (by decide +kernel)) ?_
      have pushed : (resolvedBy 2001 pool).2.1 = [3001] := by decide +kernel
      rw [pushed]
      refine .next (ok_resolvedBy (by decide +kernel)) ?_
      have nothing : (resolvedBy 3001 (resolvedBy 2001 pool).1).2.1 = [] := by decide +kernel
      rw [nothing]
      exact .done _
    rw [only]
    intro p inside
    rw [run.sound.1.isSpent_iff]
    have each : ∀ p ∈ [2001, 3001], (bothOrphaned.byPrev p).size ≠ 0 := by decide +kernel
    exact each p inside
  refine ⟨?_, ?_, ?_, ?_, ?_, (orphans_of_run (run.step fine)).2.1⟩
  all_goals decide +kernel

end OrphanTxs

end BitCrystal
