import BitCrystal.Model.OrphanTxs
import BitCrystal.Proofs.MemPool

/-! # The index of the orphans

An orphan is listed under every transaction it spends, and nothing else is listed. Adding and erasing orphans keep
this, and keep the lists from being empty. Looking at a list may leave an empty one.
-/

namespace BitCrystal

open StateAction CTransaction OrderedMap

namespace OrphanTxs

variable {P : Platform} {orphans after : OrphanTxs} {hash p o : Uint256} {vMsg stored : List UInt8} {vin : List CTxIn}

/-- What is listed for `o` under `p`. -/
def waiting (orphans : OrphanTxs) (p o : Uint256) : Option (List UInt8) := (orphans.byPrev p).find? o

/-- The hash of an output that is spent. -/
def Spends (vin : List CTxIn) (p : Uint256) : Prop := ∃ txin ∈ vin, txin.prevout.hash = p

instance (vin : List CTxIn) (p : Uint256) : Decidable (Spends vin p) := inferInstanceAs (Decidable (∃ txin ∈ vin, _))

/-- Orphans lie under their hashes and are listed under the transactions they spend. -/
structure Consistent (P : Platform) (orphans : OrphanTxs) : Prop where
  keyed : ∀ hash vMsg, orphans.mapOrphanTransactions.find? hash = some vMsg →
    ∃ tx, ofStream vMsg = some tx ∧ tx.getHash P = hash
  listed : ∀ p o vMsg, orphans.waiting p o = some vMsg ↔ orphans.mapOrphanTransactions.find? o = some vMsg ∧
    ∃ tx, ofStream vMsg = some tx ∧ Spends tx.vin p

/-- No list is empty. -/
def Tidy (orphans : OrphanTxs) : Prop :=
  ∀ p inner, orphans.mapOrphanTransactionsByPrev.find? p = some inner → inner.size ≠ 0

theorem spends_cons {txin : CTxIn} : Spends (txin :: vin) p ↔ p = txin.prevout.hash ∨ Spends vin p := by
  simp [Spends, eq_comm]

theorem not_spends_nil : ¬ Spends [] p := nofun

/-- A list is replaced. -/
theorem waiting_of_update {inner : OrderedMap Uint256 (List UInt8)} {q : Uint256}
    (map : ∀ p, after.mapOrphanTransactionsByPrev.find? p =
      if p = q then (if inner.size = 0 then none else some inner) else orphans.mapOrphanTransactionsByPrev.find? p) :
    after.waiting p o = if p = q then inner.find? o else orphans.waiting p o := by
  rw [waiting, byPrev, map]
  split_ifs with here empty
  · rw [size_eq_zero.mp empty]
    rfl
  · rfl
  · rfl

theorem tidy_of_update (tidy : orphans.Tidy) {inner : OrderedMap Uint256 (List UInt8)} {q : Uint256}
    (map : ∀ p, after.mapOrphanTransactionsByPrev.find? p =
      if p = q then (if inner.size = 0 then none else some inner) else orphans.mapOrphanTransactionsByPrev.find? p) :
    after.Tidy := by
  intro p list found
  rw [map] at found
  split_ifs at found with here empty
  · cases found
    exact empty
  · exact tidy p list found

/-- An orphan is listed under what it spends. -/
theorem insertByPrev_spec (fresh : ∀ p, orphans.waiting p hash = none ∨ orphans.waiting p hash = some vMsg) :
    (insertByPrev hash vMsg vin orphans).mapOrphanTransactions = orphans.mapOrphanTransactions ∧
      (∀ p o, (insertByPrev hash vMsg vin orphans).waiting p o =
        if o = hash ∧ Spends vin p then some vMsg else orphans.waiting p o) ∧
      (orphans.Tidy → (insertByPrev hash vMsg vin orphans).Tidy) := by
  induction vin generalizing orphans with
  | nil =>
    refine ⟨rfl, fun p o => ?_, id⟩
    rw [if_neg fun both => not_spends_nil both.2]
    rfl
  | cons txin vin ih =>
    rw [insertByPrev]
    let inner := if ((orphans.byPrev txin.prevout.hash).find? hash).isSome then orphans.byPrev txin.prevout.hash
      else (orphans.byPrev txin.prevout.hash).insert hash vMsg
    have entries (o : Uint256) : inner.find? o = if o = hash then some vMsg else orphans.waiting txin.prevout.hash o := by
      have old := fresh txin.prevout.hash
      rw [waiting] at old ⊢
      dsimp only [inner]
      split_ifs with there same same
      · rw [same]
        exact old.resolve_left (Option.isSome_iff_ne_none.mp there)
      · rfl
      · rw [find?_insert, if_pos same]
      · rw [find?_insert, if_neg same]
    have filled : inner.size ≠ 0 := fun empty => by
      have missing := size_eq_zero.mp empty hash
      rw [entries, if_pos rfl] at missing
      cases missing
    have map : ∀ p, (orphans.mapOrphanTransactionsByPrev.insert txin.prevout.hash inner).find? p =
        if p = txin.prevout.hash then (if inner.size = 0 then none else some inner)
        else orphans.mapOrphanTransactionsByPrev.find? p := by
      intro p
      rw [find?_insert, if_neg filled]
    have next : ∀ p o, waiting { orphans with
        mapOrphanTransactionsByPrev := orphans.mapOrphanTransactionsByPrev.insert txin.prevout.hash inner } p o =
        if p = txin.prevout.hash then inner.find? o else orphans.waiting p o :=
      fun p o => waiting_of_update map
    obtain ⟨kept, listed, tidy⟩ := @ih { orphans with
      mapOrphanTransactionsByPrev := orphans.mapOrphanTransactionsByPrev.insert txin.prevout.hash inner } fun p => by
        rw [next, entries, if_pos rfl]
        split_ifs
        · exact .inr rfl
        · exact fresh p
    refine ⟨kept, fun p o => ?_, fun before => tidy (tidy_of_update before map)⟩
    rw [listed, next, entries]
    simp only [spends_cons]
    by_cases same : o = hash <;> by_cases here : p = txin.prevout.hash <;> simp [same, here]

theorem eraseByPrev_spec :
    (eraseByPrev hash vin orphans).mapOrphanTransactions = orphans.mapOrphanTransactions ∧
      (∀ p o, (eraseByPrev hash vin orphans).waiting p o = if o = hash ∧ Spends vin p then none else orphans.waiting p o) ∧
      (orphans.Tidy → (eraseByPrev hash vin orphans).Tidy) ∧
      ∀ p, ¬ Spends vin p → (eraseByPrev hash vin orphans).mapOrphanTransactionsByPrev.find? p =
        orphans.mapOrphanTransactionsByPrev.find? p := by
  induction vin generalizing orphans with
  | nil =>
    refine ⟨rfl, fun p o => ?_, id, fun _ _ => rfl⟩
    rw [if_neg fun both => not_spends_nil both.2]
    rfl
  | cons txin vin ih =>
    rw [eraseByPrev]
    have entries (o : Uint256) : ((orphans.byPrev txin.prevout.hash).erase hash).find? o =
        if o = hash then none else orphans.waiting txin.prevout.hash o := find?_erase
    generalize (orphans.byPrev txin.prevout.hash).erase hash = inner at entries ⊢
    have map : ∀ p, (if inner.size = 0 then orphans.mapOrphanTransactionsByPrev.erase txin.prevout.hash
        else orphans.mapOrphanTransactionsByPrev.insert txin.prevout.hash inner).find? p =
        if p = txin.prevout.hash then (if inner.size = 0 then none else some inner)
        else orphans.mapOrphanTransactionsByPrev.find? p := by
      intro p
      split_ifs with empty here here
      · rw [find?_erase, if_pos here]
      · rw [find?_erase, if_neg here]
      · rw [find?_insert, if_pos here]
      · rw [find?_insert, if_neg here]
    generalize (if inner.size = 0 then orphans.mapOrphanTransactionsByPrev.erase txin.prevout.hash
      else orphans.mapOrphanTransactionsByPrev.insert txin.prevout.hash inner) = lists at map ⊢
    have next : ∀ p o, waiting { orphans with mapOrphanTransactionsByPrev := lists } p o =
        if p = txin.prevout.hash then inner.find? o else orphans.waiting p o :=
      fun p o => waiting_of_update map
    obtain ⟨kept, listed, tidy, others⟩ := @ih { orphans with mapOrphanTransactionsByPrev := lists }
    refine ⟨kept, fun p o => ?_, fun before => tidy (tidy_of_update before map), fun p apart => ?_⟩
    · rw [listed, next, entries]
      simp only [spends_cons]
      by_cases same : o = hash <;> by_cases here : p = txin.prevout.hash <;> simp [same, here]
    · rw [spends_cons, not_or] at apart
      rw [others p apart.2, map, if_neg apart.1]

theorem Consistent.find?_eq_none (consistent : Consistent P orphans)
    (missing : orphans.mapOrphanTransactions.find? o = none) (p : Uint256) : orphans.waiting p o = none := by
  rw [Option.eq_none_iff_forall_ne_some]
  intro stored found
  have held := ((consistent.listed p o stored).mp found).1
  rw [missing] at held
  cases held

theorem addOrphanTx_spec (consistent : Consistent P orphans) (vMsg : List UInt8) :
    Consistent P (addOrphanTx P vMsg orphans).2 ∧ (orphans.Tidy → (addOrphanTx P vMsg orphans).2.Tidy) := by
  rw [addOrphanTx]
  cases parsed : ofStream vMsg with
  | none => exact ⟨consistent, id⟩
  | some tx =>
    dsimp only
    rw [get_bind]
    split_ifs with known big
    · exact ⟨consistent, id⟩
    · exact ⟨consistent, id⟩
    · rw [modify_bind]
      have missing : orphans.mapOrphanTransactions.find? (tx.getHash P) = none := Option.not_isSome_iff_eq_none.mp known
      have fresh : ∀ p, orphans.waiting p (tx.getHash P) = none := consistent.find?_eq_none missing
      obtain ⟨kept, listed, tidy⟩ := @insertByPrev_spec { orphans with
        mapOrphanTransactions := orphans.mapOrphanTransactions.insert (tx.getHash P) vMsg } (tx.getHash P) vMsg tx.vin
        fun p => .inl (fresh p)
      refine ⟨⟨fun hash stored found => ?_, fun p o stored => ?_⟩, tidy⟩
      · simp only [pure_apply, kept, find?_insert] at found
        split_ifs at found with same
        · cases found
          exact ⟨tx, parsed, same.symm⟩
        · exact consistent.keyed hash stored found
      · simp only [pure_apply, kept, find?_insert, listed]
        rcases eq_or_ne o (tx.getHash P) with rfl | apart
        · rw [if_pos rfl]
          split_ifs with spent
          · constructor
            · rintro ⟨⟩
              exact ⟨rfl, tx, parsed, spent.2⟩
            · exact fun both => both.1
          · constructor
            · intro found
              exact nomatch (fresh p).symm.trans found
            · rintro ⟨⟨⟩, other, same, spends⟩
              rw [parsed] at same
              cases same
              exact absurd ⟨rfl, spends⟩ spent
        · rw [if_neg apart, if_neg fun both => apart both.1]
          exact consistent.listed p o stored

/-- Some orphan spends a transaction. -/
def IsSpent (orphans : OrphanTxs) (p : Uint256) : Prop := ∃ o vMsg tx,
  orphans.mapOrphanTransactions.find? o = some vMsg ∧ ofStream vMsg = some tx ∧ Spends tx.vin p

theorem Consistent.isSpent_iff (consistent : Consistent P orphans) (p : Uint256) :
    orphans.IsSpent p ↔ (orphans.byPrev p).size ≠ 0 := by
  rw [Ne, size_eq_zero, not_forall]
  constructor
  · rintro ⟨o, vMsg, tx, held, parsed, spends⟩
    refine ⟨o, fun missing => ?_⟩
    have found := (consistent.listed p o vMsg).mpr ⟨held, tx, parsed, spends⟩
    exact nomatch missing.symm.trans found
  · rintro ⟨o, found⟩
    obtain ⟨vMsg, found⟩ := Option.ne_none_iff_exists'.mp found
    obtain ⟨held, tx, parsed, spends⟩ := (consistent.listed p o vMsg).mp found
    exact ⟨o, vMsg, tx, held, parsed, spends⟩

/-- An orphan is removed from all the lists, and no list that it is not on changes. -/
theorem eraseOrphanTx_spec (consistent : Consistent P orphans) (hash : Uint256) : ∃ after,
    eraseOrphanTx hash orphans = (.ok (), after) ∧ Consistent P after ∧ (orphans.Tidy → after.Tidy) ∧
      after.mapOrphanTransactions = orphans.mapOrphanTransactions.erase hash ∧
      ∀ p, ¬ orphans.IsSpent p →
        after.mapOrphanTransactionsByPrev.find? p = orphans.mapOrphanTransactionsByPrev.find? p := by
  cases found : orphans.mapOrphanTransactions.find? hash with
  | none =>
    refine ⟨orphans, ?_, consistent, id, ext_find? fun key => ?_, fun _ _ => rfl⟩
    · rw [eraseOrphanTx, get_bind, found]
      rfl
    · rw [find?_erase]
      split_ifs with same
      · rw [same, found]
      · rfl
  | some vMsg =>
    obtain ⟨tx, parsed, rfl⟩ := consistent.keyed hash vMsg found
    obtain ⟨kept, listed, tidy, others⟩ := @eraseByPrev_spec orphans (tx.getHash P) tx.vin
    have ran : eraseOrphanTx (tx.getHash P) orphans = (.ok (), { eraseByPrev (tx.getHash P) tx.vin orphans with
        mapOrphanTransactions :=
          (eraseByPrev (tx.getHash P) tx.vin orphans).mapOrphanTransactions.erase (tx.getHash P) }) := by
      rw [eraseOrphanTx, get_bind]
      simp only [found, parsed]
      rfl
    refine ⟨_, ran, ⟨fun hash stored held => ?_, fun p o stored => ?_⟩, fun before => tidy before, ?_, fun p apart => ?_⟩
    · simp only [kept, find?_erase] at held
      split_ifs at held
      exact consistent.keyed hash stored held
    · have waits : waiting { eraseByPrev (tx.getHash P) tx.vin orphans with
          mapOrphanTransactions := (eraseByPrev (tx.getHash P) tx.vin orphans).mapOrphanTransactions.erase (tx.getHash P) }
          p o = (eraseByPrev (tx.getHash P) tx.vin orphans).waiting p o := rfl
      rw [waits, listed, kept, find?_erase]
      rcases eq_or_ne o (tx.getHash P) with rfl | different
      · rw [if_pos rfl]
        split_ifs with spent
        · exact ⟨nofun, nofun⟩
        · refine ⟨fun waits => ?_, nofun⟩
          obtain ⟨held, other, same, spends⟩ := (consistent.listed p _ stored).mp waits
          rw [found] at held
          cases held
          rw [parsed] at same
          cases same
          exact absurd ⟨rfl, spends⟩ spent
      · rw [if_neg fun both => different both.1, if_neg different]
        exact consistent.listed p o stored
    · rw [kept]
    · exact others p fun spends => apart ⟨tx.getHash P, vMsg, tx, found, parsed, spends⟩

theorem orphanAt_spec (nonzero : orphans.mapOrphanTransactions.size ≠ 0) (randomhash : Uint256) :
    ∃ it, orphans.orphanAt randomhash = Option.some it ∧ orphans.mapOrphanTransactions.find? it.1 = Option.some it.2 := by
  rw [orphanAt]
  cases above : orphans.mapOrphanTransactions.lowerBound randomhash with
  | some it => exact ⟨it, rfl, find?_of_lowerBound above⟩
  | none =>
    cases entries : orphans.mapOrphanTransactions.entries with
    | nil =>
      rw [size, entries] at nonzero
      exact absurd rfl nonzero
    | cons it rest =>
      refine ⟨it, rfl, mem_entries.mp ?_⟩
      rw [entries]
      exact List.mem_cons_self

/-- `LimitOrphanTxSize` evicts until few enough are left. -/
theorem limitLoop_spec {randomhash : ℕ → Uint256} {nMaxOrphans rounds nEvicted : ℕ} (consistent : Consistent P orphans)
    (enough : orphans.mapOrphanTransactions.size ≤ rounds) : ∃ total after,
      limitLoop randomhash nMaxOrphans rounds nEvicted orphans = (.ok total, after) ∧ Consistent P after ∧
        (orphans.Tidy → after.Tidy) ∧ after.mapOrphanTransactions.size ≤ nMaxOrphans := by
  induction rounds generalizing orphans nEvicted with
  | zero =>
    rw [limitLoop, get_bind, if_pos (by omega)]
    exact ⟨nEvicted, orphans, rfl, consistent, id, by omega⟩
  | succ rounds ih =>
    rw [limitLoop, get_bind]
    split_ifs with few
    · exact ⟨nEvicted, orphans, rfl, consistent, id, few⟩
    · obtain ⟨it, evicted, held⟩ := orphanAt_spec (show orphans.mapOrphanTransactions.size ≠ 0 by omega) (randomhash nEvicted)
      obtain ⟨middle, erased, consistent, tidy, left, -⟩ := eraseOrphanTx_spec consistent it.1
      have less := size_erase_of_some held
      obtain ⟨total, after, rest, consistentAfter, tidyAfter, fewAfter⟩ :=
        @ih middle (nEvicted + 1) consistent (by rw [left]; omega)
      rw [evicted]
      refine ⟨total, after, ?_, consistentAfter, fun before => tidyAfter (tidy before), fewAfter⟩
      exact (lift_bind_ok it _).trans ((bind_of_ok erased).trans rest)

theorem limitOrphanTxSize_spec (randomhash : ℕ → Uint256) (nMaxOrphans : ℕ) (consistent : Consistent P orphans) :
    ∃ total after, limitOrphanTxSize randomhash nMaxOrphans orphans = (.ok total, after) ∧ Consistent P after ∧
      (orphans.Tidy → after.Tidy) ∧ after.mapOrphanTransactions.size ≤ nMaxOrphans :=
  limitLoop_spec consistent le_rfl

/-- The transactions the pool accepts one after the other while the orphans of each of them are resolved. -/
inductive Releases (P : Platform) (node : Node) (orphans : OrphanTxs) : List Uint256 → CTxMemPool → List Uint256 → Prop
  | done (mempool : CTxMemPool) : Releases P node orphans [] mempool []
  | next {hashPrev : Uint256} {vWorkQueue released : List Uint256} {mempool : CTxMemPool}
      {resolved : CTxMemPool × List Uint256 × List Uint256}
      (ran : resolve P node (orphans.byPrev hashPrev).entries mempool = .ok resolved)
      (rest : Releases P node orphans (vWorkQueue ++ resolved.2.1) resolved.1 released) :
      Releases P node orphans (hashPrev :: vWorkQueue) mempool (hashPrev :: released)

theorem Releases.unique {node : Node} {vWorkQueue released other : List Uint256} {mempool : CTxMemPool}
    (releases : Releases P node orphans vWorkQueue mempool released)
    (releases' : Releases P node orphans vWorkQueue mempool other) : other = released := by
  induction releases generalizing other with
  | done =>
    cases releases'
    rfl
  | next ran _ ih =>
    cases releases' with
    | next ran' rest =>
      rw [ran, Except.ok.injEq] at ran'
      subst ran'
      rw [ih rest]

/-- How many of the hashes are not in the pool. -/
def unpooled (hashes : List Uint256) (mempool : CTxMemPool) : ℕ := hashes.countP fun hash => (mempool.mapTx hash).isNone

variable {node : Node} {mempool pool : CTxMemPool}

theorem unpooled_accept {hashes : List Uint256} {tx : CTransaction} (listed : tx.getHash P ∈ hashes)
    (accepted : acceptToMemoryPool P node mempool tx = .ok pool) : unpooled hashes pool + 1 ≤ unpooled hashes mempool := by
  have done := CTxMemPool.accept_eq_ok.mp accepted
  have le : ∀ l : List Uint256, unpooled l pool ≤ unpooled l mempool := by
    intro l
    refine List.countP_mono_left fun h _ absent => ?_
    rw [done.mapTx] at absent
    split_ifs at absent with same
    · cases absent
    · exact absent
  obtain ⟨front, behind, rfl⟩ := List.append_of_mem listed
  have taken : pool.mapTx (tx.getHash P) = some tx := by rw [done.mapTx, if_pos rfl]
  have first := le front
  have last := le behind
  simp only [unpooled, List.countP_append, List.countP_cons, done.fresh, taken, Option.isNone_none, Option.isNone_some,
    if_true, Bool.false_eq_true, if_false] at first last ⊢
  omega

/-- Every orphan can be read, and those that are pushed go to the pool. -/
theorem resolve_spec {hashes : List Uint256} {entries : List (Uint256 × List UInt8)}
    (held : ∀ mi ∈ entries, ∃ tx, ofStream mi.2 = some tx ∧ tx.getHash P ∈ hashes) :
    ∃ resolved, resolve P node entries mempool = .ok resolved ∧
      unpooled hashes resolved.1 + resolved.2.1.length ≤ unpooled hashes mempool := by
  induction entries generalizing mempool with
  | nil => exact ⟨_, rfl, le_rfl⟩
  | cons mi rest ih =>
    obtain ⟨tx, parsed, listed⟩ := held mi List.mem_cons_self
    have later := fun mi member => held mi (List.mem_cons_of_mem _ member)
    cases answer : acceptToMemoryPool P node mempool tx with
    | ok pool =>
      obtain ⟨resolved, ran, fewer⟩ := @ih pool later
      have one := unpooled_accept listed answer
      refine ⟨(resolved.1, tx.getHash P :: resolved.2.1, tx.getHash P :: resolved.2.2), ?_, ?_⟩
      · rw [resolve, parsed]
        simp [assertSome, bind, Except.bind, answer, ran, pure, Except.pure]
      · simp only [List.length_cons]
        omega
    | error failure =>
      obtain ⟨resolved, ran, fewer⟩ := @ih mempool later
      by_cases missing : failure = .missingInputs
      · subst missing
        refine ⟨resolved, ?_, fewer⟩
        rw [resolve, parsed]
        simp [assertSome, bind, Except.bind, answer, ran]
      · refine ⟨(resolved.1, resolved.2.1, tx.getHash P :: resolved.2.2), ?_, fewer⟩
        rw [resolve, parsed]
        cases failure <;> first | exact absurd rfl missing | simp [assertSome, bind, Except.bind, answer, ran, pure, Except.pure]

/-- Looking at lists changes no entry. -/
theorem Consistent.congr (consistent : Consistent P orphans)
    (held : after.mapOrphanTransactions = orphans.mapOrphanTransactions) (lists : ∀ p, after.byPrev p = orphans.byPrev p) :
    Consistent P after where
  keyed := held ▸ consistent.keyed
  listed p o vMsg := by
    rw [waiting, lists, held]
    exact consistent.listed p o vMsg

theorem find?_touch (hashPrev p : Uint256) : (orphans.touch hashPrev).mapOrphanTransactionsByPrev.find? p =
    if p = hashPrev then some (orphans.byPrev hashPrev) else orphans.mapOrphanTransactionsByPrev.find? p :=
  find?_insert

theorem byPrev_touch (hashPrev p : Uint256) : (orphans.touch hashPrev).byPrev p = orphans.byPrev p := by
  rw [byPrev, find?_touch]
  split_ifs with same
  · rw [same]
    rfl
  · rfl

/-- The loop comes to an end, and what it has looked at are the transactions that were accepted. -/
theorem releaseLoop_spec (consistent : Consistent P orphans) {current : OrphanTxs} {rounds : ℕ} {vWorkQueue : List Uint256}
    (held : current.mapOrphanTransactions = orphans.mapOrphanTransactions) (lists : ∀ p, current.byPrev p = orphans.byPrev p)
    (enough : vWorkQueue.length + unpooled orphans.mapOrphanTransactions.keys mempool ≤ rounds) :
    ∃ result released after, releaseLoop P node rounds vWorkQueue mempool current = (.ok result, after) ∧
      Releases P node orphans vWorkQueue mempool released ∧
      after.mapOrphanTransactions = orphans.mapOrphanTransactions ∧
      ∀ p, after.mapOrphanTransactionsByPrev.find? p =
        if p ∈ released then some (orphans.byPrev p) else current.mapOrphanTransactionsByPrev.find? p := by
  induction rounds generalizing vWorkQueue mempool current with
  | zero =>
    obtain rfl := List.length_eq_zero_iff.mp (show vWorkQueue.length = 0 by omega)
    exact ⟨_, [], current, rfl, .done mempool, held, fun p => (if_neg List.not_mem_nil).symm⟩
  | succ rounds ih =>
    cases vWorkQueue with
    | nil => exact ⟨_, [], current, rfl, .done mempool, held, fun p => (if_neg List.not_mem_nil).symm⟩
    | cons hashPrev vWorkQueue =>
      have same : (current.touch hashPrev).byPrev hashPrev = orphans.byPrev hashPrev := by rw [byPrev_touch, lists]
      obtain ⟨resolved, ran, fewer⟩ := @resolve_spec P node mempool orphans.mapOrphanTransactions.keys
        (orphans.byPrev hashPrev).entries fun mi member => by
          obtain ⟨stored, -⟩ := (consistent.listed hashPrev mi.1 mi.2).mp (mem_entries.mp member)
          obtain ⟨tx, parsed, hash⟩ := consistent.keyed mi.1 mi.2 stored
          refine ⟨tx, parsed, mem_keys.mpr ?_⟩
          rw [hash, stored]
          rfl
      obtain ⟨result, released, after, rest, releases, kept, touched⟩ :=
        @ih resolved.1 (current.touch hashPrev) (vWorkQueue ++ resolved.2.1) held
          (fun p => (byPrev_touch hashPrev p).trans (lists p)) (by
            rw [List.length_append]
            rw [List.length_cons] at enough
            omega)
      refine ⟨(result.1, resolved.2.2 ++ result.2), hashPrev :: released, after, ?_, .next ran releases, kept, fun p => ?_⟩
      · rw [releaseLoop, modify_bind, get_bind, same, ran]
        exact bind_eq_ok.mpr ⟨resolved, _, rfl, bind_eq_ok.mpr ⟨result, after, rest, rfl⟩⟩
      · rw [touched, find?_touch, lists]
        by_cases here : p = hashPrev <;> by_cases later : p ∈ released <;> simp [here, later]

theorem eraseAll_spec (consistent : Consistent P orphans) (vEraseQueue : List Uint256) : ∃ after,
    eraseAll vEraseQueue orphans = (.ok (), after) ∧ Consistent P after ∧ (orphans.Tidy → after.Tidy) ∧
      after.mapOrphanTransactions.size ≤ orphans.mapOrphanTransactions.size ∧
      ∀ p, ¬ orphans.IsSpent p →
        after.mapOrphanTransactionsByPrev.find? p = orphans.mapOrphanTransactionsByPrev.find? p := by
  induction vEraseQueue generalizing orphans with
  | nil => exact ⟨orphans, rfl, consistent, id, le_rfl, fun _ _ => rfl⟩
  | cons hash vEraseQueue ih =>
    obtain ⟨middle, first, consistentMiddle, tidyMiddle, left, others⟩ := eraseOrphanTx_spec consistent hash
    obtain ⟨after, rest, consistentAfter, tidyAfter, fewer, unlisted⟩ := ih consistentMiddle
    refine ⟨after, (bind_of_ok first).trans rest, consistentAfter, fun before => tidyAfter (tidyMiddle before),
      fewer.trans ?_, fun p apart => (unlisted p ?_).trans (others p apart)⟩
    · rw [left]
      exact List.length_filter_le ..
    · rintro ⟨o, vMsg, tx, held, parsed, spends⟩
      rw [left, find?_erase] at held
      split_ifs at held
      exact apart ⟨o, vMsg, tx, held, parsed, spends⟩

end OrphanTxs

end BitCrystal
