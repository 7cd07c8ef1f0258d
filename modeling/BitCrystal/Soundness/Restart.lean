import BitCrystal.Proofs.BlockTreeDB
import BitCrystal.Proofs.Family
import BitCrystal.Soundness.MainChain
import BitCrystal.Soundness.OrphanRelease

/-! # The block index after a restart

The records restore the entries, and summing the work by height meets every parent before its children,
so the index comes back with the sums it had and the candidates are the valid entries.
-/

namespace BitCrystal

open Forest Node Function CBlockIndex CDiskBlockIndex Receiver TestNet

/-- What a restart keeps of an entry. -/
structure CBlockIndex.SameOnDisk (before after : CBlockIndex) : Prop where
  phashBlock : after.phashBlock = before.phashBlock
  pprev : after.pprev = before.pprev
  nHeight : after.nHeight = before.nHeight
  nVersion : after.nVersion = before.nVersion
  hashMerkleRoot : after.hashMerkleRoot = before.hashMerkleRoot
  nTime : after.nTime = before.nTime
  nBits : after.nBits = before.nBits
  nNonce : after.nNonce = before.nNonce
  nStatus : after.nStatus = before.nStatus
  nTx : after.nTx = before.nTx
  blockPos : after.getBlockPos = before.getBlockPos
  undoPos : after.getUndoPos = before.getUndoPos
  nChainWork : after.nChainWork = before.nChainWork
  nChainTx : after.nChainTx = before.nChainTx

/-- A candidate for the best chain. -/
def CBlockIndex.IsCandidate (pindex : CBlockIndex) : Prop :=
  BLOCK_VALID_TRANSACTIONS ≤ pindex.nStatus.valid ∧ ¬ pindex.nStatus.failed

instance (pindex : CBlockIndex) : Decidable pindex.IsCandidate := inferInstanceAs (Decidable (_ ∧ _))

/-- A restored entry with the sums along its chain. -/
def CBlockIndex.rebuilt (pindex : CBlockIndex) : CBlockIndex :=
  { pindex.restored with nChainWork := pindex.nChainWork, nChainTx := pindex.nChainTx }

theorem CBlockIndex.sameOnDisk_rebuilt (pindex : CBlockIndex) (pnext : Option BlockPtr) :
    pindex.SameOnDisk { pindex.rebuilt with pnext } := by
  refine ⟨rfl, rfl, rfl, rfl, rfl, rfl, rfl, rfl, rfl, rfl, ?_, ?_, rfl, rfl⟩
  · simp only [getBlockPos, rebuilt, restored]
    split_ifs with data positions
    · rfl
    · exact absurd (.inl data) positions
    · rfl
  · simp only [getUndoPos, rebuilt, restored]
    split_ifs with undo positions
    · rfl
    · exact absurd (.inr undo) positions
    · rfl

namespace LoadingNode

variable {P : Platform} {index : BlockMap} {node : LoadingNode}

theorem graded (indexed : IndexedBlocks P index) : Graded (parentOf index) (heightOf index) := by
  intro child above edge
  obtain ⟨entry, found, prev⟩ := Option.bind_eq_some_iff.mp edge
  obtain ⟨top, there, height⟩ := indexed.parent child entry above found prev
  rw [heightOf, heightOf, found, there]
  exact height

/-! ## The sums -/

/-- The entries that have been passed are rebuilt and the others restored. -/
structure Calculated (index : BlockMap) (done : List BlockPtr) (node : LoadingNode) : Prop where
  rebuilt : ∀ hash ∈ done, node.mapBlockIndex hash = (index hash).map CBlockIndex.rebuilt
  restored : ∀ hash, hash ∉ done → node.mapBlockIndex hash = (index hash).map CBlockIndex.restored
  valid : ∀ hash, hash ∈ node.setBlockIndexValid ↔
    hash ∈ done ∧ ∃ entry, index hash = some entry ∧ entry.IsCandidate

theorem Calculated.step {done : List BlockPtr} (calculated : Calculated index done node)
    (indexed : IndexedBlocks P index) {hash : BlockPtr} {entry : CBlockIndex} (found : index hash = some entry)
    (unread : hash ∉ done) (parent : ∀ p, entry.pprev = some p → p ∈ done) :
    Calculated index (done ++ [hash]) (node.calculateChain hash) := by
  have there : node.mapBlockIndex hash = some entry.restored := by
    rw [calculated.restored hash unread, found, Option.map_some]
  have prev : entry.restored.pprev.bind node.mapBlockIndex = (entry.pprev.bind index).map CBlockIndex.rebuilt := by
    rcases known : entry.pprev with _ | p
    · simp [CBlockIndex.restored, known]
    · simp only [CBlockIndex.restored, known, Option.bind_some]
      exact calculated.rebuilt p (parent p known)
  have work : (((entry.pprev.bind index).map CBlockIndex.rebuilt).elim 0 CBlockIndex.nChainWork +
      entry.restored.getBlockWork) % 2 ^ 256 = entry.nChainWork := by
    rw [indexed.chainWork hash entry found]
    cases entry.pprev.bind index <;> rfl
  have count : (((entry.pprev.bind index).map CBlockIndex.rebuilt).elim 0 CBlockIndex.nChainTx +
      entry.restored.nTx) % 2 ^ 32 = entry.nChainTx := by
    rw [indexed.chainTx hash entry found]
    cases entry.pprev.bind index <;> rfl
  simp only [calculateChain, there, prev, work, count]
  refine ⟨?_, ?_, ?_⟩
  · intro h member
    rcases List.mem_append.mp member with before | last
    · have other : h ≠ hash := fun same => unread (same ▸ before)
      simp only [update_of_ne other]
      exact calculated.rebuilt h before
    · obtain rfl := List.mem_singleton.mp last
      simp only [update_self, found, Option.map_some]
      rfl
  · intro h outside
    obtain ⟨outside, other⟩ := not_or.mp (mt List.mem_append.mpr outside)
    simp only [update_of_ne (mt List.mem_singleton.mpr other)]
    exact calculated.restored h outside
  · intro h
    have member : h ∈ done ++ [hash] ↔ h ∈ done ∨ h = hash := by simp
    have candidate : (∃ entry', index hash = some entry' ∧ entry'.IsCandidate) ↔
        BLOCK_VALID_TRANSACTIONS ≤ entry.restored.nStatus.valid ∧ ¬ entry.restored.nStatus.failed = true := by
      rw [found]
      simp [CBlockIndex.IsCandidate, CBlockIndex.restored]
    rw [member, or_and_right]
    split_ifs with good
    · rw [List.mem_cons, calculated.valid h, or_comm]
      refine or_congr_right ⟨?_, And.left⟩
      rintro rfl
      exact ⟨rfl, candidate.mpr good⟩
    · rw [calculated.valid h]
      refine ⟨.inl, fun known => known.resolve_right ?_⟩
      rintro ⟨rfl, good'⟩
      exact good (candidate.mp good')

/-- Passing the rest of a list sorted by height. -/
theorem Calculated.run {done rest : List BlockPtr} (calculated : Calculated index done node)
    (indexed : IndexedBlocks P index)
    (sorted : rest.Pairwise fun a b => heightOf index a ≤ heightOf index b) (nodup : (done ++ rest).Nodup)
    (all : ∀ hash entry, index hash = some entry → hash ∈ done ∨ hash ∈ rest)
    (inside : ∀ hash ∈ rest, ∃ entry, index hash = some entry) :
    Calculated index (done ++ rest) (rest.foldl calculateChain node) := by
  induction rest generalizing done node with
  | nil =>
    rw [List.append_nil]
    exact calculated
  | cons hash rest ih =>
    obtain ⟨entry, found⟩ := inside hash (List.mem_cons_self ..)
    have unread : hash ∉ done := fun before =>
      (List.disjoint_of_nodup_append nodup) before (List.mem_cons_self ..)
    have parent (p : BlockPtr) (known : entry.pprev = some p) : p ∈ done := by
      obtain ⟨above, there, -⟩ := indexed.parent hash entry p found known
      have edge := (parentOf_of_some found).trans known
      exact (graded indexed).mem_of_sorted edge sorted (all p above there)
    rw [List.append_cons] at nodup
    have later := ih (calculated.step indexed found unread parent) (List.pairwise_cons.mp sorted).2 nodup
      (fun h entry known => by
        rcases all h entry known with before | after
        · exact .inl (List.mem_append_left _ before)
        · rcases List.mem_cons.mp after with rfl | after
          · exact .inl (List.mem_append_right _ (List.mem_singleton_self _))
          · exact .inr after)
      fun h member => inside h (List.mem_cons_of_mem _ member)
    rwa [List.append_assoc] at later

theorem mem_sortedByHeight {address : BlockPtr → ℕ} {item : ℕ × BlockPtr} (member : item ∈ node.sortedByHeight address) :
    item.2 ∈ node.hashes ∧ item.1 = heightOf node.mapBlockIndex item.2 := by
  have before := (List.mergeSort_perm _ _).mem_iff.mp member
  obtain ⟨hash, known, rfl⟩ := List.mem_map.mp before
  exact ⟨known, rfl⟩

/-- The hashes in the order of `vSortedByHeight`. -/
theorem perm_sortedByHeight (node : LoadingNode) (address : BlockPtr → ℕ) :
    ((node.sortedByHeight address).map Prod.snd).Perm node.hashes := by
  have same : (node.hashes.map fun hash =>
      ((node.mapBlockIndex hash).elim 0 CBlockIndex.nHeight, hash)).map Prod.snd = node.hashes := by
    rw [List.map_map]
    exact List.map_id _
  have sorted := (List.mergeSort_perm (node.hashes.map fun hash =>
    ((node.mapBlockIndex hash).elim 0 CBlockIndex.nHeight, hash)) fun a b =>
      decide (a.1 < b.1 ∨ a.1 = b.1 ∧ address a.2 ≤ address b.2)).map Prod.snd
  rwa [same] at sorted

theorem pairwise_sortedByHeight (node : LoadingNode) (address : BlockPtr → ℕ) :
    ((node.sortedByHeight address).map Prod.snd).Pairwise fun a b =>
      heightOf node.mapBlockIndex a ≤ heightOf node.mapBlockIndex b := by
  have sorted : (node.sortedByHeight address).Pairwise fun a b =>
      decide (a.1 < b.1 ∨ a.1 = b.1 ∧ address a.2 ≤ address b.2) = true := by
    apply List.pairwise_mergeSort
    · intro a b c first second
      simp only [decide_eq_true_eq] at first second ⊢
      omega
    · intro a b
      simp only [Bool.or_eq_true, decide_eq_true_eq]
      omega
  rw [List.pairwise_map]
  refine sorted.imp_of_mem fun {a b} left right less => ?_
  rw [← (mem_sortedByHeight left).2, ← (mem_sortedByHeight right).2]
  have := of_decide_eq_true less
  omega

/-- Only the pointers to the successors change. -/
theorem setNext_eq (rounds : ℕ) (pindex : BlockPtr) (node : LoadingNode) :
    (setNext rounds pindex node).setBlockIndexValid = node.setBlockIndexValid ∧
      ∀ hash, ((setNext rounds pindex node).mapBlockIndex hash = none ∧ node.mapBlockIndex hash = none) ∨
        ∃ entry pnext, node.mapBlockIndex hash = some entry ∧
          (setNext rounds pindex node).mapBlockIndex hash = some { entry with pnext } := by
  have unchanged (node : LoadingNode) (hash : BlockPtr) : (node.mapBlockIndex hash = none ∧ node.mapBlockIndex hash = none) ∨
      ∃ entry pnext, node.mapBlockIndex hash = some entry ∧ node.mapBlockIndex hash = some { entry with pnext } := by
    rcases found : node.mapBlockIndex hash with _ | entry
    · exact .inl ⟨rfl, rfl⟩
    · exact .inr ⟨entry, entry.pnext, rfl, rfl⟩
  induction rounds generalizing pindex node with
  | zero => exact ⟨rfl, unchanged node⟩
  | succ rounds ih =>
    rw [setNext]
    split
    · exact ⟨rfl, unchanged node⟩
    next pindexPrev _ =>
      obtain ⟨valid, entries⟩ := ih pindexPrev { node with
        mapBlockIndex := Function.update node.mapBlockIndex pindexPrev
          ((node.mapBlockIndex pindexPrev).map fun entry => { entry with pnext := some pindex }) }
      refine ⟨valid, fun hash => ?_⟩
      rcases entries hash with ⟨gone, absent⟩ | ⟨entry, pnext, there, set⟩
      · refine .inl ⟨gone, ?_⟩
        rcases eq_or_ne hash pindexPrev with rfl | other
        · simpa only [update_self, Option.map_eq_none_iff] using absent
        · simpa only [update_of_ne other] using absent
      · right
        rcases eq_or_ne hash pindexPrev with rfl | other
        · simp only [update_self, Option.map_eq_some_iff] at there
          obtain ⟨old, found, rfl⟩ := there
          exact ⟨old, pnext, found, set⟩
        · simp only [update_of_ne other] at there
          exact ⟨entry, pnext, there, set⟩

theorem loadBestChain_eq (node : LoadingNode) : node.loadBestChain.setBlockIndexValid = node.setBlockIndexValid ∧
    ∀ hash, (node.loadBestChain.mapBlockIndex hash = none ∧ node.mapBlockIndex hash = none) ∨
      ∃ entry pnext, node.mapBlockIndex hash = some entry ∧
        node.loadBestChain.mapBlockIndex hash = some { entry with pnext } := by
  rw [loadBestChain]
  split
  · exact setNext_eq 0 0 { node with pindexBest := none }
  · exact setNext_eq ..

theorem loaded_empty (empty : node.mapBlockIndex = fun _ => none) (hashes : node.hashes = [])
    (valid : node.setBlockIndexValid = []) : Loaded index ∅ node where
  read _ member := absurd member (Set.notMem_empty _)
  placeholder hash entry _ found := by
    rw [empty] at found
    cases found
  indexed hash present := by
    rw [empty] at present
    cases present
  hashes hash := by simp [empty, hashes]
  nodup := by
    rw [hashes]
    exact List.nodup_nil
  valid := valid

/-- All the records that were written are read. -/
theorem loadGuts_eq (indexed : IndexedBlocks P index) {db : CBlockTreeDB} {hashes : List BlockPtr}
    (written : ∀ hash entry, index hash = some entry → hash ∈ hashes)
    (fresh : ∀ key value, db key = some value → key.head? ≠ some chBlockIndex)
    {records : List (List UInt8 × List UInt8)} (iterates : (CBlockTreeDB.writeAll P index db hashes).Iterates records)
    (loaded : Loaded index ∅ node) : ∃ after, node.loadBlockIndexGuts P records = .ok after ∧
      (∀ hash, after.mapBlockIndex hash = (index hash).map CBlockIndex.restored) ∧
      (∀ hash, hash ∈ after.hashes ↔ (index hash).isSome) ∧ after.hashes.Nodup ∧ after.setBlockIndexValid = [] := by
  have keys : (records.map Prod.fst).Nodup := by
    apply iterates.nodup.map_on
    rintro ⟨key, value⟩ member ⟨key', value'⟩ member' (rfl : key = key')
    have first := ((iterates.mem_iff key value).mp member).1
    rw [((iterates.mem_iff key value').mp member').1, Option.some.injEq] at first
    rw [first]
  obtain ⟨after, done, ran, loaded', covers⟩ := loaded.loadGuts indexed keys iterates.first fun key value member => by
    obtain ⟨there, reached⟩ := (iterates.mem_iff key value).mp member
    refine ⟨?_, fun block => ?_⟩
    · rintro rfl
      cases reached
    · rcases CBlockTreeDB.mem_of_writeAll indexed there with before | ⟨hash, entry, found, same, value⟩
      · exact absurd block (fresh key value before)
      · exact ⟨hash, entry, found, same, value, Set.notMem_empty hash⟩
  have map (hash : BlockPtr) : after.mapBlockIndex hash = (index hash).map CBlockIndex.restored := by
    rcases found : index hash with _ | entry
    · rw [Option.map_none, ← Option.not_isSome_iff_eq_none]
      intro present
      have known := loaded'.indexed hash present
      rw [found] at known
      cases known
    · have there := (iterates.mem_iff _ _).mpr
        ⟨CBlockTreeDB.writeAll_of_mem indexed found (written hash entry found), CBlockTreeDB.not_less_key_zero hash⟩
      obtain ⟨entry', found', restored⟩ :=
        loaded'.read hash (covers hash entry found (.inr (List.mem_map_of_mem (f := Prod.fst) there)))
      rw [found, Option.some.injEq] at found'
      rw [restored, Option.map_some, found']
  refine ⟨after, ran, map, fun hash => ?_, loaded'.nodup, loaded'.valid⟩
  rw [loaded'.hashes, map, Option.isSome_map]

/-- The sums are calculated for all entries. -/
theorem calculateAll_eq (indexed : IndexedBlocks P index)
    (restored : ∀ hash, node.mapBlockIndex hash = (index hash).map CBlockIndex.restored)
    (known : ∀ hash, hash ∈ node.hashes ↔ (index hash).isSome) (nodup : node.hashes.Nodup)
    (unset : node.setBlockIndexValid = []) (address : BlockPtr → ℕ) {summed : LoadingNode}
    (calculation : (node.sortedByHeight address).foldl (fun node item => node.calculateChain item.2) node = summed) :
    (∀ hash, summed.mapBlockIndex hash = (index hash).map CBlockIndex.rebuilt) ∧
      ∀ hash, hash ∈ summed.setBlockIndexValid ↔ ∃ entry, index hash = some entry ∧ entry.IsCandidate := by
  have order := perm_sortedByHeight node address
  have passed (hash : BlockPtr) : hash ∈ (node.sortedByHeight address).map Prod.snd ↔ (index hash).isSome :=
    order.mem_iff.trans (known hash)
  have height (hash : BlockPtr) : heightOf node.mapBlockIndex hash = heightOf index hash := by
    rw [heightOf, heightOf, restored]
    cases index hash <;> rfl
  have sorted := pairwise_sortedByHeight node address
  simp only [height] at sorted
  have start : Calculated index [] node := ⟨by simp, fun hash _ => restored hash, fun hash => by simp [unset]⟩
  have calculated := start.run indexed sorted (order.nodup_iff.mpr nodup)
    (fun hash entry found => .inr ((passed hash).mpr (by rw [found]; rfl)))
    fun hash member => Option.isSome_iff_exists.mp ((passed hash).mp member)
  rw [List.nil_append, List.foldl_map, calculation] at calculated
  constructor
  · intro hash
    by_cases member : hash ∈ (node.sortedByHeight address).map Prod.snd
    · exact calculated.rebuilt hash member
    · have absent := Option.not_isSome_iff_eq_none.mp (mt (passed hash).mpr member)
      rw [calculated.restored hash member, absent, Option.map_none, Option.map_none]
  · intro hash
    rw [calculated.valid]
    apply and_iff_right_of_imp
    rintro ⟨entry, found, -⟩
    exact (passed hash).mpr (by rw [found]; rfl)

/-- A restart rebuilds the block index from the records of its entries. -/
theorem loadBlockIndexDB_restores (indexed : IndexedBlocks P index) {db : CBlockTreeDB} {hashes : List BlockPtr}
    (written : ∀ hash entry, index hash = some entry → hash ∈ hashes)
    (fresh : ∀ key value, db key = some value → key.head? ≠ some chBlockIndex)
    {records : List (List UInt8 × List UInt8)} (iterates : (CBlockTreeDB.writeAll P index db hashes).Iterates records)
    (address : BlockPtr → ℕ) (empty : node.mapBlockIndex = fun _ => none) (unread : node.hashes = [])
    (candidates : node.setBlockIndexValid = []) : ∃ after, node.loadBlockIndexDB P address records = .ok after ∧
      (∀ hash, (after.mapBlockIndex hash).isSome ↔ (index hash).isSome) ∧
      (∀ hash before loaded, index hash = some before → after.mapBlockIndex hash = some loaded →
        before.SameOnDisk loaded) ∧
      ∀ hash, hash ∈ after.setBlockIndexValid ↔ ∃ entry, index hash = some entry ∧ entry.IsCandidate := by
  obtain ⟨guts, ran, restored, known, nodup, unset⟩ :=
    loadGuts_eq indexed written fresh iterates (loaded_empty empty unread candidates)
  obtain ⟨summed, calculation⟩ : ∃ summed,
      (guts.sortedByHeight address).foldl (fun node item => node.calculateChain item.2) guts = summed := ⟨_, rfl⟩
  obtain ⟨rebuilt, valid⟩ := calculateAll_eq indexed restored known nodup unset address calculation
  obtain ⟨same, entries⟩ := loadBestChain_eq summed
  refine ⟨summed.loadBestChain, ?_, fun hash => ?_, ?_, fun hash => ?_⟩
  · simp only [loadBlockIndexDB, ran, Check.ok_bind, calculation]
    rfl
  · have present : (summed.mapBlockIndex hash).isSome ↔ (index hash).isSome := by rw [rebuilt, Option.isSome_map]
    refine Iff.trans ?_ present
    rcases entries hash with ⟨gone, absent⟩ | ⟨entry, pnext, there, set⟩
    · rw [gone, absent]
    · rw [set, there, Option.isSome_some, Option.isSome_some]
  · intro hash before loaded found there
    rcases entries hash with ⟨gone, -⟩ | ⟨entry, pnext, was, set⟩
    · rw [gone] at there
      cases there
    · rw [rebuilt, found, Option.map_some, Option.some.injEq] at was
      rw [set, Option.some.injEq] at there
      rw [← there, ← was]
      exact before.sameOnDisk_rebuilt pnext
  · rw [same]
    exact valid hash

end LoadingNode

theorem SameBlocks.rooted {index index' : BlockMap} {genesis : BlockPtr} (same : SameBlocks index index')
    (rooted : Rooted index genesis) : Rooted index' genesis where
  self pindex entry found := by
    obtain ⟨e, there, equal⟩ := same.symm.entry found
    rw [← eq_of_placed CBlockIndex.phashBlock (fun _ => rfl) equal]
    exact rooted.self pindex e there
  parent pindex entry prev found edge := by
    obtain ⟨e, there, equal⟩ := same.symm.entry found
    rw [← eq_of_placed CBlockIndex.pprev (fun _ => rfl) equal] at edge
    obtain ⟨above, known, height⟩ := rooted.parent pindex e prev there edge
    obtain ⟨top, further, equal'⟩ := same.entry known
    refine ⟨top, further, ?_⟩
    rw [← eq_of_placed CBlockIndex.nHeight (fun _ => rfl) equal, height,
      eq_of_placed CBlockIndex.nHeight (fun _ => rfl) equal']
  root pindex entry found edge := by
    obtain ⟨e, there, equal⟩ := same.symm.entry found
    rw [← eq_of_placed CBlockIndex.pprev (fun _ => rfl) equal] at edge
    rw [← eq_of_placed CBlockIndex.nHeight (fun _ => rfl) equal]
    exact rooted.root pindex e there edge

/-- The block is indexed with what its parent gives it, and the checks of `AcceptBlock`, when it was accepted, have the
same result in the index as it is now. -/
structure Upheld (P : Platform) (index : BlockMap) (entry : CBlockIndex) (block : CBlock) : Prop where
  parent : ∃ above, index block.hashPrevBlock = some above
  other : block.hashPrevBlock ≠ block.getHash P
  placed : entry.placed = (newEntry P index block 0 0).placed
  passed : ∃ fCheckpoints adjustedTime, block.checkContext { P with adjustedTime } fCheckpoints index = .ok ()

/-- Every block is upheld, or one of the first. -/
structure Sustained (P : Platform) (first index : BlockMap) : Prop where
  rooted : Rooted index P.hashGenesisBlock
  within : Within first index
  upheld : ∀ pindex entry, index pindex = some entry → (∃ e, first pindex = some e ∧ entry.placed = e.placed) ∨
    ∃ block, block.getHash P = pindex ∧ Upheld P index entry block

variable {P : Platform} {first index index' : BlockMap} {block : CBlock} {fCheckpoints : Bool}

theorem Sustained.step (sustained : Sustained P first index) (founded : ∃ entry, first P.hashGenesisBlock = some entry)
    {adjustedTime : ℤ} (stored : Stored { P with adjustedTime } fCheckpoints block index index') : Sustained P first index' := by
  have later : block.getHash P ≠ P.hashGenesisBlock := by
    intro same
    obtain ⟨entry, found⟩ := sustained.within.indexed founded
    exact Option.some_ne_none _ (found.symm.trans (same ▸ stored.fresh))
  have parent := stored.parent later
  have grown : Within index index' := (Within.of_fresh stored.fresh _).trans (.of_sameBlocks stored.stored.symm)
  have other : block.hashPrevBlock ≠ block.getHash P := by
    intro same
    obtain ⟨entry, found⟩ := parent
    exact Option.some_ne_none _ (found.symm.trans (same ▸ stored.fresh))
  refine ⟨SameBlocks.rooted stored.stored ((newEntry_hangs stored.fresh (.inl parent)).rooted sustained.rooted),
    sustained.within.trans grown, fun pindex entry found => ?_⟩
  obtain ⟨e, there, equal⟩ := stored.stored.symm.entry found
  rw [update_apply] at there
  split at there
  next here =>
    cases there
    refine .inr ⟨block, here.symm, grown.indexed parent, other, ?_, fCheckpoints, adjustedTime, ?_⟩
    · exact equal.symm.trans (grown.placed_newEntry parent other).symm
    · exact (grown.checkContext sustained.rooted parent).trans stored.passed
  next =>
    rcases sustained.upheld pindex e there with ⟨old, known, same⟩ | ⟨own, hash, upheld⟩
    · exact .inl ⟨old, known, equal.symm.trans same⟩
    · obtain ⟨checks, time, passed⟩ := upheld.passed
      refine .inr ⟨own, hash, grown.indexed upheld.parent, upheld.other, ?_, checks, time, ?_⟩
      · exact equal.symm.trans (upheld.placed.trans (grown.placed_newEntry upheld.parent upheld.other).symm)
      · exact (grown.checkContext sustained.rooted upheld.parent).trans passed

theorem Sustained.grows (sustained : Sustained P first index) (founded : ∃ entry, first P.hashGenesisBlock = some entry)
    {adjustedTime : ℤ} (grows : Receiver.Grows { P with adjustedTime } fCheckpoints index index') : Sustained P first index' := by
  induction grows with
  | refl => exact sustained
  | tail _ step ih =>
    obtain ⟨block, stored⟩ := step
    exact ih.step founded stored

/-- Whatever blocks a running node is given, every block of its index was accepted by rules that still hold for it. -/
theorem sustained_of_run {allowed : Receiver → Receiver.Call → Prop} {receiver : Receiver}
    (rooted : Rooted first P.hashGenesisBlock) (founded : ∃ entry, first P.hashGenesisBlock = some entry)
    (run : Receiver.CallRun P (fun node => node.mapBlockIndex = first) allowed receiver) :
    Sustained P first receiver.mapBlockIndex := by
  induction run with
  | start _ started =>
    rw [started]
    exact ⟨rooted, .refl first, fun _ entry found => .inl ⟨entry, found, rfl⟩⟩
  | call _ call _ _ ih => exact ih.grows founded (processBlock_grows call.fFrom call.dbp call.block _)

/-- A child that waits for its parent, and another block. -/
theorem sustained_of_run_honest : Sustained platform started.mapBlockIndex
    ((peerCall honest).run platform childHeld).2.mapBlockIndex := by
  have start : Receiver.CallRun platform (fun node => node.mapBlockIndex = started.mapBlockIndex) (fun _ _ => True)
      { toNode := started } := .start ⟨fun _ => rfl, rfl, rfl⟩ rfl
  have first : Receiver.CallRun platform (fun node => node.mapBlockIndex = started.mapBlockIndex) (fun _ _ => True)
      childHeld := start.call (peerCall child) trivial childHeld_returns
  have ended : ((peerCall honest).run platform childHeld).1.isOk = true := by decide
  refine sustained_of_run (rooted_treeOf (by decide)) ⟨_, rfl⟩ (first.call (peerCall honest) trivial ?_)
  intro failure failed
  rw [failed] at ended
  cases ended

namespace TestNet

/-- The root of a small index, connected and with undo data. -/
def rootEntry : CBlockIndex :=
  { entry 4 0 0 with
    pprev := none, nFile := 3, nDataPos := 80000, nUndoPos := 7, nTx := 1, nChainTx := 1
    nChainWork := (entry 4 0 0).getBlockWork
    nStatus := { valid := BLOCK_VALID_SCRIPTS, haveData := true, haveUndo := true } }

/-- A block on top that failed. -/
def failedEntry : CBlockIndex :=
  { entry 5 4 1 with
    nFile := 4, nDataPos := 300, nTx := 2, nChainTx := 3
    nChainWork := (entry 4 0 0).getBlockWork + (entry 5 4 1).getBlockWork
    nStatus := { valid := BLOCK_VALID_TRANSACTIONS, haveData := true, failedValid := true } }

def smallIndex : BlockMap := treeOf [(4, rootEntry), (5, failedEntry)]

theorem smallIndex_cases {hash : BlockPtr} {found : CBlockIndex} (known : smallIndex hash = some found) :
    (hash = 4 ∧ found = rootEntry) ∨ (hash = 5 ∧ found = failedEntry) := by
  simp only [smallIndex, treeOf, List.lookup_cons, List.lookup_nil] at known
  split at known
  next four => exact .inl ⟨beq_iff_eq.mp four, (Option.some.inj known).symm⟩
  next =>
    split at known
    next five => exact .inr ⟨beq_iff_eq.mp five, (Option.some.inj known).symm⟩
    next => cases known

theorem smallIndex_indexed : IndexedBlocks platform smallIndex := by
  refine ⟨?_, ?_, ?_, ?_, ?_, ?_, ?_, ?_⟩ <;> intro hash found
  · intro known
    rcases smallIndex_cases known with ⟨rfl, rfl⟩ | ⟨rfl, rfl⟩ <;> rfl
  · intro known
    rcases smallIndex_cases known with ⟨rfl, rfl⟩ | ⟨rfl, rfl⟩ <;> rfl
  · intro known
    rcases smallIndex_cases known with ⟨rfl, rfl⟩ | ⟨rfl, rfl⟩ <;> decide
  · intro p known parent
    rcases smallIndex_cases known with ⟨rfl, rfl⟩ | ⟨rfl, rfl⟩
    · cases parent
    · cases parent
      exact ⟨rootEntry, rfl, rfl⟩
  · intro known
    rcases smallIndex_cases known with ⟨rfl, rfl⟩ | ⟨rfl, rfl⟩ <;> decide
  · intro known
    rcases smallIndex_cases known with ⟨rfl, rfl⟩ | ⟨rfl, rfl⟩ <;> decide
  · intro known
    rcases smallIndex_cases known with ⟨rfl, rfl⟩ | ⟨rfl, rfl⟩ <;> rfl
  · intro known
    rcases smallIndex_cases known with ⟨rfl, rfl⟩ | ⟨rfl, rfl⟩ <;> constructor <;> decide

/-- The child is read before the entry its placeholder stands for. -/
def smallRecords : List (List UInt8 × List UInt8) :=
  [(blockIndexKey 5, (ofIndex failedEntry).serialize),
    (blockIndexKey 4, (ofIndex rootEntry).serialize)]

theorem smallRecords_iterates : (CBlockTreeDB.writeAll platform smallIndex (fun _ => none) [4, 5]).Iterates
    smallRecords := by
  have keys : blockIndexKey 4 ≠ blockIndexKey 5 := by decide
  have content : CBlockTreeDB.writeAll platform smallIndex (fun _ => none) [4, 5] =
      Function.update (Function.update (fun _ => none) (blockIndexKey 4)
        (some (ofIndex rootEntry).serialize)) (blockIndexKey 5)
        (some (ofIndex failedEntry).serialize) := rfl
  refine ⟨fun key value => ?_, ?_, ?_⟩
  · rw [content, smallRecords, List.mem_pair, Prod.mk.injEq, Prod.mk.injEq]
    rcases eq_or_ne key (blockIndexKey 5) with rfl | five
    · simp only [update_self, true_and, keys.symm, false_and, or_false, Option.some.injEq,
        CBlockTreeDB.not_less_key_zero, and_true]
      exact eq_comm
    · rw [update_of_ne five]
      rcases eq_or_ne key (blockIndexKey 4) with rfl | four
      · simp only [update_self, true_and, keys, false_and, false_or, Option.some.injEq,
          CBlockTreeDB.not_less_key_zero, and_true]
        exact eq_comm
      · simp [five, four]
  · exact List.nodup_cons.mpr ⟨by simp [keys.symm], List.nodup_singleton _⟩
  · simp [smallRecords, blockIndexKey]

theorem smallIndex_written (hash : BlockPtr) (found : CBlockIndex) (known : smallIndex hash = some found) :
    hash ∈ [4, 5] := by
  rcases smallIndex_cases known with ⟨rfl, rfl⟩ | ⟨rfl, rfl⟩ <;> decide

/-- A node before it reads its block index. -/
def unloaded : LoadingNode := { pcoinsTip := { base := ⟨fun _ => none, some 4⟩ } }

end TestNet

theorem LoadingNode.loadBlockIndexDB_restores_small : ∃ after,
    unloaded.loadBlockIndexDB platform id smallRecords = .ok after ∧ (after.mapBlockIndex 5).isSome ∧
      4 ∈ after.setBlockIndexValid ∧ 5 ∉ after.setBlockIndexValid := by
  have fresh (key value : List UInt8) (found : (fun _ => none : CBlockTreeDB) key = some value) :
      key.head? ≠ some chBlockIndex := by cases found
  obtain ⟨after, ran, known, -, valid⟩ := LoadingNode.loadBlockIndexDB_restores smallIndex_indexed smallIndex_written
    fresh smallRecords_iterates id (rfl : unloaded.mapBlockIndex = _) rfl rfl
  refine ⟨after, ran, (known 5).mpr rfl, (valid 4).mpr ⟨rootEntry, rfl, by decide⟩, fun member => ?_⟩
  obtain ⟨found, there, candidate⟩ := (valid 5).mp member
  cases there
  exact absurd candidate (by decide)

end BitCrystal
