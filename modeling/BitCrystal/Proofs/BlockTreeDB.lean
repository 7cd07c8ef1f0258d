import BitCrystal.Model.BlockTreeDB

/-! # What a restart reads

A record gives back the entry without what is kept in memory only and without positions of missing data.
The loop inserts each entry and a placeholder for a parent that has not been read, so that in the end
the map has the entries of the records and nothing else.
-/

namespace BitCrystal

open LittleEndian Function

namespace BlockStatus

theorem ofNat_toNat {nStatus : BlockStatus} (valid : nStatus.valid < 8) : ofNat nStatus.toNat = nStatus := by
  have all : ∀ valid < 8, ∀ haveData haveUndo failedValid failedChild,
      ofNat (toNat ⟨valid, haveData, haveUndo, failedValid, failedChild⟩) =
        ⟨valid, haveData, haveUndo, failedValid, failedChild⟩ := by decide
  exact all nStatus.valid valid nStatus.haveData nStatus.haveUndo nStatus.failedValid nStatus.failedChild

theorem toNat_lt {nStatus : BlockStatus} (valid : nStatus.valid < 8) : nStatus.toNat < 2 ^ (8 * 4) := by
  have flag (b : Bool) : b.toNat ≤ 1 := Bool.toNat_le b
  have := flag nStatus.haveData
  have := flag nStatus.haveUndo
  have := flag nStatus.failedValid
  have := flag nStatus.failedChild
  simp only [toNat]
  omega

end BlockStatus

/-- The fields are values of the C++ types, and the status has no bits without a name. -/
structure CBlockIndex.Representable (pindex : CBlockIndex) : Prop where
  nHeight : pindex.nHeight < 2 ^ 31
  nFile : pindex.nFile < 2 ^ 31
  nDataPos : pindex.nDataPos < 2 ^ 32
  nUndoPos : pindex.nUndoPos < 2 ^ 32
  nTx : pindex.nTx < 2 ^ 32
  nStatus : pindex.nStatus.valid < 8
  nVersion : -2 ^ 31 ≤ pindex.nVersion ∧ pindex.nVersion < 2 ^ 31
  hashMerkleRoot : pindex.hashMerkleRoot < 2 ^ 256
  nTime : pindex.nTime < 2 ^ 32
  nBits : pindex.nBits < 2 ^ 32
  nNonce : pindex.nNonce < 2 ^ 32

/-- An entry as its record gives it back, with its hash and its parent. -/
def CBlockIndex.restored (pindex : CBlockIndex) : CBlockIndex :=
  { pindex with
    pnext := none
    nFile := if pindex.nStatus.haveData ∨ pindex.nStatus.haveUndo then pindex.nFile else 0
    nDataPos := if pindex.nStatus.haveData then pindex.nDataPos else 0
    nUndoPos := if pindex.nStatus.haveUndo then pindex.nUndoPos else 0
    nChainWork := 0
    nChainTx := 0 }

namespace CDiskBlockIndex

/-- What the record of an entry holds. -/
def stored (pindex : CBlockIndex) : CDiskBlockIndex :=
  { pindex.restored with phashBlock := none, pprev := none, hashPrev := pindex.pprev.getD 0 }

theorem reads_nat {n : ℕ} (bound : n < 2 ^ 31) : readVarIntSigned.Reads (writeVarInt 4 n) (n : ℤ) := by
  have reads : readVarIntSigned.Reads (writeVarInt 4 n) (wireInt n) := reads_varIntSigned (by omega) (by omega)
  rwa [wireInt_of_nonneg (Int.natCast_nonneg n)] at reads

theorem reads_ofIndex {pindex : CBlockIndex} (range : pindex.Representable)
    (prev : ∀ p, pindex.pprev = some p → p < 2 ^ 256) :
    unserialize.Reads (ofIndex pindex).serialize (stored pindex) := by
  have hashPrev : pindex.pprev.getD 0 < 256 ^ 32 := by
    rcases parent : pindex.pprev with _ | p
    · exact Nat.pow_pos (by decide)
    · exact prev p parent
  apply (reads_nat (by decide)).bind
  apply (reads_nat range.nHeight).bind
  apply (reads_varInt (by decide) (BlockStatus.toNat_lt range.nStatus)).bind
  apply (reads_varInt (by decide) range.nTx).bind
  simp only [ofIndex, BlockStatus.ofNat_toNat range.nStatus]
  apply ((reads_nat range.nFile).optional _).bind
  apply ((reads_varInt (by decide) range.nDataPos).optional _).bind
  apply ((reads_varInt (by decide) range.nUndoPos).optional _).bind
  apply (reads_int (by have := range.nVersion; omega) (by have := range.nVersion; omega)).bind
  apply (reads hashPrev).bind
  apply (reads range.hashMerkleRoot).bind
  apply (reads range.nTime).bind
  apply (reads range.nBits).bind
  have nNonce : pindex.nNonce < 256 ^ 4 := range.nNonce
  apply (reads nNonce).last
  simp only [stored, CBlockIndex.restored, Int.toNat_natCast, apply_ite Int.toNat, Int.toNat_zero]
  exact Reader.reads_pure _

theorem fill_stored {pindex : CBlockIndex} {hash : Uint256} (named : pindex.phashBlock = some hash) :
    CBlockIndex.fill { phashBlock := some hash } pindex.pprev (stored pindex) = pindex.restored := by
  simp only [CBlockIndex.fill, stored, CBlockIndex.restored, named]

end CDiskBlockIndex

theorem blockIndexKey_inj {a b : Uint256} (bound : a < 2 ^ 256) (bound' : b < 2 ^ 256)
    (same : blockIndexKey a = blockIndexKey b) : a = b := by
  obtain ⟨-, bytes⟩ := List.cons.inj same
  have left : decode (encode 32 a) = a := decode_encode bound
  rw [← left, bytes]
  exact decode_encode bound'

/-- The entries have what `AddToBlockIndex` gives them and later updates leave: the hash of the header,
a parent one level below, valid proof of work and the sums along the chain. -/
structure IndexedBlocks (P : Platform) (index : BlockMap) : Prop where
  named : ∀ hash entry, index hash = some entry → entry.phashBlock = some hash
  hash : ∀ hash entry, index hash = some entry → (CDiskBlockIndex.ofIndex entry).getBlockHash P = hash
  bound : ∀ hash entry, index hash = some entry → 0 < hash ∧ hash < 2 ^ 256
  parent : ∀ hash entry prev, index hash = some entry → entry.pprev = some prev →
    ∃ above, index prev = some above ∧ entry.nHeight = above.nHeight + 1
  work : ∀ hash entry, index hash = some entry → (checkProofOfWork hash entry.nBits).isOk
  chainWork : ∀ hash entry, index hash = some entry → entry.nChainWork =
    ((entry.pprev.bind index).elim 0 CBlockIndex.nChainWork + entry.getBlockWork) % 2 ^ 256
  chainTx : ∀ hash entry, index hash = some entry → entry.nChainTx =
    ((entry.pprev.bind index).elim 0 CBlockIndex.nChainTx + entry.nTx) % 2 ^ 32
  range : ∀ hash entry, index hash = some entry → entry.Representable

namespace CBlockTreeDB

/-- The entries written one after the other, some of them perhaps more than once. -/
def writeAll (P : Platform) (index : BlockMap) (db : CBlockTreeDB) (hashes : List BlockPtr) : CBlockTreeDB :=
  hashes.foldl (fun db hash => (index hash).elim db fun entry => db.writeBlockIndex P (.ofIndex entry)) db

/-- The records an iterator passes from the place of the first block index record on. The block index
records come first, in any order. -/
structure Iterates (db : CBlockTreeDB) (records : List (List UInt8 × List UInt8)) : Prop where
  mem_iff : ∀ key value, (key, value) ∈ records ↔ db key = some value ∧ bytewiseLess key (blockIndexKey 0) = false
  nodup : records.Nodup
  first : records.Pairwise fun earlier later =>
    later.1.head? = some chBlockIndex → earlier.1.head? = some chBlockIndex

variable {P : Platform} {index : BlockMap} {db : CBlockTreeDB}

private theorem not_less_zeros (l : List UInt8) : bytewiseLess l (encode l.length 0) = false := by
  induction l with
  | nil => rfl
  | cons byte rest ih =>
    have low : ¬ byte < 0 := UInt8.not_lt_zero
    rw [List.length_cons, encode, bytewiseLess]
    simp [ih]

/-- The iterator does not start behind a block index record. -/
theorem not_less_key_zero (hash : Uint256) : bytewiseLess (blockIndexKey hash) (blockIndexKey 0) = false := by
  have bytes := not_less_zeros (encode 32 hash)
  rw [length_encode] at bytes
  simp [blockIndexKey, bytewiseLess, bytes]

variable {hashes : List BlockPtr}

theorem writeAll_keep (indexed : IndexedBlocks P index) {hash : BlockPtr} {entry : CBlockIndex}
    (found : index hash = some entry)
    (holds : db (blockIndexKey hash) = some (CDiskBlockIndex.ofIndex entry).serialize) :
    writeAll P index db hashes (blockIndexKey hash) = some (CDiskBlockIndex.ofIndex entry).serialize := by
  induction hashes generalizing db with
  | nil => exact holds
  | cons other rest ih =>
    rw [writeAll, List.foldl_cons]
    apply ih
    rcases there : index other with _ | entry'
    · exact holds
    · rw [Option.elim_some, writeBlockIndex, indexed.hash other entry' there]
      rcases eq_or_ne other hash with rfl | different
      · rw [found, Option.some.injEq] at there
        rw [update_self, there]
      · have keys : blockIndexKey hash ≠ blockIndexKey other := fun same => different
          (blockIndexKey_inj (indexed.bound hash entry found).2 (indexed.bound other entry' there).2 same).symm
        rwa [update_of_ne keys]

/-- What has been written is there. -/
theorem writeAll_of_mem (indexed : IndexedBlocks P index) {hash : BlockPtr} {entry : CBlockIndex}
    (found : index hash = some entry) (member : hash ∈ hashes) :
    writeAll P index db hashes (blockIndexKey hash) = some (CDiskBlockIndex.ofIndex entry).serialize := by
  induction hashes generalizing db with
  | nil => cases member
  | cons other rest ih =>
    rw [writeAll, List.foldl_cons]
    rcases List.mem_cons.mp member with rfl | later
    · apply writeAll_keep indexed found
      rw [found, Option.elim_some, writeBlockIndex, indexed.hash hash entry found, update_self]
    · exact ih later

/-- What is there has been written or was there before. -/
theorem mem_of_writeAll (indexed : IndexedBlocks P index) {key value : List UInt8}
    (there : writeAll P index db hashes key = some value) : db key = some value ∨ ∃ hash entry,
      index hash = some entry ∧ key = blockIndexKey hash ∧ value = (CDiskBlockIndex.ofIndex entry).serialize := by
  induction hashes generalizing db with
  | nil => exact .inl there
  | cons other rest ih =>
    rw [writeAll, List.foldl_cons] at there
    rcases ih there with before | written
    · rcases found : index other with _ | entry
      · rw [found] at before
        exact .inl before
      · rw [found, Option.elim_some, writeBlockIndex, indexed.hash other entry found] at before
        rcases eq_or_ne key (blockIndexKey other) with rfl | different
        · rw [update_self, Option.some.injEq] at before
          exact .inr ⟨other, entry, found, rfl, before.symm⟩
        · rw [update_of_ne different] at before
          exact .inl before
    · exact .inr written

end CBlockTreeDB

namespace LoadingNode

variable {P : Platform} {index : BlockMap} {node : LoadingNode} {done : Set BlockPtr}

/-- The entries that have been read are restored, and what else is in the map are placeholders. -/
structure Loaded (index : BlockMap) (done : Set BlockPtr) (node : LoadingNode) : Prop where
  read : ∀ hash ∈ done, ∃ entry, index hash = some entry ∧ node.mapBlockIndex hash = some entry.restored
  placeholder : ∀ hash entry, hash ∉ done → node.mapBlockIndex hash = some entry → entry = { phashBlock := some hash }
  indexed : ∀ hash, (node.mapBlockIndex hash).isSome → (index hash).isSome
  hashes : ∀ hash, hash ∈ node.hashes ↔ (node.mapBlockIndex hash).isSome
  nodup : node.hashes.Nodup
  valid : node.setBlockIndexValid = []

variable {hash : BlockPtr}

/-- An insertion finds the entry or puts a placeholder. -/
theorem Loaded.placed (loaded : Loaded index done node) (nonzero : 0 < hash) (inside : (index hash).isSome) : ∃ after,
    node.insertBlockIndex hash = (some hash, after) ∧ Loaded index done after ∧ (after.mapBlockIndex hash).isSome ∧
      ∀ h entry, node.mapBlockIndex h = some entry → after.mapBlockIndex h = some entry := by
  rw [insertBlockIndex, if_neg nonzero.ne']
  split_ifs with present
  · exact ⟨node, rfl, loaded, present, fun _ _ found => found⟩
  · refine ⟨_, rfl, ⟨?_, ?_, ?_, ?_, ?_, loaded.valid⟩, by simp, ?_⟩
    · intro h member
      obtain ⟨entry, found, restored⟩ := loaded.read h member
      have other : h ≠ hash := by
        rintro rfl
        exact present (by rw [restored]; rfl)
      exact ⟨entry, found, (update_of_ne other ..).trans restored⟩
    · intro h entry unread found
      rcases eq_or_ne h hash with rfl | other
      · simp only [update_self, Option.some.injEq] at found
        exact found.symm
      · simp only [update_of_ne other] at found
        exact loaded.placeholder h entry unread found
    · intro h known
      rcases eq_or_ne h hash with rfl | other
      · exact inside
      · simp only [update_of_ne other] at known
        exact loaded.indexed h known
    · intro h
      rcases eq_or_ne h hash with rfl | other
      · simp
      · simp only [update_of_ne other, List.mem_cons, other, false_or]
        exact loaded.hashes h
    · exact List.nodup_cons.mpr ⟨fun member => present ((loaded.hashes hash).mp member), loaded.nodup⟩
    · intro h entry found
      have other : h ≠ hash := by
        rintro rfl
        exact present (by rw [found]; rfl)
      exact (update_of_ne other ..).trans found

/-- The entry of a record in the place of its placeholder. -/
theorem Loaded.filled (loaded : Loaded index done node) {entry : CBlockIndex}
    (found : index hash = some entry) (unread : hash ∉ done) (there : (node.mapBlockIndex hash).isSome)
    (pindexGenesisBlock : Option BlockPtr) : Loaded index (insert hash done) { node with
      mapBlockIndex := Function.update node.mapBlockIndex hash (some entry.restored), pindexGenesisBlock } := by
  refine ⟨?_, ?_, ?_, ?_, loaded.nodup, loaded.valid⟩
  · rintro h (rfl | member)
    · exact ⟨entry, found, update_self ..⟩
    · obtain ⟨entry', found', restored⟩ := loaded.read h member
      have other : h ≠ hash := fun same => unread (same ▸ member)
      exact ⟨entry', found', (update_of_ne other ..).trans restored⟩
  · intro h entry' unread' found'
    have other : h ≠ hash := fun same => unread' (.inl same)
    simp only [update_of_ne other] at found'
    exact loaded.placeholder h entry' (fun member => unread' (.inr member)) found'
  · intro h known
    rcases eq_or_ne h hash with rfl | other
    · rw [found]
      rfl
    · simp only [update_of_ne other] at known
      exact loaded.indexed h known
  · intro h
    rcases eq_or_ne h hash with rfl | other
    · simp only [update_self, Option.isSome_some, iff_true]
      exact (loaded.hashes h).mpr there
    · simp only [update_of_ne other]
      exact loaded.hashes h

/-- A record replaces the placeholder of its entry. -/
theorem Loaded.loadRecord (loaded : Loaded index done node) (indexed : IndexedBlocks P index)
    {entry : CBlockIndex} (found : index hash = some entry) (unread : hash ∉ done) : ∃ after,
    node.loadRecord P (.stored entry) = .ok after ∧ Loaded index (insert hash done) after := by
  have blockHash : (CDiskBlockIndex.stored entry).getBlockHash P = hash := indexed.hash hash entry found
  obtain ⟨first, inserted, loaded', there, -⟩ :=
    loaded.placed (indexed.bound hash entry found).1 (by rw [found]; rfl)
  obtain ⟨old, present⟩ := Option.isSome_iff_exists.mp there
  -- the placeholder of the parent
  obtain ⟨second, prev, loaded'', kept⟩ : ∃ second,
      first.insertBlockIndex (CDiskBlockIndex.stored entry).hashPrev = (entry.pprev, second) ∧
      Loaded index done second ∧ second.mapBlockIndex hash = some old := by
    rcases parent : entry.pprev with _ | p
    · refine ⟨first, ?_, loaded', present⟩
      simp only [CDiskBlockIndex.stored, parent, Option.getD_none, insertBlockIndex, if_true]
    · obtain ⟨above, known, -⟩ := indexed.parent hash entry p found parent
      obtain ⟨second, inserted', loaded'', -, grows⟩ :=
        loaded'.placed (indexed.bound p above known).1 (by rw [known]; rfl)
      refine ⟨second, ?_, loaded'', grows hash old present⟩
      simp only [CDiskBlockIndex.stored, parent, Option.getD_some, inserted']
  obtain rfl := loaded''.placeholder hash old unread kept
  have filled := CDiskBlockIndex.fill_stored (indexed.named hash entry found)
  have worked : (checkProofOfWork hash (CDiskBlockIndex.stored entry).nBits).isOk := indexed.work hash entry found
  refine ⟨_, ?_, loaded''.filled found unread (by rw [kept]; rfl)
    (if second.pindexGenesisBlock = none ∧ hash = P.hashGenesisBlock then some hash else second.pindexGenesisBlock)⟩
  simp only [LoadingNode.loadRecord, blockHash, inserted, prev, assertSome, kept, Check.ok_bind, rejectIf,
    if_neg (not_not.mpr worked), filled]
  rfl

/-- The loop reads the block index records in front, whose entries have not been read before. -/
theorem Loaded.loadGuts (loaded : Loaded index done node) (indexed : IndexedBlocks P index)
    {records : List (List UInt8 × List UInt8)} (keys : (records.map Prod.fst).Nodup)
    (first : records.Pairwise fun earlier later =>
      later.1.head? = some chBlockIndex → earlier.1.head? = some chBlockIndex)
    (each : ∀ key value, (key, value) ∈ records → key ≠ [] ∧ (key.head? = some chBlockIndex → ∃ hash entry,
      index hash = some entry ∧ key = blockIndexKey hash ∧ value = (CDiskBlockIndex.ofIndex entry).serialize ∧
        hash ∉ done)) : ∃ after done', node.loadBlockIndexGuts P records = .ok after ∧ Loaded index done' after ∧
      ∀ hash entry, index hash = some entry → hash ∈ done ∨ blockIndexKey hash ∈ records.map Prod.fst →
        hash ∈ done' := by
  induction records generalizing node done with
  | nil => exact ⟨node, done, rfl, loaded, fun hash _ _ known => known.resolve_right List.not_mem_nil⟩
  | cons record rest ih =>
    obtain ⟨key, value⟩ := record
    obtain ⟨nonempty, block⟩ := each key value (List.mem_cons_self ..)
    obtain ⟨chType, bytes, rfl⟩ := List.exists_cons_of_ne_nil nonempty
    rw [List.pairwise_cons] at first
    rw [List.map_cons, List.nodup_cons] at keys
    rcases eq_or_ne chType chBlockIndex with rfl | other
    · obtain ⟨hash, entry, found, same, rfl, unread⟩ := block rfl
      obtain ⟨middle, loaded_one, loaded'⟩ := loaded.loadRecord indexed found unread
      have parsed := (CDiskBlockIndex.reads_ofIndex (indexed.range hash entry found) fun p parent => by
        obtain ⟨above, known, -⟩ := indexed.parent hash entry p found parent
        exact (indexed.bound p above known).2).parse
      obtain ⟨after, done', ran, loaded'', covers⟩ := ih loaded' keys.2 first.2 fun key value member => by
        refine ⟨(each key value (List.mem_cons_of_mem _ member)).1, fun block => ?_⟩
        obtain ⟨hash', entry', found', rfl, written, unread'⟩ := (each key value (List.mem_cons_of_mem _ member)).2 block
        refine ⟨hash', entry', found', rfl, written, ?_⟩
        rintro (rfl | already)
        · apply keys.1
          simp only [same]
          exact List.mem_map_of_mem (f := Prod.fst) member
        · exact unread' already
      refine ⟨after, done', ?_, loaded'', ?_⟩
      · rw [loadBlockIndexGuts, if_neg (not_not.mpr rfl), parsed]
        simp only [assertSome, Check.ok_bind, loaded_one, ran]
      · rintro h entry' found' (member | member)
        · exact covers h entry' found' (.inl (.inr member))
        · rcases List.mem_cons.mp member with here | later
          · have equal := blockIndexKey_inj (indexed.bound h entry' found').2 (indexed.bound hash entry found).2
              (here.trans same)
            exact covers h entry' found' (.inl (.inl equal))
          · exact covers h entry' found' (.inr later)
    · refine ⟨node, done, by rw [loadBlockIndexGuts, if_pos other], loaded, ?_⟩
      rintro h - - (member | member)
      · exact member
      · obtain ⟨⟨key, value⟩, inside, rfl⟩ := List.mem_map.mp member
        rcases List.mem_cons.mp inside with here | later
        · cases here
          exact absurd rfl other
        · have front := first.1 _ later rfl
          exact absurd (Option.some.inj front) other

end LoadingNode

end BitCrystal
