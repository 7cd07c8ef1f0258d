import BitCrystal.Proofs.AddrManCodec
import BitCrystal.Soundness.AddressManager
import BitCrystal.Model.BlockTreeDB

/-! # The address manager survives the disk

What is read back is consistent and says the same under other ids, as long as no tried bucket is asked for more entries
than it holds. When an address was last tried is not written.
-/

namespace BitCrystal

open Function LittleEndian Reader OrderedMap CAddrInfo

namespace CAddrMan

variable {hash2 : List UInt8 → Uint256} {s t u : CAddrMan} {n k : ℤ} {info : CAddrInfo} {nVersion : ℤ}

/-- The same entries and buckets under other ids, in another order, and without the time of the last try. -/
structure Renumbered (rename : ℤ → ℤ) (s t : CAddrMan) : Prop where
  nKey : t.nKey = s.nKey
  injective : ∀ n m, (s.mapInfo.find? n).isSome → (s.mapInfo.find? m).isSome → rename n = rename m → n = m
  entry : ∀ n info, s.mapInfo.find? n = some info → ∃ nRandomPos, t.mapInfo.find? (rename n) =
    some { info with nLastTry := 0, nRandomPos := nRandomPos }
  onto : ∀ k info, t.mapInfo.find? k = some info → ∃ n, (s.mapInfo.find? n).isSome ∧ rename n = k
  vvNew : ∀ b, t.vvNew b = (s.vvNew b).image rename
  nTried : t.nTried = s.nTried
  nNew : t.nNew = s.nNew

/-- The fields are values of the C++ types, and so is the sum that `Check_` computes. -/
structure Representable (s : CAddrMan) : Prop where
  nKey : s.nKey.length ≤ MAX_SIZE
  total : s.nTried + s.nNew ≤ INT_MAX
  entry : ∀ n info, s.mapInfo.find? n = some info → info.Representable

/-! ## What is written and read -/

/-- The new entries, and the tried ones. -/
def news (s : CAddrMan) : List CAddrInfo := (newEntries s.mapInfo.entries).map Prod.snd

def olds (s : CAddrMan) : List CAddrInfo := (triedEntries s.mapInfo.entries).map Prod.snd

/-- The entries in the order in which they are read. -/
def listing (s : CAddrMan) : List CAddrInfo :=
  s.news.map restored ++ s.olds.map restoredTried

/-- The entries with their ids in the order in which they are read. -/
def order (s : CAddrMan) : List (ℤ × CAddrInfo) := newEntries s.mapInfo.entries ++ triedEntries s.mapInfo.entries

/-- The id that an entry gets. -/
def rename (s : CAddrMan) (n : ℤ) : ℤ := (s.order.map Prod.fst).idxOf n

/-- `mapUnkIds` as it is used for the buckets. -/
def unkIds (nVersion : ℤ) (s : CAddrMan) : ℤ → ℤ :=
  (writeNew nVersion s.nNew s.mapInfo.entries 0 fun _ => 0).2

/-- The ids that are written for a bucket. -/
def bucketIds (nVersion : ℤ) (s : CAddrMan) (b : NewBucket) : List ℤ := (s.vvNew b).sort.map (s.unkIds nVersion)

/-- The pairs of a bucket and an id that are read. -/
def pairs (nVersion : ℤ) (s : CAddrMan) : List (NewBucket × ℤ) :=
  (List.finRange ADDRMAN_NEW_BUCKET_COUNT).flatMap fun b =>
    (s.bucketIds nVersion b).map (b, ·)

theorem perm_order (s : CAddrMan) : s.order.Perm s.mapInfo.entries :=
  List.perm_append_comm.trans (List.filter_append_perm (fun e : ℤ × CAddrInfo => e.2.fInTried) s.mapInfo.entries)

theorem nodup_order (s : CAddrMan) : (s.order.map Prod.fst).Nodup :=
  ((perm_order s).map Prod.fst).nodup_iff.mpr s.mapInfo.nodup_keys

theorem mem_order : (n, info) ∈ s.order ↔ s.mapInfo.find? n = some info :=
  (perm_order s).mem_iff.trans mem_entries

theorem exists_place (found : s.mapInfo.find? n = some info) : ∃ i : ℕ, s.order[i]? = some (n, info) :=
  List.mem_iff_getElem?.mp (mem_order.mpr found)

theorem rename_eq {i : ℕ} (here : s.order[i]? = some (n, info)) : s.rename n = i := by
  obtain ⟨inside, same⟩ := List.getElem?_eq_some_iff.mp here
  have position := (nodup_order s).idxOf_getElem i (by rwa [List.length_map])
  rw [List.getElem_map, same] at position
  exact congrArg Nat.cast position

theorem listing_eq (s : CAddrMan) : s.listing = s.order.map fun e => e.2.revived := by
  rw [listing, order, List.map_append, news, olds, List.map_map, List.map_map]
  congr 1
  · refine List.map_congr_left fun e member => (revived_new ?_).symm
    exact Bool.not_eq_true' _ |>.mp (List.mem_filter.mp member).2
  · exact List.map_congr_left fun e member => (revived_tried (List.mem_filter.mp member).2).symm

theorem Consistent.length_news (consistent : s.Consistent) : s.nNew = s.news.length := by
  rw [consistent.nNew_eq, news, List.length_map, newEntries, ← List.countP_eq_length_filter]
  rfl

theorem Consistent.length_olds (consistent : s.Consistent) : s.nTried = s.olds.length := by
  rw [consistent.nTried_eq, olds, List.length_map, triedEntries, ← List.countP_eq_length_filter]
  rfl

theorem Consistent.kinds (consistent : s.Consistent) :
    ∀ e ∈ s.mapInfo.entries, e.2.nRefCount ≠ 0 ↔ e.2.fInTried = false := by
  intro e member
  have sound := consistent.sound e.1 e.2 (mem_entries.mp member)
  constructor
  · intro nonzero
    exact Bool.eq_false_iff.mpr fun tried => nonzero (sound.tried tried).2
  · intro new
    exact (sound.new new).1.ne'

theorem Consistent.written (consistent : s.Consistent) (nVersion : ℤ) :
    (writeNew nVersion s.nNew s.mapInfo.entries 0 fun _ => 0).1 = s.news.flatMap (CAddrInfo.serialize nVersion) ∧
      ∀ (i : ℕ) e, (newEntries s.mapInfo.entries)[i]? = some e → s.unkIds nVersion e.1 = i := by
  have enough : 0 + ((newEntries s.mapInfo.entries).length : ℤ) = s.nNew := by
    rw [consistent.length_news, news, List.length_map, zero_add]
  obtain ⟨bytes, ids⟩ := @writeNew_eq nVersion s.nNew 0 s.mapInfo.entries (fun _ => 0) consistent.kinds
    s.mapInfo.nodup_keys enough
  refine ⟨by rw [bytes, news, List.flatMap_map], fun i e found => ?_⟩
  rw [unkIds, ids i e found, zero_add]

theorem Consistent.distinct (consistent : s.Consistent) : (s.listing.map (·.toCNetAddr)).Nodup := by
  have all := consistent.agree.nodup s.mapInfo.nodup_keys
  have perm := (perm_order s).map fun e : ℤ × CAddrInfo => e.2.toCNetAddr
  rw [listing_eq, List.map_map]
  exact perm.nodup_iff.mpr all

/-- The ids that the entries get are different. -/
theorem rename_injective (known : (s.mapInfo.find? n).isSome) (same : s.rename n = s.rename k) : n = k := by
  obtain ⟨info, found⟩ := Option.isSome_iff_exists.mp known
  obtain ⟨i, here⟩ := exists_place found
  have member : n ∈ s.order.map Prod.fst := List.mem_map_of_mem (f := Prod.fst) (List.mem_of_getElem? here)
  exact (List.idxOf_inj member).mp (Int.ofNat.inj same)

/-- In the buckets the new entries have the ids that they get. -/
theorem Consistent.unkIds_eq (consistent : s.Consistent) (nVersion : ℤ) (found : s.mapInfo.find? n = some info)
    (fInTried : info.fInTried = false) : ∃ i : ℕ, s.unkIds nVersion n = i ∧ s.rename n = i ∧ i < s.news.length ∧
      s.listing[i]? = some info.restored := by
  have member : (n, info) ∈ newEntries s.mapInfo.entries := by
    refine List.mem_filter.mpr ⟨mem_entries.mpr found, ?_⟩
    rw [fInTried]
    rfl
  obtain ⟨i, here⟩ := List.mem_iff_getElem?.mp member
  have inside : i < (newEntries s.mapInfo.entries).length := (List.getElem?_eq_some_iff.mp here).1
  have place : s.order[i]? = some (n, info) := by rwa [order, List.getElem?_append_left inside]
  refine ⟨i, (consistent.written nVersion).2 i _ here, rename_eq place, ?_, ?_⟩
  · rwa [news, List.length_map]
  · rw [listing_eq, List.getElem?_map, place, Option.map_some, revived_new fInTried]

theorem Consistent.new_of_mem (consistent : s.Consistent) {b : NewBucket} (inside : n ∈ s.vvNew b) :
    ∃ info, s.mapInfo.find? n = some info ∧ info.fInTried = false := by
  have counted := consistent.new n
  have positive := Multiset.count_pos.mpr (mem_newContents.mpr ⟨b, inside⟩)
  cases found : s.mapInfo.find? n with
  | none =>
    rw [references_of_none found] at counted
    omega
  | some info =>
    rw [references_of_some found] at counted
    refine ⟨info, rfl, Bool.eq_false_iff.mpr fun tried => ?_⟩
    have zero := ((consistent.sound n info found).tried tried).2
    omega

/-- A bucket holds new entries only. -/
theorem Consistent.card_vvNew (consistent : s.Consistent) (b : NewBucket) : ((s.vvNew b).card : ℤ) ≤ s.nNew := by
  have inside : s.vvNew b ⊆ ((newEntries s.mapInfo.entries).map Prod.fst).toFinset := by
    intro n member
    obtain ⟨info, found, new⟩ := consistent.new_of_mem member
    refine List.mem_toFinset.mpr (List.mem_map.mpr ⟨(n, info), List.mem_filter.mpr ⟨mem_entries.mpr found, ?_⟩,
      rfl⟩)
    rw [new]
    rfl
  have most := (Finset.card_le_card inside).trans (List.toFinset_card_le _)
  rw [List.length_map] at most
  rw [consistent.length_news, news, List.length_map]
  exact Int.ofNat_le.mpr most

theorem mem_newIds : n ∈ s.newIds ↔ ∃ b, n ∈ s.vvNew b := by
  rw [← mem_newContents, ← coe_newIds, Multiset.mem_coe]

theorem snd_pairs : (s.pairs nVersion).map Prod.snd = s.newIds.map (s.unkIds nVersion) := by
  rw [pairs, newIds, List.map_flatMap, List.map_flatMap]
  congr 1
  funext b
  rw [List.map_map]
  exact List.map_id _

theorem mem_pairs {b : NewBucket} : (b, k) ∈ s.pairs nVersion ↔ ∃ n ∈ s.vvNew b, s.unkIds nVersion n = k := by
  rw [pairs, List.mem_flatMap]
  constructor
  · rintro ⟨c, -, member⟩
    obtain ⟨id, written, same⟩ := List.mem_map.mp member
    obtain ⟨rfl, rfl⟩ := Prod.mk.inj same
    obtain ⟨n, inside, position⟩ := List.mem_map.mp written
    exact ⟨n, (Finset.mem_sort _).mp inside, position⟩
  · rintro ⟨n, inside, rfl⟩
    have written := List.mem_map_of_mem (f := s.unkIds nVersion) ((Finset.mem_sort (· ≤ ·)).mpr inside)
    exact ⟨b, List.mem_finRange b, List.mem_map.mpr ⟨_, written, rfl⟩⟩

/-- An entry is referred to as often as its entry says. -/
theorem Consistent.count_pairs (consistent : s.Consistent) (nVersion : ℤ) (found : s.mapInfo.find? n = some info)
    (fInTried : info.fInTried = false) :
    (((s.pairs nVersion).map Prod.snd).count (s.unkIds nVersion n) : ℤ) = info.nRefCount := by
  obtain ⟨i, position, renamed, -⟩ := consistent.unkIds_eq nVersion found fInTried
  have same : ((s.newIds.map (s.unkIds nVersion)).count (s.unkIds nVersion n)) = s.newIds.count n := by
    rw [List.count, List.countP_map]
    refine List.countP_congr fun m member => ?_
    obtain ⟨b, inside⟩ := mem_newIds.mp member
    obtain ⟨other, found', new⟩ := consistent.new_of_mem inside
    obtain ⟨j, position', renamed', -⟩ := consistent.unkIds_eq nVersion found' new
    simp only [comp_apply, beq_iff_eq]
    rw [position, position', ← renamed, ← renamed']
    exact ⟨rename_injective (by rw [found']; rfl), congrArg _⟩
  rw [snd_pairs, same, ← Multiset.coe_count, coe_newIds, consistent.new, references_of_some found]

/-- All pairs can be entered once the entries are read. -/
theorem Consistent.referable (consistent : s.Consistent) (total : s.nTried + s.nNew ≤ INT_MAX)
    (listed : Listed u s.listing) : Referable u (s.pairs nVersion) where
  distinct := by
    refine List.nodup_flatMap.mpr ⟨fun b _ => ?_, ?_⟩
    · apply List.Nodup.map (fun k m same => (Prod.mk.inj same).2)
      refine List.Nodup.map_on (fun n inside m inside' same => ?_) (Finset.sort_nodup _ _)
      obtain ⟨info, found, new⟩ := consistent.new_of_mem ((Finset.mem_sort _).mp inside)
      obtain ⟨other, found', new'⟩ := consistent.new_of_mem ((Finset.mem_sort _).mp inside')
      obtain ⟨i, position, renamed, -⟩ := consistent.unkIds_eq nVersion found new
      obtain ⟨j, position', renamed', -⟩ := consistent.unkIds_eq nVersion found' new'
      rw [position, position', ← renamed, ← renamed'] at same
      exact rename_injective (by rw [found]; rfl) same
    · refine (List.nodup_finRange _).imp fun {b c} different pair left right => different ?_
      obtain ⟨k, -, rfl⟩ := List.mem_map.mp left
      obtain ⟨m, -, same⟩ := List.mem_map.mp right
      exact (congrArg Prod.fst same).symm
  entry := by
    rintro ⟨b, k⟩ member
    obtain ⟨n, inside, rfl⟩ := mem_pairs.mp member
    obtain ⟨info, found, new⟩ := consistent.new_of_mem inside
    obtain ⟨i, position, -, -, here⟩ := consistent.unkIds_eq nVersion found new
    have entry := listed.entry i
    rw [here, Option.map_some] at entry
    obtain ⟨other, found', same⟩ := Option.map_eq_some_iff.mp entry
    dsimp only
    rw [position]
    exact ⟨other, found', congrArg (fun info : CAddrInfo => info.nRefCount) same⟩
  few k := by
    by_cases member : k ∈ (s.pairs nVersion).map Prod.snd
    · obtain ⟨⟨b, k⟩, pair, rfl⟩ := List.mem_map.mp member
      obtain ⟨n, inside, rfl⟩ := mem_pairs.mp pair
      obtain ⟨info, found, new⟩ := consistent.new_of_mem inside
      rw [consistent.count_pairs nVersion found new]
      exact ((consistent.sound n info found).new new).2
    · rw [List.count_eq_zero_of_not_mem member]
      decide
  range := by
    rintro ⟨b, k⟩ member
    obtain ⟨n, inside, rfl⟩ := mem_pairs.mp member
    obtain ⟨info, found, new⟩ := consistent.new_of_mem inside
    obtain ⟨i, position, -, below, -⟩ := consistent.unkIds_eq nVersion found new
    have count := consistent.length_news
    have rest := consistent.length_olds
    have limit : INT_MAX = 2147483647 := rfl
    dsimp only
    omega

/-- The computed tried buckets have room for the list. -/
theorem countP_listing (hash2 : List UInt8 → Uint256) (nKey : List UInt8) (b : TriedBucket) :
    s.listing.countP (inBucket hash2 nKey b) = s.mapInfo.count (inBucket hash2 nKey b) := by
  have zero : (s.news.map restored).countP (inBucket hash2 nKey b) = 0 := by
    refine List.countP_eq_zero.mpr fun info member => ?_
    obtain ⟨other, -, rfl⟩ := List.mem_map.mp member
    exact Bool.false_ne_true
  rw [listing, List.countP_append, zero, zero_add, List.countP_map, olds, List.countP_map, triedEntries,
    List.countP_filter, OrderedMap.count]
  refine List.countP_congr fun e _ => ?_
  change (inBucket hash2 nKey b e.2.restoredTried && e.2.fInTried) = true ↔ inBucket hash2 nKey b e.2 = true
  rw [inBucket, inBucket, Bool.and_comm]
  rfl

theorem Consistent.serialize_eq (consistent : s.Consistent) (nVersion : ℤ) : s.serialize nVersion =
    encode 1 0 ++ (writeVector s.nKey ++ (encodeInt 4 s.nNew ++ (encodeInt 4 s.nTried ++
      (encodeInt 4 ADDRMAN_NEW_BUCKET_COUNT ++ (s.news.flatMap (CAddrInfo.serialize nVersion) ++
        (s.olds.flatMap (CAddrInfo.serialize nVersion) ++ (List.finRange ADDRMAN_NEW_BUCKET_COUNT).flatMap fun b =>
          encodeInt 4 (s.bucketIds nVersion b).length ++ (s.bucketIds nVersion b).flatMap (encodeInt 4))))))) := by
  have enough : 0 + ((triedEntries s.mapInfo.entries).length : ℤ) = s.nTried := by
    rw [consistent.length_olds, olds, List.length_map, zero_add]
  have bucket (b : NewBucket) : writeBucket (s.unkIds nVersion) (s.vvNew b) =
      encodeInt 4 (s.bucketIds nVersion b).length ++ (s.bucketIds nVersion b).flatMap (encodeInt 4) := by
    rw [writeBucket, bucketIds, List.length_map, Finset.length_sort, List.flatMap_map]
  have first : writeNew nVersion s.nNew s.mapInfo.entries 0 (fun _ => 0) =
      (s.news.flatMap (CAddrInfo.serialize nVersion), s.unkIds nVersion) :=
    Prod.ext (consistent.written nVersion).1 rfl
  rw [serialize, first, writeTried_eq enough]
  simp only [bucket]
  rw [olds, List.flatMap_map]

/-- Without tried entries all tried buckets are empty. -/
theorem stocked_news {infos : List CAddrInfo} (listed : Listed s (infos.map restored))
    (empty : s.vvTried = fun _ => []) : Stocked hash2 s (infos.map restored) where
  tried n := by
    have absent : n ∉ s.triedContents := fun member => by
      obtain ⟨b, inside⟩ := mem_triedContents.mp member
      rw [empty] at inside
      exact absurd inside List.not_mem_nil
    have new : s.isTried n ≠ true := fun tried => by
      obtain ⟨info, found, tried⟩ := exists_of_isTried tried
      obtain ⟨i, -, other, here, same⟩ := listed.exists_of_find? found
      obtain ⟨original, -, rfl⟩ := List.mem_map.mp (List.mem_of_getElem? here)
      have kind : false = info.fInTried := congrArg (fun info : CAddrInfo => info.fInTried) same
      rw [tried] at kind
      cases kind
    rw [Multiset.count_eq_zero.mpr absent, if_neg new]
  size b := by
    rw [empty]
    refine (List.countP_eq_zero.mpr fun info member => ?_).symm
    obtain ⟨original, -, rfl⟩ := List.mem_map.mp member
    exact Bool.false_ne_true

theorem Consistent.reads (consistent : s.Consistent) (low : -2 ^ 31 ≤ nVersion) (high : nVersion < 2 ^ 31)
    (fit : s.Representable)
    (uncrowded : ∀ b, s.mapInfo.count (inBucket hash2 s.nKey b) ≤ ADDRMAN_TRIED_BUCKET_SIZE) :
    ∃ u t, (unserialize hash2 MAX_SIZE).Reads (s.serialize nVersion) t ∧ Listed u s.listing ∧
      Stocked hash2 u s.listing ∧ Referred u t (s.pairs nVersion) ∧ u.nKey = s.nKey ∧ u.nTried = s.nTried ∧
      u.nNew = s.nNew := by
  have limit : INT_MAX = 2147483647 := rfl
  have total := fit.total
  have newCount := consistent.length_news
  have triedCount := consistent.length_olds
  have distinct := consistent.distinct
  have fits : ∀ info, (∃ n, (n, info) ∈ s.mapInfo.entries) → info.Representable := by
    rintro info ⟨n, member⟩
    exact fit.entry n info (mem_entries.mp member)
  have fitNews : ∀ info ∈ s.news, info.Representable := by
    intro info member
    obtain ⟨e, inside, rfl⟩ := List.mem_map.mp member
    exact fits e.2 ⟨e.1, (List.mem_filter.mp inside).1⟩
  have fitOlds : ∀ info ∈ s.olds, info.Representable := by
    intro info member
    obtain ⟨e, inside, rfl⟩ := List.mem_map.mp member
    exact fits e.2 ⟨e.1, (List.mem_filter.mp inside).1⟩
  have distinctNews : ((([] : List CAddrInfo) ++ s.news.map restored).map (·.toCNetAddr)).Nodup := by
    rw [listing, List.map_append] at distinct
    exact (List.nodup_append.mp distinct).1
  obtain ⟨v, readsNew, listedNew, same⟩ := @reads_new hash2 { nKey := s.nKey, nNew := s.nNew, nTried := s.nTried } nVersion
    low high s.news [] fitNews (Listed.empty ..) distinctNews (by
      rw [List.length_nil]
      push_cast
      omega)
  rw [List.length_nil, zero_add, ← newCount, List.nil_append] at listedNew
  have stocked : Stocked hash2 { v with nIdCount := s.nNew } (s.news.map restored) :=
    stocked_news listedNew same.vvTried
  obtain ⟨w, readsTried, listed, stocked, nKey, vvNew, nTried, nNew⟩ := reads_tried low high fitOlds listedNew stocked
    distinct (by
      rw [List.length_map]
      omega) (fun b => by
      change s.listing.countP (inBucket hash2 v.nKey b) ≤ _
      rw [same.nKey, countP_listing]
      exact uncrowded b) 0
  have listed' : Listed { w with nTried := w.nTried - 0 } s.listing :=
    ⟨listed.indexed.congr (SameIndices.of_eq rfl rfl rfl rfl), listed.nIdCount, listed.entry, listed.count⟩
  have empty : w.vvNew = fun _ => ∅ := vvNew.trans same.vvNew
  have sizes (b : NewBucket) : (s.bucketIds nVersion b).length < 2 ^ 31 := by
    have most := consistent.card_vvNew b
    rw [bucketIds, List.length_map, Finset.length_sort]
    omega
  obtain ⟨t, readsBuckets, referred⟩ := @reads_buckets { w with nTried := w.nTried - 0 } { w with nTried := w.nTried - 0 }
    (s.bucketIds nVersion) sizes ADDRMAN_NEW_BUCKET_COUNT 0 rfl [] (consistent.referable total listed')
    (Referred.start empty)
  refine ⟨_, t, ?_, listed', ⟨stocked.tried, stocked.size⟩, referred, nKey.trans same.nKey, ?_, nNew.trans same.nNew⟩
  · rw [consistent.serialize_eq]
    have length := @readsIff_vector MAX_SIZE s.nKey (lt_of_le_of_lt fit.nKey (by decide))
    refine (@LittleEndian.reads 1 0 (by decide)).bind ((length.reads fit.nKey).bind ?_)
    refine (@reads_int 4 s.nNew (by omega) (by omega)).bind ((@reads_int 4 s.nTried (by omega) (by omega)).bind ?_)
    apply (@reads_int 4 ADDRMAN_NEW_BUCKET_COUNT (by decide) (by decide)).bind
    have news : s.nNew.toNat = s.news.length := by omega
    have olds : s.nTried.toNat = s.olds.length := by omega
    rw [news, olds]
    rw [List.drop_zero] at readsBuckets
    refine readsNew.bind (readsTried.bind ?_)
    rw [Int.toNat_natCast]
    exact readsBuckets
  · exact (sub_zero _).trans (nTried.trans same.nTried)

/-- An entry is referred to as often as its entry says, under the id that it gets. -/
theorem Consistent.count_rename (consistent : s.Consistent) (nVersion : ℤ) (found : s.mapInfo.find? n = some info) :
    (((s.pairs nVersion).map Prod.snd).count (s.rename n) : ℤ) = info.nRefCount := by
  rcases Bool.eq_false_or_eq_true info.fInTried with tried | new
  · rw [((consistent.sound n info found).tried tried).2, Nat.cast_eq_zero]
    refine List.count_eq_zero_of_not_mem fun member => ?_
    obtain ⟨⟨b, k⟩, pair, same⟩ := List.mem_map.mp member
    obtain ⟨m, inside, rfl⟩ := mem_pairs.mp pair
    obtain ⟨other, found', new⟩ := consistent.new_of_mem inside
    obtain ⟨i, position, renamed, -⟩ := consistent.unkIds_eq nVersion found' new
    dsimp only at same
    rw [position, ← renamed] at same
    obtain rfl := rename_injective (by rw [found']; rfl) same
    obtain rfl := Option.some.inj (found.symm.trans found')
    rw [tried] at new
    cases new
  · obtain ⟨i, position, renamed, -⟩ := consistent.unkIds_eq nVersion found new
    rw [renamed, ← position]
    exact consistent.count_pairs nVersion found new

theorem Consistent.renumbered (consistent : s.Consistent) (listed : Listed u s.listing)
    (referred : Referred u t (s.pairs nVersion)) (nKey : u.nKey = s.nKey) (nTried : u.nTried = s.nTried)
    (nNew : u.nNew = s.nNew) : Renumbered s.rename s t where
  nKey := referred.nKey.trans nKey
  injective n m known _ same := rename_injective known same
  entry n info found := by
    obtain ⟨i, place⟩ := exists_place found
    have entry := listed.entry i
    rw [listing_eq, List.getElem?_map, place, Option.map_some, Option.map_some] at entry
    obtain ⟨other, found', same⟩ := Option.map_eq_some_iff.mp entry
    have shape : other = { info.revived with nRandomPos := other.nRandomPos } :=
      congrArg (fun info : CAddrInfo => { info with nRandomPos := other.nRandomPos }) same
    have counted := consistent.count_rename nVersion found
    refine ⟨other.nRandomPos, ?_⟩
    rw [rename_eq place] at counted ⊢
    rw [referred.find?, found', Option.map_some, counted, shape]
    simp only [revived, zero_add]
  onto k info found := by
    rw [referred.find?] at found
    obtain ⟨other, found', -⟩ := Option.map_eq_some_iff.mp found
    obtain ⟨i, rfl, original, here, -⟩ := listed.exists_of_find? found'
    rw [listing_eq, List.getElem?_map] at here
    obtain ⟨⟨n, old⟩, place, -⟩ := Option.map_eq_some_iff.mp here
    refine ⟨n, ?_, rename_eq place⟩
    rw [mem_order.mp (List.mem_of_getElem? place)]
    rfl
  vvNew b := by
    ext k
    rw [referred.mem, mem_pairs, Finset.mem_image]
    refine exists_congr fun n => and_congr_right fun inside => ?_
    obtain ⟨info, found, new⟩ := consistent.new_of_mem inside
    obtain ⟨i, position, renamed, -⟩ := consistent.unkIds_eq nVersion found new
    rw [position, renamed]
  nTried := referred.nTried.trans nTried
  nNew := referred.nNew.trans nNew

theorem Renumbered.sound {rename : ℤ → ℤ} (renumbered : Renumbered rename s t) (consistent : s.Consistent)
    (found : t.mapInfo.find? k = some info) : info.Sound := by
  obtain ⟨n, known, rfl⟩ := renumbered.onto k info found
  obtain ⟨old, found'⟩ := Option.isSome_iff_exists.mp known
  obtain ⟨nRandomPos, entry⟩ := renumbered.entry n old found'
  obtain rfl := Option.some.inj (entry.symm.trans found)
  obtain ⟨tried, new, -, nLastSuccess⟩ := consistent.sound n old found'
  exact ⟨tried, new, le_rfl, nLastSuccess⟩

/-- The counters of what is read. -/
theorem countP_fInTried (q : Bool → Bool) :
    s.listing.countP (fun info => q info.fInTried) = s.mapInfo.count fun info => q info.fInTried := by
  rw [listing_eq, List.countP_map]
  exact (perm_order s).countP_eq _

theorem Consistent.read (consistent : s.Consistent) (listed : Listed u s.listing) (stocked : Stocked hash2 u s.listing)
    (referred : Referred u t (s.pairs nVersion)) (nKey : u.nKey = s.nKey) (nTried : u.nTried = s.nTried)
    (nNew : u.nNew = s.nNew) : t.Consistent := by
  have renumbered := consistent.renumbered listed referred nKey nTried nNew
  refine referred.consistent listed stocked ?_ ?_ (fun n info found => renumbered.sound consistent found) fun k => ?_
  · rw [nTried, consistent.nTried_eq]
    exact congrArg Nat.cast (countP_fInTried id).symm
  · rw [nNew, consistent.nNew_eq]
    exact congrArg Nat.cast (countP_fInTried not).symm
  · cases found : t.mapInfo.find? k with
    | none =>
      rw [references_of_none found, Nat.cast_eq_zero]
      refine List.count_eq_zero_of_not_mem fun member => ?_
      obtain ⟨⟨b, m⟩, pair, rfl⟩ := List.mem_map.mp member
      obtain ⟨n, inside, rfl⟩ := mem_pairs.mp pair
      obtain ⟨info, found', new⟩ := consistent.new_of_mem inside
      obtain ⟨i, position, renamed, -⟩ := consistent.unkIds_eq nVersion found' new
      obtain ⟨nRandomPos, entry⟩ := renumbered.entry n info found'
      dsimp only at found
      rw [position, ← renamed, entry] at found
      cases found
    | some info =>
      obtain ⟨n, known, rfl⟩ := renumbered.onto k info found
      obtain ⟨old, found'⟩ := Option.isSome_iff_exists.mp known
      obtain ⟨nRandomPos, entry⟩ := renumbered.entry n old found'
      have counted := consistent.count_rename nVersion found'
      rw [references_of_some entry]
      exact counted

theorem Consistent.survives (consistent : s.Consistent) (low : -2 ^ 31 ≤ nVersion) (high : nVersion < 2 ^ 31)
    (fit : s.Representable)
    (uncrowded : ∀ b, s.mapInfo.count (inBucket hash2 s.nKey b) ≤ ADDRMAN_TRIED_BUCKET_SIZE) :
    ∃ t, (unserialize hash2 MAX_SIZE).Reads (s.serialize nVersion) t ∧ t.check_ = 0 ∧
      ∃ rename, Renumbered rename s t := by
  obtain ⟨u, t, reads, listed, stocked, referred, nKey, nTried, nNew⟩ := consistent.reads low high fit uncrowded
  refine ⟨t, reads, (check_eq_zero_iff t).mpr ?_, s.rename, ?_⟩
  · exact consistent.read listed stocked referred nKey nTried nNew
  · exact consistent.renumbered listed referred nKey nTried nNew

/-- A manager that passes its check comes back from the disk under other ids, as long as no computed tried bucket is asked
for more than it holds. -/
theorem unserialize_serialize (hash2 : List UInt8 → Uint256) (s : CAddrMan) {nVersion : ℤ} (low : -2 ^ 31 ≤ nVersion)
    (high : nVersion < 2 ^ 31) (check : s.check_ = 0) (fit : s.Representable)
    (uncrowded : ∀ b, s.mapInfo.count (inBucket hash2 s.nKey b) ≤ ADDRMAN_TRIED_BUCKET_SIZE) :
    ∃ t, (unserialize hash2 MAX_SIZE).Reads (s.serialize nVersion) t ∧ t.check_ = 0 ∧
      ∃ rename, Renumbered rename s t :=
  ((check_eq_zero_iff s).mp check).survives low high fit uncrowded

/-- In the states of a run the entries of a computed tried bucket are in it. -/
theorem Intact.uncrowded (intact : Intact hash2 none s) (b : TriedBucket) :
    s.mapInfo.count (inBucket hash2 s.nKey b) ≤ ADDRMAN_TRIED_BUCKET_SIZE := by
  have distinct : ((s.mapInfo.entries.filter fun e => inBucket hash2 s.nKey b e.2).map Prod.fst).Nodup :=
    s.mapInfo.nodup_keys.sublist (List.filter_sublist.map Prod.fst)
  have inside : (s.mapInfo.entries.filter fun e => inBucket hash2 s.nKey b e.2).map Prod.fst ⊆ s.vvTried b := by
    intro n member
    obtain ⟨⟨n, info⟩, kept, rfl⟩ := List.mem_map.mp member
    obtain ⟨entry, own⟩ := List.mem_filter.mp kept
    obtain ⟨tried, bucket⟩ := (Bool.and_eq_true _ _).mp own
    have found := mem_entries.mp entry
    have count := intact.tabled.tried n
    rw [isTried_of_some found, tried, if_pos rfl, owes_none, add_zero] at count
    obtain ⟨c, place⟩ := mem_triedContents.mp (Multiset.count_pos.mp (count ▸ Nat.one_pos))
    have placed := intact.tabled.placed c n place
    rw [info_of_some found] at placed
    dsimp only
    rwa [← of_decide_eq_true bucket, placed]
  have few := (distinct.subperm inside).length_le
  rw [List.length_map, ← List.countP_eq_length_filter] at few
  exact few.trans (intact.tabled.triedSize b)

/-- The manager that a run leads to comes back from the disk. -/
theorem run_survives (hash2 : List UInt8 → Uint256) (nKey : List UInt8) {events : List AddrEvent}
    (timely : ∀ event ∈ events, event.Timely) (done : run hash2 { nKey } events = .ok s) (fit : s.Representable)
    (low : -2 ^ 31 ≤ nVersion) (high : nVersion < 2 ^ 31) :
    ∃ t, (unserialize hash2 MAX_SIZE).Reads (s.serialize nVersion) t ∧ t.check_ = 0 ∧
      ∃ rename, Renumbered rename s t := by
  have intact := ((Intact.empty hash2 nKey).run timely done).1
  exact ((check_eq_zero_iff s).mp intact.coherent.check).survives low high fit intact.uncrowded

/-- After an address was added. -/
theorem run_survives_added : ∃ s t, run (fun _ => 0) { nKey := [] } [.add (manyAddr 7) {} 0 0 fun _ => 0] = .ok s ∧
    (unserialize (fun _ => 0) MAX_SIZE).Reads (s.serialize CLIENT_VERSION) t ∧ t.check_ = 0 := by
  obtain ⟨s, done, nKey, total, entries⟩ : ∃ s, run (fun _ => 0) { nKey := [] } [.add (manyAddr 7) {} 0 0 fun _ => 0] =
      .ok s ∧ s.nKey = [] ∧ s.nTried + s.nNew = 1 ∧ ∀ e ∈ s.mapInfo.entries, e.2.Representable :=
    ⟨_, rfl, rfl, by decide, by decide⟩
  have fit : s.Representable :=
    ⟨nKey ▸ by decide, total ▸ by decide, fun n info found => entries _ (mem_entries.mpr found)⟩
  obtain ⟨t, reads, check, -⟩ := run_survives (fun _ => 0) [] (List.forall_mem_singleton.mpr (by trivial)) done fit
    (show -2 ^ 31 ≤ (CLIENT_VERSION : ℤ) by decide) (by decide)
  exact ⟨s, t, done, reads, check⟩

def manyTried (i : ℕ) : CAddrInfo := { toCAddress := manyAddr i, nLastSuccess := 1 }

/-- Tried entries in the buckets that are computed for them, however many there are. -/
def crowd (hash2 : List UInt8 → Uint256) (nTried : ℤ) : ℕ → CAddrMan
  | 0 => { nKey := [], nTried }
  | n + 1 => (crowd hash2 nTried n).enterTried hash2 (manyTried n)

variable (hash2) in
theorem crowd_fields (nTried : ℤ) (n : ℕ) : (crowd hash2 nTried n).nKey = [] ∧ (crowd hash2 nTried n).nTried = nTried ∧
    (crowd hash2 nTried n).nNew = 0 ∧ (crowd hash2 nTried n).vvNew = fun _ => ∅ := by
  induction n with
  | zero => exact ⟨rfl, rfl, rfl, rfl⟩
  | succ n ih => exact ih

variable (hash2) in
theorem crowd_listed (nTried : ℤ) {n : ℕ} (few : (n : ℤ) ≤ INT_MAX) :
    Listed (crowd hash2 nTried n) ((List.range n).map fun i => (manyTried i).restoredTried) ∧
      Stocked hash2 (crowd hash2 nTried n) ((List.range n).map fun i => (manyTried i).restoredTried) := by
  have limit : INT_MAX = 2147483647 := rfl
  induction n with
  | zero =>
    have listed := Listed.empty [] 0 nTried
    exact ⟨listed, @stocked_news hash2 _ [] listed rfl⟩
  | succ n ih =>
    obtain ⟨listed, stocked⟩ := ih (by omega)
    have count := listed.nIdCount
    rw [List.length_map, List.length_range] at count
    rw [List.range_succ, List.map_append, List.map_singleton]
    have next : Stocked hash2 ((crowd hash2 nTried n).enterTried hash2 (manyTried n).restored) _ :=
      stocked.enterTried listed
    refine ⟨listed.enter ?_ (Entered.enterTried hash2 (manyTried n) _) rfl rfl ?_ rfl rfl rfl, next⟩
    · rw [count]
      omega
    · intro member
      rw [List.map_map] at member
      obtain ⟨i, before, same⟩ := List.mem_map.mp member
      have below := List.mem_range.mp before
      have twice := manyAddr_injective (by omega) (by omega) same
      omega

variable (hash2) in
theorem crowd_entry (nTried : ℤ) {n : ℕ} (few : (n : ℤ) ≤ INT_MAX)
    (found : (crowd hash2 nTried n).mapInfo.find? k = some info) :
    ∃ i : ℕ, k = i ∧ i < n ∧ strip (manyTried i).restoredTried = strip info := by
  obtain ⟨i, rfl, other, here, same⟩ := (crowd_listed hash2 nTried few).1.exists_of_find? found
  rw [List.getElem?_map] at here
  obtain ⟨j, place, rfl⟩ := Option.map_eq_some_iff.mp here
  obtain ⟨inside, position⟩ := List.getElem?_eq_some_iff.mp place
  rw [List.length_range] at inside
  rw [List.getElem_range] at position
  subst position
  exact ⟨i, rfl, inside, same⟩

variable (hash2) in
theorem crowd_check {n : ℕ} (few : (n : ℤ) ≤ INT_MAX) : (crowd hash2 n n).check_ = 0 := by
  obtain ⟨-, nTried, nNew, vvNew⟩ := crowd_fields hash2 n n
  obtain ⟨listed, stocked⟩ := crowd_listed hash2 n few
  refine (check_eq_zero_iff _).mpr ((Referred.start vvNew).consistent listed stocked ?_ ?_ ?_ ?_)
  · have all : (List.range n).countP ((fun info : CAddrInfo => info.fInTried) ∘ fun i => (manyTried i).restoredTried) =
        (List.range n).length := List.countP_eq_length.mpr fun _ _ => rfl
    rw [nTried, List.countP_map, all, List.length_range]
  · have zero : (List.range n).countP ((fun info : CAddrInfo => !info.fInTried) ∘ fun i => (manyTried i).restoredTried) =
        0 := List.countP_eq_zero.mpr fun _ _ => Bool.false_ne_true
    rw [nNew, List.countP_map, zero, Nat.cast_zero]
  · intro k info found
    obtain ⟨i, -, -, same⟩ := crowd_entry hash2 n few found
    rw [← sound_strip, ← same, sound_strip]
    exact ⟨fun _ => ⟨one_ne_zero, rfl⟩, fun new => Bool.noConfusion new, le_rfl, zero_le_one⟩
  · intro k
    rw [List.map_nil, List.count_nil]
    cases found : (crowd hash2 n n).mapInfo.find? k with
    | none => rw [references_of_none found, Nat.cast_zero]
    | some info =>
      obtain ⟨i, -, -, same⟩ := crowd_entry hash2 n few found
      rw [references_of_some found, Nat.cast_zero]
      exact congrArg (fun info : CAddrInfo => info.nRefCount) same

variable (hash2) in
theorem crowd_representable {n : ℕ} (few : (n : ℤ) ≤ INT_MAX) : (crowd hash2 n n).Representable := by
  obtain ⟨nKey, nTried, nNew, -⟩ := crowd_fields hash2 n n
  refine ⟨?_, ?_, fun k info found => ?_⟩
  · rw [nKey]
    exact Nat.zero_le _
  · rwa [nTried, nNew, add_zero]
  · obtain ⟨i, -, -, same⟩ := crowd_entry hash2 n few found
    have nLastSuccess : 1 = info.nLastSuccess := congrArg (fun info : CAddrInfo => info.nLastSuccess) same
    have nAttempts : 0 = info.nAttempts := congrArg (fun info : CAddrInfo => info.nAttempts) same
    rw [CAddrInfo.Representable, ← nLastSuccess, ← nAttempts]
    decide

/-- A new entry with references in two buckets, and a tried one. -/
def twice : CAddrMan where
  nKey := []
  nIdCount := 2
  mapInfo := (OrderedMap.insert ∅ 0 { toCAddress := manyAddr 0, nRefCount := 2, nRandomPos := 0 }).insert 1
    { manyTried 1 with fInTried := true, nRandomPos := 1 }
  mapAddr := fun addr => if addr = (manyAddr 0).toCNetAddr then some 0
    else if addr = (manyAddr 1).toCNetAddr then some 1 else none
  vRandom := [0, 1]
  nTried := 1
  vvTried := fun b => if b.val = 5 then [1] else []
  nNew := 1
  vvNew := fun b => if b.val = 3 ∨ b.val = 7 then {0} else ∅

theorem unserialize_serialize_twice : ∃ t, (unserialize (fun _ => 0) MAX_SIZE).Reads (twice.serialize CLIENT_VERSION) t ∧
    t.check_ = 0 ∧ ∃ rename, Renumbered rename twice t := by
  have each : ∀ e ∈ twice.mapInfo.entries, e.2.Representable := by decide
  have fit : twice.Representable :=
    ⟨by decide, by decide, fun n info found => each _ (mem_entries.mpr found)⟩
  refine unserialize_serialize _ _ (by decide) (by decide) (by decide +kernel) fit fun b => ?_
  exact List.countP_le_length.trans (by decide)

/-- Together the tried buckets hold 4096 entries. -/
theorem Stowed.length (stowed : Stowed s) :
    s.triedIds.length ≤ ADDRMAN_TRIED_BUCKET_COUNT * ADDRMAN_TRIED_BUCKET_SIZE := by
  have most := List.sum_le_card_nsmul ((List.finRange ADDRMAN_TRIED_BUCKET_COUNT).map fun b => (s.vvTried b).length)
    ADDRMAN_TRIED_BUCKET_SIZE fun size member => by
      obtain ⟨b, -, rfl⟩ := List.mem_map.mp member
      exact stowed b
  rwa [List.length_map, List.length_finRange, smul_eq_mul, ← List.length_flatMap] at most

variable (hash2) in
/-- More tried entries than that do not come back from the disk. -/
theorem crowd_lost : ¬ ∃ t, (unserialize hash2 MAX_SIZE).Reads ((crowd hash2 4097 4097).serialize nVersion) t ∧
    t.check_ = 0 ∧ ∃ rename, Renumbered rename (crowd hash2 4097 4097) t := by
  have few : ((4097 : ℕ) : ℤ) ≤ INT_MAX := by decide
  rintro ⟨t, reads, check, rename, renumbered⟩
  have most := (reads.satisfies (ensures_unserialize hash2 MAX_SIZE)).length
  have consistent := (check_eq_zero_iff t).mp check
  have entry {i : ℕ} (inside : i < 4097) : ∃ info, (crowd hash2 4097 4097).mapInfo.find? i = some info ∧
      info.fInTried = true := by
    have place := (crowd_listed hash2 4097 few).1.entry i
    rw [List.getElem?_map, List.getElem?_range inside, Option.map_some, Option.map_some] at place
    obtain ⟨info, found, same⟩ := Option.map_eq_some_iff.mp place
    exact ⟨info, found, congrArg (fun info : CAddrInfo => info.fInTried) same⟩
  have distinct : ((List.range 4097).map fun i : ℕ => rename i).Nodup := by
    refine List.nodup_range.map_on fun i inside j inside' same => ?_
    obtain ⟨info, found, -⟩ := entry (List.mem_range.mp inside)
    obtain ⟨other, found', -⟩ := entry (List.mem_range.mp inside')
    exact Int.ofNat.inj (renumbered.injective i j (by rw [found]; rfl) (by rw [found']; rfl) same)
  have held : (List.range 4097).map (fun i : ℕ => rename i) ⊆ t.triedIds := by
    intro n member
    obtain ⟨i, inside, rfl⟩ := List.mem_map.mp member
    obtain ⟨info, found, tried⟩ := entry (List.mem_range.mp inside)
    obtain ⟨nRandomPos, found'⟩ := renumbered.entry i info found
    have count := consistent.tried (rename i)
    rw [isTried_of_some found'] at count
    dsimp only at count
    rw [if_pos tried, ← coe_triedIds] at count
    exact Multiset.mem_coe.mp (Multiset.count_pos.mp (count ▸ Nat.one_pos))
  have length := (distinct.subperm held).length_le
  rw [List.length_map, List.length_range] at length
  exact absurd (length.trans most) (by decide)

/-- The check does not bound the buckets: whatever the hash function is, 4097 tried entries pass it. -/
theorem not_unserialize_serialize_crowd : ¬ ∃ hash2 : List UInt8 → Uint256, ∀ s : CAddrMan, s.check_ = 0 →
    s.Representable → ∃ t, (unserialize hash2 MAX_SIZE).Reads (s.serialize CLIENT_VERSION) t ∧ t.check_ = 0 ∧
      ∃ rename, Renumbered rename s t := by
  rintro ⟨hash2, survives⟩
  have few : ((4097 : ℕ) : ℤ) ≤ INT_MAX := by decide
  exact crowd_lost hash2 (survives _ (crowd_check hash2 few) (crowd_representable hash2 few))

end CAddrMan

end BitCrystal
