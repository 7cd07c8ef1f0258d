import BitCrystal.Model.AddrManCodec
import BitCrystal.Proofs.AddrIndices
import BitCrystal.Proofs.TxCodec

/-! # Reading back the address manager

An entry is read back without its memory-only fields. The entries get the ids from zero on in the order in which they are
read, and the positions in the buckets become these ids.
-/

namespace BitCrystal

open Function LittleEndian Reader

theorem CNetAddr.reads (addr : CNetAddr) : CNetAddr.unserialize.Reads addr.serialize addr := by
  have length : addr.serialize.length = 16 := by rw [serialize, List.length_reverse, length_encode]
  have taken := (reads_bytes length).map fun bytes => (⟨Fin.ofNat _ (decode bytes.reverse)⟩ : CNetAddr)
  have value : (⟨Fin.ofNat _ (decode addr.serialize.reverse)⟩ : CNetAddr) = addr := by
    rw [serialize, List.reverse_reverse, decode_encode (show addr.ip.val < 256 ^ 16 from addr.ip.isLt)]
    exact congrArg CNetAddr.mk (Fin.ext (Nat.mod_eq_of_lt addr.ip.isLt))
  rwa [value] at taken

theorem CService.reads (service : CService) : CService.unserialize.Reads service.serialize service := by
  have length : (encode 2 service.port.toNat).reverse.length = 2 := by rw [List.length_reverse, length_encode]
  have port := (reads_bytes length).map fun portN =>
    (⟨service.toCNetAddr, UInt16.ofNat (decode portN.reverse)⟩ : CService)
  have value : (⟨service.toCNetAddr, UInt16.ofNat (decode (encode 2 service.port.toNat).reverse.reverse)⟩ : CService) =
      service := by
    rw [List.reverse_reverse, decode_encode (show service.port.toNat < 256 ^ 2 from service.port.toNat_lt),
      UInt16.ofNat_toNat]
  rw [value] at port
  exact service.toCNetAddr.reads.bind port

namespace CAddrInfo

/-- The fields are values of the C++ types. -/
def Representable (info : CAddrInfo) : Prop :=
  InInt64 info.nLastSuccess ∧ -2 ^ 31 ≤ info.nAttempts ∧ info.nAttempts < 2 ^ 31

instance (info : CAddrInfo) : Decidable info.Representable := inferInstanceAs (Decidable (_ ∧ _ ∧ _))

/-- An entry as it is read back. -/
def restored (info : CAddrInfo) : CAddrInfo :=
  { info with nLastTry := 0, nRefCount := 0, fInTried := false, nRandomPos := -1 }

/-- A tried entry as it is read back. -/
def restoredTried (info : CAddrInfo) : CAddrInfo := { info.restored with fInTried := true }

/-- An entry of either kind as it is read back. -/
def revived (info : CAddrInfo) : CAddrInfo := { info with nLastTry := 0, nRefCount := 0, nRandomPos := -1 }

theorem revived_new {info : CAddrInfo} (new : info.fInTried = false) : info.revived = info.restored := by
  rw [revived, restored, new]

theorem revived_tried {info : CAddrInfo} (tried : info.fInTried = true) : info.revived = info.restoredTried := by
  rw [revived, restoredTried, restored, tried]

theorem reads {nVersion : ℤ} (low : -2 ^ 31 ≤ nVersion) (high : nVersion < 2 ^ 31) {info : CAddrInfo}
    (fit : info.Representable) : unserialize.Reads (info.serialize nVersion) info.restored := by
  obtain ⟨⟨lowSuccess, highSuccess⟩, lowAttempts, highAttempts⟩ := fit
  have time := @LittleEndian.reads 4 info.nTime.toNat info.nTime.toNat_lt
  have services := @LittleEndian.reads 8 info.nServices.toNat info.nServices.toNat_lt
  have attempts := (@reads_int 4 info.nAttempts (by omega) (by omega)).map fun nAttempts =>
    ({ toCService := info.toCService, nTime := UInt32.ofNat info.nTime.toNat,
       nServices := UInt64.ofNat info.nServices.toNat, source := info.source, nLastSuccess := info.nLastSuccess,
       nAttempts := nAttempts } : CAddrInfo)
  have whole : unserialize.Reads (info.serialize nVersion) _ :=
    (@reads_int 4 nVersion (by omega) (by omega)).bind (time.bind (services.bind (info.toCService.reads.bind
      (info.source.reads.bind ((@reads_int 8 info.nLastSuccess (by omega) (by omega)).bind attempts)))))
  rw [UInt32.ofNat_toNat, UInt64.ofNat_toNat] at whole
  exact whole

end CAddrInfo

namespace CAddrMan

variable {hash2 : List UInt8 → Uint256} {s t : CAddrMan} {n k : ℤ} {info : CAddrInfo} {nVersion : ℤ}

/-- The tried entries in the order of their ids, and the new ones. -/
def triedEntries (entries : List (ℤ × CAddrInfo)) : List (ℤ × CAddrInfo) := entries.filter fun e => e.2.fInTried

def newEntries (entries : List (ℤ × CAddrInfo)) : List (ℤ × CAddrInfo) := entries.filter fun e => !e.2.fInTried

theorem writeTried_eq {nTried nIds : ℤ} {entries : List (ℤ × CAddrInfo)}
    (enough : nIds + (triedEntries entries).length = nTried) :
    writeTried nVersion nTried entries nIds =
      (triedEntries entries).flatMap fun e => e.2.serialize nVersion := by
  induction entries generalizing nIds with
  | nil => rfl
  | cons entry rest ih =>
    rw [writeTried]
    rcases Bool.eq_false_or_eq_true entry.2.fInTried with tried | new
    · have shape : triedEntries (entry :: rest) = entry :: triedEntries rest := List.filter_cons_of_pos tried
      rw [shape, List.length_cons] at enough
      rw [if_neg (by omega), if_pos tried, shape, List.flatMap_cons, ih (by omega)]
    · have shape : triedEntries (entry :: rest) = triedEntries rest :=
        List.filter_cons_of_neg (by rw [new]; exact Bool.false_ne_true)
      rw [shape] at enough
      rw [shape]
      split
      next whole =>
        have nothing : triedEntries rest = [] := List.eq_nil_of_length_eq_zero (by omega)
        rw [nothing]
        rfl
      next => rw [if_neg (by rw [new]; exact Bool.false_ne_true), ih enough]

theorem writeNew_of_notMem {nNew nIds : ℤ} {entries : List (ℤ × CAddrInfo)} {mapUnkIds : ℤ → ℤ}
    (outside : n ∉ entries.map Prod.fst) : (writeNew nVersion nNew entries nIds mapUnkIds).2 n = mapUnkIds n := by
  induction entries generalizing nIds mapUnkIds with
  | nil => rfl
  | cons entry rest ih =>
    obtain ⟨different, outside⟩ := not_or.mp (List.mem_cons.not.mp outside)
    rw [writeNew]
    split
    · rfl
    dsimp only
    split
    · exact (ih outside).trans (update_of_ne different ..)
    · exact (ih outside).trans (update_of_ne different ..)

/-- All new entries are written, and each gets its position among them. -/
theorem writeNew_eq {nNew nIds : ℤ} {entries : List (ℤ × CAddrInfo)} {mapUnkIds : ℤ → ℤ}
    (kinds : ∀ e ∈ entries, e.2.nRefCount ≠ 0 ↔ e.2.fInTried = false) (unique : (entries.map Prod.fst).Nodup)
    (enough : nIds + (newEntries entries).length = nNew) :
    (writeNew nVersion nNew entries nIds mapUnkIds).1 = ((newEntries entries).flatMap fun e => e.2.serialize nVersion) ∧
      ∀ (i : ℕ) e, (newEntries entries)[i]? = some e → (writeNew nVersion nNew entries nIds mapUnkIds).2 e.1 = nIds + i := by
  induction entries generalizing nIds mapUnkIds with
  | nil => exact ⟨rfl, fun i e found => by cases found⟩
  | cons entry rest ih =>
    obtain ⟨kind, kinds⟩ := List.forall_mem_cons.mp kinds
    obtain ⟨apart, unique⟩ := List.nodup_cons.mp unique
    rw [writeNew]
    rcases Bool.eq_false_or_eq_true entry.2.fInTried with tried | new
    · have shape : newEntries (entry :: rest) = newEntries rest := by
        apply List.filter_cons_of_neg
        rw [tried]
        exact Bool.false_ne_true
      have vanished : ¬ entry.2.nRefCount ≠ 0 := fun nonzero => by
        rw [kind.mp nonzero] at tried
        cases tried
      rw [shape] at enough
      rw [shape, if_neg vanished]
      split
      next whole =>
        have nothing : newEntries rest = [] := List.eq_nil_of_length_eq_zero (by omega)
        rw [nothing]
        exact ⟨rfl, fun i e found => by cases found⟩
      next => exact ih kinds unique enough
    · have shape : newEntries (entry :: rest) = entry :: newEntries rest := by
        apply List.filter_cons_of_pos
        rw [new]
        rfl
      rw [shape, List.length_cons] at enough
      obtain ⟨bytes, positions⟩ := @ih (nIds + 1) (update mapUnkIds entry.1 nIds) kinds unique (by omega)
      rw [if_neg (by omega), shape]
      dsimp only
      rw [if_pos (kind.mpr new)]
      refine ⟨by rw [bytes, List.flatMap_cons], fun i e found => ?_⟩
      cases i with
      | zero =>
        obtain rfl := Option.some.inj found
        dsimp only
        rw [writeNew_of_notMem apart, update_self]
        exact (add_zero nIds).symm
      | succ i =>
        have later := positions i e found
        dsimp only
        rw [later]
        push_cast
        omega

/-! ## Entries in the order in which they are read -/

/-- The entries have the ids from zero on. -/
structure Listed (s : CAddrMan) (infos : List CAddrInfo) : Prop where
  indexed : Indexed s
  nIdCount : s.nIdCount = infos.length
  entry : ∀ i : ℕ, (s.mapInfo.find? i).map strip = infos[i]?.map strip
  count : ∀ p : CAddrInfo → Bool, (∀ info, p (strip info) = p info) → s.mapInfo.count p = infos.countP p

theorem Listed.empty (nKey : List UInt8) (nNew nTried : ℤ) : Listed { nKey, nNew, nTried } [] where
  indexed := .empty nKey nNew nTried
  nIdCount := rfl
  entry _ := rfl
  count _ _ := rfl

variable {infos : List CAddrInfo} {pairs : List (NewBucket × ℤ)} {b : NewBucket}

theorem Listed.exists_of_find? (listed : Listed s infos) (found : s.mapInfo.find? n = some info) :
    ∃ i : ℕ, n = i ∧ ∃ other, infos[i]? = some other ∧ strip other = strip info := by
  have nonneg := (listed.indexed.ids n info found).1
  obtain ⟨i, rfl⟩ := Int.eq_ofNat_of_zero_le nonneg
  have entry := listed.entry i
  rw [found, Option.map_some] at entry
  exact ⟨i, rfl, Option.map_eq_some_iff.mp entry.symm⟩

theorem Listed.free (listed : Listed s infos) {addr : CNetAddr}
    (fresh : addr ∉ infos.map (·.toCNetAddr)) : s.mapAddr addr = none := by
  cases known : s.mapAddr addr with
  | none => rfl
  | some n =>
    obtain ⟨info, found, rfl⟩ := listed.indexed.exists_of_mapAddr known
    obtain ⟨i, -, other, here, same⟩ := listed.exists_of_find? found
    refine absurd ?_ fresh
    have address := congrArg (fun info : CAddrInfo => info.toCNetAddr) same
    exact List.mem_map.mpr ⟨other, List.mem_of_getElem? here, address⟩

theorem Listed.enter {other : CAddrInfo} (listed : Listed s infos) (room : s.nIdCount ≠ INT_MAX)
    (entered : Entered s t s.nIdCount info) (same : strip info = strip other) (last : info.nRandomPos = s.vRandom.length)
    (fresh : info.toCNetAddr ∉ infos.map (·.toCNetAddr)) (nIdCount : t.nIdCount = s.nIdCount + 1)
    (mapAddr : t.mapAddr = update s.mapAddr info.toCNetAddr (some s.nIdCount))
    (vRandom : t.vRandom = s.vRandom ++ [s.nIdCount]) : Listed t (infos ++ [other]) where
  indexed := listed.indexed.enter room entered last (listed.free fresh) nIdCount mapAddr vRandom
  nIdCount := by
    rw [nIdCount, listed.nIdCount, List.length_append]
    rfl
  entry i := by
    rw [entered.find?, listed.nIdCount]
    rcases lt_trichotomy i infos.length with before | rfl | behind
    · rw [if_neg (by omega), listed.entry, List.getElem?_append_left before]
    · rw [if_pos rfl, List.getElem?_concat_length, Option.map_some, Option.map_some, same]
    · rw [if_neg (by omega), listed.entry, List.getElem?_eq_none (by omega), List.getElem?_eq_none (by
        rw [List.length_append, List.length_singleton]
        omega)]
  count p blind := by
    have kind : p info = p other := by rw [← blind info, same, blind]
    rw [entered.count_of_none listed.indexed.find?_nIdCount, listed.count p blind, List.countP_append,
      List.countP_singleton, kind]

/-- The entry is tried, and its computed bucket is `b`. -/
def inBucket (hash2 : List UInt8 → Uint256) (nKey : List UInt8) (b : TriedBucket) (info : CAddrInfo) : Bool :=
  info.fInTried && decide (info.getTriedBucket hash2 nKey = b)

/-- The tried buckets hold the tried entries, each in the bucket that is computed for it. -/
structure Stocked (hash2 : List UInt8 → Uint256) (s : CAddrMan) (infos : List CAddrInfo) : Prop where
  tried : ∀ n, s.triedContents.count n = if s.isTried n then 1 else 0
  size : ∀ b, (s.vvTried b).length = infos.countP (inBucket hash2 s.nKey b)

/-- Everything but the entries and their indices is the same. -/
structure SameBuckets (s t : CAddrMan) : Prop where
  nKey : t.nKey = s.nKey
  vvTried : t.vvTried = s.vvTried
  vvNew : t.vvNew = s.vvNew
  nTried : t.nTried = s.nTried
  nNew : t.nNew = s.nNew

theorem enterNew_eq (hash2 : List UInt8 → Uint256) (n : ℤ) (info : CAddrInfo) (s : CAddrMan) :
    s.enterNew hash2 ADDRMAN_NEW_BUCKET_COUNT n info = { s with
      mapInfo := s.mapInfo.insert n { info with nRandomPos := s.vRandom.length }
      mapAddr := update s.mapAddr info.toCNetAddr (some n)
      vRandom := s.vRandom ++ [n] } := by
  rw [enterNew]
  exact if_neg (not_not.mpr rfl)

theorem Listed.enterNew {done : List CAddrInfo} (listed : Listed { s with nIdCount := done.length } done)
    (room : (done.length : ℤ) ≠ INT_MAX) (fresh : info.toCNetAddr ∉ done.map (·.toCNetAddr)) :
    Listed { s.enterNew hash2 ADDRMAN_NEW_BUCKET_COUNT done.length info with nIdCount := (done ++ [info]).length }
      (done ++ [info]) := by
  have entered : Entered { s with nIdCount := done.length } { s with
      mapInfo := s.mapInfo.insert done.length { info with nRandomPos := s.vRandom.length }
      mapAddr := update s.mapAddr info.toCNetAddr (some (done.length : ℤ))
      vRandom := s.vRandom ++ [(done.length : ℤ)]
      nIdCount := (done ++ [info]).length } done.length { info with nRandomPos := s.vRandom.length } := ⟨rfl, rfl⟩
  rw [enterNew_eq]
  refine listed.enter room entered rfl rfl fresh ?_ rfl rfl
  rw [List.length_append]
  rfl

/-- The head of the entries that are read is added to those that are there. -/
private theorem distinct_head {done rest : List CAddrInfo} {info : CAddrInfo}
    (distinct : ((done ++ info :: rest).map (·.toCNetAddr)).Nodup) :
    info.toCNetAddr ∉ done.map (·.toCNetAddr) ∧ (((done ++ [info]) ++ rest).map (·.toCNetAddr)).Nodup := by
  constructor
  · intro member
    rw [List.map_append] at distinct
    exact (List.nodup_append.mp distinct).2.2 _ member _ List.mem_cons_self rfl
  · rwa [List.append_assoc, List.singleton_append]

theorem Entered.enterTried (hash2 : List UInt8 → Uint256) (info : CAddrInfo) (s : CAddrMan) :
    Entered s (s.enterTried hash2 info) s.nIdCount
      { info with nRandomPos := s.vRandom.length, fInTried := true } := ⟨rfl, rfl⟩

/-- An entry with a place in its bucket goes to the end of it. -/
theorem Stocked.enterTried {done : List CAddrInfo} (stocked : Stocked hash2 s done) (listed : Listed s done) :
    Stocked hash2 (s.enterTried hash2 info.restored) (done ++ [info.restoredTried]) := by
  have entered := Entered.enterTried hash2 info.restored s
  refine ⟨fun n => ?_, fun b => ?_⟩
  · have contents := @triedContents_update s (s.enterTried hash2 info.restored) _ _ rfl
    rw [← Multiset.coe_add, ← add_assoc, add_right_comm] at contents
    rw [add_right_cancel contents, Multiset.count_add, Multiset.coe_singleton, Multiset.count_singleton, stocked.tried,
      entered.isTried]
    rcases eq_or_ne n s.nIdCount with rfl | different
    · rw [isTried_of_none listed.indexed.find?_nIdCount, if_pos rfl, if_pos rfl, if_neg Bool.false_ne_true, if_pos rfl]
    · rw [if_neg different, if_neg different, add_zero]
  · change (update s.vvTried _ _ b).length = List.countP (inBucket hash2 s.nKey b) _
    rw [List.countP_append, List.countP_singleton]
    rcases eq_or_ne b (info.restored.getTriedBucket hash2 s.nKey) with rfl | different
    · rw [update_self, List.length_append, stocked.size, if_pos]
      · rfl
      · exact decide_eq_true rfl
    · rw [update_of_ne different, stocked.size, if_neg, add_zero]
      intro own
      exact different (of_decide_eq_true own).symm

section Entries

variable (low : -2 ^ 31 ≤ nVersion) (high : nVersion < 2 ^ 31)
include low high

/-- The new entries follow those that are there. -/
theorem reads_new {infos done : List CAddrInfo} (fit : ∀ info ∈ infos, info.Representable)
    (listed : Listed { s with nIdCount := done.length } done)
    (distinct : ((done ++ infos.map CAddrInfo.restored).map (·.toCNetAddr)).Nodup)
    (room : (done.length + infos.length : ℤ) ≤ INT_MAX) :
    ∃ t, (readNew hash2 ADDRMAN_NEW_BUCKET_COUNT infos.length done.length s).Reads
        (infos.flatMap (CAddrInfo.serialize nVersion)) t ∧
      Listed { t with nIdCount := (done.length + infos.length : ℕ) } (done ++ infos.map CAddrInfo.restored) ∧
      SameBuckets s t := by
  induction infos generalizing done s with
  | nil =>
    refine ⟨s, reads_pure s, ?_, rfl, rfl, rfl, rfl, rfl⟩
    rw [List.map_nil, List.append_nil]
    exact listed
  | cons info rest ih =>
    obtain ⟨here, fit⟩ := List.forall_mem_cons.mp fit
    obtain ⟨fresh, distinct⟩ := distinct_head distinct
    have length : (done ++ [info.restored]).length = done.length + 1 := by
      rw [List.length_append, List.length_singleton]
    rw [List.length_cons] at room
    push_cast at room
    have entered := @Listed.enterNew hash2 s info.restored done listed (by omega) fresh
    obtain ⟨t, reads, listed', same⟩ := ih fit entered distinct (by rw [length]; push_cast; omega)
    rw [length] at reads listed'
    refine ⟨t, ?_, ?_, ?_⟩
    · rw [List.flatMap_cons]
      exact (CAddrInfo.reads low high here).bind reads
    · rw [List.map_cons, List.append_cons, List.length_cons, ← Nat.add_assoc, Nat.add_right_comm]
      exact listed'
    · rw [enterNew_eq] at same
      exact ⟨same.nKey, same.vvTried, same.vvNew, same.nTried, same.nNew⟩

/-- The tried entries follow, and none is lost while the buckets have room. -/
theorem reads_tried {infos done : List CAddrInfo} (fit : ∀ info ∈ infos, info.Representable) (listed : Listed s done)
    (stocked : Stocked hash2 s done)
    (distinct : ((done ++ infos.map CAddrInfo.restoredTried).map (·.toCNetAddr)).Nodup)
    (room : (done.length + infos.length : ℤ) ≤ INT_MAX)
    (uncrowded : ∀ b, (done ++ infos.map CAddrInfo.restoredTried).countP (inBucket hash2 s.nKey b) ≤
      ADDRMAN_TRIED_BUCKET_SIZE) (nLost : ℤ) :
    ∃ t, (readTried hash2 infos.length nLost s).Reads (infos.flatMap (CAddrInfo.serialize nVersion)) (nLost, t) ∧
      Listed t (done ++ infos.map CAddrInfo.restoredTried) ∧ Stocked hash2 t (done ++ infos.map CAddrInfo.restoredTried) ∧
      t.nKey = s.nKey ∧ t.vvNew = s.vvNew ∧ t.nTried = s.nTried ∧ t.nNew = s.nNew := by
  induction infos generalizing done s with
  | nil =>
    refine ⟨s, reads_pure _, ?_, ?_, rfl, rfl, rfl, rfl⟩
    · rw [List.map_nil, List.append_nil]
      exact listed
    · rw [List.map_nil, List.append_nil]
      exact stocked
  | cons info rest ih =>
    obtain ⟨here, fit⟩ := List.forall_mem_cons.mp fit
    obtain ⟨fresh, distinct⟩ := distinct_head distinct
    have length : (done ++ [info.restoredTried]).length = done.length + 1 := by
      rw [List.length_append, List.length_singleton]
    rw [List.length_cons] at room
    push_cast at room
    have spare : s.nIdCount ≠ INT_MAX := by
      rw [listed.nIdCount]
      omega
    obtain ⟨listed', stocked', bucket⟩ : Listed (s.enterTried hash2 info.restored) (done ++ [info.restoredTried]) ∧
        Stocked hash2 (s.enterTried hash2 info.restored) (done ++ [info.restoredTried]) ∧
        (s.vvTried (info.restored.getTriedBucket hash2 s.nKey)).length < ADDRMAN_TRIED_BUCKET_SIZE := by
      refine ⟨listed.enter spare (Entered.enterTried hash2 info.restored s) rfl rfl fresh rfl rfl rfl,
        stocked.enterTried listed, ?_⟩
      have most := uncrowded (info.restored.getTriedBucket hash2 s.nKey)
      have own : inBucket hash2 s.nKey (info.restored.getTriedBucket hash2 s.nKey) info.restoredTried = true :=
        decide_eq_true rfl
      rw [List.countP_append, List.map_cons, List.countP_cons_of_pos own] at most
      rw [stocked.size]
      omega
    rw [List.map_cons, List.append_cons] at uncrowded
    obtain ⟨t, reads, result⟩ := ih fit listed' stocked' distinct (by rw [length]; push_cast; omega) uncrowded
    refine ⟨t, ?_, ?_⟩
    · rw [List.flatMap_cons]
      apply (CAddrInfo.reads low high here).bind
      rw [if_pos bucket, if_neg spare]
      exact reads
    · rw [List.map_cons, List.append_cons]
      exact result

end Entries

/-- Each pair of a bucket and an id has been entered and counted, starting from a state with empty buckets. -/
structure Referred (s t : CAddrMan) (pairs : List (NewBucket × ℤ)) : Prop where
  find? : ∀ k, t.mapInfo.find? k = (s.mapInfo.find? k).map fun info =>
    { info with nRefCount := info.nRefCount + (pairs.map Prod.snd).count k }
  newContents : t.newContents = (pairs.map Prod.snd : List ℤ)
  mem : ∀ b k, k ∈ t.vvNew b ↔ (b, k) ∈ pairs
  nIdCount : t.nIdCount = s.nIdCount
  mapAddr : t.mapAddr = s.mapAddr
  vRandom : t.vRandom = s.vRandom
  nKey : t.nKey = s.nKey
  vvTried : t.vvTried = s.vvTried
  nTried : t.nTried = s.nTried
  nNew : t.nNew = s.nNew

theorem Referred.start (empty : s.vvNew = fun _ => ∅) : Referred s s [] where
  find? k := by
    cases s.mapInfo.find? k with
    | none => rfl
    | some info =>
      rw [Option.map_some, List.map_nil, List.count_nil, Nat.cast_zero, add_zero]
  newContents := by
    refine Multiset.eq_zero_of_forall_notMem fun n member => ?_
    obtain ⟨b, inside⟩ := mem_newContents.mp member
    rw [empty] at inside
    exact absurd inside (Finset.notMem_empty n)
  mem b k := by
    rw [empty]
    exact ⟨fun inside => absurd inside (Finset.notMem_empty k), fun inside => absurd inside List.not_mem_nil⟩
  nIdCount := rfl
  mapAddr := rfl
  vRandom := rfl
  nKey := rfl
  vvTried := rfl
  nTried := rfl
  nNew := rfl

/-- One more pair, whose entry has room for a reference. -/
theorem Referred.refer (referred : Referred s t pairs)
    (found : s.mapInfo.find? k = some info) (fresh : (b, k) ∉ pairs)
    (room : info.nRefCount + (pairs.map Prod.snd).count k < ADDRMAN_NEW_BUCKETS_PER_ADDRESS) :
    Referred s (t.refer ADDRMAN_NEW_BUCKET_COUNT b k) (pairs ++ [(b, k)]) := by
  have found' := referred.find? k
  rw [found, Option.map_some] at found'
  have step : t.refer ADDRMAN_NEW_BUCKET_COUNT b k =
      (t.modifyInfo k fun info => { info with nRefCount := info.nRefCount + 1 }).insertNew b k := by
    have same : t.subscript k = t := by
      rw [subscript, found']
      exact if_pos rfl
    rw [CAddrMan.refer, same]
    refine if_pos ⟨rfl, ?_⟩
    rw [info_of_some found']
    exact room
  have outside : k ∉ t.vvNew b := fun inside => fresh ((referred.mem b k).mp inside)
  have entered := Entered.modifyInfo t k fun info => { info with nRefCount := info.nRefCount + 1 }
  rw [info_of_some found'] at entered
  rw [step]
  exact {
    find? := fun m => by
      apply (entered.find? m).trans
      rw [List.map_append, List.count_append]
      rcases eq_or_ne m k with rfl | different
      · rw [if_pos rfl, found, Option.map_some, List.map_singleton, List.count_singleton_self]
        dsimp only
        rw [Nat.cast_add, Nat.cast_one, add_assoc]
      · rw [if_neg different, referred.find?, List.map_singleton, List.count_singleton, beq_false_of_ne different.symm,
          if_neg Bool.false_ne_true, add_zero]
    newContents := by
      apply (newContents_insertNew outside).trans
      rw [referred.newContents, List.map_append, List.map_singleton, ← Multiset.coe_add, Multiset.coe_singleton,
        add_comm, Multiset.singleton_add]
    mem := fun c m => by
      rw [vvNew_insertNew, List.mem_append, List.mem_singleton, Prod.mk.injEq, ← referred.mem]
      change m ∈ update t.vvNew b (insert k (t.vvNew b)) c ↔ _
      rcases eq_or_ne c b with rfl | different
      · rw [update_self, Finset.mem_insert, or_comm]
        simp only [true_and]
      · rw [update_of_ne different]
        simp only [different, false_and, or_false]
    nIdCount := referred.nIdCount
    mapAddr := referred.mapAddr
    vRandom := referred.vRandom
    nKey := referred.nKey
    vvTried := referred.vvTried
    nTried := referred.nTried
    nNew := referred.nNew }

theorem Referred.indexed (referred : Referred s t pairs) (indexed : Indexed s) : Indexed t := by
  refine indexed.congr ⟨fun k => ?_, referred.nIdCount, referred.mapAddr, referred.vRandom⟩
  rw [referred.find?, Option.map_map]
  rfl

theorem Referred.fInTried (referred : Referred s t pairs) (k : ℤ) :
    (t.mapInfo.find? k).map (·.fInTried) = (s.mapInfo.find? k).map (·.fInTried) := by
  rw [referred.find?, Option.map_map]
  rfl

/-- What is read is consistent when the counters are right and the entries count their references. -/
theorem Referred.consistent (referred : Referred s t pairs)
    (listed : Listed s infos) (stocked : Stocked hash2 s infos) (nTried : s.nTried = infos.countP (·.fInTried))
    (nNew : s.nNew = infos.countP fun info => !info.fInTried)
    (sound : ∀ n info, t.mapInfo.find? n = some info → info.Sound)
    (counted : ∀ n, ((pairs.map Prod.snd).count n : ℤ) = t.references n) : t.Consistent := by
  have indexed := referred.indexed listed.indexed
  have kinds (q : Bool → Bool) : t.mapInfo.count (fun info => q info.fInTried) = infos.countP fun info => q info.fInTried := by
    rw [OrderedMap.count_congr referred.fInTried, listed.count _ fun _ => rfl]
  have nTried_eq : t.nTried = t.mapInfo.count (·.fInTried) := by
    rw [referred.nTried, nTried]
    exact congrArg Nat.cast (kinds id).symm
  have nNew_eq : t.nNew = t.mapInfo.count fun info => !info.fInTried := by
    rw [referred.nNew, nNew]
    exact congrArg Nat.cast (kinds not).symm
  refine ⟨?_, sound, ?_, ?_, nTried_eq, nNew_eq, ?_, ?_⟩
  · rw [indexed.perm_keys.length_eq, OrderedMap.length_keys, OrderedMap.size_eq_counts (·.fInTried), Nat.cast_add, nTried_eq,
      nNew_eq]
  · exact fun n info found => ⟨indexed.nRandomPos n info found, indexed.position_of_some found⟩
  · exact agree_of_known fun entry member => indexed.mapAddr_of_some (OrderedMap.mem_entries.mp member)
  · intro n
    have same : t.isTried n = s.isTried n := by
      have entry := referred.fInTried n
      rw [isTried, isTried]
      cases found : s.mapInfo.find? n with
      | none =>
        rw [found, Option.map_none, Option.map_eq_none_iff] at entry
        rw [entry]
      | some info =>
        rw [found, Option.map_some, Option.map_eq_some_iff] at entry
        obtain ⟨other, found', kind⟩ := entry
        rw [found', Option.any_some, Option.any_some, kind]
    rw [same, triedContents, referred.vvTried]
    exact stocked.tried n
  · intro n
    rw [referred.newContents, Multiset.coe_count]
    exact counted n

/-- Pairs that can all be entered: the entries have no reference yet and get at most four. -/
structure Referable (s : CAddrMan) (pairs : List (NewBucket × ℤ)) : Prop where
  distinct : pairs.Nodup
  entry : ∀ pair ∈ pairs, ∃ info, s.mapInfo.find? pair.2 = some info ∧ info.nRefCount = 0
  few : ∀ k, ((pairs.map Prod.snd).count k : ℤ) ≤ ADDRMAN_NEW_BUCKETS_PER_ADDRESS
  range : ∀ pair ∈ pairs, -2 ^ 31 ≤ pair.2 ∧ pair.2 < 2 ^ 31

theorem Referable.refer {later : List (NewBucket × ℤ)}
    (referable : Referable s (pairs ++ (b, k) :: later)) (referred : Referred s t pairs) :
    Referred s (t.refer ADDRMAN_NEW_BUCKET_COUNT b k) (pairs ++ [(b, k)]) := by
  obtain ⟨info, found, zero⟩ := referable.entry (b, k) (List.mem_append_right _ List.mem_cons_self)
  refine referred.refer found (fun member => ?_) ?_
  · exact (List.nodup_append.mp referable.distinct).2.2 _ member _ List.mem_cons_self rfl
  · have few := referable.few k
    rw [List.map_append, List.map_cons, List.count_append, List.count_cons_self] at few
    rw [zero]
    omega

theorem reads_bucket {ids : List ℤ} {later : List (NewBucket × ℤ)}
    (referable : Referable s (pairs ++ (ids.map (b, ·) ++ later))) (referred : Referred s t pairs) :
    ∃ u, (readBucket ADDRMAN_NEW_BUCKET_COUNT b ids.length t).Reads (ids.flatMap (encodeInt 4)) u ∧
      Referred s u (pairs ++ ids.map (b, ·)) := by
  induction ids generalizing t pairs with
  | nil =>
    refine ⟨t, reads_pure t, ?_⟩
    rw [List.map_nil, List.append_nil]
    exact referred
  | cons k ids ih =>
    rw [List.map_cons, List.cons_append] at referable
    obtain ⟨low, high⟩ := referable.range (b, k) (List.mem_append_right _ List.mem_cons_self)
    have next := referable.refer referred
    rw [List.append_cons] at referable
    obtain ⟨u, reads, result⟩ := ih referable next
    refine ⟨u, ?_, ?_⟩
    · rw [List.flatMap_cons]
      exact (@reads_int 4 k (by omega) (by omega)).bind reads
    · rw [List.map_cons, List.append_cons]
      exact result

theorem reads_buckets {content : NewBucket → List ℤ} (sizes : ∀ b, (content b).length < 2 ^ 31) {rounds b : ℕ}
    (all : rounds + b = ADDRMAN_NEW_BUCKET_COUNT) {pairs : List (NewBucket × ℤ)}
    (referable : Referable s (pairs ++ ((List.finRange ADDRMAN_NEW_BUCKET_COUNT).drop b).flatMap fun c =>
      (content c).map (c, ·))) (referred : Referred s t pairs) :
    ∃ u, (readBuckets ADDRMAN_NEW_BUCKET_COUNT rounds b t).Reads
        (((List.finRange ADDRMAN_NEW_BUCKET_COUNT).drop b).flatMap fun c =>
          encodeInt 4 (content c).length ++ (content c).flatMap (encodeInt 4)) u ∧
      Referred s u (pairs ++ ((List.finRange ADDRMAN_NEW_BUCKET_COUNT).drop b).flatMap fun c =>
        (content c).map (c, ·)) := by
  induction rounds generalizing b t pairs with
  | zero =>
    have nothing : (List.finRange ADDRMAN_NEW_BUCKET_COUNT).drop b = [] := by
      rw [List.drop_eq_nil_iff, List.length_finRange]
      omega
    rw [nothing]
    refine ⟨t, reads_pure t, ?_⟩
    rw [List.flatMap_nil, List.append_nil]
    exact referred
  | succ rounds ih =>
    have inside : b < ADDRMAN_NEW_BUCKET_COUNT := by omega
    have shape : (List.finRange ADDRMAN_NEW_BUCKET_COUNT).drop b =
        ⟨b, inside⟩ :: (List.finRange ADDRMAN_NEW_BUCKET_COUNT).drop (b + 1) := by
      rw [List.drop_eq_getElem_cons (by rw [List.length_finRange]; exact inside), List.getElem_finRange]
      rfl
    rw [shape, List.flatMap_cons] at referable
    have size := sizes ⟨b, inside⟩
    have length := @reads_int 4 ((content ⟨b, inside⟩).length : ℤ) (by omega) (by omega)
    obtain ⟨v, reads, between⟩ := reads_bucket referable referred
    rw [← List.append_assoc] at referable
    obtain ⟨u, later, result⟩ := ih (by omega) referable between
    refine ⟨u, ?_, ?_⟩
    · rw [shape, List.flatMap_cons, List.append_assoc]
      rw [readBuckets, dif_pos inside]
      apply length.bind
      rw [Int.toNat_natCast]
      exact reads.bind later
    · rw [shape, List.flatMap_cons, ← List.append_assoc]
      exact result

/-- No tried bucket has more than its entries. -/
def Stowed (s : CAddrMan) : Prop := ∀ b, (s.vvTried b).length ≤ ADDRMAN_TRIED_BUCKET_SIZE

theorem Stowed.congr (stowed : Stowed s) (vvTried : t.vvTried = s.vvTried) : Stowed t := fun b => by
  rw [vvTried]
  exact stowed b

theorem Stowed.enterTried (stowed : Stowed s)
    (room : (s.vvTried (info.getTriedBucket hash2 s.nKey)).length < ADDRMAN_TRIED_BUCKET_SIZE) :
    Stowed (s.enterTried hash2 info) := by
  intro b
  change (update s.vvTried _ _ b).length ≤ _
  rcases eq_or_ne b (info.getTriedBucket hash2 s.nKey) with rfl | different
  · rw [update_self, List.length_append]
    exact room
  · rw [update_of_ne different]
    exact stowed b

section Any

variable (hash2) (nUBuckets : ℤ)

theorem vvTried_enterNew (n : ℤ) (info : CAddrInfo) (s : CAddrMan) :
    (s.enterNew hash2 nUBuckets n info).vvTried = s.vvTried := by
  rw [CAddrMan.enterNew]
  split
  · rfl
  · rfl

theorem vvTried_refer (b : NewBucket) (n : ℤ) (s : CAddrMan) : (s.refer nUBuckets b n).vvTried = s.vvTried := by
  have looked : (s.subscript n).vvTried = s.vvTried := by
    rw [subscript]
    split
    · rfl
    · rfl
  rw [CAddrMan.refer]
  split
  · exact looked
  · exact looked

theorem ensures_readNew (rounds : ℕ) (n : ℤ) (stowed : Stowed s) :
    (readNew hash2 nUBuckets rounds n s).Ensures Stowed := by
  induction rounds generalizing n s with
  | zero => exact ensures_pure stowed
  | succ rounds ih => exact (ensures_true _).bind fun info _ => ih _ (stowed.congr (vvTried_enterNew ..))

theorem ensures_readTried (rounds : ℕ) (nLost : ℤ) (stowed : Stowed s) :
    (readTried hash2 rounds nLost s).Ensures fun result => Stowed result.2 := by
  induction rounds generalizing nLost s with
  | zero => exact ensures_pure stowed
  | succ rounds ih =>
    refine (ensures_true _).bind fun info _ => ?_
    split
    next room =>
      split
      · exact ensures_failure
      · exact ih _ (stowed.enterTried room)
    next => exact ih _ stowed

theorem ensures_readBucket (b : NewBucket) (rounds : ℕ) (stowed : Stowed s) :
    (readBucket nUBuckets b rounds s).Ensures Stowed := by
  induction rounds generalizing s with
  | zero => exact ensures_pure stowed
  | succ rounds ih => exact (ensures_true _).bind fun nIndex _ => ih (stowed.congr (vvTried_refer ..))

theorem ensures_readBuckets (rounds b : ℕ) (stowed : Stowed s) :
    (readBuckets nUBuckets rounds b s).Ensures Stowed := by
  induction rounds generalizing b s with
  | zero => exact ensures_pure stowed
  | succ rounds ih =>
    rw [readBuckets]
    split
    · exact (ensures_true _).bind fun nSize _ => (ensures_readBucket _ _ _ stowed).bind fun t stowed => ih _ stowed
    · exact ensures_failure

/-- Whatever is read, no tried bucket is overfull. -/
theorem ensures_unserialize (nMaxSize : ℕ) : (unserialize hash2 nMaxSize).Ensures Stowed := by
  refine (ensures_true _).bind fun _ _ => (ensures_true _).bind fun nKey _ => (ensures_true _).bind fun nNew _ =>
    (ensures_true _).bind fun nTried _ => (ensures_true _).bind fun nUBuckets _ => ?_
  have start : Stowed { nKey, nNew, nTried } := fun b => Nat.zero_le _
  refine (ensures_readNew hash2 nUBuckets _ _ start).bind fun s stowed => ?_
  have retained : Stowed { s with nIdCount := nNew } := stowed
  refine (ensures_readTried hash2 nTried.toNat 0 retained).bind fun ⟨nLost, t⟩ stowed => ?_
  exact ensures_readBuckets nUBuckets _ _ (stowed.congr rfl)

end Any

end CAddrMan

end BitCrystal
