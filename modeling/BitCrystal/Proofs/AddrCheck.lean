import BitCrystal.Machine.Buckets
import BitCrystal.Model.AddrMan
import Mathlib.Algebra.BigOperators.Fin

/-! # What the consistency check of the address manager says

`Check_` returns zero exactly for states in which each entry is in order, its address and its position lead back to it,
the buckets hold each id as often as its entry says, and the counters count.
-/

namespace BitCrystal

open Function Buckets OrderedMap

/-- What `Check_` looks for in one entry. -/
structure CAddrInfo.Sound (info : CAddrInfo) : Prop where
  tried : info.fInTried = true → info.nLastSuccess ≠ 0 ∧ info.nRefCount = 0
  new : info.fInTried = false → 0 < info.nRefCount ∧ info.nRefCount ≤ ADDRMAN_NEW_BUCKETS_PER_ADDRESS
  nLastTry : 0 ≤ info.nLastTry
  nLastSuccess : 0 ≤ info.nLastSuccess

namespace CAddrMan

/-- The position of an entry leads back to it. -/
def Standing (vRandom : List ℤ) (n : ℤ) (info : CAddrInfo) : Prop :=
  0 ≤ info.nRandomPos ∧ vRandom[info.nRandomPos.toNat]? = some n

/-- Each address leads to its entry; one that is missing leads to the entry 0 when it is looked up. -/
def Agree : (CNetAddr → Option ℤ) → List (ℤ × CAddrInfo) → Prop
  | _, [] => True
  | mapAddr, (n, info) :: rest =>
    (mapAddr info.toCNetAddr).getD 0 = n ∧ Agree (update mapAddr info.toCNetAddr (some n)) rest

/-- The ids of the tried entries. -/
def triedKeys (entries : List (ℤ × CAddrInfo)) : List ℤ := (entries.filter fun e => e.2.fInTried).map Prod.fst

/-- The reference counts of the new entries. -/
def newCounts (entries : List (ℤ × CAddrInfo)) (mapNew : OrderedMap ℤ ℤ) : OrderedMap ℤ ℤ :=
  entries.foldl (fun m e => if e.2.fInTried then m else m.insert e.1 e.2.nRefCount) mapNew

variable {vRandom : List ℤ} {n : ℤ} {entries : List (ℤ × CAddrInfo)} {mapAddr : CNetAddr → Option ℤ}
  {setTried : Finset ℤ} {mapNew : OrderedMap ℤ ℤ} {ids : List ℤ} {s : CAddrMan}

theorem checkInfo_eq_ok {id : ℤ} {info : CAddrInfo} :
    checkInfo vRandom id n info = .ok () ↔ (info.Sound ∧ Standing vRandom n info) ∧ id = n := by
  constructor
  · intro passed
    unfold checkInfo at passed
    split_ifs at passed with success references count referred same position try' last
    push Not at success references count referred same position try' last
    refine ⟨⟨⟨fun tried => ⟨success tried, references tried⟩, fun new => ?_, try', last⟩, position.1, position.2.2⟩, same⟩
    have new' : ¬ info.fInTried = true := by rw [new]; exact Bool.false_ne_true
    have low := count new'
    have positive := referred new'
    omega
  · rintro ⟨⟨sound, low, here⟩, rfl⟩
    obtain ⟨inside, -⟩ := List.getElem?_eq_some_iff.mp here
    have counted : ¬ (¬ info.fInTried = true ∧ (info.nRefCount < 0 ∨ ADDRMAN_NEW_BUCKETS_PER_ADDRESS < info.nRefCount)) := by
      rintro ⟨new, beyond⟩
      have bounds := sound.new (Bool.eq_false_iff.mpr new)
      omega
    have referred : ¬ (¬ info.fInTried = true ∧ info.nRefCount = 0) := by
      rintro ⟨new, zero⟩
      have bounds := sound.new (Bool.eq_false_iff.mpr new)
      omega
    have placed : ¬ (info.nRandomPos < 0 ∨ (vRandom.length : ℤ) ≤ info.nRandomPos ∨
        vRandom[info.nRandomPos.toNat]? ≠ .some id) := by
      rintro (negative | beyond | other)
      · omega
      · omega
      · exact other here
    rw [checkInfo, if_neg fun both => (sound.tried both.1).1 both.2, if_neg fun both => both.2 (sound.tried both.1).2,
      if_neg counted, if_neg referred, if_neg (not_not.mpr rfl), if_neg placed, if_neg (not_lt.mpr sound.nLastTry),
      if_neg (not_lt.mpr sound.nLastSuccess)]

theorem checkInfo_ne_zero {id : ℤ} {info : CAddrInfo} : checkInfo vRandom id n info ≠ .error 0 := by
  unfold checkInfo
  split_ifs <;> exact fun same => by cases same

theorem checkInfos_eq_ok {tried : Finset ℤ} {new : OrderedMap ℤ ℤ} :
    checkInfos vRandom entries mapAddr setTried mapNew = .ok (tried, new) ↔
      (∀ e ∈ entries, e.2.Sound ∧ Standing vRandom e.1 e.2) ∧ Agree mapAddr entries ∧
        tried = setTried ∪ (triedKeys entries).toFinset ∧ new = newCounts entries mapNew := by
  induction entries generalizing mapAddr setTried mapNew with
  | nil =>
    rw [checkInfos, Except.ok.injEq, Prod.mk.injEq]
    have nothing : setTried ∪ (triedKeys []).toFinset = setTried := Finset.union_empty setTried
    rw [nothing]
    constructor
    · rintro ⟨rfl, rfl⟩
      exact ⟨List.forall_mem_nil _, trivial, rfl, rfl⟩
    · rintro ⟨-, -, rfl, rfl⟩
      exact ⟨rfl, rfl⟩
  | cons entry rest ih =>
    obtain ⟨n, info⟩ := entry
    rw [checkInfos, List.forall_mem_cons, Agree]
    dsimp only
    cases passed : checkInfo vRandom ((mapAddr info.toCNetAddr).getD 0) n info with
    | error code =>
      refine ⟨nofun, fun all => ?_⟩
      rw [checkInfo_eq_ok.mpr ⟨all.1.1, all.2.1.1⟩] at passed
      cases passed
    | ok _ =>
      obtain ⟨sound, same⟩ := checkInfo_eq_ok.mp passed
      dsimp only
      rw [ih, same, newCounts, newCounts, List.foldl_cons, triedKeys, triedKeys, List.filter_cons]
      have sets : (if info.fInTried = true then insert n setTried else setTried) ∪ (triedKeys rest).toFinset =
          setTried ∪ (triedKeys ((n, info) :: rest)).toFinset := by
        rw [triedKeys, triedKeys, List.filter_cons]
        split
        · rw [List.map_cons, List.toFinset_cons, Finset.insert_union, Finset.union_insert]
        · rfl
      rw [triedKeys, triedKeys, List.filter_cons] at sets
      rw [sets]
      simp only [sound, true_and]

theorem checkInfos_ne_zero : checkInfos vRandom entries mapAddr setTried mapNew ≠ .error 0 := by
  induction entries generalizing mapAddr setTried mapNew with
  | nil => exact nofun
  | cons entry rest ih =>
    rw [checkInfos]
    cases passed : checkInfo vRandom ((mapAddr entry.2.toCNetAddr).getD 0) entry.1 entry.2 with
    | error code =>
      rintro ⟨⟩
      exact checkInfo_ne_zero passed
    | ok _ => exact ih

theorem checkTried_eq_ok {left : Finset ℤ} : checkTried ids setTried = .ok left ↔ setTried.val = ids + left.val := by
  induction ids generalizing setTried with
  | nil =>
    rw [checkTried, Except.ok.injEq, Multiset.coe_nil, zero_add, Finset.val_inj]
  | cons n rest ih =>
    rw [checkTried, ← Multiset.cons_coe, Multiset.cons_add]
    split
    next missing =>
      refine ⟨nofun, fun same => absurd ?_ missing⟩
      rw [← Finset.mem_val, same]
      exact Multiset.mem_cons_self ..
    next present =>
      rw [ih, Finset.erase_val]
      have member : n ∈ setTried.val := not_not.mp present
      constructor
      · intro same
        rw [← same, Multiset.cons_erase member]
      · intro same
        rw [same, Multiset.erase_cons_head]

theorem checkTried_ne_zero : checkTried ids setTried ≠ .error 0 := by
  induction ids generalizing setTried with
  | nil => exact nofun
  | cons n rest ih =>
    rw [checkTried]
    split
    · exact fun same => by cases same
    · exact ih

/-- The number under an id, zero if there is none. -/
def tally (mapNew : OrderedMap ℤ ℤ) (n : ℤ) : ℤ := (mapNew.find? n).getD 0

/-- All numbers are positive. -/
def Positive (mapNew : OrderedMap ℤ ℤ) : Prop := ∀ n k, mapNew.find? n = some k → 0 < k

/-- Count one down. -/
def countDown (mapNew : OrderedMap ℤ ℤ) (n k : ℤ) : OrderedMap ℤ ℤ :=
  if k - 1 = 0 then mapNew.erase n else mapNew.insert n (k - 1)

theorem find?_countDown (mapNew : OrderedMap ℤ ℤ) (n k a : ℤ) :
    (countDown mapNew n k).find? a = if a = n then (if k - 1 = 0 then none else some (k - 1)) else mapNew.find? a := by
  unfold countDown
  split
  · rw [find?_erase]
  · rw [find?_insert]

theorem Positive.countDown (positive : Positive mapNew) {k : ℤ}
    (found : mapNew.find? n = some k) : Positive (countDown mapNew n k) := by
  intro a j at'
  rw [find?_countDown] at at'
  have before := positive n k found
  split_ifs at at' with same last
  · cases at'
    omega
  · exact positive a j at'

theorem tally_countDown {k : ℤ} (found : mapNew.find? n = some k) (a : ℤ) :
    tally (countDown mapNew n k) a + (if a = n then 1 else 0) = tally mapNew a := by
  unfold tally
  rw [find?_countDown]
  split_ifs with same last
  · rw [same, found, Option.getD_none, Option.getD_some]
    omega
  · rw [same, found, Option.getD_some, Option.getD_some]
    omega
  · exact add_zero _

theorem checkNew_eq_ok {left : OrderedMap ℤ ℤ} (positive : Positive mapNew) :
    checkNew ids mapNew = .ok left ↔ Positive left ∧ ∀ n, tally mapNew n = ids.count n + tally left n := by
  induction ids generalizing mapNew with
  | nil =>
    rw [checkNew, Except.ok.injEq]
    constructor
    · rintro rfl
      exact ⟨positive, fun n => by rw [List.count_nil, Nat.cast_zero, zero_add]⟩
    · rintro ⟨positive', same⟩
      refine ext_find? fun n => ?_
      have numbers := same n
      rw [List.count_nil, Nat.cast_zero, zero_add] at numbers
      unfold tally at numbers
      cases before : mapNew.find? n with
      | none =>
        cases after : left.find? n with
        | none => rfl
        | some k =>
          rw [before, after, Option.getD_none, Option.getD_some] at numbers
          have := positive' n k after
          omega
      | some j =>
        have low := positive n j before
        cases after : left.find? n with
        | none =>
          rw [before, after, Option.getD_none, Option.getD_some] at numbers
          omega
        | some k =>
          rw [before, after, Option.getD_some, Option.getD_some] at numbers
          rw [numbers]
  | cons a rest ih =>
    rw [checkNew]
    cases found : mapNew.find? a with
    | none =>
      refine ⟨nofun, fun ⟨positive', same⟩ => ?_⟩
      have numbers := same a
      rw [tally, found, Option.getD_none, List.count_cons_self] at numbers
      have low : 0 ≤ tally left a := by
        unfold tally
        cases right : left.find? a with
        | none => exact le_rfl
        | some k => exact (positive' a k right).le
      omega
    | some k =>
      change checkNew rest (countDown mapNew a k) = .ok left ↔ _
      rw [ih (positive.countDown found)]
      apply and_congr_right
      intro _
      apply forall_congr'
      intro n
      rw [← tally_countDown found]
      rcases eq_or_ne n a with rfl | different
      · rw [List.count_cons_self, if_pos rfl]
        omega
      · rw [List.count_cons_of_ne different.symm, if_neg different, add_zero]

theorem checkNew_ne_zero : checkNew ids mapNew ≠ .error 0 := by
  induction ids generalizing mapNew with
  | nil => exact nofun
  | cons n rest ih =>
    rw [checkNew]
    split
    · exact fun same => by cases same
    · exact ih

/-! ## What the entries say -/

def isTried (s : CAddrMan) (n : ℤ) : Bool := (s.mapInfo.find? n).any (·.fInTried)

def references (s : CAddrMan) (n : ℤ) : ℤ := ((s.mapInfo.find? n).map (·.nRefCount)).getD 0

theorem nodup_triedKeys (map : OrderedMap ℤ CAddrInfo) : (triedKeys map.entries).Nodup :=
  map.nodup_keys.sublist (List.filter_sublist.map Prod.fst)

theorem mem_triedKeys : n ∈ triedKeys s.mapInfo.entries ↔ s.isTried n = true := by
  rw [triedKeys, List.mem_map, isTried]
  constructor
  · rintro ⟨entry, member, rfl⟩
    obtain ⟨inside, tried⟩ := List.mem_filter.mp member
    rw [mem_entries.mp inside]
    exact tried
  · intro tried
    cases found : s.mapInfo.find? n with
    | none =>
      rw [found] at tried
      cases tried
    | some info =>
      rw [found] at tried
      exact ⟨(n, info), List.mem_filter.mpr ⟨mem_entries.mpr found, tried⟩, rfl⟩

theorem length_triedKeys (map : OrderedMap ℤ CAddrInfo) :
    (triedKeys map.entries).length = map.count (·.fInTried) := by
  rw [triedKeys, List.length_map, ← List.countP_eq_length_filter]
  rfl

theorem find?_newCounts (unique : (entries.map Prod.fst).Nodup) (mapNew : OrderedMap ℤ ℤ) (n : ℤ) :
    (newCounts entries mapNew).find? n = match entries.lookup n with
      | some info => if info.fInTried then mapNew.find? n else some info.nRefCount | none => mapNew.find? n := by
  induction entries generalizing mapNew with
  | nil => rfl
  | cons entry rest ih =>
    obtain ⟨a, info⟩ := entry
    obtain ⟨apart, unique⟩ := List.nodup_cons.mp unique
    rw [newCounts, List.foldl_cons]
    change (newCounts rest _).find? n = _
    rw [ih unique, List.lookup_cons]
    rcases eq_or_ne n a with rfl | different
    · have absent : rest.lookup n = none := by
        rw [List.lookup_eq_none_iff]
        intro entry member
        rw [bne_iff_ne]
        rintro rfl
        exact apart (List.mem_map.mpr ⟨entry, member, rfl⟩)
      rw [absent, beq_self_eq_true]
      dsimp only
      split
      · rfl
      · exact find?_insert_self
    · have same : (if info.fInTried = true then mapNew else mapNew.insert a info.nRefCount).find? n =
          mapNew.find? n := by
        split
        · rfl
        · rw [find?_insert, if_neg different]
      rw [beq_false_of_ne different]
      dsimp only
      rw [same]

theorem find?_newCounts_empty (map : OrderedMap ℤ CAddrInfo) (n : ℤ) :
    (newCounts map.entries ∅).find? n = (map.find? n).bind fun info =>
      if info.fInTried then none else some info.nRefCount := by
  rw [find?_newCounts map.nodup_keys]
  change (match map.find? n with | some info => _ | none => _) = _
  cases map.find? n with
  | none => rfl
  | some info => rfl

theorem size_newCounts (unique : (entries.map Prod.fst).Nodup) (fresh : ∀ e ∈ entries, mapNew.find? e.1 = none) :
    (newCounts entries mapNew).size = mapNew.size + entries.countP fun e => !e.2.fInTried := by
  induction entries generalizing mapNew with
  | nil => rfl
  | cons entry rest ih =>
    obtain ⟨apart, unique⟩ := List.nodup_cons.mp unique
    obtain ⟨here, fresh⟩ := List.forall_mem_cons.mp fresh
    rw [newCounts, List.foldl_cons, List.countP_cons]
    change (newCounts rest _).size = _
    cases entry.2.fInTried with
    | true =>
      rw [if_pos rfl, ih unique fresh]
      rfl
    | false =>
      have later : ∀ e ∈ rest, (mapNew.insert entry.1 entry.2.nRefCount).find? e.1 = none := by
        intro e member
        have different : e.1 ≠ entry.1 := fun same => apart (same ▸ List.mem_map_of_mem member)
        rw [find?_insert, if_neg different]
        exact fresh e member
      rw [if_neg Bool.false_ne_true, ih unique later, size_insert_of_none here, Bool.not_false, if_pos rfl]
      omega

/-- All occurrences of ids in the buckets of new entries. -/
def newContents (s : CAddrMan) : Multiset ℤ := contents fun b => (s.vvNew b).val

/-- All occurrences of ids in the buckets of tried entries. -/
def triedContents (s : CAddrMan) : Multiset ℤ := contents fun b => (s.vvTried b : Multiset ℤ)

theorem mem_newContents : n ∈ s.newContents ↔ ∃ b, n ∈ s.vvNew b := by
  rw [newContents, mem_contents]
  rfl

theorem mem_triedContents : n ∈ s.triedContents ↔ ∃ b, n ∈ s.vvTried b := by
  rw [triedContents, mem_contents]
  rfl

private theorem coe_flatMap_finRange {n : ℕ} (f : Fin n → List ℤ) :
    ((List.finRange n).flatMap f : Multiset ℤ) = contents fun i => (f i : Multiset ℤ) := by
  rw [← Multiset.coe_bind, contents_eq]
  rfl

theorem coe_triedIds (s : CAddrMan) : (s.triedIds : Multiset ℤ) = s.triedContents := coe_flatMap_finRange _

theorem coe_newIds (s : CAddrMan) : (s.newIds : Multiset ℤ) = s.newContents := by
  rw [newIds, coe_flatMap_finRange, newContents]
  congr 1
  funext b
  exact Finset.sort_eq ..

/-- What `Check_` makes sure of. -/
structure Consistent (s : CAddrMan) : Prop where
  total : (s.vRandom.length : ℤ) = s.nTried + s.nNew
  sound : ∀ n info, s.mapInfo.find? n = some info → info.Sound
  standing : ∀ n info, s.mapInfo.find? n = some info → Standing s.vRandom n info
  agree : Agree s.mapAddr s.mapInfo.entries
  nTried_eq : s.nTried = s.mapInfo.count (·.fInTried)
  nNew_eq : s.nNew = s.mapInfo.count fun info => !info.fInTried
  tried : ∀ n, s.triedContents.count n = if s.isTried n then 1 else 0
  new : ∀ n, (s.newContents.count n : ℤ) = s.references n

theorem agree_of_known
    (known : ∀ entry ∈ entries, mapAddr entry.2.toCNetAddr = some entry.1) : Agree mapAddr entries := by
  induction entries with
  | nil => trivial
  | cons entry rest ih =>
    obtain ⟨here, known⟩ := List.forall_mem_cons.mp known
    refine ⟨by rw [here, Option.getD_some], ?_⟩
    rw [← here, update_eq_self]
    exact ih known

/-- Entries whose addresses lead back to them have different addresses. -/
theorem Agree.nodup (agree : Agree mapAddr entries)
    (unique : (entries.map Prod.fst).Nodup) : (entries.map (·.2.toCNetAddr)).Nodup := by
  have leads {n : ℤ} {addr : CNetAddr} : ∀ {rest : List (ℤ × CAddrInfo)} {mapAddr : CNetAddr → Option ℤ},
      Agree mapAddr rest → mapAddr addr = some n → ∀ entry ∈ rest, entry.2.toCNetAddr = addr → entry.1 = n := by
    intro rest
    induction rest with
    | nil => exact fun _ _ entry member => absurd member List.not_mem_nil
    | cons head rest ih =>
      rintro mapAddr ⟨same, agree⟩ known entry member rfl
      rcases List.mem_cons.mp member with rfl | later
      · rw [known, Option.getD_some] at same
        exact same.symm
      · refine ih agree ?_ entry later rfl
        rcases eq_or_ne entry.2.toCNetAddr head.2.toCNetAddr with here | different
        · rw [← here, known, Option.getD_some] at same
          rw [here, update_self, same]
        · rw [update_of_ne different, known]
  induction entries generalizing mapAddr with
  | nil => exact List.nodup_nil
  | cons head rest ih =>
    obtain ⟨-, agree⟩ := agree
    obtain ⟨apart, unique⟩ := List.nodup_cons.mp unique
    refine List.nodup_cons.mpr ⟨fun member => ?_, ih agree unique⟩
    obtain ⟨entry, inside, same⟩ := List.mem_map.mp member
    have twice := leads agree (update_self ..) entry inside same
    exact apart (List.mem_map.mpr ⟨entry, inside, twice⟩)

/-- The ids of the tried entries as a set. -/
private def triedSet (s : CAddrMan) : Finset ℤ := (triedKeys s.mapInfo.entries).toFinset

private theorem triedSet_val (s : CAddrMan) : s.triedSet.val = triedKeys s.mapInfo.entries := by
  rw [triedSet, List.toFinset_val, List.dedup_eq_self.mpr (nodup_triedKeys _)]

private theorem card_triedSet (s : CAddrMan) : s.triedSet.card = s.mapInfo.count (·.fInTried) := by
  rw [Finset.card_def, triedSet_val, Multiset.coe_card, length_triedKeys]

private theorem count_triedSet (s : CAddrMan) (n : ℤ) : s.triedSet.val.count n = if s.isTried n then 1 else 0 := by
  rw [triedSet_val, Multiset.coe_count, List.Nodup.count (nodup_triedKeys _)]
  simp only [mem_triedKeys]

private theorem positive_newCounts (sound : ∀ n info, s.mapInfo.find? n = some info → info.Sound) :
    Positive (newCounts s.mapInfo.entries ∅) := by
  intro n k found
  rw [find?_newCounts_empty, Option.bind_eq_some_iff] at found
  obtain ⟨info, found, same⟩ := found
  split at same
  next => cases same
  next new =>
    cases same
    exact ((sound n info found).new (Bool.eq_false_iff.mpr new)).1

private theorem tally_newCounts (sound : ∀ n info, s.mapInfo.find? n = some info → info.Sound) (n : ℤ) :
    tally (newCounts s.mapInfo.entries ∅) n = s.references n := by
  rw [tally, find?_newCounts_empty, references]
  cases found : s.mapInfo.find? n with
  | none => rfl
  | some info =>
    rw [Option.bind_some, Option.map_some]
    split
    next tried => exact ((sound n info found).tried tried).2.symm
    next => rfl

private theorem size_newCounts_empty (s : CAddrMan) :
    (newCounts s.mapInfo.entries ∅).size = s.mapInfo.count fun info => !info.fInTried := by
  rw [size_newCounts s.mapInfo.nodup_keys fun _ _ => rfl]
  exact zero_add _

/-- The loops over the buckets leave nothing if and only if the buckets hold what the entries say. -/
private theorem checkTried_whole (s : CAddrMan) {left : Finset ℤ} :
    (checkTried s.triedIds s.triedSet = .ok left ∧ left.card = 0) ↔
      left = ∅ ∧ ∀ n, s.triedContents.count n = if s.isTried n then 1 else 0 := by
  rw [checkTried_eq_ok, Finset.card_eq_zero, and_comm, coe_triedIds]
  apply and_congr_right
  rintro rfl
  rw [Finset.empty_val, add_zero, Multiset.ext]
  apply forall_congr'
  intro n
  rw [count_triedSet, eq_comm]

private theorem checkNew_whole (sound : ∀ n info, s.mapInfo.find? n = some info → info.Sound)
    {left : OrderedMap ℤ ℤ} : (checkNew s.newIds (newCounts s.mapInfo.entries ∅) = .ok left ∧ left.size = 0) ↔
      left = ∅ ∧ ∀ n, (s.newContents.count n : ℤ) = s.references n := by
  have nothing : left.size = 0 ↔ left = ∅ := by
    rw [size_eq_zero]
    exact ⟨fun absent => ext_find? absent, fun same => by rw [same]; exact fun _ => rfl⟩
  rw [checkNew_eq_ok (positive_newCounts sound), nothing, and_comm, ← coe_newIds]
  apply and_congr_right
  rintro rfl
  have positive : Positive ∅ := fun n k found => by cases found
  rw [and_iff_right positive]
  apply forall_congr'
  intro n
  rw [tally_newCounts sound, Multiset.coe_count, tally, find?_empty, Option.getD_none, add_zero, eq_comm]

theorem check_eq_zero_iff (s : CAddrMan) : s.check_ = 0 ↔ s.Consistent := by
  constructor
  · intro zero
    rw [check_] at zero
    split at zero
    next => cases zero
    next total =>
    cases infos : checkInfos s.vRandom s.mapInfo.entries s.mapAddr ∅ ∅ with
    | error code =>
      rw [infos] at zero
      have nothing : code = 0 := zero
      rw [nothing] at infos
      exact absurd infos checkInfos_ne_zero
    | ok result =>
      obtain ⟨setTried, mapNew⟩ := result
      obtain ⟨each, agree, tried, new⟩ := checkInfos_eq_ok.mp infos
      rw [Finset.empty_union] at tried
      change setTried = s.triedSet at tried
      subst tried new
      have sound : ∀ n info, s.mapInfo.find? n = some info → info.Sound := fun n info found =>
        (each _ (mem_entries.mpr found)).1
      rw [infos] at zero
      dsimp only at zero
      split at zero
      next => cases zero
      next tried =>
      split at zero
      next => cases zero
      next new =>
      split at zero
      next code failed =>
        exact absurd (zero ▸ failed) checkTried_ne_zero
      next failed =>
        exact absurd (zero ▸ failed) checkNew_ne_zero
      next setTried mapNew ranTried ranNew =>
        split at zero
        next => cases zero
        next noTried =>
        split at zero
        next => cases zero
        next noNew =>
        rw [not_not] at total tried new noTried noNew
        exact {
          total := total
          sound := sound
          standing := fun n info found => (each _ (mem_entries.mpr found)).2
          agree := agree
          nTried_eq := by rw [← tried, card_triedSet]
          nNew_eq := by rw [← new, size_newCounts_empty]
          tried := (s.checkTried_whole.mp ⟨ranTried, noTried⟩).2
          new := ((checkNew_whole sound).mp ⟨ranNew, noNew⟩).2 }
  · intro consistent
    have infos : checkInfos s.vRandom s.mapInfo.entries s.mapAddr ∅ ∅ =
        .ok (s.triedSet, newCounts s.mapInfo.entries ∅) := by
      refine checkInfos_eq_ok.mpr ⟨fun e member => ?_, consistent.agree, (Finset.empty_union _).symm, rfl⟩
      have found := mem_entries.mp member
      exact ⟨consistent.sound _ _ found, consistent.standing _ _ found⟩
    obtain ⟨ranTried, noTried⟩ := s.checkTried_whole.mpr ⟨rfl, consistent.tried⟩
    obtain ⟨ranNew, noNew⟩ := (checkNew_whole consistent.sound).mpr ⟨rfl, consistent.new⟩
    rw [check_, if_neg (not_not.mpr consistent.total), infos]
    dsimp only
    rw [if_neg (not_not.mpr (by rw [card_triedSet, consistent.nTried_eq])),
      if_neg (not_not.mpr (by rw [size_newCounts_empty, consistent.nNew_eq])), ranTried, ranNew]
    dsimp only
    rw [if_neg (not_not.mpr noTried), if_neg (not_not.mpr noNew)]

end CAddrMan

end BitCrystal
