import BitCrystal.Model.BoundedContainers
import Mathlib.Data.List.DropRight

/-! # Containers of bounded size

A map that keeps the entries of the highest values, and a set that keeps the keys inserted last.
-/

/-! ## A map of the highest values

The index has the entries of the map in every run. An insertion makes room when its entry is the last that fits, not when
there is none left, so the limit holds as long as no new key comes to a map with only one place left or none.
-/

namespace BitCrystal.LimitedMap

open OrderedMap

variable {K V : Type} [LinearOrder V] {rmap : List (V × K)}

theorem rmapInsert_perm (entry : V × K) (rmap : List (V × K)) : (rmapInsert entry rmap).Perm (entry :: rmap) :=
  List.perm_orderedInsert _ entry rmap

theorem rmapInsert_sorted (sorted : rmap.Pairwise fun a b => a.1 ≤ b.1) (entry : V × K) :
    (rmapInsert entry rmap).Pairwise fun a b => a.1 ≤ b.1 := by
  induction rmap with
  | nil => exact List.pairwise_singleton _ entry
  | cons first rest ih =>
    obtain ⟨least, sorted⟩ := List.pairwise_cons.mp sorted
    rw [rmapInsert, List.orderedInsert_cons]
    split_ifs with below
    · refine List.pairwise_cons.mpr ⟨fun other member => ?_, List.pairwise_cons.mpr ⟨least, sorted⟩⟩
      rcases List.mem_cons.mp member with rfl | member
      · exact below.le
      · exact below.le.trans (least other member)
    · refine List.pairwise_cons.mpr ⟨fun other member => ?_, ih sorted⟩
      rcases List.mem_cons.mp ((rmapInsert_perm entry rest).mem_iff.mp member) with rfl | member
      · exact not_lt.mp below
      · exact least other member

variable [LinearOrder K] {m t : LimitedMap K V} {k : K} {v : V}

/-- The index has the entries of the map in the order of their values. -/
structure Indexed (m : LimitedMap K V) : Prop where
  perm : m.rmap.Perm (m.map.entries.map Prod.swap)
  sorted : m.rmap.Pairwise fun a b => a.1 ≤ b.1

theorem Indexed.mem_rmap (indexed : Indexed m) : (v, k) ∈ m.rmap ↔ m.map.find? k = some v := by
  rw [indexed.perm.mem_iff, ← mem_entries, List.mem_map]
  constructor
  · rintro ⟨entry, member, same⟩
    rw [← Prod.swap_swap entry, same] at member
    exact member
  · exact fun member => ⟨(k, v), member, rfl⟩

theorem Indexed.length_rmap (indexed : Indexed m) : m.rmap.length = m.map.size := by
  rw [indexed.perm.length_eq, List.length_map]
  rfl

/-- A new key. -/
theorem Indexed.insert (indexed : Indexed m) (missing : m.map.find? k = none) (v : V) :
    Indexed { m with map := m.map.insert k v, rmap := rmapInsert (v, k) m.rmap } where
  perm := by
    have entries := (@OrderedMap.perm_insert _ _ _ m.map k v).map Prod.swap
    rw [erase_of_none missing, List.map_cons] at entries
    exact (rmapInsert_perm _ _).trans ((indexed.perm.cons _).trans entries.symm)
  sorted := rmapInsert_sorted indexed.sorted _

theorem Indexed.erase (indexed : Indexed m) (found : m.map.find? k = some v) :
    Indexed { m with map := m.map.erase k, rmap := m.rmap.erase (v, k) } where
  perm := by
    have entries := (perm_erase found).map Prod.swap
    rw [List.map_cons] at entries
    have both := (List.perm_cons_erase (indexed.mem_rmap.mpr found)).symm.trans (indexed.perm.trans entries)
    exact both.cons_inv
  sorted := indexed.sorted.sublist List.erase_sublist

theorem Indexed.update (indexed : Indexed m) (found : m.map.find? k = some v) (value : V) :
    Indexed { m with map := m.map.insert k value, rmap := rmapInsert (value, k) (m.rmap.erase (v, k)) } where
  perm := by
    have erased := (indexed.erase found).perm
    have entries := (@OrderedMap.perm_insert _ _ _ m.map k value).map Prod.swap
    rw [List.map_cons] at entries
    exact (rmapInsert_perm _ _).trans ((erased.cons _).trans entries.symm)
  sorted := rmapInsert_sorted (indexed.erase found).sorted _

/-- An entry of lowest value is dropped. -/
theorem Indexed.eraseLowest (indexed : Indexed m) (positive : 0 < m.map.size) :
    ∃ k v, m.map.find? k = some v ∧ (∀ entry ∈ m.map.entries, v ≤ entry.2) ∧
      m.eraseLowest = .ok { m with map := m.map.erase k, rmap := m.rmap.erase (v, k) } := by
  obtain ⟨⟨v, k⟩, rmap, shape⟩ := List.exists_cons_of_length_pos (indexed.length_rmap.symm ▸ positive)
  have found := indexed.mem_rmap.mp (show (v, k) ∈ m.rmap from shape ▸ List.mem_cons_self)
  refine ⟨k, v, found, fun entry member => ?_, ?_⟩
  · have listed : (entry.2, entry.1) ∈ m.rmap := indexed.mem_rmap.mpr (mem_entries.mp member)
    have sorted := indexed.sorted
    rw [shape] at listed sorted
    rcases List.mem_cons.mp listed with same | later
    · exact (congrArg Prod.fst same).ge
    · exact (List.pairwise_cons.mp sorted).1 _ later
  · rw [LimitedMap.eraseLowest, shape, List.erase_cons_head]

inductive Call (K V : Type)
  | insert (x : K × V)
  | erase (k : K)
  | update (k : K) (v : V)
  | maxSize (s : ℕ)

def step (m : LimitedMap K V) : Call K V → Check (LimitedMap K V)
  | .insert x => m.insert x
  | .erase k => m.erase k
  | .update k v => m.update k v
  | .maxSize s => m.maxSize s

structure Sound (m : LimitedMap K V) : Prop where
  indexed : Indexed m
  size : m.nMaxSize ≠ 0 → m.map.size ≤ m.nMaxSize

/-- A lower limit drops entries of lowest values. -/
structure Shrunk (m t : LimitedMap K V) (s : ℕ) : Prop where
  size : t.map.size = min s m.map.size
  kept : ∀ entry ∈ t.map.entries, entry ∈ m.map.entries
  dropped : ∀ entry ∈ m.map.entries, entry ∉ t.map.entries → ∀ other ∈ t.map.entries, entry.2 ≤ other.2

/-- What a call does to the map. A new key drops an entry of lowest value if the map is full, and nothing otherwise. -/
def Does (m : LimitedMap K V) (call : Call K V) (t : LimitedMap K V) : Prop :=
  match call with
  | .insert x =>
    t.nMaxSize = m.nMaxSize ∧
      if m.map.find? x.1 ≠ none then t.map = m.map
      else if m.nMaxSize ≠ 0 ∧ m.map.size = m.nMaxSize then
        ∃ lowest ∈ (m.map.insert x.1 x.2).entries, (∀ entry ∈ (m.map.insert x.1 x.2).entries, lowest.2 ≤ entry.2) ∧
          t.map = (m.map.insert x.1 x.2).erase lowest.1
      else t.map = m.map.insert x.1 x.2
  | .erase k => t.nMaxSize = m.nMaxSize ∧ t.map = m.map.erase k
  | .update k v =>
    t.nMaxSize = m.nMaxSize ∧ t.map = if m.map.find? k = none then m.map else m.map.insert k v
  | .maxSize s => t.nMaxSize = s ∧ if s = 0 then t.map = m.map else Shrunk m t s

/-- A new key finds two places. -/
def HasRoom (m : LimitedMap K V) : Call K V → Prop
  | .insert x => m.map.find? x.1 ≠ none ∨ m.nMaxSize = 0 ∨ m.map.size + 1 < m.nMaxSize
  | _ => True

/-- The loop of `max_size` drops lowest entries until the rest fits. -/
theorem shrink_eq_ok {s rounds : ℕ} (indexed : Indexed m) (enough : m.map.size ≤ rounds) :
    ∃ t, shrink s rounds m = .ok t ∧ Indexed t ∧ t.nMaxSize = m.nMaxSize ∧ Shrunk m t s := by
  induction rounds generalizing m with
  | zero =>
    have empty : ¬ s < m.map.size := by omega
    refine ⟨m, ?_, indexed, rfl, ⟨(Nat.min_eq_right (Nat.le_of_not_lt empty)).symm, fun _ => id, ?_⟩⟩
    · rw [shrink, if_neg empty]
    · exact fun entry member gone => absurd member gone
  | succ rounds ih =>
    rw [shrink]
    split_ifs with more
    · obtain ⟨k, v, found, least, done⟩ := indexed.eraseLowest (Nat.zero_lt_of_lt more)
      have size := size_erase_of_some found
      obtain ⟨t, run, indexed', same, shrunk⟩ := @ih { m with map := m.map.erase k, rmap := m.rmap.erase (v, k) }
        (indexed.erase found) (by dsimp only; omega)
      have sub : ∀ entry ∈ (m.map.erase k).entries, entry ∈ m.map.entries := fun entry member =>
        (List.mem_filter.mp member).1
      refine ⟨t, ?_, indexed', same, ?_, fun entry member => sub entry (shrunk.kept entry member), ?_⟩
      · rw [done]
        exact run
      · have left : t.map.size = min s (m.map.erase k).size := shrunk.size
        omega
      · intro entry member gone other kept
        by_cases here : entry.1 = k
        · have value : entry.2 = v := Option.some.inj ((mem_entries.mp member).symm.trans (here ▸ found))
          rw [value]
          exact least other (sub other (shrunk.kept other kept))
        · have still : entry ∈ (m.map.erase k).entries := List.mem_filter.mpr ⟨member, decide_eq_true here⟩
          exact shrunk.dropped entry still gone other kept
    · refine ⟨m, rfl, indexed, rfl, ⟨(Nat.min_eq_right (Nat.le_of_not_lt more)).symm, fun _ => id, ?_⟩⟩
      exact fun entry member gone => absurd member gone

/-- An insertion is right exactly if a new key finds two places. -/
theorem insert_iff (sound : Sound m) (x : K × V) :
    (∃ t, m.step (.insert x) = .ok t ∧ Sound t ∧ Does m (.insert x) t) ↔ m.HasRoom (.insert x) := by
  have step : m.step (.insert x) = m.insert x := rfl
  rw [step, insert]
  unfold HasRoom Does
  cases found : m.map.find? x.1 with
  | some value =>
    have known : m.map.find? x.1 ≠ none := by
      rw [found]
      exact Option.some_ne_none value
    exact iff_of_true ⟨m, rfl, sound, rfl, if_pos known ▸ rfl⟩ (.inl known)
  | none =>
    have size := @OrderedMap.size_insert_of_none _ _ _ m.map x.1 x.2 found
    simp only [ne_eq, found, not_true_eq_false, if_false, false_or]
    by_cases room : m.nMaxSize = 0 ∨ m.map.size + 1 < m.nMaxSize
    · have first : ¬ (¬ m.nMaxSize = 0 ∧ (m.map.insert x.1 x.2).size = m.nMaxSize) := by omega
      have second : ¬ (¬ m.nMaxSize = 0 ∧ m.map.size = m.nMaxSize) := by omega
      simp only [if_neg first, if_neg second]
      refine iff_of_true ⟨_, rfl, ⟨sound.indexed.insert found x.2, fun limited => ?_⟩, rfl, rfl⟩ room
      dsimp only at limited ⊢
      omega
    · refine iff_of_false ?_ room
      rintro ⟨t, run, sound', same, does⟩
      have limit := sound'.size
      by_cases last : (m.map.insert x.1 x.2).size = m.nMaxSize
      · -- an entry is dropped although the map was not full
        have second : ¬ (¬ m.nMaxSize = 0 ∧ m.map.size = m.nMaxSize) := by omega
        rw [if_neg second] at does
        rw [if_pos ⟨by omega, last⟩, LimitedMap.eraseLowest] at run
        obtain ⟨u, erased, run⟩ := Check.bind_eq_ok.mp run
        dsimp only at erased
        cases shape : m.rmap with
        | nil =>
          rw [shape] at erased
          cases erased
        | cons lowest rmap =>
          rw [shape] at erased
          obtain rfl := Except.ok.inj erased
          obtain rfl := Except.ok.inj run
          have listed : (lowest.1, lowest.2) ∈ m.rmap := shape ▸ List.mem_cons_self
          have there := sound.indexed.mem_rmap.mp listed
          have apart : lowest.2 ≠ x.1 := by
            rintro same
            rw [same, found] at there
            cases there
          have still : (m.map.insert x.1 x.2).find? lowest.2 = some lowest.1 := by
            rw [find?_insert, if_neg apart, there]
          have fewer := size_erase_of_some still
          have all : ((m.map.insert x.1 x.2).erase lowest.2).size = (m.map.insert x.1 x.2).size :=
            congrArg OrderedMap.size does
          omega
      · -- nothing is dropped although the map was full
        rw [if_neg fun both => last both.2] at run
        obtain rfl := Except.ok.inj run
        dsimp only at limit
        omega

/-- A call does what it is to do exactly if a new key finds two places. -/
theorem step_iff (sound : Sound m) (call : Call K V) :
    (∃ t, m.step call = .ok t ∧ Sound t ∧ Does m call t) ↔ m.HasRoom call := by
  cases call with
  | insert x => exact insert_iff sound x
  | erase k =>
    refine iff_of_true ?_ trivial
    have step : m.step (.erase k) = m.erase k := rfl
    rw [step, LimitedMap.erase]
    cases found : m.map.find? k with
    | none => exact ⟨m, rfl, sound, rfl, (erase_of_none found).symm⟩
    | some value =>
      have size := size_erase_of_some found
      dsimp only
      rw [if_pos (sound.indexed.mem_rmap.mpr found)]
      refine ⟨_, rfl, ⟨sound.indexed.erase found, fun limited => ?_⟩, rfl, rfl⟩
      have bound := sound.size limited
      dsimp only
      omega
  | update k v =>
    refine iff_of_true ?_ trivial
    have step : m.step (.update k v) = m.update k v := rfl
    rw [step, LimitedMap.update]
    cases found : m.map.find? k with
    | none => exact ⟨m, rfl, sound, rfl, (if_pos found).symm⟩
    | some value =>
      have known : m.map.find? k ≠ none := by
        rw [found]
        exact Option.some_ne_none value
      have size : (m.map.insert k v).size = m.map.size := by
        have entries := (@OrderedMap.perm_insert _ _ _ m.map k v).length_eq
        rw [← size_erase_of_some found]
        exact entries
      dsimp only
      rw [if_pos (sound.indexed.mem_rmap.mpr found)]
      refine ⟨_, rfl, ⟨sound.indexed.update found v, fun limited => ?_⟩, rfl, (if_neg known).symm⟩
      have bound := sound.size limited
      dsimp only
      omega
  | maxSize s =>
    refine iff_of_true ?_ trivial
    have step : m.step (.maxSize s) = m.maxSize s := rfl
    rw [step, LimitedMap.maxSize]
    by_cases zero : s = 0
    · rw [if_neg (not_not.mpr zero)]
      refine ⟨{ m with nMaxSize := s }, rfl, ⟨⟨sound.indexed.perm, sound.indexed.sorted⟩, fun limited => ?_⟩, rfl, ?_⟩
      · exact absurd zero limited
      · rw [if_pos zero]
    · obtain ⟨t, run, indexed, -, shrunk⟩ := @shrink_eq_ok _ _ _ _ m s _ sound.indexed le_rfl
      rw [if_pos zero, run]
      refine ⟨{ t with nMaxSize := s }, rfl, ⟨⟨indexed.perm, indexed.sorted⟩, fun _ => ?_⟩, rfl, ?_⟩
      · have size := shrunk.size
        dsimp only
        omega
      · rw [if_neg zero]
        exact ⟨shrunk.size, shrunk.kept, shrunk.dropped⟩

/-- Every call of a run does what it is to do and keeps the index and the limit. -/
def Behaves : LimitedMap K V → List (Call K V) → Prop
  | _, [] => True
  | m, call :: calls => ∃ t, m.step call = .ok t ∧ (Sound t ∧ Does m call t) ∧ Behaves t calls

/-- Every new key of a run finds two places. -/
def Roomy : LimitedMap K V → List (Call K V) → Prop
  | _, [] => True
  | m, call :: calls => m.HasRoom call ∧ ∀ t, m.step call = .ok t → Roomy t calls

theorem behaves_iff (sound : Sound m) (calls : List (Call K V)) : Behaves m calls ↔ Roomy m calls := by
  induction calls generalizing m with
  | nil => exact Iff.rfl
  | cons call calls ih =>
    constructor
    · rintro ⟨t, run, right, behaves⟩
      refine ⟨(step_iff sound call).mp ⟨t, run, right⟩, fun u run' => ?_⟩
      obtain rfl := Except.ok.inj (run.symm.trans run')
      exact (ih right.1).mp behaves
    · rintro ⟨room, roomy⟩
      obtain ⟨t, run, right⟩ := (step_iff sound call).mpr room
      exact ⟨t, run, right, (ih right.1).mpr (roomy t run)⟩

theorem sound_empty (nMaxSizeIn : ℕ) : Sound ({ nMaxSize := nMaxSizeIn } : LimitedMap K V) where
  indexed := ⟨List.Perm.refl _, List.Pairwise.nil⟩
  size _ := Nat.zero_le _

/-- A run from the empty map keeps the highest values exactly if every new key finds two places. -/
theorem run_behaves_iff (nMaxSizeIn : ℕ) (calls : List (Call K V)) :
    Behaves { nMaxSize := nMaxSizeIn } calls ↔ Roomy { nMaxSize := nMaxSizeIn } calls :=
  behaves_iff (sound_empty nMaxSizeIn) calls

/-- With one place the index is empty when its first entry is asked for, with two places the second key costs the first
one, and after the limit has been put at the number of entries a third one is too many. -/
theorem run_not_behaves :
    ¬ Behaves ({ nMaxSize := 1 } : LimitedMap ℕ ℕ) [.insert (5, 7)] ∧
      ¬ Behaves ({ nMaxSize := 2 } : LimitedMap ℕ ℕ) [.insert (1, 10), .insert (2, 20)] ∧
      ¬ Behaves ({ nMaxSize := 0 } : LimitedMap ℕ ℕ) [.insert (1, 10), .insert (2, 20), .maxSize 2, .insert (3, 30)] := by
  refine ⟨?_, ?_, ?_⟩
  · rintro ⟨t, run, -⟩
    cases run
  · rintro ⟨t, run, -, u, run', ⟨-, -, does⟩, -⟩
    obtain rfl := Except.ok.inj run
    obtain rfl := Except.ok.inj run'
    have kept := congrArg OrderedMap.size does
    cases kept
  · rintro ⟨t, run, -, u, run', -, w, run'', -, x, run''', ⟨sound, -⟩, -⟩
    obtain rfl := Except.ok.inj run
    obtain rfl := Except.ok.inj run'
    obtain rfl := Except.ok.inj run''
    obtain rfl := Except.ok.inj run'''
    exact absurd (sound.size (by decide)) (by decide)

end BitCrystal.LimitedMap

/-! ## A set of the most recent keys

The queue is the end of the list of all keys in the order of their last actual insertions. This is kept by every
insertion, and by every change of the maximal size that does not raise it.
-/

namespace BitCrystal.MruSet

variable {T : Type} {m : MruSet T} {log l : List T} {n : ℕ}

theorem rtake_append (front : List T) {back : List T} (size : back.length = n) : (front ++ back).rtake n = back := by
  rw [List.rtake, List.length_append, size, Nat.add_sub_cancel, List.drop_left]

theorem rtake_of_length_le (few : l.length ≤ n) : l.rtake n = l := by
  rw [List.rtake, Nat.sub_eq_zero_of_le few, List.drop_zero]

theorem length_rtake (l : List T) (n : ℕ) : (l.rtake n).length = min n l.length := by
  rw [List.rtake, List.length_drop]
  omega

theorem rtake_rtake (l : List T) {s : ℕ} (lower : s ≤ n) : (l.rtake n).rtake s = l.rtake s := by
  rw [List.rtake, List.rtake, List.rtake, List.length_drop, List.drop_drop]
  congr 1
  omega

variable [DecidableEq T]

theorem dedup_concat (l : List T) (x : T) : (l ++ [x]).dedup = l.dedup.filter (· ≠ x) ++ [x] := by
  induction l with
  | nil => rfl
  | cons a l ih =>
    rw [List.cons_append]
    by_cases again : a ∈ l
    · rw [List.dedup_cons_of_mem again, List.dedup_cons_of_mem (List.mem_append_left _ again), ih]
    · rw [List.dedup_cons_of_notMem again, List.filter_cons]
      by_cases same : a = x
      · rw [List.dedup_cons_of_mem (List.mem_append_right _ (List.mem_singleton.mpr same)), ih, if_neg (by simpa using same)]
      · have fresh : a ∉ l ++ [x] := by
          rw [List.mem_append, List.mem_singleton]
          exact not_or.mpr ⟨again, same⟩
        rw [List.dedup_cons_of_notMem fresh, ih, if_pos (by simpa using same), List.cons_append]

inductive Call (T : Type)
  | insert (x : T)
  | maxSize (s : ℕ)

/-- A call on a container, with the list of the keys that were given to `insert` while they were not in the set. -/
def step (state : List T × MruSet T) : Call T → Check (List T × MruSet T)
  | .insert x => do
    let (_, m) ← state.2.insert x
    return (if x ∈ state.2.set then state.1 else state.1 ++ [x], m)
  | .maxSize s => do
    let m ← state.2.maxSize s
    return (state.1, m)

def run (nMaxSizeIn : ℕ) (calls : List (Call T)) : Check (List T × MruSet T) :=
  calls.foldlM step ([], { nMaxSize := nMaxSizeIn })

/-- No call raises the maximal size, and none lifts the limit. -/
def Lowering : ℕ → List (Call T) → Prop
  | _, [] => True
  | nMaxSize, .insert _ :: calls => Lowering nMaxSize calls
  | nMaxSize, .maxSize s :: calls => 0 < s ∧ s ≤ nMaxSize ∧ Lowering s calls

/-- The maximal size after the calls. -/
def limit : ℕ → List (Call T) → ℕ
  | nMaxSize, [] => nMaxSize
  | nMaxSize, .insert _ :: calls => limit nMaxSize calls
  | _, .maxSize s :: calls => limit s calls

/-- The set has the elements of the queue, which are the last keys in the order of their last insertions. -/
structure Recent (log : List T) (m : MruSet T) : Prop where
  set : ∀ x, x ∈ m.set ↔ x ∈ m.queue
  queue : m.queue = log.dedup.rtake m.nMaxSize

theorem Recent.nodup (recent : Recent log m) : m.queue.Nodup := by
  rw [recent.queue, List.rtake]
  exact log.nodup_dedup.sublist (List.drop_sublist ..)

theorem Recent.length_le (recent : Recent log m) : m.queue.length ≤ m.nMaxSize := by
  rw [recent.queue, length_rtake]
  exact Nat.min_le_left ..

/-- One key more. The flag says whether it is new. -/
theorem Recent.insert (recent : Recent log m) (positive : 0 < m.nMaxSize) (x : T) :
    ∃ after, m.insert x = .ok (decide (x ∉ m.set), after) ∧ Recent (if x ∈ m.set then log else log ++ [x]) after ∧
      after.nMaxSize = m.nMaxSize := by
  rw [MruSet.insert]
  by_cases present : x ∈ m.set
  · rw [if_pos present, if_pos present, decide_eq_false (not_not.mpr present)]
    exact ⟨m, rfl, recent, rfl⟩
  · rw [if_neg present, if_neg present, decide_eq_true present]
    have absent : x ∉ m.queue := mt (recent.set x).mpr present
    have split := List.take_append_drop (log.dedup.length - m.nMaxSize) log.dedup
    have queue : m.queue = log.dedup.drop (log.dedup.length - m.nMaxSize) := recent.queue
    rw [← queue] at split
    -- the keys before the queue do not matter
    have dedup : (log ++ [x]).dedup =
        (log.dedup.take (log.dedup.length - m.nMaxSize)).filter (· ≠ x) ++ (m.queue ++ [x]) := by
      have kept : m.queue.filter (· ≠ x) = m.queue := by
        refine List.filter_eq_self.mpr fun y member => decide_eq_true ?_
        rintro rfl
        exact absent member
      rw [dedup_concat]
      nth_rewrite 1 [← split]
      rw [List.filter_append, kept, List.append_assoc]
    by_cases full : m.queue.length = m.nMaxSize
    · obtain ⟨front, queue, shape⟩ := List.exists_cons_of_length_pos (full.symm ▸ positive)
      have unique := recent.nodup
      rw [shape] at full dedup absent unique
      refine ⟨{ m with set := (Insert.insert x m.set).erase front, queue := queue ++ [x] }, ?_, ?_, rfl⟩
      · dsimp only
        rw [shape, if_pos ⟨positive.ne', full⟩, eraseFront]
        rfl
      · have others := List.nodup_cons.mp unique
        constructor
        · intro y
          rw [Finset.mem_erase, Finset.mem_insert, recent.set, shape, List.mem_append, List.mem_singleton, List.mem_cons]
          constructor
          · rintro ⟨different, rfl | same | member⟩
            · exact .inr rfl
            · exact absurd same different
            · exact .inl member
          · rintro (member | rfl)
            · exact ⟨fun same => others.1 (same ▸ member), .inr (.inr member)⟩
            · exact ⟨fun same => absent (same ▸ List.mem_cons_self), .inl rfl⟩
        · have size : (queue ++ [x]).length = m.nMaxSize := by
            rw [List.length_append, List.length_singleton, ← full, List.length_cons]
          dsimp only
          rw [dedup, List.cons_append, List.append_cons _ front (queue ++ [x]), rtake_append _ size]
    · refine ⟨{ m with set := Insert.insert x m.set, queue := m.queue ++ [x] }, ?_, ?_, rfl⟩
      · dsimp only
        rw [if_neg fun both => full both.2]
        rfl
      · constructor
        · intro y
          rw [Finset.mem_insert, recent.set, List.mem_append, List.mem_singleton, or_comm]
        · have few := recent.length_le
          have short : log.dedup.length - m.nMaxSize = 0 := by
            have size := congrArg List.length recent.queue
            rw [length_rtake] at size
            omega
          dsimp only
          rw [dedup, short, List.take_zero, List.filter_nil, List.nil_append, rtake_of_length_le]
          rw [List.length_append, List.length_singleton]
          omega

/-- The loop leaves the last elements. -/
theorem shrink_eq_ok {s rounds : ℕ} (set : ∀ x, x ∈ m.set ↔ x ∈ m.queue) (unique : m.queue.Nodup)
    (enough : m.queue.length ≤ rounds) :
    ∃ t, shrink s rounds m = .ok t ∧ (∀ x, x ∈ t.set ↔ x ∈ t.queue) ∧ t.queue = m.queue.rtake s := by
  induction rounds generalizing m with
  | zero =>
    have empty : ¬ s < m.queue.length := by omega
    refine ⟨m, ?_, set, (rtake_of_length_le (Nat.le_of_not_lt empty)).symm⟩
    rw [shrink, if_neg empty]
  | succ rounds ih =>
    rw [shrink]
    split_ifs with more
    · obtain ⟨front, queue, shape⟩ := List.exists_cons_of_length_pos (Nat.zero_lt_of_lt more)
      rw [shape] at more enough unique
      have others := List.nodup_cons.mp unique
      obtain ⟨t, done, set', queue'⟩ := @ih { m with set := m.set.erase front, queue } (fun y => by
        dsimp only
        rw [Finset.mem_erase, set, shape, List.mem_cons]
        constructor
        · rintro ⟨different, same | member⟩
          · exact absurd same different
          · exact member
        · exact fun member => ⟨fun same => others.1 (same ▸ member), .inr member⟩) others.2
          (Nat.le_of_succ_le_succ enough)
      refine ⟨t, ?_, set', ?_⟩
      · rw [eraseFront, shape]
        exact done
      · rw [queue', shape, List.rtake, List.rtake, List.length_cons, Nat.succ_sub (Nat.le_of_lt_succ more),
          List.drop_succ_cons]
    · exact ⟨m, rfl, set, (rtake_of_length_le (Nat.le_of_not_lt more)).symm⟩

theorem Recent.maxSize (recent : Recent log m) {s : ℕ} (positive : 0 < s) (lower : s ≤ m.nMaxSize) :
    ∃ state, step (log, m) (.maxSize s) = .ok state ∧ Recent state.1 state.2 ∧ state.2.nMaxSize = s := by
  obtain ⟨t, done, set, queue⟩ := @shrink_eq_ok _ m _ s _ recent.set recent.nodup le_rfl
  refine ⟨(log, { t with nMaxSize := s }), ?_, ⟨set, ?_⟩, rfl⟩
  · rw [step, MruSet.maxSize]
    dsimp only
    rw [if_pos positive.ne', done]
    rfl
  · dsimp only
    rw [queue, recent.queue, rtake_rtake _ lower]

/-- After any calls the set has the elements of the queue, all different and not too many, and these are the last keys
in the order of their last insertions. A key that is not in the set is inserted by the next call. -/
theorem run_recent (nMaxSizeIn : ℕ) (positive : 0 < nMaxSizeIn) (calls : List (Call T))
    (lowering : Lowering nMaxSizeIn calls) :
    ∃ log m, run nMaxSizeIn calls = .ok (log, m) ∧ m.set = m.queue.toFinset ∧ m.queue.Nodup ∧
      m.queue.length ≤ limit nMaxSizeIn calls ∧ m.queue = log.dedup.rtake (limit nMaxSizeIn calls) ∧
      ∀ x, ∃ after, m.insert x = .ok (decide (x ∉ m.set), after) := by
  suffices from_any : ∀ (calls : List (Call T)) (log : List T) (m : MruSet T), 0 < m.nMaxSize → Recent log m →
      Lowering m.nMaxSize calls → ∃ state, calls.foldlM step (log, m) = .ok state ∧ Recent state.1 state.2 ∧
        state.2.nMaxSize = limit m.nMaxSize calls ∧ 0 < state.2.nMaxSize by
    have fresh : Recent [] ({ nMaxSize := nMaxSizeIn } : MruSet T) :=
      ⟨fun x => iff_of_false (Finset.notMem_empty x) List.not_mem_nil, by rw [List.dedup_nil, List.rtake_nil]⟩
    obtain ⟨⟨log, m⟩, done, recent, same, positive⟩ := from_any calls [] { nMaxSize := nMaxSizeIn } positive fresh lowering
    have same : m.nMaxSize = limit nMaxSizeIn calls := same
    refine ⟨log, m, done, ?_, recent.nodup, same ▸ recent.length_le, same ▸ recent.queue, fun x => ?_⟩
    · ext x
      rw [recent.set, List.mem_toFinset]
    · obtain ⟨after, inserted, -⟩ := recent.insert positive x
      exact ⟨after, inserted⟩
  intro calls
  induction calls with
  | nil => exact fun log m positive recent _ => ⟨(log, m), rfl, recent, rfl, positive⟩
  | cons call calls ih =>
    intro log m positive recent lowering
    rw [List.foldlM_cons]
    cases call with
    | insert x =>
      obtain ⟨after, inserted, recent', same⟩ := recent.insert positive x
      have done : step (log, m) (.insert x) = .ok (if x ∈ m.set then log else log ++ [x], after) := by
        rw [step, inserted]
        rfl
      rw [done, Check.ok_bind, limit, ← same]
      exact ih _ _ (same.symm ▸ positive) recent' (same.symm ▸ lowering)
    | maxSize s =>
      obtain ⟨positive, lower, lowering⟩ := lowering
      obtain ⟨state, done, recent', same⟩ := recent.maxSize positive lower
      rw [done, Check.ok_bind, limit, ← same]
      exact ih _ _ (same.symm ▸ positive) recent' (same.symm ▸ lowering)

/-- A key that was pushed out comes back as a recent one. -/
theorem run_recent_again :
    ∃ log m, run 2 [.insert 1, .insert 2, .insert 3, .insert 1, .insert 3, .maxSize 1] = .ok (log, m) ∧
      m.set = m.queue.toFinset ∧ m.queue.Nodup ∧ m.queue.length ≤ 1 ∧ m.queue = log.dedup.rtake 1 ∧
      ∀ x, ∃ after, m.insert x = .ok (decide (x ∉ m.set), after) :=
  run_recent 2 (by decide) [.insert 1, .insert 2, .insert 3, .insert 1, .insert 3, .maxSize 1]
    ⟨by decide, by decide, trivial⟩

end BitCrystal.MruSet
