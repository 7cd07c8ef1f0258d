import Mathlib.Data.List.Nodup
import Mathlib.Data.List.Perm.Subperm
import Mathlib.Order.Lattice

/-! # Maps with ordered keys

A map is the list of its entries in the order of their keys, as a search tree shows it. Looking up after an
insertion or an erasure is given by cases on the key.
-/

/-- Entries sorted by their keys. -/
@[ext]
structure OrderedMap (K V : Type*) [LinearOrder K] where
  entries : List (K × V)
  sorted : entries.Pairwise fun a b => a.1 < b.1

namespace OrderedMap

variable {K V : Type*} [LinearOrder K] {map other : OrderedMap K V} {key k : K} {value v old : V}

instance : EmptyCollection (OrderedMap K V) := ⟨⟨[], .nil⟩⟩

instance : Inhabited (OrderedMap K V) := ⟨∅⟩

def find? (map : OrderedMap K V) (key : K) : Option V := map.entries.lookup key

/-- Set the value of a key. -/
def insert (map : OrderedMap K V) (key : K) (value : V) : OrderedMap K V where
  entries := map.entries.filter (·.1 < key) ++ (key, value) :: map.entries.filter (key < ·.1)
  sorted := by
    refine List.pairwise_append.mpr ⟨map.sorted.filter _, List.pairwise_cons.mpr ⟨fun entry member => ?_,
      map.sorted.filter _⟩, fun low before high after => ?_⟩
    · exact of_decide_eq_true (List.mem_filter.mp member).2
    · have below : low.1 < key := of_decide_eq_true (List.mem_filter.mp before).2
      rcases List.mem_cons.mp after with rfl | after
      · exact below
      · exact below.trans (of_decide_eq_true (List.mem_filter.mp after).2)

def erase (map : OrderedMap K V) (key : K) : OrderedMap K V where
  entries := map.entries.filter (·.1 ≠ key)
  sorted := map.sorted.filter _

def size (map : OrderedMap K V) : ℕ := map.entries.length

def keys (map : OrderedMap K V) : List K := map.entries.map Prod.fst

/-- Add an entry unless its key is there. -/
def insertNew (map : OrderedMap K V) (entry : K × V) : OrderedMap K V :=
  match map.find? entry.1 with
  | some _ => map
  | none => map.insert entry.1 entry.2

/-- The first entry whose key is not below. -/
def lowerBound (map : OrderedMap K V) (key : K) : Option (K × V) := map.entries.find? (key ≤ ·.1)

/-! ## Entries -/

theorem nodup_keys (map : OrderedMap K V) : map.keys.Nodup :=
  List.pairwise_map.mpr (map.sorted.imp ne_of_lt)

theorem mem_iff_lookup {entries : List (K × V)} (unique : (entries.map Prod.fst).Nodup) :
    (key, value) ∈ entries ↔ entries.lookup key = some value := by
  induction entries with
  | nil => simp
  | cons entry rest ih =>
    obtain ⟨apart, unique⟩ := List.nodup_cons.mp unique
    have later := ih unique
    rw [List.mem_cons, List.lookup_cons]
    rcases eq_or_ne key entry.1 with rfl | different
    · have absent : (entry.1, value) ∉ rest := fun member => apart (List.mem_map.mpr ⟨_, member, rfl⟩)
      rw [beq_self_eq_true, or_iff_left absent]
      exact ⟨fun same => congrArg some (congrArg Prod.snd same).symm, fun same => Prod.ext rfl (Option.some.inj same).symm⟩
    · rw [beq_false_of_ne different]
      exact (or_iff_right fun same => different (congrArg Prod.fst same)).trans later

theorem mem_entries : (key, value) ∈ map.entries ↔ map.find? key = some value := mem_iff_lookup map.nodup_keys

theorem mem_keys : key ∈ map.keys ↔ (map.find? key).isSome := by
  rw [keys, List.mem_map, Option.isSome_iff_exists]
  constructor
  · rintro ⟨entry, member, rfl⟩
    exact ⟨entry.2, mem_entries.mp member⟩
  · rintro ⟨value, found⟩
    exact ⟨_, mem_entries.mpr found, rfl⟩

/-- A map is what is looked up in it. -/
theorem ext_find? (same : ∀ key, map.find? key = other.find? key) : map = other := by
  have members : ∀ entry, entry ∈ map.entries ↔ entry ∈ other.entries := by
    rintro ⟨key, value⟩
    rw [mem_entries, mem_entries, same]
  have perm : map.entries.Perm other.entries :=
    (List.perm_ext_iff_of_nodup (List.Nodup.of_map _ map.nodup_keys) (List.Nodup.of_map _ other.nodup_keys)).mpr members
  apply OrderedMap.ext
  exact perm.eq_of_pairwise (fun a b _ _ ab ba => absurd (ab.trans ba) (lt_irrefl _)) map.sorted other.sorted

@[simp] theorem find?_empty : (∅ : OrderedMap K V).find? key = none := rfl

theorem find?_insert : (map.insert key value).find? k = if k = key then some value else map.find? k := by
  ext v
  rw [← mem_entries]
  simp only [insert, List.mem_append, List.mem_filter, List.mem_cons, Prod.mk.injEq, mem_entries, decide_eq_true_eq]
  split_ifs with same
  · simp [same, eq_comm]
  · have apart := lt_or_gt_of_ne same
    constructor
    · rintro (⟨found, -⟩ | ⟨here, -⟩ | ⟨found, -⟩)
      · exact found
      · exact absurd here same
      · exact found
    · exact fun found => apart.imp (⟨found, ·⟩) fun above => .inr ⟨found, above⟩

theorem find?_insert_self : (map.insert key value).find? key = some value := by rw [find?_insert, if_pos rfl]

theorem find?_erase : (map.erase key).find? k = if k = key then none else map.find? k := by
  ext v
  rw [← mem_entries]
  simp only [erase, List.mem_filter, mem_entries, decide_eq_true_eq]
  split_ifs with same
  · simp [same]
  · exact and_iff_left same

theorem find?_foldl_erase (keys : List K) :
    (keys.foldl erase map).find? k = if k ∈ keys then none else map.find? k := by
  induction keys generalizing map with
  | nil => rw [List.foldl_nil, if_neg List.not_mem_nil]
  | cons key keys ih =>
    rw [List.foldl_cons, ih, find?_erase]
    by_cases later : k ∈ keys
    · rw [if_pos later, if_pos (List.mem_cons_of_mem _ later)]
    · simp only [if_neg later, List.mem_cons, or_iff_left later]

theorem insertNew_of_none {entry : K × V} (missing : map.find? entry.1 = none) :
    map.insertNew entry = map.insert entry.1 entry.2 := by rw [insertNew, missing]

/-- Entries with different keys are all there after they have been inserted. -/
theorem find?_foldl_insertNew {entries : List (K × V)} (unique : (entries.map Prod.fst).Nodup)
    (fresh : ∀ entry ∈ entries, map.find? entry.1 = none) (key : K) :
    (entries.foldl insertNew map).find? key = (entries.lookup key).or (map.find? key) := by
  induction entries generalizing map with
  | nil => rfl
  | cons entry rest ih =>
    obtain ⟨apart, unique⟩ := List.nodup_cons.mp unique
    have differ : ∀ other ∈ rest, other.1 ≠ entry.1 := fun other member same =>
      apart (List.mem_map.mpr ⟨other, member, same⟩)
    rw [List.foldl_cons, insertNew_of_none (fresh entry List.mem_cons_self), ih unique, List.lookup_cons, find?_insert]
    · rcases eq_or_ne key entry.1 with rfl | different
      · have absent : rest.lookup entry.1 = none := List.lookup_eq_none_iff.mpr fun other member =>
          bne_iff_ne.mpr (differ other member).symm
        rw [absent, if_pos rfl, beq_self_eq_true]
        rfl
      · rw [if_neg different, beq_false_of_ne different]
    · intro other member
      rw [find?_insert, if_neg (differ other member), fresh other (List.mem_cons_of_mem _ member)]

/-- Inserting its entries one by one gives the map. -/
theorem foldl_insertNew (map : OrderedMap K V) : map.entries.foldl insertNew ∅ = map := by
  apply ext_find?
  intro key
  rw [find?_foldl_insertNew map.nodup_keys fun _ _ => find?_empty, find?_empty, Option.or_none]
  rfl

theorem size_eq_zero : map.size = 0 ↔ ∀ key, map.find? key = none := by
  rw [size, List.length_eq_zero_iff]
  constructor
  · intro nothing key
    rw [find?, nothing, List.lookup_nil]
  · intro nothing
    refine List.eq_nil_iff_forall_not_mem.mpr fun entry member => ?_
    have found := mem_entries.mp member
    rw [nothing] at found
    cases found

theorem length_keys (map : OrderedMap K V) : map.keys.length = map.size := List.length_map ..

/-- More keys are in a list that has them all. -/
theorem size_le_length {l : List K} (covered : ∀ key, (map.find? key).isSome → key ∈ l) : map.size ≤ l.length := by
  rw [← map.length_keys]
  exact (map.nodup_keys.subperm fun key member => covered key (mem_keys.mp member)).length_le

theorem size_erase_of_some (found : map.find? key = some value) : (map.erase key).size + 1 = map.size := by
  have removed : map.keys.erase key = (map.erase key).keys := by
    rw [map.nodup_keys.erase_eq_filter, keys, keys, erase, List.filter_map]
    congr 1
    exact List.filter_congr fun entry _ => by simp [bne, beq_eq_decide]
  have member : key ∈ map.keys := mem_keys.mpr (by rw [found]; rfl)
  rw [← length_keys, ← removed, List.length_erase_of_mem member, ← map.length_keys]
  exact Nat.sub_add_cancel (List.length_pos_of_mem member)

theorem size_insert_of_none (missing : map.find? key = none) : (map.insert key value).size = map.size + 1 := by
  have same : (map.insert key value).erase key = map := by
    refine ext_find? fun k => ?_
    rw [find?_erase, find?_insert]
    split_ifs with here
    · rw [here, missing]
    · rfl
  have found : (map.insert key value).find? key = some value := find?_insert_self
  rw [← size_erase_of_some found, same]

/-- There is a first entry, or all keys are below. -/
theorem find?_of_lowerBound {entry : K × V} (found : map.lowerBound key = some entry) :
    map.find? entry.1 = some entry.2 := mem_entries.mp (List.mem_of_find?_eq_some found)

theorem nodup_entries (map : OrderedMap K V) : map.entries.Nodup := List.Nodup.of_map _ map.nodup_keys

theorem perm_insert : (map.insert key value).entries.Perm ((key, value) :: (map.erase key).entries) := by
  have fresh : (key, value) ∉ (map.erase key).entries := by
    rw [mem_entries, find?_erase, if_pos rfl]
    exact nofun
  apply (List.perm_ext_iff_of_nodup (nodup_entries _) (List.nodup_cons.mpr ⟨fresh, nodup_entries _⟩)).mpr
  rintro ⟨k, v⟩
  rw [List.mem_cons, mem_entries, mem_entries, find?_insert, find?_erase, Prod.mk.injEq]
  split
  next same => simp [same, eq_comm]
  next different => simp [different]

theorem perm_erase (found : map.find? key = some value) :
    map.entries.Perm ((key, value) :: (map.erase key).entries) := by
  have same : map.insert key value = map := by
    refine ext_find? fun k => ?_
    rw [find?_insert]
    split
    next here => rw [here, found]
    next => rfl
  have perm := @perm_insert _ _ _ map key value
  rwa [same] at perm

theorem erase_of_none (missing : map.find? key = none) : map.erase key = map := by
  refine ext_find? fun k => ?_
  rw [find?_erase]
  split
  next here => rw [here, missing]
  next => rfl

/-- A property of all entries, of which a new one is one more. -/
theorem forall_insert {P : K × V → Prop} (missing : map.find? key = none) :
    (∀ entry ∈ (map.insert key value).entries, P entry) ↔ P (key, value) ∧ ∀ entry ∈ map.entries, P entry := by
  have perm := @perm_insert _ _ _ map key value
  rw [erase_of_none missing] at perm
  rw [← List.forall_mem_cons]
  exact forall_congr' fun entry => imp_congr_left perm.mem_iff

/-- The number of entries with a value of some kind. -/
def count (p : V → Bool) (map : OrderedMap K V) : ℕ := map.entries.countP fun entry => p entry.2

variable {p : V → Bool}

theorem count_erase (found : map.find? key = some value) :
    (map.erase key).count p + (if p value then 1 else 0) = map.count p := by
  rw [count, count, (perm_erase found).countP_eq, List.countP_cons]

theorem count_insert : (map.insert key value).count p = (map.erase key).count p + if p value then 1 else 0 := by
  rw [count, count, perm_insert.countP_eq, List.countP_cons]

theorem size_eq_counts (p : V → Bool) (map : OrderedMap K V) :
    map.size = map.count p + map.count fun value => !p value := by
  rw [size, count, count, List.length_eq_countP_add_countP fun entry : K × V => p entry.2]
  congr 2
  funext entry
  cases p entry.2 <;> rfl

theorem count_insert_of_none (missing : map.find? key = none) :
    (map.insert key value).count p = map.count p + if p value then 1 else 0 := by
  rw [count_insert, erase_of_none missing]

/-- The number only depends on what is counted. -/
theorem count_congr {W : Type*} {f : V → W} {q : W → Bool}
    (same : ∀ key, (map.find? key).map f = (other.find? key).map f) :
    map.count (fun value => q (f value)) = other.count fun value => q (f value) := by
  have nodup (m : OrderedMap K V) : (m.entries.map fun e => (e.1, f e.2)).Nodup := by
    apply List.Nodup.of_map Prod.fst
    rw [List.map_map]
    exact m.nodup_keys
  have members (m : OrderedMap K V) (k : K) (w : W) :
      (k, w) ∈ m.entries.map (fun e => (e.1, f e.2)) ↔ (m.find? k).map f = some w := by
    rw [List.mem_map, Option.map_eq_some_iff]
    constructor
    · rintro ⟨entry, member, same⟩
      cases same
      exact ⟨entry.2, mem_entries.mp member, rfl⟩
    · rintro ⟨value, found, rfl⟩
      exact ⟨(k, value), mem_entries.mpr found, rfl⟩
  have counted (m : OrderedMap K V) :
      m.count (fun value => q (f value)) = (m.entries.map fun e => (e.1, f e.2)).countP fun e => q e.2 := by
    rw [List.countP_map]
    rfl
  rw [counted, counted]
  apply List.Perm.countP_eq
  apply (List.perm_ext_iff_of_nodup (nodup map) (nodup other)).mpr
  rintro ⟨k, w⟩
  rw [members, members, same]

end OrderedMap
