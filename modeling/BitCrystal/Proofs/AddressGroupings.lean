import BitCrystal.Machine.Components
import BitCrystal.Model.Accounts

/-! # The merged sets on the heap

The heap holds the components of the groupings so far, each at one pointer, and the map leads to the component of
every address. A hit pointer is alive, and no pointer is used after its set has been deleted.
-/

namespace BitCrystal

open AList

namespace GroupingState

open Components

variable {state : GroupingState} {parts : Finset AddressSet} {merged p : ℕ} {hits : List ℕ}
  {grouping : AddressSet}

theorem mergeHit_eq {hit : ℕ} {addresses : AddressSet} (held : state.heap.lookup hit = some addresses)
    (place : state.heap.lookup merged = some grouping) :
    mergeHit merged state hit = .ok { state with
      heap := (state.heap.insert merged (grouping ∪ addresses)).erase hit
      uniqueGroupings := state.uniqueGroupings.erase hit } := by
  simp only [mergeHit, held, place, assertSome, Check.ok_bind]
  rfl

/-- The hit groups are gone, and one group contains them all. -/
structure Merges (merged : ℕ) (hits : List ℕ) (before after : GroupingState) : Prop where
  setmap : after.setmap = before.setmap
  unique : ∀ p, p ∈ after.uniqueGroupings ↔ p ∈ before.uniqueGroupings ∧ p ∉ hits
  others : ∀ p, p ≠ merged → after.heap.lookup p = if p ∈ hits then none else before.heap.lookup p
  union : ∀ g, before.heap.lookup merged = some g → ∃ m, after.heap.lookup merged = some m ∧
    ∀ a, a ∈ m ↔ a ∈ g ∨ ∃ hit ∈ hits, ∃ part, before.heap.lookup hit = some part ∧ a ∈ part

theorem mergeHits_merges (merged : ℕ) (hits : List ℕ) : ∀ state : GroupingState, hits.Nodup → merged ∉ hits →
    merged ∈ state.heap → (∀ hit ∈ hits, hit ∈ state.heap) →
      ∃ after, hits.foldlM (mergeHit merged) state = .ok after ∧ Merges merged hits state after := by
  induction hits with
  | nil =>
    intro state _ _ _ _
    refine ⟨state, rfl, rfl, by simp, by simp, fun g place => ⟨g, place, by simp⟩⟩
  | cons hit hits ih =>
    intro state nodup apart here alive
    obtain ⟨absent, nodup⟩ := List.nodup_cons.mp nodup
    obtain ⟨apart, outside⟩ := not_or.mp (mt List.mem_cons.mpr apart)
    obtain ⟨addresses, held⟩ := Option.isSome_iff_exists.mp (lookup_isSome.mpr (alive hit List.mem_cons_self))
    obtain ⟨grouping, place⟩ := Option.isSome_iff_exists.mp (lookup_isSome.mpr here)
    set next : GroupingState := { state with
      heap := (state.heap.insert merged (grouping ∪ addresses)).erase hit
      uniqueGroupings := state.uniqueGroupings.erase hit } with next_eq
    have moved : next.heap.lookup merged = some (grouping ∪ addresses) := by
      rw [next_eq, lookup_erase_ne apart, lookup_insert]
    have kept (p : ℕ) (other : p ≠ merged) : next.heap.lookup p = if p = hit then none else state.heap.lookup p := by
      rw [next_eq]
      split
      · next same => rw [same, lookup_erase]
      · next differs => rw [lookup_erase_ne differs, lookup_insert_ne other]
    have live : ∀ other ∈ hits, next.heap.lookup other = state.heap.lookup other := by
      intro other member
      have differs : other ≠ merged := fun same => outside (by rwa [← same])
      have remains : other ≠ hit := fun same => absent (by rwa [← same])
      rw [kept other differs, if_neg remains]
    have place' : merged ∈ next.heap := lookup_isSome.mp (by rw [moved]; rfl)
    obtain ⟨after, ran, merges⟩ := ih next nodup outside place'
      fun other member => by
        rw [← lookup_isSome, live other member, lookup_isSome]
        exact alive other (List.mem_cons_of_mem _ member)
    refine ⟨after, ?_, merges.setmap, fun p => ?_, fun p other => ?_, fun g found => ?_⟩
    · rw [List.foldlM_cons, mergeHit_eq held place]
      exact ran
    · rw [merges.unique, List.mem_cons, not_or, next_eq, Finset.mem_erase]
      tauto
    · rw [merges.others p other, kept p other]
      simp only [List.mem_cons]
      split_ifs <;> first | rfl | (exfalso; tauto)
    · cases place.symm.trans found
      obtain ⟨m, result, members⟩ := merges.union _ moved
      refine ⟨m, result, fun a => ?_⟩
      rw [members, Finset.mem_union, or_assoc, List.exists_mem_cons_iff, held]
      refine or_congr_right (or_congr ?_ ?_)
      · simp
      · refine exists_congr fun other => and_congr_right fun member => ?_
        rw [live other member]

/-- The parts lie on the heap, and every address leads to its part. -/
structure Holds (state : GroupingState) (parts : Finset AddressSet) : Prop where
  live : ∀ p, p ∈ state.uniqueGroupings ↔ p ∈ state.heap
  parts : ∀ g, g ∈ parts ↔ ∃ p, state.heap.lookup p = some g
  owner : ∀ a p, state.setmap a = some p ↔ ∃ g, state.heap.lookup p = some g ∧ a ∈ g

theorem holds_empty : Holds {} ∅ where
  live p := by simp
  parts g := by simp
  owner a p := by simp

private theorem foldl_updates {m : ℕ} (elements : List CTxDestination) (a : CTxDestination) :
    ∀ setmap : CTxDestination → Option ℕ,
      elements.foldl (fun setmap element => Function.update setmap element (some m)) setmap a =
        if a ∈ elements then some m else setmap a := by
  induction elements with
  | nil => exact fun setmap => rfl
  | cons element elements ih =>
    intro setmap
    rw [List.foldl_cons, ih, Function.update_apply]
    simp only [List.mem_cons]
    split_ifs <;> simp_all

/-- One part is left at the new pointer instead of those that the grouping meets. -/
structure Joins (merged : ℕ) (parts : Finset AddressSet) (grouping : AddressSet) (before after : GroupingState) :
    Prop where
  setmap : after.setmap = before.setmap
  whole : after.heap.lookup merged = some (joined parts grouping)
  kept : ∀ p g, p ≠ merged → (after.heap.lookup p = some g ↔ before.heap.lookup p = some g ∧ Disjoint g grouping)
  unique : ∀ p, p ∈ after.uniqueGroupings ↔ p ≠ merged ∧ p ∈ after.heap

namespace Holds

/-- The hits are the parts that meet the grouping. -/
theorem mem_hits (holds : Holds state parts) (runtime : SetRuntime) (grouping : AddressSet) (p : ℕ) :
    p ∈ runtime.pointers.toList ((runtime.addresses.toList grouping).filterMap state.setmap).toFinset ↔
      ∃ g, state.heap.lookup p = some g ∧ ¬ Disjoint g grouping := by
  rw [runtime.pointers.mem, List.mem_toFinset, List.mem_filterMap]
  constructor
  · rintro ⟨a, member, leads⟩
    obtain ⟨g, held, inside⟩ := (holds.owner a p).mp leads
    exact ⟨g, held, Finset.not_disjoint_iff.mpr ⟨a, inside, (runtime.addresses.mem _ _).mp member⟩⟩
  · rintro ⟨g, held, meets⟩
    obtain ⟨a, inside, member⟩ := Finset.not_disjoint_iff.mp meets
    exact ⟨a, (runtime.addresses.mem _ _).mpr member, (holds.owner a p).mpr ⟨g, held, inside⟩⟩

private theorem unheld (fresh : merged ∉ state.heap) {g : AddressSet}
    (held : state.heap.lookup p = some g) : p ≠ merged := by
  rintro rfl
  rw [lookup_eq_none.mpr fresh] at held
  cases held

/-- Merging the hits leaves the grouping with all parts that it meets, and the other parts. -/
theorem merge (holds : Holds state parts) (fresh : merged ∉ state.heap) (nodup : hits.Nodup)
    (mem_hits : ∀ p, p ∈ hits ↔ ∃ g, state.heap.lookup p = some g ∧ ¬ Disjoint g grouping) :
    ∃ next, hits.foldlM (mergeHit merged) { state with heap := state.heap.insert merged grouping } = .ok next ∧
      Joins merged parts grouping state next := by
  have before {p : ℕ} (other : p ≠ merged) : (state.heap.insert merged grouping).lookup p = state.heap.lookup p :=
    lookup_insert_ne other
  have alive {hit : ℕ} (member : hit ∈ hits) : hit ≠ merged ∧ hit ∈ state.heap := by
    obtain ⟨g, held, -⟩ := (mem_hits hit).mp member
    exact ⟨unheld fresh held, lookup_isSome.mp (by rw [held]; rfl)⟩
  obtain ⟨next, ran, merges⟩ := mergeHits_merges merged hits
    { state with heap := state.heap.insert merged grouping } nodup
    (fun member => (alive member).1 rfl) ((mem_insert _).mpr (.inl rfl))
    fun hit member => (mem_insert _).mpr (.inr (alive member).2)
  obtain ⟨m, result, mem_m⟩ := merges.union grouping (lookup_insert ..)
  have others (p : ℕ) (other : p ≠ merged) : next.heap.lookup p = if p ∈ hits then none else state.heap.lookup p := by
    rw [merges.others p other]
    exact congrArg (fun old => if p ∈ hits then none else old) (before other)
  refine ⟨next, ran, merges.setmap, ?_, fun p g other => ?_, fun p => ?_⟩
  · rw [result]
    congr 1
    ext a
    rw [mem_m, mem_joined]
    refine or_congr_right ⟨?_, ?_⟩
    · rintro ⟨hit, member, part, held, inside⟩
      rw [before (alive member).1] at held
      obtain ⟨g, found, meets⟩ := (mem_hits hit).mp member
      cases held.symm.trans found
      exact ⟨part, (holds.parts part).mpr ⟨hit, held⟩, meets, inside⟩
    · rintro ⟨part, member, meets, inside⟩
      obtain ⟨hit, held⟩ := (holds.parts part).mp member
      exact ⟨hit, (mem_hits hit).mpr ⟨part, held, meets⟩, part, (before (unheld fresh held)).trans held, inside⟩
  · rw [others p other]
    split
    · next member =>
      obtain ⟨h, held, meets⟩ := (mem_hits p).mp member
      refine ⟨nofun, ?_⟩
      rintro ⟨found, apart⟩
      cases held.symm.trans found
      exact absurd apart meets
    · next member =>
      refine ⟨fun held => ⟨held, ?_⟩, And.left⟩
      by_contra meets
      exact member ((mem_hits p).mpr ⟨g, held, meets⟩)
  · rw [merges.unique, holds.live]
    constructor
    · rintro ⟨lives, absent⟩
      have other : p ≠ merged := fun same => fresh (by rwa [← same])
      refine ⟨other, ?_⟩
      rw [← lookup_isSome, others p other, if_neg absent, lookup_isSome]
      exact lives
    · rintro ⟨other, lives⟩
      rw [← lookup_isSome, others p other] at lives
      split at lives
      · cases lives
      · next absent => exact ⟨lookup_isSome.mp lives, absent⟩

/-- An address of the new part leads nowhere else. -/
theorem owner_join (holds : Holds state parts) (fresh : merged ∉ state.heap) {next : GroupingState}
    (joins : Joins merged parts grouping state next) (a : CTxDestination) (p : ℕ) :
    (if a ∈ joined parts grouping then some merged else state.setmap a) = some p ↔
      ∃ g, next.heap.lookup p = some g ∧ a ∈ g := by
  rcases eq_or_ne p merged with rfl | other
  · rw [joins.whole]
    constructor
    · intro leads
      split at leads
      · next inside => exact ⟨_, rfl, inside⟩
      · obtain ⟨g, held, -⟩ := (holds.owner a p).mp leads
        exact absurd rfl (unheld fresh held)
    · rintro ⟨g, ⟨⟩, inside⟩
      rw [if_pos inside]
  · simp only [joins.kept p _ other]
    split
    · next inside =>
      refine ⟨fun leads => absurd (Option.some.inj leads).symm other, ?_⟩
      rintro ⟨g, ⟨held, apart⟩, within⟩
      rcases mem_joined.mp inside with here | ⟨q, member, meets, also⟩
      · exact absurd here (Finset.disjoint_left.mp apart within)
      · obtain ⟨p', found⟩ := (holds.parts q).mp member
        have same := ((holds.owner a p').mpr ⟨q, found, also⟩).symm.trans ((holds.owner a p).mpr ⟨g, held, within⟩)
        cases Option.some.inj same
        cases held.symm.trans found
        exact absurd apart meets
    · next outside =>
      rw [holds.owner]
      constructor
      · rintro ⟨g, held, within⟩
        refine ⟨g, ⟨held, ?_⟩, within⟩
        by_contra meets
        exact outside (mem_joined.mpr (.inr ⟨g, (holds.parts g).mpr ⟨p, held⟩, meets, within⟩))
      · rintro ⟨g, ⟨held, -⟩, within⟩
        exact ⟨g, held, within⟩

theorem join (holds : Holds state parts) (fresh : merged ∉ state.heap) {next : GroupingState}
    (joins : Joins merged parts grouping state next) {elements : List CTxDestination}
    (all : ∀ a, a ∈ elements ↔ a ∈ joined parts grouping) :
    Holds { next with
      uniqueGroupings := insert merged next.uniqueGroupings
      setmap := elements.foldl (fun setmap element => Function.update setmap element (some merged)) next.setmap }
      (Components.join parts grouping) where
  live p := by
    rw [Finset.mem_insert, joins.unique]
    rcases eq_or_ne p merged with rfl | other
    · rw [← lookup_isSome, joins.whole]
      simp
    · simp [other]
  parts g := by
    rw [mem_join]
    constructor
    · rintro (rfl | ⟨member, apart⟩)
      · exact ⟨merged, joins.whole⟩
      · obtain ⟨p, held⟩ := (holds.parts g).mp member
        exact ⟨p, (joins.kept p g (unheld fresh held)).mpr ⟨held, apart⟩⟩
    · rintro ⟨p, held⟩
      rcases eq_or_ne p merged with rfl | other
      · exact .inl (Option.some.inj (held.symm.trans joins.whole))
      · obtain ⟨old, apart⟩ := (joins.kept p g other).mp held
        exact .inr ⟨(holds.parts g).mpr ⟨p, old⟩, apart⟩
  owner a p := by
    dsimp only
    rw [foldl_updates, joins.setmap]
    simp only [all]
    exact holds.owner_join fresh joins a p

/-- A grouping is joined to the parts, whatever the order of the iterators and wherever the new set lies. -/
theorem addGrouping (holds : Holds state parts) (runtime : SetRuntime) (grouping : AddressSet) :
    ∃ after, state.addGrouping runtime grouping = .ok after ∧ Holds after (Components.join parts grouping) := by
  have fresh := runtime.fresh state.heap
  obtain ⟨next, ran, joins⟩ := holds.merge fresh (runtime.pointers.nodup _) (holds.mem_hits runtime grouping)
  refine ⟨_, ?_, holds.join fresh joins (runtime.addresses.mem _)⟩
  rw [GroupingState.addGrouping, ran, Check.ok_bind, joins.whole, assertSome, Check.ok_bind]
  rfl

/-- The loop over the groupings computes the components. -/
theorem addGroupings (runtime : SetRuntime) (groupings : List AddressSet) :
    ∀ {state : GroupingState} {parts : Finset AddressSet} {gs : Set AddressSet}, Holds state parts → AreComponents gs parts →
      (∀ g ∈ groupings, g.Nonempty) →
      ∃ after parts', groupings.foldlM (GroupingState.addGrouping runtime) state = .ok after ∧ Holds after parts' ∧
        AreComponents ({g | g ∈ groupings} ∪ gs) parts' := by
  induction groupings with
  | nil =>
    intro state parts gs holds components _
    refine ⟨state, parts, rfl, holds, ?_⟩
    simpa using components
  | cons grouping groupings ih =>
    intro state parts gs holds components nonempty
    obtain ⟨next, added, holds⟩ := holds.addGrouping runtime grouping
    obtain ⟨after, parts', ran, holds, components⟩ := ih holds
      (components.join (nonempty grouping List.mem_cons_self)) fun g member => nonempty g (List.mem_cons_of_mem _ member)
    refine ⟨after, parts', ?_, holds, ?_⟩
    · rw [List.foldlM_cons, added]
      exact ran
    · convert components using 1
      ext g
      simp only [List.mem_cons, Set.mem_union, Set.mem_ofPred_eq, Set.mem_insert_iff]
      tauto

end Holds

/-- Every pointer is read and deleted once. -/
theorem collect_all (pointers : List ℕ) : ∀ (ret : Finset AddressSet) (heap : AddressHeap), pointers.Nodup →
    (∀ p ∈ pointers, p ∈ heap) → ∃ ret' heap', pointers.foldlM collect (ret, heap) = .ok (ret', heap') ∧
      (∀ g, g ∈ ret' ↔ g ∈ ret ∨ ∃ p ∈ pointers, heap.lookup p = some g) ∧
        ∀ p, p ∈ heap' ↔ p ∈ heap ∧ p ∉ pointers := by
  induction pointers with
  | nil =>
    intro ret heap _ _
    refine ⟨ret, heap, rfl, by simp, by simp⟩
  | cons pointer pointers ih =>
    intro ret heap nodup alive
    obtain ⟨absent, nodup⟩ := List.nodup_cons.mp nodup
    obtain ⟨g, held⟩ := Option.isSome_iff_exists.mp (lookup_isSome.mpr (alive pointer List.mem_cons_self))
    have differs {p : ℕ} (member : p ∈ pointers) : p ≠ pointer := fun same => absent (by rwa [← same])
    obtain ⟨ret', heap', ran, collected, left⟩ := ih (insert g ret) (heap.erase pointer) nodup
      fun p member => mem_erase.mpr ⟨differs member, alive p (List.mem_cons_of_mem _ member)⟩
    refine ⟨ret', heap', ?_, fun h => ?_, fun p => ?_⟩
    · simp only [List.foldlM_cons, collect, held, assertSome, Check.ok_bind]
      exact ran
    · rw [collected, Finset.mem_insert, List.exists_mem_cons_iff, held, Option.some_inj,
        or_comm (a := h = g), or_assoc, eq_comm (a := h)]
      refine or_congr_right (or_congr_right (exists_congr fun p => and_congr_right fun member => ?_))
      rw [lookup_erase_ne (differs member)]
    · rw [left, mem_erase, List.mem_cons, not_or]
      tauto

end GroupingState

end BitCrystal
