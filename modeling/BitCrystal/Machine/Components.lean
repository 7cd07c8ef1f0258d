import Mathlib.Data.Set.Card

/-! # Dependence and connection

What depends on a deleted element, and what is connected to an element by a chain of groups.
-/

/-! ## Deleting what depends on something

`r a b` says that `b` depends directly on `a`. A deleted set is closed when it has the dependants of
its members. What is left after deleting a closed set has the same dependencies as before, and
without cycles the dependants of a dependant are fewer.
-/

namespace Cascade

open Relation

variable {α : Type*} {r : α → α → Prop}

def Closed (r : α → α → Prop) (deleted : Set α) : Prop := ∀ a b, a ∈ deleted → r a b → b ∈ deleted

/-- `a` and everything that depends on it. -/
def dependants (r : α → α → Prop) (a : α) : Set α := {b | ReflTransGen r a b}

/-- The dependencies among the members that are left. -/
def remaining (r : α → α → Prop) (deleted : Set α) (a b : α) : Prop := r a b ∧ a ∉ deleted ∧ b ∉ deleted

variable {a b : α} {deleted : Set α}

theorem Closed.reach (closed : Closed r deleted) (member : a ∈ deleted) (reach : ReflTransGen r a b) :
    b ∈ deleted := by
  induction reach with
  | refl => exact member
  | tail _ edge ih => exact closed _ _ ih edge

theorem closed_dependants (a : α) : Closed r (dependants r a) := fun _ _ reach edge => ReflTransGen.tail reach edge

theorem Closed.union {other : Set α} (first : Closed r deleted) (second : Closed r other) :
    Closed r (deleted ∪ other) := by
  rintro a b (member | member) edge
  · exact .inl (first a b member edge)
  · exact .inr (second a b member edge)

theorem reach_of_remaining (reach : ReflTransGen (remaining r deleted) a b) : ReflTransGen r a b := by
  induction reach with
  | refl => exact .refl
  | tail _ edge ih => exact ih.tail edge.1

/-- Deleting a closed set does not change what reaches the rest. -/
theorem reach_remaining (closed : Closed r deleted) (left : b ∉ deleted) :
    ReflTransGen (remaining r deleted) a b ↔ ReflTransGen r a b := by
  constructor
  · exact reach_of_remaining
  · intro reach
    induction reach with
    | refl => exact .refl
    | @tail c d before edge ih =>
      have leftBefore : c ∉ deleted := fun member => left (closed c d member edge)
      exact (ih leftBefore).tail ⟨edge, leftBefore, left⟩

theorem union_dependants (closed : Closed r deleted) (a : α) :
    deleted ∪ dependants (remaining r deleted) a = deleted ∪ dependants r a := by
  ext b
  by_cases member : b ∈ deleted
  · exact ⟨fun _ => .inl member, fun _ => .inl member⟩
  · exact or_congr_right (reach_remaining closed member)

/-- What depends on `a` other than `a` itself, by the direct dependant it goes through. -/
def beneath (r : α → α → Prop) (a : α) : Set α := {b | ∃ c, r a c ∧ b ∈ dependants r c}

theorem beneath_union (a : α) : beneath r a ∪ {a} = dependants r a := by
  ext b
  constructor
  · rintro (⟨c, edge, rest⟩ | rfl)
    · exact .head edge rest
    · exact .refl
  · intro reach
    rcases ReflTransGen.cases_head reach with rfl | ⟨c, edge, rest⟩
    · exact .inr rfl
    · exact .inl ⟨c, edge, rest⟩

/-- Without cycles nothing depends on itself through others. -/
theorem not_mem_dependants (acyclic : WellFounded r) (edge : r a b) : a ∉ dependants r b := by
  intro reach
  have cycle : TransGen r a a := TransGen.head' edge reach
  exact acyclic.transGen.irrefl.irrefl a cycle

theorem not_mem_beneath (acyclic : WellFounded r) : a ∉ beneath r a := by
  rintro ⟨b, edge, reach⟩
  exact not_mem_dependants acyclic edge reach

theorem ncard_dependants_lt (acyclic : WellFounded r) (finite : (dependants r a).Finite) (edge : r a b) :
    (dependants r b).ncard < (dependants r a).ncard := by
  refine Set.ncard_lt_ncard ⟨fun c reach => ReflTransGen.head edge reach, fun all => ?_⟩ finite
  exact not_mem_dependants acyclic edge (all ReflTransGen.refl)

/-- Deleting twice is deleting both. -/
theorem remaining_remaining (deleted more : Set α) :
    remaining (remaining r deleted) more = remaining r (deleted ∪ more) := by
  funext a b
  simp only [remaining, Set.mem_union, not_or, eq_iff_iff]
  tauto

/-- What is closed stays so when more is deleted besides. -/
theorem Closed.of_subset {more gone : Set α} (closed : Closed (remaining r deleted) gone) (subset : deleted ⊆ more) :
    Closed (remaining r more) gone :=
  fun a b member ⟨edge, leftAbove, leftBelow⟩ =>
    closed a b member ⟨edge, fun there => leftAbove (subset there), fun there => leftBelow (subset there)⟩

theorem dependants_remaining_subset : dependants (remaining r deleted) a ⊆ dependants r a :=
  fun _ => reach_of_remaining

end Cascade

/-! ## Connected components of overlapping groups

Groups that share an element belong together. Joining the groups to disjoint parts one after the other, each with
all parts that it meets, gives the components: two elements are in one part just when a chain of groups connects
them. The parts do not depend on the order of the groups.
-/

namespace Components

variable {α : Type*} {gs hs : Set (Finset α)} {g p q : Finset α} {a b c : α}

/-- Two elements of one group. -/
def Share (gs : Set (Finset α)) (a b : α) : Prop := ∃ g ∈ gs, a ∈ g ∧ b ∈ g

/-- A chain of groups leads from one element to the other; each group shares an element with the next one. -/
def Connected (gs : Set (Finset α)) : α → α → Prop := Relation.TransGen (Share gs)

/-- The parts are the components of the groups. -/
structure AreComponents (gs : Set (Finset α)) (parts : Finset (Finset α)) : Prop where
  nonempty : ∀ p ∈ parts, p.Nonempty
  disjoint : ∀ p ∈ parts, ∀ q ∈ parts, p ≠ q → Disjoint p q
  covers : ∀ a, (∃ p ∈ parts, a ∈ p) ↔ ∃ g ∈ gs, a ∈ g
  connected : ∀ a b, (∃ p ∈ parts, a ∈ p ∧ b ∈ p) ↔ Connected gs a b

theorem Share.symm (share : Share gs a b) : Share gs b a := by
  obtain ⟨g, member, left, right⟩ := share
  exact ⟨g, member, right, left⟩

theorem Share.mono (sub : gs ⊆ hs) (share : Share gs a b) : Share hs a b := by
  obtain ⟨g, member, both⟩ := share
  exact ⟨g, sub member, both⟩

theorem Connected.symm (connected : Connected gs a b) : Connected gs b a := by
  induction connected with
  | single share => exact .single share.symm
  | tail _ share ih => exact .head share.symm ih

/-- A relation that is transitive and holds inside of every group holds along chains. -/
theorem Connected.lift {r : α → α → Prop} (inside : ∀ a b, Share gs a b → r a b)
    (transitive : ∀ a b c, r a b → r b c → r a c) (connected : Connected gs a b) : r a b := by
  induction connected with
  | single share => exact inside _ _ share
  | tail _ share ih => exact transitive _ _ _ ih (inside _ _ share)

theorem Connected.mono (sub : gs ⊆ hs) (connected : Connected gs a b) : Connected hs a b :=
  connected.lift (fun _ _ share => .single (share.mono sub)) fun _ _ _ => .trans

namespace AreComponents

variable {parts others : Finset (Finset α)}

theorem empty : AreComponents (∅ : Set (Finset α)) ∅ where
  nonempty _ member := absurd member (Finset.notMem_empty _)
  disjoint _ member := absurd member (Finset.notMem_empty _)
  covers a := by simp
  connected a b := by
    constructor
    · rintro ⟨p, member, -⟩
      exact absurd member (Finset.notMem_empty p)
    · intro connected
      refine connected.lift (r := fun _ _ => _) ?_ fun _ _ _ left _ => left
      rintro _ _ ⟨g, member, -⟩
      exact absurd member (Set.notMem_empty g)

/-- Elements of one part are in no two parts. -/
theorem eq_of_mem (components : AreComponents gs parts) (left : p ∈ parts) (right : q ∈ parts) (one : a ∈ p)
    (other : a ∈ q) : p = q := by
  by_contra apart
  exact Finset.disjoint_left.mp (components.disjoint p left q right apart) one other

end AreComponents

section Join

variable [DecidableEq α] {parts : Finset (Finset α)}

/-- The group with all parts that it meets. -/
def joined (parts : Finset (Finset α)) (g : Finset α) : Finset α :=
  g ∪ (parts.filter fun p => ¬ Disjoint p g).biUnion id

/-- The parts after a group. -/
def join (parts : Finset (Finset α)) (g : Finset α) : Finset (Finset α) :=
  insert (joined parts g) (parts.filter fun p => Disjoint p g)

theorem mem_joined : a ∈ joined parts g ↔ a ∈ g ∨ ∃ p ∈ parts, ¬ Disjoint p g ∧ a ∈ p := by
  simp only [joined, Finset.mem_union, Finset.mem_biUnion, Finset.mem_filter, id, and_assoc]

theorem mem_join : p ∈ join parts g ↔ p = joined parts g ∨ p ∈ parts ∧ Disjoint p g := by
  rw [join, Finset.mem_insert, Finset.mem_filter]

/-- What is in one part stays in one part. -/
theorem together_join (together : ∃ p ∈ parts, a ∈ p ∧ b ∈ p) : ∃ p ∈ join parts g, a ∈ p ∧ b ∈ p := by
  obtain ⟨p, part, left, right⟩ := together
  by_cases apart : Disjoint p g
  · exact ⟨p, mem_join.mpr (.inr ⟨part, apart⟩), left, right⟩
  · exact ⟨_, mem_join.mpr (.inl rfl), mem_joined.mpr (.inr ⟨p, part, apart, left⟩),
      mem_joined.mpr (.inr ⟨p, part, apart, right⟩)⟩

namespace AreComponents

variable (components : AreComponents gs parts)

include components

/-- Every element is connected to the group that is joined. -/
private theorem connected_of_joined (member : a ∈ joined parts g) : ∃ b ∈ g, Connected (insert g gs) a b := by
  rcases mem_joined.mp member with here | ⟨p, part, meets, inside⟩
  · exact ⟨a, here, .single ⟨g, Set.mem_insert g gs, here, here⟩⟩
  · obtain ⟨b, left, right⟩ := Finset.not_disjoint_iff.mp meets
    have old := (components.connected a b).mp ⟨p, part, inside, left⟩
    exact ⟨b, right, old.mono fun h listed => Set.mem_insert_of_mem g listed⟩

private theorem disjoint_joined (part : p ∈ parts) (apart : Disjoint p g) : Disjoint p (joined parts g) := by
  refine Finset.disjoint_left.mpr fun a inside member => ?_
  rcases mem_joined.mp member with here | ⟨q, other, meets, within⟩
  · exact Finset.disjoint_left.mp apart inside here
  · rw [components.eq_of_mem part other inside within] at apart
    exact meets apart

private theorem disjoint_join (left : p ∈ Components.join parts g) (right : q ∈ Components.join parts g)
    (apart : p ≠ q) : Disjoint p q := by
  rcases mem_join.mp left with rfl | ⟨part, clear⟩
  · rcases mem_join.mp right with rfl | ⟨other, clear⟩
    · exact absurd rfl apart
    · exact (components.disjoint_joined other clear).symm
  · rcases mem_join.mp right with rfl | ⟨other, -⟩
    · exact components.disjoint_joined part clear
    · exact components.disjoint p part q other apart

/-- Joining a group gives the components with the group. -/
theorem join (filled : g.Nonempty) : AreComponents (insert g gs) (Components.join parts g) where
  nonempty p member := by
    rcases mem_join.mp member with rfl | ⟨part, -⟩
    · obtain ⟨a, here⟩ := filled
      exact ⟨a, mem_joined.mpr (.inl here)⟩
    · exact components.nonempty p part
  disjoint p left q right apart := components.disjoint_join left right apart
  covers a := by
    constructor
    · rintro ⟨p, member, inside⟩
      rcases mem_join.mp member with rfl | ⟨part, -⟩
      · rcases mem_joined.mp inside with here | ⟨q, part, -, within⟩
        · exact ⟨g, Set.mem_insert g gs, here⟩
        · obtain ⟨h, listed, also⟩ := (components.covers a).mp ⟨q, part, within⟩
          exact ⟨h, Set.mem_insert_of_mem g listed, also⟩
      · obtain ⟨h, listed, also⟩ := (components.covers a).mp ⟨p, part, inside⟩
        exact ⟨h, Set.mem_insert_of_mem g listed, also⟩
    · rintro ⟨h, listed, here⟩
      rcases Set.mem_insert_iff.mp listed with rfl | listed
      · exact ⟨_, mem_join.mpr (.inl rfl), mem_joined.mpr (.inl here)⟩
      · obtain ⟨p, part, inside⟩ := (components.covers a).mpr ⟨h, listed, here⟩
        obtain ⟨q, member, also, -⟩ := together_join (g := g) ⟨p, part, inside, inside⟩
        exact ⟨q, member, also⟩
  connected a b := by
    constructor
    · rintro ⟨p, member, left, right⟩
      rcases mem_join.mp member with rfl | ⟨part, -⟩
      · obtain ⟨c, here, first⟩ := components.connected_of_joined left
        obtain ⟨d, there, last⟩ := components.connected_of_joined right
        exact (first.tail ⟨g, Set.mem_insert g gs, here, there⟩).trans last.symm
      · exact ((components.connected a b).mp ⟨p, part, left, right⟩).mono fun h listed =>
          Set.mem_insert_of_mem g listed
    · intro connected
      refine connected.lift (r := fun a b => ∃ p ∈ Components.join parts g, a ∈ p ∧ b ∈ p) ?_ ?_
      · rintro a b ⟨h, listed, left, right⟩
        rcases Set.mem_insert_iff.mp listed with rfl | listed
        · exact ⟨_, mem_join.mpr (.inl rfl), mem_joined.mpr (.inl left), mem_joined.mpr (.inl right)⟩
        · exact together_join ((components.connected a b).mpr (.single ⟨h, listed, left, right⟩))
      · rintro a b c ⟨p, left, inside, both⟩ ⟨q, right, also, other⟩
        have same : p = q := by
          by_contra apart
          exact Finset.disjoint_left.mp (components.disjoint_join left right apart) both also
        subst same
        exact ⟨p, left, inside, other⟩

end AreComponents

end Join

end Components
