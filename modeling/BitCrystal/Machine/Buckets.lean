import Mathlib.Algebra.BigOperators.Group.Finset.Piecewise
import Mathlib.Algebra.Order.BigOperators.Group.Finset
import Mathlib.Data.Fintype.Option

/-! # Tables and their inverses

Two maps that find each other, and buckets that are counted with multiplicity.
-/

/-! ## Partial inverses

Two partial maps are inverse if each finds exactly what the other is found under: an index and what it is an index of, or
a list and the positions of its elements. Entering a pair, erasing one and exchanging two keep them so.
-/

/-- Each map finds what the other is found under. -/
def PartialInverse {A B : Type*} (f : A → Option B) (g : B → Option A) : Prop := ∀ a b, f a = some b ↔ g b = some a

namespace PartialInverse

open Function

variable {A B : Type*} {f : A → Option B} {g : B → Option A} {a a' : A} {b b' : B}

theorem symm (inverse : PartialInverse f g) : PartialInverse g f := fun b a => (inverse a b).symm

theorem unique (inverse : PartialInverse f g) (first : f a = some b) (second : f a' = some b) : a = a' :=
  Option.some.inj (((inverse a b).mp first).symm.trans ((inverse a' b).mp second))

variable [DecidableEq A] [DecidableEq B]

/-- Enter a new pair. -/
theorem insert (inverse : PartialInverse f g) (newLeft : f a = none) (newRight : g b = none) :
    PartialInverse (update f a (some b)) (update g b (some a)) := by
  intro x y
  rcases eq_or_ne x a with rfl | left <;> rcases eq_or_ne y b with rfl | right
  · rw [update_self, update_self]
    exact ⟨fun _ => rfl, fun _ => rfl⟩
  · rw [update_self, update_of_ne right]
    constructor
    · intro same
      exact absurd (Option.some.inj same).symm right
    · intro found
      rw [(inverse x y).mpr found] at newLeft
      cases newLeft
  · rw [update_self, update_of_ne left]
    constructor
    · intro found
      rw [(inverse x y).mp found] at newRight
      cases newRight
    · intro same
      exact absurd (Option.some.inj same).symm left
  · rw [update_of_ne left, update_of_ne right]
    exact inverse x y

/-- Erase a pair. -/
theorem erase (inverse : PartialInverse f g) (found : f a = some b) :
    PartialInverse (update f a none) (update g b none) := by
  have back := (inverse a b).mp found
  intro x y
  rcases eq_or_ne x a with rfl | left <;> rcases eq_or_ne y b with rfl | right
  · rw [update_self, update_self]
    exact ⟨nofun, nofun⟩
  · rw [update_self, update_of_ne right]
    refine ⟨nofun, fun other => ?_⟩
    exact absurd (inverse.symm.unique other back) right
  · rw [update_self, update_of_ne left]
    refine ⟨fun other => ?_, nofun⟩
    exact absurd (inverse.unique other found) left
  · rw [update_of_ne left, update_of_ne right]
    exact inverse x y

/-- Exchange the partners of two pairs. -/
theorem swap (inverse : PartialInverse f g) (found : f a = some b) (found' : f a' = some b') (different : a ≠ a') :
    PartialInverse (update (update f a (some b')) a' (some b)) (update (update g b (some a')) b' (some a)) := by
  have apart : b ≠ b' := by
    rintro rfl
    exact different (inverse.unique found found')
  have first := (inverse.erase found).erase (by rw [update_of_ne different.symm]; exact found')
  have free : update (update g b none) b' none b' = none := update_self ..
  have second := first.insert (show update (update f a none) a' none a = none by rw [update_of_ne different, update_self])
    free
  have freeToo : update (update (update g b none) b' none) b' (some a) b = none := by
    rw [update_of_ne apart, update_of_ne apart, update_self]
  have third := second.insert (show update (update (update f a none) a' none) a (some b') a' = none by
    rw [update_of_ne different.symm, update_self]) freeToo
  rwa [update_comm different.symm, update_idem, update_idem, update_idem, update_comm apart.symm, update_idem] at third

variable {α : Type*}

theorem getElem?_push (l : List α) (x : α) : (fun i => (l ++ [x])[i]?) = update (fun i => l[i]?) l.length (some x) := by
  funext i
  rcases eq_or_ne i l.length with rfl | different
  · rw [update_self, List.getElem?_concat_length]
  · rw [update_of_ne different]
    rcases Nat.lt_or_gt_of_ne different with before | behind
    · exact List.getElem?_append_left before
    · rw [List.getElem?_eq_none (by rw [List.length_append, List.length_singleton]; omega),
        List.getElem?_eq_none (by omega)]

theorem getElem?_set {l : List α} {i : ℕ} (inside : i < l.length) (x : α) :
    (fun j => (l.set i x)[j]?) = update (fun j => l[j]?) i (some x) := by
  funext j
  rcases eq_or_ne j i with rfl | different
  · rw [update_self, List.getElem?_set_self inside]
  · rw [update_of_ne different, List.getElem?_set_ne different.symm]

theorem getElem?_pop (l : List α) : (fun i => l.dropLast[i]?) = update (fun i => l[i]?) (l.length - 1) none := by
  funext i
  rw [List.getElem?_dropLast]
  rcases eq_or_ne i (l.length - 1) with rfl | different
  · rw [update_self, if_neg (by omega)]
  · rw [update_of_ne different]
    split
    next => rfl
    next beyond => rw [List.getElem?_eq_none (by omega)]

end PartialInverse

/-! ## Buckets

The contents of a family of buckets are counted with multiplicity: how often an element occurs in all buckets together.
Each change of one bucket changes the contents by what is put in and what is taken out.
-/

namespace Buckets

open Function

variable {ι κ : Type*} [Fintype ι]

/-- All elements of all buckets. -/
@[irreducible] def contents (buckets : ι → Multiset κ) : Multiset κ := ∑ i, buckets i

theorem contents_eq (buckets : ι → Multiset κ) : contents buckets = ∑ i, buckets i := by
  rw [contents]

theorem mem_contents {buckets : ι → Multiset κ} {k : κ} : k ∈ contents buckets ↔ ∃ i, k ∈ buckets i := by
  simp only [contents_eq, Multiset.mem_sum, Finset.mem_univ, true_and]

section Update

variable [DecidableEq ι]

theorem contents_update (buckets : ι → Multiset κ) (i : ι) (bucket : Multiset κ) :
    contents (update buckets i bucket) + buckets i = contents buckets + bucket := by
  have before := Finset.add_sum_erase Finset.univ buckets (Finset.mem_univ i)
  have after := Finset.add_sum_erase Finset.univ (update buckets i bucket) (Finset.mem_univ i)
  have others : ∑ j ∈ Finset.univ.erase i, update buckets i bucket j = ∑ j ∈ Finset.univ.erase i, buckets j :=
    Finset.sum_congr rfl fun j member => update_of_ne (Finset.ne_of_mem_erase member) ..
  rw [contents_eq, contents_eq, ← before, ← after, others, update_self]
  rw [add_comm bucket, add_comm (buckets i), add_right_comm]

/-- Put one element into a bucket. -/
theorem contents_cons (buckets : ι → Multiset κ) (i : ι) (k : κ) :
    contents (update buckets i (k ::ₘ buckets i)) = k ::ₘ contents buckets := by
  have sum := contents_update buckets i (k ::ₘ buckets i)
  rw [Multiset.add_cons, ← Multiset.cons_add] at sum
  exact add_right_cancel sum

/-- Take one element out of a bucket. -/
theorem contents_of_cons {buckets : ι → Multiset κ} {i : ι} {k : κ} {rest : Multiset κ} (shape : buckets i = k ::ₘ rest) :
    contents buckets = k ::ₘ contents (update buckets i rest) := by
  have sum := contents_update buckets i rest
  rw [shape, Multiset.add_cons, ← Multiset.cons_add] at sum
  exact (add_right_cancel sum).symm

end Update

variable [DecidableEq κ]

theorem count_contents (buckets : ι → Multiset κ) (k : κ) : (contents buckets).count k = ∑ i, (buckets i).count k := by
  rw [contents_eq]
  exact Multiset.count_sum' ..

/-- How many sets an element is in. -/
theorem count_contents_val (buckets : ι → Finset κ) (k : κ) :
    (contents fun i => (buckets i).val).count k = (Finset.univ.filter fun i => k ∈ buckets i).card := by
  rw [count_contents, Finset.card_filter]
  apply Finset.sum_congr rfl
  intro i _
  rw [Multiset.count_eq_of_nodup (buckets i).nodup]
  rfl

/-- Erase an element from all sets. -/
theorem count_contents_erase (buckets : ι → Finset κ) (k a : κ) :
    (contents fun i => ((buckets i).erase a).val).count k =
      if k = a then 0 else (contents fun i => (buckets i).val).count k := by
  rw [count_contents_val, count_contents_val]
  split
  next same =>
    subst same
    exact Finset.card_eq_zero.mpr (Finset.filter_eq_empty_iff.mpr fun i _ => Finset.notMem_erase k _)
  next different =>
    congr 1
    apply Finset.filter_congr
    intro i _
    exact ⟨fun member => Finset.mem_of_mem_erase member, fun member => Finset.mem_erase.mpr ⟨different, member⟩⟩

end Buckets

/-! ### Adding up over the members of a pool

The state of a pool is a function on its finitely many members. When one member changes, what its old
state contributed is exchanged for what the new one contributes.
-/

open scoped BigOperators

namespace Census

variable {ι σ M : Type} [Fintype ι] [DecidableEq ι] [AddCommMonoid M]

/-- The sum of what the members contribute. -/
def census (f : σ → M) (states : ι → σ) : M := ∑ i, f (states i)

theorem census_update (f : σ → M) (states : ι → σ) (i : ι) (s : σ) :
    census f (Function.update states i s) + f (states i) = census f states + f s := by
  have others : ∑ j ∈ Finset.univ.erase i, f (Function.update states i s j) = ∑ j ∈ Finset.univ.erase i, f (states j) :=
    Finset.sum_congr rfl fun j member => by rw [Function.update_of_ne (Finset.ne_of_mem_erase member)]
  rw [census, census, ← Finset.add_sum_erase _ _ (Finset.mem_univ i), ← Finset.add_sum_erase _ _ (Finset.mem_univ i),
    others, Function.update_self, add_right_comm, add_comm (f s), add_right_comm]

omit [DecidableEq ι] in
theorem census_congr {f : σ → M} {states states' : ι → σ} (same : ∀ i, f (states' i) = f (states i)) :
    census f states' = census f states := Finset.sum_congr rfl fun i _ => same i

omit [DecidableEq ι] in
theorem census_eq_zero {f : σ → M} {states : ι → σ} (zero : ∀ i, f (states i) = 0) : census f states = 0 :=
  Finset.sum_eq_zero fun i _ => zero i

omit [DecidableEq ι] in
theorem le_census {f : σ → ℕ} {states : ι → σ} (i : ι) : f (states i) ≤ census f states :=
  Finset.single_le_sum (f := fun i => f (states i)) (fun _ _ => Nat.zero_le _) (Finset.mem_univ i)

end Census
