import Mathlib.Order.Lattice.Nat

/-! # Samples and order statistics

Elements at random places of a list, and elements at a place of its sorted order.
-/

/-! ## Choosing from a sample

The front of a list is filled with elements from random places, and the place of the least of them is remembered. An
element stays in front once it is there, but the place it came from holds another one.
-/

namespace Sampling

variable {α β : Type*} {l : List α} {place : ℕ → ℕ} {i j k p rounds : ℕ} {x y : α}

/-- Two elements change places. -/
def exchange (l : List α) (p i : ℕ) : List α :=
  match l[p]?, l[i]? with
  | some x, some y => (l.set p y).set i x
  | _, _ => l

theorem exchange_eq (there : l[p]? = some x) (here : l[i]? = some y) : exchange l p i = (l.set p y).set i x := by
  rw [exchange, there, here]

theorem exchange_perm (l : List α) (p i : ℕ) : (exchange l p i).Perm l := by
  unfold exchange
  split
  next x y there here =>
    obtain ⟨inside, rfl⟩ := List.getElem?_eq_some_iff.mp there
    obtain ⟨inside', rfl⟩ := List.getElem?_eq_some_iff.mp here
    exact List.set_set_perm inside inside'
  next => exact List.Perm.refl l

@[simp] theorem length_exchange (l : List α) (p i : ℕ) : (exchange l p i).length = l.length :=
  (exchange_perm l p i).length_eq

/-- What comes to the front is what was at the place. -/
theorem getElem?_exchange (below : i ≤ p) (inside : p < l.length) : (exchange l p i)[i]? = l[p]? := by
  have there := List.getElem?_eq_getElem inside
  have here := List.getElem?_eq_getElem (below.trans_lt inside)
  rw [exchange_eq there here, List.getElem?_set_self (by rw [List.length_set]; omega), there]

theorem getElem?_exchange_of_lt (below : i ≤ p) (before : k < i) : (exchange l p i)[k]? = l[k]? := by
  unfold exchange
  split
  · rw [List.getElem?_set_ne (by omega), List.getElem?_set_ne (by omega)]
  · rfl

/-- Every draw is from the part that is not filled yet. -/
def Fair (place : ℕ → ℕ) (length : ℕ) : Prop := ∀ i, i ≤ place i ∧ (i < length → place i < length)

/-- `rounds` elements are drawn, from number `i` on. -/
def shuffle (place : ℕ → ℕ) : ℕ → ℕ → List α → List α
  | 0, _, l => l
  | rounds + 1, i, l => shuffle place rounds (i + 1) (exchange l (place i) i)

theorem shuffle_perm (place : ℕ → ℕ) (rounds i : ℕ) (l : List α) : (shuffle place rounds i l).Perm l := by
  induction rounds generalizing i l with
  | zero => exact List.Perm.refl l
  | succ rounds ih => exact (ih (i + 1) _).trans (exchange_perm l (place i) i)

@[simp] theorem length_shuffle (place : ℕ → ℕ) (rounds i : ℕ) (l : List α) :
    (shuffle place rounds i l).length = l.length :=
  (shuffle_perm place rounds i l).length_eq

/-- Behind the end nothing is drawn. -/
theorem shuffle_of_le (fair : Fair place l.length) (beyond : l.length ≤ i) : shuffle place rounds i l = l := by
  induction rounds generalizing i with
  | zero => rfl
  | succ rounds ih =>
    have outside : l[place i]? = none := List.getElem?_eq_none (beyond.trans (fair i).1)
    have still : exchange l (place i) i = l := by
      unfold exchange
      split
      next there _ => rw [outside] at there; cases there
      next => rfl
    rw [shuffle, still, ih (beyond.trans (Nat.le_succ i))]

/-- What is in front stays there. -/
theorem getElem?_shuffle_of_lt (fair : Fair place l.length) (before : k < i) :
    (shuffle place rounds i l)[k]? = l[k]? := by
  induction rounds generalizing i l with
  | zero => rfl
  | succ rounds ih =>
    rw [shuffle, ih (by rwa [length_exchange]) (by omega)]
    exact getElem?_exchange_of_lt (fair i).1 before

/-- The next element comes from its place. -/
theorem getElem?_shuffle (fair : Fair place l.length) : (shuffle place (rounds + 1) i l)[i]? = l[place i]? := by
  rw [shuffle, getElem?_shuffle_of_lt (by rwa [length_exchange]) (Nat.lt_succ_self i)]
  by_cases inside : i < l.length
  · exact getElem?_exchange (fair i).1 ((fair i).2 inside)
  · have beyond := Nat.le_of_not_lt inside
    rw [List.getElem?_eq_none (by rw [length_exchange]; exact beyond), List.getElem?_eq_none (beyond.trans (fair i).1)]

section

variable [LinearOrder β] {key : α → β} {best : Option (α × ℕ)}

/-- The least element so far and the place it came from, after more draws. -/
def pick (key : α → β) (place : ℕ → ℕ) : ℕ → ℕ → Option (α × ℕ) → List α → Option (α × ℕ)
  | 0, _, best, _ => best
  | rounds + 1, i, best, l =>
    match l[place i]? with
    | none => best
    | some x =>
      pick key place rounds (i + 1) (if best.all fun b => key x < key b.1 then some (x, place i) else best)
        (exchange l (place i) i)

/-- The first of the least elements among those drawn from number `i` on. -/
structure First (key : α → β) (place : ℕ → ℕ) (rounds i : ℕ) (l : List α) (j : ℕ) (x : α) : Prop where
  lower : i ≤ j
  upper : j < i + rounds
  drawn : (shuffle place rounds i l)[j]? = some x
  least : ∀ k y, i ≤ k → k < i + rounds → (shuffle place rounds i l)[k]? = some y → key x ≤ key y
  first : ∀ k y, i ≤ k → k < j → (shuffle place rounds i l)[k]? = some y → key x < key y

theorem First.unique {j' : ℕ} {x' : α} (first : First key place rounds i l j x)
    (other : First key place rounds i l j' x') : j = j' ∧ x = x' := by
  have same : j = j' := by
    rcases Nat.lt_trichotomy j j' with before | same | after
    · have less := other.first j x first.lower before first.drawn
      exact absurd (first.least j' x' other.lower other.upper other.drawn) less.not_ge
    · exact same
    · have less := first.first j' x' other.lower after other.drawn
      exact absurd (other.least j x first.lower first.upper first.drawn) less.not_ge
  subst same
  exact ⟨rfl, Option.some.inj (first.drawn.symm.trans other.drawn)⟩

/-- One more element in front of those that are drawn later. -/
theorem First.cons (first : First key place rounds (i + 1) (exchange l (place i) i) j x)
    (less : ∀ y, (shuffle place (rounds + 1) i l)[i]? = some y → key x < key y) :
    First key place (rounds + 1) i l j x where
  lower := (Nat.le_succ i).trans first.lower
  upper := first.upper.trans_eq (by omega)
  drawn := first.drawn
  least k y lower upper found := by
    rcases Nat.eq_or_lt_of_le lower with rfl | later
    · exact (less y found).le
    · exact first.least k y later (by omega) found
  first k y lower before found := by
    rcases Nat.eq_or_lt_of_le lower with rfl | later
    · exact less y found
    · exact first.first k y later before found

/-- The element that is kept is the least one, which came from the place that is remembered. -/
theorem pick_cases (fair : Fair place l.length) (rounds i : ℕ) (best : Option (α × ℕ)) :
    (pick key place rounds i best l = best ∧ ∀ k y, i ≤ k → k < i + rounds →
        (shuffle place rounds i l)[k]? = some y → ∃ b ∈ best, key b.1 ≤ key y) ∨
      ∃ j x, pick key place rounds i best l = some (x, place j) ∧ First key place rounds i l j x ∧
        ∀ b ∈ best, key x < key b.1 := by
  induction rounds generalizing i l best with
  | zero => exact .inl ⟨rfl, fun k y lower upper => absurd lower (by omega)⟩
  | succ rounds ih =>
    have next := @getElem?_shuffle _ l place i rounds fair
    rw [pick]
    cases found : l[place i]? with
    | none =>
      refine .inl ⟨rfl, fun k y lower upper there => ?_⟩
      have inside := (List.getElem?_eq_some_iff.mp there).1
      rw [length_shuffle] at inside
      have beyond := List.getElem?_eq_none_iff.mp found
      exact absurd ((fair i).2 (lower.trans_lt inside)) (by omega)
    | some x =>
      rw [found] at next
      have fair' : Fair place (exchange l (place i) i).length := by rwa [length_exchange]
      dsimp only
      split_ifs with less
      · refine .inr ?_
        have below : ∀ b ∈ best, key x < key b.1 := fun b member =>
          of_decide_eq_true ((Option.all_eq_true ..).mp less b member)
        rcases ih fair' (i + 1) (some (x, place i)) with ⟨same, above⟩ | ⟨j, y, picked, first, smaller⟩
        · refine ⟨i, x, same, ⟨le_rfl, by omega, next, ?_, fun k y lower before => absurd lower (by omega)⟩, below⟩
          intro k y lower upper there
          rcases Nat.eq_or_lt_of_le lower with rfl | later
          · exact (congrArg key (Option.some.inj (next.symm.trans there))).le
          · obtain ⟨b, member, least⟩ := above k y later (by omega) there
            obtain rfl := Option.some.inj member
            exact least
        · have smaller := smaller (x, place i) rfl
          refine ⟨j, y, picked, first.cons fun z there => ?_, fun b member => smaller.trans (below b member)⟩
          exact Option.some.inj (next.symm.trans there) ▸ smaller
      · -- an element that is not greater is kept already
        obtain ⟨b, rfl, greater⟩ : ∃ b, best = some b ∧ key b.1 ≤ key x := by
          cases best with
          | none => exact absurd rfl less
          | some b => exact ⟨b, rfl, not_lt.mp fun smaller => less (decide_eq_true smaller)⟩
        rcases ih fair' (i + 1) (some b) with ⟨same, above⟩ | ⟨j, y, picked, first, smaller⟩
        · refine .inl ⟨same, fun k y lower upper there => ?_⟩
          rcases Nat.eq_or_lt_of_le lower with rfl | later
          · exact ⟨b, rfl, Option.some.inj (next.symm.trans there) ▸ greater⟩
          · exact above k y later (by omega) there
        · refine .inr ⟨j, y, picked, first.cons fun z there => ?_, smaller⟩
          exact Option.some.inj (next.symm.trans there) ▸ (smaller b rfl).trans_le greater

/-- The least of the drawn elements is found. -/
theorem exists_pick_eq (fair : Fair place l.length) (within : i < l.length) (positive : 0 < rounds) :
    ∃ j x, pick key place rounds i none l = some (x, place j) ∧ First key place rounds i l j x := by
  rcases @pick_cases _ _ l place _ key fair rounds i none with ⟨-, above⟩ | ⟨j, x, picked, first, -⟩
  · have inside : i < (shuffle place rounds i l).length := by rwa [length_shuffle]
    obtain ⟨b, member, -⟩ := above i _ le_rfl (by omega) (List.getElem?_eq_getElem inside)
    cases member
  · exact ⟨j, x, picked, first⟩

end

end Sampling

/-! ## Order statistics

The element at a position of the sorted list, described by how many elements are below it. Between two lists
these counts alone decide which of two order statistics is the larger one.
-/

namespace OrderStatistic

variable {α : Type*} [LinearOrder α] {l l' : List α} {k k' : ℕ} {x y : α}

/-- The element at position `k` of the sorted list. -/
def nth (l : List α) (k : ℕ) : Option α := (l.insertionSort (· ≤ ·))[k]?

theorem exists_nth (inside : k < l.length) : ∃ x, nth l k = some x := by
  rw [← List.length_insertionSort (· ≤ ·)] at inside
  exact ⟨_, List.getElem?_eq_getElem inside⟩

theorem mem_of_nth (found : nth l k = some x) : x ∈ l :=
  (List.perm_insertionSort (· ≤ ·) l).mem_iff.mp (List.mem_of_getElem? found)

private theorem countP_sorted (below : α → Bool) : (l.insertionSort (· ≤ ·)).countP below = l.countP below :=
  (List.perm_insertionSort (· ≤ ·) l).countP_eq below

/-- Only the elements before it are smaller. -/
theorem countP_lt_le (found : nth l k = some x) : l.countP (· < x) ≤ k := by
  have sorted := List.pairwise_insertionSort (· ≤ ·) l
  obtain ⟨inside, rfl⟩ := List.getElem?_eq_some_iff.mp found
  rw [← countP_sorted]
  generalize l.insertionSort (· ≤ ·) = s at sorted inside ⊢
  have rest : (s.drop k).countP (· < s[k]) = 0 := by
    rw [List.countP_eq_zero]
    intro y member
    obtain ⟨i, within, rfl⟩ := List.mem_iff_getElem.mp member
    rw [List.getElem_drop, decide_eq_true_eq, not_lt]
    rcases Nat.eq_zero_or_pos i with rfl | positive
    · exact le_rfl
    · exact List.pairwise_iff_getElem.mp sorted k (k + i) inside (by rw [List.length_drop] at within; omega) (by omega)
  calc
    s.countP (· < s[k]) = (s.take k).countP (· < s[k]) + (s.drop k).countP (· < s[k]) := by
      rw [← List.countP_append, List.take_append_drop]
    _ ≤ k := by
      rw [rest, Nat.add_zero]
      exact List.countP_le_length.trans (List.length_take_le ..)

/-- An element with no more below it comes no later. -/
theorem le_of_countP_le (found : nth l k = some x) (few : l.countP (· < y) ≤ k) : y ≤ x := by
  have sorted := List.pairwise_insertionSort (· ≤ ·) l
  obtain ⟨inside, rfl⟩ := List.getElem?_eq_some_iff.mp found
  rw [← countP_sorted] at few
  generalize l.insertionSort (· ≤ ·) = s at sorted inside few ⊢
  by_contra less
  have all : (s.take (k + 1)).countP (· < y) = (s.take (k + 1)).length := by
    rw [List.countP_eq_length]
    intro z member
    obtain ⟨i, within, rfl⟩ := List.mem_iff_getElem.mp member
    rw [List.length_take] at within
    rw [List.getElem_take, decide_eq_true_eq]
    apply lt_of_le_of_lt _ (not_le.mp less)
    rcases Nat.lt_or_ge i k with before | after
    · exact List.pairwise_iff_getElem.mp sorted i k (by omega) inside before
    · obtain rfl : i = k := by omega
      exact le_rfl
  have part := List.Sublist.countP_le (p := (· < y)) (List.take_sublist (k + 1) s)
  rw [all, List.length_take] at part
  omega

/-- An element with few above it comes no earlier. -/
theorem ge_of_countP_lt (found : nth l k = some x) (few : k + l.countP (y < ·) < l.length) : x ≤ y := by
  have total := l.length_eq_countP_add_countP (y < ·)
  by_contra above
  have below : l.countP (fun z => ¬(decide (y < z) = true)) ≤ l.countP (· < x) := by
    apply List.countP_mono_left
    intro z _ low
    rw [decide_eq_true_eq, decide_eq_true_eq] at low
    exact decide_eq_true ((not_lt.mp low).trans_lt (not_le.mp above))
  have := countP_lt_le found
  omega

/-- A later position in a list with no more elements below the first one. -/
theorem nth_le_nth (found : nth l k = some x) (found' : nth l' k' = some y) (later : k ≤ k')
    (few : l'.countP (· < x) ≤ l.countP (· < x)) : x ≤ y :=
  le_of_countP_le found' (few.trans ((countP_lt_le found).trans later))

end OrderStatistic
