import Mathlib.Algebra.BigOperators.Finprod
import Mathlib.Algebra.Order.BigOperators.Group.Finset
import Mathlib.Algebra.Order.Ring.Int
import Mathlib.Data.Set.Finite.Lemmas

open Function

/-! # Holdings: finite partial maps with a total worth

Every key of a partial map holds at most one value, and every value has a weight. The total is the
sum of the weights of the values held. Erasing keys lowers it by what they hold, and a pointwise
bound by two maps bounds it by the sum of their totals.
-/

namespace Holdings

variable {K V : Type*}

/-- The weight of what a key holds. -/
def worth (weight : V → ℤ) (holdings : K → Option V) (k : K) : ℤ := (holdings k).elim 0 weight

/-- The weight of everything held. -/
noncomputable def total (weight : V → ℤ) (holdings : K → Option V) : ℤ := ∑ᶠ k, worth weight holdings k

/-- Only finitely many keys hold something, and nothing held has a negative weight. -/
structure Sound (weight : V → ℤ) (holdings : K → Option V) : Prop where
  finite : {k | holdings k ≠ none}.Finite
  nonneg : ∀ k v, holdings k = some v → 0 ≤ weight v

/-- Give up what the keys of a list hold. -/
def eraseAll [DecidableEq K] (holdings : K → Option V) (keys : List K) (k : K) : Option V :=
  if k ∈ keys then none else holdings k

variable {weight : V → ℤ} {holdings : K → Option V}

theorem worth_of_eq_some {k : K} {v : V} (held : holdings k = some v) :
    worth weight holdings k = weight v := by rw [worth, held, Option.elim_some]

theorem worth_of_eq_none {k : K} (free : holdings k = none) : worth weight holdings k = 0 := by
  rw [worth, free, Option.elim_none]

namespace Sound

theorem hasFiniteSupport (sound : Sound weight holdings) : (worth weight holdings).HasFiniteSupport := by
  refine sound.finite.subset fun k worthy => ?_
  rintro free
  exact worthy (worth_of_eq_none free)

theorem worth_nonneg (sound : Sound weight holdings) (k : K) : 0 ≤ worth weight holdings k := by
  cases held : holdings k with
  | none => rw [worth_of_eq_none held]
  | some v =>
    rw [worth_of_eq_some held]
    exact sound.nonneg k v held

theorem total_nonneg (sound : Sound weight holdings) : 0 ≤ total weight holdings :=
  finsum_nonneg sound.worth_nonneg

/-- A map that holds nothing else is sound as well. -/
theorem mono {fewer : K → Option V} (sound : Sound weight holdings)
    (sub : ∀ k v, fewer k = some v → holdings k = some v) : Sound weight fewer where
  finite := by
    refine sound.finite.subset fun k held => ?_
    obtain ⟨v, found⟩ := Option.ne_none_iff_exists'.mp held
    exact Option.ne_none_iff_exists'.mpr ⟨v, sub k v found⟩
  nonneg k v held := sound.nonneg k v (sub k v held)

/-- A map that holds what one of two sound maps holds. -/
theorem of_either {first second : K → Option V} (left : Sound weight first) (right : Sound weight second)
    (either : ∀ k v, holdings k = some v → first k = some v ∨ second k = some v) : Sound weight holdings where
  finite := by
    refine (left.finite.union right.finite).subset fun k held => ?_
    obtain ⟨v, found⟩ := Option.ne_none_iff_exists'.mp held
    rcases either k v found with there | there
    · exact .inl (Option.ne_none_iff_exists'.mpr ⟨v, there⟩)
    · exact .inr (Option.ne_none_iff_exists'.mpr ⟨v, there⟩)
  nonneg k v held := (either k v held).elim (left.nonneg k v) (right.nonneg k v)

/-- What one of two maps holds is worth at most the two together. -/
theorem total_le_add {first second : K → Option V} (left : Sound weight first)
    (right : Sound weight second)
    (either : ∀ k v, holdings k = some v → first k = some v ∨ second k = some v) :
    total weight holdings ≤ total weight first + total weight second := by
  have sound := of_either left right either
  rw [total, total, total, ← finsum_add_distrib left.hasFiniteSupport right.hasFiniteSupport]
  refine finsum_le_finsum' sound.hasFiniteSupport (left.hasFiniteSupport.add right.hasFiniteSupport) fun k => ?_
  have := left.worth_nonneg k
  have := right.worth_nonneg k
  cases held : holdings k with
  | none =>
    rw [worth_of_eq_none held]
    dsimp only
    omega
  | some v =>
    rw [worth_of_eq_some held]
    dsimp only
    rcases either k v held with there | there
    · have same : worth weight first k = weight v := worth_of_eq_some there
      omega
    · have same : worth weight second k = weight v := worth_of_eq_some there
      omega

section

variable (sound : Sound weight holdings)
include sound

theorem eraseAll [DecidableEq K] (keys : List K) : Sound weight (Holdings.eraseAll holdings keys) := by
  refine sound.mono fun k v held => ?_
  rw [Holdings.eraseAll] at held
  split_ifs at held
  exact held

private theorem total_erase [DecidableEq K] (k : K) :
    total weight holdings = worth weight holdings k + total weight (Holdings.eraseAll holdings [k]) := by
  have pointwise : worth weight holdings =
      fun j => (if j = k then worth weight holdings k else 0) + worth weight (Holdings.eraseAll holdings [k]) j := by
    funext j
    by_cases same : j = k
    · subst same
      simp [worth, Holdings.eraseAll]
    · simp [worth, Holdings.eraseAll, same]
  have single : (∑ᶠ j, if j = k then worth weight holdings k else 0) = worth weight holdings k :=
    (finsum_eq_single _ k fun j other => if_neg other).trans (if_pos rfl)
  have finite : (fun j => if j = k then worth weight holdings k else 0).HasFiniteSupport := by
    refine (Set.finite_singleton k).subset fun j worthy => ?_
    by_contra other
    exact worthy (if_neg other)
  conv_lhs => rw [total, pointwise]
  rw [finsum_add_distrib finite (sound.eraseAll [k]).hasFiniteSupport, single]
  rfl

/-- Giving up distinct keys costs exactly what they hold. -/
theorem total_eraseAll [DecidableEq K] {keys : List K} (distinct : keys.Nodup) : total weight holdings =
      (keys.map (worth weight holdings)).sum + total weight (Holdings.eraseAll holdings keys) := by
  induction keys generalizing holdings with
  | nil =>
    rw [List.map_nil, List.sum_nil, zero_add]
    congr
  | cons k rest ih =>
    obtain ⟨notIn, others⟩ := List.nodup_cons.mp distinct
    have twice : Holdings.eraseAll (Holdings.eraseAll holdings [k]) rest = Holdings.eraseAll holdings (k :: rest) := by
      funext j
      by_cases same : j = k <;> by_cases member : j ∈ rest <;> simp [Holdings.eraseAll, same, member]
    have same : rest.map (worth weight (Holdings.eraseAll holdings [k])) = rest.map (worth weight holdings) := by
      refine List.map_congr_left fun j member => ?_
      have other : j ≠ k := fun same => notIn (same ▸ member)
      simp [worth, Holdings.eraseAll, other]
    rw [sound.total_erase k, ih (sound.eraseAll [k]) others, twice, same, List.map_cons, List.sum_cons, add_assoc]

/-- Distinct keys hold at most everything. -/
theorem sum_le_total [DecidableEq K] {keys : List K} (distinct : keys.Nodup) :
    (keys.map (worth weight holdings)).sum ≤ total weight holdings := by
  have := (sound.eraseAll keys).total_nonneg
  rw [sound.total_eraseAll distinct]
  omega

/-- A map that holds nothing outside a list of distinct keys. -/
theorem total_eq_sum [DecidableEq K] {keys : List K} (distinct : keys.Nodup)
    (outside : ∀ k, k ∉ keys → holdings k = none) :
    total weight holdings = (keys.map (worth weight holdings)).sum := by
  have nothing : total weight (Holdings.eraseAll holdings keys) = 0 := by
    refine (finsum_congr fun k => ?_).trans finsum_zero
    apply worth_of_eq_none
    rw [Holdings.eraseAll]
    split_ifs with member
    · rfl
    · exact outside k member
  rw [sound.total_eraseAll distinct, nothing, add_zero]

end

end Sound

end Holdings

/-! ## Custody: every token is at one place

A custody says which token lies at a place, if any. It is sole when no token lies at two places. New
tokens may be put down, and tokens may be moved or given up.
-/

/-- The token at every place. -/
abbrev Custody (P T : Type*) := P → Option T

namespace Custody

variable {P T : Type*} {custody : Custody P T}

/-- No token is at two places. -/
def Sole (custody : Custody P T) : Prop := ∀ p q t, custody p = some t → custody q = some t → p = q

/-- Tokens may be given up. -/
theorem Sole.mono {other : Custody P T} (sole : Sole custody) (kept : ∀ p t, other p = some t → custody p = some t) :
    Sole other :=
  fun p q t left right => sole p q t (kept p t left) (kept q t right)

variable [DecidableEq P]

/-- A token that is nowhere may be put anywhere. -/
theorem Sole.put (sole : Sole custody) {t : T} (fresh : ∀ p, custody p ≠ some t) (place : P) :
    Sole (Function.update custody place (some t)) := by
  intro p q u left right
  rcases eq_or_ne p place with rfl | apart <;> rcases eq_or_ne q p with rfl | other
  · rfl
  · rw [update_self, Option.some.injEq] at left
    rw [update_of_ne other, ← left] at right
    exact absurd right (fresh q)
  · rfl
  · rw [update_of_ne apart] at left
    rcases eq_or_ne q place with rfl | further
    · rw [update_self, Option.some.injEq] at right
      exact absurd (right ▸ left) (fresh p)
    · rw [update_of_ne further] at right
      exact sole p q u left right

/-- A token may be moved to another place. -/
theorem Sole.move (sole : Sole custody) (origin place : P) :
    Sole (Function.update (Function.update custody origin none) place (custody origin)) := by
  cases token : custody origin with
  | none =>
    refine sole.mono fun p t found => ?_
    rcases eq_or_ne p place with rfl | apart
    · rw [update_self] at found
      cases found
    · rw [update_of_ne apart] at found
      rcases eq_or_ne p origin with rfl | other
      · rw [update_self] at found
        cases found
      · rwa [update_of_ne other] at found
  | some t =>
    refine Sole.put (sole.mono fun p u found => ?_) (fun p found => ?_) place
    · rcases eq_or_ne p origin with rfl | other
      · rw [update_self] at found
        cases found
      · rwa [update_of_ne other] at found
    · rcases eq_or_ne p origin with rfl | other
      · rw [update_self] at found
        cases found
      · rw [update_of_ne other] at found
        exact other (sole p origin t found token)

/-- A move brings no tokens. -/
theorem exists_of_move {origin place p : P} {t : T}
    (found : Function.update (Function.update custody origin none) place (custody origin) p = some t) :
    ∃ q, custody q = some t := by
  rcases eq_or_ne p place with rfl | apart
  · rw [update_self] at found
    exact ⟨origin, found⟩
  · rw [update_of_ne apart] at found
    rcases eq_or_ne p origin with rfl | other
    · rw [update_self] at found
      cases found
    · exact ⟨p, by rwa [update_of_ne other] at found⟩

end Custody
