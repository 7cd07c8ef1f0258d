import BitCrystal.Model.CoinSelection
import Mathlib.Algebra.Order.BigOperators.Group.List

/-! # The search for a subset

The running total is the value of the outputs that are included, and the best total is the value of the outputs that are
remembered with it. Sifting splits the outputs with enough confirmations at the target and one cent.
-/

namespace BitCrystal

open Mask

/-- The total of a round belongs to its flags. -/
structure Trial.Sound (values : List ℤ) (trial : Trial) : Prop where
  length : trial.vfIncluded.length = values.length
  total : trial.nTotal = (pick trial.vfIncluded values).sum

/-- The best total belongs to the flags remembered with it, and reaches the target. -/
structure BestSubset.Sound (values : List ℤ) (nTargetValue : ℤ) (best : BestSubset) : Prop where
  total : best.nBest = (pick best.vfBest values).sum
  reaches : nTargetValue ≤ best.nBest

variable {nTargetValue : ℤ} {values : List ℤ} {trial : Trial} {best : BestSubset} {i : ℕ} {n : ℤ}

/-- An output that is picked was not included before. -/
theorem tryCoin_sound {picked : Bool} (found : values[i]? = some n) (sound : trial.Sound values)
    (bestSound : best.Sound values nTargetValue) (free : picked = true → trial.vfIncluded[i]? = some false) :
    (tryCoin nTargetValue picked i n trial best).1.Sound values ∧
      (tryCoin nTargetValue picked i n trial best).2.Sound values nTargetValue ∧
      ∀ j, j ≠ i → (tryCoin nTargetValue picked i n trial best).1.vfIncluded[j]? = trial.vfIncluded[j]? := by
  unfold tryCoin
  split
  next picked =>
    have free := free picked
    have added := sum_pick_set free found
    dsimp only
    split
    next reached =>
      have back : (trial.vfIncluded.set i true).set i false = trial.vfIncluded := by
        obtain ⟨inside, excluded⟩ := List.getElem?_eq_some_iff.mp free
        rw [List.set_set, ← excluded, List.set_getElem_self inside]
      refine ⟨⟨?_, ?_⟩, ?_, fun j other => ?_⟩
      · rw [back, sound.length]
      · rw [back, add_sub_cancel_right, sound.total]
      · split
        · exact ⟨by rw [added, sound.total], reached⟩
        · exact bestSound
      · rw [back]
    next =>
      refine ⟨⟨?_, ?_⟩, bestSound, fun j other => List.getElem?_set_ne (Ne.symm other)⟩
      · rw [List.length_set, sound.length]
      · rw [added, sound.total]
  next => exact ⟨sound, bestSound, fun _ _ => rfl⟩

/-- A pass that picks only outputs that are not included keeps the totals in step. -/
theorem tryPass_sound {pick : ℕ → Bool → Bool} {rest : List ℤ} (left : rest = values.drop i)
    (sound : trial.Sound values) (bestSound : best.Sound values nTargetValue)
    (free : ∀ j flag, i ≤ j → trial.vfIncluded[j]? = some flag → pick j flag = true → flag = false) :
    (tryPass nTargetValue pick i rest trial best).1.Sound values ∧
      (tryPass nTargetValue pick i rest trial best).2.Sound values nTargetValue := by
  induction rest generalizing i trial best with
  | nil => exact ⟨sound, bestSound⟩
  | cons n rest ih =>
    have inside : i < values.length := by
      by_contra outside
      rw [List.drop_eq_nil_of_le (not_lt.mp outside)] at left
      cases left
    rw [List.drop_eq_getElem_cons inside] at left
    obtain ⟨rfl, rest⟩ := List.cons.inj left
    have flagged : trial.vfIncluded[i]? = some (trial.vfIncluded.getD i false) := by
      have inside : i < trial.vfIncluded.length := sound.length ▸ inside
      rw [List.getD_eq_getElem?_getD, List.getElem?_eq_getElem inside, Option.getD_some]
    have step := tryCoin_sound (List.getElem?_eq_getElem inside) sound bestSound
      fun picked => by rw [flagged, free i _ le_rfl flagged picked]
    rw [tryPass]
    generalize tryCoin nTargetValue (pick i (trial.vfIncluded.getD i false)) i values[i] trial best = result at step ⊢
    obtain ⟨trial', best'⟩ := result
    obtain ⟨sound, bestSound, same⟩ := step
    refine ih rest sound bestSound fun j flag later found => ?_
    rw [same j (by omega)] at found
    exact free j flag (by omega) found

theorem trySubset_sound {flip : ℕ → Bool} (bestSound : best.Sound values nTargetValue) :
    (trySubset nTargetValue values flip best).Sound values nTargetValue := by
  have start : Trial.Sound values ⟨List.replicate values.length false, 0, false⟩ :=
    ⟨List.length_replicate, by rw [pick_replicate_false]; rfl⟩
  have first := @tryPass_sound nTargetValue values _ best 0 (fun i _ => flip i) values rfl start bestSound
    fun j flag _ found _ => (List.mem_replicate.mp (List.mem_of_getElem? found)).2
  unfold trySubset
  generalize tryPass nTargetValue (fun i _ => flip i) 0 values ⟨List.replicate values.length false, 0, false⟩ best =
    result at first ⊢
  obtain ⟨trial, best⟩ := result
  dsimp only
  split
  · exact first.2
  · exact (@tryPass_sound nTargetValue values trial best 0 (fun _ fIncluded => !fIncluded) values rfl first.1 first.2
      fun j flag _ _ excluded => by simpa using excluded).2

theorem trySubsets_sound {flip : ℕ → ℕ → Bool} {iterations nRep : ℕ} (bestSound : best.Sound values nTargetValue) :
    (trySubsets nTargetValue values flip iterations nRep best).Sound values nTargetValue := by
  induction iterations generalizing nRep best with
  | zero => exact bestSound
  | succ iterations ih =>
    rw [trySubsets]
    split
    · exact bestSound
    · exact ih (trySubset_sound bestSound)

theorem approximateBestSubset_sound {flip : ℕ → ℕ → Bool} {iterations : ℕ} (enough : nTargetValue ≤ values.sum) :
    (approximateBestSubset nTargetValue values values.sum flip iterations).Sound values nTargetValue :=
  trySubsets_sound ⟨by rw [pick_replicate_true], enough⟩

/-- Whatever the searches find reaches the target. -/
theorem bestSubset_sound {chance : Chance} (enough : nTargetValue ≤ values.sum) :
    (bestSubset nTargetValue chance values values.sum).Sound values nTargetValue := by
  unfold bestSubset
  dsimp only
  split
  next more =>
    obtain ⟨total, reaches⟩ := @approximateBestSubset_sound (nTargetValue + CENT) values (chance.flip true) 1000 more.2
    have cent : CENT = 1000 := rfl
    exact ⟨total, by omega⟩
  next => exact approximateBestSubset_sound enough

/-! ## Sifting -/

section

variable {isFromMe : CWalletTx → Bool} {nConfMine nConfTheirs : ℤ}

/-- The outputs with enough confirmations. -/
def eligibleOutputs (isFromMe : CWalletTx → Bool) (nConfMine nConfTheirs : ℤ) (vCoins : List COutput) : List COutput :=
  vCoins.filter (confirmedEnough isFromMe nConfMine nConfTheirs)

/-- The value of all outputs of a list. -/
def totalValue (outputs : List COutput) : ℤ := (outputs.map fun output => output.nValue).sum

def lowerOutputs (nTargetValue : ℤ) (outputs : List COutput) : List COutput :=
  outputs.filter fun output => output.nValue < nTargetValue + CENT

def COutput.coin (output : COutput) : Coin := (output.nValue, output.toCoinRef)

/-- The smallest of the outputs above the limit, if one is smaller than the largest number. -/
structure Lowest (larger : List COutput) (lowest : ℤ × Option CoinRef) : Prop where
  least : ∀ output ∈ larger, lowest.1 ≤ output.nValue
  none : lowest.2 = none → lowest.1 = 2 ^ 63 - 1
  some : ∀ coin, lowest.2 = some coin → lowest.1 = coin.nValue ∧ ∃ output ∈ larger, output.toCoinRef = coin

/-- Eligible outputs that were sifted. -/
structure SiftedCoins.Of (nTargetValue : ℤ) (outputs : List COutput) (sifted : SiftedCoins) : Prop where
  values : sifted.vValue = (lowerOutputs nTargetValue outputs).map COutput.coin
  total : sifted.nTotalLower = totalValue (lowerOutputs nTargetValue outputs)
  lowest : Lowest (outputs.filter fun output => ¬ output.nValue < nTargetValue + CENT) sifted.coinLowestLarger
  inexact : ∀ output ∈ outputs, output.nValue ≠ nTargetValue

theorem SiftedCoins.of_nil : SiftedCoins.Of nTargetValue [] {} where
  values := rfl
  total := rfl
  lowest := {
    least := fun _ member => absurd member List.not_mem_nil
    none := fun _ => Eq.refl (2 ^ 63 - 1)
    some := fun coin (found : Option.none = Option.some coin) => nomatch found }
  inexact := fun _ member => absurd member List.not_mem_nil

variable {seen : List COutput} {sifted : SiftedCoins} {output : COutput}

theorem SiftedCoins.Of.lower (of : sifted.Of nTargetValue seen) (inexact : output.nValue ≠ nTargetValue)
    (low : output.nValue < nTargetValue + CENT) :
    SiftedCoins.Of nTargetValue (seen ++ [output])
      ⟨sifted.vValue ++ [output.coin], sifted.nTotalLower + output.nValue, sifted.coinLowestLarger⟩ := by
  have lower : lowerOutputs nTargetValue (seen ++ [output]) = lowerOutputs nTargetValue seen ++ [output] := by
    simp [lowerOutputs, low]
  constructor
  · rw [lower, List.map_append, of.values]
    rfl
  · rw [lower, of.total]
    simp [totalValue]
  · simpa [low] using of.lowest
  · simpa [or_imp, forall_and] using ⟨of.inexact, inexact⟩

theorem SiftedCoins.Of.larger (of : sifted.Of nTargetValue seen) (inexact : output.nValue ≠ nTargetValue)
    (high : ¬ output.nValue < nTargetValue + CENT) {lowest : ℤ × Option CoinRef}
    (chosen : lowest = if output.nValue < sifted.coinLowestLarger.1 then (output.nValue, some output.toCoinRef)
      else sifted.coinLowestLarger) :
    SiftedCoins.Of nTargetValue (seen ++ [output]) ⟨sifted.vValue, sifted.nTotalLower, lowest⟩ := by
  have lower : lowerOutputs nTargetValue (seen ++ [output]) = lowerOutputs nTargetValue seen := by
    simp [lowerOutputs, not_lt.mp high]
  have split : (seen ++ [output]).filter (fun output => ¬ output.nValue < nTargetValue + CENT) =
      seen.filter (fun output => ¬ output.nValue < nTargetValue + CENT) ++ [output] := by
    simp [not_lt.mp high]
  refine ⟨by rw [lower, of.values], by rw [lower, of.total], ?_, ?_⟩
  · rw [split]
    obtain ⟨least, unset, minimal⟩ := of.lowest
    split at chosen
    next smaller =>
      subst chosen
      refine ⟨fun other member => ?_, nofun, ?_⟩
      · rcases List.mem_append.mp member with before | last
        · exact smaller.le.trans (least other before)
        · rw [List.mem_singleton.mp last]
      · rintro _ ⟨⟩
        exact ⟨rfl, output, List.mem_append_right _ (List.mem_singleton.mpr rfl), rfl⟩
    next notSmaller =>
      subst chosen
      refine ⟨fun other member => ?_, unset, fun coin found => ?_⟩
      · rcases List.mem_append.mp member with before | last
        · exact least other before
        · rw [List.mem_singleton.mp last]
          exact not_lt.mp notSmaller
      · obtain ⟨value, other, member, same⟩ := minimal coin found
        exact ⟨value, other, List.mem_append_left _ member, same⟩
  · simpa [or_imp, forall_and] using ⟨of.inexact, inexact⟩

/-- What sifting returns: an output of the target's value, or the sifted outputs. -/
theorem siftCoins_eq_ok {rest : List COutput} {result : Coin ⊕ SiftedCoins} (of : sifted.Of nTargetValue seen)
    (done : siftCoins isFromMe nTargetValue nConfMine nConfTheirs rest sifted = .ok result) :
    (∃ output ∈ eligibleOutputs isFromMe nConfMine nConfTheirs rest, output.nValue = nTargetValue ∧
      result = .inl output.coin) ∨
    ∃ sifted', result = .inr sifted' ∧
      sifted'.Of nTargetValue (seen ++ eligibleOutputs isFromMe nConfMine nConfTheirs rest) := by
  induction rest generalizing seen sifted with
  | nil =>
    cases done
    exact Or.inr ⟨sifted, rfl, by simpa [eligibleOutputs] using of⟩
  | cons output rest ih =>
    rw [siftCoins] at done
    split at done
    next short =>
      have skip : eligibleOutputs isFromMe nConfMine nConfTheirs (output :: rest) =
          eligibleOutputs isFromMe nConfMine nConfTheirs rest := List.filter_cons_of_neg short
      rw [skip]
      exact ih of done
    next enough =>
      have keep : eligibleOutputs isFromMe nConfMine nConfTheirs (output :: rest) =
          output :: eligibleOutputs isFromMe nConfMine nConfTheirs rest :=
        List.filter_cons_of_pos (not_not.mp enough)
      rw [keep]
      dsimp only at done
      split at done
      next equal =>
        cases done
        exact Or.inl ⟨output, List.mem_cons_self, equal, rfl⟩
      next inexact =>
        have later {sifted' : SiftedCoins} (of : sifted'.Of nTargetValue (seen ++ [output]))
            (done : siftCoins isFromMe nTargetValue nConfMine nConfTheirs rest sifted' = .ok result) :
            (∃ output' ∈ output :: eligibleOutputs isFromMe nConfMine nConfTheirs rest,
              output'.nValue = nTargetValue ∧ result = .inl output'.coin) ∨
            ∃ sifted', result = .inr sifted' ∧ sifted'.Of nTargetValue
              (seen ++ output :: eligibleOutputs isFromMe nConfMine nConfTheirs rest) := by
          rcases ih of done with ⟨output', member, found⟩ | found
          · exact Or.inl ⟨output', List.mem_cons_of_mem _ member, found⟩
          · rw [List.append_assoc, List.singleton_append] at found
            exact Or.inr found
        obtain ⟨limit, inRange, done⟩ := Check.bind_eq_ok.mp done
        obtain ⟨-, rfl⟩ := int64_eq_ok.mp inRange
        split at done
        next low =>
          obtain ⟨nTotalLower, inRange, done⟩ := Check.bind_eq_ok.mp done
          obtain ⟨-, rfl⟩ := int64_eq_ok.mp inRange
          exact later (of.lower inexact low) done
        next high =>
          split at done
          next smaller => exact later (of.larger inexact high (if_pos smaller).symm) done
          next notSmaller => exact later (of.larger inexact high (if_neg notSmaller).symm) done

/-- Sifting stays in range when the limit and the total are. -/
theorem siftCoins_isOk {rest : List COutput} (nonneg : 0 ≤ sifted.nTotalLower) (positive : ∀ output ∈ rest, 0 < output.nValue)
    (fits : sifted.nTotalLower + totalValue rest < 2 ^ 63) (target : 0 ≤ nTargetValue)
    (limit : ∀ output ∈ eligibleOutputs isFromMe nConfMine nConfTheirs rest,
      output.nValue = nTargetValue ∨ nTargetValue + CENT < 2 ^ 63) :
    ∃ result, siftCoins isFromMe nTargetValue nConfMine nConfTheirs rest sifted = .ok result := by
  induction rest generalizing sifted with
  | nil => exact ⟨_, rfl⟩
  | cons output rest ih =>
    have head := positive output List.mem_cons_self
    have others : ∀ other ∈ rest, 0 < other.nValue := fun other member => positive other (List.mem_cons_of_mem _ member)
    have sum : totalValue (output :: rest) = output.nValue + totalValue rest := by simp [totalValue]
    have tail : 0 ≤ totalValue rest := List.sum_nonneg (by simpa using fun other member => (others other member).le)
    rw [sum] at fits
    have cent : CENT = 1000 := rfl
    rw [siftCoins]
    split
    next short =>
      exact ih nonneg others (by omega) fun other member => limit other
        (List.mem_filter.mpr ⟨List.mem_cons_of_mem _ (List.mem_filter.mp member).1, (List.mem_filter.mp member).2⟩)
    next enough =>
      have later : ∀ other ∈ eligibleOutputs isFromMe nConfMine nConfTheirs rest,
          other.nValue = nTargetValue ∨ nTargetValue + CENT < 2 ^ 63 := fun other member => limit other
        (List.mem_filter.mpr ⟨List.mem_cons_of_mem _ (List.mem_filter.mp member).1, (List.mem_filter.mp member).2⟩)
      dsimp only
      split
      next equal => exact ⟨_, rfl⟩
      next inexact =>
        have below := (limit output (List.mem_filter.mpr ⟨List.mem_cons_self, not_not.mp enough⟩)).resolve_left inexact
        rw [int64_eq_ok.mpr ⟨⟨by omega, below⟩, rfl⟩, Check.ok_bind]
        split
        next low =>
          rw [int64_eq_ok.mpr ⟨⟨by omega, by omega⟩, rfl⟩, Check.ok_bind]
          exact ih (by dsimp only; omega) others (by dsimp only; omega) later
        next high =>
          split
          · exact ih nonneg others (by dsimp only; omega) later
          · exact ih nonneg others (by omega) later

end

/-- Coins of different outputs. -/
structure Drawn (outputs : List COutput) (coins : List Coin) : Prop where
  distinct : (coins.map Prod.snd).Nodup
  drawn : ∀ coin ∈ coins, ∃ output ∈ outputs, output.coin = coin

namespace Drawn

variable {outputs : List COutput} {coins : List Coin}

theorem single {output : COutput} (member : output ∈ outputs) : Drawn outputs [output.coin] where
  distinct := List.nodup_singleton _
  drawn := fun _ inside => ⟨output, member, (List.mem_singleton.mp inside).symm⟩

theorem all (distinct : (outputs.map COutput.toCoinRef).Nodup) : Drawn outputs (outputs.map COutput.coin) where
  distinct := by rwa [List.map_map]
  drawn := fun _ member => List.mem_map.mp member

theorem of_sublist {fewer : List Coin} (drawn : Drawn outputs coins) (sublist : fewer.Sublist coins) :
    Drawn outputs fewer where
  distinct := drawn.distinct.sublist (sublist.map _)
  drawn := fun coin member => drawn.drawn coin (sublist.subset member)

theorem perm {other : List Coin} (drawn : Drawn outputs coins) (perm : other.Perm coins) : Drawn outputs other where
  distinct := (perm.map _).nodup_iff.mpr drawn.distinct
  drawn := fun coin member => drawn.drawn coin (perm.mem_iff.mp member)

/-- The value that is returned is that of the set. -/
theorem putCoins (drawn : Drawn outputs coins) :
    (∀ coin ∈ (putCoins coins).1, ∃ output ∈ outputs, output.toCoinRef = coin) ∧
      (putCoins coins).2 = ∑ coin ∈ (putCoins coins).1, coin.nValue := by
  constructor
  · intro coin member
    obtain ⟨⟨n, ref⟩, inside, rfl⟩ := List.mem_map.mp (List.mem_toFinset.mp member)
    obtain ⟨output, source, same⟩ := drawn.drawn _ inside
    exact ⟨output, source, congrArg Prod.snd same⟩
  · rw [BitCrystal.putCoins, List.sum_toFinset _ drawn.distinct, List.map_map]
    refine congrArg List.sum (List.map_congr_left fun coin member => ?_)
    obtain ⟨output, -, rfl⟩ := drawn.drawn coin member
    rfl

end Drawn

end BitCrystal
