import BitCrystal.Proofs.CoinSelection

/-! # Coin selection

Coins are found whenever there are enough, except at the ends of the range: an output of the largest number is taken for
no output, and a target within a cent of it overflows.
-/

namespace BitCrystal

open COutput

section

variable (isFromMe : CWalletTx → Bool) (nTargetValue nConfMine nConfTheirs : ℤ) (chance : Chance)
  (vCoins : List COutput)

/-- The eligible outputs below the target and one cent, as they come out of the shuffle. -/
def lowerCoins : List COutput :=
  lowerOutputs nTargetValue (eligibleOutputs isFromMe nConfMine nConfTheirs (chance.shuffle vCoins))

/-- The total of the best subset found. -/
def bestFound : ℤ :=
  let lower := lowerCoins isFromMe nTargetValue nConfMine nConfTheirs chance vCoins
  (bestSubset nTargetValue chance ((chance.sort (lower.map COutput.coin)).map Prod.fst) (totalValue lower)).nBest

/-- What a selection has to be. -/
structure CorrectSelection (selected : Option (Finset CoinRef × ℤ)) : Prop where
  possible : selected.isSome ↔ nTargetValue ≤ totalValue (eligibleOutputs isFromMe nConfMine nConfTheirs vCoins)
  enough : ∀ setCoinsRet nValueRet, selected = some (setCoinsRet, nValueRet) →
    (∀ coin ∈ setCoinsRet, ∃ output ∈ eligibleOutputs isFromMe nConfMine nConfTheirs vCoins,
      output.toCoinRef = coin) ∧
    nValueRet = ∑ coin ∈ setCoinsRet, coin.nValue ∧ nTargetValue ≤ nValueRet
  exact : ∀ setCoinsRet nValueRet, selected = some (setCoinsRet, nValueRet) →
    (∃ output ∈ eligibleOutputs isFromMe nConfMine nConfTheirs vCoins, output.nValue = nTargetValue) ∨
      totalValue (lowerOutputs nTargetValue (eligibleOutputs isFromMe nConfMine nConfTheirs vCoins)) = nTargetValue →
    nValueRet = nTargetValue
  larger : ∀ setCoinsRet nValueRet, selected = some (setCoinsRet, nValueRet) →
    ∀ coin ∈ setCoinsRet, nTargetValue + CENT ≤ coin.nValue → setCoinsRet = {coin} ∧
      (∀ output ∈ eligibleOutputs isFromMe nConfMine nConfTheirs vCoins, nTargetValue + CENT ≤ output.nValue →
        coin.nValue ≤ output.nValue) ∧
      (totalValue (lowerOutputs nTargetValue (eligibleOutputs isFromMe nConfMine nConfTheirs vCoins)) < nTargetValue ∨
        bestFound isFromMe nTargetValue nConfMine nConfTheirs chance vCoins ≠ nTargetValue ∧
          bestFound isFromMe nTargetValue nConfMine nConfTheirs chance vCoins < nTargetValue + CENT ∨
        coin.nValue ≤ bestFound isFromMe nTargetValue nConfMine nConfTheirs chance vCoins)
  found : nTargetValue ≤
      totalValue (lowerOutputs nTargetValue (eligibleOutputs isFromMe nConfMine nConfTheirs vCoins)) →
    ∃ subset ⊆ ((lowerOutputs nTargetValue (eligibleOutputs isFromMe nConfMine nConfTheirs vCoins)).map
        toCoinRef).toFinset,
      bestFound isFromMe nTargetValue nConfMine nConfTheirs chance vCoins = ∑ coin ∈ subset, coin.nValue ∧
      nTargetValue ≤ bestFound isFromMe nTargetValue nConfMine nConfTheirs chance vCoins

end

variable {isFromMe : CWalletTx → Bool} {nTargetValue nConfMine nConfTheirs : ℤ} {chance : Chance}
  {vCoins : List COutput} {outputs : List COutput} {output : COutput}

theorem totalValue_perm {others : List COutput} (perm : outputs.Perm others) :
    totalValue outputs = totalValue others := (perm.map _).sum_eq

theorem eligibleOutputs_shuffle : (eligibleOutputs isFromMe nConfMine nConfTheirs (chance.shuffle vCoins)).Perm
    (eligibleOutputs isFromMe nConfMine nConfTheirs vCoins) := (chance.shuffle_perm vCoins).filter _

theorem lowerCoins_perm : (lowerCoins isFromMe nTargetValue nConfMine nConfTheirs chance vCoins).Perm
    (lowerOutputs nTargetValue (eligibleOutputs isFromMe nConfMine nConfTheirs vCoins)) :=
  eligibleOutputs_shuffle.filter _

/-- The coins of an answer: one of the target's value, all the lower ones, a larger one, or a subset that was found. -/
inductive Answer (nTargetValue : ℤ) (eligible lower : List COutput) (best : ℤ) : List Coin → Prop
  | exact (output : COutput) (member : output ∈ eligible) (value : output.nValue = nTargetValue) :
      Answer nTargetValue eligible lower best [output.coin]
  | all (total : totalValue lower = nTargetValue) : Answer nTargetValue eligible lower best (lower.map COutput.coin)
  | larger (output : COutput) (member : output ∈ eligible) (high : nTargetValue + CENT ≤ output.nValue)
      (least : ∀ other ∈ eligible, nTargetValue + CENT ≤ other.nValue → output.nValue ≤ other.nValue)
      (inexact : ∀ other ∈ eligible, other.nValue ≠ nTargetValue)
      (reason : totalValue lower < nTargetValue ∨ nTargetValue < totalValue lower ∧
        (best ≠ nTargetValue ∧ best < nTargetValue + CENT ∨ output.nValue ≤ best)) :
      Answer nTargetValue eligible lower best [output.coin]
  | subset (coins : List Coin) (drawn : Drawn lower coins) (found : (coins.map Prod.fst).sum = best)
      (reaches : nTargetValue ≤ best) (inexact : ∀ other ∈ eligible, other.nValue ≠ nTargetValue)
      (more : nTargetValue < totalValue lower) : Answer nTargetValue eligible lower best coins

theorem lowerCoins_distinct (distinct : (vCoins.map toCoinRef).Nodup) :
    ((lowerCoins isFromMe nTargetValue nConfMine nConfTheirs chance vCoins).map toCoinRef).Nodup := by
  have sublist : ((lowerOutputs nTargetValue (eligibleOutputs isFromMe nConfMine nConfTheirs vCoins)).map
      toCoinRef).Sublist (vCoins.map toCoinRef) :=
    (List.filter_sublist.trans List.filter_sublist).map _
  exact (lowerCoins_perm.map _).nodup_iff.mpr (distinct.sublist sublist)

/-- The subset that was found consists of lower outputs, and reaches the target. -/
theorem bestFound_spec (distinct : (vCoins.map toCoinRef).Nodup)
    (enough : nTargetValue ≤ totalValue (lowerCoins isFromMe nTargetValue nConfMine nConfTheirs chance vCoins)) :
    let lower := lowerCoins isFromMe nTargetValue nConfMine nConfTheirs chance vCoins
    let vValue := chance.sort (lower.map COutput.coin)
    let best := bestSubset nTargetValue chance (vValue.map Prod.fst) (totalValue lower)
    Drawn lower (Mask.pick best.vfBest vValue) ∧
      ((Mask.pick best.vfBest vValue).map Prod.fst).sum =
        bestFound isFromMe nTargetValue nConfMine nConfTheirs chance vCoins ∧
      nTargetValue ≤ bestFound isFromMe nTargetValue nConfMine nConfTheirs chance vCoins := by
  intro lower vValue best
  have sorted : vValue.Perm (lower.map COutput.coin) := chance.sort_perm _
  have total : totalValue lower = (vValue.map Prod.fst).sum := by
    rw [(sorted.map _).sum_eq, List.map_map]
    rfl
  have sound : best.Sound (vValue.map Prod.fst) nTargetValue := by
    have enough : nTargetValue ≤ (vValue.map Prod.fst).sum := total ▸ enough
    change (bestSubset nTargetValue chance (vValue.map Prod.fst) (totalValue lower)).Sound _ _
    rw [total]
    exact bestSubset_sound enough
  refine ⟨?_, ?_, sound.reaches⟩
  · exact ((Drawn.all (lowerCoins_distinct distinct)).perm sorted).of_sublist (Mask.pick_sublist _ _)
  · rw [Mask.map_pick]
    exact sound.total.symm

/-- What a selection returns. -/
theorem selectCoinsMinConf_eq_ok {selected : Option (Finset CoinRef × ℤ)} (distinct : (vCoins.map toCoinRef).Nodup)
    (done : selectCoinsMinConf isFromMe nTargetValue nConfMine nConfTheirs chance vCoins = .ok selected) :
    let eligible := eligibleOutputs isFromMe nConfMine nConfTheirs vCoins
    let lower := lowerCoins isFromMe nTargetValue nConfMine nConfTheirs chance vCoins
    let best := bestFound isFromMe nTargetValue nConfMine nConfTheirs chance vCoins
    (∃ coins, Answer nTargetValue eligible lower best coins ∧ selected = some (putCoins coins)) ∨
      selected = none ∧ (∀ output ∈ eligible, nTargetValue + CENT ≤ output.nValue → 2 ^ 63 - 1 ≤ output.nValue) ∧
        totalValue lower < nTargetValue := by
  intro eligible lower best
  obtain ⟨result, sifted, done⟩ := Check.bind_eq_ok.mp done
  rcases siftCoins_eq_ok SiftedCoins.of_nil sifted with ⟨output, member, value, rfl⟩ | ⟨coins, rfl, of⟩
  · cases done
    exact Or.inl ⟨_, .exact output (eligibleOutputs_shuffle.mem_iff.mp member) value, rfl⟩
  rw [List.nil_append] at of
  obtain rfl := Check.pure_eq_ok.mp done
  obtain ⟨vValue, nTotalLower, nLowest, coinLowest⟩ := coins
  obtain ⟨values, total, lowest, inexact⟩ := of
  change vValue = lower.map COutput.coin at values
  change nTotalLower = totalValue lower at total
  have inexact : ∀ other ∈ eligible, other.nValue ≠ nTargetValue :=
    fun other member => inexact other (eligibleOutputs_shuffle.mem_iff.mpr member)
  have least : ∀ other ∈ eligible, nTargetValue + CENT ≤ other.nValue → nLowest ≤ other.nValue :=
    fun other member high => lowest.least other
      (List.mem_filter.mpr ⟨eligibleOutputs_shuffle.mem_iff.mpr member, by simpa using high⟩)
  have larger {coin : CoinRef} (chosen : coinLowest = some coin) (reason : nTotalLower < nTargetValue ∨
      nTargetValue < nTotalLower ∧ (best ≠ nTargetValue ∧ best < nTargetValue + CENT ∨ nLowest ≤ best)) :
      ∃ coins, Answer nTargetValue eligible lower best coins ∧ some (putCoins [(nLowest, coin)]) = some (putCoins coins) := by
    obtain ⟨value, output, member, rfl⟩ := lowest.some coin chosen
    obtain ⟨member, high⟩ := List.mem_filter.mp member
    have value : nLowest = output.nValue := value
    subst value total
    exact ⟨_, .larger output (eligibleOutputs_shuffle.mem_iff.mp member) (by simpa using high) least inexact reason, rfl⟩
  unfold selectSifted
  dsimp only
  split
  next exactly =>
    rw [values]
    exact Or.inl ⟨_, .all (total ▸ exactly), rfl⟩
  split
  next notExactly few =>
    cases coinLowest with
    | none =>
      have sentinel : nLowest = 2 ^ 63 - 1 := lowest.none rfl
      exact Or.inr ⟨rfl, fun other member high => sentinel ▸ least other member high, total ▸ few⟩
    | some coin => exact Or.inl (larger rfl (Or.inl few))
  next notExactly many =>
    have more : nTargetValue < nTotalLower := lt_of_le_of_ne (not_lt.mp many) (Ne.symm notExactly)
    have spec := bestFound_spec distinct (total ▸ more.le)
    dsimp only at spec
    rw [← values, ← total] at spec
    have same : (bestSubset nTargetValue chance ((chance.sort vValue).map Prod.fst) nTotalLower).nBest = best := by
      rw [values, total]
      rfl
    have subset := Answer.subset _ spec.1 spec.2.1 spec.2.2 inexact (total ▸ more)
    cases coinLowest with
    | none => exact Or.inl ⟨_, subset, rfl⟩
    | some coin =>
      dsimp only
      split
      next better => exact Or.inl (larger rfl (Or.inr ⟨more, same ▸ better⟩))
      next => exact Or.inl ⟨_, subset, rfl⟩

/-! ## Totals -/

theorem totalValue_sublist {fewer : List COutput} (positive : ∀ output ∈ outputs, 0 < output.nValue)
    (sublist : fewer.Sublist outputs) : totalValue fewer ≤ totalValue outputs := by
  refine (sublist.map _).sum_le_sum fun n member => ?_
  obtain ⟨output, inside, rfl⟩ := List.mem_map.mp member
  exact (positive output inside).le

theorem nValue_le_totalValue (positive : ∀ output ∈ outputs, 0 < output.nValue) (member : output ∈ outputs) :
    output.nValue ≤ totalValue outputs := by
  have single := totalValue_sublist positive (List.singleton_sublist.mpr member)
  rwa [totalValue, List.map_singleton, List.sum_singleton] at single

theorem totalValue_lowerCoins : totalValue (lowerCoins isFromMe nTargetValue nConfMine nConfTheirs chance vCoins) =
    totalValue (lowerOutputs nTargetValue (eligibleOutputs isFromMe nConfMine nConfTheirs vCoins)) :=
  totalValue_perm lowerCoins_perm

theorem mem_lowerCoins {output : COutput} :
    output ∈ lowerCoins isFromMe nTargetValue nConfMine nConfTheirs chance vCoins ↔
      output ∈ eligibleOutputs isFromMe nConfMine nConfTheirs vCoins ∧ output.nValue < nTargetValue + CENT := by
  rw [lowerCoins_perm.mem_iff, lowerOutputs, List.mem_filter, decide_eq_true_eq]

theorem putCoins_single : putCoins [output.coin] = ({output.toCoinRef}, output.nValue) := by
  rw [putCoins, List.map_singleton, List.map_singleton, List.sum_singleton]
  rfl

theorem putCoins_all : (putCoins (outputs.map COutput.coin)).2 = totalValue outputs := by
  change ((outputs.map COutput.coin).map Prod.fst).sum = _
  rw [List.map_map]
  rfl

namespace Answer

variable {eligible lower : List COutput} {best : ℤ} {coins : List Coin}
  (answer : Answer nTargetValue eligible lower best coins)
include answer

/-- An answer reaches the target. -/
theorem reaches : nTargetValue ≤ (putCoins coins).2 := by
  have cent : CENT = 1000 := rfl
  cases answer with
  | exact output member value => rw [putCoins_single, value]
  | all total => rw [putCoins_all, total]
  | larger output member high =>
    rw [putCoins_single]
    dsimp only
    omega
  | subset coins drawn found reaches => rwa [putCoins, found]

theorem possible (positive : ∀ output ∈ eligible, 0 < output.nValue) (less : totalValue lower ≤ totalValue eligible) :
    nTargetValue ≤ totalValue eligible := by
  have cent : CENT = 1000 := rfl
  cases answer with
  | exact output member value => exact value ▸ nValue_le_totalValue positive member
  | all total => exact total ▸ less
  | larger output member high => exact le_trans (by omega) (nValue_le_totalValue positive member)
  | subset coins drawn found reaches inexact more => exact more.le.trans less

/-- Outputs or lower totals of the target's value are used. -/
theorem exactly (reached : (∃ output ∈ eligible, output.nValue = nTargetValue) ∨ totalValue lower = nTargetValue) :
    (putCoins coins).2 = nTargetValue := by
  cases answer with
  | exact output member value => rw [putCoins_single, value]
  | all total => rw [putCoins_all, total]
  | larger output member high least inexact reason =>
    rcases reached with ⟨other, member, value⟩ | total
    · exact absurd value (inexact other member)
    · omega
  | subset coins drawn found reaches inexact more =>
    rcases reached with ⟨other, member, value⟩ | total
    · exact absurd value (inexact other member)
    · omega

variable (low : ∀ output ∈ lower, output ∈ eligible ∧ output.nValue < nTargetValue + CENT)
  (distinct : (lower.map toCoinRef).Nodup)
include low distinct

/-- The coins of an answer are different eligible outputs. -/
theorem drawn : Drawn eligible coins := by
  have eligible {coins : List Coin} (drawn : Drawn lower coins) : Drawn eligible coins := by
    refine ⟨drawn.distinct, fun coin member => ?_⟩
    obtain ⟨output, inside, same⟩ := drawn.drawn coin member
    exact ⟨output, (low output inside).1, same⟩
  cases answer with
  | exact output member => exact .single member
  | all => exact eligible (.all distinct)
  | larger output member => exact .single member
  | subset coins drawn => exact eligible drawn

/-- An answer with a larger output has only this one. -/
theorem alone {coin : CoinRef} (member : coin ∈ (putCoins coins).1) (large : nTargetValue + CENT ≤ coin.nValue) :
    (putCoins coins).1 = {coin} ∧
      (∀ other ∈ eligible, nTargetValue + CENT ≤ other.nValue → coin.nValue ≤ other.nValue) ∧
      (totalValue lower < nTargetValue ∨ best ≠ nTargetValue ∧ best < nTargetValue + CENT ∨ coin.nValue ≤ best) := by
  have cent : CENT = 1000 := rfl
  have small {coins : List Coin} (drawn : Drawn lower coins) (member : coin ∈ (putCoins coins).1) : False := by
    obtain ⟨output, inside, rfl⟩ := drawn.putCoins.1 coin member
    exact absurd large (not_le.mpr (low output inside).2)
  cases answer with
  | exact output _ value =>
    rw [putCoins_single] at member
    obtain rfl := Finset.mem_singleton.mp member
    omega
  | all => exact (small (.all distinct) member).elim
  | larger output _ high least inexact reason =>
    rw [putCoins_single] at member ⊢
    obtain rfl := Finset.mem_singleton.mp member
    exact ⟨rfl, least, reason.imp id And.right⟩
  | subset coins drawn => exact (small drawn member).elim

end Answer

/-- A selection that stays in range is correct. -/
theorem correctSelection {selected : Option (Finset CoinRef × ℤ)} (distinct : (vCoins.map toCoinRef).Nodup)
    (positive : ∀ output ∈ vCoins, 0 < output.nValue)
    (limit : ∀ output ∈ eligibleOutputs isFromMe nConfMine nConfTheirs vCoins,
      output.nValue = nTargetValue ∨ nTargetValue + CENT < 2 ^ 63 ∧ output.nValue < 2 ^ 63 - 1)
    (done : selectCoinsMinConf isFromMe nTargetValue nConfMine nConfTheirs chance vCoins = .ok selected) :
    CorrectSelection isFromMe nTargetValue nConfMine nConfTheirs chance vCoins selected := by
  have cent : CENT = 1000 := rfl
  have found : nTargetValue ≤
      totalValue (lowerOutputs nTargetValue (eligibleOutputs isFromMe nConfMine nConfTheirs vCoins)) →
    ∃ subset ⊆ ((lowerOutputs nTargetValue (eligibleOutputs isFromMe nConfMine nConfTheirs vCoins)).map
        toCoinRef).toFinset,
      bestFound isFromMe nTargetValue nConfMine nConfTheirs chance vCoins = ∑ coin ∈ subset, coin.nValue ∧
      nTargetValue ≤ bestFound isFromMe nTargetValue nConfMine nConfTheirs chance vCoins := by
    intro enough
    rw [← @totalValue_lowerCoins _ _ _ _ chance] at enough
    obtain ⟨drawn, total, reaches⟩ := bestFound_spec distinct enough
    obtain ⟨inside, sum⟩ := drawn.putCoins
    refine ⟨_, fun coin member => ?_, total.symm.trans sum, reaches⟩
    obtain ⟨output, low, rfl⟩ := inside coin member
    exact List.mem_toFinset.mpr (List.mem_map_of_mem (lowerCoins_perm.mem_iff.mp low))
  rcases selectCoinsMinConf_eq_ok distinct done with ⟨coins, answer, rfl⟩ | ⟨rfl, least, few⟩
  · have low (output : COutput) := (@mem_lowerCoins isFromMe nTargetValue nConfMine nConfTheirs chance vCoins output).mp
    have eligible (output : COutput) (member : output ∈ eligibleOutputs isFromMe nConfMine nConfTheirs vCoins) :
        0 < output.nValue := positive output (List.mem_filter.mp member).1
    refine ⟨⟨fun _ => answer.possible eligible ?_, fun _ => rfl⟩, ?_, ?_, ?_, found⟩
    · exact totalValue_lowerCoins.trans_le (totalValue_sublist eligible List.filter_sublist)
    · rintro _ _ ⟨⟩
      obtain ⟨inside, sum⟩ := (answer.drawn low (lowerCoins_distinct distinct)).putCoins
      exact ⟨inside, sum, answer.reaches⟩
    · rintro _ _ ⟨⟩ reached
      rw [← @totalValue_lowerCoins _ _ _ _ chance] at reached
      exact answer.exactly reached
    · rintro _ _ ⟨⟩ coin member large
      rw [← @totalValue_lowerCoins _ _ _ _ chance]
      exact answer.alone low (lowerCoins_distinct distinct) member large
  · refine ⟨⟨nofun, fun enough => ?_⟩, nofun, nofun, nofun, found⟩
    have low : ∀ output ∈ eligibleOutputs isFromMe nConfMine nConfTheirs vCoins,
        decide (output.nValue < nTargetValue + CENT) = true := by
      intro output member
      rw [decide_eq_true_eq]
      by_contra high
      have most := least output member (not_lt.mp high)
      have bound := limit output member
      omega
    rw [totalValue_lowerCoins, lowerOutputs, List.filter_eq_self.mpr low] at few
    omega

namespace Chance

/-- No shuffle, and no luck. -/
def inOrder : Chance where
  shuffle := id
  shuffle_perm := List.Perm.refl
  sort := fun vValue => vValue.mergeSort fun first second => second.1 ≤ first.1
  sort_perm := fun vValue => List.mergeSort_perm vValue _
  sort_descending := fun vValue => by
    have sorted := @List.pairwise_mergeSort Coin (fun first second => second.1 ≤ first.1)
      (fun a b c first second => by
        rw [decide_eq_true_eq] at first second ⊢
        exact second.trans first)
      (fun a b => by
        rw [Bool.or_eq_true, decide_eq_true_eq, decide_eq_true_eq]
        exact le_total _ _) vValue
    exact sorted.imp fun ordered => of_decide_eq_true ordered
  flip := fun _ _ _ => false

/-- A shuffle that has a certain output come out first. -/
def front (output : COutput) : Chance :=
  { inOrder with
    shuffle := fun vCoins => if output ∈ vCoins then output :: vCoins.erase output else vCoins
    shuffle_perm := fun vCoins => by
      split
      next member => exact (List.perm_cons_erase member).symm
      next => exact List.Perm.refl vCoins }

end Chance

/-- The limit for lower outputs overflows as soon as it is needed. -/
theorem selectCoinsMinConf_overflow
    (member : output ∈ eligibleOutputs isFromMe nConfMine nConfTheirs vCoins) (inexact : output.nValue ≠ nTargetValue)
    (limit : ¬ nTargetValue + CENT < 2 ^ 63) :
    selectCoinsMinConf isFromMe nTargetValue nConfMine nConfTheirs (.front output) vCoins = .error .overflow := by
  obtain ⟨member, enough⟩ := List.mem_filter.mp member
  have first : (Chance.front output).shuffle vCoins = output :: vCoins.erase output := if_pos member
  have outside : int64 (nTargetValue + CENT) = .error .overflow := if_neg fun inside => limit inside.2
  rw [selectCoinsMinConf, first, siftCoins, if_neg (not_not.mpr enough)]
  dsimp only
  rw [if_neg inexact, outside]
  rfl

/-- An output of the largest number is the only one. -/
theorem eq_singleton_of_largest (positive : ∀ output ∈ vCoins, 0 < output.nValue)
    (fits : totalValue vCoins < 2 ^ 63) (member : output ∈ vCoins) (largest : 2 ^ 63 - 1 ≤ output.nValue) :
    vCoins = [output] := by
  have perm := List.perm_cons_erase member
  have rest : totalValue vCoins = output.nValue + totalValue (vCoins.erase output) := by
    rw [totalValue_perm perm, totalValue, List.map_cons, List.sum_cons]
    rfl
  cases others : vCoins.erase output with
  | nil => exact List.perm_singleton.mp (others ▸ perm)
  | cons other left =>
    rw [others] at perm rest
    have head := positive other (perm.mem_iff.mpr (List.mem_cons_of_mem _ List.mem_cons_self))
    have tail := nValue_le_totalValue
      (fun output inside => positive output (perm.mem_iff.mpr (List.mem_cons_of_mem _ inside)))
      (List.mem_cons_self : other ∈ other :: left)
    omega

/-- An output of the largest number is not found. -/
theorem selectCoinsMinConf_largest (largest : output.nValue = 2 ^ 63 - 1)
    (enough : confirmedEnough isFromMe nConfMine nConfTheirs output = true) (target : 0 < nTargetValue)
    (limit : nTargetValue + CENT < 2 ^ 63) :
    selectCoinsMinConf isFromMe nTargetValue nConfMine nConfTheirs chance [output] = .ok none := by
  have cent : CENT = 1000 := rfl
  have alone : chance.shuffle [output] = [output] := List.perm_singleton.mp (chance.shuffle_perm _)
  have inside : int64 (nTargetValue + CENT) = .ok (nTargetValue + CENT) := int64_eq_ok.mpr ⟨⟨by omega, limit⟩, rfl⟩
  have zero : ({} : SiftedCoins).nTotalLower = 0 := rfl
  rw [selectCoinsMinConf, alone, siftCoins, if_neg (not_not.mpr enough)]
  dsimp only
  rw [if_neg (by omega), inside, Check.ok_bind, if_neg (by omega), if_neg (by omega), siftCoins, Check.ok_bind]
  dsimp only
  rw [selectSifted, if_neg (by omega), if_pos (by omega)]
  rfl

/-- Whatever chance decides, coins are selected correctly, exactly when no eligible output but one of the target's value
meets an end of the range. -/
theorem selectCoinsMinConf_correct_iff (isFromMe : CWalletTx → Bool) (nTargetValue nConfMine nConfTheirs : ℤ)
    (vCoins : List COutput) (distinct : (vCoins.map toCoinRef).Nodup)
    (positive : ∀ output ∈ vCoins, 0 < output.nValue) (fits : totalValue vCoins < 2 ^ 63)
    (target : 1 ≤ nTargetValue) :
    (∀ chance, ∃ selected, selectCoinsMinConf isFromMe nTargetValue nConfMine nConfTheirs chance vCoins = .ok selected ∧
      CorrectSelection isFromMe nTargetValue nConfMine nConfTheirs chance vCoins selected) ↔
    ∀ output ∈ eligibleOutputs isFromMe nConfMine nConfTheirs vCoins,
      output.nValue = nTargetValue ∨ nTargetValue + CENT < 2 ^ 63 ∧ output.nValue < 2 ^ 63 - 1 := by
  constructor
  · intro correct output member
    by_contra outside
    obtain ⟨inexact, outside⟩ := not_or.mp outside
    by_cases limit : nTargetValue + CENT < 2 ^ 63
    · have largest : 2 ^ 63 - 1 ≤ output.nValue := not_lt.mp fun small => outside ⟨limit, small⟩
      obtain ⟨inside, enough⟩ := List.mem_filter.mp member
      obtain rfl := eq_singleton_of_largest positive fits inside largest
      have exactly := nValue_le_totalValue positive inside
      obtain ⟨selected, done, correct⟩ := correct .inOrder
      rw [selectCoinsMinConf_largest (by omega) enough (by omega) limit] at done
      cases done
      have total : totalValue (eligibleOutputs isFromMe nConfMine nConfTheirs [output]) = output.nValue := by
        rw [eligibleOutputs, List.filter_cons_of_pos enough, List.filter_nil, totalValue, List.map_singleton,
          List.sum_singleton]
      have cent : CENT = 1000 := rfl
      exact Bool.false_ne_true (correct.possible.mpr (by omega))
    · obtain ⟨selected, done, -⟩ := correct (.front output)
      rw [selectCoinsMinConf_overflow member inexact limit] at done
      cases done
  · intro limit chance
    have shuffled := chance.shuffle_perm vCoins
    have zero : ({} : SiftedCoins).nTotalLower = 0 := rfl
    obtain ⟨result, sifted⟩ := @siftCoins_isOk nTargetValue isFromMe nConfMine nConfTheirs {} (chance.shuffle vCoins)
      le_rfl (fun output member => positive output (shuffled.mem_iff.mp member))
      (by rw [totalValue_perm shuffled]; omega) (by omega)
      (fun output member => (limit output (eligibleOutputs_shuffle.mem_iff.mp member)).imp id And.left)
    obtain ⟨selected, done⟩ : ∃ selected, selectCoinsMinConf isFromMe nTargetValue nConfMine nConfTheirs chance vCoins =
        .ok selected := by
      rw [selectCoinsMinConf, sifted, Check.ok_bind]
      cases result <;> exact ⟨_, rfl⟩
    exact ⟨selected, done, correctSelection distinct positive limit done⟩

/-- The only output of a transaction, with ten confirmations. -/
def COutput.sole (hash : Uint256) (nValue : ℤ) : COutput where
  hash
  pcoin := { tx := { vin := [], vout := [⟨nValue, []⟩] } }
  i := 0
  inside := Nat.one_pos
  nDepth := 10

/-- Three outputs, none of which is enough alone. -/
def threeOutputs : List COutput := [.sole 1 5000, .sole 2 4500, .sole 3 6000]

/-- Nine cents are put together from a subset of the three. -/
theorem selectCoinsMinConf_correct_subset : (∀ output ∈ threeOutputs, output.nValue < 9000) ∧
    ∃ selected, selectCoinsMinConf (fun _ => false) 9000 1 6 .inOrder threeOutputs = .ok selected ∧
      CorrectSelection (fun _ => false) 9000 1 6 .inOrder threeOutputs selected :=
  ⟨by decide, (selectCoinsMinConf_correct_iff (fun _ => false) 9000 1 6 threeOutputs (by decide) (by decide) (by decide)
    (by decide)).mpr (by decide) .inOrder⟩

/-- One unit is not found in an output of the largest number, and a target of the largest number overflows. -/
theorem selectCoinsMinConf_fails :
    (selectCoinsMinConf (fun _ => false) 1 1 6 .inOrder [.sole 1 (2 ^ 63 - 1)] = .ok none ∧
      1 ≤ totalValue (eligibleOutputs (fun _ => false) 1 6 [.sole 1 (2 ^ 63 - 1)]) ∧
      totalValue [.sole 1 (2 ^ 63 - 1)] < 2 ^ 63) ∧
    selectCoinsMinConf (fun _ => false) (2 ^ 63 - 1) 1 6 .inOrder [.sole 1 1] = .error .overflow := by
  refine ⟨⟨selectCoinsMinConf_largest rfl rfl (by decide) (by decide), by decide, by decide⟩, by decide⟩

end BitCrystal
