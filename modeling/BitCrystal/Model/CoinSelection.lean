import BitCrystal.Machine.BitField
import BitCrystal.Model.Money
import BitCrystal.Model.Wallet

/-! # Choosing coins

`SelectCoinsMinConf` and its search for a subset. A pointer to a transaction of the wallet is the transaction with its key
in `mapWallet`. Which transactions are from the wallet itself is an argument. The sum of any outputs that are left for the
search is at most `nTotalLower`, so only this sum and the limit for larger outputs are checked for overflow.
-/

namespace BitCrystal

/-- `pair<const CWalletTx*, unsigned int>`. -/
structure CoinRef where
  hash : Uint256
  pcoin : CWalletTx
  i : ℕ
  inside : i < pcoin.tx.vout.length
deriving DecidableEq

/-- `pcoin->vout[i].nValue`. -/
def CoinRef.nValue (coin : CoinRef) : ℤ := (coin.pcoin.tx.vout.get ⟨coin.i, coin.inside⟩).nValue

structure COutput extends CoinRef where
  nDepth : ℤ
deriving DecidableEq

/-- A value with its output. -/
abbrev Coin := ℤ × CoinRef

/-- What one round of the search has included. -/
structure Trial where
  vfIncluded : List Bool
  nTotal : ℤ
  fReachedTarget : Bool

structure BestSubset where
  vfBest : List Bool
  nBest : ℤ

section

variable (nTargetValue : ℤ)

/-- An output that is picked is included; one that reaches the target is taken out again. -/
def tryCoin (picked : Bool) (i : ℕ) (n : ℤ) (trial : Trial) (best : BestSubset) : Trial × BestSubset :=
  if picked then
    let nTotal := trial.nTotal + n
    let vfIncluded := trial.vfIncluded.set i true
    if nTargetValue ≤ nTotal then
      (⟨vfIncluded.set i false, nTotal - n, true⟩, if nTotal < best.nBest then ⟨vfIncluded, nTotal⟩ else best)
    else (⟨vfIncluded, nTotal, trial.fReachedTarget⟩, best)
  else (trial, best)

/-- The loop over the outputs from number `i` on; whether one is picked depends on its number and its flag. -/
def tryPass (pick : ℕ → Bool → Bool) : ℕ → List ℤ → Trial → BestSubset → Trial × BestSubset
  | _, [], trial, best => (trial, best)
  | i, n :: values, trial, best =>
    let (trial, best) := tryCoin nTargetValue (pick i (trial.vfIncluded.getD i false)) i n trial best
    tryPass pick (i + 1) values trial best

/-- One repetition: outputs are included at random, then those that were not included. -/
def trySubset (values : List ℤ) (flip : ℕ → Bool) (best : BestSubset) : BestSubset :=
  let (trial, best) := tryPass nTargetValue (fun i _ => flip i) 0 values
    ⟨List.replicate values.length false, 0, false⟩ best
  if trial.fReachedTarget then best
  else (tryPass nTargetValue (fun _ fIncluded => !fIncluded) 0 values trial best).2

def trySubsets (values : List ℤ) (flip : ℕ → ℕ → Bool) : ℕ → ℕ → BestSubset → BestSubset
  | 0, _, best => best
  | iterations + 1, nRep, best =>
    if best.nBest = nTargetValue then best
    else trySubsets values flip iterations (nRep + 1) (trySubset nTargetValue values (flip nRep) best)

def approximateBestSubset (values : List ℤ) (nTotalLower : ℤ) (flip : ℕ → ℕ → Bool) (iterations : ℕ) : BestSubset :=
  trySubsets nTargetValue values flip iterations 0 ⟨List.replicate values.length true, nTotalLower⟩

end

/-- What chance and the order of equal values decide. -/
structure Chance where
  shuffle : List COutput → List COutput
  shuffle_perm : ∀ vCoins, (shuffle vCoins).Perm vCoins
  sort : List Coin → List Coin
  sort_perm : ∀ vValue, (sort vValue).Perm vValue
  sort_descending : ∀ vValue, (sort vValue).Pairwise fun first second => second.1 ≤ first.1
  /-- `insecure_rand()&1`, in the second search or in the first. -/
  flip : Bool → ℕ → ℕ → Bool

/-- The outputs below the limit and the smallest output above it. -/
structure SiftedCoins where
  vValue : List Coin := []
  nTotalLower : ℤ := 0
  coinLowestLarger : ℤ × Option CoinRef := (2 ^ 63 - 1, none)

section

variable (isFromMe : CWalletTx → Bool) (nTargetValue nConfMine nConfTheirs : ℤ)

/-- The output has the confirmations that are asked for. -/
def confirmedEnough (output : COutput) : Bool :=
  ¬ output.nDepth < (if isFromMe output.pcoin then nConfMine else nConfTheirs)

/-- The loop over the outputs, which stops at an output of the target's value. -/
def siftCoins : List COutput → SiftedCoins → Check (Coin ⊕ SiftedCoins)
  | [], sifted => .ok (.inr sifted)
  | output :: rest, sifted =>
    if ¬ confirmedEnough isFromMe nConfMine nConfTheirs output then siftCoins rest sifted
    else
      let n := output.nValue
      let coin := (n, output.toCoinRef)
      if n = nTargetValue then .ok (.inl coin)
      else do
        let limit ← int64 (nTargetValue + CENT)
        if n < limit then do
          let nTotalLower ← int64 (sifted.nTotalLower + n)
          siftCoins rest { sifted with vValue := sifted.vValue ++ [coin], nTotalLower }
        else if n < sifted.coinLowestLarger.1 then
          siftCoins rest { sifted with coinLowestLarger := (n, some output.toCoinRef) }
        else siftCoins rest sifted

/-- The two searches for a subset: for the target, and for more when that leaves too little change. -/
def bestSubset (chance : Chance) (values : List ℤ) (nTotalLower : ℤ) : BestSubset :=
  let best := approximateBestSubset nTargetValue values nTotalLower (chance.flip false) 1000
  if best.nBest ≠ nTargetValue ∧ nTargetValue + CENT ≤ nTotalLower then
    approximateBestSubset (nTargetValue + CENT) values nTotalLower (chance.flip true) 1000
  else best

/-- `setCoinsRet` and `nValueRet` after coins are put in. -/
def putCoins (coins : List Coin) : Finset CoinRef × ℤ := ((coins.map Prod.snd).toFinset, (coins.map Prod.fst).sum)

/-- `SelectCoinsMinConf` for coins that were sifted, for each of which `nTargetValue + CENT` was in range. -/
def selectSifted (chance : Chance) (sifted : SiftedCoins) : Option (Finset CoinRef × ℤ) :=
  if sifted.nTotalLower = nTargetValue then some (putCoins sifted.vValue)
  else if sifted.nTotalLower < nTargetValue then
    match sifted.coinLowestLarger with
    | (_, none) => none
    | (n, some coin) => some (putCoins [(n, coin)])
  else
    let vValue := chance.sort sifted.vValue
    let best := bestSubset nTargetValue chance (vValue.map Prod.fst) sifted.nTotalLower
    match sifted.coinLowestLarger with
    | (_, none) => some (putCoins (Mask.pick best.vfBest vValue))
    | (n, some coin) =>
      if best.nBest ≠ nTargetValue ∧ best.nBest < nTargetValue + CENT ∨ n ≤ best.nBest then some (putCoins [(n, coin)])
      else some (putCoins (Mask.pick best.vfBest vValue))

/-- The answer is the set of the coins and their value, when the function returns true. -/
def selectCoinsMinConf (chance : Chance) (vCoins : List COutput) : Check (Option (Finset CoinRef × ℤ)) := do
  match ← siftCoins isFromMe nTargetValue nConfMine nConfTheirs (chance.shuffle vCoins) {} with
  | .inl coin => return some (putCoins [coin])
  | .inr sifted => return selectSifted nTargetValue chance sifted

end

end BitCrystal
