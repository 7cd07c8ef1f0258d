import BitCrystal.Proofs.CreateTransaction
import BitCrystal.Soundness.BalanceAgreement

/-! # A created transaction

The loop ends because the fee that is needed only takes the values of so many kilobytes, and the fee of every round is
above that of the round before.
-/

namespace BitCrystal

open StateAction

namespace Spending

variable {spending : Spending} {keys keys' : KeyPoolWallet} {chance : ℕ → SpendingChance}
  {vecSend : List (CScript × ℤ)} {nValue nFeeRet : ℤ} {wtxNew : CTransaction} {reservekey : CReserveKey}

/-- What is promised of a transaction that is created. -/
structure Draft.Correct (spending : Spending) (vecSend : List (CScript × ℤ)) (draft : Draft) : Prop
    extends draft.Balanced spending vecSend where
  payFee : spending.fees.nTransactionFee * (1 + (draft.tx.getSerializeSize / 1000 : ℕ)) ≤ draft.nFeeRet
  minFee : ∃ fAllowFree nMinFee, draft.tx.getMinFee spending.fees.nMinTxFee fAllowFree = .ok nMinFee ∧
    nMinFee ≤ draft.nFeeRet
  fee : 0 ≤ draft.nFeeRet
  amounts : ∀ txout ∈ draft.tx.vout, 0 < txout.nValue

theorem sendValue_eq_ok {nSum : ℤ} (done : sendValue vecSend nValue = .ok nSum) :
    nSum = nValue + (vecSend.map Prod.snd).sum := by
  induction vecSend generalizing nValue with
  | nil =>
    cases done
    rw [List.map_nil, List.sum_nil, add_zero]
  | cons s vecSend ih =>
    obtain ⟨_, _, done⟩ := Check.bind_eq_ok.mp done
    obtain ⟨next, inRange, done⟩ := Check.bind_eq_ok.mp done
    obtain ⟨-, rfl⟩ := int64_eq_ok.mp inRange
    rw [ih done, List.map_cons, List.sum_cons, add_assoc]

variable {rounds : ℕ} {draft : Draft}

/-- A draft that is returned is balanced and pays the fee that it needs. -/
theorem createLoop_eq_ok {nRound : ℕ} (sum : nValue = (vecSend.map Prod.snd).sum)
    (done : spending.createLoop chance vecSend nValue wtxNew rounds nRound nFeeRet reservekey keys =
      (.ok (some draft), keys')) : draft.Balanced spending vecSend ∧
      ∃ round needed, spending.neededFee (chance round) draft.tx = .ok needed ∧ needed ≤ draft.nFeeRet := by
  induction rounds generalizing nRound nFeeRet reservekey keys with
  | zero => cases done
  | succ rounds ih =>
    obtain ⟨first, keys, drafted, done⟩ := bind_eq_ok.mp done
    obtain ⟨needed, fee, done⟩ := lift_bind_eq_ok.mp done
    split at done
    next again => exact ih done
    next enough =>
      cases done
      exact ⟨(draft_eq_ok sum drafted).1, nRound, needed, fee, not_lt.mp enough⟩

/-- A fee above the one for `k` kilobytes grows at most `96 - k` times. -/
theorem createLoop_ne_none {nRound k : ℕ} (sum : nValue = (vecSend.map Prod.snd).sum)
    (low : max (spending.fees.nTransactionFee * k) 0 ≤ nFeeRet) (few : k ≤ 96) (enough : 97 ≤ rounds + k) :
    spending.createLoop chance vecSend nValue wtxNew rounds nRound nFeeRet reservekey keys ≠ (.ok none, keys') := by
  induction rounds generalizing nRound nFeeRet reservekey keys k with
  | zero => omega
  | succ rounds ih =>
    intro done
    obtain ⟨draft, keys, drafted, done⟩ := bind_eq_ok.mp done
    obtain ⟨needed, fee, done⟩ := lift_bind_eq_ok.mp done
    split at done
    next again =>
      obtain ⟨size, rfl, -⟩ := neededFee_eq_ok fee
      have grown := (draft_eq_ok sum drafted).2
      have cast : ((1 + draft.tx.getSerializeSize / 1000 : ℕ) : ℤ) = 1 + (draft.tx.getSerializeSize / 1000 : ℕ) := by
        push_cast
        rfl
      have more : k < 1 + draft.tx.getSerializeSize / 1000 := by
        by_contra notMore
        have scaled : (1 + (draft.tx.getSerializeSize / 1000 : ℕ) : ℤ) ≤ k := by omega
        rcases le_total 0 spending.fees.nTransactionFee with nonneg | nonpos
        · have := mul_le_mul_of_nonneg_left scaled nonneg
          omega
        · have := mul_nonpos_of_nonpos_of_nonneg nonpos
            (by omega : (0 : ℤ) ≤ 1 + (draft.tx.getSerializeSize / 1000 : ℕ))
          omega
      rw [← cast] at done
      exact ih le_rfl (by omega) (by omega) done
    next => cases done

/-- With 97 rounds the loop has ended. -/
theorem createTransaction_rounds (enough : 97 ≤ rounds) :
    spending.createTransaction rounds chance vecSend wtxNew reservekey keys ≠ (.ok none, keys') := by
  intro done
  obtain ⟨nValue, sum, done⟩ := lift_bind_eq_ok.mp done
  have sum := sendValue_eq_ok sum
  rw [zero_add] at sum
  split at done
  · cases done
  obtain ⟨rounds, rfl⟩ : ∃ left, rounds = left + 1 := ⟨rounds - 1, by omega⟩
  obtain ⟨draft, keys, drafted, done⟩ := bind_eq_ok.mp done
  obtain ⟨needed, fee, done⟩ := lift_bind_eq_ok.mp done
  split at done
  next again =>
    obtain ⟨size, rfl, -⟩ := neededFee_eq_ok fee
    have cast : ((1 + draft.tx.getSerializeSize / 1000 : ℕ) : ℤ) = 1 + (draft.tx.getSerializeSize / 1000 : ℕ) := by
      push_cast
      rfl
    rw [← cast] at done
    exact createLoop_ne_none sum le_rfl (by omega) (by omega) done
  next => cases done

/-- What a balanced draft pays is positive when the amounts are. -/
theorem Draft.Balanced.positive (balanced : draft.Balanced spending vecSend)
    (amounts : ∀ s ∈ vecSend, 1 ≤ s.2) : ∀ txout ∈ draft.tx.vout, 0 < txout.nValue := by
  have paid : ∀ txout ∈ recipients vecSend, 0 < txout.nValue := by
    intro txout member
    obtain ⟨s, inside, rfl⟩ := List.mem_map.mp member
    exact amounts s inside
  rcases balanced.outputs with same | ⟨i, nChange, inside, positive, change⟩
  · rw [same]
    exact paid
  · have length : (recipients vecSend).length = vecSend.length := List.length_map _
    intro txout member
    rw [change, List.mem_insertIdx (length ▸ inside)] at member
    rcases member with rfl | member
    · exact positive
    · exact paid txout member

theorem createTransaction_eq_ok (amounts : ∀ s ∈ vecSend, 1 ≤ s.2)
    (done : spending.createTransaction rounds chance vecSend wtxNew reservekey keys = (.ok (some draft), keys')) :
    draft.Correct spending vecSend := by
  obtain ⟨nValue, sum, done⟩ := lift_bind_eq_ok.mp done
  have sum := sendValue_eq_ok sum
  rw [zero_add] at sum
  split at done
  · cases done
  obtain ⟨balanced, round, needed, fee, enough⟩ := createLoop_eq_ok sum done
  obtain ⟨-, rfl, free⟩ := neededFee_eq_ok fee
  obtain ⟨payFee, nonneg⟩ := max_le_iff.mp enough
  exact ⟨balanced, payFee, ⟨_, 0, free, nonneg⟩, nonneg, balanced.positive amounts⟩

/-- The loop of `CreateTransaction` ends, and a transaction that it creates pays what it spends. -/
theorem createTransaction_correct (spending : Spending) (keys : KeyPoolWallet) (chance : ℕ → SpendingChance)
    (vecSend : List (CScript × ℤ)) (wtxNew : CTransaction) (reservekey : CReserveKey)
    (amounts : ∀ s ∈ vecSend, 1 ≤ s.2 ∧ s.2 ≤ MAX_MONEY) :
    (∀ rounds keys', 97 ≤ rounds →
      spending.createTransaction rounds chance vecSend wtxNew reservekey keys ≠ (.ok none, keys')) ∧
    ∀ rounds draft keys',
      spending.createTransaction rounds chance vecSend wtxNew reservekey keys = (.ok (some draft), keys') →
        draft.Correct spending vecSend :=
  ⟨fun _ _ enough => createTransaction_rounds enough,
    fun _ _ _ done => createTransaction_eq_ok (fun s member => (amounts s member).1) done⟩

end Spending

namespace TestNet

def cutDigests : Crypto where
  sha1 := id
  sha256 := id
  ripemd160 := List.take 20
  verify _ _ _ := true

def purseKey : valtype := 2 :: List.replicate 32 7

def funds : CTransaction :=
  { TestNet.spending 2 [⟨7, 0⟩] [] with vout := [⟨50000, CScript.setDestination (.CKeyID (purseKey.take 20))⟩] }

def fundsFile : CWalletFile := fileOf [(2001, inBlock funds)] (by decide)

def purse : KeyPoolWallet := { keystore := { mapKeys := [purseKey.take 20] } }

def payer : Spending where
  crypto := cutDigests
  P := platform
  node := singleBlock 2001
  signer := ⟨fun _ _ => some [0x30, 6, 2, 1, 1, 2, 1, 1], fun _ => purseKey⟩
  wallet := { fundsFile with setLockedCoins := ∅ }
  maker := ⟨fun _ => purseKey, fun _ => 0⟩
  fLocked := false
  keypool := 0
  fees := ⟨0, 0, 0⟩
  coinControl := none
  nConfirming := 0

def coin : CoinRef := ⟨2001, inBlock funds, 0, by decide⟩

noncomputable def oneCoin : SpendingChance where
  select := fun _ => .inOrder
  order := fun setCoins => if setCoins = {coin} then [coin] else setCoins.toList
  order_nodup := fun setCoins => by
    split
    · exact List.nodup_singleton _
    · exact Finset.nodup_toList setCoins
  mem_order := fun setCoins other => by
    split
    next same => rw [same, Finset.mem_singleton, List.mem_singleton]
    next => exact Finset.mem_toList
  getRandInt := fun _ => 0
  getRandInt_lt := fun _ positive => positive
  fAllowFree := true

noncomputable def withChange : Except Failure (Option Spending.Draft) × KeyPoolWallet :=
  payer.createTransaction 97 (fun _ => oneCoin) [([0x51], 30000)] { vin := [], vout := [] } {} purse

theorem withChange_outputs : (withChange.1.toOption.join.map fun draft => draft.tx.vout.map CTxOut.nValue) =
    some [20000, 30000] := by decide

/-- The coin of 50000 pays 30000, and 20000 are change. -/
theorem createTransaction_correct_withChange : ∃ draft keys', withChange = (.ok (some draft), keys') ∧
    draft.tx.vout.map CTxOut.nValue = [20000, 30000] ∧ draft.Correct payer [([0x51], 30000)] := by
  have laws := Spending.createTransaction_correct payer purse (fun _ => oneCoin) [([0x51], 30000)]
    { vin := [], vout := [] } {} (List.forall_mem_singleton.mpr ⟨by decide, by decide⟩)
  obtain ⟨draft, created, outputs⟩ := Option.map_eq_some_iff.mp withChange_outputs
  have done : withChange = (.ok (some draft), withChange.2) := by
    refine Prod.ext ?_ rfl
    rcases result : withChange.1 with _ | _ | other
    · rw [result] at created
      cases created
    · rw [result] at created
      cases created
    · rw [result] at created
      cases created
      rfl
  exact ⟨draft, _, done, outputs, laws.2 97 draft _ done⟩

end TestNet

end BitCrystal
