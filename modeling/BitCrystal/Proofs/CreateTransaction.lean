import BitCrystal.Model.CreateTransaction
import BitCrystal.Soundness.CoinSelection

/-! # One round of CreateTransaction

What is selected is worth what is returned for it, what is left over goes to the change or to the fee, and signing changes
nothing but the scripts of the inputs.
-/

namespace BitCrystal

open StateAction Check

theorem signSignature_eq_ok {crypto : Crypto} {signer : Signer} {keystore : CKeyStore} {txFrom txTo tx : CTransaction}
    {nIn : ℕ} {nHashType : BitVec 32} (done : signSignature crypto signer keystore txFrom txTo nIn nHashType = .ok tx) :
    ∃ scriptSig, tx = txTo.setScriptSig nIn scriptSig := by
  obtain ⟨_, _, done⟩ := Check.bind_eq_ok.mp done
  obtain ⟨_, _, done⟩ := Check.bind_eq_ok.mp done
  obtain ⟨scriptSig, _, done⟩ := Check.bind_eq_ok.mp done
  obtain ⟨_, _, done⟩ := Check.bind_eq_ok.mp done
  exact ⟨scriptSig, (pure_eq_ok.mp done).symm⟩

theorem prevouts_setScriptSig (tx : CTransaction) (nIn : ℕ) (scriptSig : CScript) :
    (tx.setScriptSig nIn scriptSig).prevouts = tx.prevouts := by
  rw [CTransaction.prevouts, CTransaction.setScriptSig, CTransaction.prevouts]
  apply List.ext_getElem?
  intro i
  rw [List.getElem?_map, List.getElem?_map, List.getElem?_modify]
  split <;> cases tx.vin[i]? <;> rfl

namespace Spending

variable {spending : Spending} {keys : KeyPoolWallet} {chance : SpendingChance}

/-- Signing keeps the outputs and what the inputs spend. -/
theorem signAll_eq_ok {coins : List CoinRef} {nIn : ℕ} {tx signed : CTransaction}
    (done : spending.signAll keys coins nIn tx = .ok signed) :
    signed.vout = tx.vout ∧ signed.prevouts = tx.prevouts := by
  induction coins generalizing nIn tx with
  | nil =>
    cases done
    exact ⟨rfl, rfl⟩
  | cons coin coins ih =>
    obtain ⟨next, signedOne, done⟩ := Check.bind_eq_ok.mp done
    obtain ⟨scriptSig, rfl⟩ := signSignature_eq_ok signedOne
    obtain ⟨vout, prevouts⟩ := ih done
    exact ⟨vout, prevouts.trans (prevouts_setScriptSig tx nIn scriptSig)⟩

theorem coinsOf_nodup (hash : Uint256) (pcoin : CWalletTx) : (coinsOf hash pcoin).Nodup := by
  refine (List.nodup_finRange _).map fun i j same => ?_
  exact Fin.ext (congrArg CoinRef.i same)

theorem mem_coinsOf {hash : Uint256} {pcoin : CWalletTx} {coin : CoinRef} (member : coin ∈ coinsOf hash pcoin) :
    coin.hash = hash ∧ coin.pcoin = pcoin := by
  obtain ⟨i, -, rfl⟩ := List.mem_map.mp member
  exact ⟨rfl, rfl⟩

variable {vCoins : List COutput} {vout : List CTxOut} {nFeeRet : ℤ} {reservekey after : CReserveKey}
  {keys' : KeyPoolWallet}

/-- The available outputs of a transaction are different outputs of it. -/
theorem availableOf_eq_ok {hash : Uint256} (done : spending.availableOf keys hash = .ok vCoins) :
    (vCoins.map COutput.toCoinRef).Nodup ∧ ∀ output ∈ vCoins, output.hash = hash ∧
      spending.wallet.mapWallet hash = some output.pcoin ∧ 0 < output.nValue := by
  have nothing (done : (Except.ok [] : Check (List COutput)) = .ok vCoins) :
      (vCoins.map COutput.toCoinRef).Nodup ∧ ∀ output ∈ vCoins, output.hash = hash ∧
        spending.wallet.mapWallet hash = some output.pcoin ∧ 0 < output.nValue := by
    cases done
    exact ⟨List.nodup_nil, fun _ member => absurd member List.not_mem_nil⟩
  unfold availableOf at done
  split at done
  · exact nothing done
  next pcoin found =>
    split at done
    · exact nothing done
    obtain ⟨fConfirmed, -, done⟩ := Check.bind_eq_ok.mp done
    split at done
    · exact nothing done
    split at done
    · exact nothing done
    cases done
    constructor
    · rw [List.map_map]
      have same : (COutput.toCoinRef ∘ fun coin =>
          (⟨coin, pcoin.getDepthInMainChain spending.P spending.node⟩ : COutput)) = id := rfl
      rw [same, List.map_id]
      exact (coinsOf_nodup hash pcoin).filter _
    · intro output member
      obtain ⟨coin, inside, rfl⟩ := List.mem_map.mp member
      obtain ⟨inside, available⟩ := List.mem_filter.mp inside
      obtain ⟨sameHash, same⟩ := mem_coinsOf inside
      refine ⟨sameHash, found.trans (congrArg some same.symm), ?_⟩
      simp only [isAvailable, Bool.and_eq_true, decide_eq_true_eq] at available
      exact available.1.2

theorem availableLoop_eq_ok {hashes : List Uint256} (sorted : hashes.Pairwise (· < ·))
    (done : spending.availableLoop keys hashes = .ok vCoins) :
    (vCoins.map COutput.toCoinRef).Nodup ∧ ∀ output ∈ vCoins, output.hash ∈ hashes ∧
      spending.wallet.mapWallet output.hash = some output.pcoin ∧ 0 < output.nValue := by
  induction hashes generalizing vCoins with
  | nil =>
    cases done
    exact ⟨List.nodup_nil, fun _ member => absurd member List.not_mem_nil⟩
  | cons hash hashes ih =>
    obtain ⟨first, found, done⟩ := Check.bind_eq_ok.mp done
    obtain ⟨rest, later, done⟩ := Check.bind_eq_ok.mp done
    obtain rfl := pure_eq_ok.mp done
    obtain ⟨distinct, here⟩ := availableOf_eq_ok found
    obtain ⟨above, sorted⟩ := List.pairwise_cons.mp sorted
    obtain ⟨distinctRest, there⟩ := ih sorted later
    constructor
    · rw [List.map_append]
      refine distinct.append distinctRest fun coin inFirst inRest => ?_
      obtain ⟨output, inside, rfl⟩ := List.mem_map.mp inFirst
      obtain ⟨other, insideRest, same⟩ := List.mem_map.mp inRest
      have before := above _ (there other insideRest).1
      have sameHash : other.hash = output.hash := congrArg CoinRef.hash same
      rw [sameHash, (here output inside).1] at before
      exact lt_irrefl _ before
    · intro output member
      rcases List.mem_append.mp member with inside | inside
      · obtain ⟨rfl, entry⟩ := here output inside
        exact ⟨List.mem_cons_self, entry⟩
      · obtain ⟨later, entry⟩ := there output inside
        exact ⟨List.mem_cons_of_mem _ later, entry⟩

theorem selectAll_eq_ok {nValue nValueRet : ℤ}
    (done : selectAll vCoins nValue = .ok nValueRet) : nValueRet = nValue + totalValue vCoins := by
  induction vCoins generalizing nValue with
  | nil =>
    cases done
    rw [totalValue, List.map_nil, List.sum_nil, add_zero]
  | cons out vCoins ih =>
    obtain ⟨next, inRange, done⟩ := Check.bind_eq_ok.mp done
    obtain ⟨-, rfl⟩ := int64_eq_ok.mp inRange
    rw [ih done, totalValue, totalValue, List.map_cons, List.sum_cons, add_assoc]

/-- Selected coins are outputs of the wallet; their value is returned and reaches the target. -/
structure Selected (spending : Spending) (nTargetValue : ℤ) (setCoins : Finset CoinRef) (nValueIn : ℤ) : Prop where
  value : nValueIn = ∑ coin ∈ setCoins, coin.nValue
  reaches : nTargetValue ≤ nValueIn
  known : ∀ coin ∈ setCoins, spending.wallet.mapWallet coin.hash = some coin.pcoin ∧ 0 < coin.nValue

theorem selectCoins_eq_ok {nTargetValue nValueIn : ℤ} {setCoins : Finset CoinRef}
    (done : spending.selectCoins keys chance nTargetValue = .ok (some (setCoins, nValueIn))) :
    spending.Selected nTargetValue setCoins nValueIn := by
  obtain ⟨vCoins, listed, done⟩ := Check.bind_eq_ok.mp done
  obtain ⟨distinct, known⟩ := availableLoop_eq_ok spending.wallet.sorted listed
  have chosen {nConfMine nConfTheirs : ℤ} {chance : Chance} {selected : Option (Finset CoinRef × ℤ)}
      (done : selectCoinsMinConf (spending.isFromMe keys) nTargetValue nConfMine nConfTheirs chance vCoins =
        .ok selected) (found : selected = some (setCoins, nValueIn)) :
      spending.Selected nTargetValue setCoins nValueIn := by
    rcases selectCoinsMinConf_eq_ok distinct done with ⟨coins, answer, rfl⟩ | ⟨rfl, -⟩
    · obtain ⟨eligible, value⟩ := (answer.drawn (fun _ => mem_lowerCoins.mp) (lowerCoins_distinct distinct)).putCoins
      have reaches := answer.reaches
      rw [Option.some.inj found] at eligible value reaches
      refine ⟨value, reaches, fun coin member => ?_⟩
      obtain ⟨output, inside, rfl⟩ := eligible coin member
      exact (known output (List.mem_filter.mp inside).1).2
    · cases found
  dsimp only at done
  split at done
  · obtain ⟨nValueRet, total, done⟩ := Check.bind_eq_ok.mp done
    obtain rfl := selectAll_eq_ok total
    rw [zero_add] at done
    have done := pure_eq_ok.mp done
    split at done
    next enough =>
      cases done
      refine ⟨?_, enough, fun coin member => ?_⟩
      · rw [List.sum_toFinset _ distinct, List.map_map]
        rfl
      · obtain ⟨output, inside, rfl⟩ := List.mem_map.mp (List.mem_toFinset.mp member)
        exact (known output inside).2
    next => cases done
  · obtain ⟨first, done1, done⟩ := Check.bind_eq_ok.mp done
    split at done
    · exact chosen done1 (pure_eq_ok.mp done)
    obtain ⟨second, done2, done⟩ := Check.bind_eq_ok.mp done
    split at done
    · exact chosen done2 (pure_eq_ok.mp done)
    exact chosen done rfl

/-- The outputs that are asked for. -/
def recipients (vecSend : List (CScript × ℤ)) : List CTxOut := vecSend.map fun s => ⟨s.2, s.1⟩

theorem payees_eq_ok {vecSend : List (CScript × ℤ)} (done : spending.payees vecSend = .ok vout) :
    vout = recipients vecSend := by
  induction vecSend generalizing vout with
  | nil =>
    cases done
    rfl
  | cons s vecSend ih =>
    obtain ⟨_, _, done⟩ := Check.bind_eq_ok.mp done
    obtain ⟨_, _, done⟩ := Check.bind_eq_ok.mp done
    obtain ⟨rest, more, done⟩ := Check.bind_eq_ok.mp done
    obtain rfl := pure_eq_ok.mp done
    rw [ih more]
    rfl

theorem nMoveToFee_eq_ok {nChange moved : ℤ} (nonneg : 0 ≤ nChange)
    (done : spending.nMoveToFee nFeeRet nChange = .ok moved) : 0 ≤ moved ∧ moved ≤ nChange := by
  unfold nMoveToFee at done
  split at done
  next low =>
    obtain ⟨room, inRange, done⟩ := Check.bind_eq_ok.mp done
    obtain ⟨-, rfl⟩ := int64_eq_ok.mp inRange
    obtain rfl := pure_eq_ok.mp done
    omega
  next =>
    cases done
    exact ⟨le_rfl, nonneg⟩

/-- Where change goes: to the custom address, or else to the reserved key. -/
def changeScript (spending : Spending) (reservekey : CReserveKey) : CScript :=
  CScript.setDestination (spending.customChange.getD (.CKeyID (spending.crypto.hash160 reservekey.vchPubKey)))

theorem checked_eq_ok {vchPubKey : Option valtype}
    (done : reservekey.checked keys = (.ok (after, vchPubKey), keys')) : vchPubKey = some after.vchPubKey := by
  unfold CReserveKey.checked at done
  split at done <;> cases done
  rfl

/-- The key that is returned is the one the reservation remembers. -/
theorem getReservedKey_eq_ok {crypto : Crypto} {maker : KeyMaker} {locked : Bool} {keypool : ℤ} {vchPubKey : valtype}
    (done : reservekey.getReservedKey crypto maker locked keypool keys = (.ok (after, some vchPubKey), keys')) :
    vchPubKey = after.vchPubKey := by
  unfold CReserveKey.getReservedKey at done
  split at done
  · exact Option.some.inj (checked_eq_ok done)
  obtain ⟨reserved, keys, -, done⟩ := StateAction.bind_eq_ok.mp done
  obtain ⟨wallet, keys, -, done⟩ := StateAction.bind_eq_ok.mp done
  split at done
  · exact Option.some.inj (checked_eq_ok done)
  split at done
  · exact Option.some.inj (checked_eq_ok done)
  · cases done

theorem scriptChange_eq_ok {script : CScript}
    (done : spending.scriptChange reservekey keys = (.ok (after, script), keys')) :
    script = spending.changeScript after := by
  unfold changeScript
  cases custom : spending.customChange with
  | some destChange =>
    simp only [scriptChange, custom] at done
    cases done
    rfl
  | none =>
    simp only [scriptChange, custom] at done
    obtain ⟨⟨reserved, vchPubKey⟩, keys, key, done⟩ := StateAction.bind_eq_ok.mp done
    cases vchPubKey with
    | none => cases done
    | some vchPubKey =>
      cases done
      rw [Option.getD_none, getReservedKey_eq_ok key]

/-- Change goes to a new output or to the fee. -/
theorem addChange_eq_ok {vout' : List CTxOut} {nChange nFeeRet' : ℤ} (nonneg : 0 ≤ nChange)
    (done : spending.addChange chance reservekey vout nChange nFeeRet keys = (.ok (after, vout', nFeeRet'), keys')) :
    vout' = vout ∧ nFeeRet' = nFeeRet + nChange ∨ 0 < nChange ∧ nFeeRet' = nFeeRet ∧ ∃ i ≤ vout.length,
        vout' = vout.insertIdx i ⟨nChange, spending.changeScript after⟩ := by
  unfold addChange at done
  split at done
  next positive =>
    obtain ⟨⟨reserved, script⟩, keys, changed, done⟩ := StateAction.bind_eq_ok.mp done
    obtain ⟨fDust, -, done⟩ := lift_bind_eq_ok.mp done
    cases fDust with
    | true =>
      cases done
      exact Or.inl ⟨rfl, rfl⟩
    | false =>
      cases done
      have inside := chance.getRandInt_lt (vout.length + 1) (Nat.succ_pos _)
      exact Or.inr ⟨positive, rfl, _, Nat.lt_succ_iff.mp inside, by rw [scriptChange_eq_ok changed]⟩
  next nonpositive =>
    cases done
    exact Or.inl ⟨rfl, by omega⟩

/-- A draft spends what it pays, and pays the recipients. -/
structure Draft.Balanced (spending : Spending) (vecSend : List (CScript × ℤ)) (draft : Draft) : Prop where
  value : ∑ coin ∈ draft.setCoins, coin.nValue = (draft.tx.vout.map CTxOut.nValue).sum + draft.nFeeRet
  known : ∀ coin ∈ draft.setCoins, spending.wallet.mapWallet coin.hash = some coin.pcoin ∧ 0 < coin.nValue
  inputs : ∃ coins : List CoinRef, coins.Nodup ∧ (∀ coin, coin ∈ coins ↔ coin ∈ draft.setCoins) ∧
    draft.tx.prevouts = coins.map fun coin => ⟨coin.pcoin.tx.getHash spending.P, coin.i⟩
  outputs : draft.tx.vout = recipients vecSend ∨ ∃ i nChange, i ≤ vecSend.length ∧ 0 < nChange ∧
    draft.tx.vout = (recipients vecSend).insertIdx i ⟨nChange, spending.changeScript draft.reservekey⟩

theorem sum_recipients (vecSend : List (CScript × ℤ)) :
    ((recipients vecSend).map CTxOut.nValue).sum = (vecSend.map Prod.snd).sum := by
  rw [recipients, List.map_map]
  rfl

theorem sum_insertIdx {i : ℕ} (inside : i ≤ vout.length) (txout : CTxOut) :
    ((vout.insertIdx i txout).map CTxOut.nValue).sum = (vout.map CTxOut.nValue).sum + txout.nValue := by
  rw [((List.perm_insertIdx txout vout inside).map CTxOut.nValue).sum_eq, List.map_cons, List.sum_cons, add_comm]

/-- A round keeps the value and never lowers the fee. -/
theorem draft_eq_ok {vecSend : List (CScript × ℤ)} {nValue : ℤ} {wtxNew : CTransaction}
    {draft : Draft} (sum : nValue = (vecSend.map Prod.snd).sum)
    (done : spending.draft chance vecSend nValue wtxNew nFeeRet reservekey keys = (.ok draft, keys')) :
    draft.Balanced spending vecSend ∧ nFeeRet ≤ draft.nFeeRet := by
  obtain ⟨nTotalValue, inRange, done⟩ := lift_bind_eq_ok.mp done
  obtain ⟨-, rfl⟩ := int64_eq_ok.mp inRange
  obtain ⟨vout, paid, done⟩ := lift_bind_eq_ok.mp done
  obtain rfl := payees_eq_ok paid
  rw [get_bind] at done
  obtain ⟨selected, found, done⟩ := lift_bind_eq_ok.mp done
  cases selected with
  | none => cases done
  | some selected =>
    obtain ⟨setCoins, nValueIn⟩ := selected
    obtain ⟨value, reaches, known⟩ := selectCoins_eq_ok found
    obtain ⟨nChange, inRange, done⟩ := lift_bind_eq_ok.mp done
    obtain ⟨difference, inRange', inRange⟩ := Check.bind_eq_ok.mp inRange
    obtain ⟨-, rfl⟩ := int64_eq_ok.mp inRange'
    obtain ⟨-, rfl⟩ := int64_eq_ok.mp inRange
    obtain ⟨moved, moves, done⟩ := lift_bind_eq_ok.mp done
    obtain ⟨nonneg, most⟩ := nMoveToFee_eq_ok (by omega) moves
    obtain ⟨⟨after, vout, nFeeRet'⟩, keys, changed, done⟩ := StateAction.bind_eq_ok.mp done
    dsimp only at done
    rw [get_bind] at done
    obtain ⟨tx, signed, done⟩ := lift_bind_eq_ok.mp done
    cases done
    obtain ⟨sameOutputs, samePrevouts⟩ := signAll_eq_ok signed
    have inputs : ∃ coins : List CoinRef, coins.Nodup ∧ (∀ coin, coin ∈ coins ↔ coin ∈ setCoins) ∧
        tx.prevouts = coins.map fun coin => ⟨coin.pcoin.tx.getHash spending.P, coin.i⟩ := by
      refine ⟨chance.order setCoins, chance.order_nodup setCoins, chance.mem_order setCoins, samePrevouts.trans ?_⟩
      rw [CTransaction.prevouts, List.map_map]
      rfl
    have change := addChange_eq_ok (by omega) changed
    have outputs : tx.vout = vout := sameOutputs
    rcases change with ⟨rfl, rfl⟩ | ⟨positive, rfl, i, inside, rfl⟩
    · refine ⟨⟨?_, known, inputs, Or.inl outputs⟩, by dsimp only; omega⟩
      dsimp only
      rw [outputs, sum_recipients, ← sum, ← value]
      omega
    · have length : (recipients vecSend).length = vecSend.length := List.length_map _
      refine ⟨⟨?_, known, inputs, Or.inr ⟨i, _, length ▸ inside, positive, outputs⟩⟩, by dsimp only; omega⟩
      dsimp only
      rw [outputs, sum_insertIdx inside, sum_recipients, ← sum, ← value]
      dsimp only
      omega

/-- The fee that a transaction of limited size needs; `GetMinFee` asks for nothing. -/
theorem neededFee_eq_ok {tx : CTransaction} {needed : ℤ} (done : spending.neededFee chance tx = .ok needed) :
    tx.getSerializeSize < 96000 ∧
      needed = max (spending.fees.nTransactionFee * (1 + (tx.getSerializeSize / 1000 : ℕ))) 0 ∧
      tx.getMinFee spending.fees.nMinTxFee chance.fAllowFree = .ok 0 := by
  obtain ⟨_, small, done⟩ := Check.bind_eq_ok.mp done
  obtain ⟨nPayFee, inRange, done⟩ := Check.bind_eq_ok.mp done
  obtain ⟨-, rfl⟩ := int64_eq_ok.mp inRange
  cases done
  have small := (not_or.mp (rejectIf_eq_ok.mp small)).1
  have limit : MAX_STANDARD_TX_SIZE = 100000 := rfl
  exact ⟨by omega, rfl, rfl⟩

end Spending

end BitCrystal
