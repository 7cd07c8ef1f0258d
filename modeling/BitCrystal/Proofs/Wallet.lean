import BitCrystal.Model.Wallet
import Mathlib.Algebra.Order.BigOperators.Group.List

/-! # What the operations of a wallet do

Keys only make more outputs mine. Amounts within the money range never make a sum throw, and an update
marks the outputs that are mine, in the wallet and spent by the transaction.
-/

namespace BitCrystal

open txnouttype

namespace CKeyStore

variable {crypto : Crypto} {keystore more : CKeyStore}

private theorem isMineLoop_mono (keys : keystore.mapKeys ⊆ more.mapKeys)
    (scripts : more.mapScripts = keystore.mapScripts) {rounds : ℕ} {scriptPubKey : CScript}
    (mine : keystore.isMineLoop crypto rounds scriptPubKey = true) :
    more.isMineLoop crypto rounds scriptPubKey = true := by
  have have_of (address : valtype) (known : keystore.haveKey address = true) : more.haveKey address = true := by
    simp only [haveKey, decide_eq_true_eq] at known ⊢
    exact keys known
  induction rounds generalizing scriptPubKey with
  | zero => cases mine
  | succ rounds ih =>
    rw [isMineLoop] at mine ⊢
    simp only at mine ⊢
    split_ifs at mine ⊢ with solved
    cases type : (solver scriptPubKey).typeRet with
    | TX_NONSTANDARD =>
      rw [type] at mine
      cases mine
    | TX_PUBKEY =>
      simp only [type] at mine ⊢
      exact have_of _ mine
    | TX_PUBKEYHASH =>
      simp only [type] at mine ⊢
      exact have_of _ mine
    | TX_SCRIPTHASH =>
      simp only [type, getCScript, scripts] at mine ⊢
      split at mine
      · cases mine
      · exact ih mine
    | TX_MULTISIG =>
      simp only [type, haveKeys, decide_eq_true_eq, List.countP_eq_length] at mine ⊢
      exact fun pubkey member => have_of _ (mine pubkey member)

theorem isMine_mono (keys : keystore.mapKeys ⊆ more.mapKeys) (scripts : more.mapScripts = keystore.mapScripts)
    {scriptPubKey : CScript} (mine : keystore.isMine crypto scriptPubKey = true) :
    more.isMine crypto scriptPubKey = true := by
  rw [isMine, scripts]
  exact isMineLoop_mono keys scripts mine

end CKeyStore

namespace CWalletTx

variable {wtx : CWalletTx}

/-- The flag of an output is set. -/
def Spent (wtx : CWalletTx) (n : ℕ) : Prop := wtx.vfSpent.getD n false = true

theorem isSpent_eq {n : ℕ} (inside : n < wtx.tx.vout.length) : wtx.isSpent n = .ok (wtx.vfSpent.getD n false) := by
  rw [isSpent, rejectIf, if_neg (Nat.not_le.mpr inside)]
  rfl

/-- `MarkSpent` sets the flag of one output and no other. -/
theorem markSpent_eq {n : ℕ} (inside : n < wtx.tx.vout.length) : ∃ marked,
    wtx.markSpent n = .ok marked ∧ marked.tx = wtx.tx ∧ marked.Spent n ∧
      (∀ m, marked.Spent m → m = n ∨ wtx.Spent m) ∧
      ∀ m, m < wtx.tx.vout.length → wtx.Spent m → marked.Spent m := by
  have resized (m : ℕ) : ((wtx.vfSpent ++ List.replicate wtx.tx.vout.length false).take
      wtx.tx.vout.length).getD m false = true ↔ m < wtx.tx.vout.length ∧ wtx.Spent m := by
    rw [Spent, List.getD_eq_getElem?_getD, List.getD_eq_getElem?_getD, List.getElem?_take]
    split_ifs with within
    · rw [List.getElem?_append]
      split_ifs with short
      · simp [within]
      · rw [List.getElem?_replicate, List.getElem?_eq_none (Nat.not_lt.mp short)]
        split_ifs <;> simp
    · simp [within]
  have size : ((wtx.vfSpent ++ List.replicate wtx.tx.vout.length false).take wtx.tx.vout.length).length =
      wtx.tx.vout.length := by
    rw [List.length_take, List.length_append, List.length_replicate]
    omega
  rw [markSpent, rejectIf, if_neg (Nat.not_le.mpr inside)]
  simp only [Check.ok_bind]
  generalize (wtx.vfSpent ++ List.replicate wtx.tx.vout.length false).take wtx.tx.vout.length = vfSpent at resized size
  split_ifs with already
  · exact ⟨_, rfl, rfl, already, fun m spent => .inr ((resized m).mp spent).2,
      fun m within spent => (resized m).mpr ⟨within, spent⟩⟩
  · have flag (m : ℕ) : (vfSpent.set n true).getD m false = true ↔ m = n ∨ vfSpent.getD m false = true := by
      rw [List.getD_eq_getElem?_getD, List.getD_eq_getElem?_getD, List.getElem?_set]
      split_ifs with same within
      · simp [same]
      · rw [size] at within
        exact absurd inside within
      · rw [or_iff_right (Ne.symm same)]
    refine ⟨_, rfl, rfl, (flag n).mpr (.inl rfl), fun m spent => ?_, fun m within spent => ?_⟩
    · exact ((flag m).mp spent).imp_right fun set => ((resized m).mp set).2
    · exact (flag m).mpr (.inr ((resized m).mpr ⟨within, spent⟩))

theorem merge_tx (wtxIn : CWalletTx) : (wtx.merge wtxIn).2.tx = wtx.tx := rfl

/-- Without a new flag nothing changes. -/
theorem mergeSpent_eq {vfSpent vfNewSpent : List Bool}
    (same : ((vfSpent.zip vfNewSpent).any fun (fSpent, fNew) => fNew && !fSpent) = false) :
    mergeSpent vfSpent vfNewSpent = vfSpent := by
  induction vfSpent generalizing vfNewSpent with
  | nil => cases vfNewSpent <;> rfl
  | cons fSpent vfSpent ih =>
    cases vfNewSpent with
    | nil => rfl
    | cons fNew vfNewSpent =>
      rw [List.zip_cons_cons, List.any_cons, Bool.or_eq_false_iff] at same
      rw [mergeSpent, ih same.2]
      cases fSpent <;> cases fNew <;> first | rfl | cases same.1

/-- A merge with a transaction without flags leaves the flags. -/
theorem merge_vfSpent (position : CMerkleTx) :
    (wtx.merge { toCMerkleTx := position }).2.vfSpent = wtx.vfSpent := by
  simp only [merge, updateSpent]
  cases wtx.vfSpent <;> rfl

end CWalletTx

namespace CWallet

variable {crypto : Crypto} {wallet : CWallet}

private theorem inInt64_of_moneyRange {n : ℤ} (range : moneyRange n) : InInt64 n := by
  obtain ⟨low, high⟩ := range
  simp only [MAX_MONEY, COIN] at high
  constructor <;> omega

theorem debitLoop_eq {vin : List CTxIn} {nDebit : ℤ} (start : 0 ≤ nDebit)
    (low : ∀ txin ∈ vin, 0 ≤ wallet.debitOf crypto txin)
    (high : nDebit + (vin.map (wallet.debitOf crypto)).sum ≤ MAX_MONEY) :
    wallet.debitLoop crypto nDebit vin = .ok (nDebit + (vin.map (wallet.debitOf crypto)).sum) := by
  induction vin generalizing nDebit with
  | nil => simp [debitLoop]
  | cons txin rest ih =>
    have here := low txin (List.mem_cons_self ..)
    have others : ∀ txin ∈ rest, 0 ≤ wallet.debitOf crypto txin := fun txin member =>
      low txin (List.mem_cons_of_mem _ member)
    have positive : 0 ≤ (rest.map (wallet.debitOf crypto)).sum := List.sum_nonneg (by simpa using others)
    rw [List.map_cons, List.sum_cons, ← add_assoc] at high ⊢
    have range : moneyRange (nDebit + wallet.debitOf crypto txin) := ⟨by omega, by omega⟩
    rw [debitLoop, int64, if_pos (inInt64_of_moneyRange range), Check.ok_bind, rejectIf, if_neg (not_not.mpr range),
      Check.ok_bind, ih range.1 others high]

theorem creditLoop_ok {vout : List CTxOut} {nCredit : ℤ} (start : 0 ≤ nCredit)
    (low : ∀ txout ∈ vout, 0 ≤ txout.nValue) (high : nCredit + (vout.map CTxOut.nValue).sum ≤ MAX_MONEY) :
    ∃ total, wallet.creditLoop crypto nCredit vout = .ok total := by
  induction vout generalizing nCredit with
  | nil => exact ⟨nCredit, rfl⟩
  | cons txout rest ih =>
    have here := low txout (List.mem_cons_self ..)
    have others : ∀ txout ∈ rest, 0 ≤ txout.nValue := fun txout member => low txout (List.mem_cons_of_mem _ member)
    have positive : 0 ≤ (rest.map CTxOut.nValue).sum := List.sum_nonneg (by simpa using others)
    rw [List.map_cons, List.sum_cons] at high
    have value : moneyRange txout.nValue := ⟨here, by omega⟩
    have share : 0 ≤ (if wallet.isMine crypto txout then txout.nValue else 0) ∧
        (if wallet.isMine crypto txout then txout.nValue else 0) ≤ txout.nValue := by
      split_ifs
      · exact ⟨here, le_rfl⟩
      · exact ⟨le_rfl, here⟩
    have range : moneyRange (nCredit + if wallet.isMine crypto txout then txout.nValue else 0) :=
      ⟨by omega, by omega⟩
    rw [creditLoop, rejectIf, if_neg (not_not.mpr value), Check.ok_bind, int64, if_pos (inInt64_of_moneyRange range),
      Check.ok_bind, rejectIf, if_neg (not_not.mpr range), Check.ok_bind]
    exact ih range.1 others (by omega)

theorem getCredit_ok (crypto : Crypto) (wallet : CWallet) {wtx : CWalletTx} (blocksToMaturity : CMerkleTx → ℤ)
    (low : ∀ txout ∈ wtx.tx.vout, 0 ≤ txout.nValue)
    (high : (wtx.tx.vout.map CTxOut.nValue).sum ≤ MAX_MONEY) : ∃ nCredit cached,
    wallet.getCredit crypto blocksToMaturity wtx = .ok (nCredit, cached) ∧ cached.tx = wtx.tx ∧
      cached.vfSpent = wtx.vfSpent := by
  rw [getCredit]
  split_ifs
  · exact ⟨0, wtx, rfl, rfl, rfl⟩
  · split
    · exact ⟨_, wtx, rfl, rfl, rfl⟩
    · obtain ⟨total, looped⟩ : ∃ total, wallet.creditLoop crypto 0 wtx.tx.vout = .ok total :=
        creditLoop_ok le_rfl low (by omega)
      rw [looped]
      exact ⟨total, _, rfl, rfl, rfl⟩

end CWallet

end BitCrystal
