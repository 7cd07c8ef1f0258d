import BitCrystal.Model.Accounts
import Mathlib.Algebra.BigOperators.Ring.List
import Mathlib.Tactic.Abel
import BitCrystal.Proofs.Amounts
import BitCrystal.Proofs.Wallet

/-! # What the views of a wallet add up

Every view is a sum over the transactions, and what `listaccounts` does for one transaction is a list
of movements on accounts.
-/

namespace BitCrystal

open Check Tally

/-- The value of a computation, or zero if it fails. -/
def Check.orZero (computed : Check ℤ) : ℤ := computed.toOption.getD 0

@[simp] theorem Check.orZero_ok (n : ℤ) : orZero (.ok n) = n := rfl

namespace CWalletFile

variable {crypto : Crypto} {P : Platform} {node : Node} {file : CWalletFile} {nMinDepth : ℤ}

private theorem foldlM_sum {amount : CWalletTx → Check ℤ} {transactions : List CWalletTx} {start total : ℤ} :
    transactions.foldlM (fun nTotal wtx => do
        let nAmount ← amount wtx
        return nTotal + nAmount) start = .ok total ↔
      (∀ wtx ∈ transactions, ∃ n, amount wtx = .ok n) ∧
        total = start + (transactions.map fun wtx => (amount wtx).orZero).sum := by
  induction transactions generalizing start with
  | nil => simp [pure, Except.pure, eq_comm]
  | cons wtx rest ih =>
    rw [List.foldlM_cons, List.forall_mem_cons]
    cases first : amount wtx with
    | error failure => simp
    | ok n =>
      rw [ok_bind, pure_bind, ih, List.map_cons, List.sum_cons, first, orZero_ok, add_assoc]
      simp

theorem accumulate_eq_ok {amount : CWalletTx → Check ℤ} {total : ℤ} :
    file.accumulate amount = .ok total ↔ (∀ wtx ∈ file.transactions, ∃ n, amount wtx = .ok n) ∧
      total = (file.transactions.map fun wtx => (amount wtx).orZero).sum := by
  rw [accumulate, foldlM_sum, zero_add]

theorem sum_map_if {p : CWalletTx → Prop} [DecidablePred p] {amount : CWalletTx → ℤ} (transactions : List CWalletTx) :
    (transactions.map amount).sum = (transactions.map fun wtx => if p wtx then amount wtx else 0).sum +
      (transactions.map fun wtx => if p wtx then 0 else amount wtx).sum := by
  rw [← List.sum_map_add]
  congr 1
  apply List.map_congr_left
  intro wtx _
  split_ifs
  · rw [add_zero]
  · rw [zero_add]

/-- Both balances of a wallet add up amounts of confirmed transactions. -/
theorem orZero_ifConfirmed {rounds : ℕ} {wtx : CWalletTx} (amount : Check ℤ) : orZero (do
      let fConfirmed ← file.isConfirmed crypto P node wtx rounds if fConfirmed then amount else .ok 0) =
        if file.isConfirmed crypto P node wtx rounds = .ok true then amount.orZero else 0 := by
  cases file.isConfirmed crypto P node wtx rounds with
  | error failure => rw [error_bind, if_neg nofun]; rfl
  | ok fConfirmed => cases fConfirmed <;> rfl

/-- The movements that a transaction causes on accounts. -/
def movements (P : Platform) (node : Node) (file : CWalletFile) (nMinDepth : ℤ) (wtx : CWalletTx)
    (amounts : TxAmounts) : List (String × ℤ) :=
  (amounts.strSentAccount, -amounts.nFee) :: (amounts.listSent.map fun s => (amounts.strSentAccount, -s.2)) ++
    if nMinDepth ≤ wtx.getDepthInMainChain P node then amounts.listReceived.map fun r => (file.accountOf r.1, r.2)
    else []

theorem addToAccounts_eq_ok {accounts accounts' : Tally String ℤ} {wtx : CWalletTx} :
    file.addToAccounts crypto P node nMinDepth accounts wtx = .ok accounts' ↔
      ∃ amounts, file.getAmounts crypto wtx = .ok amounts ∧
        accounts' = accounts.addAll (movements P node file nMinDepth wtx amounts) := by
  rw [addToAccounts, bind_eq_ok]
  apply exists_congr
  intro amounts
  apply and_congr_right
  intro _
  rw [pure_eq_ok, eq_comm, movements]
  split_ifs
  · simp only [addAll, List.foldl_append, List.cons_append, List.foldl_cons]
  · simp only [addAll, List.append_nil, List.foldl_cons]

private theorem sum_neg_values (payments : List (CTxDestination × ℤ)) :
    (payments.map fun s => -s.2).sum = -CWallet.sumOfValues payments := by
  rw [CWallet.sumOfValues, List.sum_neg, List.map_map]
  rfl

theorem sum_movements (wtx : CWalletTx) (amounts : TxAmounts) :
    ((movements P node file nMinDepth wtx amounts).map Prod.snd).sum =
      (if nMinDepth ≤ wtx.getDepthInMainChain P node then CWallet.sumOfValues amounts.listReceived else 0) -
        CWallet.sumOfValues amounts.listSent - amounts.nFee := by
  rw [movements, List.map_append, List.sum_append, List.map_cons, List.sum_cons, List.map_map]
  change -amounts.nFee + (amounts.listSent.map fun s => -s.2).sum + _ = _
  rw [sum_neg_values]
  split_ifs
  · rw [List.map_map, CWallet.sumOfValues, CWallet.sumOfValues]
    change _ + (amounts.listReceived.map Prod.snd).sum = _
    ring
  · rw [List.map_nil, List.sum_nil]
    ring

/-- An account is moved by what it received, less what it sent. -/
theorem sumOf_movements (wtx : CWalletTx) (amounts : TxAmounts) (strAccount : String) :
    sumOf (movements P node file nMinDepth wtx amounts) strAccount =
      (if nMinDepth ≤ wtx.getDepthInMainChain P node then
        CWallet.sumOfValues (amounts.listReceived.filter (file.isReceivedBy strAccount)) else 0) -
      ((if strAccount = amounts.strSentAccount then CWallet.sumOfValues amounts.listSent else 0) +
        if strAccount = amounts.strSentAccount then amounts.nFee else 0) := by
  have received : (amounts.listReceived.filter fun r => file.accountOf r.1 = strAccount) =
      amounts.listReceived.filter (file.isReceivedBy strAccount) := by
    apply List.filter_congr
    intro r _
    rw [accountOf, CWallet.isReceivedBy]
    cases file.mapAddressBook.lookup r.1 with
    | none => simp [eq_comm]
    | some name => simp
  rw [movements, sumOf_append, sumOf_cons, sumOf_map_const, sum_neg_values]
  simp only [eq_comm (a := amounts.strSentAccount)]
  have rest : sumOf (if nMinDepth ≤ wtx.getDepthInMainChain P node then
        amounts.listReceived.map fun r => (file.accountOf r.1, r.2) else []) strAccount =
      if nMinDepth ≤ wtx.getDepthInMainChain P node then
        CWallet.sumOfValues (amounts.listReceived.filter (file.isReceivedBy strAccount)) else 0 := by
    split_ifs
    · rw [sumOf_map, received]
      rfl
    · exact sumOf_nil _
  rw [rest]
  split_ifs <;> ring

/-- The movements of a transaction whose amounts are in range. -/
def movementsOf (crypto : Crypto) (P : Platform) (node : Node) (file : CWalletFile) (nMinDepth : ℤ) (wtx : CWalletTx) :
    List (String × ℤ) :=
  match file.getAmounts crypto wtx with
  | .ok amounts => movements P node file nMinDepth wtx amounts
  | .error _ => []

private theorem foldlM_addToAccounts {transactions : List CWalletTx} {accounts balances : Tally String ℤ}
    (ran : transactions.foldlM (file.addToAccounts crypto P node nMinDepth) accounts = .ok balances) :
    (∀ wtx ∈ transactions, ∃ amounts, file.getAmounts crypto wtx = .ok amounts) ∧
      balances = accounts.addAll (transactions.flatMap (movementsOf crypto P node file nMinDepth)) := by
  induction transactions generalizing accounts with
  | nil => exact ⟨List.forall_mem_nil _, (pure_eq_ok.mp ran).symm⟩
  | cons wtx rest ih =>
    rw [List.foldlM_cons, bind_eq_ok] at ran
    obtain ⟨accounts', first, ran⟩ := ran
    obtain ⟨amounts, found, rfl⟩ := addToAccounts_eq_ok.mp first
    obtain ⟨others, rfl⟩ := ih ran
    refine ⟨List.forall_mem_cons.mpr ⟨⟨amounts, found⟩, others⟩, ?_⟩
    rw [List.flatMap_cons, addAll_append, movementsOf, found]

private theorem touched (entries : List (CTxDestination × String)) {accounts : Tally String ℤ}
    (blank : ∀ name, accounts.value name = 0) (empty : accounts.total = 0) :
    (∀ name, (entries.foldl (fun accounts entry => accounts.touch entry.2) accounts).value name = 0) ∧
      (entries.foldl (fun accounts entry => accounts.touch entry.2) accounts).total = 0 := by
  induction entries generalizing accounts with
  | nil => exact ⟨blank, empty⟩
  | cons entry rest ih =>
    apply ih
    · exact fun name => (value_touch ..).trans (blank name)
    · exact (total_touch ..).trans empty

/-- What `listaccounts` reports: the movements of all transactions and the accounting entries. -/
theorem listaccounts_ok {balances : Tally String ℤ} (ran : file.listaccounts crypto P node nMinDepth = .ok balances) :
    (∀ wtx ∈ file.transactions, ∃ amounts, file.getAmounts crypto wtx = .ok amounts) ∧
    (∀ strAccount, balances.value strAccount =
      (file.transactions.map fun wtx => sumOf (movementsOf crypto P node file nMinDepth wtx) strAccount).sum +
        sumOf file.acentries strAccount) ∧ balances.total = (file.transactions.map fun wtx =>
        ((movementsOf crypto P node file nMinDepth wtx).map Prod.snd).sum).sum +
      (file.acentries.map Prod.snd).sum := by
  rw [listaccounts, bind_eq_ok] at ran
  obtain ⟨accounts, looped, added⟩ := ran
  obtain ⟨each, rfl⟩ := foldlM_addToAccounts looped
  have entries : file.listAccountCreditDebit "*" = file.acentries := by simp [listAccountCreditDebit]
  rw [pure_eq_ok, entries] at added
  have zero : (∀ name : String, value ([] : Tally String ℤ) name = 0) ∧ Tally.total ([] : Tally String ℤ) = 0 :=
    ⟨fun _ => rfl, rfl⟩
  obtain ⟨blank, empty⟩ := touched
    (file.mapAddressBook.filter fun entry => file.keystore.isMineDestination entry.1) zero.1 zero.2
  subst added
  refine ⟨each, fun strAccount => ?_, ?_⟩
  · rw [value_addAll, value_addAll, blank, zero_add, sumOf_flatMap]
  · rw [total_addAll, total_addAll, empty, zero_add, List.flatMap, List.map_flatten, List.sum_flatten]
    simp only [List.map_map]
    rfl

end CWalletFile

/-! ## What one transaction adds to the balances

The loop of `GetAvailableCredit` adds the outputs that are mine and not marked. What `GetAmounts`
received, less what it sent, is the credit less the debit: change is neither sent nor received, so it
has to be mine.
-/

namespace CWallet

variable {crypto : Crypto} {P : Platform} {node : Node} {wallet : CWallet} {wtx : CWalletTx}

/-- `GetCredit` of an output in range. -/
def valueOf (crypto : Crypto) (wallet : CWallet) (txout : CTxOut) : ℤ :=
  if wallet.isMine crypto txout then txout.nValue else 0

/-- The change that is not mine: a known script whose keys are not all here. -/
def foreignChange (crypto : Crypto) (wallet : CWallet) (vout : List CTxOut) : ℤ :=
  ((vout.filter fun txout => wallet.isChange crypto txout ∧ ¬ wallet.isMine crypto txout).map CTxOut.nValue).sum

/-- What the inputs take from outputs that are mine. -/
def spending (crypto : Crypto) (wallet : CWallet) (vin : List CTxIn) : ℤ := (vin.map (wallet.debitOf crypto)).sum

/-- The cached debit and the cached available credit are those that would be computed. -/
structure RightlyCached (crypto : Crypto) (wallet : CWallet) (wtx : CWalletTx) : Prop where
  debit : ∀ nDebit ∈ wtx.nDebitCached, wallet.getDebit crypto wtx.tx = .ok nDebit
  availableCredit : ∀ nCredit ∈ wtx.nAvailableCreditCached, wallet.availableLoop crypto wtx 0 0 wtx.tx.vout = .ok nCredit

/-- The outputs that are mine and not marked as spent. -/
def unspent (crypto : Crypto) (wallet : CWallet) (wtx : CWalletTx) : ℤ :=
  (wtx.tx.vout.zipIdx.map fun (txout, n) => if wtx.vfSpent.getD n false then 0 else wallet.valueOf crypto txout).sum

end CWallet

end BitCrystal
