import BitCrystal.Proofs.Accounts
import BitCrystal.Soundness.SpentFlags
import BitCrystal.Soundness.MainChain

/-! # The views of the balance

`listaccounts` is the sum of the movements of all transactions. `GetAccountBalance` is the same for one
account if every transaction is final, and `getbalance "*"` leaves out what is not confirmed.
-/

namespace BitCrystal

open TestNet Check CWallet

namespace CWalletFile

variable {crypto : Crypto} {P : Platform} {node : Node} {file : CWalletFile} {nMinDepth : ℤ}

theorem accountAmount_of_final {wtx : CWalletTx} {amounts : TxAmounts}
    (found : file.getAmounts crypto wtx = .ok amounts) (final : wtx.tx.isFinal P node.nBestHeight)
    (strAccount : String) :
    file.accountAmount crypto P node strAccount nMinDepth wtx =
      .ok (Tally.sumOf (movementsOf crypto P node file nMinDepth wtx) strAccount) := by
  rw [accountAmount, if_neg (not_not.mpr final), getAccountAmounts, found, movementsOf, found, sumOf_movements]
  simp only [ok_bind, pure_eq_ok, pure_bind]
  rw [ite_and, ite_not]
  split_ifs with shallow nothing <;> simp_all

theorem netAmount_eq {wtx : CWalletTx} {amounts : TxAmounts} (found : file.getAmounts crypto wtx = .ok amounts) :
    file.netAmount crypto P node nMinDepth wtx =
      .ok ((movementsOf crypto P node file nMinDepth wtx).map Prod.snd).sum := by
  rw [netAmount, found, movementsOf, found, sum_movements]
  rfl

/-- The net amounts of the transactions that `getbalance "*"` leaves out. -/
def leftOut (crypto : Crypto) (P : Platform) (node : Node) (file : CWalletFile) (rounds : ℕ) (nMinDepth : ℤ) : ℤ :=
  (file.transactions.map fun wtx => if file.isConfirmed crypto P node wtx rounds = .ok true then 0
    else (file.netAmount crypto P node nMinDepth wtx).orZero).sum

/-- If every transaction is final, `listaccounts` has the balance of every account. Its sum is the balance
of the server and the net amounts of what is not confirmed, if the accounting entries sum to zero. -/
theorem listaccounts_agrees {balances : Tally String ℤ}
    (listed : file.listaccounts crypto P node nMinDepth = .ok balances) :
    ((∀ wtx ∈ file.transactions, wtx.tx.isFinal P node.nBestHeight) → ∀ strAccount, strAccount ≠ "*" →
      file.getAccountBalance crypto P node strAccount nMinDepth = .ok (balances.value strAccount)) ∧
    ((file.acentries.map Prod.snd).sum = 0 → ∀ rounds nBalance,
      file.getbalance crypto P node rounds nMinDepth = .ok nBalance →
      balances.total = nBalance + leftOut crypto P node file rounds nMinDepth) := by
  obtain ⟨each, value, total⟩ := listaccounts_ok listed
  constructor
  · intro final strAccount named
    have looped : file.accumulate (file.accountAmount crypto P node strAccount nMinDepth) = .ok
        (file.transactions.map fun wtx =>
          Tally.sumOf (movementsOf crypto P node file nMinDepth wtx) strAccount).sum := by
      have amountOf : ∀ wtx ∈ file.transactions, file.accountAmount crypto P node strAccount nMinDepth wtx =
          .ok (Tally.sumOf (movementsOf crypto P node file nMinDepth wtx) strAccount) := by
        intro wtx member
        obtain ⟨amounts, found⟩ := each wtx member
        exact accountAmount_of_final found (final wtx member) strAccount
      refine accumulate_eq_ok.mpr ⟨fun wtx member => ⟨_, amountOf wtx member⟩, congrArg _ ?_⟩
      apply List.map_congr_left
      intro wtx member
      rw [amountOf wtx member, orZero_ok]
    have entries : file.getAccountCreditDebit strAccount = Tally.sumOf file.acentries strAccount := by
      rw [getAccountCreditDebit, listAccountCreditDebit, Tally.sumOf]
      simp only [named, false_or]
    rw [getAccountBalance, looped, ok_bind, value, entries]
    rfl
  · intro balanced rounds nBalance ran
    obtain ⟨-, rfl⟩ := accumulate_eq_ok.mp ran
    rw [total, balanced, add_zero, leftOut]
    simp only [netIfConfirmed, orZero_ifConfirmed]
    rw [← sum_map_if]
    congr 1
    apply List.map_congr_left
    intro wtx member
    obtain ⟨amounts, found⟩ := each wtx member
    rw [netAmount_eq found, orZero_ok]

end CWalletFile

namespace TestNet

/-- A wallet with the key of the test network and the given transactions. -/
def fileOf (records : List (Uint256 × CWalletTx)) (sorted : (records.map Prod.fst).Pairwise (· < ·)) : CWalletFile where
  keystore := { mapKeys := [walletKey] }
  mapWallet hash := List.lookup hash records
  hashes := records.map Prod.fst
  acentries := []
  sorted := sorted
  complete hash := by
    constructor
    · intro member absent
      obtain ⟨record, found, rfl⟩ := List.mem_map.mp member
      simpa using List.lookup_eq_none_iff.mp absent record found
    · intro present
      by_contra absent
      refine present (List.lookup_eq_none_iff.mpr fun record found => ?_)
      rw [bne_iff_ne]
      rintro rfl
      exact absent (List.mem_map_of_mem found)

/-- A payment to the wallet that may still be replaced. -/
def replaceable (nValue : ℤ) : CTransaction :=
  { paymentOf nValue with vin := [{ prevout := ⟨7, 0⟩, scriptSig := [], nSequence := 0 }], nLockTime := 3 }

def received : CWalletFile := fileOf [(2001, { tx := payment }), (3001, { tx := replaceable 700 })] (by decide)

def receivedFinal : CWalletFile := fileOf [(2001, { tx := payment })] (by decide)

end TestNet

theorem CWalletFile.listaccounts_agrees_received :
    receivedFinal.getAccountBalance digests platform started "" 0 = .ok 50000 ∧
      (50000 : ℤ) = 0 + leftOut digests platform started receivedFinal 0 0 := by
  have listed : receivedFinal.listaccounts digests platform started 0 = .ok [("", 50000)] := by decide
  have final : ∀ wtx ∈ receivedFinal.transactions, wtx.tx.isFinal platform started.nBestHeight := by decide
  have nothing : receivedFinal.getbalance digests platform started 0 0 = .ok 0 := by decide
  obtain ⟨accounts, total⟩ := CWalletFile.listaccounts_agrees listed
  exact ⟨accounts final "" (by decide), total rfl 0 0 nothing⟩

/-- Neither payment is confirmed and one is not final: three views, three values. -/
theorem CWalletFile.account_views_differ :
    received.listaccounts digests platform started 0 = .ok [("", 50700)] ∧
    received.getAccountBalance digests platform started "" 0 = .ok 50000 ∧
    received.getbalance digests platform started 0 0 = .ok 0 ∧
    (received.acentries.map Prod.snd).sum = 0 := by decide

/-! ## The two ways to compute the balance

`GetBalance` leaves out the spent outputs of confirmed transactions and their immature coinbases,
`getbalance "*"` takes off what the inputs of confirmed transactions spend. The two agree when this is
the same output for output, and else only by chance.
-/

open Node Forest

namespace CWalletFile

variable {crypto : Crypto} {P : Platform} {node : Node} {file : CWalletFile} {rounds : ℕ}

/-- What the outputs of a wallet transaction are worth to the wallet. -/
def outputsOf (crypto : Crypto) (file : CWalletFile) (hash : Uint256) : List (COutPoint × ℤ) :=
  (file.mapWallet hash).elim [] fun wtx =>
    wtx.tx.vout.zipIdx.map fun (txout, n) => (⟨hash, n⟩, file.valueOf crypto txout)

def ownOutputs (crypto : Crypto) (file : CWalletFile) : List (COutPoint × ℤ) :=
  file.hashes.flatMap (outputsOf crypto file)

/-- What the wallet transactions spend. -/
def prevouts (file : CWalletFile) : List COutPoint := file.transactions.flatMap fun wtx => wtx.tx.prevouts

def confirmedTransactions (crypto : Crypto) (P : Platform) (node : Node) (file : CWalletFile) (rounds : ℕ) :
    List CWalletTx :=
  file.transactions.filter fun wtx => file.isConfirmed crypto P node wtx rounds = .ok true

def confirmedPrevouts (crypto : Crypto) (P : Platform) (node : Node) (file : CWalletFile) (rounds : ℕ) :
    List COutPoint :=
  (file.confirmedTransactions crypto P node rounds).flatMap fun wtx => wtx.tx.prevouts

/-- The output of a confirmed transaction that `GetBalance` leaves out: it is spent or immature. -/
def hides (crypto : Crypto) (P : Platform) (node : Node) (file : CWalletFile) (rounds : ℕ) (out : COutPoint) : Bool :=
  (file.mapWallet out.hash).any fun wtx =>
    file.isConfirmed crypto P node wtx rounds = .ok true ∧ (wtx.isImmature P node ∨ out ∈ file.prevouts)

/-- The flags mark the outputs of the wallet that a wallet transaction spends. -/
def SpentExactly (crypto : Crypto) (file : CWalletFile) : Prop :=
  ∀ hash wtx n txout, file.mapWallet hash = some wtx → wtx.tx.vout[n]? = some txout → file.isMine crypto txout →
    (wtx.vfSpent.getD n false = true ↔ ⟨hash, n⟩ ∈ file.prevouts)

theorem mem_transactions {hash : Uint256} {wtx : CWalletTx} (found : file.mapWallet hash = some wtx) :
    wtx ∈ file.transactions :=
  List.mem_filterMap.mpr ⟨hash, (file.complete hash).mpr (by simp [found]), found⟩

theorem SpentExactly.of_listed (each : ∀ hash ∈ file.hashes, ∀ wtx ∈ file.mapWallet hash,
    ∀ entry ∈ wtx.tx.vout.zipIdx, file.isMine crypto entry.1 →
      (wtx.vfSpent.getD entry.2 false = true ↔ ⟨hash, entry.2⟩ ∈ file.prevouts)) : file.SpentExactly crypto := by
  intro hash wtx n txout found there mine
  exact each hash ((file.complete hash).mpr (by simp [found])) wtx found (txout, n)
    (List.mk_mem_zipIdx_iff_getElem?.mpr there) mine

/-- An own output with a value is spent by one confirmed transaction if it is left out, and else by none. The change of a
confirmed send is mine. -/
structure Settled (crypto : Crypto) (P : Platform) (node : Node) (file : CWalletFile) (rounds : ℕ) : Prop where
  cached : ∀ wtx ∈ file.transactions, file.RightlyCached crypto wtx
  spent : ∀ out nValue, (out, nValue) ∈ file.ownOutputs crypto → nValue ≠ 0 →
    (file.confirmedPrevouts crypto P node rounds).count out = if file.hides crypto P node rounds out then 1 else 0
  change : ∀ wtx ∈ file.confirmedTransactions crypto P node rounds, 0 < file.spending crypto wtx.tx.vin →
    ∀ txout ∈ wtx.tx.vout, file.isChange crypto txout → txout.nValue = 0 ∨ file.isMine crypto txout

/-- Confirmed transactions spend no own output twice, and none that `GetBalance` counts. -/
structure Orderly (crypto : Crypto) (P : Platform) (node : Node) (file : CWalletFile) (rounds : ℕ) : Prop where
  cached : ∀ wtx ∈ file.transactions, file.RightlyCached crypto wtx
  values : ∀ wtx ∈ file.transactions, ∀ txout ∈ wtx.tx.vout, 0 ≤ txout.nValue
  spent : ∀ out nValue, (out, nValue) ∈ file.ownOutputs crypto → nValue ≠ 0 →
    (file.confirmedPrevouts crypto P node rounds).count out ≤ if file.hides crypto P node rounds out then 1 else 0

/-- The sum over the outputs of the wallet that are not hidden as often as a confirmed transaction spends them. -/
def mismatch (crypto : Crypto) (P : Platform) (node : Node) (file : CWalletFile) (rounds : ℕ) : ℤ :=
  ((file.ownOutputs crypto).map fun (out, nValue) =>
    ((if file.hides crypto P node rounds out then 1 else 0) -
      ((file.confirmedPrevouts crypto P node rounds).count out : ℤ)) * nValue).sum

/-- The sum over the change of confirmed transactions that is not mine. -/
def lostChange (crypto : Crypto) (P : Platform) (node : Node) (file : CWalletFile) (rounds : ℕ) : ℤ :=
  ((file.confirmedTransactions crypto P node rounds).map fun wtx =>
    if 0 < file.spending crypto wtx.tx.vin then file.foreignChange crypto wtx.tx.vout else 0).sum

theorem ownOutputs_nonneg (orderly : file.Orderly crypto P node rounds) {out : COutPoint} {nValue : ℤ}
    (member : (out, nValue) ∈ file.ownOutputs crypto) : 0 ≤ nValue := by
  obtain ⟨hash, -, listed⟩ := List.mem_flatMap.mp member
  rw [outputsOf] at listed
  cases found : file.mapWallet hash with
  | none =>
    rw [found] at listed
    cases listed
  | some wtx =>
    rw [found, Option.elim_some] at listed
    obtain ⟨⟨txout, n⟩, inside, same⟩ := List.mem_map.mp listed
    cases same
    rw [CWallet.valueOf]
    split_ifs
    · exact orderly.values wtx (mem_transactions found) txout (List.fst_mem_of_mem_zipIdx inside)
    · exact le_rfl

/-- No term is negative if confirmed transactions spend only what is left out, so none is there if they sum to zero. -/
theorem Orderly.settled (orderly : file.Orderly crypto P node rounds)
    (zero : file.mismatch crypto P node rounds + file.lostChange crypto P node rounds = 0) :
    file.Settled crypto P node rounds := by
  have terms : ∀ term ∈ (file.ownOutputs crypto).map fun (out, nValue) =>
      ((if file.hides crypto P node rounds out then 1 else 0) -
        ((file.confirmedPrevouts crypto P node rounds).count out : ℤ)) * nValue, 0 ≤ term := by
    intro term member
    obtain ⟨⟨out, nValue⟩, present, rfl⟩ := List.mem_map.mp member
    rcases eq_or_ne nValue 0 with rfl | valued
    · exact (mul_zero _).ge
    · have fewer := orderly.spent out nValue present valued
      apply mul_nonneg _ (ownOutputs_nonneg orderly present)
      split_ifs at fewer ⊢ <;> omega
  have foreign : ∀ wtx ∈ file.confirmedTransactions crypto P node rounds, ∀ amount ∈ (wtx.tx.vout.filter fun txout =>
      file.isChange crypto txout ∧ ¬ file.isMine crypto txout).map CTxOut.nValue, 0 ≤ amount := by
    intro wtx member amount listed
    obtain ⟨txout, present, rfl⟩ := List.mem_map.mp listed
    exact orderly.values wtx (List.mem_of_mem_filter member) txout (List.mem_of_mem_filter present)
  have changes : ∀ term ∈ (file.confirmedTransactions crypto P node rounds).map fun wtx =>
      if 0 < file.spending crypto wtx.tx.vin then file.foreignChange crypto wtx.tx.vout else 0, 0 ≤ term := by
    intro term member
    obtain ⟨wtx, present, rfl⟩ := List.mem_map.mp member
    split_ifs
    · exact List.sum_nonneg (foreign wtx present)
    · exact le_rfl
  have outputsZero : file.mismatch crypto P node rounds = 0 :=
    le_antisymm (by have := List.sum_nonneg changes; rw [lostChange] at zero; omega) (List.sum_nonneg terms)
  have changeZero : file.lostChange crypto P node rounds = 0 := by omega
  refine ⟨orderly.cached, fun out nValue present valued => ?_, fun wtx member sent txout present change => ?_⟩
  · have term := List.all_zero_of_le_zero_le_of_sum_eq_zero terms outputsZero (List.mem_map_of_mem present)
    have equal := (mul_eq_zero.mp term).resolve_right valued
    split_ifs at equal ⊢ <;> omega
  · by_contra other
    rw [not_or] at other
    have term := List.all_zero_of_le_zero_le_of_sum_eq_zero changes changeZero (List.mem_map_of_mem member)
    rw [if_pos sent] at term
    exact other.1 (List.all_zero_of_le_zero_le_of_sum_eq_zero (foreign wtx member) term
      (List.mem_map_of_mem (List.mem_filter.mpr ⟨present, decide_eq_true ⟨change, other.2⟩⟩)))

end CWalletFile

namespace TestNet

/-- A coinbase for the wallet's key. -/
def minted : CTransaction := { coinbase 4 0 with vout := (paymentOf 70000).vout }

/-- A chain of one block, which contains the transaction with the given hash only. -/
def singleBlock (hashMerkleRoot : Uint256) : Node where
  mapBlockIndex := treeOf [(5, { phashBlock := some 5, hashMerkleRoot })]
  pindexGenesisBlock := some 5
  pindexBest := some 5
  hashBestChain := 5
  nBestHeight := 0
  pcoinsTip := { base := ⟨fun _ => none, some 5⟩ }

/-- The transaction in the only block of the chain. -/
def inBlock (tx : CTransaction) : CWalletTx := { tx, hashBlock := 5, nIndex := 0 }

end TestNet

end BitCrystal
