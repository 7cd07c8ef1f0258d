import BitCrystal.Soundness.BalanceAgreement
import BitCrystal.Soundness.CommitTransaction

/-! # Cached amounts

Five amounts of a wallet transaction are kept once they are known. They stay right as long as the keys, the transactions
and the address book that they are made of do not change behind them. `MarkDirty` leaves one of the five, and nothing is
marked when a transaction arrives that another one spends, or when an address gets a name.
-/

namespace BitCrystal

open StateAction Function

namespace CWallet

variable (crypto : Crypto) (wallet later : CWallet)

/-- Outputs with a value are mine in both wallets or in none. -/
def SameMine (vout : List CTxOut) : Prop :=
  ∀ txout ∈ vout, txout.nValue ≠ 0 → later.isMine crypto txout = wallet.isMine crypto txout

/-- And they are change in both or in none. -/
def SameChange (vout : List CTxOut) : Prop :=
  ∀ txout ∈ vout, txout.nValue ≠ 0 → later.isChange crypto txout = wallet.isChange crypto txout

def SameDebit (vin : List CTxIn) : Prop := ∀ txin ∈ vin, later.debitOf crypto txin = wallet.debitOf crypto txin

/-- What the cached amounts of a record are made of is the same in both wallets. -/
structure Steady (wtx : CWalletTx) : Prop where
  debit : wtx.nDebitCached ≠ none → SameDebit crypto wallet later wtx.tx.vin
  credit : wtx.nCreditCached ≠ none ∨ wtx.nImmatureCreditCached ≠ none ∨ wtx.nAvailableCreditCached ≠ none →
    SameMine crypto wallet later wtx.tx.vout
  change : wtx.nChangeCached ≠ none → SameChange crypto wallet later wtx.tx.vout

/-- Two wallets in which the amounts are the same. -/
structure Alike : Prop where
  isMine : later.isMine crypto = wallet.isMine crypto
  isChange : later.isChange crypto = wallet.isChange crypto
  debitOf : later.debitOf crypto = wallet.debitOf crypto

variable {crypto wallet later} {wtx other : CWalletTx} {vin : List CTxIn} {vout : List CTxOut}

theorem share_congr {value : ℤ} {counts counts' : Bool} (same : value ≠ 0 → counts' = counts) :
    (if counts' then value else 0) = if counts then value else 0 := by
  rcases eq_or_ne value 0 with rfl | nonzero
  · rw [ite_self, ite_self]
  · rw [same nonzero]

theorem debitLoop_congr (same : SameDebit crypto wallet later vin) (nDebit : ℤ) :
    later.debitLoop crypto nDebit vin = wallet.debitLoop crypto nDebit vin := by
  induction vin generalizing nDebit with
  | nil => rfl
  | cons txin vin ih =>
    have rest := ih fun txin member => same txin (List.mem_cons_of_mem _ member)
    simp only [debitLoop, same txin List.mem_cons_self, rest]

theorem creditLoop_congr (same : SameMine crypto wallet later vout) (nCredit : ℤ) :
    later.creditLoop crypto nCredit vout = wallet.creditLoop crypto nCredit vout := by
  induction vout generalizing nCredit with
  | nil => rfl
  | cons txout vout ih =>
    have rest := ih fun txout member => same txout (List.mem_cons_of_mem _ member)
    simp only [creditLoop, share_congr (same txout List.mem_cons_self), rest]

theorem changeLoop_congr (same : SameChange crypto wallet later vout) (nChange : ℤ) :
    later.changeLoop crypto nChange vout = wallet.changeLoop crypto nChange vout := by
  induction vout generalizing nChange with
  | nil => rfl
  | cons txout vout ih =>
    have rest := ih fun txout member => same txout (List.mem_cons_of_mem _ member)
    simp only [changeLoop, share_congr (same txout List.mem_cons_self), rest]

theorem availableLoop_congr (spent : other.isSpent = wtx.isSpent) (same : SameMine crypto wallet later vout) (i : ℕ)
    (nCredit : ℤ) : later.availableLoop crypto other i nCredit vout = wallet.availableLoop crypto wtx i nCredit vout := by
  induction vout generalizing i nCredit with
  | nil => rfl
  | cons txout vout ih =>
    have rest := ih fun txout member => same txout (List.mem_cons_of_mem _ member)
    simp only [availableLoop, spent, share_congr (same txout List.mem_cons_self), rest]

theorem Steady.compute_eq (steady : Steady crypto wallet later wtx) {kind : TxAmount} (kept : wtx.cached kind ≠ none) :
    wtx.compute crypto later kind = wtx.compute crypto wallet kind := by
  cases kind with
  | debit => exact debitLoop_congr (steady.debit kept) 0
  | credit => exact creditLoop_congr (steady.credit (.inl kept)) 0
  | immatureCredit => exact creditLoop_congr (steady.credit (.inr (.inl kept))) 0
  | availableCredit => exact availableLoop_congr rfl (steady.credit (.inr (.inr kept))) 0 0
  | change => exact changeLoop_congr (steady.change kept) 0

theorem Alike.steady (alike : Alike crypto wallet later) (wtx : CWalletTx) : Steady crypto wallet later wtx where
  debit _ _ _ := by rw [alike.debitOf]
  credit _ _ _ _ := by rw [alike.isMine]
  change _ _ _ _ := by rw [alike.isChange]

end CWallet

/-! ## Records -/

namespace CWalletTx

variable {crypto : Crypto} {P : Platform} {node : Node} {wallet later : CWallet} {wtx marked : CWalletTx}

/-- The cached amounts are those that would be computed. -/
def Fresh (crypto : Crypto) (wallet : CWallet) (wtx : CWalletTx) : Prop :=
  ∀ kind, Memo.Right (wtx.compute crypto wallet kind) (wtx.cached kind)

theorem fresh_uncached (uncached : ∀ kind, wtx.cached kind = none) : wtx.Fresh crypto wallet := by
  intro kind
  rw [uncached kind]
  exact Memo.right_none

theorem Fresh.steady (fresh : wtx.Fresh crypto wallet) (steady : CWallet.Steady crypto wallet later wtx) :
    wtx.Fresh crypto later :=
  fun kind => (fresh kind).congr steady.compute_eq

theorem compute_keep (value : ℤ) (kind other : TxAmount) :
    (wtx.keep value kind).compute crypto wallet other = wtx.compute crypto wallet other := by
  have spent : (wtx.keep value kind).isSpent = wtx.isSpent := by cases kind <;> rfl
  cases other with
  | availableCredit =>
    rw [compute, keep_tx]
    exact CWallet.availableLoop_congr spent (fun _ _ _ => rfl) 0 0
  | debit => rw [compute, keep_tx, compute]
  | credit => rw [compute, keep_tx, compute]
  | immatureCredit => rw [compute, keep_tx, compute]
  | change => rw [compute, keep_tx, compute]

theorem Fresh.amount {kind : TxAmount} {result : ℤ × CWalletTx} (fresh : wtx.Fresh crypto wallet)
    (read : wtx.amount crypto P node wallet kind = .ok result) : result.2.Fresh crypto wallet := by
  rcases amount_cases read with same | ⟨computed, same⟩
  · rw [same]
    exact fresh
  · intro other
    rw [same, compute_keep]
    rcases eq_or_ne other kind with rfl | apart
    · rw [cached_keep]
      exact Memo.right_some computed
    · rw [cached_keep_of_ne apart]
      exact fresh other

/-- `MarkDirty` leaves one cache. -/
theorem cached_markDirty {kind : TxAmount} (other : kind ≠ .immatureCredit) : wtx.markDirty.cached kind = none := by
  cases kind <;> first | rfl | exact absurd rfl other

theorem Fresh.markDirty (fresh : wtx.Fresh crypto wallet) : wtx.markDirty.Fresh crypto wallet := by
  intro kind
  rcases eq_or_ne kind .immatureCredit with rfl | other
  · exact fresh .immatureCredit
  · rw [cached_markDirty other]
    exact Memo.right_none

theorem Fresh.merge (wtxIn : CWalletTx) (fresh : wtx.Fresh crypto wallet) :
    (wtx.markDirty.merge wtxIn).2.Fresh crypto wallet := by
  intro kind
  cases kind with
  | immatureCredit => exact fresh .immatureCredit
  | availableCredit =>
    have absent : (wtx.markDirty.merge wtxIn).2.nAvailableCreditCached = none := ite_self none
    rw [cached, absent]
    exact Memo.right_none
  | debit => exact Memo.right_none
  | credit => exact Memo.right_none
  | change => exact Memo.right_none

/-- `MarkSpent` sets a flag and drops the available credit, or no flag changes. -/
theorem markSpent_cases {n : ℕ} (done : wtx.markSpent n = .ok marked) : marked.tx = wtx.tx ∧
    (∀ kind ≠ .availableCredit, marked.cached kind = wtx.cached kind) ∧
    (marked.nAvailableCreditCached = none ∨
      marked.nAvailableCreditCached = wtx.nAvailableCreditCached ∧ marked.isSpent = wtx.isSpent) := by
  rw [markSpent] at done
  obtain ⟨_, -, done⟩ := Check.bind_eq_ok.mp done
  have others : ∀ vfSpent nAvailableCreditCached, ∀ kind ≠ .availableCredit,
      { wtx with vfSpent, nAvailableCreditCached }.cached kind = wtx.cached kind := by
    intro vfSpent nAvailableCreditCached kind other
    cases kind <;> first | rfl | exact absurd rfl other
  dsimp only at done
  split_ifs at done with set
  · obtain rfl := Except.ok.inj done
    refine ⟨rfl, others _ _, .inr ⟨rfl, ?_⟩⟩
    funext nOut
    unfold isSpent rejectIf
    split_ifs with outside
    · rfl
    · have inside := not_le.mp outside
      simp only [List.getD_eq_getElem?_getD, List.getElem?_take, if_pos inside, List.getElem?_append,
        List.getElem?_replicate]
      split_ifs with flagged
      · rfl
      · rw [List.getElem?_eq_none (not_lt.mp flagged)]
        rfl
      · rw [List.getElem?_eq_none (not_lt.mp flagged)]
  · obtain rfl := Except.ok.inj done
    exact ⟨rfl, others _ _, .inl rfl⟩

theorem Fresh.markSpent {n : ℕ} (fresh : wtx.Fresh crypto wallet) (done : wtx.markSpent n = .ok marked) :
    marked.Fresh crypto wallet := by
  obtain ⟨tx, others, available⟩ := markSpent_cases done
  intro kind
  by_cases counted : kind = .availableCredit
  · subst counted
    rcases available with absent | ⟨same, spent⟩
    · rw [cached, absent]
      exact Memo.right_none
    · have before := fresh .availableCredit
      rw [compute, cached] at before ⊢
      rw [same, tx, CWallet.availableLoop_congr spent (fun _ _ _ => rfl)]
      exact before
  · have before := fresh kind
    rw [others kind counted]
    cases kind with
    | availableCredit => exact absurd rfl counted
    | debit => rwa [compute, tx]
    | credit => rwa [compute, tx]
    | immatureCredit => rwa [compute, tx]
    | change => rwa [compute, tx]

/-- A record without cached amounts gives what a record with the right ones gives. -/
theorem Fresh.amount_eq (fresh : wtx.Fresh crypto wallet) (kind : TxAmount) :
    (wtx.amount crypto P node wallet kind).map Prod.fst = (wtx.uncached.amount crypto P node wallet kind).map Prod.fst := by
  have gate : wtx.uncached.Counts P node kind ↔ wtx.Counts P node kind := by cases kind <;> exact Iff.rfl
  by_cases counts : wtx.Counts P node kind
  · have same : wtx.uncached.compute crypto wallet kind = wtx.compute crypto wallet kind := by
      cases kind with
      | availableCredit => exact @CWallet.availableLoop_congr crypto wallet wallet wtx wtx.uncached _ rfl (fun _ _ _ => rfl) 0 0
      | debit => rfl
      | credit => rfl
      | immatureCredit => rfl
      | change => rfl
    rw [amount_value counts, amount_value (gate.mpr counts), (fresh kind).look_eq, cached_uncached, Memo.look_none, same]
  · rw [amount_of_not kind counts, amount_of_not kind fun counted => counts (gate.mp counted)]
    rfl

end CWalletTx

namespace OpenWallet

variable {env : WalletEnv} {around : Surroundings} {node : Node} {wallet later : OpenWallet}

/-- The records have the right amounts cached, or none. -/
def Fresh (env : WalletEnv) (wallet : OpenWallet) : Prop :=
  ∀ hash wtx, wallet.mapWallet hash = some wtx → wtx.Fresh env.crypto wallet.book

/-- A record may be replaced by one of the same transaction. -/
theorem alike_setTx {crypto : Crypto} {hash : Uint256} {wtx : CWalletTx}
    (old : ∀ before, wallet.mapWallet hash = some before → wtx.tx = before.tx)
    (new : wallet.mapWallet hash = none → wtx.tx.vout = []) :
    CWallet.Alike crypto wallet.book (wallet.setTx hash wtx).book where
  isMine := rfl
  isChange := rfl
  debitOf := by
    funext txin
    have lookup : (wallet.setTx hash wtx).book.mapWallet = Function.update wallet.mapWallet hash (some wtx) := rfl
    unfold CWallet.debitOf
    rw [lookup]
    rcases eq_or_ne txin.prevout.hash hash with same | apart
    · have unchanged : wallet.book.mapWallet = wallet.mapWallet := rfl
      rw [same, update_self, unchanged]
      cases found : wallet.mapWallet hash with
      | none => simp only [new found, List.getElem?_nil]
      | some before =>
        simp only [old before found]
        rfl
    · rw [update_of_ne apart]
      rfl

section

variable (fresh : Fresh env wallet)
include fresh

theorem Fresh.setTx {hash : Uint256} {wtx : CWalletTx} (record : wtx.Fresh env.crypto wallet.book)
    (old : ∀ before, wallet.mapWallet hash = some before → wtx.tx = before.tx)
    (new : wallet.mapWallet hash = none → wtx.tx.vout = []) : Fresh env (wallet.setTx hash wtx) := by
  have alike := @alike_setTx wallet env.crypto hash wtx old new
  intro other after found
  change Function.update wallet.mapWallet hash (some wtx) other = some after at found
  rcases eq_or_ne other hash with rfl | apart
  · rw [update_self, Option.some.injEq] at found
    exact found ▸ record.steady (alike.steady wtx)
  · rw [update_of_ne apart] at found
    exact (fresh other after found).steady (alike.steady after)

/-- A record that is there is replaced. -/
theorem Fresh.replace {hash : Uint256} {wtx before : CWalletTx}
    (found : wallet.mapWallet hash = some before) (record : wtx.Fresh env.crypto wallet.book) (tx : wtx.tx = before.tx) :
    Fresh env (wallet.setTx hash wtx) := by
  refine fresh.setTx record (fun other lies => ?_) fun missing => ?_
  · rw [found, Option.some.injEq] at lies
    exact lies ▸ tx
  · rw [found] at missing
    cases missing

theorem Fresh.updates (change : Updates env node wallet later) : Fresh env later := by
  cases change with
  | @credit hash wtx result found computed =>
    exact fresh.replace found ((fresh hash wtx found).amount computed) (of_uncached (CWalletTx.amount_uncached computed)).1
  | @mark hash wtx marked n found done =>
    exact fresh.replace found ((fresh hash wtx found).markSpent done) (CWalletTx.markSpent_cases done).1

theorem Fresh.walletUpdateSpent (vin : List CTxIn) : Fresh env (walletUpdateSpent env around vin wallet).2 := by
  have updated := @walletUpdateSpent_updates env around vin wallet
  generalize (OpenWallet.walletUpdateSpent env around vin wallet).2 = later at updated ⊢
  induction updated with
  | refl => exact fresh
  | tail _ change ih => exact ih.updates change

theorem Fresh.readAmount (hash : Uint256) (kind : TxAmount) :
    Fresh env (readAmount env around hash kind wallet).2 := by
  rw [OpenWallet.readAmount, get_bind]
  cases found : wallet.mapWallet hash with
  | none => exact fresh
  | some wtx =>
    refine holds_bind fresh fun result after read _ => ?_
    obtain ⟨computed, rfl⟩ := Prod.mk.inj read
    rw [modify_bind]
    exact fresh.replace found ((fresh hash wtx found).amount computed)
      (of_uncached (CWalletTx.amount_uncached computed)).1

/-- An input is marked in a record that is made clean before, or in a new one without outputs. -/
theorem Fresh.markInput (txin : CTxIn) : Fresh env (markInput env txin wallet).2 := by
  rw [OpenWallet.markInput, get_bind, modify_bind]
  generalize dirty : ((wallet.mapWallet txin.prevout.hash).getD { tx := { vin := [], vout := [] } }).markDirty = coin
  have clean : Fresh env (wallet.setTx txin.prevout.hash coin) := by
    cases found : wallet.mapWallet txin.prevout.hash with
    | none =>
      rw [found] at dirty
      subst dirty
      refine fresh.setTx (CWalletTx.fresh_uncached fun kind => ?_) (fun before lies => ?_) fun _ => rfl
      · cases kind <;> rfl
      · rw [found] at lies
        cases lies
    | some wtx =>
      rw [found] at dirty
      subst dirty
      exact fresh.replace found (fresh _ wtx found).markDirty rfl
  have there : (wallet.setTx txin.prevout.hash coin).mapWallet txin.prevout.hash = some coin := update_self ..
  refine holds_bind clean fun marked after outcome _ => ?_
  obtain ⟨done, rfl⟩ := Prod.mk.inj outcome
  rw [modify_bind]
  exact clean.replace there ((clean _ coin there).markSpent done) (CWalletTx.markSpent_cases done).1

theorem Fresh.markInputs (vin : List CTxIn) : Fresh env (markInputs env vin wallet).2 := by
  induction vin generalizing wallet with
  | nil => exact fresh
  | cons txin vin ih =>
    rw [OpenWallet.markInputs]
    exact holds_bind (fresh.markInput txin) fun _ _ _ freshAfter => ih freshAfter

end

/-! ## Steps -/

/-- The wallet after `AddToWallet` has looked at the default key. -/
def rekeyed (env : WalletEnv) (around : Surroundings) (wtxIn : CWalletTx) (wallet : OpenWallet) : OpenWallet :=
  (checkDefaultKey env around (recordTx env wtxIn wallet).vout (inserted env wtxIn wallet)).2

/-- A transaction is added quietly: if it is new, it comes without a cached immature credit and no record with a cached
debit spends a value of it that is mine, and keys made for the pool or a new default key change no cached amount. -/
structure AddsQuietly (env : WalletEnv) (around : Surroundings) (wtxIn : CWalletTx) (wallet : OpenWallet) : Prop where
  clean : wallet.mapWallet (wtxIn.tx.getHash env.P) = none → wtxIn.nImmatureCreditCached = none
  unspent : wallet.mapWallet (wtxIn.tx.getHash env.P) = none → ∀ hash wtx, wallet.mapWallet hash = some wtx →
    wtx.nDebitCached ≠ none → ∀ txin ∈ wtx.tx.vin, txin.prevout.hash = wtxIn.tx.getHash env.P →
      ∀ txout, wtxIn.tx.vout[txin.prevout.n]? = some txout → wallet.book.isMine env.crypto txout → txout.nValue = 0
  rekeys : ∀ hash wtx, (inserted env wtxIn wallet).mapWallet hash = some wtx →
    CWallet.Steady env.crypto (inserted env wtxIn wallet).book (rekeyed env around wtxIn wallet).book wtx

/-- What may happen to a wallet. -/
inductive WalletOp
  | readAmount (hash : Uint256) (kind : TxAmount)
  | addToWallet (wtxIn : CWalletTx)
  | addToWalletIfInvolvingMe (position : CMerkleTx) (fUpdate : Bool)
  | walletUpdateSpent (vin : List CTxIn)
  | markInputs (vin : List CTxIn)
  | addKey (vchPubKey : valtype)
  | setAddressBookName (address : CTxDestination) (strName : String)

/-- The wallet afterwards, also when the operation throws. `MarkDirty` follows `AddKey`. -/
def perform (env : WalletEnv) (around : Surroundings) : WalletOp → OpenWallet → OpenWallet
  | .readAmount hash kind, wallet => (readAmount env around hash kind wallet).2
  | .addToWallet wtxIn, wallet => (addToWallet env around wtxIn wallet).2
  | .addToWalletIfInvolvingMe position fUpdate, wallet => (addToWalletIfInvolvingMe env around position fUpdate wallet).2
  | .walletUpdateSpent vin, wallet => (walletUpdateSpent env around vin wallet).2
  | .markInputs vin, wallet => (markInputs env vin wallet).2
  | .addKey vchPubKey, wallet => (wallet.addKey env vchPubKey).markDirty
  | .setAddressBookName address strName, wallet => wallet.setAddressBookName address strName

/-- The operation changes nothing that a cached amount which it does not drop is made of. -/
def Quiet (env : WalletEnv) (around : Surroundings) (wallet : OpenWallet) : WalletOp → Prop
  | .readAmount _ _ => True
  | .addToWallet wtxIn => AddsQuietly env around wtxIn wallet
  | .addToWalletIfInvolvingMe position fUpdate => wallet.involvesMe env position fUpdate = .ok (some true) →
    AddsQuietly env around { toCMerkleTx := position } wallet
  | .walletUpdateSpent _ => True
  | .markInputs _ => True
  | .addKey vchPubKey => ∀ hash wtx, wallet.mapWallet hash = some wtx → wtx.nImmatureCreditCached ≠ none →
    CWallet.SameMine env.crypto wallet.book (wallet.addKey env vchPubKey).book wtx.tx.vout
  | .setAddressBookName address strName => ∀ hash wtx, wallet.mapWallet hash = some wtx → wtx.nChangeCached ≠ none →
    CWallet.SameChange env.crypto wallet.book (wallet.setAddressBookName address strName).book wtx.tx.vout

/-- Records whose amounts are steady stay right. -/
theorem Fresh.steady (fresh : Fresh env wallet) (records : ∀ hash wtx, later.mapWallet hash = some wtx →
    wallet.mapWallet hash = some wtx ∧ CWallet.Steady env.crypto wallet.book later.book wtx) : Fresh env later := by
  intro hash wtx found
  obtain ⟨before, steady⟩ := records hash wtx found
  exact (fresh hash wtx before).steady steady

theorem Fresh.inserted {wtxIn : CWalletTx} (fresh : Fresh env wallet) (quiet : AddsQuietly env around wtxIn wallet) :
    Fresh env (inserted env wtxIn wallet) := by
  have placed : Fresh env (wallet.setTx (wtxIn.tx.getHash env.P)
      (wallet.book.insertOrMerge (wtxIn.tx.getHash env.P) wtxIn).2) := by
    cases found : wallet.mapWallet (wtxIn.tx.getHash env.P) with
    | some before =>
      rw [insertOrMerge_of_some found]
      exact fresh.replace found ((fresh _ before found).merge wtxIn) rfl
    | none =>
      rw [insertOrMerge_of_none found]
      have quietly := quiet.unspent found
      have clean := quiet.clean found
      generalize wtxIn.tx.getHash env.P = hash at found quietly
      intro other wtx lies
      change Function.update wallet.mapWallet hash (some wtxIn.markDirty) other = some wtx at lies
      rcases eq_or_ne other hash with rfl | apart
      · rw [update_self, Option.some.injEq] at lies
        subst lies
        refine CWalletTx.fresh_uncached fun kind => ?_
        cases kind <;> first | rfl | exact clean
      · rw [update_of_ne apart] at lies
        refine (fresh other wtx lies).steady ⟨fun kept txin member => ?_, fun _ _ _ _ => rfl, fun _ _ _ _ => rfl⟩
        have lookup : (wallet.setTx hash wtxIn.markDirty).book.mapWallet =
            Function.update wallet.mapWallet hash (some wtxIn.markDirty) := rfl
        have lookup' : wallet.book.mapWallet = wallet.mapWallet := rfl
        unfold CWallet.debitOf
        rw [lookup, lookup']
        rcases eq_or_ne txin.prevout.hash hash with same | different
        · have nothing := quietly other wtx lies kept txin member same
          rw [same, update_self, found]
          dsimp only [CWalletTx.markDirty]
          cases output : wtxIn.tx.vout[txin.prevout.n]? with
          | none => rfl
          | some txout =>
            change (if wallet.book.isMine env.crypto txout then txout.nValue else 0) = 0
            split_ifs with mine
            · exact nothing txout output mine
            · rfl
        · rw [update_of_ne different]
          rfl
  unfold OpenWallet.inserted
  dsimp only
  split_ifs
  · exact placed
  · exact placed

theorem Fresh.addToWallet {wtxIn : CWalletTx} (fresh : Fresh env wallet) (quiet : AddsQuietly env around wtxIn wallet) :
    Fresh env (addToWallet env around wtxIn wallet).2 := by
  have placed := fresh.inserted quiet
  refine addToWallet_checked placed (placed.steady fun hash wtx found => ?_) fun _ _ change freshMiddle =>
    freshMiddle.updates change
  rw [(checkDefaultKey_rekeys _ _).mapWallet] at found
  exact ⟨found, quiet.rekeys hash wtx found⟩

theorem Fresh.perform {op : WalletOp} (fresh : Fresh env wallet) (quiet : Quiet env around wallet op) :
    Fresh env (perform env around op wallet) := by
  cases op with
  | readAmount hash kind => exact fresh.readAmount hash kind
  | addToWallet wtxIn => exact fresh.addToWallet quiet
  | addToWalletIfInvolvingMe position fUpdate =>
    change Fresh env (addToWalletIfInvolvingMe env around position fUpdate wallet).2
    rw [addToWalletIfInvolvingMe, get_bind]
    refine holds_bind fresh fun added after outcome _ => ?_
    obtain ⟨involved, rfl⟩ := Prod.mk.inj outcome
    match added with
    | none => exact fresh
    | some true => exact fresh.addToWallet (quiet involved)
    | some false =>
      exact holds_bind (fresh.walletUpdateSpent position.tx.vin) fun _ _ _ freshAfter => freshAfter
  | walletUpdateSpent vin => exact fresh.walletUpdateSpent vin
  | markInputs vin => exact fresh.markInputs vin
  | addKey vchPubKey =>
    intro hash wtx found
    obtain ⟨before, lies, rfl⟩ := Option.map_eq_some_iff.mp found
    have alike : CWallet.Steady env.crypto wallet.book ((wallet.addKey env vchPubKey).markDirty).book before.markDirty :=
      ⟨absurd rfl, fun kept => ?_, absurd rfl⟩
    · exact (fresh hash before lies).markDirty.steady alike
    · exact quiet hash before lies (kept.resolve_left (absurd rfl) |>.resolve_right (absurd rfl))
  | setAddressBookName address strName =>
    exact fresh.steady fun hash wtx found => ⟨found, fun _ _ _ => rfl, fun _ _ _ _ => rfl, quiet hash wtx found⟩

/-- The wallets that are reached by quiet steps, with any chain, lock and option around each. -/
inductive QuietlyReached (env : WalletEnv) (first : OpenWallet) : OpenWallet → Prop
  | start : QuietlyReached env first first
  | step {wallet : OpenWallet} {around : Surroundings} {op : WalletOp} : QuietlyReached env first wallet →
      Quiet env around wallet op → QuietlyReached env first (perform env around op wallet)

/-- No amount is cached, as in a wallet that has been loaded. -/
def Uncached (wallet : OpenWallet) : Prop :=
  ∀ hash wtx, wallet.mapWallet hash = some wtx → ∀ kind, wtx.cached kind = none

/-- Every amount of every record is the one that a record without cached amounts gives. -/
def Coherent (env : WalletEnv) (node : Node) (wallet : OpenWallet) : Prop :=
  ∀ hash wtx, wallet.mapWallet hash = some wtx → ∀ kind,
    (wtx.amount env.crypto env.P node wallet.book kind).map Prod.fst =
      (wtx.uncached.amount env.crypto env.P node wallet.book kind).map Prod.fst

theorem QuietlyReached.fresh {first : OpenWallet} (reached : QuietlyReached env first wallet) (uncached : Uncached first) :
    Fresh env wallet := by
  induction reached with
  | start => exact fun hash wtx found => CWalletTx.fresh_uncached (uncached hash wtx found)
  | step _ quiet ih => exact ih.perform quiet

/-- In every wallet that is reached by quiet steps the cached amounts are coherent, whatever the chain is. -/
theorem coherent_of_quiet {first : OpenWallet} (uncached : Uncached first) (reached : QuietlyReached env first wallet)
    (node : Node) : Coherent env node wallet :=
  fun hash wtx found kind => (reached.fresh uncached hash wtx found).amount_eq kind

end OpenWallet

namespace TestNet

def otherKey : valtype := List.replicate 20 8

/-- A coinbase for two keys, of which the wallet has one. -/
def shared : CTransaction :=
  { minted with vout := minted.vout ++ [⟨30000, CScript.payToPubKeyHash otherKey⟩] }

/-- It is in the last block. -/
def mined : Surroundings := { quiet with node := singleBlock 4001 }

/-- A wallet with one key and one transaction. -/
def holding (hash : Uint256) (wtx : CWalletTx) : OpenWallet where
  keys := { keystore := { mapKeys := [walletKey] } }
  mapWallet := Function.update (fun _ => none) hash (some wtx)

theorem uncached_holding {hash : Uint256} {wtx : CWalletTx} (uncached : ∀ kind, wtx.cached kind = none) :
    OpenWallet.Uncached (holding hash wtx) := by
  intro other found lies
  simp only [holding, update_apply] at lies
  split_ifs at lies
  cases lies
  exact uncached

end TestNet

namespace OpenWallet

variable {env : WalletEnv} {node : Node} {wallet : OpenWallet}

/-- An amount, with the caches or without. -/
def shown (env : WalletEnv) (node : Node) (cached : CWalletTx → CWalletTx) (wallet : OpenWallet) (hash : Uint256)
    (kind : TxAmount) : Option (Option ℤ) :=
  (wallet.mapWallet hash).map fun wtx =>
    ((cached wtx).amount env.crypto env.P node wallet.book kind).toOption.map Prod.fst

theorem Coherent.shown_eq (coherent : Coherent env node wallet) (hash : Uint256) (kind : TxAmount) :
    wallet.shown env node id hash kind = wallet.shown env node CWalletTx.uncached hash kind := by
  unfold shown
  cases found : wallet.mapWallet hash with
  | none => rfl
  | some wtx =>
    have same := congrArg Except.toOption (coherent hash wtx found kind)
    have fst : ∀ outcome : Check (ℤ × CWalletTx), (outcome.map Prod.fst).toOption = outcome.toOption.map Prod.fst := by
      intro outcome
      cases outcome <;> rfl
    rw [fst, fst] at same
    exact congrArg some same

open TestNet

/-- A wallet that learns a key, marks its payment as spent and shows what is left of it. -/
theorem coherent_of_quiet_spent : Coherent walletEnv quiet.node
    (perform walletEnv quiet (.walletUpdateSpent expense.vin)
      (perform walletEnv quiet (.readAmount 2001 .availableCredit)
        (perform walletEnv quiet (.addKey otherKey) (holding 2001 { tx := payment })))) := by
  have uncached : Uncached (holding 2001 { tx := payment }) := uncached_holding fun kind => by cases kind <;> rfl
  have learns : Quiet walletEnv quiet (holding 2001 { tx := payment }) (.addKey otherKey) :=
    fun hash wtx found kept => absurd (uncached hash wtx found .immatureCredit) kept
  have reads := @QuietlyReached.step _ _ _ quiet (.readAmount 2001 .availableCredit) (.step .start learns) trivial
  have spends := @QuietlyReached.step _ _ _ quiet (.walletUpdateSpent expense.vin) reads trivial
  exact coherent_of_quiet uncached spends quiet.node

/-- `MarkDirty` does not drop the immature credit when a key is added; the debit of a record is not dropped when the
transaction arrives that it spends, nor its change when the address gets a name. -/
theorem cachedAmounts_stale :
    (Uncached (holding 4001 (inBlock shared)) ∧ ¬ Coherent walletEnv mined.node
      (perform walletEnv mined (.addKey otherKey)
        (perform walletEnv mined (.readAmount 4001 .immatureCredit) (holding 4001 (inBlock shared))))) ∧
    (Uncached (holding 3001 { tx := expense }) ∧ ¬ Coherent walletEnv quiet.node
      (perform walletEnv quiet (.addToWallet { tx := payment })
        (perform walletEnv quiet (.readAmount 3001 .debit) (holding 3001 { tx := expense })))) ∧
    (Uncached (holding 2001 { tx := payment }) ∧ ¬ Coherent walletEnv quiet.node
      (perform walletEnv quiet (.setAddressBookName (.CKeyID walletKey) "")
        (perform walletEnv quiet (.readAmount 2001 .change) (holding 2001 { tx := payment })))) := by
  refine ⟨⟨uncached_holding fun kind => by cases kind <;> rfl, fun coherent => ?_⟩,
    ⟨uncached_holding fun kind => by cases kind <;> rfl, fun coherent => ?_⟩,
    ⟨uncached_holding fun kind => by cases kind <;> rfl, fun coherent => ?_⟩⟩
  · exact absurd (coherent.shown_eq 4001 .immatureCredit) (by decide +kernel)
  · exact absurd (coherent.shown_eq 3001 .debit) (by decide +kernel)
  · exact absurd (coherent.shown_eq 2001 .change) (by decide +kernel)

end OpenWallet

end BitCrystal
