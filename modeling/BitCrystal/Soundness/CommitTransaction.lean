import BitCrystal.Proofs.OpenWallet
import BitCrystal.Soundness.KeyPoolSafety

/-! # A transaction that is not accepted stays committed

`CommitTransaction` asks the memory pool last. When the pool refuses, the transaction has been recorded, its
inputs are marked and the reserved key is gone, in the wallet and in its file.
-/

namespace BitCrystal

open StateAction Function

namespace CWalletTx

variable {wtx marked wtxIn : CWalletTx}

theorem markSpent_spec {n : ℕ} (done : wtx.markSpent n = .ok marked) : n < wtx.tx.vout.length ∧ marked.tx = wtx.tx ∧
    marked.Spent n ∧ ∀ m < wtx.tx.vout.length, wtx.Spent m → marked.Spent m := by
  have inside : n < wtx.tx.vout.length := by
    rw [markSpent] at done
    obtain ⟨_, range, -⟩ := Check.bind_eq_ok.mp done
    exact Nat.not_le.mp (Check.rejectIf_eq_ok.mp range)
  obtain ⟨result, made, tx, spent, -, kept⟩ := @markSpent_eq wtx n inside
  rw [done, Except.ok.injEq] at made
  subst made
  exact ⟨inside, tx, spent, kept⟩

/-- A merge that changes nothing. -/
theorem merge_of_not (same : ¬ (wtx.merge wtxIn).1 = true) : (wtx.merge wtxIn).2 = wtx := by
  have parts := fun changed => same (decide_eq_true changed)
  obtain ⟨block, others⟩ := not_or.mp parts
  obtain ⟨branch, others⟩ := not_or.mp others
  obtain ⟨mine, flags⟩ := not_or.mp others
  have marks := Bool.eq_false_iff.mpr flags
  rw [merge, if_neg block, if_neg branch, if_neg branch, if_neg mine]
  simp only [updateSpent, marks, mergeSpent_eq marks, Bool.false_eq_true, if_false]

theorem spent_merge {n : ℕ} (spent : wtx.Spent n) : (wtx.merge wtxIn).2.Spent n := by
  have loop : ∀ (vfSpent vfNewSpent : List Bool) (n : ℕ), vfSpent.getD n false = true →
      (mergeSpent vfSpent vfNewSpent).getD n false = true := by
    intro vfSpent
    induction vfSpent with
    | nil =>
      intro vfNewSpent n spent
      cases vfNewSpent <;> exact spent
    | cons fSpent vfSpent ih =>
      intro vfNewSpent n spent
      cases vfNewSpent with
      | nil => exact spent
      | cons fNew vfNewSpent =>
        cases n with
        | zero =>
          have flag : fSpent = true := spent
          simp [mergeSpent, flag]
        | succ n => exact ih vfNewSpent n spent
  exact loop wtx.vfSpent wtxIn.vfSpent n spent

end CWalletTx

namespace OpenWallet

variable {env : WalletEnv} {around : Surroundings} {wallet middle later : OpenWallet}

/-! ## What stays -/

/-- Transactions stay with their marks, and no old key comes back to the pool. -/
structure Follows (env : WalletEnv) (wallet later : OpenWallet) : Prop where
  retains : ∀ hash wtx, wallet.mapWallet hash = some wtx → ∃ after, later.mapWallet hash = some after ∧
    after.tx = wtx.tx ∧ ∀ n < wtx.tx.vout.length, wtx.Spent n → after.Spent n
  keys : KeyPoolWallet.Makes env.crypto env.maker wallet.keys
    { later.keys with vchDefaultKey := wallet.keys.vchDefaultKey }

theorem Follows.refl (wallet : OpenWallet) : Follows env wallet wallet :=
  ⟨fun _ wtx found => ⟨wtx, found, rfl, fun _ _ => id⟩, .refl _⟩

theorem Follows.trans (first : Follows env wallet middle) (second : Follows env middle later) :
    Follows env wallet later where
  retains hash wtx found := by
    obtain ⟨between, there, tx, kept⟩ := first.retains hash wtx found
    obtain ⟨after, lies, same, still⟩ := second.retains hash between there
    refine ⟨after, lies, same.trans tx, fun n inside spent => still n ?_ (kept n inside spent)⟩
    rw [tx]
    exact inside
  keys := first.keys.trans ⟨second.keys.keystore, second.keys.nMade, second.keys.pool, rfl⟩

variable {hash : Uint256} {wtx : CWalletTx}

/-- A record may be replaced by one with more marks. -/
theorem Follows.replace (map : later.mapWallet = Function.update wallet.mapWallet hash (some wtx))
    (keys : later.keys = wallet.keys) (old : ∀ before, wallet.mapWallet hash = some before → wtx.tx = before.tx ∧
      ∀ n < before.tx.vout.length, before.Spent n → wtx.Spent n) : Follows env wallet later where
  retains other before found := by
    rw [map]
    rcases eq_or_ne other hash with rfl | apart
    · obtain ⟨tx, kept⟩ := old before found
      exact ⟨wtx, update_self .., tx, kept⟩
    · exact ⟨before, (update_of_ne apart ..).trans found, rfl, fun _ _ => id⟩
  keys := by
    rw [keys]
    exact .refl _

theorem Rekeys.follows (rekeyed : Rekeys env wallet later) : Follows env wallet later :=
  ⟨fun _ wtx found => ⟨wtx, rekeyed.mapWallet ▸ found, rfl, fun _ _ => id⟩, rekeyed.keys⟩

/-- The record without its cached amounts determines its transaction and its marks. -/
theorem of_uncached {other : CWalletTx} (same : other.uncached = wtx.uncached) :
    other.tx = wtx.tx ∧ other.vfSpent = wtx.vfSpent := by
  have tx : other.uncached.tx = wtx.uncached.tx := by rw [same]
  have vfSpent : other.uncached.vfSpent = wtx.uncached.vfSpent := by rw [same]
  exact ⟨tx, vfSpent⟩

theorem Updates.follows {node : Node} (change : Updates env node wallet later) : Follows env wallet later := by
  cases change with
  | @credit hash wtx result found computed =>
    obtain ⟨tx, vfSpent⟩ := of_uncached (CWalletTx.amount_uncached computed)
    refine .replace rfl rfl fun before lies => ?_
    rw [found, Option.some.injEq] at lies
    subst lies
    refine ⟨tx, fun n _ spent => ?_⟩
    rw [CWalletTx.Spent, vfSpent]
    exact spent
  | @mark hash wtx marked n found done =>
    obtain ⟨-, tx, -, kept⟩ := CWalletTx.markSpent_spec done
    refine .replace rfl rfl fun before lies => ?_
    rw [found, Option.some.injEq] at lies
    subst lies
    exact ⟨tx, kept⟩

theorem inserted_follows (wtxIn : CWalletTx) (wallet : OpenWallet) : Follows env wallet (inserted env wtxIn wallet) := by
  have record : ∀ before, wallet.mapWallet (wtxIn.tx.getHash env.P) = some before →
      (wallet.book.insertOrMerge (wtxIn.tx.getHash env.P) wtxIn).2.tx = before.tx ∧
      ∀ n < before.tx.vout.length, before.Spent n →
        (wallet.book.insertOrMerge (wtxIn.tx.getHash env.P) wtxIn).2.Spent n := by
    intro before found
    rw [insertOrMerge_of_some found]
    exact ⟨CWalletTx.merge_tx wtxIn, fun n _ spent => @CWalletTx.spent_merge before.markDirty wtxIn n spent⟩
  unfold inserted
  dsimp only
  split_ifs
  · exact .replace rfl rfl record
  · exact .replace rfl rfl record

theorem addToWallet_follows (wtxIn : CWalletTx) (wallet : OpenWallet) :
    Follows env wallet (addToWallet env around wtxIn wallet).2 :=
  addToWallet_holds (inserted_follows wtxIn wallet)
    (fun _ _ rekeyed => (inserted_follows wtxIn wallet).trans rekeyed.follows)
    fun _ _ change follows => follows.trans change.follows

/-- `CommitTransaction` marks an input, or it throws. -/
theorem markInput_ok {txin : CTxIn} (ran : markInput env txin wallet = (.ok (), later)) :
    ∃ coin marked, wallet.mapWallet txin.prevout.hash = some coin ∧
      coin.markDirty.markSpent txin.prevout.n = .ok marked ∧
      later = (writeToDisk env marked (wallet.setTx txin.prevout.hash marked)).2 := by
  rw [markInput, get_bind, modify_bind] at ran
  obtain ⟨marked, after, done, ran⟩ := bind_eq_ok.mp ran
  rw [lift_apply, Prod.mk.injEq] at done
  obtain ⟨done, rfl⟩ := done
  cases found : wallet.mapWallet txin.prevout.hash with
  | none =>
    rw [found] at done
    have inside := (CWalletTx.markSpent_spec done).1
    exact absurd inside (Nat.not_lt_zero _)
  | some coin =>
    rw [found] at done ran
    refine ⟨coin, marked, rfl, done, ?_⟩
    have twice : ∀ first, (wallet.setTx txin.prevout.hash first).setTx txin.prevout.hash marked =
        wallet.setTx txin.prevout.hash marked := by
      intro first
      rw [setTx, setTx, setTx]
      simp only [update_idem]
    rw [modify_bind, twice] at ran
    cases ran
    rfl

theorem markInput_follows {txin : CTxIn} (ran : markInput env txin wallet = (.ok (), later)) :
    Follows env wallet later ∧ ∃ coin, later.mapWallet txin.prevout.hash = some coin ∧
      txin.prevout.n < coin.tx.vout.length ∧ coin.Spent txin.prevout.n := by
  obtain ⟨coin, marked, found, done, rfl⟩ := markInput_ok ran
  obtain ⟨inside, tx, spent, kept⟩ := CWalletTx.markSpent_spec done
  refine ⟨.replace rfl rfl fun before lies => ?_, marked, update_self .., tx ▸ inside, spent⟩
  rw [found, Option.some.injEq] at lies
  subst lies
  exact ⟨tx, kept⟩

/-- All inputs are marked. -/
theorem markInputs_follows {vin : List CTxIn} (ran : markInputs env vin wallet = (.ok (), later)) :
    Follows env wallet later ∧ ∀ txin ∈ vin, ∃ coin, later.mapWallet txin.prevout.hash = some coin ∧
      txin.prevout.n < coin.tx.vout.length ∧ coin.Spent txin.prevout.n := by
  induction vin generalizing wallet with
  | nil =>
    cases ran
    exact ⟨.refl _, fun txin member => nomatch member⟩
  | cons txin vin ih =>
    rw [markInputs] at ran
    obtain ⟨⟨⟩, after, first, rest⟩ := bind_eq_ok.mp ran
    obtain ⟨follows, coin, found, inside, spent⟩ := markInput_follows first
    obtain ⟨onward, others⟩ := ih rest
    refine ⟨follows.trans onward, fun other member => ?_⟩
    rcases List.mem_cons.mp member with rfl | member
    · obtain ⟨last, lies, tx, kept⟩ := onward.retains _ coin found
      exact ⟨last, lies, tx ▸ inside, kept _ inside spent⟩
    · exact others other member

/-- Records lie under their hashes, and the file holds what the wallet holds. -/
structure Saved (env : WalletEnv) (wallet : OpenWallet) : Prop where
  keyed : ∀ hash wtx, wallet.mapWallet hash = some wtx → wtx.tx.getHash env.P = hash
  stored : ∀ hash, wallet.file hash = (wallet.mapWallet hash).map CWalletTx.uncached

/-- A record and its copy in the file are replaced together. -/
theorem Saved.replace (saved : Saved env wallet)
    (map : later.mapWallet = Function.update wallet.mapWallet hash (some wtx)) (keyed : wtx.tx.getHash env.P = hash)
    (file : later.file = Function.update wallet.file hash (some wtx.uncached)) : Saved env later where
  keyed other before found := by
    rw [map] at found
    rcases eq_or_ne other hash with rfl | apart
    · rw [update_self, Option.some.injEq] at found
      exact found ▸ keyed
    · rw [update_of_ne apart] at found
      exact saved.keyed other before found
  stored other := by
    rw [map, file]
    rcases eq_or_ne other hash with rfl | apart
    · rw [update_self, update_self]
      rfl
    · rw [update_of_ne apart, update_of_ne apart]
      exact saved.stored other

/-- A record that differs in its caches only need not be written. -/
theorem Saved.recache {before : CWalletTx} (saved : Saved env wallet)
    (found : wallet.mapWallet hash = some before) (same : wtx.uncached = before.uncached) :
    Saved env (wallet.setTx hash wtx) := by
  refine saved.replace rfl ?_ ?_
  · rw [(of_uncached same).1]
    exact saved.keyed hash before found
  · have old : some before.uncached = wallet.file hash := by
      rw [saved.stored, found]
      rfl
    rw [same, old, update_eq_self]
    rfl

section

variable (written : ∀ n, env.fWritten n = true)

include written

theorem Saved.writeToDisk {hash : Uint256} {wtx : CWalletTx} (saved : Saved env wallet)
    (keyed : wtx.tx.getHash env.P = hash) : Saved env (writeToDisk env wtx (wallet.setTx hash wtx)).2 := by
  apply saved.replace rfl keyed
  rw [OpenWallet.writeToDisk, written, if_pos rfl, keyed]
  rfl

theorem Updates.saved {node : Node} (change : Updates env node wallet later) (saved : Saved env wallet) :
    Saved env later := by
  cases change with
  | credit found computed => exact saved.recache found (CWalletTx.amount_uncached computed)
  | mark found done =>
    apply saved.writeToDisk written
    rw [(CWalletTx.markSpent_spec done).2.1]
    exact saved.keyed _ _ found

theorem inserted_saved (wtxIn : CWalletTx) (saved : Saved env wallet) : Saved env (inserted env wtxIn wallet) := by
  have keyed : (wallet.book.insertOrMerge (wtxIn.tx.getHash env.P) wtxIn).2.tx.getHash env.P =
      wtxIn.tx.getHash env.P := by
    cases found : wallet.mapWallet (wtxIn.tx.getHash env.P) with
    | none =>
      rw [insertOrMerge_of_none found]
      rfl
    | some before =>
      rw [insertOrMerge_of_some found]
      exact saved.keyed _ before found
  unfold inserted
  dsimp only
  split_ifs with changed
  · exact saved.writeToDisk written keyed
  · cases found : wallet.mapWallet (wtxIn.tx.getHash env.P) with
    | none =>
      rw [insertOrMerge_of_none found] at changed
      exact absurd rfl changed
    | some before =>
      rw [insertOrMerge_of_some found] at changed ⊢
      rw [CWalletTx.merge_of_not changed]
      exact saved.recache found rfl

theorem addToWallet_saved (wtxIn : CWalletTx) (saved : Saved env wallet) :
    Saved env (addToWallet env around wtxIn wallet).2 := by
  have first := inserted_saved written wtxIn saved
  refine addToWallet_holds first (fun _ later rekeyed => ?_) fun _ _ change => change.saved written
  refine ⟨fun hash wtx found => first.keyed hash wtx ?_, fun hash => ?_⟩
  · rw [← rekeyed.mapWallet]
    exact found
  · rw [rekeyed.file, rekeyed.mapWallet]
    exact first.stored hash

theorem markInputs_saved {vin : List CTxIn} (saved : Saved env wallet)
    (ran : markInputs env vin wallet = (.ok (), later)) : Saved env later := by
  induction vin generalizing wallet with
  | nil =>
    cases ran
    exact saved
  | cons txin vin ih =>
    rw [markInputs] at ran
    obtain ⟨⟨⟩, after, first, rest⟩ := bind_eq_ok.mp ran
    obtain ⟨coin, marked, found, done, rfl⟩ := markInput_ok first
    refine ih (saved.writeToDisk written ?_) rest
    rw [(CWalletTx.markSpent_spec done).2.1]
    exact saved.keyed _ coin found

end

theorem inserted_found (wtxIn : CWalletTx) (wallet : OpenWallet) :
    ∃ wtx, (inserted env wtxIn wallet).mapWallet (wtxIn.tx.getHash env.P) = some wtx ∧
      (wallet.mapWallet (wtxIn.tx.getHash env.P) = none → wtx.tx = wtxIn.tx) := by
  refine ⟨(wallet.book.insertOrMerge (wtxIn.tx.getHash env.P) wtxIn).2, ?_, fun new => ?_⟩
  · unfold inserted
    dsimp only
    split_ifs
    · exact update_self ..
    · exact update_self ..
  · rw [insertOrMerge_of_none new]
    rfl

/-- `CommitTransaction` returns `false` after everything has been recorded. -/
theorem commitTransaction_refused {reservekey : CReserveKey} {fAccepted : Bool} {wtxNew : CWalletTx}
    (refused : commitTransaction env around reservekey fAccepted wtxNew wallet = (.ok false, later)) :
    ∃ added middle marked,
      addToWallet env around wtxNew { wallet with keys := reservekey.keepKey wallet.keys } = (.ok added, middle) ∧
      markInputs env wtxNew.tx.vin middle = (.ok (), marked) ∧
      later = { marked with
        mapRequestCount := Function.update marked.mapRequestCount (wtxNew.tx.getHash env.P) (some 0) } := by
  rw [commitTransaction, modify_bind] at refused
  obtain ⟨added, middle, adds, refused⟩ := bind_eq_ok.mp refused
  obtain ⟨⟨⟩, marked, marks, refused⟩ := bind_eq_ok.mp refused
  refine ⟨added, middle, marked, adds, marks, ?_⟩
  rw [modify_bind] at refused
  cases fAccepted with
  | true =>
    rw [if_pos rfl] at refused
    obtain ⟨_, _, _, ⟨⟩⟩ := bind_eq_ok.mp refused
  | false =>
    rw [if_neg Bool.false_ne_true] at refused
    cases refused
    rfl

/-- A kept key is gone. -/
theorem follows_keepKey {reservekey : CReserveKey} (reserved : reservekey.nIndex ≠ -1)
    (follows : Follows env { wallet with keys := reservekey.keepKey wallet.keys } later) {record : CKeyPool}
    (found : later.keys.pool reservekey.nIndex = some record) :
    KeyPoolWallet.Unmade env.maker wallet.keys record.vchPubKey := by
  have keep : reservekey.keepKey wallet.keys = wallet.keys.keepKey reservekey.nIndex := if_pos reserved
  rcases follows.keys.pool reservekey.nIndex record found with before | unmade
  · simp [keep, KeyPoolWallet.keepKey, KeyPoolWallet.erasePool] at before
  · simp only [keep] at unmade
    exact unmade

/-- When the memory pool refuses the transaction nothing is undone: the transaction is in the wallet, its inputs are
marked as spent, the reserved key is not in the pool, and the file has been written. -/
theorem commitTransaction_keeps {reservekey : CReserveKey} {fAccepted : Bool} {wtxNew : CWalletTx}
    (refused : commitTransaction env around reservekey fAccepted wtxNew wallet = (.ok false, later)) :
    (∃ wtx, later.mapWallet (wtxNew.tx.getHash env.P) = some wtx ∧
      (wallet.mapWallet (wtxNew.tx.getHash env.P) = none → wtx.tx = wtxNew.tx)) ∧
    (∀ txin ∈ wtxNew.tx.vin, ∃ coin, later.mapWallet txin.prevout.hash = some coin ∧
      txin.prevout.n < coin.tx.vout.length ∧ coin.Spent txin.prevout.n) ∧
    (reservekey.nIndex ≠ -1 → ∀ record, later.keys.pool reservekey.nIndex = some record →
      KeyPoolWallet.Unmade env.maker wallet.keys record.vchPubKey) ∧
    ((∀ n, env.fWritten n = true) → Saved env wallet → Saved env later) := by
  obtain ⟨added, middle, marked, adds, marks, rfl⟩ := commitTransaction_refused refused
  have middleIs := congrArg Prod.snd adds
  obtain ⟨onward, spent⟩ := markInputs_follows marks
  refine ⟨?_, spent, fun reserved record found => ?_, fun written saved => ?_⟩
  · obtain ⟨wtx, found, new⟩ := @inserted_found env wtxNew { wallet with keys := reservekey.keepKey wallet.keys }
    have rest := @addToWallet_holds env around _ (Follows env (inserted env wtxNew
        { wallet with keys := reservekey.keepKey wallet.keys })) wtxNew (.refl _)
      (fun _ _ rekeyed => rekeyed.follows) fun _ _ change follows => follows.trans change.follows
    rw [middleIs] at rest
    obtain ⟨after, lies, tx, -⟩ := (rest.trans onward).retains _ wtx found
    exact ⟨after, lies, fun missing => tx.trans (new missing)⟩
  · have first := @addToWallet_follows env around wtxNew { wallet with keys := reservekey.keepKey wallet.keys }
    rw [middleIs] at first
    exact follows_keepKey reserved (first.trans onward) found
  · have kept : Saved env { wallet with keys := reservekey.keepKey wallet.keys } := ⟨saved.keyed, saved.stored⟩
    have first := @addToWallet_saved env around _ written wtxNew kept
    rw [middleIs] at first
    obtain ⟨keyed, stored⟩ := markInputs_saved written first marks
    exact ⟨keyed, stored⟩

end OpenWallet

namespace TestNet

def walletEnv : WalletEnv where
  crypto := digests
  P := platform
  maker := keyMaker
  fWritten _ := true
  fGui := false

/-- A node without blocks. -/
def quiet : Surroundings where
  node := { pcoinsTip := { base := ⟨fun _ => none, none⟩ } }
  fLocked := false
  keypool := 0

/-- The wallet has one payment and a reserved key. -/
def paidWallet : OpenWallet where
  keys :=
    { keystore := { mapKeys := [keyMaker.makeNewKey 0, walletKey] }
      pool := Function.update (fun _ => none) 1 (some ⟨0, keyMaker.makeNewKey 0⟩)
      nMade := 1 }
  mapWallet := Function.update (fun _ => none) 2001 (some { tx := payment })
  file := Function.update (fun _ => none) 2001 (some { tx := payment })

def reserved : CReserveKey := ⟨1, keyMaker.makeNewKey 0⟩

def spends : CWalletTx := { tx := expense, fFromMe := true }

/-- The payment has been spent elsewhere and the memory pool refuses. -/
def refusal : Except Failure Bool × OpenWallet :=
  OpenWallet.commitTransaction walletEnv quiet reserved false spends paidWallet

end TestNet

namespace OpenWallet

open TestNet

/-- The transaction is new, its input is marked, the reserved key is gone and the file has changed. -/
theorem commitTransaction_not_undone : refusal.1.toOption = some false ∧
    (refusal.2.mapWallet 3001).map (·.tx) = some expense ∧ paidWallet.mapWallet 3001 = none ∧
    (refusal.2.mapWallet 2001).map (·.vfSpent) = some [true] ∧
    (paidWallet.mapWallet 2001).map (·.vfSpent) = some [] ∧
    refusal.2.keys.pool 1 = none ∧ paidWallet.keys.pool 1 = some ⟨0, keyMaker.makeNewKey 0⟩ ∧
    (refusal.2.file 2001).map (·.vfSpent) = some [true] ∧ (paidWallet.file 2001).map (·.vfSpent) = some [] := by
  decide +kernel

theorem commitTransaction_keeps_refusal :
    (∃ wtx, refusal.2.mapWallet 3001 = some wtx ∧ wtx.tx = expense) ∧ Saved walletEnv refusal.2 := by
  have refused : refusal.1 = .ok false := by
    have seen : refusal.1.toOption = some false := by decide +kernel
    generalize refusal.1 = outcome at seen ⊢
    cases outcome with
    | error failure => cases seen
    | ok value =>
      cases seen
      rfl
  have txid : expense.getHash platform = 3001 := by decide
  have missing : paidWallet.mapWallet (expense.getHash platform) = none := by
    rw [txid]
    rfl
  have saved : Saved walletEnv paidWallet := by
    refine ⟨fun hash wtx found => ?_, fun hash => ?_⟩
    · simp only [paidWallet, update_apply] at found
      split_ifs at found with here
      cases found
      rw [here]
      rfl
    · simp only [paidWallet, update_apply]
      split_ifs
      · rfl
      · rfl
  have ran := outcome_of_fst refused
  generalize refusal.2 = later at ran ⊢
  rw [refusal] at ran
  obtain ⟨⟨wtx, found, new⟩, -, -, kept⟩ := commitTransaction_keeps ran
  refine ⟨⟨wtx, ?_, new missing⟩, kept (fun _ => rfl) saved⟩
  rw [← txid]
  exact found

end OpenWallet

end BitCrystal
