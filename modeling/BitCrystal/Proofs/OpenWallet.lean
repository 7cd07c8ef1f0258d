import BitCrystal.Model.OpenWallet
import BitCrystal.Proofs.Wallet

/-! # What the operations on a wallet change

The key pool makes keys that are not in use yet. Replacing the default key changes the keys and the address
book only, and updating the flags caches credits and marks outputs.
-/

namespace BitCrystal

open StateAction

namespace KeyPoolWallet

variable {crypto : Crypto} {maker : KeyMaker} {keys middle later : KeyPoolWallet}

/-- Add keys by their numbers. -/
def addKeys (crypto : Crypto) (maker : KeyMaker) (numbers : List ℕ) (keystore : CKeyStore) : CKeyStore :=
  numbers.foldr (fun n keystore => keystore.addKey crypto (maker.makeNewKey n)) keystore

/-- A key that has not been made. -/
def Unmade (maker : KeyMaker) (keys : KeyPoolWallet) (vchPubKey : valtype) : Prop :=
  ∃ n, keys.nMade ≤ n ∧ vchPubKey = maker.makeNewKey n

/-- The pool or the next keys hold the key. -/
def Spare (maker : KeyMaker) (keys : KeyPoolWallet) (vchPubKey : valtype) : Prop :=
  (∃ nIndex, (keys.pool nIndex).map CKeyPool.vchPubKey = some vchPubKey) ∨ Unmade maker keys vchPubKey

/-- Keys are made, and records are written for these or erased. -/
structure Makes (crypto : Crypto) (maker : KeyMaker) (keys later : KeyPoolWallet) : Prop where
  keystore : ∃ numbers : List ℕ, (∀ n ∈ numbers, keys.nMade ≤ n) ∧
    later.keystore = addKeys crypto maker numbers keys.keystore
  nMade : keys.nMade ≤ later.nMade
  pool : ∀ nIndex record, later.pool nIndex = some record →
    keys.pool nIndex = some record ∨ Unmade maker keys record.vchPubKey
  vchDefaultKey : later.vchDefaultKey = keys.vchDefaultKey

theorem Unmade.mono {vchPubKey : valtype} (more : keys.nMade ≤ later.nMade) (unmade : Unmade maker later vchPubKey) :
    Unmade maker keys vchPubKey := by
  obtain ⟨n, above, same⟩ := unmade
  exact ⟨n, more.trans above, same⟩

theorem Makes.spare {vchPubKey : valtype} (makes : Makes crypto maker keys later)
    (spare : Spare maker later vchPubKey) : Spare maker keys vchPubKey := by
  rcases spare with ⟨nIndex, found⟩ | unmade
  · obtain ⟨record, listed, rfl⟩ := Option.map_eq_some_iff.mp found
    rcases makes.pool nIndex record listed with before | unmade
    · exact .inl ⟨nIndex, by rw [before]; rfl⟩
    · exact .inr unmade
  · exact .inr (unmade.mono makes.nMade)

theorem Makes.refl (keys : KeyPoolWallet) : Makes crypto maker keys keys where
  keystore := ⟨[], by simp, rfl⟩
  nMade := le_rfl
  pool _ _ := .inl
  vchDefaultKey := rfl

theorem Makes.trans (first : Makes crypto maker keys middle) (second : Makes crypto maker middle later) :
    Makes crypto maker keys later where
  keystore := by
    obtain ⟨numbers, above, made⟩ := first.keystore
    obtain ⟨others, beyond, more⟩ := second.keystore
    refine ⟨others ++ numbers, fun n member => ?_, ?_⟩
    · rcases List.mem_append.mp member with member | member
      · exact first.nMade.trans (beyond n member)
      · exact above n member
    · rw [more, made, addKeys, addKeys, addKeys, List.foldr_append]
  nMade := first.nMade.trans second.nMade
  pool nIndex record found := by
    rcases second.pool nIndex record found with before | unmade
    · exact first.pool nIndex record before
    · exact .inr (unmade.mono first.nMade)
  vchDefaultKey := second.vchDefaultKey.trans first.vchDefaultKey

theorem Makes.generateNewKey (keys : KeyPoolWallet) : Makes crypto maker keys (keys.generateNewKey crypto maker) where
  keystore := ⟨[keys.nMade], by simp, rfl⟩
  nMade := Nat.le_succ _
  pool _ _ := .inl
  vchDefaultKey := rfl

theorem Makes.refill (keys : KeyPoolWallet) (nIndex : ℤ) : Makes crypto maker keys (keys.refill crypto maker nIndex) where
  keystore := ⟨[keys.nMade], by simp, rfl⟩
  nMade := Nat.le_succ _
  pool other record found := by
    rcases eq_or_ne other nIndex with rfl | apart
    · simp only [KeyPoolWallet.refill, writePool, Function.update_self, Option.some.injEq] at found
      exact .inr ⟨keys.nMade, le_rfl, found ▸ rfl⟩
    · simp only [KeyPoolWallet.refill, writePool, Function.update_of_ne apart] at found
      exact .inl found
  vchDefaultKey := rfl

theorem Makes.topUpLoop (target rounds : ℕ) (keys : KeyPoolWallet) :
    Makes crypto maker keys (keys.topUpLoop crypto maker target rounds) := by
  induction rounds generalizing keys with
  | zero => exact .refl keys
  | succ rounds ih =>
    rw [KeyPoolWallet.topUpLoop]
    split_ifs
    · exact (Makes.refill keys _).trans (ih _)
    · exact .refl keys

theorem Makes.topUpKeyPool (locked : Bool) (keypool : ℤ) (keys : KeyPoolWallet) :
    Makes crypto maker keys (keys.topUpKeyPool crypto maker locked keypool) := by
  unfold KeyPoolWallet.topUpKeyPool
  split_ifs
  · exact .refl keys
  · exact .topUpLoop _ _ keys

theorem Makes.keepKey (nIndex : ℤ) (keys : KeyPoolWallet) : Makes crypto maker keys (keys.keepKey nIndex) where
  keystore := ⟨[], by simp, rfl⟩
  nMade := le_rfl
  pool other record found := by
    rcases eq_or_ne other nIndex with rfl | apart
    · simp [KeyPoolWallet.keepKey, erasePool] at found
    · simp only [KeyPoolWallet.keepKey, erasePool, Function.update_of_ne apart] at found
      exact .inl found
  vchDefaultKey := rfl

theorem Makes.erase (nIndex : ℤ) (keys : KeyPoolWallet) :
    Makes crypto maker keys { keys with setKeyPool := keys.setKeyPool.erase nIndex } where
  keystore := ⟨[], by simp, rfl⟩
  nMade := le_rfl
  pool _ _ := .inl
  vchDefaultKey := rfl

/-- A key that is reserved is from the pool. -/
theorem reserveKeyFromKeyPool_makes (locked : Bool) (keypool : ℤ) (keys : KeyPoolWallet) :
    Makes crypto maker keys (reserveKeyFromKeyPool crypto maker locked keypool keys).2 ∧
      ∀ reserved, (reserveKeyFromKeyPool crypto maker locked keypool keys).1 = .ok reserved →
        reserved.1 = -1 ∨ Spare maker keys reserved.2 := by
  have topped := @Makes.topUpKeyPool crypto maker locked keypool keys
  rw [reserveKeyFromKeyPool, modify_bind, get_bind]
  generalize keys.topUpKeyPool crypto maker locked keypool = full at topped ⊢
  split_ifs with filled
  · rw [modify_bind]
    have erased := topped.trans (Makes.erase (full.setKeyPool.min' filled) _)
    cases found : full.pool (full.setKeyPool.min' filled) with
    | none =>
      refine ⟨erased, ?_⟩
      rintro reserved ⟨⟩
    | some record =>
      dsimp only
      split_ifs
      · refine ⟨erased, ?_⟩
        rintro reserved ⟨⟩
        exact .inr (topped.spare (.inl ⟨_, by rw [found]; rfl⟩))
      · refine ⟨erased, ?_⟩
        rintro reserved ⟨⟩
      · refine ⟨erased, ?_⟩
        rintro reserved ⟨⟩
  · refine ⟨topped, ?_⟩
    rintro reserved ⟨⟩
    exact .inl rfl

/-- So is a key that is taken, or it is a new one. -/
theorem getKeyFromPool_makes (locked : Bool) (keypool : ℤ) (keys : KeyPoolWallet) :
    Makes crypto maker keys (getKeyFromPool crypto maker locked keypool false keys).2 ∧
      ∀ nIndex vchPubKey, (getKeyFromPool crypto maker locked keypool false keys).1 = .ok (some (nIndex, vchPubKey)) →
        Spare maker keys vchPubKey := by
  obtain ⟨makes, spare⟩ := @reserveKeyFromKeyPool_makes crypto maker locked keypool keys
  rw [getKeyFromPool]
  rcases outcome : reserveKeyFromKeyPool crypto maker locked keypool keys with ⟨failure | reserved, after⟩ <;>
    rw [outcome] at makes spare
  · rw [bind_of_error outcome]
    exact ⟨makes, nofun⟩
  · rw [bind_of_ok outcome, get_bind]
    rw [Bool.false_and, if_neg Bool.false_ne_true]
    split_ifs with exhausted locked
    · refine ⟨makes, ?_⟩
      rintro nIndex vchPubKey ⟨⟩
    · refine ⟨makes.trans (Makes.generateNewKey after), ?_⟩
      rintro nIndex vchPubKey ⟨⟩
      exact .inr ⟨_, makes.nMade, rfl⟩
    · refine ⟨makes.trans (Makes.keepKey _ after), ?_⟩
      rintro nIndex vchPubKey ⟨⟩
      exact (spare _ rfl).resolve_left exhausted

end KeyPoolWallet

/-! ## Replacing the default key -/

namespace OpenWallet

variable {env : WalletEnv} {around : Surroundings} {wallet middle later : OpenWallet}

/-- A key whose identifier may get a name in the address book. -/
def Nameable (env : WalletEnv) (keys : KeyPoolWallet) (vchPubKey : valtype) : Prop :=
  KeyPoolWallet.Spare env.maker keys vchPubKey ∨ vchPubKey = keys.vchDefaultKey

/-- Only keys and the address book change. -/
structure Rekeys (env : WalletEnv) (wallet later : OpenWallet) : Prop where
  mapWallet : later.mapWallet = wallet.mapWallet
  file : later.file = wallet.file
  keys : KeyPoolWallet.Makes env.crypto env.maker wallet.keys
    { later.keys with vchDefaultKey := wallet.keys.vchDefaultKey }
  vchDefaultKey : Nameable env wallet.keys later.keys.vchDefaultKey
  names : ∀ address, (∀ vchPubKey, Nameable env wallet.keys vchPubKey →
    address ≠ .CKeyID (env.crypto.hash160 vchPubKey)) →
    later.mapAddressBook.lookup address = wallet.mapAddressBook.lookup address

theorem Rekeys.refl (wallet : OpenWallet) : Rekeys env wallet wallet where
  mapWallet := rfl
  file := rfl
  keys := .refl _
  vchDefaultKey := .inr rfl
  names _ _ := rfl

theorem Rekeys.nameable {vchPubKey : valtype} (first : Rekeys env wallet later)
    (nameable : Nameable env later.keys vchPubKey) : Nameable env wallet.keys vchPubKey := by
  rcases nameable with spare | rfl
  · exact .inl (first.keys.spare spare)
  · exact first.vchDefaultKey

theorem Rekeys.trans (first : Rekeys env wallet middle) (second : Rekeys env middle later) : Rekeys env wallet later where
  mapWallet := second.mapWallet.trans first.mapWallet
  file := second.file.trans first.file
  keys := first.keys.trans ⟨second.keys.keystore, second.keys.nMade, second.keys.pool, rfl⟩
  vchDefaultKey := first.nameable second.vchDefaultKey
  names address apart :=
    (second.names address fun vchPubKey nameable => apart vchPubKey (first.nameable nameable)).trans
      (first.names address apart)

theorem lookup_setAddressBookName {address other : CTxDestination} {strName : String} (apart : other ≠ address)
    (wallet : OpenWallet) :
    (wallet.setAddressBookName address strName).mapAddressBook.lookup other = wallet.mapAddressBook.lookup other := by
  have filtered : ∀ book : List (CTxDestination × String),
      (book.filter fun entry => entry.1 ≠ address).lookup other = book.lookup other := by
    intro book
    induction book with
    | nil => rfl
    | cons entry book ih =>
      rcases eq_or_ne entry.1 address with same | different
      · have missed : (other == entry.1) = false := by
          rw [same]
          exact beq_false_of_ne apart
        rw [List.filter_cons_of_neg (by simp [same]), ih, List.lookup_cons, missed]
      · rw [List.filter_cons_of_pos (by simp [different]), List.lookup_cons, List.lookup_cons, ih]
  have missed : (other == address) = false := beq_false_of_ne apart
  rw [setAddressBookName, List.lookup_cons, missed]
  exact filtered _

/-! From a first state on, whose keys may be named. -/

theorem Rekeys.setAddressBookName (rekeyed : Rekeys env wallet later) (strName : String) :
    Rekeys env wallet
      (later.setAddressBookName (.CKeyID (env.crypto.hash160 later.keys.vchDefaultKey)) strName) where
  mapWallet := rekeyed.mapWallet
  file := rekeyed.file
  keys := rekeyed.keys
  vchDefaultKey := rekeyed.vchDefaultKey
  names address apart :=
    (lookup_setAddressBookName (apart _ rekeyed.vchDefaultKey) later).trans (rekeyed.names address apart)

theorem Rekeys.setDefaultKey {vchPubKey : valtype} (rekeyed : Rekeys env wallet later)
    (nameable : Nameable env wallet.keys vchPubKey) : Rekeys env wallet (setDefaultKey env vchPubKey later).2 where
  mapWallet := rekeyed.mapWallet
  file := rekeyed.file
  keys := by
    unfold OpenWallet.setDefaultKey
    dsimp only
    split_ifs
    · exact rekeyed.keys
    · exact rekeyed.keys
  vchDefaultKey := by
    unfold OpenWallet.setDefaultKey
    dsimp only
    split_ifs
    · exact nameable
    · exact rekeyed.vchDefaultKey
  names := rekeyed.names

theorem Rekeys.newDefaultKey (rekeyed : Rekeys env wallet later) :
    Rekeys env wallet (newDefaultKey env around later).2 := by
  obtain ⟨makes, spare⟩ := @KeyPoolWallet.getKeyFromPool_makes env.crypto env.maker around.fLocked around.keypool
    later.keys
  have taken : Rekeys env later (onKeys (KeyPoolWallet.getKeyFromPool env.crypto env.maker around.fLocked
      around.keypool false) later).2 :=
    ⟨rfl, rfl, ⟨makes.keystore, makes.nMade, makes.pool, rfl⟩, .inr makes.vchDefaultKey, fun _ _ => rfl⟩
  refine holds_bind (rekeyed.trans taken) fun result after outcome rekeyedAfter => ?_
  match result with
  | none => exact rekeyedAfter
  | some (nIndex, vchPubKey) =>
    have key := spare nIndex vchPubKey (congrArg Prod.fst outcome)
    apply holds_bind (rekeyedAfter.setDefaultKey (rekeyed.nameable (.inl key)))
    exact fun _ named _ rekeyedNamed => rekeyedNamed.setAddressBookName ""

variable {vout : List CTxOut} {wtxIn : CWalletTx}

/-- The default key is replaced by keys that may be named. -/
theorem Rekeys.replaceDefaultKey (scriptDefaultKey : CScript) (rekeyed : Rekeys env wallet later) :
    Rekeys env wallet (replaceDefaultKey env around scriptDefaultKey vout later).2 := by
  induction vout generalizing later with
  | nil => exact rekeyed
  | cons txout vout ih =>
    rw [OpenWallet.replaceDefaultKey]
    refine holds_bind ?_ fun _ after _ rekeyedAfter => ih rekeyedAfter
    split_ifs
    · exact rekeyed.newDefaultKey
    · exact rekeyed

/-- The key is left as it is when no output pays to it. -/
theorem replaceDefaultKey_of_forall {scriptDefaultKey : CScript}
    (other : ∀ txout ∈ vout, txout.scriptPubKey ≠ scriptDefaultKey) :
    replaceDefaultKey env around scriptDefaultKey vout wallet = (.ok (), wallet) := by
  induction vout with
  | nil => rfl
  | cons txout vout ih =>
    have rest := ih fun txout member => other txout (List.mem_cons_of_mem _ member)
    rw [OpenWallet.replaceDefaultKey, if_neg (other txout List.mem_cons_self)]
    exact (bind_of_ok rfl).trans rest

/-- The key is replaced when it is used, unless there is a user interface. -/
def ReplacesKey (env : WalletEnv) (wallet : OpenWallet) (vout : List CTxOut) : Prop :=
  env.fGui = false ∧ validPubKey wallet.keys.vchDefaultKey = true ∧
    ∃ txout ∈ vout, txout.scriptPubKey = CScript.payToPubKeyHash (env.crypto.hash160 wallet.keys.vchDefaultKey)

theorem checkDefaultKey_rekeys (vout : List CTxOut) (wallet : OpenWallet) :
    Rekeys env wallet (checkDefaultKey env around vout wallet).2 := by
  rw [checkDefaultKey, get_bind]
  split_ifs
  · exact (Rekeys.refl wallet).replaceDefaultKey _
  · exact .refl wallet

theorem checkDefaultKey_of_not (kept : ¬ ReplacesKey env wallet vout) :
    checkDefaultKey env around vout wallet = (.ok (), wallet) := by
  rw [checkDefaultKey, get_bind]
  split_ifs with checked
  · refine replaceDefaultKey_of_forall fun txout member same => kept ?_
    exact ⟨Bool.not_eq_true _ ▸ checked.1, checked.2, txout, member, same⟩
  · rfl

/-- The changes of `WalletUpdateSpent`: a credit is cached, or an output is marked and the record written. -/
inductive Updates (env : WalletEnv) (node : Node) (wallet : OpenWallet) : OpenWallet → Prop
  | credit {hash : Uint256} {wtx : CWalletTx} {result : ℤ × CWalletTx} (found : wallet.mapWallet hash = some wtx)
      (computed : wtx.amount env.crypto env.P node wallet.book .credit = .ok result) :
      Updates env node wallet (wallet.setTx hash result.2)
  | mark {hash : Uint256} {wtx marked : CWalletTx} {n : ℕ} (found : wallet.mapWallet hash = some wtx)
      (done : wtx.markSpent n = .ok marked) :
      Updates env node wallet (writeToDisk env marked (wallet.setTx hash marked)).2

theorem updateSpentAt_updates (txin : CTxIn) (wallet : OpenWallet) :
    Relation.ReflTransGen (Updates env around.node) wallet (updateSpentAt env around txin wallet).2 := by
  rw [updateSpentAt, get_bind]
  cases found : wallet.mapWallet txin.prevout.hash with
  | none => exact .refl
  | some wtx =>
    dsimp only
    cases output : wtx.tx.vout[txin.prevout.n]? with
    | none => exact .refl
    | some txout =>
      refine rel_lift_bind .refl fun fSpent _ => ?_
      split_ifs
      · refine rel_lift_bind .refl fun credit computed => ?_
        rw [modify_bind]
        have cached := Updates.credit found computed
        refine .head cached (rel_lift_bind .refl fun marked done => ?_)
        have again : (wallet.setTx txin.prevout.hash credit.2).mapWallet txin.prevout.hash = some credit.2 :=
          Function.update_self ..
        exact .single (Updates.mark again done)
      · exact .refl

theorem walletUpdateSpent_updates (vin : List CTxIn) (wallet : OpenWallet) :
    Relation.ReflTransGen (Updates env around.node) wallet (walletUpdateSpent env around vin wallet).2 := by
  induction vin generalizing wallet with
  | nil => exact .refl
  | cons txin vin ih =>
    rw [walletUpdateSpent]
    exact rel_bind .trans (updateSpentAt_updates txin wallet) fun _ after _ => ih after

theorem insertOrMerge_of_none {hash : Uint256} (new : wallet.mapWallet hash = none) :
    wallet.book.insertOrMerge hash wtxIn = (true, wtxIn.markDirty) := by
  have missing : wallet.book.mapWallet hash = none := new
  rw [CWallet.insertOrMerge, missing]

theorem insertOrMerge_of_some {hash : Uint256} {before : CWalletTx} (found : wallet.mapWallet hash = some before) :
    wallet.book.insertOrMerge hash wtxIn = before.markDirty.merge wtxIn := by
  have there : wallet.book.mapWallet hash = some before := found
  rw [CWallet.insertOrMerge, there]

/-- The wallet with the new or merged record, which is written if it is new or has changed. -/
def inserted (env : WalletEnv) (wtxIn : CWalletTx) (wallet : OpenWallet) : OpenWallet :=
  let hash := wtxIn.tx.getHash env.P
  let merged := wallet.book.insertOrMerge hash wtxIn
  if merged.1 then (writeToDisk env merged.2 (wallet.setTx hash merged.2)).2 else wallet.setTx hash merged.2

/-- The outputs and inputs of the record under the hash of the transaction. -/
def recordTx (env : WalletEnv) (wtxIn : CWalletTx) (wallet : OpenWallet) : CTransaction :=
  (wallet.book.insertOrMerge (wtxIn.tx.getHash env.P) wtxIn).2.tx

/-- What `AddToWallet` leaves holds after the insertion, after the check of the default key, and after every change of
the flags. -/
theorem addToWallet_checked {holds : OpenWallet → Prop} (first : holds (inserted env wtxIn wallet))
    (checked : holds (checkDefaultKey env around (recordTx env wtxIn wallet).vout (inserted env wtxIn wallet)).2)
    (updates : ∀ middle later, Updates env around.node middle later → holds middle → holds later) :
    holds (addToWallet env around wtxIn wallet).2 := by
  have rest : holds ((do
      checkDefaultKey env around (recordTx env wtxIn wallet).vout
      walletUpdateSpent env around (recordTx env wtxIn wallet).vin
      return true : OpenWalletAction Bool) (inserted env wtxIn wallet)).2 := by
    refine holds_bind checked fun _ after _ holdsAfter => ?_
    refine holds_bind ?_ fun _ last _ holdsLast => holdsLast
    have updated := @walletUpdateSpent_updates env around (recordTx env wtxIn wallet).vin after
    generalize (walletUpdateSpent env around (recordTx env wtxIn wallet).vin after).2 = last at updated ⊢
    induction updated with
    | refl => exact holdsAfter
    | tail _ change ih => exact updates _ _ change ih
  rw [addToWallet, get_bind]
  dsimp only
  rw [modify_bind]
  unfold inserted at first rest
  dsimp only at first rest
  split_ifs at first rest ⊢ with changed
  · refine holds_bind first fun fWritten after outcome holdsAfter => ?_
    obtain rfl := congrArg Prod.snd outcome
    split_ifs
    · exact rest
    · exact holdsAfter
  · exact rest

/-- The same whatever the default key is replaced by, if it is. -/
theorem addToWallet_holds {holds : OpenWallet → Prop} {wtxIn : CWalletTx} (first : holds (inserted env wtxIn wallet))
    (rekeys : ReplacesKey env (inserted env wtxIn wallet) (recordTx env wtxIn wallet).vout →
      ∀ later, Rekeys env (inserted env wtxIn wallet) later → holds later)
    (updates : ∀ middle later, Updates env around.node middle later → holds middle → holds later) :
    holds (addToWallet env around wtxIn wallet).2 := by
  refine addToWallet_checked first ?_ updates
  by_cases replaced : ReplacesKey env (inserted env wtxIn wallet) (recordTx env wtxIn wallet).vout
  · exact rekeys replaced _ (checkDefaultKey_rekeys _ _)
  · rw [checkDefaultKey_of_not replaced]
    exact first

end OpenWallet

/-! ## Amounts and their caches

Every amount is gated by the chain, then looked up in its cache, and computed if it is not there. Reading an
amount changes its own cache only.
-/

namespace CWalletTx

variable (crypto : Crypto) (P : Platform) (node : Node) (wallet : CWallet) (wtx : CWalletTx)

/-- The cache of an amount. -/
def cached : TxAmount → Option ℤ
  | .debit => wtx.nDebitCached
  | .credit => wtx.nCreditCached
  | .immatureCredit => wtx.nImmatureCreditCached
  | .availableCredit => wtx.nAvailableCreditCached
  | .change => wtx.nChangeCached

def keep (value : ℤ) : TxAmount → CWalletTx
  | .debit => { wtx with nDebitCached := some value }
  | .credit => { wtx with nCreditCached := some value }
  | .immatureCredit => { wtx with nImmatureCreditCached := some value }
  | .availableCredit => { wtx with nAvailableCreditCached := some value }
  | .change => { wtx with nChangeCached := some value }

/-- What is cached. -/
def compute : TxAmount → Check ℤ
  | .debit => wallet.getDebit crypto wtx.tx
  | .credit => wallet.creditLoop crypto 0 wtx.tx.vout
  | .immatureCredit => wallet.creditLoop crypto 0 wtx.tx.vout
  | .availableCredit => wallet.availableLoop crypto wtx 0 0 wtx.tx.vout
  | .change => wallet.changeLoop crypto 0 wtx.tx.vout

/-- Whether the amount is looked at; it is zero otherwise. -/
def Counts : TxAmount → Prop
  | .debit => wtx.tx.vin ≠ []
  | .credit => ¬ wtx.isImmature P node
  | .immatureCredit => wtx.isImmature P node ∧ 0 < wtx.getDepthInMainChain P node
  | .availableCredit => ¬ wtx.isImmature P node
  | .change => True

variable {crypto P node wallet wtx}

theorem amount_of_not (kind : TxAmount) (zero : ¬ wtx.Counts P node kind) :
    wtx.amount crypto P node wallet kind = .ok (0, wtx) := by
  cases kind with
  | debit => exact if_pos (not_not.mp zero)
  | credit => exact if_pos (not_not.mp zero)
  | immatureCredit => exact if_neg zero
  | availableCredit => exact if_pos (not_not.mp zero)
  | change => exact absurd trivial zero

theorem amount_eq (kind : TxAmount) (counts : wtx.Counts P node kind) :
    wtx.amount crypto P node wallet kind =
      match wtx.cached kind with
      | some value => .ok (value, wtx)
      | none => do
        let value ← wtx.compute crypto wallet kind
        return (value, wtx.keep value kind) := by
  cases kind with
  | debit => exact if_neg counts
  | credit => exact if_neg counts
  | immatureCredit => exact if_pos counts
  | availableCredit => exact if_neg counts
  | change => rfl

variable {kind : TxAmount}

/-- Reading an amount leaves the record, or the amount is computed and kept. -/
theorem amount_cases {result : ℤ × CWalletTx} (read : wtx.amount crypto P node wallet kind = .ok result) :
    result.2 = wtx ∨ wtx.compute crypto wallet kind = .ok result.1 ∧ result.2 = wtx.keep result.1 kind := by
  by_cases counts : wtx.Counts P node kind
  · rw [amount_eq kind counts] at read
    cases known : wtx.cached kind with
    | some value =>
      rw [known] at read
      cases read
      exact .inl rfl
    | none =>
      rw [known] at read
      simp only [Check.bind_eq_ok, Check.pure_eq_ok] at read
      obtain ⟨value, computed, rfl⟩ := read
      exact .inr ⟨computed, rfl⟩
  · rw [amount_of_not kind counts] at read
    cases read
    exact .inl rfl

/-- The value is the one that is looked up. -/
theorem amount_value (counts : wtx.Counts P node kind) : (wtx.amount crypto P node wallet kind).map Prod.fst =
      Memo.look (wtx.compute crypto wallet kind) (wtx.cached kind) := by
  rw [amount_eq kind counts]
  cases wtx.cached kind with
  | some value => rfl
  | none =>
    dsimp only [Memo.look]
    cases wtx.compute crypto wallet kind <;> rfl

theorem cached_keep (value : ℤ) (kind : TxAmount) : (wtx.keep value kind).cached kind = some value := by
  cases kind <;> rfl

theorem cached_keep_of_ne {value : ℤ} {other : TxAmount} (apart : other ≠ kind) :
    (wtx.keep value kind).cached other = wtx.cached other := by
  cases kind <;> cases other <;> first | rfl | exact absurd rfl apart

theorem keep_tx (value : ℤ) (kind : TxAmount) : (wtx.keep value kind).tx = wtx.tx := by
  cases kind <;> rfl

theorem keep_uncached (value : ℤ) (kind : TxAmount) : (wtx.keep value kind).uncached = wtx.uncached := by
  cases kind <;> rfl

theorem cached_uncached (kind : TxAmount) : wtx.uncached.cached kind = none := by
  cases kind <;> rfl

/-- Reading an amount does not change what the file holds. -/
theorem amount_uncached {result : ℤ × CWalletTx}
    (read : wtx.amount crypto P node wallet kind = .ok result) : result.2.uncached = wtx.uncached := by
  rcases amount_cases read with same | ⟨-, same⟩
  · rw [same]
  · rw [same, keep_uncached]

end CWalletTx

end BitCrystal
