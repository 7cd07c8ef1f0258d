import BitCrystal.Proofs.WalletEncryption
import BitCrystal.Soundness.KeyEncryption

/-! # Setting and changing a passphrase

A call that returns false leaves every key as it was, and a call that returns true leaves a wallet that the new
passphrase opens and no other, in memory and from the file, just when the writes that are not looked at succeed and no
open wallet gets a wrong passphrase.
-/

namespace BitCrystal

open StateAction AList TxnStore CWalletDB

namespace WalletKeys

variable (tools : PassphraseTools) (ok : ℕ → Bool) (cursor : Cursor)

/-- A passphrase that opens the wallet after it has been locked. -/
def Opens (strPassphrase : SecureString) (wallet : WalletKeys) : Prop :=
  (unlock tools strPassphrase (lock wallet).2).1 = .ok true

/-- The key of an address, after the wallet has been locked and a passphrase has been tried. -/
def recover (strPassphrase : SecureString) (wallet : WalletKeys) (address : CKeyID) : Option (CSecret × Bool) := do
  let found ← ((unlock tools strPassphrase (lock wallet).2).2.keystore.getKey tools.toKeyTools address {}).toOption
  let key ← found
  key.getSecret.toOption

/-- Nothing has changed for the owner of the keys. -/
structure Unchanged (before after : WalletKeys) : Prop where
  memory : ∀ strPassphrase address, after.recover tools strPassphrase address =
    before.recover tools strPassphrase address
  disk : ∀ strPassphrase, (loadWallet tools cursor after.walletdb.file).map (recover tools strPassphrase) =
    (loadWallet tools cursor before.walletdb.file).map (recover tools strPassphrase)
  masterKeys : after.mapMasterKeys = before.mapMasterKeys
  lockState : after.isLocked = before.isLocked

/-- The passphrase opens the wallet, and no other one does, in memory and after loading the file. -/
structure OpensWith (strPassphrase : SecureString) (wallet : WalletKeys) : Prop where
  memory : ∀ other, Opens tools other wallet ↔ other = strPassphrase
  disk : ∃ loaded, loadWallet tools cursor wallet.walletdb.file = some loaded ∧
    ∀ other, Opens tools other loaded ↔ other = strPassphrase

/-- What is promised for a call with a new passphrase that returns. -/
def Atomic (strNewPassphrase : SecureString) (before : WalletKeys) : Bool × WalletKeys → Prop
  | (false, after) => Unchanged tools cursor before after
  | (true, after) => OpensWith tools cursor strNewPassphrase after

/-- The wallet is not encrypted; its file holds its keys as they are. -/
structure Plain (wallet : WalletKeys) : Prop where
  crypted : wallet.keystore.fUseCrypto = false
  noCrypted : wallet.keystore.mapCryptedKeys.entries = []
  keys : ∀ mKey ∈ wallet.keystore.mapKeys.entries, mKey.2.1.length = 32 ∧
    mKey.1 = tools.crypto.hash160 (pubKeyOf tools.toKeyTools mKey)
  nonempty : wallet.keystore.mapKeys.entries ≠ []
  masterKeys : wallet.mapMasterKeys = []
  closed : wallet.walletdb.activeTxn.isSome = false
  noMkey : ∀ nID, .mkey nID ∉ wallet.walletdb.file
  noCkey : ∀ vchPubKey, .ckey vchPubKey ∉ wallet.walletdb.file
  records : ∀ vchPubKey k, IsPlain vchPubKey k → k ∈ wallet.walletdb.file →
    ∃ mKey ∈ wallet.keystore.mapKeys.entries, pubKeyOf tools.toKeyTools mKey = vchPubKey
  version : minVersion wallet.walletdb.file ≤ CLIENT_VERSION

/-- The wallet is encrypted with a passphrase, in memory and in its file. -/
structure Encrypted (strPassphrase : SecureString) (vMasterKey : CKeyingMaterial) (nID : ℕ)
    (kMasterKey kStored : CMasterKey) (wallet : WalletKeys) : Prop where
  memory : wallet.SealedUnder tools strPassphrase vMasterKey nID kMasterKey
  closed : wallet.walletdb.activeTxn.isSome = false
  seals : tools.Seals strPassphrase vMasterKey kStored
  file : FileSealed tools.toKeyTools vMasterKey nID kStored wallet.walletdb.file

/-- The wallet has the passphrase, or none if it is not encrypted. -/
def Has (wallet : WalletKeys) : Option SecureString → Prop
  | none => wallet.Plain tools
  | some strPassphrase => ∃ vMasterKey nID kMasterKey kStored,
      wallet.Encrypted tools strPassphrase vMasterKey nID kMasterKey kStored

/-- A call that sets or changes the passphrase. -/
inductive PassphraseCall
  | changeWalletPassphrase (strOldWalletPassphrase strNewWalletPassphrase : SecureString) (nTimed : ℕ)
  | encryptWallet (strWalletPassphrase : SecureString) (nTimed : ℕ) (random : Randomness)

namespace PassphraseCall

def run : PassphraseCall → Action Bool
  | .changeWalletPassphrase strOld strNew nTimed => WalletKeys.changeWalletPassphrase tools ok strOld strNew nTimed
  | .encryptWallet strWalletPassphrase nTimed random =>
    WalletKeys.encryptWallet tools ok strWalletPassphrase nTimed random

def newPassphrase : PassphraseCall → SecureString
  | .changeWalletPassphrase _ strNew _ => strNew
  | .encryptWallet strWalletPassphrase _ _ => strWalletPassphrase

/-- When a call keeps the promise. The first of the calls on the file has the number that the handle is at. -/
def Safe (wallet : WalletKeys) : Option SecureString → PassphraseCall → Prop
  | some strPassphrase, .changeWalletPassphrase strOld strNew _ =>
    if strOld = strPassphrase then ok wallet.walletdb.calls = true ∨ strNew = strOld else wallet.isLocked = true
  | none, .encryptWallet .. =>
    ok wallet.walletdb.calls = true ∧ ok (wallet.walletdb.calls + 1) = true ∧
      Erasable tools.toKeyTools ok wallet.walletdb.file (wallet.walletdb.calls + 2) wallet.keystore.mapKeys.entries
  | _, _ => True

end PassphraseCall

variable {tools ok cursor} {wallet after : WalletKeys} {pass other strNew : SecureString} {vMasterKey : CKeyingMaterial}
  {nID nTimed : ℕ} {kMasterKey kStored : CMasterKey} {result : Bool}

theorem SealedUnder.opens_iff (ideal : tools.Ideal) (under : wallet.SealedUnder tools pass vMasterKey nID kMasterKey)
    (other : SecureString) : Opens tools other wallet ↔ other = pass := by
  rw [Opens, lock_crypted under.store.crypted,
    under.lock.unlock ideal (isLocked_locked under.store.crypted) other, Except.ok.injEq, decide_eq_true_iff]

theorem not_opens (empty : wallet.mapMasterKeys = []) : ¬ Opens tools other wallet := by
  have same : (lock wallet).2.mapMasterKeys = [] := empty
  rw [Opens, unlock, get_bind]
  split
  · intro opened
    cases opened
  · rw [same]
    intro opened
    cases opened

theorem Unchanged.refl (wallet : WalletKeys) : Unchanged tools cursor wallet wallet :=
  ⟨fun _ _ => rfl, fun _ => rfl, rfl, rfl⟩

theorem Encrypted.opensWith (ideal : tools.Ideal)
    (encrypted : wallet.Encrypted tools pass vMasterKey nID kMasterKey kStored) (cursor : Cursor) :
    OpensWith tools cursor pass wallet := by
  refine ⟨encrypted.memory.opens_iff ideal, ?_⟩
  obtain ⟨loaded, read, -, under⟩ := encrypted.file.loadWallet encrypted.memory.size encrypted.seals cursor
  exact ⟨loaded, read, under.opens_iff ideal⟩

theorem Plain.lock (plain : wallet.Plain tools) : lock wallet = (.ok false, wallet) := by
  have refused : wallet.keystore.lock = (false, wallet.keystore) := by
    simp [CCryptoKeyStore.lock, CCryptoKeyStore.setCrypted, plain.crypted, plain.nonempty]
  rw [WalletKeys.lock, onStore_ok (congrArg Except.ok refused)]

theorem Plain.changeWalletPassphrase (plain : wallet.Plain tools) :
    changeWalletPassphrase tools ok other strNew nTimed wallet = (.ok false, wallet) := by
  rw [WalletKeys.changeWalletPassphrase, get_bind, bind_of_ok plain.lock, plain.masterKeys]
  rfl

namespace Encrypted

variable (encrypted : wallet.Encrypted tools pass vMasterKey nID kMasterKey kStored)
include encrypted

theorem changeLoop_wrong (ideal : tools.Ideal) (wrong : other ≠ pass) (fWasLocked : Bool) :
    changeLoop tools ok other strNew nTimed fWasLocked [(nID, kMasterKey)] wallet = (.ok false, wallet) := by
  obtain ⟨crypter, derived, opens⟩ := encrypted.memory.seals.decrypt ideal encrypted.memory.size other
  rw [changeLoop]
  dsimp only
  rw [derived]
  dsimp only
  cases decrypted : tools.cipher.decrypt crypter.1 crypter.2 kMasterKey.vchCryptedKey with
  | none => rfl
  | some vMasterKey' =>
    have differs : vMasterKey' ≠ vMasterKey := fun same => wrong (opens.mp (same ▸ decrypted))
    dsimp only
    rw [bind_of_ok (onStore_ok (encrypted.memory.store.unlock ideal.keys encrypted.memory.size vMasterKey')),
      decide_eq_false differs, if_neg nofun, if_neg differs]
    rfl

theorem changeLoop_right (ideal : tools.Ideal) (ok : ℕ → Bool) (strNew : SecureString) (nTimed : ℕ) (fWasLocked : Bool) :
    ∃ kMasterKey', tools.Seals strNew vMasterKey kMasterKey' ∧
      changeLoop tools ok pass strNew nTimed fWasLocked [(nID, kMasterKey)] wallet = (.ok true, { wallet with
        keystore := { wallet.keystore with vMasterKey := if fWasLocked then [] else vMasterKey }
        mapMasterKeys := [(nID, kMasterKey')]
        walletdb := (writeMasterKey ok nID kMasterKey' wallet.walletdb).2 }) := by
  obtain ⟨crypter, derived, opens⟩ := encrypted.memory.seals.decrypt ideal encrypted.memory.size pass
  obtain ⟨rounds, salt, method, -⟩ := PassphraseTools.setKeyFromPassphrase_eq_some.mp derived
  obtain ⟨crypter', vchCryptedKey, derived', encrypts, seals⟩ :=
    @PassphraseTools.exists_seals tools vMasterKey { kMasterKey with nDeriveIterations := max 25000 nTimed } ideal
      encrypted.memory.size (le_max_of_le_left (by decide)) salt method strNew
  refine ⟨_, seals, ?_⟩
  have set (wallet : WalletKeys) (k k' : CMasterKey) (only : wallet.mapMasterKeys = [(nID, k')]) :
      putMasterKey nID k wallet = (.ok (), { wallet with mapMasterKeys := [(nID, k)] }) := by
    rw [putMasterKey, modify_apply, only, setMasterKey, if_pos rfl]
  rw [changeLoop]
  dsimp only
  rw [derived]
  dsimp only
  rw [opens.mpr rfl]
  dsimp only
  rw [bind_of_ok (onStore_ok (encrypted.memory.store.unlock ideal.keys encrypted.memory.size vMasterKey)),
    decide_eq_true rfl, if_pos rfl, if_pos rfl, rewriteMasterKey]
  dsimp only
  rw [bind_of_ok (set { wallet with keystore := { wallet.keystore with vMasterKey } } _ kMasterKey
    encrypted.memory.masterKeys), derived']
  dsimp only
  rw [encrypts]
  dsimp only
  rw [bind_of_ok (set _ _ _ rfl)]
  cases fWasLocked with
  | false => rfl
  | true =>
    apply (bind_of_ok rfl).trans
    rw [if_pos rfl]
    refine (bind_of_ok (lock_crypted ?_)).trans rfl
    exact encrypted.memory.store.crypted

/-- A wrong passphrase locks the wallet. -/
theorem change_wrong (ideal : tools.Ideal) (wrong : other ≠ pass) (strNew : SecureString) (nTimed : ℕ) :
    changeWalletPassphrase tools ok other strNew nTimed wallet =
      (.ok false, { wallet with keystore := { wallet.keystore with vMasterKey := [] } }) := by
  rw [changeWalletPassphrase, get_bind, bind_of_ok (lock_crypted encrypted.memory.store.crypted),
    ← changeLoop_wrong { encrypted with memory := encrypted.memory.lock } ideal wrong wallet.isLocked]
  exact congrArg (changeLoop tools ok other strNew nTimed wallet.isLocked · _) encrypted.memory.masterKeys

/-- The right passphrase leads to a new master key record; whether it has reached the file is not looked at. -/
theorem change_right (ideal : tools.Ideal) (ok : ℕ → Bool) (strNew : SecureString) (nTimed : ℕ) :
    ∃ kMasterKey', tools.Seals strNew vMasterKey kMasterKey' ∧
      changeWalletPassphrase tools ok pass strNew nTimed wallet = (.ok true, { wallet with
        keystore := { wallet.keystore with vMasterKey := if wallet.isLocked then [] else vMasterKey }
        mapMasterKeys := [(nID, kMasterKey')]
        walletdb := (writeMasterKey ok nID kMasterKey' wallet.walletdb).2 }) := by
  obtain ⟨kMasterKey', seals, ran⟩ := changeLoop_right { encrypted with memory := encrypted.memory.lock } ideal ok
    strNew nTimed wallet.isLocked
  refine ⟨kMasterKey', seals, ?_⟩
  rw [changeWalletPassphrase, get_bind, bind_of_ok (lock_crypted encrypted.memory.store.crypted), ← ran]
  exact congrArg (changeLoop tools ok pass strNew nTimed wallet.isLocked · _) encrypted.memory.masterKeys

/-- The wallet after its master key has been sealed again: the file still has the old seal if the write has failed. -/
theorem change_file (ideal : tools.Ideal) {kMasterKey' : CMasterKey} (seals : tools.Seals strNew vMasterKey kMasterKey')
    {after : WalletKeys} (store : after.keystore.SealedUnder tools.toKeyTools vMasterKey)
    (masterKeys : after.mapMasterKeys = [(nID, kMasterKey')])
    (walletdb : after.walletdb = (writeMasterKey ok nID kMasterKey' wallet.walletdb).2) :
    (OpensWith tools cursor strNew after ↔ ok wallet.walletdb.calls = true ∨ strNew = pass) ∧
      (ok wallet.walletdb.calls = true ∨ strNew = pass → after.Has tools (some strNew)) := by
  have under : after.SealedUnder tools strNew vMasterKey nID kMasterKey' :=
    ⟨encrypted.memory.size, store, seals, masterKeys⟩
  have closed : after.walletdb.activeTxn.isSome = false := by
    rw [walletdb]
    exact (isSome_put ..).trans encrypted.closed
  have file : after.walletdb.file = if ok wallet.walletdb.calls then
      wallet.walletdb.file.insert (.mkey nID) (.mkey kMasterKey') else wallet.walletdb.file := by
    rw [← view_closed closed, walletdb, writeMasterKey, view_put_eq, put_overwrite,
      view_closed encrypted.closed]
  have next (safe : ok wallet.walletdb.calls = true ∨ strNew = pass) : ∃ kStored',
      after.Encrypted tools strNew vMasterKey nID kMasterKey' kStored' := by
    by_cases good : ok wallet.walletdb.calls = true
    · rw [if_pos good] at file
      exact ⟨kMasterKey', under, closed, seals, file ▸ encrypted.file.insert kMasterKey'⟩
    · obtain rfl := safe.resolve_left good
      rw [if_neg good] at file
      exact ⟨kStored, under, closed, encrypted.seals, file ▸ encrypted.file⟩
  refine ⟨⟨fun opens => ?_, fun safe => ?_⟩, fun safe => ?_⟩
  · by_contra both
    rw [not_or] at both
    rw [if_neg both.1] at file
    obtain ⟨loaded, read, opens⟩ := opens.disk
    obtain ⟨loaded', read', -, under'⟩ := encrypted.file.loadWallet encrypted.memory.size encrypted.seals cursor
    rw [file, read'] at read
    cases read
    exact both.2 ((under'.opens_iff ideal strNew).mp ((opens strNew).mpr rfl))
  · obtain ⟨kStored', encrypted'⟩ := next safe
    exact encrypted'.opensWith ideal cursor
  · obtain ⟨kStored', encrypted'⟩ := next safe
    exact ⟨vMasterKey, nID, kMasterKey', kStored', encrypted'⟩

end Encrypted

/-- The new key pool is filled while the wallet is open. -/
theorem SealedUnder.refill (ideal : tools.Ideal) (under : wallet.SealedUnder tools pass vMasterKey nID kMasterKey)
    {vchSecrets : List CSecret} (length : ∀ vchSecret ∈ vchSecrets, vchSecret.length = 32)
    (closed : wallet.walletdb.activeTxn.isSome = false)
    (ran : (do
      let _ ← WalletKeys.lock
      let _ ← WalletKeys.unlock tools pass
      let _ ← newKeyPool tools ok vchSecrets
      let _ ← WalletKeys.lock
      return true : Action Bool) wallet = (.ok result, after)) :
    result = true ∧ after.SealedUnder tools pass vMasterKey nID kMasterKey ∧
      after.walletdb.activeTxn.isSome = false ∧
      Grows tools.toKeyTools vMasterKey wallet.walletdb.file after.walletdb.file := by
  rw [bind_of_ok (lock_crypted under.store.crypted),
    bind_of_ok (under.lock.unlock ideal (isLocked_locked under.store.crypted) pass), if_pos rfl] at ran
  obtain ⟨fFilled, wallet', filled, ran⟩ := bind_eq_ok.mp ran
  have pool : Extends tools.toKeyTools vMasterKey { wallet with keystore := { wallet.keystore with vMasterKey } }
      wallet' := by
    refine extends_newKeyPool ideal under.size ?_ ?_ length filled
    · exact under.store.crypted
    · rfl
  have crypted : wallet'.keystore.fUseCrypto = true := pool.crypted.trans under.store.crypted
  rw [bind_of_ok (lock_crypted crypted)] at ran
  cases ran
  have closed' : wallet'.walletdb.activeTxn.isSome = false := pool.inTxn.trans closed
  refine ⟨rfl, ⟨under.size, ⟨crypted, pool.nonempty under.store.nonempty, fun entry member => ?_⟩, under.seals,
    pool.masterKeys.trans under.masterKeys⟩, closed', ?_⟩
  · exact (pool.seals entry member).elim (under.store.seals entry) id
  · have records := pool.records
    dsimp only at records
    rwa [view_closed closed, view_closed closed'] at records

namespace Plain

variable (plain : wallet.Plain tools)
include plain

theorem nodup_pubKeys : (wallet.keystore.mapKeys.entries.map (pubKeyOf tools.toKeyTools)).Nodup := by
  refine List.Nodup.map_on ?_ (List.NodupKeys.nodup wallet.keystore.mapKeys.nodupKeys)
  intro mKey member mKey' member' same
  apply List.NodupKeys.eq_of_fst_eq wallet.keystore.mapKeys.nodupKeys member member'
  rw [(plain.keys mKey member).2, (plain.keys mKey' member').2, same]

omit plain in
theorem onFile_eq_ok {f : CWalletDB → Bool × CWalletDB} (ran : onFile f wallet = (.ok result, after)) :
    f wallet.walletdb = (result, after.walletdb) ∧ after.keystore = wallet.keystore ∧
      after.mapMasterKeys = wallet.mapMasterKeys := by
  cases ran
  exact ⟨rfl, rfl, rfl⟩

/-- What the transaction does in which the keys are encrypted. -/
theorem encryptTxn (ideal : tools.Ideal) (size : vMasterKey.length = WALLET_CRYPTO_KEY_SIZE)
    {start wallet1 wallet2 : WalletKeys} {fWritten : Bool} (keystore : start.keystore = wallet.keystore)
    (view : start.walletdb.view = wallet.walletdb.file)
    (ran1 : onFile (writeMasterKey ok nID kMasterKey) start = (.ok fWritten, wallet1))
    (ran2 : encryptKeys tools ok vMasterKey wallet1 = (.ok true, wallet2))
    (ran3 : setMinVersion ok FEATURE_WALLETCRYPT true wallet2 = (.ok (), after)) :
    after.keystore.SealedUnder tools.toKeyTools vMasterKey ∧ after.mapMasterKeys = start.mapMasterKeys ∧
      Grows tools.toKeyTools vMasterKey (if ok start.walletdb.calls then
        wallet.walletdb.file.insert (.mkey nID) (.mkey kMasterKey) else wallet.walletdb.file) after.walletdb.view ∧
      (∀ mKey ∈ wallet.keystore.mapKeys.entries, .ckey (pubKeyOf tools.toKeyTools mKey) ∈ after.walletdb.view) ∧
      ((∀ mKey ∈ wallet.keystore.mapKeys.entries, ∀ k, IsPlain (pubKeyOf tools.toKeyTools mKey) k →
          k ∉ after.walletdb.view) ↔
        Erasable tools.toKeyTools ok wallet.walletdb.file (start.walletdb.calls + 1) wallet.keystore.mapKeys.entries) := by
  obtain ⟨written, keystore1, masterKeys1⟩ := onFile_eq_ok ran1
  have written := congrArg Prod.snd written
  dsimp only at written
  have view1 : wallet1.walletdb.view = if ok start.walletdb.calls then
      wallet.walletdb.file.insert (.mkey nID) (.mkey kMasterKey) else wallet.walletdb.file := by
    rw [← written, writeMasterKey, view_put_eq, put_overwrite, view]
  have calls1 : wallet1.walletdb.calls = start.walletdb.calls + 1 := by
    rw [← written]
    exact calls_put ..
  rw [encryptKeys, get_bind, keystore1, keystore, if_neg (by simp [plain.noCrypted, CCryptoKeyStore.isCrypted, plain.crypted]),
    modify_bind] at ran2
  obtain ⟨extends2, nonempty, encrypted, erased⟩ := encryptLoop_erases ideal size plain.nodup_pubKeys
    (fun mKey member => (plain.keys mKey member).1) rfl ran2
  have last : Extends tools.toKeyTools vMasterKey wallet2 after := extends_setMinVersion (by decide) ran3
  have all := extends2.trans last
  have records := all.records
  dsimp only at records
  rw [view1] at records
  refine ⟨⟨all.crypted.trans rfl, last.nonempty (nonempty plain.nonempty), fun entry member => ?_⟩,
    all.masterKeys.trans masterKeys1, records,
    fun mKey member => last.records.mem_ckey (encrypted mKey member), ?_⟩
  · rcases all.seals entry member with member | seals
    · dsimp only at member
      rw [keystore1, keystore, plain.noCrypted] at member
      exact absurd member List.not_mem_nil
    · exact seals
  · have same : ∀ mKey ∈ wallet.keystore.mapKeys.entries, ∀ k, IsPlain (pubKeyOf tools.toKeyTools mKey) k →
        (k ∈ after.walletdb.view ↔ k ∈ wallet2.walletdb.view) := fun mKey member k plain =>
      ⟨last.records.plain _ k plain, last.records.left _ k plain (encrypted mKey member)⟩
    have before : ∀ mKey ∈ wallet.keystore.mapKeys.entries, ∀ k, IsPlain (pubKeyOf tools.toKeyTools mKey) k →
        (k ∈ wallet1.walletdb.view ↔ k ∈ wallet.walletdb.file) := by
      rintro mKey - k plain
      rw [view1]
      split
      · rw [mem_insert]
        apply or_iff_right
        rintro rfl
        rcases plain with plain | plain <;> cases plain
      · rfl
    rw [← calls1, ← erasable_congr before]
    refine Iff.trans ?_ erased
    refine forall₂_congr fun mKey member => forall₂_congr fun k plain => ?_
    rw [same mKey member k plain]

variable {random : Randomness}

/-- Without a transaction, a master key is left. With one, the keys are encrypted in memory, and in the file there are
their records and those of the new key pool. -/
theorem encryptWith (ideal : tools.Ideal) (seals : tools.Seals pass random.vMasterKey kMasterKey)
    (ran : encryptWith tools ok pass random kMasterKey wallet = (.ok result, after)) :
    (ok wallet.walletdb.calls ≠ true → result = false ∧ after.mapMasterKeys ≠ []) ∧
    (ok wallet.walletdb.calls = true → result = true ∧
      ∃ nID, after.SealedUnder tools pass random.vMasterKey nID kMasterKey ∧ after.walletdb.activeTxn.isSome = false ∧
      Grows tools.toKeyTools random.vMasterKey (if ok (wallet.walletdb.calls + 1) then
        wallet.walletdb.file.insert (.mkey nID) (.mkey kMasterKey) else wallet.walletdb.file) after.walletdb.file ∧
      (∀ mKey ∈ wallet.keystore.mapKeys.entries, .ckey (pubKeyOf tools.toKeyTools mKey) ∈ after.walletdb.file) ∧
      ((∀ mKey ∈ wallet.keystore.mapKeys.entries, ∀ k, IsPlain (pubKeyOf tools.toKeyTools mKey) k →
          k ∉ after.walletdb.file) ↔
        Erasable tools.toKeyTools ok wallet.walletdb.file (wallet.walletdb.calls + 2) wallet.keystore.mapKeys.entries)) := by
  unfold WalletKeys.encryptWith at ran
  rw [modify_bind, get_bind] at ran
  generalize (wallet.nMasterKeyMaxID + 1) % 2 ^ 32 = nID at ran
  rw [putMasterKey, modify_bind] at ran
  obtain ⟨fBegun, start, ran0, ran⟩ := bind_eq_ok.mp ran
  obtain ⟨begun, keystore0, masterKeys0⟩ := onFile_eq_ok ran0
  dsimp only at begun keystore0 masterKeys0
  rw [plain.masterKeys, setMasterKey] at masterKeys0
  refine ⟨fun bad => ?_, fun good => ?_⟩
  · have failed : begin ok wallet.walletdb = wallet.walletdb.call false := if_neg fun both => bad both.1
    obtain rfl : false = fBegun := congrArg Prod.fst (failed.symm.trans begun)
    cases ran
    exact ⟨rfl, by rw [masterKeys0]; exact List.cons_ne_nil _ _⟩
  · obtain ⟨opened, begun', view, calls, inTxn⟩ := begin_good good plain.closed
    obtain ⟨rfl, rfl⟩ := Prod.mk.inj (begun'.symm.trans begun)
    rw [if_neg (not_not.mpr rfl)] at ran
    obtain ⟨fWritten, wallet1, ran1, ran⟩ := bind_eq_ok.mp ran
    obtain ⟨fEncrypted, wallet2, ran2, ran⟩ := bind_eq_ok.mp ran
    obtain ⟨_, encrypted, rest⟩ := lift_bind_eq_ok.mp ran
    obtain rfl : fEncrypted = true := not_not.mp (Check.rejectIf_eq_ok.mp encrypted)
    obtain ⟨_, wallet3, ran3, rest⟩ := bind_eq_ok.mp rest
    obtain ⟨fCommitted, wallet4, ran4, rest⟩ := bind_eq_ok.mp rest
    obtain ⟨_, committed, last⟩ := lift_bind_eq_ok.mp rest
    obtain rfl : fCommitted = true := not_not.mp (Check.rejectIf_eq_ok.mp committed)
    obtain ⟨store3, masterKeys3, records3, encrypted3, erased3⟩ :=
      plain.encryptTxn ideal random.size_master keystore0 view ran1 ran2 ran3
    obtain ⟨done, keystore4, masterKeys4⟩ := onFile_eq_ok ran4
    obtain ⟨file4, closed4⟩ := commit_done (congrArg Prod.fst done)
    rw [done] at file4 closed4
    dsimp only at file4 closed4
    rw [calls] at records3 erased3
    have under4 : wallet4.SealedUnder tools pass random.vMasterKey nID kMasterKey :=
      ⟨random.size_master, keystore4 ▸ store3, seals, masterKeys4.trans (masterKeys3.trans masterKeys0)⟩
    have file4 : wallet4.walletdb.file = wallet3.walletdb.view := file4
    obtain ⟨rfl, under, closed, records⟩ := under4.refill ideal random.size_secrets closed4 last
    rw [file4] at records
    refine ⟨rfl, nID, under, closed, records3.trans records, fun mKey member =>
      records.mem_ckey (encrypted3 mKey member), ?_⟩
    rw [← erased3]
    refine forall₂_congr fun mKey member => forall₂_congr fun k plain => not_congr ?_
    exact ⟨records.plain _ k plain, records.left _ k plain (encrypted3 mKey member)⟩

theorem encryptWallet (ideal : tools.Ideal)
    (ran : encryptWallet tools ok strNew nTimed random wallet = (.ok result, after)) : ∃ kMasterKey,
      tools.Seals strNew random.vMasterKey kMasterKey ∧
        WalletKeys.encryptWith tools ok strNew random kMasterKey wallet = (.ok result, after) := by
  obtain ⟨crypter, vchCryptedKey, derived, encrypts, seals⟩ := @PassphraseTools.exists_seals tools random.vMasterKey
    { vchSalt := random.vchSalt, nDeriveIterations := max 25000 nTimed } ideal random.size_master
    (le_max_of_le_left (by decide)) random.size_salt rfl strNew
  refine ⟨_, seals, ?_⟩
  have notCrypted : ¬ wallet.keystore.isCrypted = true := Bool.eq_false_iff.mp plain.crypted
  rw [WalletKeys.encryptWallet, get_bind, if_neg notCrypted] at ran
  dsimp only at ran
  rw [derived] at ran
  dsimp only at ran
  rwa [encrypts] at ran

/-- If the master key has been written and the plain records are gone, the file is sealed. -/
theorem fileSealed {records : WalletRecords} (grows : Grows tools.toKeyTools vMasterKey
      (wallet.walletdb.file.insert (.mkey nID) (.mkey kMasterKey)) records)
    (encrypted : ∀ mKey ∈ wallet.keystore.mapKeys.entries, .ckey (pubKeyOf tools.toKeyTools mKey) ∈ records)
    (erased : ∀ mKey ∈ wallet.keystore.mapKeys.entries, ∀ k, IsPlain (pubKeyOf tools.toKeyTools mKey) k → k ∉ records) :
    FileSealed tools.toKeyTools vMasterKey nID kMasterKey records where
  mkey n record := by
    rw [grows.mkey]
    by_cases same : n = nID
    · rw [same, lookup_insert, Option.some_inj, eq_comm]
      exact (and_iff_right rfl).symm
    · rw [lookup_insert_ne (by simpa using same), lookup_eq_none.mpr (plain.noMkey n)]
      exact iff_of_false (by simp) fun both => same both.1
  plain vchPubKey k isPlain member := by
    have member' := grows.plain vchPubKey k isPlain member
    rcases (mem_insert _).mp member' with rfl | member'
    · rcases isPlain with isPlain | isPlain <;> cases isPlain
    · obtain ⟨mKey, listed, rfl⟩ := plain.records vchPubKey k isPlain member'
      exact erased mKey listed k isPlain member
  seals vchPubKey record held := by
    refine (grows.added vchPubKey record held).resolve_left fun member => ?_
    rcases (mem_insert _).mp member with same | member
    · cases same
    · exact plain.noCkey vchPubKey member
  nonempty := by
    obtain ⟨mKey, member⟩ := List.exists_mem_of_ne_nil _ plain.nonempty
    exact ⟨_, encrypted mKey member⟩
  version := by
    apply grows.version
    rw [minVersion, lookup_insert_ne (by simp)]
    exact plain.version

/-- Encrypting a wallet keeps the promise just when the transaction begins, the master key is written and the plain
records are erased. -/
theorem atomic_iff (ideal : tools.Ideal) (cursor : Cursor)
    (ran : WalletKeys.encryptWallet tools ok strNew nTimed random wallet = (.ok result, after)) :
    (Atomic tools cursor strNew wallet (result, after) ↔ (PassphraseCall.encryptWallet strNew nTimed random).Safe tools
      ok wallet none) ∧ ((PassphraseCall.encryptWallet strNew nTimed random).Safe tools ok wallet none →
        after.Has tools (some strNew)) := by
  obtain ⟨kMasterKey, seals, ran⟩ := plain.encryptWallet ideal ran
  obtain ⟨failed, done⟩ := plain.encryptWith ideal seals ran
  by_cases good : ok wallet.walletdb.calls = true
  · obtain ⟨rfl, nID, under, closed, records, encrypted, erased⟩ := done good
    have safe (safe : (PassphraseCall.encryptWallet strNew nTimed random).Safe tools ok wallet none) :
        after.Encrypted tools strNew random.vMasterKey nID kMasterKey kMasterKey := by
      obtain ⟨-, written, erasable⟩ := safe
      rw [if_pos written] at records
      exact ⟨under, closed, seals, plain.fileSealed records encrypted (erased.mpr erasable)⟩
    refine ⟨⟨fun opens => ⟨good, ?_⟩, fun holds => (safe holds).opensWith ideal cursor⟩,
      fun holds => ⟨_, _, _, _, safe holds⟩⟩
    obtain ⟨loaded, read, opens⟩ := opens.disk
    rw [← erased]
    constructor
    · by_contra unwritten
      rw [if_neg unwritten] at records
      refine not_opens ?_ ((opens strNew).mpr rfl)
      rw [loadWallet] at read
      split at read
      · cases read
      · apply foldlM_masterKeys rfl read rfl
        rintro ⟨k, value⟩ listed nID rfl
        have held := mem_lookup_iff.mpr ((cursor.perm _).mem_iff.mp listed)
        rw [records.mkey, lookup_eq_none.mpr (plain.noMkey nID)] at held
        cases held
    · intro mKey listed k isPlain member
      cases read.symm.trans (loadWallet_mixed isPlain member (encrypted mKey listed))
  · obtain ⟨rfl, nonempty⟩ := failed good
    refine ⟨iff_of_false (fun unchanged => nonempty ?_) fun safe => good safe.1, fun safe => absurd safe.1 good⟩
    exact unchanged.masterKeys.trans plain.masterKeys

end Plain

namespace Encrypted

variable (encrypted : wallet.Encrypted tools pass vMasterKey nID kMasterKey kStored)
include encrypted

theorem encryptWallet (random : Randomness) :
    encryptWallet tools ok strNew nTimed random wallet = (.ok false, wallet) := by
  have crypted : wallet.keystore.isCrypted = true := encrypted.memory.store.crypted
  rw [WalletKeys.encryptWallet, get_bind, if_pos crypted]
  rfl

theorem has : wallet.Has tools (some pass) := ⟨vMasterKey, nID, kMasterKey, kStored, encrypted⟩

/-- Changing the passphrase keeps the promise just when the right old passphrase comes with a write that succeeds, or
with no change, or a wrong one with a locked wallet. -/
theorem atomic_iff (ideal : tools.Ideal) {strOld : SecureString}
    (ran : changeWalletPassphrase tools ok strOld strNew nTimed wallet = (.ok result, after)) :
    (Atomic tools cursor strNew wallet (result, after) ↔
      (PassphraseCall.changeWalletPassphrase strOld strNew nTimed).Safe tools ok wallet (some pass)) ∧
    ((PassphraseCall.changeWalletPassphrase strOld strNew nTimed).Safe tools ok wallet (some pass) →
      ∃ pass', after.Has tools pass') := by
  rw [PassphraseCall.Safe]
  by_cases right : strOld = pass
  · subst right
    obtain ⟨kMasterKey', seals, changed⟩ := encrypted.change_right ideal ok strNew nTimed
    cases changed.symm.trans ran
    rw [if_pos rfl]
    refine (encrypted.change_file ideal seals ?_ ?_ ?_).imp id fun next safe => ⟨some strNew, next safe⟩
    · exact { encrypted.memory.store with }
    · rfl
    · rfl
  · cases (encrypted.change_wrong ideal right strNew nTimed).symm.trans ran
    rw [if_neg right]
    have same (locked : wallet.isLocked = true) :
        ({ wallet with keystore := { wallet.keystore with vMasterKey := [] } } : WalletKeys) = wallet := by
      have empty : wallet.keystore.vMasterKey = [] :=
        List.isEmpty_iff.mp ((Bool.and_eq_true ..).mp locked).2
      obtain ⟨⟨_, _, _, _⟩, _, _, _, _, _, _⟩ := wallet
      cases empty
      rfl
    refine ⟨⟨fun unchanged => ?_, fun locked => ?_⟩, fun locked => ⟨some pass, ?_⟩⟩
    · exact unchanged.lockState.symm.trans (isLocked_locked encrypted.memory.store.crypted)
    · rw [same locked]
      exact .refl wallet
    · rw [same locked]
      exact encrypted.has

end Encrypted

/-- The passphrase opens a locked wallet. -/
theorem opened_of_has (ideal : tools.Ideal) (has : wallet.Has tools (some pass)) (locked : wallet.isLocked = true) :
    (unlock tools pass wallet).2.Has tools (some pass) ∧ (unlock tools pass wallet).2.isLocked = false := by
  obtain ⟨vMasterKey, nID, kMasterKey, kStored, encrypted⟩ := has
  rw [encrypted.memory.unlock ideal locked pass, if_pos rfl]
  refine ⟨⟨vMasterKey, nID, kMasterKey, kStored, ?_⟩, ?_⟩
  · exact { encrypted with memory := { encrypted.memory with store := { encrypted.memory.store with } } }
  · have nonempty : vMasterKey ≠ [] := by
      rintro rfl
      cases encrypted.memory.size
    simp [isLocked, CCryptoKeyStore.isLocked, nonempty]

/-- A call that returns keeps the promise just when it is safe, and then the wallet has one passphrase or none again. -/
theorem passphraseCall_atomic (ideal : tools.Ideal) (cursor : Cursor) (ok : ℕ → Bool) (call : PassphraseCall)
    {wallet after : WalletKeys} {pass : Option SecureString} {result : Bool} (has : wallet.Has tools pass)
    (ran : call.run tools ok wallet = (.ok result, after)) :
    (Atomic tools cursor call.newPassphrase wallet (result, after) ↔ call.Safe tools ok wallet pass) ∧
      (call.Safe tools ok wallet pass → ∃ pass', after.Has tools pass') := by
  cases pass with
  | none =>
    have plain : wallet.Plain tools := has
    cases call with
    | changeWalletPassphrase strOld strNew nTimed =>
      cases plain.changeWalletPassphrase.symm.trans ran
      exact ⟨iff_of_true (.refl wallet) trivial, fun _ => ⟨none, has⟩⟩
    | encryptWallet strNew nTimed random =>
      obtain ⟨atomic, next⟩ := plain.atomic_iff ideal cursor ran
      exact ⟨atomic, fun safe => ⟨some strNew, next safe⟩⟩
  | some pass =>
    obtain ⟨vMasterKey, nID, kMasterKey, kStored, encrypted⟩ := has
    cases call with
    | encryptWallet strNew nTimed random =>
      cases (encrypted.encryptWallet random).symm.trans ran
      exact ⟨iff_of_true (.refl wallet) trivial, fun _ => ⟨some pass, encrypted.has⟩⟩
    | changeWalletPassphrase strOld strNew nTimed => exact encrypted.atomic_iff ideal ran

end WalletKeys

/-! ## Calls that break the promise -/

namespace TestNet

open WalletKeys

/-- A number for a passphrase. -/
def passphraseCode (strKeyData : SecureString) : ℕ := strKeyData.foldr (fun byte n => 257 * n + byte.toNat + 1) 0

/-- A cipher that writes the key in front of 32 bytes, and the initialization vector behind them. -/
def sealCipher : Cipher where
  encrypt vMasterKey nIV vchPlaintext := some (vMasterKey ++ vchPlaintext ++ List.replicate nIV 0)
  decrypt vMasterKey nIV vchCiphertext :=
    let vchPlaintext := (vchCiphertext.drop 32).take 32
    if vchCiphertext = vMasterKey ++ vchPlaintext ++ List.replicate nIV 0 then some vchPlaintext else none

def passphraseTools : PassphraseTools where
  crypto := digests
  hash2 _ := 0
  curve := plainCurve
  cipher := sealCipher
  bytesToKey strKeyData _ _ := (List.replicate 32 1, passphraseCode strKeyData)
  i2d vchSecret _ fForm := (if fForm then 1 else 0) :: vchSecret
  d2i vchPrivKey := some (vchPrivKey.tail, plainCurve.regenerate vchPrivKey.tail, vchPrivKey.head? = some 1)

theorem passphraseCode_injective : Function.Injective passphraseCode := by
  intro left
  induction left with
  | nil =>
    rintro (_ | ⟨byte, right⟩) same
    · rfl
    · simp [passphraseCode] at same
  | cons byte left ih =>
    rintro (_ | ⟨byte', right⟩) same
    · simp [passphraseCode] at same
    · have bound := byte.toNat_lt
      have bound' := byte'.toNat_lt
      change 257 * passphraseCode left + byte.toNat + 1 = 257 * passphraseCode right + byte'.toNat + 1 at same
      have rest : passphraseCode left = passphraseCode right := by omega
      rw [ih rest, UInt8.toNat_inj.mp (by omega : byte.toNat = byte'.toNat)]

theorem sealCipher_decrypt {vMasterKey other vchPlaintext : valtype} (size : vMasterKey.length = 32)
    (size' : other.length = 32) (length : vchPlaintext.length = 32) (nIV nIV' : ℕ) (found : CSecret) :
    sealCipher.decrypt other nIV' (vMasterKey ++ vchPlaintext ++ List.replicate nIV 0) = some found ↔
      other = vMasterKey ∧ nIV' = nIV ∧ found = vchPlaintext := by
  have middle : ((vMasterKey ++ vchPlaintext ++ List.replicate nIV 0).drop 32).take 32 = vchPlaintext := by
    rw [List.append_assoc, List.drop_left' size, List.take_left' length]
  have same : vMasterKey ++ vchPlaintext ++ List.replicate nIV 0 = other ++ vchPlaintext ++ List.replicate nIV' 0 ↔
      other = vMasterKey ∧ nIV' = nIV := by
    constructor
    · intro same
      have count := congrArg List.length same
      rw [List.append_assoc, List.append_assoc] at same
      simp only [List.length_append, List.length_replicate, size, size'] at count
      exact ⟨(List.append_inj_left same (size.trans size'.symm)).symm, by omega⟩
    · rintro ⟨rfl, rfl⟩
      rfl
  change (if _ = _ then some _ else none) = _ ↔ _
  rw [middle, ← and_assoc, ← same]
  split
  · next holds => rw [Option.some_inj, and_iff_right holds, eq_comm]
  · next fails => exact iff_of_false nofun fun both => fails both.1

theorem passphraseTools_ideal : passphraseTools.Ideal where
  keys := {
    inverts := fun vMasterKey nIV vchSecret size length => ⟨_, rfl,
      (sealCipher_decrypt size size length nIV nIV vchSecret).mpr ⟨rfl, rfl, rfl⟩⟩
    fails := by
      intro vMasterKey other vchSecret fCompressed vchCryptedSecret size size' differs encrypted wrong decrypted
      cases encrypted
      change (if _ = _ then some _ else none) = _ at decrypted
      split at decrypted
      · next same =>
        rw [List.append_assoc, List.append_assoc] at same
        exact absurd (List.append_inj_left same (size.trans size'.symm)).symm differs
      · cases decrypted }
  size _ _ _ := rfl
  apart right wrong vchSalt nRounds vMasterKey vchCryptedKey differs size encrypted decrypted := by
    cases encrypted
    obtain ⟨-, same, -⟩ := (sealCipher_decrypt rfl rfl size _ _ _).mp decrypted
    exact differs (passphraseCode_injective same)

def ownPubKey : valtype := plainCurve.pubKey (List.replicate 32 7) false

/-- A wallet with one key, in memory and in its file. -/
def plainWallet : WalletKeys where
  keystore := { mapKeys := singleton ownPubKey (List.replicate 32 7, false) }
  walletdb := .new (singleton (.key ownPubKey) (.key (0 :: List.replicate 32 7)))

def fixedRandomness : Randomness where
  vMasterKey := masterKey
  vchSalt := List.replicate 8 5
  vchSecrets := []
  size_master := rfl
  size_salt := rfl
  size_secrets := nofun

/-- The wallet is encrypted, and opened with its passphrase. -/
def openWallet : WalletKeys :=
  (unlock passphraseTools [1] (encryptWallet passphraseTools (fun _ => true) [1] 0 fixedRandomness plainWallet).2).2

theorem plainWallet_has : plainWallet.Has passphraseTools none where
  crypted := rfl
  noCrypted := rfl
  keys mKey member := by
    cases List.mem_singleton.mp member
    exact ⟨rfl, rfl⟩
  nonempty := List.cons_ne_nil _ _
  masterKeys := rfl
  closed := rfl
  noMkey nID member := nomatch List.mem_singleton.mp member
  noCkey vchPubKey member := nomatch List.mem_singleton.mp member
  records vchPubKey k isPlain member := by
    obtain rfl := List.mem_singleton.mp member
    refine ⟨_, List.mem_singleton_self _, ?_⟩
    rcases isPlain with isPlain | isPlain
    · cases isPlain
      rfl
    · cases isPlain
  version := by decide

/-- The wallet is encrypted without failures, without the write of the master key, and without a transaction. -/
theorem plainWallet_encrypted :
    (encryptWallet passphraseTools (fun _ => true) [1] 0 fixedRandomness plainWallet).1.toOption = some true ∧
    (encryptWallet passphraseTools (fun n => n ≠ 1) [1] 0 fixedRandomness plainWallet).1.toOption = some true ∧
    (encryptWallet passphraseTools (fun _ => false) [1] 0 fixedRandomness plainWallet).1.toOption = some false := by
  decide +kernel

theorem toOption_fst {α σ : Type} {ran : Check α × σ} {a : α} (returned : ran.1.toOption = some a) :
    ran = (.ok a, ran.2) := Prod.ext (toOption_eq_some.mp returned) rfl

theorem plainWallet_safe : (PassphraseCall.encryptWallet [1] 0 fixedRandomness).Safe passphraseTools (fun _ => true)
    plainWallet none := ⟨rfl, rfl, fun _ => rfl, fun _ => rfl, trivial⟩

theorem openWallet_has : openWallet.Has passphraseTools (some [1]) ∧ openWallet.isLocked = false := by
  have plain : plainWallet.Plain passphraseTools := plainWallet_has
  have both := plain.atomic_iff passphraseTools_ideal ⟨fun records => records.entries, fun _ => .refl _⟩
    (toOption_fst plainWallet_encrypted.1)
  have locked : (encryptWallet passphraseTools (fun _ => true) [1] 0 fixedRandomness plainWallet).2.isLocked = true := by
    decide +kernel
  exact opened_of_has passphraseTools_ideal (both.2 plainWallet_safe) locked

end TestNet

open TestNet WalletKeys

/-- With the right passphrase and a write that succeeds, the passphrase is changed. -/
theorem passphraseCall_atomic_changed : ∃ after,
    changeWalletPassphrase passphraseTools (fun _ => true) [1] [2] 0 openWallet = (.ok true, after) ∧
      ∀ cursor, Atomic passphraseTools cursor [2] openWallet (true, after) := by
  obtain ⟨vMasterKey, nID, kMasterKey, kStored, encrypted⟩ := openWallet_has.1
  obtain ⟨kMasterKey', -, ran⟩ := encrypted.change_right passphraseTools_ideal (fun _ => true) [2] 0
  have safe : (PassphraseCall.changeWalletPassphrase [1] [2] 0).Safe passphraseTools (fun _ => true) openWallet
      (some [1]) := by
    rw [PassphraseCall.Safe, if_pos rfl]
    exact .inl rfl
  exact ⟨_, ran, fun cursor => (passphraseCall_atomic passphraseTools_ideal cursor (fun _ => true)
    (.changeWalletPassphrase [1] [2] 0) encrypted.has ran).1.mpr safe⟩

/-- A wrong passphrase locks an open wallet; a new passphrase does not reach the file; without a transaction there is a
master key in memory, and without the write of the master key there is none in the file. -/
theorem passphraseCall_not_atomic : plainWallet.Has passphraseTools none ∧
    openWallet.Has passphraseTools (some [1]) ∧
    (∃ after, changeWalletPassphrase passphraseTools (fun _ => true) [2] [3] 0 openWallet = (.ok false, after) ∧
      ∀ cursor, ¬ Atomic passphraseTools cursor [3] openWallet (false, after)) ∧
    (∃ after, changeWalletPassphrase passphraseTools (fun _ => false) [1] [3] 0 openWallet = (.ok true, after) ∧
      ∀ cursor, ¬ Atomic passphraseTools cursor [3] openWallet (true, after)) ∧
    (∃ after, encryptWallet passphraseTools (fun _ => false) [1] 0 fixedRandomness plainWallet = (.ok false, after) ∧
      ∀ cursor, ¬ Atomic passphraseTools cursor [1] plainWallet (false, after)) ∧
    ∃ after, encryptWallet passphraseTools (fun n => n ≠ 1) [1] 0 fixedRandomness plainWallet = (.ok true, after) ∧
      ∀ cursor, ¬ Atomic passphraseTools cursor [1] plainWallet (true, after) := by
  obtain ⟨-, unwritten, unbegun⟩ := plainWallet_encrypted
  obtain ⟨⟨vMasterKey, nID, kMasterKey, kStored, encrypted⟩, opened⟩ := openWallet_has
  have plain : plainWallet.Plain passphraseTools := plainWallet_has
  refine ⟨plainWallet_has, encrypted.has, ?_, ?_, ?_, ?_⟩
  · refine ⟨_, encrypted.change_wrong passphraseTools_ideal (by decide) [3] 0, fun cursor atomic => ?_⟩
    have same := atomic.lockState
    rw [opened, isLocked_locked encrypted.memory.store.crypted] at same
    cases same
  · obtain ⟨kMasterKey', -, ran⟩ := encrypted.change_right passphraseTools_ideal (fun _ => false) [3] 0
    refine ⟨_, ran, fun cursor atomic => ?_⟩
    have safe := (encrypted.atomic_iff passphraseTools_ideal ran).1.mp atomic
    rw [PassphraseCall.Safe, if_pos rfl] at safe
    rcases safe with written | same
    · cases written
    · cases same
  · refine ⟨_, toOption_fst unbegun, fun cursor atomic => ?_⟩
    cases ((plain.atomic_iff passphraseTools_ideal cursor (toOption_fst unbegun)).1.mp atomic).1
  · refine ⟨_, toOption_fst unwritten, fun cursor atomic => ?_⟩
    have missed := ((plain.atomic_iff passphraseTools_ideal cursor (toOption_fst unwritten)).1.mp atomic).2.1
    exact of_decide_eq_true missed rfl

end BitCrystal
