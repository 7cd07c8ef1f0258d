import BitCrystal.Model.WalletEncryption
import BitCrystal.Proofs.CryptoKeyStore

/-! # What the steps of encrypting a wallet do

An encrypted store and the file of its wallet are sealed under a master key. A passphrase opens such a store just when
the master key is sealed under it. Adding keys keeps the seals, and a file that is sealed is loaded into a wallet that
the same passphrase opens.
-/

namespace BitCrystal

open StateAction AList CCryptoKeyStore TxnStore CWalletDB

/-- A wrong passphrase never gives the master key back. -/
structure PassphraseTools.Ideal (tools : PassphraseTools) : Prop where
  keys : tools.toKeyTools.Ideal
  size : ∀ strKeyData vchSalt nRounds, (tools.bytesToKey strKeyData vchSalt nRounds).1.length = WALLET_CRYPTO_KEY_SIZE
  apart : ∀ right wrong vchSalt nRounds vMasterKey vchCryptedKey, wrong ≠ right →
    vMasterKey.length = WALLET_CRYPTO_KEY_SIZE →
    tools.cipher.encrypt (tools.bytesToKey right vchSalt nRounds).1 (tools.bytesToKey right vchSalt nRounds).2
      vMasterKey = some vchCryptedKey →
    tools.cipher.decrypt (tools.bytesToKey wrong vchSalt nRounds).1 (tools.bytesToKey wrong vchSalt nRounds).2
      vchCryptedKey ≠ some vMasterKey

/-- The master key is encrypted with the passphrase. -/
def PassphraseTools.Seals (tools : PassphraseTools) (strPassphrase : SecureString) (vMasterKey : CKeyingMaterial)
    (kMasterKey : CMasterKey) : Prop :=
  ∃ crypter, tools.setKeyFromPassphrase strPassphrase kMasterKey = some crypter ∧
    tools.cipher.encrypt crypter.1 crypter.2 vMasterKey = some kMasterKey.vchCryptedKey

/-- An encrypted key that the master key opens. -/
def KeyTools.SealsKey (tools : KeyTools) (vMasterKey : CKeyingMaterial) (entry : valtype × valtype) : Prop :=
  ∃ key : CSecret × Bool, key.1.length = 32 ∧ sealed tools vMasterKey key = some entry

/-- All keys of the store are encrypted with the master key, and there is one. -/
structure CCryptoKeyStore.SealedUnder (tools : KeyTools) (vMasterKey : CKeyingMaterial) (store : CCryptoKeyStore) :
    Prop where
  crypted : store.fUseCrypto = true
  nonempty : store.mapCryptedKeys.entries ≠ []
  seals : ∀ entry ∈ store.mapCryptedKeys.entries, tools.SealsKey vMasterKey entry.2

namespace PassphraseTools

variable {tools : PassphraseTools} {pass other : SecureString} {vMasterKey : CKeyingMaterial} {kMasterKey : CMasterKey}

theorem setKeyFromPassphrase_eq_some {crypter : CKeyingMaterial × Uint256} :
    tools.setKeyFromPassphrase pass kMasterKey = some crypter ↔ 1 ≤ kMasterKey.nDeriveIterations ∧
      kMasterKey.vchSalt.length = WALLET_CRYPTO_SALT_SIZE ∧ kMasterKey.nDerivationMethod = 0 ∧
        tools.bytesToKey pass kMasterKey.vchSalt kMasterKey.nDeriveIterations = crypter := by
  unfold setKeyFromPassphrase
  split
  · next bad =>
    refine ⟨nofun, fun ⟨rounds, salt, _⟩ => ?_⟩
    rcases bad with bad | bad
    · omega
    · exact absurd salt bad
  · next good =>
    rw [not_or, not_not, Nat.not_lt] at good
    split
    · next method => rw [Option.some_inj]; exact ⟨fun same => ⟨good.1, good.2, method, same⟩, fun both => both.2.2.2⟩
    · next method => exact ⟨nofun, fun ⟨_, _, method', _⟩ => absurd method' method⟩

/-- What the loops get out of a master key with a passphrase. -/
theorem Seals.decrypt (ideal : tools.Ideal) (size : vMasterKey.length = WALLET_CRYPTO_KEY_SIZE)
    (seals : tools.Seals pass vMasterKey kMasterKey) (other : SecureString) :
    ∃ crypter, tools.setKeyFromPassphrase other kMasterKey = some crypter ∧
      (tools.cipher.decrypt crypter.1 crypter.2 kMasterKey.vchCryptedKey = some vMasterKey ↔ other = pass) := by
  obtain ⟨crypter, derived, encrypted⟩ := seals
  obtain ⟨rounds, salt, method, rfl⟩ := setKeyFromPassphrase_eq_some.mp derived
  refine ⟨_, setKeyFromPassphrase_eq_some.mpr ⟨rounds, salt, method, rfl⟩, ?_, ?_⟩
  · intro decrypted
    by_contra wrong
    exact ideal.apart _ _ _ _ _ _ wrong size encrypted decrypted
  · rintro rfl
    obtain ⟨vchCryptedKey, encrypted', decrypted⟩ := ideal.keys.inverts _ (tools.bytesToKey other kMasterKey.vchSalt
      kMasterKey.nDeriveIterations).2 vMasterKey (ideal.size other kMasterKey.vchSalt _) size
    cases encrypted.symm.trans encrypted'
    exact decrypted

/-- A master key can be sealed under any passphrase, with at least one round and a salt of the right size. -/
theorem exists_seals (ideal : tools.Ideal) (size : vMasterKey.length = WALLET_CRYPTO_KEY_SIZE)
    (rounds : 1 ≤ kMasterKey.nDeriveIterations) (salt : kMasterKey.vchSalt.length = WALLET_CRYPTO_SALT_SIZE)
    (method : kMasterKey.nDerivationMethod = 0) (pass : SecureString) : ∃ crypter vchCryptedKey,
      tools.setKeyFromPassphrase pass kMasterKey = some crypter ∧
      tools.cipher.encrypt crypter.1 crypter.2 vMasterKey = some vchCryptedKey ∧
      tools.Seals pass vMasterKey { kMasterKey with vchCryptedKey } := by
  obtain ⟨vchCryptedKey, encrypted, -⟩ := ideal.keys.inverts _ (tools.bytesToKey pass kMasterKey.vchSalt
    kMasterKey.nDeriveIterations).2 vMasterKey (ideal.size pass kMasterKey.vchSalt kMasterKey.nDeriveIterations) size
  refine ⟨_, vchCryptedKey, setKeyFromPassphrase_eq_some.mpr ⟨rounds, salt, method, rfl⟩, encrypted, _, ?_, encrypted⟩
  exact setKeyFromPassphrase_eq_some.mpr ⟨rounds, salt, method, rfl⟩

theorem makeNewKey_sound {vchSecret : CSecret} (size : vchSecret.length = 32) (fCompressed : Bool) :
    (tools.makeNewKey vchSecret fCompressed).Sound vchSecret fCompressed := by
  cases fCompressed <;> exact ⟨rfl, size, rfl, rfl, rfl⟩

end PassphraseTools

namespace CCryptoKeyStore

variable {tools : KeyTools} {store : CCryptoKeyStore} {vMasterKey other : CKeyingMaterial}

theorem lock_crypted (crypted : store.fUseCrypto = true) : store.lock = (true, { store with vMasterKey := [] }) := by
  simp only [lock, setCrypted_crypted crypted]
  rfl

/-- A sealed store opens with its master key only. -/
theorem SealedUnder.unlock (ideal : tools.Ideal) (size : vMasterKey.length = WALLET_CRYPTO_KEY_SIZE)
    (under : store.SealedUnder tools vMasterKey) (other : CKeyingMaterial) : store.unlock tools other =
      .ok (decide (other = vMasterKey), if other = vMasterKey then { store with vMasterKey } else store) := by
  rw [CCryptoKeyStore.unlock, setCrypted_crypted under.crypted]
  dsimp only
  rw [if_neg (by simp)]
  cases entries : store.mapCryptedKeys.entries with
  | nil => exact absurd entries under.nonempty
  | cons entry rest =>
    obtain ⟨key, length, sealing⟩ := under.seals entry (by rw [entries]; exact List.mem_cons_self)
    have tested : opens tools other entry.2.1 entry.2.2 = .ok (decide (other = vMasterKey)) := by
      by_cases size' : other.length = WALLET_CRYPTO_KEY_SIZE
      · exact opens_sealed ideal size size' length sealing
      · have differs : other ≠ vMasterKey := fun same => size' (same ▸ size)
        rw [opens, Cipher.decryptSecret, if_pos size', decide_eq_false differs]
    dsimp only
    rw [tested, Check.ok_bind]
    by_cases same : other = vMasterKey
    · subst same
      simp [Check.pure_eq_ok]
    · simp [same, Check.pure_eq_ok]

end CCryptoKeyStore

namespace WalletKeys

variable {tools : PassphraseTools} {ok : ℕ → Bool} {wallet after : WalletKeys} {pass other : SecureString}
  {vMasterKey : CKeyingMaterial} {nID : ℕ} {kMasterKey : CMasterKey}

/-- The wallet is encrypted in memory, with one passphrase. -/
structure SealedUnder (tools : PassphraseTools) (pass : SecureString) (vMasterKey : CKeyingMaterial) (nID : ℕ)
    (kMasterKey : CMasterKey) (wallet : WalletKeys) : Prop where
  size : vMasterKey.length = WALLET_CRYPTO_KEY_SIZE
  store : wallet.keystore.SealedUnder tools.toKeyTools vMasterKey
  seals : tools.Seals pass vMasterKey kMasterKey
  masterKeys : wallet.mapMasterKeys = [(nID, kMasterKey)]

/-- `IsKeyType` of the type of a record. -/
def IsKeyType : WalletKey → Bool
  | .key _ | .wkey _ | .mkey _ | .ckey _ => true
  | _ => false

theorem onStore_ok {f : CCryptoKeyStore → Check (Bool × CCryptoKeyStore)} {fDone : Bool} {keystore : CCryptoKeyStore}
    (done : f wallet.keystore = .ok (fDone, keystore)) :
    onStore f wallet = (.ok fDone, { wallet with keystore }) := by
  simp only [onStore, done]

theorem SealedUnder.unlockLoop (ideal : tools.Ideal)
    (under : wallet.SealedUnder tools pass vMasterKey nID kMasterKey) (other : SecureString) :
    unlockLoop tools other [(nID, kMasterKey)] wallet = (.ok (decide (other = pass)),
      if other = pass then { wallet with keystore := { wallet.keystore with vMasterKey } } else wallet) := by
  obtain ⟨crypter, derived, opens⟩ := under.seals.decrypt ideal under.size other
  rw [WalletKeys.unlockLoop]
  dsimp only
  rw [derived]
  dsimp only
  cases decrypted : tools.cipher.decrypt crypter.1 crypter.2 kMasterKey.vchCryptedKey with
  | none =>
    have wrong : other ≠ pass := fun same => nomatch decrypted.symm.trans (opens.mpr same)
    rw [decide_eq_false wrong, if_neg wrong]
    rfl
  | some vMasterKey' =>
    have same : vMasterKey' = vMasterKey ↔ other = pass := by
      rw [← opens, decrypted, Option.some_inj]
    dsimp only
    rw [bind_of_ok (onStore_ok (under.store.unlock ideal.keys under.size vMasterKey'))]
    by_cases right : other = pass
    · rw [if_pos (decide_eq_true (same.mpr right)), decide_eq_true right, if_pos right, if_pos (same.mpr right)]
      rfl
    · have differs := mt same.mp right
      rw [decide_eq_false differs, if_neg nofun, decide_eq_false right, if_neg right, if_neg differs]
      rfl

/-- A locked wallet is opened by its passphrase only. -/
theorem SealedUnder.unlock (ideal : tools.Ideal) (under : wallet.SealedUnder tools pass vMasterKey nID kMasterKey)
    (locked : wallet.isLocked) (other : SecureString) : unlock tools other wallet = (.ok (decide (other = pass)),
      if other = pass then { wallet with keystore := { wallet.keystore with vMasterKey } } else wallet) := by
  rw [WalletKeys.unlock, get_bind, if_neg (not_not.mpr locked), ← under.unlockLoop ideal other]
  exact congrArg (WalletKeys.unlockLoop tools other · wallet) under.masterKeys

theorem lock_crypted (crypted : wallet.keystore.fUseCrypto = true) : lock wallet =
    (.ok true, { wallet with keystore := { wallet.keystore with vMasterKey := [] } }) := by
  rw [lock, onStore_ok (congrArg Except.ok (CCryptoKeyStore.lock_crypted crypted))]

/-- Locking keeps what is sealed. -/
theorem SealedUnder.lock (under : wallet.SealedUnder tools pass vMasterKey nID kMasterKey) :
    ({ wallet with keystore := { wallet.keystore with vMasterKey := [] } } : WalletKeys).SealedUnder tools pass
      vMasterKey nID kMasterKey :=
  { under with store := { under.store with } }

theorem isLocked_locked (crypted : wallet.keystore.fUseCrypto = true) :
    ({ wallet with keystore := { wallet.keystore with vMasterKey := [] } } : WalletKeys).isLocked = true := by
  rw [isLocked, CCryptoKeyStore.isLocked, isCrypted, crypted]
  rfl

/-- A record that holds an encrypted key of the public key. -/
def SealedRecord (tools : KeyTools) (vMasterKey : CKeyingMaterial) (vchPubKey : valtype) (record : WalletRecord) :
    Prop :=
  ∃ vchCryptedSecret, record = .ckey vchCryptedSecret ∧ tools.SealsKey vMasterKey (vchPubKey, vchCryptedSecret)

/-- The keys of records that hold a private key as it is. -/
def IsPlain (vchPubKey : valtype) (k : WalletKey) : Prop := k = .key vchPubKey ∨ k = .wkey vchPubKey

/-- Encrypted keys are added to records, and nothing is taken away but the plain records of such a key. -/
structure Grows (tools : KeyTools) (vMasterKey : CKeyingMaterial) (records records' : WalletRecords) : Prop where
  mkey : ∀ nID, records'.lookup (.mkey nID) = records.lookup (.mkey nID)
  kept : ∀ vchPubKey, .ckey vchPubKey ∈ records →
    records'.lookup (.ckey vchPubKey) = records.lookup (.ckey vchPubKey)
  added : ∀ vchPubKey record, records'.lookup (.ckey vchPubKey) = some record →
    .ckey vchPubKey ∈ records ∨ SealedRecord tools vMasterKey vchPubKey record
  plain : ∀ vchPubKey k, IsPlain vchPubKey k → k ∈ records' → k ∈ records
  left : ∀ vchPubKey k, IsPlain vchPubKey k → .ckey vchPubKey ∈ records → k ∈ records → k ∈ records'
  version : minVersion records ≤ CLIENT_VERSION → minVersion records' ≤ CLIENT_VERSION

namespace Grows

variable {tools : KeyTools} {records records' records'' : WalletRecords}

theorem refl (records : WalletRecords) : Grows tools vMasterKey records records where
  mkey _ := rfl
  kept _ _ := rfl
  added vchPubKey record held := .inl (lookup_isSome.mp (by rw [held]; rfl))
  plain _ _ _ := id
  left _ _ _ _ := id
  version := id

theorem mem_ckey (grows : Grows tools vMasterKey records records') {vchPubKey : valtype}
    (member : .ckey vchPubKey ∈ records) : .ckey vchPubKey ∈ records' := by
  rw [← lookup_isSome, grows.kept vchPubKey member]
  exact lookup_isSome.mpr member

theorem trans (first : Grows tools vMasterKey records records') (second : Grows tools vMasterKey records' records'') :
    Grows tools vMasterKey records records'' where
  mkey nID := (second.mkey nID).trans (first.mkey nID)
  kept vchPubKey member := (second.kept vchPubKey (first.mem_ckey member)).trans (first.kept vchPubKey member)
  added vchPubKey record held := by
    rcases second.added vchPubKey record held with member | sealing
    · exact first.added vchPubKey record ((second.kept vchPubKey member).symm.trans held)
    · exact .inr sealing
  plain vchPubKey k plain member := first.plain vchPubKey k plain (second.plain vchPubKey k plain member)
  left vchPubKey k plain member held :=
    second.left vchPubKey k plain (first.mem_ckey member) (first.left vchPubKey k plain member held)
  version bounded := second.version (first.version bounded)

/-- Other records do not matter. -/
theorem of_lookup (same : ∀ k, IsKeyType k → records'.lookup k = records.lookup k)
    (version : minVersion records ≤ CLIENT_VERSION → minVersion records' ≤ CLIENT_VERSION) :
    Grows tools vMasterKey records records' where
  mkey nID := same _ rfl
  kept vchPubKey _ := same _ rfl
  added vchPubKey record held := .inl (lookup_isSome.mp (by rw [← same _ rfl, held]; rfl))
  plain vchPubKey k plain member := by
    rw [← lookup_isSome, ← same k (by rcases plain with rfl | rfl <;> rfl)]
    exact lookup_isSome.mpr member
  left vchPubKey k plain _ member := by
    rw [← lookup_isSome, same k (by rcases plain with rfl | rfl <;> rfl)]
    exact lookup_isSome.mpr member
  version := version

/-- One record that holds neither a key nor the version. -/
theorem of_other {k : WalletKey} (other : ¬ IsKeyType k) (version : k ≠ .minversion)
    (same : ∀ k', k' ≠ k → records'.lookup k' = records.lookup k') : Grows tools vMasterKey records records' := by
  refine of_lookup (fun k' isKey => same k' ?_) fun bounded => ?_
  · rintro rfl
    exact other isKey
  · rwa [minVersion, same _ (Ne.symm version)]

end Grows

/-! ## Writing -/

section Writes

variable {db : CWalletDB} {vchPubKey vchCryptedSecret : valtype}

theorem grows_put {tools : KeyTools} {fOverwrite : Bool} {k : WalletKey} {record : WalletRecord}
    (other : ¬ IsKeyType k) (version : k ≠ .minversion) :
    Grows tools vMasterKey db.view (db.put ok fOverwrite k record).2.view := by
  rw [view_put_eq]
  split
  · exact .of_other other version fun k' differs => lookup_insert_ne differs
  · exact .refl _

theorem grows_erase {tools : KeyTools} {k : WalletKey} (other : ¬ IsKeyType k) (version : k ≠ .minversion) :
    Grows tools vMasterKey db.view (db.erase ok k).2.view := by
  rw [view_erase]
  split
  · exact .of_other other version fun k' differs => lookup_erase_ne differs
  · exact .refl _

theorem grows_writeMinVersion {tools : KeyTools} {nVersion : ℤ} (bounded : nVersion ≤ CLIENT_VERSION) :
    Grows tools vMasterKey db.view (writeMinVersion ok nVersion db).2.view := by
  rw [writeMinVersion, view_put_eq]
  split
  · refine .of_lookup (fun k isKey => lookup_insert_ne ?_) fun _ => ?_
    · rintro rfl
      cases isKey
    · rwa [minVersion, lookup_insert]
  · exact .refl _

section

variable (written : (writeCryptedKey ok vchPubKey vchCryptedSecret db).1 = true)
include written

/-- The encrypted key is written, and plain records of the key whose erasure does not fail are gone. -/
theorem lookup_writeCryptedKey (k : WalletKey) : (writeCryptedKey ok vchPubKey vchCryptedSecret db).2.view.lookup k =
      if ok (db.calls + 2) = true ∧ k = .wkey vchPubKey ∨ ok (db.calls + 1) = true ∧ k = .key vchPubKey then none
      else if k = .ckey vchPubKey then some (.ckey vchCryptedSecret) else db.view.lookup k := by
  unfold writeCryptedKey at written ⊢
  dsimp only at written ⊢
  split at written
  · cases written
  · next put =>
    rw [if_neg put, view_erase, view_erase, view_put_eq, if_pos (not_not.mp put)]
    simp only [calls_erase, calls_put, lookup_erase_if]
    by_cases wkey : ok (db.calls + 2) = true ∧ k = .wkey vchPubKey
    · rw [if_pos wkey, if_pos (.inl wkey)]
    · rw [if_neg wkey]
      by_cases key : ok (db.calls + 1) = true ∧ k = .key vchPubKey
      · rw [if_pos key, if_pos (.inr key)]
      · rw [if_neg key, if_neg (not_or.mpr ⟨wkey, key⟩)]
        by_cases same : k = .ckey vchPubKey
        · rw [if_pos same, same, lookup_insert]
        · rw [if_neg same, lookup_insert_ne same]

theorem notMem_of_writeCryptedKey : .ckey vchPubKey ∉ db.view := by
  unfold writeCryptedKey at written
  dsimp only at written
  split at written
  · cases written
  · next put => exact notMem_of_put (not_not.mp put)

theorem calls_writeCryptedKey : (writeCryptedKey ok vchPubKey vchCryptedSecret db).2.calls = db.calls + 3 := by
  unfold writeCryptedKey at written ⊢
  dsimp only at written ⊢
  split at written
  · cases written
  · next put => simp only [if_neg put, calls_erase, calls_put]

end

theorem isSome_writeCryptedKey : (writeCryptedKey ok vchPubKey vchCryptedSecret db).2.activeTxn.isSome =
    db.activeTxn.isSome := by
  unfold writeCryptedKey
  dsimp only
  split <;> simp only [isSome_erase, isSome_put]

theorem grows_writeCryptedKey {tools : KeyTools} (seals : tools.SealsKey vMasterKey (vchPubKey, vchCryptedSecret))
    (written : (writeCryptedKey ok vchPubKey vchCryptedSecret db).1 = true) :
    Grows tools vMasterKey db.view (writeCryptedKey ok vchPubKey vchCryptedSecret db).2.view where
  mkey nID := by simp [lookup_writeCryptedKey written]
  kept vchPubKey' member := by
    have differs : vchPubKey' ≠ vchPubKey := by
      rintro rfl
      exact notMem_of_writeCryptedKey written member
    simp [lookup_writeCryptedKey written, differs]
  added vchPubKey' record held := by
    by_cases same : vchPubKey' = vchPubKey
    · subst same
      rw [lookup_writeCryptedKey written, if_neg (by simp), if_pos rfl] at held
      exact .inr ⟨vchCryptedSecret, (Option.some.inj held).symm, seals⟩
    · simp only [lookup_writeCryptedKey written, WalletKey.ckey.injEq, same, reduceCtorEq, and_false, or_self,
        if_false] at held
      exact .inl (lookup_isSome.mp (by rw [held]; rfl))
  plain vchPubKey' k plain member := by
    rw [← lookup_isSome, lookup_writeCryptedKey written] at member
    split at member
    · cases member
    · rcases plain with rfl | rfl <;> exact lookup_isSome.mp member
  left vchPubKey' k plain member held := by
    have differs : vchPubKey' ≠ vchPubKey := by
      rintro rfl
      exact notMem_of_writeCryptedKey written member
    rw [← lookup_isSome, lookup_writeCryptedKey written]
    rcases plain with rfl | rfl <;> simpa [differs] using lookup_isSome.mpr held
  version bounded := by
    rw [minVersion, lookup_writeCryptedKey written]
    simp only [reduceCtorEq, and_false, or_self, if_false]
    exact bounded

end Writes

/-- Keys that the master key seals are added in memory and in the file. -/
structure Extends (tools : KeyTools) (vMasterKey : CKeyingMaterial) (wallet wallet' : WalletKeys) : Prop where
  records : Grows tools vMasterKey wallet.walletdb.view wallet'.walletdb.view
  inTxn : wallet'.walletdb.activeTxn.isSome = wallet.walletdb.activeTxn.isSome
  masterKeys : wallet'.mapMasterKeys = wallet.mapMasterKeys
  crypted : wallet'.keystore.fUseCrypto = wallet.keystore.fUseCrypto
  opened : wallet'.keystore.vMasterKey = wallet.keystore.vMasterKey
  nonempty : wallet.keystore.mapCryptedKeys.entries ≠ [] → wallet'.keystore.mapCryptedKeys.entries ≠ []
  seals : ∀ entry ∈ wallet'.keystore.mapCryptedKeys.entries,
    entry ∈ wallet.keystore.mapCryptedKeys.entries ∨ tools.SealsKey vMasterKey entry.2

namespace Extends

variable {tools : KeyTools} {wallet' wallet'' : WalletKeys}

theorem trans (first : Extends tools vMasterKey wallet wallet') (second : Extends tools vMasterKey wallet' wallet'') :
    Extends tools vMasterKey wallet wallet'' where
  records := first.records.trans second.records
  inTxn := second.inTxn.trans first.inTxn
  masterKeys := second.masterKeys.trans first.masterKeys
  crypted := second.crypted.trans first.crypted
  opened := second.opened.trans first.opened
  nonempty filled := second.nonempty (first.nonempty filled)
  seals entry member := (second.seals entry member).elim (first.seals entry) .inr

/-- Only the file has changed, and fields that hold no keys. -/
theorem of_records (records : Grows tools vMasterKey wallet.walletdb.view wallet'.walletdb.view)
    (inTxn : wallet'.walletdb.activeTxn.isSome = wallet.walletdb.activeTxn.isSome)
    (masterKeys : wallet'.mapMasterKeys = wallet.mapMasterKeys) (keystore : wallet'.keystore = wallet.keystore) :
    Extends tools vMasterKey wallet wallet' where
  records := records
  inTxn := inTxn
  masterKeys := masterKeys
  crypted := by rw [keystore]
  opened := by rw [keystore]
  nonempty filled := by rwa [keystore]
  seals entry member := .inl (keystore ▸ member)

theorem refl (wallet : WalletKeys) : Extends tools vMasterKey wallet wallet := of_records (.refl _) rfl rfl rfl

end Extends

section Adding

variable {key : CKey tools.curve} {vchSecret : CSecret} {fCompressed fAdded : Bool}

theorem addEncrypted_eq (ideal : tools.Ideal) (ok : ℕ → Bool) (size : vMasterKey.length = WALLET_CRYPTO_KEY_SIZE)
    (crypted : wallet.keystore.fUseCrypto = true) (sound : key.Sound vchSecret fCompressed) :
    ∃ entry, sealed tools.toKeyTools vMasterKey (vchSecret, fCompressed) = some entry ∧
      entry.1 = tools.curve.pubKey vchSecret fCompressed ∧ addEncrypted tools ok vMasterKey key wallet =
        (.ok (writeCryptedKey ok entry.1 entry.2 wallet.walletdb).1, { wallet with
          keystore := { wallet.keystore with
            mapCryptedKeys := wallet.keystore.mapCryptedKeys.insert (tools.crypto.hash160 entry.1) entry }
          walletdb := (writeCryptedKey ok entry.1 entry.2 wallet.walletdb).2 }) := by
  obtain ⟨vchCryptedSecret, encrypted, -⟩ :=
    exists_sealed ideal.keys (vchSecret, fCompressed) size sound.size
  refine ⟨_, Option.map_eq_some_iff.mpr ⟨vchCryptedSecret, encrypted, rfl⟩, rfl, ?_⟩
  dsimp only at encrypted ⊢
  rw [addEncrypted, sound.getPubKey, lift_bind_ok, sound.getSecret, lift_bind_ok]
  dsimp only
  rw [encrypted]
  dsimp only
  rw [addCryptedKey, bind_of_ok (onStore_ok (congrArg Except.ok (addCryptedKey_eq crypted ..)))]
  rfl

/-- A key that is added under the master key. -/
theorem extends_addEncrypted (ideal : tools.Ideal) (size : vMasterKey.length = WALLET_CRYPTO_KEY_SIZE)
    (crypted : wallet.keystore.fUseCrypto = true) (sound : key.Sound vchSecret fCompressed)
    (ran : addEncrypted tools ok vMasterKey key wallet = (.ok true, after)) :
    Extends tools.toKeyTools vMasterKey wallet after ∧ after.keystore.mapCryptedKeys.entries ≠ [] ∧
      ∃ vchCryptedSecret,
        (writeCryptedKey ok (tools.curve.pubKey vchSecret fCompressed) vchCryptedSecret wallet.walletdb) =
          (true, after.walletdb) := by
  obtain ⟨⟨_, vchCryptedSecret⟩, sealing, rfl, added⟩ := addEncrypted_eq ideal ok size crypted sound
  rw [added] at ran
  obtain ⟨written, rfl⟩ := Prod.mk.inj ran
  have written := Except.ok.inj written
  have seals : tools.SealsKey vMasterKey (tools.curve.pubKey vchSecret fCompressed, vchCryptedSecret) :=
    ⟨(vchSecret, fCompressed), sound.size, sealing⟩
  refine ⟨⟨grows_writeCryptedKey seals written, isSome_writeCryptedKey, rfl, rfl, rfl, fun _ => ?_, fun entry member => ?_⟩,
    ?_, vchCryptedSecret, Prod.ext written rfl⟩
  · dsimp only
    rw [entries_insert]
    exact List.cons_ne_nil _ _
  · dsimp only at member
    rw [entries_insert] at member
    rcases List.mem_cons.mp member with rfl | member
    · exact .inr seals
    · exact .inl ((List.kerase_sublist ..).mem member)
  · dsimp only
    rw [entries_insert]
    exact List.cons_ne_nil _ _

end Adding

theorem extends_onFile {tools : KeyTools} {f : CWalletDB → Bool × CWalletDB}
    (records : Grows tools vMasterKey wallet.walletdb.view (f wallet.walletdb).2.view)
    (inTxn : (f wallet.walletdb).2.activeTxn.isSome = wallet.walletdb.activeTxn.isSome) :
    Extends tools vMasterKey wallet (onFile f wallet).2 :=
  .of_records records inTxn rfl rfl

theorem extends_setMinVersion {tools : KeyTools} {nVersion : ℤ} {fExplicit : Bool}
    (bounded : nVersion ≤ CLIENT_VERSION) (ran : setMinVersion ok nVersion fExplicit wallet = (.ok (), after)) :
    Extends tools vMasterKey wallet after := by
  unfold setMinVersion at ran
  rw [get_bind] at ran
  split at ran
  · cases ran
    exact .refl _
  · dsimp only at ran
    have latest : (if fExplicit ∧ wallet.nWalletMaxVersion < nVersion then FEATURE_LATEST else nVersion) ≤
        CLIENT_VERSION := by
      split
      · decide
      · exact bounded
    generalize (if fExplicit ∧ wallet.nWalletMaxVersion < nVersion then FEATURE_LATEST else nVersion) = nVersion at *
    rw [modify_bind] at ran
    obtain ⟨fSetting, wallet1, ran1, ran⟩ := bind_eq_ok.mp ran
    obtain ⟨fVersion, wallet2, ran2, ran⟩ := bind_eq_ok.mp ran
    cases ran
    have first : Extends tools vMasterKey wallet wallet1 := by
      split at ran1
      · cases ran1
        exact .of_records (grows_put nofun nofun) (isSome_put ..) rfl rfl
      · cases ran1
        exact .of_records (.refl _) rfl rfl rfl
    apply first.trans
    split at ran2
    · cases ran2
      exact extends_onFile (grows_writeMinVersion latest) (isSome_put ..)
    · cases ran2
      exact .refl _

section Pool

variable {vchSecret : CSecret} {vchPubKey : valtype}

/-- A new key of an open wallet. -/
theorem extends_generateNewKey (ideal : tools.Ideal) (size : vMasterKey.length = WALLET_CRYPTO_KEY_SIZE)
    (crypted : wallet.keystore.fUseCrypto = true) (opened : wallet.keystore.vMasterKey = vMasterKey)
    (length : vchSecret.length = 32) (ran : generateNewKey tools ok vchSecret wallet = (.ok vchPubKey, after)) :
    Extends tools.toKeyTools vMasterKey wallet after := by
  unfold generateNewKey at ran
  rw [get_bind] at ran
  generalize decide (FEATURE_COMPRPUBKEY ≤ wallet.nWalletMaxVersion) = fCompressed at ran
  obtain ⟨_, wallet1, ran1, ran⟩ := bind_eq_ok.mp ran
  obtain ⟨fAdded, wallet2, ran2, ran⟩ := bind_eq_ok.mp ran
  obtain ⟨_, added, ran⟩ := lift_bind_eq_ok.mp ran
  have added : fAdded = true := not_not.mp (Check.rejectIf_eq_ok.mp added)
  subst added
  obtain rfl : wallet2 = after := congrArg Prod.snd ran
  have first : Extends tools.toKeyTools vMasterKey wallet wallet1 := by
    split at ran1
    · exact extends_setMinVersion (by decide) ran1
    · cases ran1
      exact .refl _
  have crypted1 : wallet1.keystore.isCrypted = true := first.crypted.trans crypted
  apply first.trans
  rw [addKey, get_bind, if_neg (not_not.mpr crypted1)] at ran2
  split at ran2
  · cases ran2
  · rw [first.opened, opened] at ran2
    exact (extends_addEncrypted ideal size crypted1 (PassphraseTools.makeNewKey_sound length fCompressed) ran2).1

theorem extends_fillPool (ideal : tools.Ideal) (size : vMasterKey.length = WALLET_CRYPTO_KEY_SIZE)
    {vchSecrets : List CSecret} {nIndex : ℕ} (crypted : wallet.keystore.fUseCrypto = true)
    (opened : wallet.keystore.vMasterKey = vMasterKey) (length : ∀ vchSecret ∈ vchSecrets, vchSecret.length = 32)
    (ran : fillPool tools ok nIndex vchSecrets wallet = (.ok (), after)) :
    Extends tools.toKeyTools vMasterKey wallet after := by
  induction vchSecrets generalizing wallet nIndex with
  | nil =>
    cases ran
    exact .refl _
  | cons vchSecret vchSecrets ih =>
    rw [fillPool] at ran
    obtain ⟨vchPubKey, wallet1, ran1, ran⟩ := bind_eq_ok.mp ran
    obtain ⟨fWritten, wallet2, ran2, ran⟩ := bind_eq_ok.mp ran
    rw [modify_bind] at ran
    cases ran2
    have made := extends_generateNewKey ideal size crypted opened (length _ List.mem_cons_self) ran1
    refine Extends.trans ?_ (ih ?_ ?_ (fun other member => length other (List.mem_cons_of_mem _ member)) ran)
    · exact made.trans (.of_records (grows_put (by nofun) (by nofun)) (isSome_put ..) rfl rfl)
    · exact made.crypted.trans crypted
    · exact made.opened.trans opened

theorem extends_erasePools {tools : KeyTools} {setKeyPool : List ℕ}
    (ran : erasePools ok setKeyPool wallet = (.ok (), after)) : Extends tools vMasterKey wallet after := by
  induction setKeyPool generalizing wallet with
  | nil =>
    cases ran
    exact .refl _
  | cons nIndex setKeyPool ih =>
    rw [erasePools] at ran
    obtain ⟨fErased, wallet1, ran1, ran⟩ := bind_eq_ok.mp ran
    cases ran1
    exact (extends_onFile (grows_erase (by nofun) (by nofun)) (isSome_erase _)).trans (ih ran)

theorem extends_newKeyPool (ideal : tools.Ideal) (size : vMasterKey.length = WALLET_CRYPTO_KEY_SIZE)
    {vchSecrets : List CSecret} {fFilled : Bool} (crypted : wallet.keystore.fUseCrypto = true)
    (opened : wallet.keystore.vMasterKey = vMasterKey) (length : ∀ vchSecret ∈ vchSecrets, vchSecret.length = 32)
    (ran : newKeyPool tools ok vchSecrets wallet = (.ok fFilled, after)) :
    Extends tools.toKeyTools vMasterKey wallet after := by
  unfold newKeyPool at ran
  rw [get_bind] at ran
  obtain ⟨_, wallet1, ran1, ran⟩ := bind_eq_ok.mp ran
  rw [modify_bind, get_bind] at ran
  have first : Extends tools.toKeyTools vMasterKey wallet { wallet1 with setKeyPool := [] } :=
    (extends_erasePools ran1).trans (.of_records (.refl _) rfl rfl rfl)
  apply first.trans
  split at ran
  · cases ran
    exact .refl _
  · obtain ⟨_, wallet2, ran2, ran⟩ := bind_eq_ok.mp ran
    cases ran
    exact extends_fillPool ideal size (first.crypted.trans crypted) (first.opened.trans opened) length ran2

end Pool

/-- The public key of an entry of the key map. -/
def pubKeyOf (tools : KeyTools) (mKey : Sigma fun _ : CKeyID => CSecret × Bool) : valtype :=
  tools.curve.pubKey mKey.2.1 mKey.2.2

/-- The plain records of the keys can be erased, when the calls for the first key begin with number `n`. -/
def Erasable (tools : KeyTools) (ok : ℕ → Bool) (records : WalletRecords) :
    ℕ → List (Sigma fun _ : CKeyID => CSecret × Bool) → Prop
  | _, [] => True
  | n, mKey :: rest => (.key (pubKeyOf tools mKey) ∈ records → ok (n + 1) = true) ∧
      (.wkey (pubKeyOf tools mKey) ∈ records → ok (n + 2) = true) ∧ Erasable tools ok records (n + 3) rest

theorem erasable_congr {tools : KeyTools} {records records' : WalletRecords} {n : ℕ}
    {entries : List (Sigma fun _ : CKeyID => CSecret × Bool)}
    (same : ∀ mKey ∈ entries, ∀ k, IsPlain (pubKeyOf tools mKey) k → (k ∈ records' ↔ k ∈ records)) :
    Erasable tools ok records' n entries ↔ Erasable tools ok records n entries := by
  induction entries generalizing n with
  | nil => rfl
  | cons mKey rest ih =>
    rw [Erasable, Erasable, same mKey List.mem_cons_self _ (.inl rfl), same mKey List.mem_cons_self _ (.inr rfl),
      ih fun other member => same other (List.mem_cons_of_mem _ member)]

/-- All keys are encrypted, and no plain record of them is left just when all of them can be erased. -/
theorem encryptLoop_erases (ideal : tools.Ideal) (size : vMasterKey.length = WALLET_CRYPTO_KEY_SIZE)
    {entries : List (Sigma fun _ : CKeyID => CSecret × Bool)} (distinct : (entries.map (pubKeyOf tools.toKeyTools)).Nodup)
    (length : ∀ mKey ∈ entries, mKey.2.1.length = 32) (crypted : wallet.keystore.fUseCrypto = true)
    (ran : encryptLoop tools ok vMasterKey entries wallet = (.ok true, after)) :
    Extends tools.toKeyTools vMasterKey wallet after ∧
      (entries ≠ [] → after.keystore.mapCryptedKeys.entries ≠ []) ∧
      (∀ mKey ∈ entries, .ckey (pubKeyOf tools.toKeyTools mKey) ∈ after.walletdb.view) ∧
      ((∀ mKey ∈ entries, ∀ k, IsPlain (pubKeyOf tools.toKeyTools mKey) k → k ∉ after.walletdb.view) ↔
        Erasable tools.toKeyTools ok wallet.walletdb.view wallet.walletdb.calls entries) := by
  induction entries generalizing wallet with
  | nil =>
    cases ran
    exact ⟨⟨.refl _, rfl, rfl, rfl, rfl, id, fun entry => .inl⟩, fun nonempty => absurd rfl nonempty, nofun,
      iff_of_true nofun trivial⟩
  | cons mKey rest ih =>
    obtain ⟨key, made, sound⟩ := CKey.setSecret_new tools.curve (length _ List.mem_cons_self) mKey.2.2
    rw [encryptLoop, made, lift_bind_ok] at ran
    obtain ⟨fAdded, wallet1, ran1, ran⟩ := bind_eq_ok.mp ran
    split at ran
    · cases ran
    · next added =>
      rw [not_not] at added
      subst added
      obtain ⟨first, nonempty, vchCryptedSecret, written⟩ := extends_addEncrypted ideal size crypted sound ran1
      obtain ⟨fresh, distinct⟩ := List.nodup_cons.mp distinct
      obtain ⟨others, -, encrypted, erased⟩ := ih distinct
        (fun other member => length other (List.mem_cons_of_mem _ member)) (first.crypted.trans crypted) ran
      change writeCryptedKey ok (pubKeyOf tools.toKeyTools mKey) _ _ = _ at written
      have done := congrArg Prod.fst written
      have lookup := lookup_writeCryptedKey done
      have calls := calls_writeCryptedKey done
      rw [written] at lookup calls
      have member : .ckey (pubKeyOf tools.toKeyTools mKey) ∈ wallet1.walletdb.view := by
        rw [← lookup_isSome, lookup]
        simp
      refine ⟨first.trans others, fun _ => others.nonempty nonempty, ?_, ?_⟩
      · intro other listed
        rcases List.mem_cons.mp listed with rfl | listed
        · exact others.records.mem_ckey member
        · exact encrypted other listed
      · have same : ∀ other ∈ rest, ∀ k, IsPlain (pubKeyOf tools.toKeyTools other) k →
            (k ∈ wallet1.walletdb.view ↔ k ∈ wallet.walletdb.view) := by
          intro other listed k plain
          have differs : pubKeyOf tools.toKeyTools other ≠ pubKeyOf tools.toKeyTools mKey := fun same =>
            fresh (same ▸ List.mem_map_of_mem listed)
          rw [← lookup_isSome, ← lookup_isSome, lookup]
          rcases plain with rfl | rfl <;> simp [differs]
        rw [List.forall_mem_cons, erased, calls, erasable_congr same, Erasable, ← and_assoc]
        refine and_congr_left fun _ => ?_
        have left (k : WalletKey) (plain : IsPlain (pubKeyOf tools.toKeyTools mKey) k) :
            k ∈ after.walletdb.view ↔ k ∈ wallet1.walletdb.view :=
          ⟨others.records.plain _ k plain, others.records.left _ k plain member⟩
        have key : .key (pubKeyOf tools.toKeyTools mKey) ∉ after.walletdb.view ↔
            (.key (pubKeyOf tools.toKeyTools mKey) ∈ wallet.walletdb.view → ok (wallet.walletdb.calls + 1) = true) := by
          rw [left _ (.inl rfl), ← lookup_isSome, ← lookup_isSome, lookup]
          by_cases good : ok (wallet.walletdb.calls + 1) = true <;> simp [good]
        have wkey : .wkey (pubKeyOf tools.toKeyTools mKey) ∉ after.walletdb.view ↔
            (.wkey (pubKeyOf tools.toKeyTools mKey) ∈ wallet.walletdb.view → ok (wallet.walletdb.calls + 2) = true) := by
          rw [left _ (.inr rfl), ← lookup_isSome, ← lookup_isSome, lookup]
          by_cases good : ok (wallet.walletdb.calls + 2) = true <;> simp [good]
        rw [← key, ← wkey]
        constructor
        · intro gone
          exact ⟨gone _ (.inl rfl), gone _ (.inr rfl)⟩
        · rintro ⟨noKey, noWkey⟩ k (rfl | rfl)
          · exact noKey
          · exact noWkey

abbrev Entry : Type := Sigma fun _ : WalletKey => WalletRecord

/-- The file holds one master key and the keys that it seals. -/
structure FileSealed (tools : KeyTools) (vMasterKey : CKeyingMaterial) (nID : ℕ) (kMasterKey : CMasterKey)
    (file : WalletRecords) : Prop where
  mkey : ∀ n record, file.lookup (.mkey n) = some record ↔ n = nID ∧ record = .mkey kMasterKey
  plain : ∀ vchPubKey k, IsPlain vchPubKey k → k ∉ file
  seals : ∀ vchPubKey record, file.lookup (.ckey vchPubKey) = some record →
    SealedRecord tools vMasterKey vchPubKey record
  nonempty : ∃ vchPubKey, .ckey vchPubKey ∈ file
  version : minVersion file ≤ CLIENT_VERSION

/-- The master key of a sealed file is replaced. -/
theorem FileSealed.insert {tools : KeyTools} {file : WalletRecords}
    (sealing : FileSealed tools vMasterKey nID kMasterKey file) (kMasterKey' : CMasterKey) :
    FileSealed tools vMasterKey nID kMasterKey' (file.insert (.mkey nID) (.mkey kMasterKey')) where
  mkey n record := by
    by_cases same : n = nID
    · rw [same, lookup_insert, Option.some_inj, eq_comm]
      exact (and_iff_right rfl).symm
    · rw [lookup_insert_ne (by simpa using same), sealing.mkey]
      exact iff_of_false (fun both => same both.1) fun both => same both.1
  plain vchPubKey k plain member := by
    rcases (mem_insert _).mp member with rfl | member
    · rcases plain with plain | plain <;> cases plain
    · exact sealing.plain vchPubKey k plain member
  seals vchPubKey record held := by
    rw [lookup_insert_ne (by nofun)] at held
    exact sealing.seals vchPubKey record held
  nonempty := by
    obtain ⟨vchPubKey, member⟩ := sealing.nonempty
    exact ⟨vchPubKey, (mem_insert _).mpr (.inr member)⟩
  version := by
    rw [minVersion, lookup_insert_ne (by nofun)]
    exact sealing.version

def masterKeyOf : Entry → Option (ℕ × CMasterKey)
  | ⟨.mkey nID, .mkey kMasterKey⟩ => some (nID, kMasterKey)
  | _ => none

/-- A record of a sealed file. -/
def OfSealed (tools : KeyTools) (vMasterKey : CKeyingMaterial) (nID : ℕ) (kMasterKey : CMasterKey) : Entry → Prop
  | ⟨.key _, _⟩ | ⟨.wkey _, _⟩ => False
  | ⟨.mkey n, record⟩ => n = nID ∧ record = .mkey kMasterKey
  | ⟨.ckey vchPubKey, record⟩ => SealedRecord tools vMasterKey vchPubKey record
  | _ => True

/-- What a wallet is like while a sealed file is loaded. -/
structure Loading (tools : KeyTools) (vMasterKey : CKeyingMaterial) (wallet : WalletKeys) : Prop where
  locked : wallet.keystore.vMasterKey = []
  plain : wallet.keystore.mapKeys = ∅
  crypted : wallet.keystore.mapCryptedKeys.entries ≠ [] → wallet.keystore.fUseCrypto = true
  seals : ∀ entry ∈ wallet.keystore.mapCryptedKeys.entries, tools.SealsKey vMasterKey entry.2

section Loading

variable {record : Entry} {records : List Entry} {cursor : Cursor} {file : WalletRecords}

theorem addCryptedKey_loading {tools : KeyTools} {store : CCryptoKeyStore} (plain : store.mapKeys = ∅)
    (vchPubKey vchCryptedSecret : valtype) : store.addCryptedKey tools vchPubKey vchCryptedSecret =
      (true, { store with
        fUseCrypto := true
        mapCryptedKeys := store.mapCryptedKeys.insert (tools.crypto.hash160 vchPubKey)
          (vchPubKey, vchCryptedSecret) }) := by
  cases crypted : store.fUseCrypto with
  | true => rw [addCryptedKey_eq crypted, crypted]
  | false => simp [CCryptoKeyStore.addCryptedKey, setCrypted, crypted, plain]

/-- One record of a sealed file. -/
theorem Loading.readKeyValue (loading : Loading tools.toKeyTools vMasterKey wallet)
    (fine : OfSealed tools.toKeyTools vMasterKey nID kMasterKey record)
    (whole : wallet.mapMasterKeys ++ (record :: records).filterMap masterKeyOf = [(nID, kMasterKey)]) :
    ∃ wallet', readKeyValue tools wallet record = some wallet' ∧ Loading tools.toKeyTools vMasterKey wallet' ∧
      wallet'.mapMasterKeys ++ records.filterMap masterKeyOf = [(nID, kMasterKey)] ∧
      (wallet.keystore.mapCryptedKeys.entries ≠ [] ∨ (∃ vchPubKey, record.1 = .ckey vchPubKey) →
        wallet'.keystore.mapCryptedKeys.entries ≠ []) := by
  obtain ⟨k, value⟩ := record
  have other : masterKeyOf ⟨k, value⟩ = none → (∀ vchPubKey, k ≠ .ckey vchPubKey) →
      wallet.mapMasterKeys ++ records.filterMap masterKeyOf = [(nID, kMasterKey)] ∧
      (wallet.keystore.mapCryptedKeys.entries ≠ [] ∨ (∃ vchPubKey, k = .ckey vchPubKey) →
        wallet.keystore.mapCryptedKeys.entries ≠ []) := by
    intro absent differs
    rw [List.filterMap_cons_none absent] at whole
    exact ⟨whole, fun crypted => crypted.elim id fun ⟨vchPubKey, same⟩ => absurd same (differs vchPubKey)⟩
  cases k with
  | key vchPubKey => exact fine.elim
  | wkey vchPubKey => exact fine.elim
  | mkey n =>
    obtain ⟨rfl, rfl⟩ := fine
    have found : masterKeyOf ⟨.mkey n, .mkey kMasterKey⟩ = some (n, kMasterKey) := rfl
    rw [List.filterMap_cons_some found] at whole
    have empty : wallet.mapMasterKeys = [] := by
      rcases List.append_eq_singleton_iff.mp whole with both | both
      · exact both.1
      · exact nomatch both.2
    rw [empty, List.nil_append] at whole
    refine ⟨{ wallet with
      mapMasterKeys := [(n, kMasterKey)]
      nMasterKeyMaxID := max wallet.nMasterKeyMaxID n }, ?_, { loading with }, whole, ?_⟩
    · simp only [WalletKeys.readKeyValue, empty, List.map_nil, List.not_mem_nil, if_false, setMasterKey]
    · rintro (nonempty | ⟨_, ⟨⟩⟩)
      exact nonempty
  | ckey vchPubKey =>
    obtain ⟨vchCryptedSecret, rfl, seals⟩ := fine
    rw [List.filterMap_cons_none rfl] at whole
    refine ⟨{ wallet with keystore := { wallet.keystore with
      fUseCrypto := true
      mapCryptedKeys := wallet.keystore.mapCryptedKeys.insert (tools.crypto.hash160 vchPubKey)
        (vchPubKey, vchCryptedSecret) } }, by
      rw [WalletKeys.readKeyValue, addCryptedKey_loading loading.plain]
      rfl, ⟨loading.locked, loading.plain, fun _ => rfl,
      fun entry member => ?_⟩, whole, fun _ => ?_⟩
    · dsimp only at member
      rw [entries_insert] at member
      rcases List.mem_cons.mp member with rfl | member
      · exact seals
      · exact loading.seals entry ((List.kerase_sublist ..).mem member)
    · dsimp only
      rw [entries_insert]
      exact List.cons_ne_nil _ _
  | pool nIndex => exact ⟨_, rfl, { loading with }, other rfl nofun⟩
  | _ => exact ⟨wallet, rfl, loading, other rfl nofun⟩

theorem Loading.foldlM (loading : Loading tools.toKeyTools vMasterKey wallet)
    (fine : ∀ record ∈ records, OfSealed tools.toKeyTools vMasterKey nID kMasterKey record)
    (whole : wallet.mapMasterKeys ++ records.filterMap masterKeyOf = [(nID, kMasterKey)])
    (crypted : wallet.keystore.mapCryptedKeys.entries ≠ [] ∨ ∃ record ∈ records, ∃ vchPubKey, record.1 = .ckey vchPubKey) :
    ∃ wallet', records.foldlM (WalletKeys.readKeyValue tools) wallet = .some wallet' ∧
      Loading tools.toKeyTools vMasterKey wallet' ∧ wallet'.mapMasterKeys = [(nID, kMasterKey)] ∧
      wallet'.keystore.mapCryptedKeys.entries ≠ [] := by
  induction records generalizing wallet with
  | nil =>
    rw [List.filterMap_nil, List.append_nil] at whole
    refine ⟨wallet, rfl, loading, whole, crypted.elim id ?_⟩
    rintro ⟨_, listed, -⟩
    exact absurd listed List.not_mem_nil
  | cons record records ih =>
    obtain ⟨wallet', read, loading', whole', crypted'⟩ := loading.readKeyValue (fine _ List.mem_cons_self) whole
    obtain ⟨last, rest, done⟩ := ih loading' (fun other member => fine other (List.mem_cons_of_mem _ member)) whole' (by
      rcases crypted with nonempty | ⟨other, listed, encrypted⟩
      · exact .inl (crypted' (.inl nonempty))
      · rcases List.mem_cons.mp listed with rfl | listed
        · exact .inl (crypted' (.inr encrypted))
        · exact .inr ⟨other, listed, encrypted⟩)
    refine ⟨last, ?_, done⟩
    rw [List.foldlM_cons, read]
    exact rest

theorem FileSealed.filterMap {tools : KeyTools} (sealing : FileSealed tools vMasterKey nID kMasterKey file)
    (cursor : Cursor) : (cursor.toList file).filterMap masterKeyOf = [(nID, kMasterKey)] := by
  have nodup : (cursor.toList file).Nodup :=
    (cursor.perm file).nodup_iff.mpr (List.NodupKeys.nodup file.nodupKeys)
  have member : ∀ pair, pair ∈ (cursor.toList file).filterMap masterKeyOf ↔ pair ∈ [(nID, kMasterKey)] := by
    intro pair
    rw [List.mem_singleton, List.mem_filterMap]
    constructor
    · rintro ⟨⟨k, value⟩, listed, found⟩
      have held := mem_lookup_iff.mpr ((cursor.perm file).mem_iff.mp listed)
      unfold masterKeyOf at found
      split at found
      · next same =>
        cases same
        cases found
        obtain ⟨rfl, same⟩ := (sealing.mkey _ _).mp held
        cases same
        rfl
      · cases found
    · rintro rfl
      refine ⟨⟨.mkey nID, .mkey kMasterKey⟩, (cursor.perm file).mem_iff.mpr ?_, rfl⟩
      exact mem_lookup_iff.mp ((sealing.mkey _ _).mpr ⟨rfl, rfl⟩)
  refine List.perm_singleton.mp ((List.perm_ext_iff_of_nodup ?_ (List.nodup_singleton _)).mpr member)
  refine nodup.filterMap fun left right pair found found' => ?_
  unfold masterKeyOf at found found'
  split at found
  · split at found'
    · cases found
      cases found'
      rfl
    · cases found'
  · cases found

/-- A sealed file is loaded into a locked wallet that is sealed in the same way. -/
theorem FileSealed.loadWallet (sealing : FileSealed tools.toKeyTools vMasterKey nID kMasterKey file)
    (size : vMasterKey.length = WALLET_CRYPTO_KEY_SIZE) (seals : tools.Seals pass vMasterKey kMasterKey)
    (cursor : Cursor) : ∃ loaded, loadWallet tools cursor file = some loaded ∧ loaded.isLocked = true ∧
      loaded.SealedUnder tools pass vMasterKey nID kMasterKey := by
  have start : Loading tools.toKeyTools vMasterKey {
      walletdb := .new file
      nWalletVersion := minVersion file
      nWalletMaxVersion := max FEATURE_BASE (minVersion file) } := ⟨rfl, rfl, absurd rfl, nofun⟩
  obtain ⟨vchPubKey, member⟩ := sealing.nonempty
  obtain ⟨value, held⟩ := Option.isSome_iff_exists.mp (lookup_isSome.mpr member)
  have crypted : ∃ record ∈ cursor.toList file, ∃ vchPubKey, record.1 = .ckey vchPubKey :=
    ⟨_, (cursor.perm file).mem_iff.mpr (mem_lookup_iff.mp held), vchPubKey, rfl⟩
  have fine : ∀ record ∈ cursor.toList file, OfSealed tools.toKeyTools vMasterKey nID kMasterKey record := by
    rintro ⟨k, value⟩ listed
    have held := mem_lookup_iff.mpr ((cursor.perm file).mem_iff.mp listed)
    have member : k ∈ file := lookup_isSome.mp (by rw [held]; rfl)
    cases k with
    | key vchPubKey => exact sealing.plain vchPubKey _ (.inl rfl) member
    | wkey vchPubKey => exact sealing.plain vchPubKey _ (.inr rfl) member
    | mkey n => exact (sealing.mkey n value).mp held
    | ckey vchPubKey => exact sealing.seals vchPubKey value held
    | _ => trivial
  obtain ⟨loaded, read, loading, masterKeys, nonempty⟩ :=
    start.foldlM fine (sealing.filterMap cursor) (.inr crypted)
  refine ⟨loaded, ?_, ?_, size, ⟨loading.crypted nonempty, nonempty, loading.seals⟩, seals, masterKeys⟩
  · rw [WalletKeys.loadWallet, if_neg (not_lt.mpr sealing.version), read]
  · rw [isLocked, CCryptoKeyStore.isLocked, isCrypted, loading.crypted nonempty, loading.locked]
    rfl

/-- A record with a private key, plain or encrypted. -/
def KindOf (plain : Bool) (k : WalletKey) : Prop :=
  if plain then ∃ vchPubKey, IsPlain vchPubKey k else ∃ vchPubKey, k = .ckey vchPubKey

/-- The wallet has loaded keys of one kind. -/
def HasKind (plain : Bool) (wallet : WalletKeys) : Prop :=
  if plain then wallet.keystore.fUseCrypto = false ∧ wallet.keystore.mapKeys.entries ≠ []
  else wallet.keystore.fUseCrypto = true

theorem toOption_eq_some {α : Type} {check : Check α} {a : α} : check.toOption = some a ↔ check = .ok a := by
  cases check with
  | error failure => exact ⟨nofun, nofun⟩
  | ok value => exact ⟨fun same => congrArg _ (Option.some.inj same), fun same => congrArg _ (Except.ok.inj same)⟩

theorem addKey_kind {tools : KeyTools} {store : CCryptoKeyStore} {key : CKey tools.curve} {fAdded : Bool}
    {store' : CCryptoKeyStore} (locked : store.vMasterKey = [])
    (added : store.addKey tools key = .ok (fAdded, store')) (done : fAdded = true) :
    store'.vMasterKey = [] ∧ store.fUseCrypto = false ∧ store'.fUseCrypto = false ∧ store'.mapKeys.entries ≠ [] := by
  subst done
  unfold CCryptoKeyStore.addKey at added
  cases crypted : store.fUseCrypto with
  | true =>
    have isLocked : store.isLocked = true := by
      rw [CCryptoKeyStore.isLocked, isCrypted, crypted, locked]
      rfl
    have crypted : store.isCrypted = true := crypted
    rw [if_neg (not_not.mpr crypted), if_pos isLocked] at added
    cases added
  | false =>
    rw [if_pos (Bool.not_eq_true _ ▸ crypted)] at added
    obtain ⟨secret, -, added⟩ := Check.bind_eq_ok.mp added
    obtain ⟨vchPubKey, -, added⟩ := Check.bind_eq_ok.mp added
    cases added
    refine ⟨locked, rfl, crypted, ?_⟩
    dsimp only
    rw [entries_insert]
    exact List.cons_ne_nil _ _

theorem readKey_kind {vchPubKey vchPrivKey : valtype} (locked : wallet.keystore.vMasterKey = [])
    (read : readKey tools vchPubKey vchPrivKey wallet = some after) :
    after.keystore.vMasterKey = [] ∧ HasKind true after ∧ ¬ HasKind false wallet ∧
      after.mapMasterKeys = wallet.mapMasterKeys := by
  unfold readKey at read
  obtain ⟨key, -, read⟩ := Option.bind_eq_some_iff.mp read
  obtain ⟨vchPubKey', -, read⟩ := Option.bind_eq_some_iff.mp read
  obtain ⟨fValid, -, read⟩ := Option.bind_eq_some_iff.mp read
  split at read
  · cases read
  · obtain ⟨⟨fAdded, keystore⟩, added, read⟩ := Option.bind_eq_some_iff.mp read
    split at read
    · next done =>
      cases read
      obtain ⟨locked', plain, plain', nonempty⟩ := addKey_kind locked (toOption_eq_some.mp added) done
      refine ⟨locked', ⟨plain', nonempty⟩, fun crypted => ?_, rfl⟩
      cases (show wallet.keystore.fUseCrypto = true from crypted).symm.trans plain
    · cases read

theorem addCryptedKey_kind {tools : KeyTools} {store : CCryptoKeyStore} {vchPubKey vchCryptedSecret : valtype}
    (done : (store.addCryptedKey tools vchPubKey vchCryptedSecret).1 = true) :
    (store.addCryptedKey tools vchPubKey vchCryptedSecret).2.fUseCrypto = true ∧
      (store.addCryptedKey tools vchPubKey vchCryptedSecret).2.vMasterKey = store.vMasterKey ∧
      (store.fUseCrypto = false → store.mapKeys.entries = []) := by
  cases crypted : store.fUseCrypto with
  | true =>
    rw [addCryptedKey_eq crypted]
    exact ⟨crypted, rfl, nofun⟩
  | false =>
    cases entries : store.mapKeys.entries with
    | nil =>
      rw [addCryptedKey_loading (AList.ext entries)]
      exact ⟨rfl, rfl, fun _ => rfl⟩
    | cons entry rest =>
      simp [CCryptoKeyStore.addCryptedKey, setCrypted, crypted, entries] at done

/-- One record: keys of both kinds never come together. -/
theorem readKeyValue_kind (locked : wallet.keystore.vMasterKey = [])
    (read : readKeyValue tools wallet record = some after) :
    after.keystore.vMasterKey = [] ∧ ∀ plain, HasKind plain wallet ∨ KindOf plain record.1 → HasKind plain after := by
  obtain ⟨k, value⟩ := record
  have plain (vchPubKey vchPrivKey : valtype) (noCkey : ∀ vchPubKey, k ≠ .ckey vchPubKey)
      (read : readKey tools vchPubKey vchPrivKey wallet = some after) :
      after.keystore.vMasterKey = [] ∧ ∀ plain, HasKind plain wallet ∨ KindOf plain k → HasKind plain after := by
    obtain ⟨locked', has, other, -⟩ := readKey_kind locked read
    refine ⟨locked', Bool.rec (fun kind => ?_) fun _ => has⟩
    rcases kind with kind | ⟨vchPubKey, same⟩
    · exact absurd kind other
    · exact absurd same (noCkey vchPubKey)
  have skip (kept : after.keystore = wallet.keystore) (noKey : ∀ plain, ¬ KindOf plain k) :
      after.keystore.vMasterKey = [] ∧ ∀ plain, HasKind plain wallet ∨ KindOf plain k → HasKind plain after := by
    refine ⟨kept ▸ locked, fun plain kind => ?_⟩
    rw [HasKind, kept]
    exact kind.resolve_right (noKey plain)
  cases k with
  | key vchPubKey =>
    cases value with
    | key vchPrivKey => exact plain vchPubKey vchPrivKey nofun read
    | _ => cases read
  | wkey vchPubKey =>
    cases value with
    | key vchPrivKey => exact plain vchPubKey vchPrivKey nofun read
    | _ => cases read
  | mkey n =>
    cases value with
    | mkey kMasterKey =>
      rw [readKeyValue] at read
      split at read
      · cases read
      · cases read
        exact skip rfl (Bool.rec nofun nofun)
    | _ => cases read
  | ckey vchPubKey =>
    cases value with
    | ckey vchCryptedSecret =>
      rw [readKeyValue] at read
      split at read
      · next added =>
        cases read
        obtain ⟨crypted, kept, noPlain⟩ := addCryptedKey_kind added
        refine ⟨kept.trans locked, Bool.rec (fun _ => crypted) fun kind => ?_⟩
        rcases kind with ⟨plain, nonempty⟩ | ⟨vchPubKey', differs⟩
        · exact absurd (noPlain plain) nonempty
        · exact nomatch differs
      · cases read
    | _ => cases read
  | pool nIndex =>
    cases read
    exact skip rfl (Bool.rec nofun nofun)
  | _ =>
    cases read
    exact skip rfl (Bool.rec nofun nofun)

theorem foldlM_kind (locked : wallet.keystore.vMasterKey = [])
    (read : records.foldlM (readKeyValue tools) wallet = some after) (plain : Bool)
    (kind : HasKind plain wallet ∨ ∃ record ∈ records, KindOf plain record.1) : HasKind plain after := by
  induction records generalizing wallet with
  | nil =>
    cases read
    rcases kind with kind | ⟨_, listed, -⟩
    · exact kind
    · exact absurd listed List.not_mem_nil
  | cons record records ih =>
    rw [List.foldlM_cons] at read
    obtain ⟨wallet', first, rest⟩ := Option.bind_eq_some_iff.mp read
    obtain ⟨locked', keeps⟩ := readKeyValue_kind locked first
    apply ih locked' rest
    rcases kind with kind | ⟨other, listed, kind⟩
    · exact .inl (keeps plain (.inl kind))
    · rcases List.mem_cons.mp listed with rfl | listed
      · exact .inl (keeps plain (.inr kind))
      · exact .inr ⟨other, listed, kind⟩

/-- A file with plain keys and encrypted ones cannot be loaded. -/
theorem loadWallet_mixed {k : WalletKey} {vchPubKey vchPubKey' : valtype} (plain : IsPlain vchPubKey k)
    (member : k ∈ file) (member' : .ckey vchPubKey' ∈ file) : loadWallet tools cursor file = none := by
  rw [loadWallet]
  split
  · rfl
  · refine Option.eq_none_iff_forall_ne_some.mpr fun after read => ?_
    have listed {k : WalletKey} (member : k ∈ file) : ∃ record ∈ cursor.toList file, record.1 = k := by
      obtain ⟨value, held⟩ := Option.isSome_iff_exists.mp (lookup_isSome.mpr member)
      exact ⟨⟨k, value⟩, (cursor.perm file).mem_iff.mpr (mem_lookup_iff.mp held), rfl⟩
    obtain ⟨record, listed1, rfl⟩ := listed member
    obtain ⟨record', listed2, same⟩ := listed member'
    have hasPlain := foldlM_kind rfl read true (.inr ⟨record, listed1, vchPubKey, plain⟩)
    have hasCrypted := foldlM_kind rfl read false (.inr ⟨record', listed2, vchPubKey', same⟩)
    cases hasPlain.1.symm.trans hasCrypted

/-- Records without a master key give none. -/
theorem foldlM_masterKeys (locked : wallet.keystore.vMasterKey = [])
    (read : records.foldlM (readKeyValue tools) wallet = some after) (empty : wallet.mapMasterKeys = [])
    (noRecord : ∀ record ∈ records, ∀ n, record.1 ≠ .mkey n) : after.mapMasterKeys = [] := by
  induction records generalizing wallet with
  | nil =>
    cases read
    exact empty
  | cons record records ih =>
    rw [List.foldlM_cons] at read
    obtain ⟨wallet', first, rest⟩ := Option.bind_eq_some_iff.mp read
    refine ih (readKeyValue_kind locked first).1 rest ?_ fun other member => noRecord other (List.mem_cons_of_mem _ member)
    obtain ⟨k, value⟩ := record
    have noMaster := noRecord _ List.mem_cons_self
    unfold readKeyValue at first
    split at first
    · next same => exact (readKey_kind locked first).2.2.2.trans empty
    · exact (readKey_kind locked first).2.2.2.trans empty
    · next same =>
      cases same
      exact absurd rfl (noMaster _)
    · dsimp only at first
      split at first
      · cases first
        exact empty
      · cases first
    all_goals cases first
    · exact empty
    · exact empty

end Loading

end WalletKeys

end BitCrystal
