import BitCrystal.Model.KeyStore

/-! # Encryption of a key store

A plain map with a lock says what an encrypted store is for. The store refines it: every operation
answers the same, and the maps of the store are the keys, plain or sealed under the master key.
-/

namespace BitCrystal

open Check AList

/-- The private and the public part belong together, and the flag says which form the public key has. -/
structure CKey.Sound {curve : Curve} (key : CKey curve) (vchSecret : CSecret) (fCompressed : Bool) : Prop where
  secret : key.secret = some vchSecret
  size : vchSecret.length = 32
  point : key.point = some (curve.regenerate vchSecret)
  form : key.fCompressedForm = fCompressed
  flag : key.fCompressedPubKey = fCompressed

/-- Decryption with the right key inverts, with any other key it fails or gives a secret of another key. -/
structure KeyTools.Ideal (tools : KeyTools) : Prop where
  inverts : ∀ vMasterKey nIV vchSecret, vMasterKey.length = WALLET_CRYPTO_KEY_SIZE → vchSecret.length = 32 →
    ∃ vchCryptedSecret, tools.cipher.encrypt vMasterKey nIV vchSecret = some vchCryptedSecret ∧
      tools.cipher.decrypt vMasterKey nIV vchCryptedSecret = some vchSecret
  fails : ∀ vMasterKey other vchSecret fCompressed vchCryptedSecret, vMasterKey.length = WALLET_CRYPTO_KEY_SIZE →
    other.length = WALLET_CRYPTO_KEY_SIZE → other ≠ vMasterKey →
    tools.cipher.encrypt vMasterKey (tools.hash2 (tools.curve.pubKey vchSecret fCompressed)) vchSecret =
      some vchCryptedSecret →
    ∀ wrong, tools.cipher.decrypt other (tools.hash2 (tools.curve.pubKey vchSecret fCompressed)) vchCryptedSecret =
      some wrong → tools.curve.pubKey wrong fCompressed ≠ tools.curve.pubKey vchSecret fCompressed

namespace CKey

variable {curve : Curve} {key : CKey curve} {vchSecret : CSecret} {fCompressed : Bool}

/-- A secret set on a new key. -/
theorem setSecret_new (curve : Curve) (size : vchSecret.length = 32) (fCompressed : Bool) :
    ∃ key', ({} : CKey curve).setSecret vchSecret fCompressed = .ok key' ∧ key'.Sound vchSecret fCompressed := by
  rw [setSecret, rejectIf, if_neg (not_not.mpr size), ok_bind]
  cases fCompressed <;> exact ⟨_, rfl, rfl, size, rfl, rfl, rfl⟩

/-- The flag of the key stays set, whatever the public key says. -/
theorem setSecret_setPubKey (size : vchSecret.length = 32) (key : CKey curve) (other : CSecret) (fCompressed : Bool) :
    ∃ key', (key.setPubKey (curve.pubKey other fCompressed)).setSecret vchSecret false = .ok key' ∧
      key'.Sound vchSecret (fCompressed || key.fCompressedPubKey) := by
  rw [setSecret, rejectIf, if_neg (not_not.mpr size), ok_bind, setPubKey, Curve.pubKey, curve.o2i_i2o]
  simp only [curve.length_i2o]
  cases fCompressed
  · cases flag : key.fCompressedPubKey
    · exact ⟨_, rfl, by simp, size, by simp, by simp, by simp⟩
    · exact ⟨_, rfl, by simp [setCompressedPubKey], size, by simp [setCompressedPubKey],
        by simp [setCompressedPubKey], by simp [setCompressedPubKey]⟩
  · exact ⟨_, rfl, rfl, size, rfl, rfl, rfl⟩

theorem Sound.getPubKey (sound : key.Sound vchSecret fCompressed) :
    key.getPubKey = .ok (curve.pubKey vchSecret fCompressed) := by
  rw [CKey.getPubKey, sound.point, sound.form]
  rfl

theorem Sound.getSecret (sound : key.Sound vchSecret fCompressed) : key.getSecret = .ok (vchSecret, fCompressed) := by
  rw [CKey.getSecret, sound.secret, sound.flag]
  rfl

end CKey

/-! ## A map with a lock -/

/-- The keys, the master key if there is one, and whether the lock is open. -/
structure KeySafe where
  keys : CKeyID → Option (CSecret × Bool) := fun _ => none
  master : Option CKeyingMaterial := none
  unlocked : Bool := true

/-- The operations on a key store. -/
inductive KeyOp (curve : Curve)
  | addKey (key : CKey curve)
  | encryptKeys (vMasterKey : CKeyingMaterial)
  | lock
  | unlock (vMasterKey : CKeyingMaterial)

/-- Keys are sound, as creating and setting them leaves them, and master keys have the size of the cipher. -/
def KeyOp.Sound {curve : Curve} : KeyOp curve → Prop
  | addKey key => ∃ vchSecret fCompressed, key.Sound vchSecret fCompressed
  | encryptKeys vMasterKey | unlock vMasterKey => vMasterKey.length = WALLET_CRYPTO_KEY_SIZE
  | lock => True

namespace KeySafe

variable (tools : KeyTools) (safe : KeySafe)

def isLocked : Bool := safe.master.isSome && !safe.unlocked

/-- The address of a key. -/
def addressOf (key : CSecret × Bool) : CKeyID := tools.crypto.hash160 (tools.curve.pubKey key.1 key.2)

/-- What an operation does to a safe with at least one key. -/
def apply : KeyOp tools.curve → Bool × KeySafe
  | .addKey key =>
    if safe.isLocked then (false, safe)
    else
      let added := (key.secret.getD [], key.fCompressedPubKey)
      (true, { safe with keys := Function.update safe.keys (addressOf tools added) (some added) })
  | .encryptKeys vMasterKey =>
    if safe.master.isSome then (false, safe) else (true, { safe with master := some vMasterKey, unlocked := false })
  | .lock => if safe.master.isSome then (true, { safe with unlocked := false }) else (false, safe)
  | .unlock vMasterKey =>
    if safe.master = some vMasterKey then (true, { safe with unlocked := true }) else (false, safe)

end KeySafe

namespace CCryptoKeyStore

variable (tools : KeyTools)

def apply (store : CCryptoKeyStore) : KeyOp tools.curve → Check (Bool × CCryptoKeyStore)
  | .addKey key => store.addKey tools key
  | .encryptKeys vMasterKey => store.encryptKeys tools vMasterKey
  | .lock => .ok store.lock
  | .unlock vMasterKey => store.unlock tools vMasterKey

/-- What the encrypted map holds for a key. -/
def sealed (vMasterKey : CKeyingMaterial) (key : CSecret × Bool) : Option (valtype × valtype) :=
  let vchPubKey := tools.curve.pubKey key.1 key.2
  (tools.cipher.encryptSecret vMasterKey key.1 (tools.hash2 vchPubKey)).map fun vchCryptedSecret =>
    (vchPubKey, vchCryptedSecret)

/-- The store holds the keys of the safe. -/
structure Refines (safe : KeySafe) (store : CCryptoKeyStore) : Prop where
  crypted : store.fUseCrypto = safe.master.isSome
  opened : safe.master = none → safe.unlocked
  size : ∀ vMasterKey ∈ safe.master, vMasterKey.length = WALLET_CRYPTO_KEY_SIZE
  keys : ∀ address, ∀ key ∈ safe.keys address, key.1.length = 32 ∧ address = KeySafe.addressOf tools key
  nonempty : ∃ address, safe.keys address ≠ none
  plain : ∀ address, store.mapKeys.lookup address = if safe.master.isSome then none else safe.keys address
  encrypted : ∀ address, store.mapCryptedKeys.lookup address =
    safe.master.bind fun vMasterKey => (safe.keys address).bind (sealed tools vMasterKey)
  master : store.vMasterKey = if safe.unlocked then safe.master.getD [] else []

variable {tools} {safe : KeySafe} {store : CCryptoKeyStore}

theorem setCrypted_crypted (crypted : store.fUseCrypto = true) : store.setCrypted = (true, store) := by
  rw [setCrypted, if_pos crypted]

variable {vMasterKey : CKeyingMaterial}

/-- A sealed key and what comes back from it. -/
theorem exists_sealed (ideal : tools.Ideal) (key : CSecret × Bool)
    (size : vMasterKey.length = WALLET_CRYPTO_KEY_SIZE) (length : key.1.length = 32) : ∃ vchCryptedSecret,
      tools.cipher.encryptSecret vMasterKey key.1 (tools.hash2 (tools.curve.pubKey key.1 key.2)) =
        some vchCryptedSecret ∧
      tools.cipher.decryptSecret vMasterKey vchCryptedSecret (tools.hash2 (tools.curve.pubKey key.1 key.2)) =
        some key.1 := by
  obtain ⟨vchCryptedSecret, sealing, opening⟩ :=
    ideal.inverts vMasterKey (tools.hash2 (tools.curve.pubKey key.1 key.2)) key.1 size length
  refine ⟨vchCryptedSecret, ?_, ?_⟩
  · rw [Cipher.encryptSecret, if_neg (not_not.mpr size), sealing]
  · rw [Cipher.decryptSecret, if_neg (not_not.mpr size), opening]

/-- The test of a master key on a sealed key. -/
theorem opens_sealed (ideal : tools.Ideal) {other : CKeyingMaterial} {key : CSecret × Bool}
    {entry : valtype × valtype} (size : vMasterKey.length = WALLET_CRYPTO_KEY_SIZE)
    (size' : other.length = WALLET_CRYPTO_KEY_SIZE) (length : key.1.length = 32)
    (sealing : sealed tools vMasterKey key = some entry) :
    opens tools other entry.1 entry.2 = .ok (decide (other = vMasterKey)) := by
  obtain ⟨vchSecret, fCompressed⟩ := key
  obtain ⟨vchCryptedSecret, encrypted, rfl⟩ := Option.map_eq_some_iff.mp sealing
  rw [opens]
  by_cases same : other = vMasterKey
  · obtain ⟨_, encrypted', opening⟩ := exists_sealed ideal (vchSecret, fCompressed) size length
    rw [encrypted] at encrypted'
    cases encrypted'
    obtain ⟨key, made, sound⟩ :=
      CKey.setSecret_setPubKey length ({} : CKey tools.curve) vchSecret fCompressed
    rw [Bool.or_false] at sound
    subst same
    dsimp only at opening ⊢
    rw [opening]
    dsimp only
    rw [if_neg (not_not.mpr length), made, ok_bind, sound.getPubKey, ok_bind]
    simp
  · rw [Cipher.encryptSecret, if_neg (not_not.mpr size)] at encrypted
    rw [decide_eq_false same]
    split
    · rfl
    · rename_i wrong opening
      split_ifs with length'
      · rfl
      · rw [Cipher.decryptSecret, if_neg (not_not.mpr size')] at opening
        obtain ⟨key, made, sound⟩ :=
          CKey.setSecret_setPubKey (not_not.mp length') ({} : CKey tools.curve) vchSecret fCompressed
        rw [Bool.or_false] at sound
        have differs := ideal.fails _ _ _ _ _ size size' same encrypted wrong opening
        dsimp only
        rw [made, ok_bind, sound.getPubKey, ok_bind, decide_eq_false differs]
        rfl

theorem addCryptedKey_eq (crypted : store.fUseCrypto = true) (vchPubKey vchCryptedSecret : valtype) :
    store.addCryptedKey tools vchPubKey vchCryptedSecret = (true, { store with
      mapCryptedKeys := store.mapCryptedKeys.insert (tools.crypto.hash160 vchPubKey) (vchPubKey, vchCryptedSecret) }) := by
  simp only [addCryptedKey, setCrypted_crypted crypted]
  rfl

theorem addEncrypted_eq (ideal : tools.Ideal) (crypted : store.fUseCrypto = true)
    (size : vMasterKey.length = WALLET_CRYPTO_KEY_SIZE) {key : CKey tools.curve} {vchSecret : CSecret}
    {fCompressed : Bool} (sound : key.Sound vchSecret fCompressed) :
    ∃ entry, sealed tools vMasterKey (vchSecret, fCompressed) = some entry ∧
      store.addEncrypted tools vMasterKey key = .ok (true, { store with
        mapCryptedKeys := store.mapCryptedKeys.insert (KeySafe.addressOf tools (vchSecret, fCompressed)) entry }) := by
  obtain ⟨vchCryptedSecret, encrypted, -⟩ := exists_sealed ideal (vchSecret, fCompressed) size sound.size
  refine ⟨_, Option.map_eq_some_iff.mpr ⟨vchCryptedSecret, encrypted, rfl⟩, ?_⟩
  dsimp only at encrypted
  rw [addEncrypted, sound.getPubKey, ok_bind, sound.getSecret, ok_bind]
  dsimp only
  rw [encrypted]
  exact congrArg _ (addCryptedKey_eq crypted ..)

/-- The loop seals every key of `mapKeys`. -/
theorem encryptLoop_eq (ideal : tools.Ideal) {vMasterKey : CKeyingMaterial}
    (size : vMasterKey.length = WALLET_CRYPTO_KEY_SIZE) {entries : List (Sigma fun _ : CKeyID => CSecret × Bool)}
    (distinct : entries.NodupKeys)
    (sound : ∀ entry ∈ entries, entry.2.1.length = 32 ∧ entry.1 = KeySafe.addressOf tools entry.2)
    (crypted : store.fUseCrypto = true) :
    ∃ store', encryptLoop tools vMasterKey entries store = .ok (true, store') ∧ store'.mapKeys = ∅ ∧
      store'.fUseCrypto = true ∧ store'.vMasterKey = store.vMasterKey ∧
      ∀ address, store'.mapCryptedKeys.lookup address = match entries.dlookup address with
        | some key => sealed tools vMasterKey key
        | none => store.mapCryptedKeys.lookup address := by
  induction entries generalizing store with
  | nil => exact ⟨_, rfl, rfl, crypted, rfl, fun _ => rfl⟩
  | cons entry rest ih =>
    obtain ⟨first, vchSecret, fCompressed⟩ := entry
    obtain ⟨length, here⟩ := sound _ (List.mem_cons_self ..)
    dsimp only at length here
    obtain ⟨absent, distinct⟩ := List.nodupKeys_cons.mp distinct
    obtain ⟨key, made, keySound⟩ := CKey.setSecret_new tools.curve length fCompressed
    obtain ⟨entry, sealing, added⟩ := addEncrypted_eq ideal crypted size keySound
    obtain ⟨store', looped, empty, crypted', kept, lookup⟩ := @ih
      { store with
        mapCryptedKeys := store.mapCryptedKeys.insert (KeySafe.addressOf tools (vchSecret, fCompressed)) entry }
      distinct (fun other member => sound other (List.mem_cons_of_mem _ member)) crypted
    refine ⟨store', ?_, empty, crypted', kept, fun address => ?_⟩
    · rw [encryptLoop, made, ok_bind, added, ok_bind]
      exact looped
    · rw [lookup]
      dsimp only
      by_cases same : address = first
      · subst same
        rw [List.dlookup_cons_eq, List.dlookup_eq_none.mpr absent]
        dsimp only
        rw [here, lookup_insert, sealing]
      · rw [List.dlookup_cons_ne _ _ same]
        cases rest.dlookup address with
        | some key => rfl
        | none => exact lookup_insert_ne (here ▸ same)

namespace Refines

variable (refines : Refines tools safe store)
include refines

theorem isLocked : store.isLocked = safe.isLocked := by
  rw [CCryptoKeyStore.isLocked, isCrypted, refines.crypted, refines.master, KeySafe.isLocked]
  cases master : safe.master with
  | none => rfl
  | some vMasterKey =>
    have size := refines.size vMasterKey master
    cases safe.unlocked with
    | false => rfl
    | true =>
      cases vMasterKey with
      | nil => cases size
      | cons byte rest => rfl

theorem mapKeys_nonempty (plain : safe.master = none) : store.mapKeys.entries.isEmpty = false := by
  obtain ⟨address, held⟩ := refines.nonempty
  have lookup := refines.plain address
  rw [plain] at lookup
  cases entries : store.mapKeys.entries with
  | nil =>
    have empty : store.mapKeys = ∅ := AList.ext entries
    rw [empty, lookup_empty] at lookup
    exact absurd lookup.symm held
  | cons entry rest => rfl

theorem setCrypted : store.setCrypted = (safe.master.isSome, store) := by
  cases master : safe.master with
  | none =>
    rw [CCryptoKeyStore.setCrypted, refines.crypted, master, refines.mapKeys_nonempty master]
    rfl
  | some vMasterKey => exact setCrypted_crypted (by rw [refines.crypted, master]; rfl)

theorem lock : store.lock.1 = (safe.apply tools .lock).1 ∧ Refines tools (safe.apply tools .lock).2 store.lock.2 := by
  rw [CCryptoKeyStore.lock, refines.setCrypted, KeySafe.apply]
  obtain ⟨keys, master, unlocked⟩ := safe
  cases master with
  | none => exact ⟨rfl, refines⟩
  | some vMasterKey => exact ⟨rfl, { refines with opened := nofun, master := rfl }⟩

/-- The first key of the encrypted map is a sealed key of the safe. -/
theorem exists_entry {vMasterKey : CKeyingMaterial} (master : safe.master = some vMasterKey)
    (ideal : tools.Ideal) :
    ∃ entry rest key, store.mapCryptedKeys.entries = entry :: rest ∧ key.1.length = 32 ∧
      sealed tools vMasterKey key = some entry.2 := by
  cases entries : store.mapCryptedKeys.entries with
  | nil =>
    obtain ⟨address, held⟩ := refines.nonempty
    obtain ⟨key, found⟩ := Option.ne_none_iff_exists'.mp held
    have lookup := refines.encrypted address
    have empty : store.mapCryptedKeys = ∅ := AList.ext entries
    obtain ⟨_, encrypted, -⟩ :=
      exists_sealed ideal key (refines.size vMasterKey master) (refines.keys address key found).1
    rw [empty, lookup_empty, master, found, Option.bind_some, Option.bind_some, sealed, encrypted] at lookup
    cases lookup
  | cons entry rest =>
    have lookup : store.mapCryptedKeys.lookup entry.1 = some entry.2 :=
      mem_lookup_iff.mpr (by rw [entries]; exact List.mem_cons_self ..)
    rw [refines.encrypted, master, Option.bind_some] at lookup
    obtain ⟨key, found, sealing⟩ := Option.bind_eq_some_iff.mp lookup
    exact ⟨entry, rest, key, rfl, (refines.keys _ key found).1, sealing⟩

theorem unlock (ideal : tools.Ideal) {vMasterKeyIn : CKeyingMaterial}
    (size : vMasterKeyIn.length = WALLET_CRYPTO_KEY_SIZE) :
    ∃ store', store.unlock tools vMasterKeyIn = .ok ((safe.apply tools (.unlock vMasterKeyIn)).1, store') ∧
      Refines tools (safe.apply tools (.unlock vMasterKeyIn)).2 store' := by
  rw [CCryptoKeyStore.unlock, refines.setCrypted, KeySafe.apply]
  obtain ⟨keys, master, unlocked⟩ := safe
  cases master with
  | none => exact ⟨store, rfl, refines⟩
  | some vMasterKey =>
    obtain ⟨entry, rest, key, entries, length, sealing⟩ := refines.exists_entry rfl ideal
    have tested := opens_sealed ideal (refines.size vMasterKey rfl) size length sealing
    dsimp only [Option.isSome_some]
    rw [entries, if_neg (by simp)]
    dsimp only
    rw [tested, ok_bind]
    by_cases same : vMasterKeyIn = vMasterKey
    · subst same
      rw [if_pos (by simp), if_pos rfl]
      exact ⟨_, rfl, { refines with opened := nofun, master := rfl }⟩
    · rw [if_neg (by simpa using same), if_neg (by simpa using Ne.symm same)]
      exact ⟨store, rfl, refines⟩

theorem addKey (ideal : tools.Ideal) {key : CKey tools.curve} {vchSecret : CSecret} {fCompressed : Bool}
    (sound : key.Sound vchSecret fCompressed) :
    ∃ store', store.addKey tools key = .ok ((safe.apply tools (.addKey key)).1, store') ∧
      Refines tools (safe.apply tools (.addKey key)).2 store' := by
  rw [CCryptoKeyStore.addKey, refines.isLocked, KeySafe.apply, sound.secret, sound.flag]
  have keys : ∀ address, ∀ held ∈ Function.update safe.keys (KeySafe.addressOf tools (vchSecret, fCompressed))
      (some (vchSecret, fCompressed)) address, held.1.length = 32 ∧ address = KeySafe.addressOf tools held := by
    intro address held found
    rw [Function.update_apply] at found
    split_ifs at found with same
    · cases found
      exact ⟨sound.size, same⟩
    · exact refines.keys address held found
  have nonempty : ∃ address, Function.update safe.keys (KeySafe.addressOf tools (vchSecret, fCompressed))
      (some (vchSecret, fCompressed)) address ≠ none :=
    ⟨KeySafe.addressOf tools (vchSecret, fCompressed), by rw [Function.update_self]; exact Option.some_ne_none _⟩
  have crypted : store.isCrypted = safe.master.isSome := refines.crypted
  obtain ⟨held, master, unlocked⟩ := safe
  cases master with
  | none =>
    rw [if_pos (by simp [crypted]), if_neg (by simp [KeySafe.isLocked]), sound.getSecret, ok_bind,
      sound.getPubKey, ok_bind]
    refine ⟨_, rfl, { refines with keys, nonempty, plain := fun address => ?_, encrypted := fun _ => ?_ }⟩
    · dsimp only [Option.isSome_none]
      rw [if_neg nofun, Option.getD_some, Function.update_apply]
      split_ifs with same
      · subst same
        exact lookup_insert _
      · exact (lookup_insert_ne same).trans (refines.plain address)
    · exact refines.encrypted _
  | some vMasterKey =>
    cases unlocked with
    | false =>
      have locked : KeySafe.isLocked ⟨held, some vMasterKey, false⟩ = true := rfl
      rw [if_neg (by simp [crypted]), if_pos locked, if_pos locked]
      exact ⟨store, rfl, refines⟩
    | true =>
      have unlocked : ¬ KeySafe.isLocked ⟨held, some vMasterKey, true⟩ = true := nofun
      have master : store.vMasterKey = vMasterKey := refines.master
      obtain ⟨entry, sealing, added⟩ :=
        addEncrypted_eq ideal refines.crypted (refines.size vMasterKey rfl) sound
      rw [if_neg (by simp [crypted]), if_neg unlocked, if_neg unlocked, master, added]
      refine ⟨_, rfl, { refines with keys, nonempty, plain := refines.plain, encrypted := fun address => ?_ }⟩
      dsimp only [Option.bind_some]
      rw [Option.getD_some, Function.update_apply]
      split_ifs with same
      · subst same
        rw [Option.bind_some, sealing]
        exact lookup_insert _
      · exact (lookup_insert_ne same).trans (refines.encrypted address)

theorem encryptKeys (ideal : tools.Ideal) {vMasterKey : CKeyingMaterial}
    (size : vMasterKey.length = WALLET_CRYPTO_KEY_SIZE) :
    ∃ store', store.encryptKeys tools vMasterKey = .ok ((safe.apply tools (.encryptKeys vMasterKey)).1, store') ∧
      Refines tools (safe.apply tools (.encryptKeys vMasterKey)).2 store' := by
  rw [CCryptoKeyStore.encryptKeys, KeySafe.apply]
  have crypted : store.isCrypted = safe.master.isSome := refines.crypted
  obtain ⟨held, master, unlocked⟩ := safe
  cases master with
  | some before =>
    rw [if_pos (.inr (by simp [crypted]))]
    exact ⟨store, rfl, refines⟩
  | none =>
    have nothing : store.mapCryptedKeys.entries = [] := by
      apply List.eq_nil_iff_forall_not_mem.mpr
      intro entry member
      have lookup : store.mapCryptedKeys.lookup entry.1 = some entry.2 := mem_lookup_iff.mpr member
      rw [refines.encrypted] at lookup
      cases lookup
    have held' : ∀ entry ∈ store.mapKeys.entries, held entry.1 = some entry.2 := by
      intro entry member
      have lookup : store.mapKeys.lookup entry.1 = some entry.2 := mem_lookup_iff.mpr member
      exact (refines.plain entry.1).symm.trans lookup
    have sound : ∀ entry ∈ store.mapKeys.entries,
        entry.2.1.length = 32 ∧ entry.1 = KeySafe.addressOf tools entry.2 := fun entry member =>
      refines.keys entry.1 entry.2 (held' entry member)
    have locked : store.vMasterKey = [] := refines.master.trans (by cases unlocked <;> rfl)
    obtain ⟨store', looped, empty, crypted', kept, lookup⟩ := @encryptLoop_eq tools
      { store with fUseCrypto := true } ideal vMasterKey size store.mapKeys.entries store.mapKeys.nodupKeys sound rfl
    rw [if_neg (by simp [nothing, crypted]), looped, if_neg nofun]
    refine ⟨store', rfl, { refines with
      crypted := crypted'
      opened := nofun
      size := fun _ equal => Option.mem_some_iff.mp equal ▸ size
      plain := fun address => by rw [empty]; rfl
      encrypted := fun address => ?_
      master := kept.trans locked }⟩
    have plain : store.mapKeys.entries.dlookup address = held address := refines.plain address
    rw [lookup, plain]
    dsimp only [Option.bind_some]
    cases held address with
    | some key => rfl
    | none => exact refines.encrypted address

theorem apply (ideal : tools.Ideal) {op : KeyOp tools.curve} (sound : op.Sound) :
    ∃ store', store.apply tools op = .ok ((safe.apply tools op).1, store') ∧
      Refines tools (safe.apply tools op).2 store' := by
  cases op with
  | addKey key =>
    obtain ⟨vchSecret, fCompressed, sound⟩ := sound
    exact refines.addKey ideal sound
  | encryptKeys vMasterKey => exact refines.encryptKeys ideal sound
  | lock =>
    obtain ⟨same, next⟩ := refines.lock
    exact ⟨store.lock.2, by rw [CCryptoKeyStore.apply, ← same], next⟩
  | unlock vMasterKey => exact refines.unlock ideal sound

end Refines

end CCryptoKeyStore

end BitCrystal
