import BitCrystal.Proofs.CryptoKeyStore
import BitCrystal.Soundness.SpentFlags

/-! # The encrypted key store

From the first key on the store acts as a map with a lock, whatever operations follow. The exception is
the object that `GetKey` fills: a flag that it already has survives.
-/

namespace BitCrystal

open TestNet

namespace KeySafe

variable (tools : KeyTools)

def run (safe : KeySafe) (ops : List (KeyOp tools.curve)) : KeySafe :=
  ops.foldl (fun safe op => (safe.apply tools op).2) safe

end KeySafe

namespace CCryptoKeyStore

variable {tools : KeyTools} {safe : KeySafe} {store : CCryptoKeyStore}

def run (tools : KeyTools) (store : CCryptoKeyStore) : List (KeyOp tools.curve) → Check CCryptoKeyStore
  | [] => .ok store
  | op :: rest => do
    let (_, store) ← store.apply tools op
    run tools store rest

/-- What a map with a lock does, for an address and an object for the key. -/
structure ActsAs (tools : KeyTools) (safe : KeySafe) (store : CCryptoKeyStore) (address : CKeyID)
    (keyOut : CKey tools.curve) : Prop where
  unlocks : ∀ vMasterKey, vMasterKey.length = WALLET_CRYPTO_KEY_SIZE →
    ((∃ store', store.unlock tools vMasterKey = .ok (true, store')) ↔ safe.master = some vMasterKey)
  returns : store.isLocked = false → ∀ key ∈ safe.keys address, ∃ found,
    store.getKey tools address keyOut = .ok (some found) ∧ found.secret = some key.1 ∧ found.fCompressedPubKey = key.2
  locks : store.isLocked → store.getKey tools address keyOut = .ok none
  nothingPlain : store.isCrypted → store.mapKeys = ∅
  refuses : store.isLocked → ∀ key, store.addKey tools key = .ok (false, store)

/-- The store is open and encrypted, the last key of the address is not compressed, and the flag is set. -/
def StaleFlag (tools : KeyTools) (safe : KeySafe) (store : CCryptoKeyStore) (address : CKeyID)
    (keyOut : CKey tools.curve) : Prop :=
  store.isCrypted ∧ store.isLocked = false ∧ keyOut.fCompressedPubKey ∧
    ∃ vchSecret, safe.keys address = some (vchSecret, false)

theorem getKey_locked (locked : store.isLocked) (address : CKeyID) (keyOut : CKey tools.curve) :
    store.getKey tools address keyOut = .ok none := by
  obtain ⟨crypted, empty⟩ := (Bool.and_eq_true ..).mp locked
  rw [getKey, if_neg (not_not.mpr crypted), List.isEmpty_iff.mp empty]
  cases store.mapCryptedKeys.lookup address <;> rfl

namespace Refines

theorem run (ideal : tools.Ideal) {ops : List (KeyOp tools.curve)} (sound : ∀ op ∈ ops, op.Sound)
    (refines : Refines tools safe store) :
    ∃ store', store.run tools ops = .ok store' ∧ Refines tools (safe.run tools ops) store' := by
  induction ops generalizing safe store with
  | nil => exact ⟨store, rfl, refines⟩
  | cons op rest ih =>
    obtain ⟨next, ran, refines'⟩ := refines.apply ideal (sound op (List.mem_cons_self ..))
    obtain ⟨last, others, refined⟩ := ih (fun other member => sound other (List.mem_cons_of_mem _ member)) refines'
    refine ⟨last, ?_, refined⟩
    rw [CCryptoKeyStore.run, ran, Check.ok_bind]
    exact others

/-- The first key makes a store. -/
theorem first {key : CKey tools.curve} {vchSecret : CSecret} {fCompressed : Bool}
    (sound : key.Sound vchSecret fCompressed) :
    ∃ store, ({} : CCryptoKeyStore).addKey tools key = .ok (true, store) ∧
      Refines tools (({} : KeySafe).apply tools (.addKey key)).2 store := by
  rw [CCryptoKeyStore.addKey, if_pos (by decide), sound.getSecret, Check.ok_bind, sound.getPubKey, Check.ok_bind,
    KeySafe.apply, if_neg (by simp [KeySafe.isLocked]), sound.secret, sound.flag]
  refine ⟨_, rfl, ?_⟩
  dsimp only
  refine {
    crypted := rfl
    opened := fun _ => rfl
    size := by simp
    keys := fun address held found => ?_
    nonempty := ⟨KeySafe.addressOf tools (vchSecret, fCompressed), ?_⟩
    plain := fun address => ?_
    encrypted := fun _ => rfl
    master := rfl }
  · dsimp only at found
    rw [Function.update_apply] at found
    split_ifs at found with same
    · cases found
      exact ⟨sound.size, same⟩
    · cases found
  · dsimp only [Option.getD_some]
    rw [Function.update_self]
    exact Option.some_ne_none _
  · dsimp only [Option.getD_some, Option.isSome_none]
    rw [if_neg Bool.false_ne_true, Function.update_apply]
    split_ifs with same
    · subst same
      exact AList.lookup_insert _
    · exact AList.lookup_insert_ne same

variable (refines : Refines tools safe store)
include refines

theorem getKey_plain (plain : safe.master = none) {address : CKeyID} {key : CSecret × Bool}
    (held : safe.keys address = some key) (keyOut : CKey tools.curve) :
    ∃ found, store.getKey tools address keyOut = .ok (some found) ∧ found.Sound key.1 key.2 := by
  have lookup := refines.plain address
  rw [plain, held, Option.isSome_none, if_neg Bool.false_ne_true] at lookup
  obtain ⟨found, made, sound⟩ := CKey.setSecret_new tools.curve (refines.keys address key held).1 key.2
  refine ⟨found, ?_, sound⟩
  rw [getKey, isCrypted, refines.crypted, plain, if_pos (by decide), lookup]
  dsimp only
  rw [made]
  rfl

theorem getKey_encrypted (ideal : tools.Ideal) {vMasterKey : CKeyingMaterial} (master : safe.master = some vMasterKey)
    (unlocked : safe.unlocked) {address : CKeyID} {key : CSecret × Bool} (held : safe.keys address = some key)
    (keyOut : CKey tools.curve) :
    ∃ found, store.getKey tools address keyOut = .ok (some found) ∧
      found.Sound key.1 (key.2 || keyOut.fCompressedPubKey) := by
  have length := (refines.keys address key held).1
  obtain ⟨vchCryptedSecret, encrypted, opening⟩ := exists_sealed ideal key (refines.size vMasterKey master) length
  have lookup := refines.encrypted address
  rw [master, held, Option.bind_some, Option.bind_some, sealed, encrypted, Option.map_some] at lookup
  have opened : store.vMasterKey = vMasterKey := by rw [refines.master, if_pos unlocked, master, Option.getD_some]
  obtain ⟨found, made, sound⟩ := CKey.setSecret_setPubKey length keyOut key.1 key.2
  refine ⟨found, ?_, sound⟩
  rw [getKey, isCrypted, refines.crypted, master, if_neg (by simp), lookup]
  dsimp only
  rw [opened, opening]
  dsimp only
  rw [if_neg (not_not.mpr length), made]
  rfl

/-- The store acts as the map with a lock, unless a stale flag makes a key compressed. -/
theorem actsAs_iff (ideal : tools.Ideal) (address : CKeyID) (keyOut : CKey tools.curve) :
    ActsAs tools safe store address keyOut ↔ ¬ StaleFlag tools safe store address keyOut := by
  constructor
  · rintro acts ⟨crypted, unlocked, flag, vchSecret, held⟩
    obtain ⟨vMasterKey, master⟩ := Option.isSome_iff_exists.mp (refines.crypted.symm.trans crypted)
    have opened : safe.unlocked := by
      rw [refines.isLocked, KeySafe.isLocked, master] at unlocked
      simpa using unlocked
    obtain ⟨found, got, -, flag'⟩ := acts.returns unlocked _ held
    obtain ⟨found', got', sound⟩ := refines.getKey_encrypted ideal master opened held keyOut
    rw [got] at got'
    cases got'
    rw [sound.flag, flag] at flag'
    cases flag'
  · intro clean
    refine ⟨fun vMasterKey size => ?_, fun unlocked key held => ?_, fun locked => getKey_locked locked _ _,
      fun crypted => ?_, fun locked key => ?_⟩
    · obtain ⟨store', ran, -⟩ := refines.unlock ideal size
      rw [ran, KeySafe.apply]
      by_cases same : safe.master = some vMasterKey
      · rw [if_pos same]
        exact iff_of_true ⟨store', rfl⟩ same
      · rw [if_neg same]
        exact iff_of_false (by simp) same
    · cases master : safe.master with
      | none =>
        obtain ⟨found, got, sound⟩ := refines.getKey_plain master held keyOut
        exact ⟨found, got, sound.secret, sound.flag⟩
      | some vMasterKey =>
        have opened : safe.unlocked := by
          rw [refines.isLocked, KeySafe.isLocked, master] at unlocked
          simpa using unlocked
        obtain ⟨found, got, sound⟩ := refines.getKey_encrypted ideal master opened held keyOut
        refine ⟨found, got, sound.secret, sound.flag.trans ?_⟩
        obtain ⟨vchSecret, fCompressed⟩ := key
        cases fCompressed with
        | true => rfl
        | false =>
          cases flag : keyOut.fCompressedPubKey with
          | false => rfl
          | true =>
            have crypted : store.isCrypted := by rw [isCrypted, refines.crypted, master]; rfl
            exact absurd ⟨crypted, unlocked, flag, vchSecret, held⟩ clean
    · apply AList.ext
      apply List.eq_nil_iff_forall_not_mem.mpr
      intro entry member
      have lookup : store.mapKeys.lookup entry.1 = some entry.2 := AList.mem_lookup_iff.mpr member
      have all : safe.master.isSome := refines.crypted.symm.trans crypted
      rw [refines.plain, if_pos all] at lookup
      cases lookup
    · have crypted : store.isCrypted := ((Bool.and_eq_true ..).mp locked).1
      rw [CCryptoKeyStore.addKey, if_neg (not_not.mpr crypted), if_pos locked]

end Refines

/-- After the first key and any further operations the store acts as the map with a lock, for every address and
every object, exactly when no stale flag meets an uncompressed key. -/
theorem run_actsAs_iff (ideal : tools.Ideal) {first : CKey tools.curve} {ops : List (KeyOp tools.curve)}
    (sound : ∀ op ∈ .addKey first :: ops, op.Sound) :
    ∃ store, CCryptoKeyStore.run tools {} (.addKey first :: ops) = .ok store ∧ ∀ address keyOut,
      ActsAs tools (KeySafe.run tools {} (.addKey first :: ops)) store address keyOut ↔
        ¬ StaleFlag tools (KeySafe.run tools {} (.addKey first :: ops)) store address keyOut := by
  obtain ⟨⟨vchSecret, fCompressed, firstSound⟩, others⟩ := List.forall_mem_cons.mp sound
  obtain ⟨start, added, refines⟩ := Refines.first firstSound
  obtain ⟨store, ran, refined⟩ := refines.run ideal others
  refine ⟨store, ?_, refined.actsAs_iff ideal⟩
  rw [run, apply, added, Check.ok_bind]
  exact ran

end CCryptoKeyStore

namespace TestNet

/-- A curve whose points are the secrets. -/
def plainCurve : Curve where
  Point := { bytes : List UInt8 // bytes.length = 32 }
  regenerate vchSecret := ⟨(vchSecret ++ List.replicate 32 0).take 32, by simp⟩
  i2o point fCompressed := if fCompressed then 2 :: point.1 else 4 :: (point.1 ++ List.replicate 32 0)
  o2i vchPubKey := if size : ((vchPubKey.drop 1).take 32).length = 32 then some ⟨_, size⟩ else none
  length_i2o point fCompressed := by cases fCompressed <;> simp [point.2]
  o2i_i2o point fCompressed := by
    obtain ⟨bytes, size⟩ := point
    have whole (tail : List UInt8) : (bytes ++ tail).take 32 = bytes := List.take_left' size
    cases fCompressed
    · simp [whole, size]
    · simp [size, List.take_of_length_le]

/-- A cipher that writes the key in front of the text. -/
def openCipher : Cipher where
  encrypt vMasterKey _ vchSecret := some (vMasterKey ++ vchSecret)
  decrypt vMasterKey _ vchCryptedSecret :=
    if vchCryptedSecret.take 32 = vMasterKey then some (vchCryptedSecret.drop 32) else none

def keyTools : KeyTools where
  crypto := digests
  hash2 _ := 0
  curve := plainCurve
  cipher := openCipher

theorem keyTools_ideal : keyTools.Ideal where
  inverts vMasterKey nIV vchSecret size _ := by
    refine ⟨vMasterKey ++ vchSecret, rfl, ?_⟩
    have front : (vMasterKey ++ vchSecret).take 32 = vMasterKey := List.take_left' size
    have back : (vMasterKey ++ vchSecret).drop 32 = vchSecret := List.drop_left' size
    change (if _ then _ else _) = _
    rw [if_pos front, back]
  fails vMasterKey other vchSecret _ _ size _ differs encrypted wrong decrypted := by
    cases encrypted
    have front : (vMasterKey ++ vchSecret).take 32 = vMasterKey := List.take_left' size
    change (if _ then _ else _) = _ at decrypted
    rw [front, if_neg (Ne.symm differs)] at decrypted
    cases decrypted

/-- A key that is not compressed. -/
def ownKey : CKey plainCurve where
  secret := some (List.replicate 32 7)
  point := some (plainCurve.regenerate (List.replicate 32 7))
  fSet := true

def ownAddress : CKeyID := 4 :: (List.replicate 32 7 ++ List.replicate 32 0)

theorem ownKey_sound : ownKey.Sound (List.replicate 32 7) false := ⟨rfl, rfl, rfl, rfl, rfl⟩

def masterKey : CKeyingMaterial := List.replicate 32 9

/-- The store is encrypted and opened again. -/
def reopened : List (KeyOp plainCurve) := [.addKey ownKey, .encryptKeys masterKey, .unlock masterKey]

/-- The secret and the flag that `GetKey` puts into an object after the operations. -/
def restored (keyOut : CKey plainCurve) : Option (Option CSecret × Bool) := do
  let store ← (CCryptoKeyStore.run keyTools {} reopened).toOption
  let found ← (store.getKey keyTools ownAddress keyOut).toOption
  found.map fun key => (key.secret, key.fCompressedPubKey)

end TestNet

theorem CCryptoKeyStore.run_actsAs_iff_new : ∃ store, CCryptoKeyStore.run keyTools {} reopened = .ok store ∧
    ActsAs keyTools (KeySafe.run keyTools {} reopened) store ownAddress ({} : CKey plainCurve) := by
  have sound : ∀ op ∈ reopened, op.Sound := by
    refine List.forall_mem_cons.mpr ⟨⟨_, _, ownKey_sound⟩, List.forall_mem_cons.mpr ⟨rfl, ?_⟩⟩
    exact List.forall_mem_cons.mpr ⟨rfl, nofun⟩
  obtain ⟨store, ran, acts⟩ := CCryptoKeyStore.run_actsAs_iff keyTools_ideal sound
  exact ⟨store, ran, (acts ownAddress {}).mpr fun stale => nomatch stale.2.2.1⟩

/-- A new object gets the key as it was added, one that is flagged gets a compressed key. -/
theorem CCryptoKeyStore.getKey_keeps_flag :
    restored {} = some (some (List.replicate 32 7), false) ∧
    restored { fCompressedPubKey := true } = some (some (List.replicate 32 7), true) := by decide

end BitCrystal
