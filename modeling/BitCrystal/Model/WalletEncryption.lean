import BitCrystal.Model.BlockTreeDB
import BitCrystal.Model.KeyStore
import BitCrystal.Model.WalletFile

/-! # Encrypting a wallet and changing its passphrase

A wallet keeps a key store, the master keys that unlock it, and a handle of its file, through which all writes go; it
is backed by a file. Deriving a key from a passphrase and the form of a private key are what the library does. How
many rounds the time measurements lead to and what the random generator gives are arguments. Ending the process is a
failure, and rewriting the file, which copies the records, is left out.
-/

namespace BitCrystal

abbrev SecureString : Type := List UInt8

def WALLET_CRYPTO_SALT_SIZE : ℕ := 8

def FEATURE_BASE : ℤ := 10500
def FEATURE_WALLETCRYPT : ℤ := 40000
def FEATURE_COMPRPUBKEY : ℤ := 60000
def FEATURE_LATEST : ℤ := 60000

structure PassphraseTools extends KeyTools where
  /-- `EVP_BytesToKey`: the key and the initialization vector. -/
  bytesToKey : SecureString → valtype → ℕ → CKeyingMaterial × Uint256
  /-- `i2d_ECPrivateKey` of the private and the public part and the conversion form. -/
  i2d : CSecret → curve.Point → Bool → valtype
  /-- `d2i_ECPrivateKey`, if `EC_KEY_check_key` accepts the key. -/
  d2i : valtype → Option (CSecret × curve.Point × Bool)

namespace PassphraseTools

variable (tools : PassphraseTools)

/-- `SetKeyFromPassphrase` with the salt, the rounds and the method of a master key. -/
def setKeyFromPassphrase (strKeyData : SecureString) (kMasterKey : CMasterKey) : Option (CKeyingMaterial × Uint256) :=
  if kMasterKey.nDeriveIterations < 1 ∨ kMasterKey.vchSalt.length ≠ WALLET_CRYPTO_SALT_SIZE then none
  else if kMasterKey.nDerivationMethod = 0 then
    some (tools.bytesToKey strKeyData kMasterKey.vchSalt kMasterKey.nDeriveIterations)
  else none

def makeNewKey (vchSecret : CSecret) (fCompressed : Bool) : CKey tools.curve :=
  let key : CKey tools.curve := {
    secret := some vchSecret
    point := some (tools.curve.regenerate vchSecret)
    fSet := true }
  if fCompressed then key.setCompressedPubKey else key

def getPrivKey (key : CKey tools.curve) : Check valtype := do
  let vchSecret ← assertSome (.throws "CKey::GetPrivKey() : i2d_ECPrivateKey failed") key.secret
  let point ← assertSome (.throws "CKey::GetPrivKey() : i2d_ECPrivateKey failed") key.point
  return tools.i2d vchSecret point key.fCompressedForm

def setPrivKey (vchPrivKey : valtype) (key : CKey tools.curve) : Option (CKey tools.curve) :=
  (tools.d2i vchPrivKey).map fun read =>
    { key with secret := some read.1, point := some read.2.1, fCompressedForm := read.2.2, fSet := true }

/-- `IsValid` of a key that has been read. -/
def isValid (key : CKey tools.curve) : Check Bool := do
  let (secret, fCompr) ← key.getSecret
  let key2 ← ({} : CKey tools.curve).setSecret secret fCompr
  let vchPubKey ← key.getPubKey
  let vchPubKey2 ← key2.getPubKey
  return vchPubKey = vchPubKey2

end PassphraseTools

/-! ## The wallet and its file -/

structure WalletKeys where
  keystore : CCryptoKeyStore := {}
  /-- The master keys in the order of their numbers. -/
  mapMasterKeys : List (ℕ × CMasterKey) := []
  nMasterKeyMaxID : ℕ := 0
  walletdb : CWalletDB
  setKeyPool : List ℕ := []
  nWalletVersion : ℤ := FEATURE_BASE
  nWalletMaxVersion : ℤ := FEATURE_BASE

namespace CWalletDB

variable (ok : ℕ → Bool)

def writeMasterKey (nID : ℕ) (kMasterKey : CMasterKey) (db : CWalletDB) : Bool × CWalletDB :=
  db.put ok true (.mkey nID) (.mkey kMasterKey)

def writeKey (vchPubKey vchPrivKey : valtype) (db : CWalletDB) : Bool × CWalletDB :=
  db.put ok false (.key vchPubKey) (.key vchPrivKey)

/-- `WriteCryptedKey`; the results of the two erasures are dropped. -/
def writeCryptedKey (vchPubKey vchCryptedSecret : valtype) (db : CWalletDB) : Bool × CWalletDB :=
  let written := db.put ok false (.ckey vchPubKey) (.ckey vchCryptedSecret)
  if ¬ written.1 then (false, written.2)
  else (true, ((written.2.erase ok (.key vchPubKey)).2.erase ok (.wkey vchPubKey)).2)

def writeSetting (strKey : String) (value : WalletRecord) (db : CWalletDB) : Bool × CWalletDB :=
  db.put ok true (.setting strKey) value

def writeMinVersion (nVersion : ℤ) (db : CWalletDB) : Bool × CWalletDB :=
  db.put ok true .minversion (.minversion nVersion)

def writePool (nPool : ℕ) (vchPubKey : valtype) (db : CWalletDB) : Bool × CWalletDB :=
  db.put ok true (.pool nPool) (.pool vchPubKey)

def erasePool (nPool : ℕ) (db : CWalletDB) : Bool × CWalletDB := db.erase ok (.pool nPool)

end CWalletDB

namespace WalletKeys

variable (tools : PassphraseTools) (ok : ℕ → Bool)

/-- An action on a wallet. -/
abbrev Action (α : Type) : Type := StateAction WalletKeys Failure α

/-- A call of the handle. -/
def onFile (f : CWalletDB → Bool × CWalletDB) : Action Bool := fun wallet =>
  (.ok (f wallet.walletdb).1, { wallet with walletdb := (f wallet.walletdb).2 })

/-- An operation of the key store. -/
def onStore (f : CCryptoKeyStore → Check (Bool × CCryptoKeyStore)) : Action Bool := fun wallet =>
  match f wallet.keystore with
  | .ok (fDone, keystore) => (.ok fDone, { wallet with keystore })
  | .error failure => (.error failure, wallet)

def isLocked (wallet : WalletKeys) : Bool := wallet.keystore.isLocked

def lock : Action Bool := onStore fun keystore => .ok keystore.lock

/-- The loop of `Unlock` over the master keys. -/
def unlockLoop (strWalletPassphrase : SecureString) : List (ℕ × CMasterKey) → Action Bool
  | [] => return false
  | pMasterKey :: rest =>
    match tools.setKeyFromPassphrase strWalletPassphrase pMasterKey.2 with
    | none => return false
    | some crypter =>
      match tools.cipher.decrypt crypter.1 crypter.2 pMasterKey.2.vchCryptedKey with
      | none => return false
      | some vMasterKey => do
        let fUnlocked ← onStore fun keystore => keystore.unlock tools.toKeyTools vMasterKey
        if fUnlocked then return true else unlockLoop strWalletPassphrase rest

def unlock (strWalletPassphrase : SecureString) : Action Bool := do
  let wallet ← StateAction.get
  if ¬ wallet.isLocked then return false else unlockLoop tools strWalletPassphrase wallet.mapMasterKeys

/-- `mapMasterKeys[nID] = kMasterKey`. -/
def setMasterKey (nID : ℕ) (kMasterKey : CMasterKey) : List (ℕ × CMasterKey) → List (ℕ × CMasterKey)
  | [] => [(nID, kMasterKey)]
  | entry :: rest =>
    if nID = entry.1 then (nID, kMasterKey) :: rest
    else if nID < entry.1 then (nID, kMasterKey) :: entry :: rest
    else entry :: setMasterKey nID kMasterKey rest

def putMasterKey (nID : ℕ) (kMasterKey : CMasterKey) : Action Unit :=
  StateAction.modify fun wallet => { wallet with mapMasterKeys := setMasterKey nID kMasterKey wallet.mapMasterKeys }

/-- A master key that the old passphrase has opened is written under the new one, with the rounds that the time
measurements lead to. -/
def rewriteMasterKey (strNewWalletPassphrase : SecureString) (nTimed : ℕ) (fWasLocked : Bool)
    (vMasterKey : CKeyingMaterial) (nID : ℕ) (kMasterKey : CMasterKey) : Action Bool := do
  let kMasterKey := { kMasterKey with nDeriveIterations := max 25000 nTimed }
  putMasterKey nID kMasterKey
  match tools.setKeyFromPassphrase strNewWalletPassphrase kMasterKey with
  | none => return false
  | some crypter =>
    match tools.cipher.encrypt crypter.1 crypter.2 vMasterKey with
    | none => return false
    | some vchCryptedKey => do
      let kMasterKey := { kMasterKey with vchCryptedKey }
      putMasterKey nID kMasterKey
      let _ ← onFile (CWalletDB.writeMasterKey ok nID kMasterKey)
      if fWasLocked then do
        let _ ← lock
        return true
      else return true

def changeLoop (strOldWalletPassphrase strNewWalletPassphrase : SecureString) (nTimed : ℕ) (fWasLocked : Bool) :
    List (ℕ × CMasterKey) → Action Bool
  | [] => return false
  | pMasterKey :: rest =>
    match tools.setKeyFromPassphrase strOldWalletPassphrase pMasterKey.2 with
    | none => return false
    | some crypter =>
      match tools.cipher.decrypt crypter.1 crypter.2 pMasterKey.2.vchCryptedKey with
      | none => return false
      | some vMasterKey => do
        let fUnlocked ← onStore fun keystore => keystore.unlock tools.toKeyTools vMasterKey
        if fUnlocked then
          rewriteMasterKey tools ok strNewWalletPassphrase nTimed fWasLocked vMasterKey pMasterKey.1 pMasterKey.2
        else changeLoop strOldWalletPassphrase strNewWalletPassphrase nTimed fWasLocked rest

def changeWalletPassphrase (strOldWalletPassphrase strNewWalletPassphrase : SecureString) (nTimed : ℕ) :
    Action Bool := do
  let wallet ← StateAction.get
  let fWasLocked := wallet.isLocked
  let _ ← lock
  changeLoop tools ok strOldWalletPassphrase strNewWalletPassphrase nTimed fWasLocked wallet.mapMasterKeys

/-- `AddCryptedKey`, in memory and then in the file. -/
def addCryptedKey (vchPubKey vchCryptedSecret : valtype) : Action Bool := do
  let fAdded ← onStore fun keystore => .ok (keystore.addCryptedKey tools.toKeyTools vchPubKey vchCryptedSecret)
  if ¬ fAdded then return false else onFile (CWalletDB.writeCryptedKey ok vchPubKey vchCryptedSecret)

/-- Encrypt a secret and keep it. -/
def addEncrypted (vMasterKey : CKeyingMaterial) (key : CKey tools.curve) : Action Bool := do
  let vchPubKey ← StateAction.lift key.getPubKey
  let secret ← StateAction.lift key.getSecret
  match tools.cipher.encryptSecret vMasterKey secret.1 (tools.hash2 vchPubKey) with
  | none => return false
  | some vchCryptedSecret => addCryptedKey tools ok vchPubKey vchCryptedSecret

/-- The loop of `EncryptKeys`. -/
def encryptLoop (vMasterKey : CKeyingMaterial) : List (Sigma fun _ : CKeyID => CSecret × Bool) → Action Bool
  | [] => do
    StateAction.modify fun wallet => { wallet with keystore := { wallet.keystore with mapKeys := ∅ } }
    return true
  | mKey :: rest => do
    let key ← StateAction.lift (({} : CKey tools.curve).setSecret mKey.2.1 mKey.2.2)
    let fAdded ← addEncrypted tools ok vMasterKey key
    if ¬ fAdded then return false else encryptLoop vMasterKey rest

def encryptKeys (vMasterKey : CKeyingMaterial) : Action Bool := do
  let wallet ← StateAction.get
  if ¬ wallet.keystore.mapCryptedKeys.entries.isEmpty ∨ wallet.keystore.isCrypted then return false
  else do
    StateAction.modify fun wallet => { wallet with keystore := { wallet.keystore with fUseCrypto := true } }
    encryptLoop tools ok vMasterKey wallet.keystore.mapKeys.entries

/-- `SetMinVersion`; the results of the writes are dropped. -/
def setMinVersion (nVersion : ℤ) (fExplicit : Bool) : Action Unit := do
  let wallet ← StateAction.get
  if nVersion ≤ wallet.nWalletVersion then return ()
  else do
    let nVersion := if fExplicit ∧ wallet.nWalletMaxVersion < nVersion then FEATURE_LATEST else nVersion
    StateAction.modify fun wallet =>
      { wallet with nWalletVersion := nVersion, nWalletMaxVersion := max wallet.nWalletMaxVersion nVersion }
    let _ ← (if FEATURE_WALLETCRYPT ≤ nVersion then
        onFile (CWalletDB.writeSetting ok "addrIncoming" .addrIncoming)
      else return true : Action Bool)
    let _ ← (if FEATURE_WALLETCRYPT < nVersion then onFile (CWalletDB.writeMinVersion ok nVersion)
      else return true : Action Bool)
    return ()

/-- `AddKey`; the key store calls back for an encrypted key. -/
def addKey (key : CKey tools.curve) : Action Bool := do
  let wallet ← StateAction.get
  if ¬ wallet.keystore.isCrypted then do
    let fAdded ← onStore fun keystore => keystore.addKey tools.toKeyTools key
    if ¬ fAdded then return false
    else do
      let vchPubKey ← StateAction.lift key.getPubKey
      let vchPrivKey ← StateAction.lift (tools.getPrivKey key)
      onFile (CWalletDB.writeKey ok vchPubKey vchPrivKey)
  else if wallet.isLocked then return false
  else addEncrypted tools ok wallet.keystore.vMasterKey key

def generateNewKey (vchSecret : CSecret) : Action valtype := do
  let wallet ← StateAction.get
  let fCompressed : Bool := FEATURE_COMPRPUBKEY ≤ wallet.nWalletMaxVersion
  let key := tools.makeNewKey vchSecret fCompressed
  (if fCompressed then setMinVersion ok FEATURE_COMPRPUBKEY false else return () : Action Unit)
  let fAdded ← addKey tools ok key
  StateAction.lift (rejectIf (¬ fAdded) (.throws "CWallet::GenerateNewKey() : AddKey failed"))
  StateAction.lift key.getPubKey

/-- The old key pool is erased; the results are dropped. -/
def erasePools : List ℕ → Action Unit
  | [] => return ()
  | nIndex :: rest => do
    let _ ← onFile (CWalletDB.erasePool ok nIndex)
    erasePools rest

/-- The new key pool is filled; the results of the writes are dropped. -/
def fillPool : ℕ → List CSecret → Action Unit
  | _, [] => return ()
  | nIndex, vchSecret :: rest => do
    let vchPubKey ← generateNewKey tools ok vchSecret
    let _ ← onFile (CWalletDB.writePool ok nIndex vchPubKey)
    StateAction.modify fun wallet => { wallet with setKeyPool := wallet.setKeyPool ++ [nIndex] }
    fillPool (nIndex + 1) rest

/-- `NewKeyPool`, with the secrets of the new keys. -/
def newKeyPool (vchSecrets : List CSecret) : Action Bool := do
  let wallet ← StateAction.get
  erasePools ok wallet.setKeyPool
  StateAction.modify fun wallet => { wallet with setKeyPool := [] }
  let wallet ← StateAction.get
  if wallet.isLocked then return false
  else do
    fillPool tools ok 1 vchSecrets
    return true

/-- What the random generator gives while a wallet is encrypted. -/
structure Randomness where
  vMasterKey : CKeyingMaterial
  vchSalt : valtype
  vchSecrets : List CSecret
  size_master : vMasterKey.length = WALLET_CRYPTO_KEY_SIZE
  size_salt : vchSalt.length = WALLET_CRYPTO_SALT_SIZE
  size_secrets : ∀ vchSecret ∈ vchSecrets, vchSecret.length = 32

/-- `EncryptWallet` from the new master key on. -/
def encryptWith (strWalletPassphrase : SecureString) (random : Randomness) (kMasterKey : CMasterKey) :
    Action Bool := do
  StateAction.modify fun wallet => { wallet with nMasterKeyMaxID := (wallet.nMasterKeyMaxID + 1) % 2 ^ 32 }
  let wallet ← StateAction.get
  putMasterKey wallet.nMasterKeyMaxID kMasterKey
  let fBegun ← onFile (TxnStore.begin ok)
  if ¬ fBegun then return false
  else do
    let _ ← onFile (CWalletDB.writeMasterKey ok wallet.nMasterKeyMaxID kMasterKey)
    let fEncrypted ← encryptKeys tools ok random.vMasterKey
    -- half of the keys may be encrypted in memory
    StateAction.lift (rejectIf (¬ fEncrypted) (.abort "exit(1)"))
    setMinVersion ok FEATURE_WALLETCRYPT true
    let fCommitted ← onFile (TxnStore.commit ok)
    -- the keys are encrypted in memory, but not on disk
    StateAction.lift (rejectIf (¬ fCommitted) (.abort "exit(1)"))
    let _ ← lock
    let _ ← unlock tools strWalletPassphrase
    let _ ← newKeyPool tools ok random.vchSecrets
    let _ ← lock
    return true

def encryptWallet (strWalletPassphrase : SecureString) (nTimed : ℕ) (random : Randomness) : Action Bool := do
  let wallet ← StateAction.get
  if wallet.keystore.isCrypted then return false
  else
    let kMasterKey : CMasterKey := { vchSalt := random.vchSalt, nDeriveIterations := max 25000 nTimed }
    match tools.setKeyFromPassphrase strWalletPassphrase kMasterKey with
    | none => return false
    | some crypter =>
      match tools.cipher.encrypt crypter.1 crypter.2 random.vMasterKey with
      | none => return false
      | some vchCryptedKey => encryptWith tools ok strWalletPassphrase random { kMasterKey with vchCryptedKey }

/-- A record of a private key in `ReadKeyValue`, with `LoadKey`. -/
def readKey (vchPubKey vchPrivKey : valtype) (wallet : WalletKeys) : Option WalletKeys := do
  let key ← tools.setPrivKey vchPrivKey (({} : CKey tools.curve).setPubKey vchPubKey)
  let vchPubKey' ← key.getPubKey.toOption
  let fValid ← (tools.isValid key).toOption
  if vchPubKey' ≠ vchPubKey ∨ ¬ fValid then none
  else do
    let added ← (wallet.keystore.addKey tools.toKeyTools key).toOption
    if added.1 then some { wallet with keystore := added.2 } else none

/-- `ReadKeyValue`, as far as the keys go; a failure makes the file corrupt. -/
def readKeyValue (wallet : WalletKeys) : (Sigma fun _ : WalletKey => WalletRecord) → Option WalletKeys
  | ⟨.key vchPubKey, .key vchPrivKey⟩ | ⟨.wkey vchPubKey, .key vchPrivKey⟩ =>
    readKey tools vchPubKey vchPrivKey wallet
  | ⟨.mkey nID, .mkey kMasterKey⟩ =>
    if nID ∈ wallet.mapMasterKeys.map Prod.fst then none
    else some { wallet with
      mapMasterKeys := setMasterKey nID kMasterKey wallet.mapMasterKeys
      nMasterKeyMaxID := max wallet.nMasterKeyMaxID nID }
  | ⟨.ckey vchPubKey, .ckey vchCryptedSecret⟩ =>
    let added := wallet.keystore.addCryptedKey tools.toKeyTools vchPubKey vchCryptedSecret
    if added.1 then some { wallet with keystore := added.2 } else none
  | ⟨.key _, _⟩ | ⟨.wkey _, _⟩ | ⟨.mkey _, _⟩ | ⟨.ckey _, _⟩ => none
  | ⟨.pool nIndex, _⟩ => some { wallet with setKeyPool := wallet.setKeyPool ++ [nIndex] }
  | _ => some wallet

/-- The version of a file, as `LoadMinVersion` takes it. -/
def minVersion (file : WalletRecords) : ℤ :=
  match file.lookup .minversion with
  | some (.minversion nVersion) => nVersion
  | _ => FEATURE_BASE

/-- `LoadWallet`, as far as the keys go. -/
def loadWallet (cursor : Cursor) (file : WalletRecords) : Option WalletKeys :=
  let nMinVersion := minVersion file
  if CLIENT_VERSION < nMinVersion then none
  else (cursor.toList file).foldlM (readKeyValue tools)
    { walletdb := .new file, nWalletVersion := nMinVersion, nWalletMaxVersion := max FEATURE_BASE nMinVersion }

end WalletKeys

end BitCrystal
