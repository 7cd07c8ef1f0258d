import BitCrystal.Model.Solver
import BitCrystal.Model.Block
import Mathlib.Data.List.AList

/-! # Which scripts are mine

A key store knows keys by the hash of the public key and scripts by their hash. The secrets are left
out.
-/

namespace BitCrystal

open txnouttype

inductive CTxDestination
  | CNoDestination
  | CKeyID (hash : valtype)
  | CScriptID (hash : valtype)
deriving DecidableEq, Repr

def extractDestination (crypto : Crypto) (scriptPubKey : CScript) : Option CTxDestination :=
  let solution := solver scriptPubKey
  let vSolutions := solution.vSolutionsRet
  if ¬ solution.fSolved then none
  else match solution.typeRet with
    | TX_PUBKEY => some (.CKeyID (crypto.hash160 (vSolutions.headD [])))
    | TX_PUBKEYHASH => some (.CKeyID (vSolutions.headD []))
    | TX_SCRIPTHASH => some (.CScriptID (vSolutions.headD []))
    -- Multisig txns have more than one address...
    | TX_MULTISIG | TX_NONSTANDARD => none

structure CKeyStore where
  /-- The key identifiers in `mapKeys`. -/
  mapKeys : List valtype := []
  mapScripts : List (valtype × CScript) := []
deriving DecidableEq, Repr

namespace CKeyStore

variable (crypto : Crypto) (keystore : CKeyStore)

def addKey (vchPubKey : valtype) : CKeyStore :=
  { keystore with mapKeys := crypto.hash160 vchPubKey :: keystore.mapKeys }

def haveKey (address : valtype) : Bool := address ∈ keystore.mapKeys

def getCScript (hash : valtype) : Option CScript := keystore.mapScripts.lookup hash

def haveCScript (hash : valtype) : Bool := (keystore.getCScript hash).isSome

/-- `IsMine` of a destination; a script is not looked at. -/
def isMineDestination : CTxDestination → Bool
  | .CNoDestination => false
  | .CKeyID keyID => keystore.haveKey keyID
  | .CScriptID scriptID => keystore.haveCScript scriptID

/-- `HaveKeys`. -/
def haveKeys (pubkeys : List valtype) : ℕ := pubkeys.countP fun pubkey => keystore.haveKey (crypto.hash160 pubkey)

/-- `IsMine`. A script hash leads to another script of the store each time, so the number of scripts
bounds the depth. -/
def isMineLoop : ℕ → CScript → Bool
  | 0, _ => false
  | rounds + 1, scriptPubKey =>
    let solution := solver scriptPubKey
    let vSolutions := solution.vSolutionsRet
    if ¬ solution.fSolved then false
    else match solution.typeRet with
      | TX_NONSTANDARD => false
      | TX_PUBKEY => keystore.haveKey (crypto.hash160 (vSolutions.headD []))
      | TX_PUBKEYHASH => keystore.haveKey (vSolutions.headD [])
      | TX_SCRIPTHASH =>
        match keystore.getCScript (vSolutions.headD []) with
        | none => false
        | some subscript => isMineLoop rounds subscript
      | TX_MULTISIG =>
        -- only if we own all the keys involved
        let keys := vSolutions.tail.dropLast
        keystore.haveKeys crypto keys = keys.length

def isMine (scriptPubKey : CScript) : Bool :=
  keystore.isMineLoop crypto (keystore.mapScripts.length + 1) scriptPubKey

end CKeyStore

end BitCrystal

/-! ## Keys and encrypted keys

A key object keeps what OpenSSL keeps in an `EC_KEY`, and a flag of its own. Key stores know secrets by
the hash of the public key. The order of their maps plays no role: `Unlock` looks at one encrypted key.
-/

namespace BitCrystal

abbrev CSecret := valtype

abbrev CKeyingMaterial := valtype

abbrev CKeyID := valtype

def WALLET_CRYPTO_KEY_SIZE : ℕ := 32

/-- The elliptic curve as OpenSSL provides it. -/
structure Curve where
  Point : Type
  /-- `EC_KEY_regenerate_key`. -/
  regenerate : CSecret → Point
  /-- `i2o_ECPublicKey`, in the compressed form or not. -/
  i2o : Point → Bool → valtype
  /-- `o2i_ECPublicKey`. -/
  o2i : valtype → Option Point
  length_i2o : ∀ point fCompressed, (i2o point fCompressed).length = if fCompressed then 33 else 65
  o2i_i2o : ∀ point fCompressed, o2i (i2o point fCompressed) = some point

/-- The public key of a secret. -/
def Curve.pubKey (curve : Curve) (vchSecret : CSecret) (fCompressed : Bool) : valtype :=
  curve.i2o (curve.regenerate vchSecret) fCompressed

structure CKey (curve : Curve) where
  /-- The private and the public part of `pkey`, and its conversion form. -/
  secret : Option CSecret := none
  point : Option curve.Point := none
  fCompressedForm : Bool := false
  fSet : Bool := false
  fCompressedPubKey : Bool := false

namespace CKey

variable {curve : Curve} (key : CKey curve)

def setCompressedPubKey : CKey curve := { key with fCompressedForm := true, fCompressedPubKey := true }

/-- `SetPubKey`; a failure leaves a reset key. -/
def setPubKey (vchPubKey : valtype) : CKey curve :=
  match curve.o2i vchPubKey with
  | none => {}
  | some point =>
    let key := { key with point := some point, fCompressedForm := vchPubKey.length = 33, fSet := true }
    if vchPubKey.length = 33 then key.setCompressedPubKey else key

/-- `SetSecret`, which makes a new `EC_KEY`. -/
def setSecret (vchSecret : CSecret) (fCompressed : Bool) : Check (CKey curve) := do
  rejectIf (vchSecret.length ≠ 32) (.throws "CKey::SetSecret() : secret must be 32 bytes")
  let key : CKey curve := {
    secret := some vchSecret
    point := some (curve.regenerate vchSecret)
    fCompressedForm := false
    fSet := true
    fCompressedPubKey := key.fCompressedPubKey }
  return if fCompressed || key.fCompressedPubKey then key.setCompressedPubKey else key

def getSecret : Check (CSecret × Bool) := do
  let vchRet ← assertSome .undefined key.secret
  return (vchRet, key.fCompressedPubKey)

def getPubKey : Check valtype := do
  let point ← assertSome (.throws "CKey::GetPubKey() : i2o_ECPublicKey failed") key.point
  return curve.i2o point key.fCompressedForm

end CKey

/-- `CCrypter` with a key and an initialization vector. -/
structure Cipher where
  encrypt : CKeyingMaterial → Uint256 → CSecret → Option valtype
  decrypt : CKeyingMaterial → Uint256 → valtype → Option CSecret

namespace Cipher

variable (cipher : Cipher) (vMasterKey : CKeyingMaterial)

def encryptSecret (vchPlaintext : CSecret) (nIV : Uint256) : Option valtype :=
  if vMasterKey.length ≠ WALLET_CRYPTO_KEY_SIZE then none else cipher.encrypt vMasterKey nIV vchPlaintext

def decryptSecret (vchCiphertext : valtype) (nIV : Uint256) : Option CSecret :=
  if vMasterKey.length ≠ WALLET_CRYPTO_KEY_SIZE then none else cipher.decrypt vMasterKey nIV vchCiphertext

end Cipher

/-- What key stores take from libraries. -/
structure KeyTools where
  crypto : Crypto
  hash2 : valtype → Uint256
  curve : Curve
  cipher : Cipher

abbrev KeyMap := AList fun _ : CKeyID => CSecret × Bool

abbrev CryptedKeyMap := AList fun _ : CKeyID => valtype × valtype

structure CCryptoKeyStore where
  mapKeys : KeyMap := ∅
  mapCryptedKeys : CryptedKeyMap := ∅
  vMasterKey : CKeyingMaterial := []
  fUseCrypto : Bool := false

namespace CCryptoKeyStore

variable (tools : KeyTools) (store : CCryptoKeyStore)

def isCrypted : Bool := store.fUseCrypto

def isLocked : Bool := store.isCrypted && store.vMasterKey.isEmpty

def setCrypted : Bool × CCryptoKeyStore :=
  if store.fUseCrypto then (true, store)
  else if ¬ store.mapKeys.entries.isEmpty then (false, store)
  else (true, { store with fUseCrypto := true })

def lock : Bool × CCryptoKeyStore :=
  let (fCrypted, store) := store.setCrypted
  if ¬ fCrypted then (false, store) else (true, { store with vMasterKey := [] })

/-- The test of `Unlock` on the first key. -/
def opens (vMasterKeyIn : CKeyingMaterial) (vchPubKey vchCryptedSecret : valtype) : Check Bool :=
  match tools.cipher.decryptSecret vMasterKeyIn vchCryptedSecret (tools.hash2 vchPubKey) with
  | none => .ok false
  | some vchSecret =>
    if vchSecret.length ≠ 32 then .ok false
    else do
      let key ← (({} : CKey tools.curve).setPubKey vchPubKey).setSecret vchSecret false
      let vchPubKey' ← key.getPubKey
      return vchPubKey' = vchPubKey

def unlock (vMasterKeyIn : CKeyingMaterial) : Check (Bool × CCryptoKeyStore) :=
  let (fCrypted, store) := store.setCrypted
  if ¬ fCrypted then .ok (false, store)
  else match store.mapCryptedKeys.entries with
    | [] => .ok (true, { store with vMasterKey := vMasterKeyIn })
    | ⟨_, vchPubKey, vchCryptedSecret⟩ :: _ => do
      let fOpens ← opens tools vMasterKeyIn vchPubKey vchCryptedSecret
      return if fOpens then (true, { store with vMasterKey := vMasterKeyIn }) else (false, store)

def addCryptedKey (vchPubKey vchCryptedSecret : valtype) : Bool × CCryptoKeyStore :=
  let (fCrypted, store) := store.setCrypted
  if ¬ fCrypted then (false, store)
  else (true, { store with
    mapCryptedKeys := store.mapCryptedKeys.insert (tools.crypto.hash160 vchPubKey) (vchPubKey, vchCryptedSecret) })

/-- Encrypt a secret and keep it. -/
def addEncrypted (vMasterKey : CKeyingMaterial) (key : CKey tools.curve) : Check (Bool × CCryptoKeyStore) := do
  let vchPubKey ← key.getPubKey
  let (vchSecret, _) ← key.getSecret
  match tools.cipher.encryptSecret vMasterKey vchSecret (tools.hash2 vchPubKey) with
  | none => .ok (false, store)
  | some vchCryptedSecret => .ok (store.addCryptedKey tools vchPubKey vchCryptedSecret)

def addKey (key : CKey tools.curve) : Check (Bool × CCryptoKeyStore) :=
  if ¬ store.isCrypted then do
    let secret ← key.getSecret
    let vchPubKey ← key.getPubKey
    return (true, { store with mapKeys := store.mapKeys.insert (tools.crypto.hash160 vchPubKey) secret })
  else if store.isLocked then .ok (false, store)
  else store.addEncrypted tools store.vMasterKey key

/-- The key that `GetKey` returns, if it returns true. `keyOut` is the object of the caller. -/
def getKey (address : CKeyID) (keyOut : CKey tools.curve) : Check (Option (CKey tools.curve)) :=
  if ¬ store.isCrypted then
    match store.mapKeys.lookup address with
    | none => .ok none
    | some (secret, fCompressed) => do
      let keyOut ← ({} : CKey tools.curve).setSecret secret fCompressed
      return some keyOut
  else match store.mapCryptedKeys.lookup address with
    | none => .ok none
    | some (vchPubKey, vchCryptedSecret) =>
      match tools.cipher.decryptSecret store.vMasterKey vchCryptedSecret (tools.hash2 vchPubKey) with
      | none => .ok none
      | some vchSecret =>
        if vchSecret.length ≠ 32 then .ok none
        else do
          let keyOut ← (keyOut.setPubKey vchPubKey).setSecret vchSecret false
          return some keyOut

/-- The loop of `EncryptKeys`; the keys that are left in `mapKeys` when it fails stay there. -/
def encryptLoop (vMasterKeyIn : CKeyingMaterial) :
    List (Sigma fun _ : CKeyID => CSecret × Bool) → CCryptoKeyStore → Check (Bool × CCryptoKeyStore)
  | [], store => .ok (true, { store with mapKeys := ∅ })
  | ⟨_, secret, fCompressed⟩ :: rest, store => do
    let key ← ({} : CKey tools.curve).setSecret secret fCompressed
    let (fAdded, store) ← store.addEncrypted tools vMasterKeyIn key
    if ¬ fAdded then .ok (false, store) else encryptLoop vMasterKeyIn rest store

def encryptKeys (vMasterKeyIn : CKeyingMaterial) : Check (Bool × CCryptoKeyStore) :=
  if ¬ store.mapCryptedKeys.entries.isEmpty ∨ store.isCrypted then .ok (false, store)
  else encryptLoop tools vMasterKeyIn store.mapKeys.entries { store with fUseCrypto := true }

end CCryptoKeyStore

end BitCrystal
