import BitCrystal.Model.ListTransactions
import BitCrystal.Model.Multisig

/-! # `signrawtransaction`

The request is a concatenation of variants of a transaction. The first one is signed, and the signatures of all
variants are merged into it. The characters of strings are bytes. A parameter that is null is one that is not given.
-/

namespace BitCrystal

open txnouttype

/-! ## Parameters -/

def stringBytes (s : String) : List UInt8 := s.toList.map fun c => UInt8.ofNat c.toNat

def isHex (str : List UInt8) : Bool :=
  str.all (fun c => (phexdigit c).isSome) ∧ 0 < str.length ∧ str.length % 2 = 0

/-- `SetHex` for digits. -/
def setHex (psz : List UInt8) : Uint256 :=
  psz.foldl (fun n c => n * 16 + ((phexdigit c).getD 0).toNat) 0 % 2 ^ 256

/-- The first value with a name, or null. -/
def findValue (o : Object) (name : String) : Value := (o.lookup name).getD .null

/-- `RPCTypeCheck` for an object. The expected types are in the order of a map. -/
def rpcTypeCheck (o : Object) (typesExpected : List (String × String)) : Check Unit :=
  typesExpected.forM fun (name, type) => do
    let v := findValue o name
    rejectIf (v = .null) (.throws ("Missing " ++ name))
    rejectIf (v.typeName ≠ type) (.throws ("Expected type " ++ type ++ " for " ++ name ++ ", got " ++ v.typeName))

/-- The digits that `ParseHashV` and `ParseHexV` read. -/
def hexDigits (v : Value) (strName : String) : Check (List UInt8) := do
  let strHex := match v with
    | .str s => s
    | _ => ""
  rejectIf (¬ isHex (stringBytes strHex)) (.throws (strName ++ " must be hexadecimal string (not '" ++ strHex ++ "')"))
  return stringBytes strHex

def parseHashV (v : Value) (strName : String) : Check Uint256 := do
  let digits ← hexDigits v strName
  return setHex digits

def parseHexV (v : Value) (strName : String) : Check valtype := do
  let digits ← hexDigits v strName
  return parseHex digits

structure SignRequest where
  hexString : Value
  /-- An element that is no object is `none`. -/
  prevTxs : Option (List (Option Object)) := none
  keys : Option (List Value) := none
  strHashType : Option String := none

/-- A key store with the secrets behind it. -/
structure SigningKeys where
  keystore : CKeyStore := {}
  signer : Signer := ⟨fun _ _ => none, fun _ => []⟩

/-- What is known about secrets. -/
structure SecretTools where
  /-- `SetString` and `GetSecret` of `CBitcoinSecret`. -/
  setString : String → Option (CSecret × Bool)
  getPubKey : CSecret × Bool → valtype
  sign : CSecret × Bool → Uint256 → Option valtype

namespace SigningKeys

variable (crypto : Crypto) (tools : SecretTools) (keys : SigningKeys)

def addKey (secret : CSecret × Bool) : SigningKeys where
  keystore := keys.keystore.addKey crypto (tools.getPubKey secret)
  signer :=
    let id := crypto.hash160 (tools.getPubKey secret)
    ⟨Function.update keys.signer.sign id (tools.sign secret),
      Function.update keys.signer.getPubKey id (tools.getPubKey secret)⟩

def addCScript (redeemScript : CScript) : SigningKeys :=
  { keys with keystore := { keys.keystore with
    mapScripts := (crypto.hash160 redeemScript, redeemScript) :: keys.keystore.mapScripts } }

/-- The loop over the private keys. -/
def addSecrets (ks : List Value) : Check SigningKeys :=
  ks.foldlM (fun keys k => do
    let strSecret ← k.getStr
    let secret ← assertSome (.throws "Invalid private key") (tools.setString strSecret)
    return keys.addKey crypto tools secret) keys

end SigningKeys

namespace CKeyStore

variable (crypto : Crypto) (signer : Signer) (keystore : CKeyStore) (hash : Uint256) (nHashType : BitVec 32)

/-- `SignN` with the signatures it adds, also when they are too few. -/
def signNInto (multisigdata : List valtype) (scriptSigRet : CScript) : Bool × CScript :=
  let nRequired := ((multisigdata.headD []).headD 0).toNat
  let (nSigned, scriptSigRet) :=
    signNLoop crypto signer keystore hash nHashType nRequired multisigdata.tail.dropLast 0 scriptSigRet
  (nSigned = nRequired, scriptSigRet)

/-- `Solver` of a key store with what it leaves in `scriptSigRet`. -/
def solveInto (scriptPubKey : CScript) : Bool × CScript :=
  let solution := solver scriptPubKey
  let vSolutions := solution.vSolutionsRet
  let returned (scriptSigRet : Option CScript) : Bool × CScript := (scriptSigRet.isSome, scriptSigRet.getD [])
  if ¬ solution.fSolved then (false, [])
  else match solution.typeRet with
    | TX_NONSTANDARD => (false, [])
    | TX_PUBKEY => returned (sign1 signer keystore hash nHashType (crypto.hash160 (vSolutions.headD [])) [])
    | TX_PUBKEYHASH =>
      returned ((sign1 signer keystore hash nHashType (vSolutions.headD []) []).map fun scriptSigRet =>
        scriptSigRet ++ CScript.pushData (signer.getPubKey (vSolutions.headD [])))
    | TX_SCRIPTHASH => returned (keystore.getCScript (vSolutions.headD []))
    -- workaround CHECKMULTISIG bug
    | TX_MULTISIG => signNInto crypto signer keystore hash nHashType vSolutions [OP_0]

end CKeyStore

section

variable (crypto : Crypto) (keys : SigningKeys)

/-- The script that `SignSignature` leaves, whether or not it solves the output. -/
def signInto (fromPubKey : CScript) (txTo : CTransaction) (nIn : ℕ) (nHashType : BitVec 32) : CScript :=
  let sighash (scriptCode : CScript) (txTo : CTransaction) : Uint256 :=
    signatureHash (fun bytes => LittleEndian.decode (crypto.hash2 bytes)) scriptCode txTo nIn nHashType
  let (fSolved, scriptSig) := keys.keystore.solveInto crypto keys.signer (sighash fromPubKey txTo) nHashType fromPubKey
  if fSolved ∧ (solver fromPubKey).typeRet = TX_SCRIPTHASH then
    let subscript := scriptSig
    let hash2 := sighash subscript (txTo.setScriptSig nIn subscript)
    (keys.keystore.solveInto crypto keys.signer hash2 nHashType subscript).2 ++ CScript.pushData subscript
  else scriptSig

end

/-- What `VerifyScript` answers. `EvalScript` catches what is thrown in it. -/
def ScriptContext.verified (ctx : ScriptContext) (scriptSig scriptPubKey : CScript) : Check Bool :=
  match ctx.verifyScript scriptSig scriptPubKey with
  | .ok () => .ok true
  | .error (.error _) | .error (.throws _) => .ok false
  | .error failure => .error failure

/-! ## Previous outputs -/

/-- `CCoinsView`, which has no coins. -/
def viewDummy : CCoinsView := ⟨fun _ => none, none⟩

/-- The cache with what the backend has for the inputs, after the backend is switched off. -/
def fetchInputs (backend : CCoinsView) (tx : CTransaction) : CCoinsViewCache where
  base := viewDummy
  cacheCoins txid := if txid ∈ tx.vin.map fun txin => txin.prevout.hash then backend.getCoins txid else none

/-- The output of an entry of the request, whose value is not known. -/
def CCoins.setPrevOut (coins : CCoins) (nOut : ℤ) (scriptPubKey : CScript) : Check CCoins := do
  let vout ← (if coins.vout.length ≤ nOut.toNat then do
      let size ← int32 (nOut + 1)
      return coins.vout ++ List.replicate (size.toNat - coins.vout.length) .null
    else return coins.vout)
  return { coins with vout := vout.set nOut.toNat ⟨0, scriptPubKey⟩ }

/-- The node that is asked. -/
structure SigningNode where
  crypto : Crypto
  tools : SecretTools
  /-- What an instruction that fails leaves on the stack. -/
  residue : UInt8 → ScriptState → List valtype
  /-- `ToString` of a script. -/
  scriptToString : CScript → String
  pcoinsTip : CCoinsViewCache
  mempool : CTxMemPool
  pwalletMain : SigningKeys
  isLocked : Bool

/-- What is known before the inputs are signed. -/
structure SigningJob where
  /-- The first variant. -/
  tx : CTransaction
  txVariants : List CTransaction
  view : CCoinsViewCache
  keys : SigningKeys
  nHashType : BitVec 32

/-- The loop that reads variants; each one takes some of the bytes. -/
def readVariants : ℕ → List UInt8 → Check (List CTransaction)
  | 0, _ => .error .diverges
  | rounds + 1, ssData =>
    if ssData = [] then .ok []
    else match (CTransaction.unserialize MAX_SIZE { vin := [], vout := [] }).run ssData with
      | none => .error (.throws "TX decode failed")
      | some (tx, ssData) => do
        let txVariants ← readVariants rounds ssData
        return tx :: txVariants

/-- The values of the last parameter. -/
def mapSigHashValues : List (String × BitVec 32) :=
  [("ALL", SIGHASH_ALL), ("ALL|ANYONECANPAY", SIGHASH_ALL ||| SIGHASH_ANYONECANPAY),
    ("NONE", SIGHASH_NONE), ("NONE|ANYONECANPAY", SIGHASH_NONE ||| SIGHASH_ANYONECANPAY),
    ("SINGLE", SIGHASH_SINGLE), ("SINGLE|ANYONECANPAY", SIGHASH_SINGLE ||| SIGHASH_ANYONECANPAY)]

namespace SigningNode

variable (node : SigningNode)

/-- The types of the fields of a previous output. -/
def prevOutTypes : List (String × String) := [("scriptPubKey", "str"), ("txid", "str"), ("vout", "int")]

/-- An output that is available has to have the script of the request. -/
def checkScriptPubKey (coins : CCoins) (nOut : ℤ) (scriptPubKey : CScript) : Check Unit :=
  match coins.vout[nOut.toNat]? with
  | some txout =>
    rejectIf (¬ txout.isNull ∧ txout.scriptPubKey ≠ scriptPubKey) (.throws ("Previous output scriptPubKey mismatch:\n" ++
      node.scriptToString txout.scriptPubKey ++ "\nvs:\n" ++ node.scriptToString scriptPubKey))
  -- what todo if txid is known, but the actual output isn't?
  | none => .ok ()

/-- One round of the loop over the previous outputs of the request. -/
def addPrevTx (fGivenKeys : Bool) (state : CCoinsViewCache × SigningKeys) (p : Option Object) :
    Check (CCoinsViewCache × SigningKeys) := do
  let (view, tempKeystore) := state
  let prevOut ← assertSome (.throws "expected object with \x7b\"txid'\",\"vout\",\"scriptPubKey\"\x7d") p
  rpcTypeCheck prevOut prevOutTypes
  let txid ← parseHashV (findValue prevOut "txid") "txid"
  let nOut ← (findValue prevOut "vout").getInt
  rejectIf (nOut < 0) (.throws "vout must be positive")
  let scriptPubKey ← parseHexV (findValue prevOut "scriptPubKey") "scriptPubKey"
  let coins := (view.getCoins txid).getD {}
  node.checkScriptPubKey coins nOut scriptPubKey
  let coins ← coins.setPrevOut nOut scriptPubKey
  let view := view.setCoins txid coins
  if fGivenKeys ∧ CScript.isPayToScriptHash scriptPubKey then
    rpcTypeCheck prevOut (("redeemScript", "str") :: prevOutTypes)
    let redeemScript ← parseHexV (findValue prevOut "redeemScript") "redeemScript"
    return (view, tempKeystore.addCScript node.crypto redeemScript)
  else return (view, tempKeystore)

/-- The key store that is filled from the request, or that of the wallet. -/
def chooseKeys (request : SignRequest) : Check SigningKeys :=
  match request.keys with
  | some ks => SigningKeys.addSecrets node.crypto node.tools {} ks
  | none => do
    rejectIf node.isLocked (.throws "Error: Please enter the wallet passphrase with walletpassphrase first.")
    return node.pwalletMain

def hashType (request : SignRequest) : Check (BitVec 32) :=
  match request.strHashType with
  | none => .ok SIGHASH_ALL
  | some strHashType => assertSome (.throws "Invalid sighash param") (mapSigHashValues.lookup strHashType)

/-- Everything before the inputs are signed. -/
def prepare (request : SignRequest) : Check SigningJob := do
  let txData ← parseHexV request.hexString "argument 1"
  let txVariants ← readVariants (txData.length + 1) txData
  let mergedTx ← assertSome (.throws "Missing transaction") txVariants.head?
  let view := fetchInputs (node.mempool.viewMemPool node.pcoinsTip.answers) mergedTx
  let keys ← node.chooseKeys request
  let state ← (request.prevTxs.getD []).foldlM (node.addPrevTx request.keys.isSome) (view, keys)
  let nHashType ← hashType request
  return { tx := mergedTx, txVariants, view := state.1, keys := state.2, nHashType }

end SigningNode

namespace SigningJob

variable (node : SigningNode) (job : SigningJob)

/-- The script of an output that is available. -/
def prevPubKey (prevout : COutPoint) : Option CScript :=
  (job.view.getCoins prevout.hash).bind fun coins =>
    coins.vout[prevout.n]?.bind fun txout => if txout.isNull then none else some txout.scriptPubKey

/-- The inputs that are signed by the keys of the job. -/
def signs (i : ℕ) : Prop :=
  job.nHashType &&& ~~~SIGHASH_ANYONECANPAY ≠ SIGHASH_SINGLE ∨ i < job.tx.vout.length

instance (i : ℕ) : Decidable (job.signs i) := inferInstanceAs (Decidable (_ ∨ _))

/-- One round of the loop over the variants. -/
def mergeVariant (prevPubKey : CScript) (i : ℕ) (mergedTx txv : CTransaction) : Check CTransaction := do
  let txin ← assertSome .undefined mergedTx.vin[i]?
  let other ← assertSome .undefined txv.vin[i]?
  let scriptSig ← node.crypto.combineSignatures node.residue prevPubKey mergedTx i txin.scriptSig other.scriptSig
  return mergedTx.setScriptSig i scriptSig

/-- The context in which an input is verified. -/
def context (tx : CTransaction) (i : ℕ) : ScriptContext :=
  ⟨node.crypto, tx, i, SCRIPT_VERIFY_P2SH ||| SCRIPT_VERIFY_STRICTENC, 0⟩

/-- One round of the loop over the inputs. The solution that `SignSignature` tests is not looked at. -/
def signInput (state : CTransaction × Bool) (i : ℕ) : Check (CTransaction × Bool) := do
  let (mergedTx, fComplete) := state
  let txin ← assertSome .undefined mergedTx.vin[i]?
  match job.prevPubKey txin.prevout with
  | none => return (mergedTx, false)
  | some prevPubKey =>
    let mergedTx := mergedTx.setScriptSig i []
    let mergedTx :=
      if job.signs i then
        mergedTx.setScriptSig i (signInto node.crypto job.keys prevPubKey mergedTx i job.nHashType)
      else mergedTx
    let mergedTx ← job.txVariants.foldlM (mergeVariant node prevPubKey i) mergedTx
    let txin ← assertSome .undefined mergedTx.vin[i]?
    let fVerified ← (context node mergedTx i).verified txin.scriptSig prevPubKey
    return (mergedTx, fComplete && fVerified)

def sign : Check (CTransaction × Bool) := (List.range job.tx.vin.length).foldlM (job.signInput node) (job.tx, true)

end SigningJob

/-- The fields `hex` and `complete` of the result. -/
def SigningNode.signrawtransaction (node : SigningNode) (request : SignRequest) : Check (List UInt8 × Bool) := do
  let job ← node.prepare request
  let (mergedTx, fComplete) ← job.sign node
  return (hexStr mergedTx.serialize, fComplete)

end BitCrystal
