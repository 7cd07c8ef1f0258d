import BitCrystal.Model.EvalScript
import BitCrystal.Model.KeyStore

/-! # Multisig

Addresses for several keys, the merging of their signatures, and the document that the parties pass around.
-/

/-! ## Multisig addresses and partial signatures

`createmultisig` makes a redeem script of keys. `CombineSignatures` merges two signature scripts for the
same input. The vectors it works on are stacks from the bottom to the top.
-/

namespace BitCrystal

open txnouttype

namespace CScript

/-- `PushAll`. -/
def pushAll (values : List valtype) : CScript := values.flatMap pushData

/-- `CScriptVisitor` for a script, whose identifier has 20 bytes. -/
def payToScriptHash (scriptID : valtype) : CScript := OP_HASH160 :: 0x14 :: scriptID ++ [OP_EQUAL]

def encodeOP_N (n : ℤ) : Check UInt8 := do
  rejectIf (¬ (0 ≤ n ∧ n ≤ 16)) (.assertion "n >= 0 && n <= 16")
  return if n = 0 then OP_0 else UInt8.ofNat (OP_1.toNat + n.toNat - 1)

def setMultisig (nRequired : ℤ) (keys : List valtype) : Check CScript := do
  let required ← encodeOP_N nRequired
  let count ← encodeOP_N keys.length
  return required :: pushAll keys ++ [count, OP_CHECKMULTISIG]

end CScript

/-- How the strings of a request stand for keys. -/
structure KeyArguments where
  /-- The destination of a `CBitcoinAddress` that is valid. -/
  address : String → Option CTxDestination
  /-- The full public keys of the wallet. -/
  getPubKey : valtype → Option valtype
  /-- `IsHex` and `ParseHex`. -/
  parseHex : String → Option valtype
  /-- `IsValid` and `SetPubKey`; the key as `GetPubKey` gives it back. -/
  setPubKey : valtype → Option valtype

namespace KeyArguments

variable (arguments : KeyArguments)

/-- One round of the loop that gathers public keys. -/
def gather (ks : String) : Check valtype :=
  match arguments.address ks with
  | some (.CKeyID keyID) => do
    let vchPubKey ← assertSome (.throws ("no full public key for address " ++ ks)) (arguments.getPubKey keyID)
    assertSome (.throws (" Invalid public key: " ++ ks)) (arguments.setPubKey vchPubKey)
  | some _ => .error (.throws (ks ++ " does not refer to a key"))
  | none => do
    let vchPubKey ← assertSome (.throws (" Invalid public key: " ++ ks)) (arguments.parseHex ks)
    assertSome (.throws (" Invalid public key: " ++ ks)) (arguments.setPubKey vchPubKey)

/-- `_createmultisig`. -/
def createmultisig (nRequired : ℤ) (keys : List String) : Check CScript := do
  rejectIf (nRequired < 1) (.throws "a multisignature address must require at least one key to redeem")
  rejectIf (keys.length < nRequired) (.throws ("not enough keys supplied (got " ++ toString keys.length ++
    " keys, but need at least " ++ toString nRequired ++ " to redeem)"))
  let pubkeys ← keys.mapM arguments.gather
  CScript.setMultisig nRequired pubkeys

end KeyArguments

/-- `operator<` of vectors of bytes. -/
def valtypeLt : valtype → valtype → Bool
  | _, [] => false
  | [], _ :: _ => true
  | a :: as, b :: bs => a < b || a = b && valtypeLt as bs

/-- `insert` of a `set<valtype>`. -/
def insertSig (sig : valtype) : List valtype → List valtype
  | [] => [sig]
  | other :: allsigs =>
    if sig = other then other :: allsigs
    else if valtypeLt sig other then sig :: other :: allsigs
    else other :: insertSig sig allsigs

/-- The loop over the keys for one signature. -/
def assignSig (checkSig : valtype → valtype → Bool) (sig : valtype) :
    List valtype → (valtype → Option valtype) → valtype → Option valtype
  | [], sigs => sigs
  | pubkey :: pubkeys, sigs =>
    -- Already got a sig for this pubkey
    if (sigs pubkey).isSome then assignSig checkSig sig pubkeys sigs
    else if checkSig sig pubkey then Function.update sigs pubkey (some sig)
    else assignSig checkSig sig pubkeys sigs

/-- The signatures for the first keys that have one, as many as are required. -/
def mergeSigs (sigs : valtype → Option valtype) : List valtype → ℕ → List valtype
  | [], _ => []
  | _, 0 => []
  | pubkey :: pubkeys, required + 1 =>
    match sigs pubkey with
    | some sig => sig :: mergeSigs sigs pubkeys required
    | none => mergeSigs sigs pubkeys (required + 1)

namespace Crypto

variable (crypto : Crypto) (txTo : CTransaction) (nIn : ℕ)

/-- The entries of the merged script behind the first `OP_0`. -/
def mergedSigs (scriptPubKey : CScript) (nSigsRequired : ℕ) (pubkeys sigs1 sigs2 : List valtype) : List valtype :=
  let allsigs := ((sigs1 ++ sigs2).filter (· ≠ [])).foldl (fun allsigs sig => insertSig sig allsigs) []
  let sigs := allsigs.foldl (fun sigs sig =>
    assignSig (fun sig pubkey => crypto.checkSig sig pubkey scriptPubKey txTo nIn 0) sig pubkeys sigs) fun _ => none
  mergeSigs sigs pubkeys nSigsRequired

def combineMultisig (scriptPubKey : CScript) (vSolutions sigs1 sigs2 : List valtype) : Check CScript := do
  rejectIf (¬ 1 < vSolutions.length) (.assertion "vSolutions.size() > 1")
  let nSigsRequired ← byteAt (vSolutions.headD []) 0
  let merged := crypto.mergedSigs txTo nIn scriptPubKey nSigsRequired.toNat vSolutions.tail.dropLast sigs1 sigs2
  -- pop-one-too-many workaround, and any missing filled with OP_0
  return OP_0 :: CScript.pushAll merged ++ List.replicate (nSigsRequired.toNat - merged.length) OP_0

/-- The recursion of `CombineSignatures`, which takes one entry from both vectors in each round. -/
def combineStacks : ℕ → CScript → Solution → List valtype → List valtype → Check CScript
  | 0, _, _, _, _ => .error .diverges
  | rounds + 1, scriptPubKey, solution, sigs1, sigs2 =>
    match solution.typeRet with
    | TX_NONSTANDARD => .ok (CScript.pushAll (if sigs2.length ≤ sigs1.length then sigs1 else sigs2))
    | TX_PUBKEY | TX_PUBKEYHASH =>
      .ok (CScript.pushAll (if sigs1.headD [] = [] then sigs2 else sigs1))
    | TX_SCRIPTHASH =>
      if sigs1.getLastD [] = [] then .ok (CScript.pushAll sigs2)
      else if sigs2.getLastD [] = [] then .ok (CScript.pushAll sigs1)
      else do
        let spk := sigs1.getLastD []
        let result ← combineStacks rounds spk (solver spk) sigs1.dropLast sigs2.dropLast
        return result ++ CScript.pushData spk
    | TX_MULTISIG => crypto.combineMultisig txTo nIn scriptPubKey solution.vSolutionsRet sigs1 sigs2

end Crypto

namespace ScriptContext

variable (ctx : ScriptContext)

/-- The stack that the loop of `EvalScript` leaves, also when it fails. A failure before an instruction is
executed leaves the stack as it is; what an instruction that fails leaves is the argument `residue`. -/
def leftLoop (residue : UInt8 → ScriptState → List valtype) : ℕ → CScript → ScriptState → List valtype
  | 0, _, state => state.stack
  | rounds + 1, pc, state =>
    if pc = [] then state.stack
    else match (ctx.evalStep pc state).outcome with
      | .ok (next, state) => leftLoop residue rounds next state
      | .error _ =>
        match pc.getOp with
        | none => state.stack
        | some (opcode, vchPushValue, _) =>
          if (admitOp opcode vchPushValue state.nOpCount).isOk then residue opcode state else state.stack

/-- The stack that `EvalScript` leaves on an empty one, from the bottom to the top. -/
def leftStack (residue : UInt8 → ScriptState → List valtype) (script : CScript) : List valtype :=
  if 10000 < script.length then []
  else (ctx.leftLoop residue script.length script ⟨[], [], [], script, 0⟩).reverse

end ScriptContext

namespace Crypto

variable (crypto : Crypto)

/-- `CombineSignatures`. The results of `EvalScript` are not looked at. -/
def combineSignatures (residue : UInt8 → ScriptState → List valtype) (scriptPubKey : CScript) (txTo : CTransaction)
    (nIn : ℕ) (scriptSig1 scriptSig2 : CScript) : Check CScript :=
  let ctx : ScriptContext := ⟨crypto, { vin := [], vout := [] }, 0, SCRIPT_VERIFY_STRICTENC, 0⟩
  let stack1 := ctx.leftStack residue scriptSig1
  let stack2 := ctx.leftStack residue scriptSig2
  crypto.combineStacks txTo nIn (stack1.length + 1) scriptPubKey (solver scriptPubKey) stack1 stack2

end Crypto

end BitCrystal

/-! ### Signing an input

`SignSignature` builds the script that solves an output and tests it. The secrets are left out of the key store, so a
signature of the key with an identifier is an argument; there is none when the secret cannot be read.
-/

namespace BitCrystal

open txnouttype

/-- What the secrets of a key store are used for. -/
structure Signer where
  /-- `GetKey` and then `Sign` of the key. -/
  sign : (address : valtype) → (hash : Uint256) → Option valtype
  getPubKey : (address : valtype) → valtype

namespace CScript

/-- `SetDestination`. -/
def setDestination : CTxDestination → CScript
  | .CNoDestination => []
  | .CKeyID keyID => OP_DUP :: OP_HASH160 :: pushData keyID ++ [OP_EQUALVERIFY, OP_CHECKSIG]
  | .CScriptID scriptID => OP_HASH160 :: pushData scriptID ++ [OP_EQUAL]

end CScript

namespace CKeyStore

variable (crypto : Crypto) (signer : Signer) (keystore : CKeyStore) (hash : Uint256) (nHashType : BitVec 32)

/-- `Sign1`, with `scriptSigRet` before and after it. -/
def sign1 (address : valtype) (scriptSigRet : CScript) : Option CScript :=
  if keystore.haveKey address then
    (signer.sign address hash).map fun vchSig =>
      scriptSigRet ++ CScript.pushData (vchSig ++ [UInt8.ofNat nHashType.toNat])
  else none

/-- The loop of `SignN`: the number of signatures and the script with them. -/
def signNLoop (nRequired : ℕ) : List valtype → ℕ → CScript → ℕ × CScript
  | [], nSigned, scriptSigRet => (nSigned, scriptSigRet)
  | pubkey :: pubkeys, nSigned, scriptSigRet =>
    if nRequired ≤ nSigned then (nSigned, scriptSigRet)
    else match sign1 signer keystore hash nHashType (crypto.hash160 pubkey) scriptSigRet with
      | some scriptSigRet => signNLoop nRequired pubkeys (nSigned + 1) scriptSigRet
      | none => signNLoop nRequired pubkeys nSigned scriptSigRet

def signN (multisigdata : List valtype) (scriptSigRet : CScript) : Option CScript :=
  let nRequired := ((multisigdata.headD []).headD 0).toNat
  let (nSigned, scriptSigRet) :=
    signNLoop crypto signer keystore hash nHashType nRequired multisigdata.tail.dropLast 0 scriptSigRet
  if nSigned = nRequired then some scriptSigRet else none

/-- `Solver` of a key store: the kind of the output and, if it can be solved, `scriptSigRet`. -/
def solve (scriptPubKey : CScript) : txnouttype × Option CScript :=
  let solution := solver scriptPubKey
  let vSolutions := solution.vSolutionsRet
  (solution.typeRet,
    if ¬ solution.fSolved then none
    else match solution.typeRet with
      | TX_NONSTANDARD => none
      | TX_PUBKEY => sign1 signer keystore hash nHashType (crypto.hash160 (vSolutions.headD [])) []
      | TX_PUBKEYHASH =>
        (sign1 signer keystore hash nHashType (vSolutions.headD []) []).map fun scriptSigRet =>
          scriptSigRet ++ CScript.pushData (signer.getPubKey (vSolutions.headD []))
      | TX_SCRIPTHASH => keystore.getCScript (vSolutions.headD [])
      -- workaround CHECKMULTISIG bug
      | TX_MULTISIG => signN crypto signer keystore hash nHashType vSolutions [OP_0])

end CKeyStore

namespace CTransaction

/-- `txin.scriptSig` of an input is set. -/
def setScriptSig (tx : CTransaction) (nIn : ℕ) (scriptSig : CScript) : CTransaction :=
  { tx with vin := tx.vin.modify nIn fun txin => { txin with scriptSig } }

end CTransaction

section

variable (crypto : Crypto) (signer : Signer) (keystore : CKeyStore)

/-- The script that `SignSignature` builds before it tests the solution. -/
def signedScript (fromPubKey : CScript) (txTo : CTransaction) (nIn : ℕ) (nHashType : BitVec 32) : Check CScript :=
  let sighash (scriptCode : CScript) (txTo : CTransaction) : Uint256 :=
    signatureHash (fun bytes => LittleEndian.decode (crypto.hash2 bytes)) scriptCode txTo nIn nHashType
  match keystore.solve crypto signer (sighash fromPubKey txTo) nHashType fromPubKey with
  | (_, none) => returnFalse
  | (TX_SCRIPTHASH, some subscript) =>
    -- Recompute txn hash using subscript in place of scriptPubKey
    let hash2 := sighash subscript (txTo.setScriptSig nIn subscript)
    match keystore.solve crypto signer hash2 nHashType subscript with
    | (_, none) | (TX_SCRIPTHASH, some _) => returnFalse
    | (_, some scriptSig) => .ok (scriptSig ++ CScript.pushData subscript)
  | (_, some scriptSig) => .ok scriptSig

/-- `SignSignature` for the output it spends. -/
def signSignature (txFrom txTo : CTransaction) (nIn : ℕ) (nHashType : BitVec 32) : Check CTransaction := do
  let txin ← assertSome (.assertion "nIn < txTo.vin.size()") txTo.vin[nIn]?
  let txout ← assertSome (.assertion "txin.prevout.n < txFrom.vout.size()") txFrom.vout[txin.prevout.n]?
  let scriptSig ← signedScript crypto signer keystore txout.scriptPubKey txTo nIn nHashType
  let txTo := txTo.setScriptSig nIn scriptSig
  let ctx : ScriptContext := ⟨crypto, txTo, nIn, SCRIPT_VERIFY_P2SH ||| SCRIPT_VERIFY_STRICTENC, 0⟩
  ctx.verifyScript scriptSig txout.scriptPubKey
  return txTo

end

end BitCrystal

/-! ## Documents for multisig signing

Parties pass an encoded document around. It carries the transaction, the addresses of the multisig
address, and who has signed. Signing the transaction itself and reading the wallet's transactions are
arguments, as is the encoding, which a party reads back as it was written.
-/

namespace BitCrystal

/-- The fields of the JSON object. -/
structure MultisigDocument where
  hex : String
  txhash : String := ""
  signdata : String
  fromaddress : String
  addresses : List String
  complete : Bool
  issended : Bool := false
  usedunspenttxids : List String
  usedunspenttxidsamount : ℕ
  averageconfirmations : ℤ
  minconfirmations : ℤ
  outstandingPrivKeys : ℤ
  nRequired : ℤ
  signedAddresses : List String
deriving DecidableEq, Repr

/-- `my_multisigaddress`, as far as a document needs it. -/
structure MultisigAddress where
  addressesJSON : List String
  nRequired : ℤ
deriving DecidableEq, Repr

structure DocumentCodec where
  /-- `write_string` and `encodeDataSecurityEx`. -/
  encode : MultisigDocument → String
  /-- `decoderawtransaction_multisig`, and the fields that have to be there. -/
  decode : String → Option MultisigDocument
  decode_encode : ∀ document, decode (encode document) = some document

/-- The node and the wallet of a party. -/
structure MultisigParty where
  /-- The private keys by address, as `dumpprivkey` gives them. -/
  getPrivKey : String → Option String
  /-- The `hex` and `complete` of `signrawtransaction`, if it does not throw. -/
  signrawtransaction : String → String → List String → Option (String × Bool)
  getAverageConfirmationsOfTxids : List String → ℤ

/-- What `buildtransaction_multisig` and `createrawtransaction` leave. -/
structure BuiltTransaction where
  hex : String
  signdata : String
  usedunspenttxids : List String

/-- The variables of the signing loop. -/
structure KeySelection where
  privKeys : List String := []
  signedAddresses : List String
  outstandingPrivKeys : ℤ
  isSetted : ℕ := 0

namespace MultisigDocument

variable (codec : DocumentCodec) (party : MultisigParty)

/-- `createrawtransaction_multisig` without the option `set`. -/
def createrawtransaction (account_or_address : String) (minconfirmations : ℤ) (built : Option BuiltTransaction)
    (my : Option MultisigAddress) : Option String := do
  let built ← built
  let my ← my
  return codec.encode {
    hex := built.hex
    signdata := built.signdata
    fromaddress := account_or_address
    addresses := my.addressesJSON
    complete := false
    usedunspenttxids := built.usedunspenttxids
    usedunspenttxidsamount := built.usedunspenttxids.length
    averageconfirmations := party.getAverageConfirmationsOfTxids built.usedunspenttxids
    minconfirmations := minconfirmations
    outstandingPrivKeys := my.nRequired
    nRequired := my.nRequired
    signedAddresses := [] }

/-- The loop that collects private keys from position `i` on. The addresses in `signed` had signed before
it; with a limit it ends when that many keys are collected. -/
def collectKeys (getPrivKey : String → Option String) (signed : List String) (limit : Option ℕ) :
    ℕ → List String → KeySelection → KeySelection
  | _, [], selection => selection
  | i, address :: rest, selection =>
    let selection := match getPrivKey address with
      | none => selection
      | some privKey =>
        if i < signed.length ∧ signed[i]? ≠ some address then selection
        else {
          privKeys := selection.privKeys ++ [privKey]
          signedAddresses := selection.signedAddresses ++ [address]
          outstandingPrivKeys := selection.outstandingPrivKeys - 1
          isSetted := selection.isSetted + 1 }
    if limit.any (· ≤ selection.isSetted) then selection else collectKeys getPrivKey signed limit (i + 1) rest selection

/-- The argument `amount`, an `unsigned int` that is 0 if it is not given, limits the keys if it is less than
the number of addresses. -/
def keyLimit (amount : Option ℤ) (size : ℕ) : Option ℕ :=
  let amount := (amount.getD 0 % 2 ^ 32).toNat
  if amount < size ∧ 0 < amount then some amount else none

/-- `signrawtransaction_multisig` without the option `set`; `none` is the value `false`. -/
def signrawtransaction (amount : Option ℤ) (z : String) : Option String := do
  let obj ← codec.decode z
  if obj.complete then none
  else
    let selection := collectKeys party.getPrivKey obj.signedAddresses (keyLimit amount obj.addresses.length) 0
      obj.addresses { signedAddresses := obj.signedAddresses, outstandingPrivKeys := obj.outstandingPrivKeys }
    let ret ← party.signrawtransaction obj.hex obj.signdata selection.privKeys
    some (codec.encode {
      hex := ret.1
      signdata := obj.signdata
      fromaddress := obj.fromaddress
      addresses := obj.addresses
      complete := ret.2
      usedunspenttxids := obj.usedunspenttxids
      usedunspenttxidsamount := obj.usedunspenttxids.length
      averageconfirmations := party.getAverageConfirmationsOfTxids obj.usedunspenttxids
      minconfirmations := obj.minconfirmations
      outstandingPrivKeys := selection.outstandingPrivKeys
      nRequired := obj.nRequired
      signedAddresses := selection.signedAddresses })

end MultisigDocument

end BitCrystal
