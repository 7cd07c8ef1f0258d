import BitCrystal.Model.TxCodec
import BitCrystal.Model.BigNum

/-! # Signatures and what they sign

`SignatureHash` blanks the parts of a copy of the transaction the hash type leaves open and hashes
the copy with the hash type. Its error value is 1.
-/

namespace BitCrystal

open LittleEndian

def SIGHASH_ALL : BitVec 32 := 1
def SIGHASH_NONE : BitVec 32 := 2
def SIGHASH_SINGLE : BitVec 32 := 3
def SIGHASH_ANYONECANPAY : BitVec 32 := 0x80

def OP_CODESEPARATOR : UInt8 := 0xab

namespace CScript

theorem operandSize_suffix {opcode : UInt8} {pc rest : CScript} {nSize : ℕ}
    (found : operandSize opcode pc = some (nSize, rest)) : rest <:+ pc := by
  unfold operandSize at found
  split at found
  · cases found
    exact List.suffix_rfl
  · split at found
    · split at found <;> cases found
      exact ⟨[_], rfl⟩
    · split at found
      · split at found <;> cases found
        exact ⟨[_, _], rfl⟩
      · split at found <;> cases found
        exact ⟨[_, _, _, _], rfl⟩

theorem getOp_suffix {pc rest : CScript} {opcode : UInt8} {data : List UInt8}
    (found : getOp pc = some (opcode, data, rest)) : rest <:+ pc ∧ rest.length < pc.length := by
  cases pc with
  | nil => cases found
  | cons byte pc =>
    have inside : rest <:+ pc := by
      rw [getOp] at found
      split at found
      · split at found
        · cases found
        next operand =>
          split at found <;> cases found
          exact (List.drop_suffix ..).trans (operandSize_suffix operand)
      · cases found
        exact List.suffix_rfl
    have shorter := inside.length_le
    exact ⟨inside.trans (List.suffix_cons ..), Nat.lt_succ_of_le shorter⟩

/-- The loop of `FindAndDelete`; a round deletes a match or skips an operation. -/
def findAndDeleteLoop (b : CScript) : ℕ → CScript → CScript
  | 0, pc => pc
  | rounds + 1, pc =>
    if b.isPrefixOf pc then findAndDeleteLoop b rounds (pc.drop b.length)
    else match getOp pc with
      | none => pc
      | some (_, _, next) => pc.take (pc.length - next.length) ++ findAndDeleteLoop b rounds next

def findAndDelete (script b : CScript) : CScript :=
  if b = [] then script else findAndDeleteLoop b script.length script

theorem length_findAndDeleteLoop (b : CScript) (rounds : ℕ) (pc : CScript) :
    (findAndDeleteLoop b rounds pc).length ≤ pc.length := by
  induction rounds generalizing pc with
  | zero => exact le_rfl
  | succ rounds ih =>
    rw [findAndDeleteLoop]
    split
    · exact (ih _).trans (List.drop_sublist ..).length_le
    · split
      · exact le_rfl
      next next found =>
        have shorter := (getOp_suffix found).1.length_le
        have rest := ih next
        rw [List.length_append, List.length_take]
        omega

theorem length_findAndDelete (script b : CScript) : (findAndDelete script b).length ≤ script.length := by
  unfold findAndDelete
  split
  · exact le_rfl
  · exact length_findAndDeleteLoop ..

end CScript

/-- Only the signed input has a script. -/
def blankScripts (vin : List CTxIn) (nIn : ℕ) (scriptCode : CScript) : List CTxIn :=
  vin.mapIdx fun i txin => { txin with scriptSig := if i = nIn then scriptCode else [] }

/-- Let the others update at will. -/
def blankSequences (vin : List CTxIn) (nIn : ℕ) : List CTxIn :=
  vin.mapIdx fun i txin => if i ≠ nIn then { txin with nSequence := 0 } else txin

/-- Only the output with the number of the input is left, behind null outputs. -/
def blankOutputs (vout : List CTxOut) (nOut : ℕ) : List CTxOut :=
  (vout.take (nOut + 1)).mapIdx fun i txout => if i < nOut then .null else txout

/-- Inputs and outputs blanked as the hash type says, `none` when there is no output to lock in. -/
def blankByType (vin : List CTxIn) (vout : List CTxOut) (nIn : ℕ) (nHashType : BitVec 32) :
    Option (List CTxIn × List CTxOut) :=
  if nHashType &&& 0x1f = SIGHASH_NONE then some (blankSequences vin nIn, [])
  else if nHashType &&& 0x1f = SIGHASH_SINGLE then
    if vout.length ≤ nIn then none else some (blankSequences vin nIn, blankOutputs vout nIn)
  else some (vin, vout)

/-- The copy that is hashed, `none` for the error. -/
def signedCopy (scriptCode : CScript) (txTo : CTransaction) (nIn : ℕ) (nHashType : BitVec 32) :
    Option CTransaction :=
  if txTo.vin.length ≤ nIn then none
  else
    let scriptCode := scriptCode.findAndDelete [OP_CODESEPARATOR]
    (blankByType (blankScripts txTo.vin nIn scriptCode) txTo.vout nIn nHashType).map fun (vin, vout) =>
      { txTo with vin := if nHashType &&& SIGHASH_ANYONECANPAY ≠ 0 then vin[nIn]?.toList else vin, vout }

/-- `SignatureHash`, with the hash of a byte string. -/
def signatureHash (hash : List UInt8 → Uint256) (scriptCode : CScript) (txTo : CTransaction) (nIn : ℕ)
    (nHashType : BitVec 32) : Uint256 :=
  match signedCopy scriptCode txTo nIn nHashType with
  | none => 1
  | some txTmp => hash (txTmp.serialize ++ encode 4 nHashType.toNat)

/-! ## Signatures, keys and their encodings

The digests and the elliptic curve are the library the node is linked with. The signature cache only
holds what that library has accepted before, so it is left out.
-/

/-- The cryptographic library. -/
structure Crypto where
  sha1 : valtype → valtype
  sha256 : valtype → valtype
  ripemd160 : valtype → valtype
  /-- `SetPubKey` takes the key and `Verify` the signature. -/
  verify : (vchPubKey : valtype) → (hash : Uint256) → (vchSig : valtype) → Bool

namespace Crypto

variable (crypto : Crypto)

def hash160 (vch : valtype) : valtype := crypto.ripemd160 (crypto.sha256 vch)

def hash2 (vch : valtype) : valtype := crypto.sha256 (crypto.sha256 vch)

/-- The hash type is one byte tacked on to the end of the signature. -/
def checkSig (vchSig vchPubKey : valtype) (scriptCode : CScript) (txTo : CTransaction) (nIn : ℕ)
    (nHashType : BitVec 32) : Bool :=
  match vchSig.getLast? with
  | none => false
  | some last =>
    let nLast := BitVec.ofNat 32 last.toNat
    if nHashType ≠ 0 ∧ nHashType ≠ nLast then false
    else
      let sighash := signatureHash (fun bytes => decode (crypto.hash2 bytes)) scriptCode txTo nIn nLast
      crypto.verify vchPubKey sighash vchSig.dropLast

end Crypto

/-- `operator<<` of a byte string to an empty script. -/
def CScript.pushData (b : List UInt8) : CScript :=
  (if b.length < OP_PUSHDATA1.toNat then [UInt8.ofNat b.length]
    else if b.length ≤ 0xff then [OP_PUSHDATA1, UInt8.ofNat b.length]
    else if b.length ≤ 0xffff then OP_PUSHDATA2 :: encode 2 b.length
    else OP_PUSHDATA4 :: encode 4 b.length) ++ b

/-- `vch[i]`, undefined behind the end. -/
def byteAt (vch : valtype) (i : ℕ) : Check UInt8 := assertSome .undefined vch[i]?

def isCanonicalPubKey (vchPubKey : valtype) : Check Unit := do
  rejectIf (vchPubKey.length < 33) (.error "Non-canonical public key: too short")
  let first ← byteAt vchPubKey 0
  if first = 0x04 then
    rejectIf (vchPubKey.length ≠ 65) (.error "Non-canonical public key: invalid length for uncompressed key")
  else if first = 0x02 ∨ first = 0x03 then
    rejectIf (vchPubKey.length ≠ 33) (.error "Non-canonical public key: invalid length for compressed key")
  else .error (.error "Non-canonical public key: compressed nor uncompressed")

/-- The checks on the integer R or S whose bytes start at `start`; `name` is the letter. -/
def canonicalInteger (name : String) (vchSig : valtype) (start nLen : ℕ) : Check Unit := do
  rejectIf ((← byteAt vchSig (start - 2)) ≠ 0x02)
    (.error ("Non-canonical signature: " ++ name ++ " value type mismatch"))
  rejectIf (nLen = 0) (.error ("Non-canonical signature: " ++ name ++ " length is zero"))
  let high ← byteAt vchSig start
  rejectIf (high &&& 0x80 ≠ 0) (.error ("Non-canonical signature: " ++ name ++ " value negative"))
  if 1 < nLen ∧ high = 0 then
    rejectIf ((← byteAt vchSig (start + 1)) &&& 0x80 = 0)
      (.error ("Non-canonical signature: " ++ name ++ " value excessively padded"))
  else pure ()

def isCanonicalSignature (vchSig : valtype) : Check Unit := do
  rejectIf (vchSig.length < 9) (.error "Non-canonical signature: too short")
  rejectIf (vchSig.length > 73) (.error "Non-canonical signature: too long")
  let nHashType := (← byteAt vchSig (vchSig.length - 1)) &&& ~~~0x80
  rejectIf (nHashType < 1 ∨ nHashType > 3) (.error "Non-canonical signature: unknown hashtype byte")
  rejectIf ((← byteAt vchSig 0) ≠ 0x30) (.error "Non-canonical signature: wrong type")
  rejectIf ((← byteAt vchSig 1).toNat ≠ vchSig.length - 3) (.error "Non-canonical signature: wrong length marker")
  let nLenR := (← byteAt vchSig 3).toNat
  rejectIf (5 + nLenR ≥ vchSig.length) (.error "Non-canonical signature: S length misplaced")
  let nLenS := (← byteAt vchSig (5 + nLenR)).toNat
  rejectIf (nLenR + nLenS + 7 ≠ vchSig.length) (.error "Non-canonical signature: R+S length mismatch")
  canonicalInteger "R" vchSig 4 nLenR
  canonicalInteger "S" vchSig (6 + nLenR) nLenS

end BitCrystal
