import BitCrystal.Model.Signature

/-! # Reading scripts

`Solver` compares a script with templates; `GetOp2` reads a script by an iterator.
-/

/-! ## Standard output scripts

`Solver` compares a script with templates, whose opcodes from `OP_SMALLINTEGER` on stand for the
data a standard script carries. The templates are scanned in the order of `txnouttype`.
-/

namespace BitCrystal

inductive txnouttype
  | TX_NONSTANDARD
  | TX_PUBKEY
  | TX_PUBKEYHASH
  | TX_SCRIPTHASH
  | TX_MULTISIG
deriving DecidableEq, Repr

open txnouttype

@[match_pattern] def OP_0 : UInt8 := 0x00
@[match_pattern] def OP_SMALLINTEGER : UInt8 := 0xfa
@[match_pattern] def OP_PUBKEYS : UInt8 := 0xfb
@[match_pattern] def OP_PUBKEYHASH : UInt8 := 0xfd
@[match_pattern] def OP_PUBKEY : UInt8 := 0xfe

def mTemplates : List (txnouttype × CScript) :=
  [(TX_PUBKEY, [OP_PUBKEY, OP_CHECKSIG]),
    (TX_PUBKEYHASH, [OP_DUP, OP_HASH160, OP_PUBKEYHASH, OP_EQUALVERIFY, OP_CHECKSIG]),
    (TX_MULTISIG, [OP_SMALLINTEGER, OP_PUBKEYS, OP_SMALLINTEGER, OP_CHECKMULTISIG])]

/-- What `GetOp` leaves behind: the opcode, the pushed data and the rest of the script. -/
structure ScriptOp where
  opcode : UInt8
  vch : List UInt8
  pc : CScript

/-- `GetOp`; a failed read leaves no data and the invalid opcode. -/
def ScriptOp.get (pc : CScript) : Option ScriptOp :=
  (CScript.getOp pc).map fun (opcode, vch, pc) => ⟨opcode, vch, pc⟩

/-- The size of a public key. -/
def isPubKeySize (vch : List UInt8) : Prop := 33 ≤ vch.length ∧ vch.length ≤ 120

instance (vch : List UInt8) : Decidable (isPubKeySize vch) := inferInstanceAs (Decidable (_ ∧ _))

/-- The inner loop for `OP_PUBKEYS`, which collects public keys and stops behind the last one. -/
def takePubKeys : ℕ → ScriptOp → List (List UInt8) → ScriptOp × List (List UInt8)
  | 0, op1, vSolutions => (op1, vSolutions)
  | rounds + 1, op1, vSolutions =>
    if isPubKeySize op1.vch then
      match ScriptOp.get op1.pc with
      | none => (⟨OP_INVALIDOPCODE, [], op1.pc⟩, vSolutions ++ [op1.vch])
      | some next => takePubKeys rounds next (vSolutions ++ [op1.vch])
    else (op1, vSolutions)

/-- `DecodeOP_N`. -/
def decodeOP_N (opcode : UInt8) : UInt8 := if opcode = OP_0 then 0 else opcode - (OP_1 - 1)

/-- One operation of the script against one of the template; the data it yields, or `none`. -/
def matchOp (op1 op2 : ScriptOp) : Option (List (List UInt8)) :=
  if op2.opcode = OP_PUBKEY then
    if isPubKeySize op1.vch then some [op1.vch] else none
  else if op2.opcode = OP_PUBKEYHASH then
    if op1.vch.length = 20 then some [op1.vch] else none
  else if op2.opcode = OP_SMALLINTEGER then
    if op1.opcode = OP_0 ∨ OP_1 ≤ op1.opcode ∧ op1.opcode ≤ OP_16 then some [[decodeOP_N op1.opcode]]
    else none
  else if op1.opcode = op2.opcode ∧ op1.vch = op2.vch then some [] else none

/-- The comparison of a script with a template; every round reads an operation of the script. -/
def matchLoop : ℕ → CScript → CScript → List (List UInt8) → Option (List (List UInt8))
  | 0, _, _, _ => none
  | rounds + 1, pc1, pc2, vSolutions =>
    if pc1 = [] ∧ pc2 = [] then some vSolutions
    else do
      let op1 ← ScriptOp.get pc1
      let op2 ← ScriptOp.get pc2
      if op2.opcode = OP_PUBKEYS then
        let (op1, vSolutions) := takePubKeys pc1.length op1 vSolutions
        let op2 ← ScriptOp.get op2.pc
        let found ← matchOp op1 op2
        matchLoop rounds op1.pc op2.pc (vSolutions ++ found)
      else
        let found ← matchOp op1 op2
        matchLoop rounds op1.pc op2.pc (vSolutions ++ found)

/-- The result of `Solver` and the values it leaves in its arguments. -/
structure Solution where
  fSolved : Bool
  typeRet : txnouttype
  vSolutionsRet : List (List UInt8)
deriving DecidableEq, Repr

/-- The additional checks for `TX_MULTISIG`. -/
def multisigCounts (vSolutions : List (List UInt8)) : Bool :=
  let m := (vSolutions.headD []).headD 0
  let n := (vSolutions.getLastD []).headD 0
  ¬ (m < 1 ∨ n < 1 ∨ n < m ∨ vSolutions.length - 2 ≠ n.toNat)

def scanTemplates (script1 : CScript) : List (txnouttype × CScript) → Solution
  | [] => ⟨false, TX_NONSTANDARD, []⟩
  | (type, script2) :: rest =>
    match matchLoop (script1.length + 1) script1 script2 [] with
    | none => scanTemplates script1 rest
    | some vSolutions => ⟨if type = TX_MULTISIG then multisigCounts vSolutions else true, type, vSolutions⟩

def solver (scriptPubKey : CScript) : Solution :=
  if scriptPubKey.isPayToScriptHash then ⟨true, TX_SCRIPTHASH, [(scriptPubKey.drop 2).take 20]⟩
  else scanTemplates scriptPubKey mTemplates

/-- Two keys of the smallest size, one of which has to sign. -/
example : solver (OP_1 :: 33 :: List.replicate 33 2 ++ 33 :: List.replicate 33 3 ++ [OP_1 + 1, OP_CHECKMULTISIG]) =
    ⟨true, TX_MULTISIG, [[1], List.replicate 33 2, List.replicate 33 3, [2]]⟩ := by decide

end BitCrystal

/-! ## The iterator of a script

`GetOp2` with the memory it reads, the 32 bit number it compares with the size, and the place where it leaves
the iterator; the iterator is the bytes between it and the end. `FindAndDelete` counts in an `int`. The
functions on lists that the interpreter uses agree with these on scripts of fewer than 2^32 bytes.
-/

namespace BitCrystal.CScript

/-- What `GetOp2` returns and leaves in its references. -/
structure GetOpResult where
  fRet : Bool
  opcodeRet : UInt8
  vchRet : List UInt8
  pc : CScript
deriving DecidableEq

namespace Cursor

/-- Bytes from the iterator on; behind the end there are none. -/
def readBytes (n : ℕ) (pc : CScript) : Check (List UInt8 × CScript) :=
  if pc.length < n then .error .undefined else .ok (pc.take n, pc.drop n)

/-- `return false`, with the iterator where it is then. -/
def stop (pc : CScript) : GetOpResult := ⟨false, OP_INVALIDOPCODE, [], pc⟩

/-- A size field; it is not read when it is cut off. -/
def readSizeField (width : ℕ) (pc : CScript) : Check (Option ℕ × CScript) :=
  if pc.length < width then .ok (none, pc)
  else do
    let (field, pc) ← readBytes width pc
    return (some (LittleEndian.decode field), pc)

/-- The size of the immediate operand. -/
def readSize (opcode : UInt8) (pc : CScript) : Check (Option ℕ × CScript) :=
  if opcode < OP_PUSHDATA1 then .ok (some opcode.toNat, pc)
  else if opcode = OP_PUSHDATA1 then readSizeField 1 pc
  else if opcode = OP_PUSHDATA2 then readSizeField 2 pc
  else readSizeField 4 pc

/-- `GetOp2`; the number of bytes that are left is compared as an `unsigned int`. -/
def getOp2 (pc : CScript) : Check GetOpResult :=
  if pc.length < 1 then return stop pc
  else do
    let (first, pc) ← readBytes 1 pc
    let opcode := first.headD OP_INVALIDOPCODE
    if opcode ≤ OP_PUSHDATA4 then
      let (size, pc) ← readSize opcode pc
      match size with
      | none => return stop pc
      | some nSize =>
        if pc.length % 2 ^ 32 < nSize then return stop pc
        let (vchRet, pc) ← readBytes nSize pc
        return ⟨true, opcode, vchRet, pc⟩
    else return ⟨true, opcode, [], pc⟩

/-- `GetOp` is called until it returns false: the operations, and the iterator after them. -/
def getOps : ℕ → CScript → Check (List (UInt8 × List UInt8) × CScript)
  | 0, _ => .error .diverges
  | rounds + 1, pc => do
    let op ← getOp2 pc
    if op.fRet then
      let (ops, pc) ← getOps rounds op.pc
      return ((op.opcodeRet, op.vchRet) :: ops, pc)
    else return ([], pc)

/-- The loop of `FindAndDelete`: a round erases a match or goes to the next operation. -/
def findAndDeleteLoop (b : CScript) : ℕ → CScript → ℕ → Check (CScript × ℕ)
  | 0, _, _ => .error .diverges
  | rounds + 1, pc, nFound =>
    if b.isPrefixOf pc then do
      rejectIf (2 ^ 31 ≤ nFound + 1) .overflow
      findAndDeleteLoop b rounds (pc.drop b.length) (nFound + 1)
    else do
      let op ← getOp2 pc
      if op.fRet then
        let (rest, nFound) ← findAndDeleteLoop b rounds op.pc nFound
        return (pc.take (pc.length - op.pc.length) ++ rest, nFound)
      else return (pc, nFound)

/-- The script that is left, and what `FindAndDelete` returns. -/
def findAndDelete (script b : CScript) : Check (CScript × ℕ) :=
  if b = [] then return (script, 0) else findAndDeleteLoop b (script.length + 1) script 0

end Cursor

/-- An argument of `operator<<`: an opcode that is no push, or a byte string whose size an `unsigned int` holds. -/
inductive Item
  | opcode (op : UInt8) (high : OP_PUSHDATA4 < op)
  | vector (b : List UInt8) (short : b.length < 2 ^ 32)

/-- What `operator<<` appends. -/
def Item.bytes : Item → CScript
  | .opcode op _ => [op]
  | .vector b _ => pushData b

/-- The items are appended to an empty script one after the other. -/
def build (items : List Item) : CScript := items.foldl (fun script item => script ++ item.bytes) []

end BitCrystal.CScript
