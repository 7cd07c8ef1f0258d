import Mathlib.Algebra.Group.Nat.Defs
import Mathlib.Tactic.SplitIfs

/-! # Scripts and their signature operations

A script is a byte string. `getOp` reads one operation from the bytes at the iterator and returns
the bytes behind it, so an iterator is the remaining suffix. The counters below are the static
ones of `CScript`; the interpreter itself is a parameter of the platform.
-/

namespace BitCrystal

abbrev CScript := List UInt8

def OP_PUSHDATA1 : UInt8 := 0x4c
def OP_PUSHDATA2 : UInt8 := 0x4d
def OP_PUSHDATA4 : UInt8 := 0x4e
def OP_1 : UInt8 := 0x51
def OP_16 : UInt8 := 0x60
@[match_pattern] def OP_DUP : UInt8 := 0x76
@[match_pattern] def OP_EQUAL : UInt8 := 0x87
@[match_pattern] def OP_EQUALVERIFY : UInt8 := 0x88
@[match_pattern] def OP_HASH160 : UInt8 := 0xa9
def OP_CHECKSIG : UInt8 := 0xac
def OP_CHECKSIGVERIFY : UInt8 := 0xad
def OP_CHECKMULTISIG : UInt8 := 0xae
def OP_CHECKMULTISIGVERIFY : UInt8 := 0xaf
def OP_INVALIDOPCODE : UInt8 := 0xff

namespace CScript

/-- The size of the immediate operand and the bytes behind the size field. -/
def operandSize (opcode : UInt8) (pc : CScript) : Option (ℕ × CScript) :=
  if opcode < OP_PUSHDATA1 then some (opcode.toNat, pc)
  else if opcode = OP_PUSHDATA1 then
    match pc with
    | a :: pc => some (a.toNat, pc)
    | _ => none
  else if opcode = OP_PUSHDATA2 then
    match pc with
    | a :: b :: pc => some (a.toNat + 2 ^ 8 * b.toNat, pc)
    | _ => none
  else
    match pc with
    | a :: b :: c :: d :: pc =>
      some (a.toNat + 2 ^ 8 * b.toNat + 2 ^ 16 * c.toNat + 2 ^ 24 * d.toNat, pc)
    | _ => none

/-- `GetOp2`: opcode, pushed data and the bytes behind the operation. -/
def getOp : CScript → Option (UInt8 × List UInt8 × CScript)
  | [] => none
  | opcode :: pc =>
    if opcode ≤ OP_PUSHDATA4 then
      match operandSize opcode pc with
      | none => none
      | some (nSize, pc) =>
        if pc.length < nSize then none else some (opcode, pc.take nSize, pc.drop nSize)
    else some (opcode, [], pc)

/-- The loop of `GetSigOpCount`; every operation takes at least one byte, so the length of the
script bounds the number of rounds. -/
def sigOpLoop (fAccurate : Bool) : ℕ → CScript → UInt8 → ℕ → ℕ
  | 0, _, _, n => n
  | rounds + 1, pc, lastOpcode, n =>
    match getOp pc with
    | none => n
    | some (opcode, _, pc) =>
      let n :=
        if opcode = OP_CHECKSIG ∨ opcode = OP_CHECKSIGVERIFY then n + 1
        else if opcode = OP_CHECKMULTISIG ∨ opcode = OP_CHECKMULTISIGVERIFY then
          if fAccurate ∧ OP_1 ≤ lastOpcode ∧ lastOpcode ≤ OP_16 then
            n + (lastOpcode.toNat - (OP_1.toNat - 1))
          else n + 20
        else n
      sigOpLoop fAccurate rounds pc opcode n

def getSigOpCount (script : CScript) (fAccurate : Bool) : ℕ :=
  sigOpLoop fAccurate script.length script OP_INVALIDOPCODE 0

def isPayToScriptHash (script : CScript) : Bool :=
  script.length = 23 ∧ script[0]? = some OP_HASH160 ∧ script[1]? = some 0x14 ∧
    script[22]? = some OP_EQUAL

/-- The last item a push-only script pushes; `none` when an operation cannot be read or is not a
push. -/
def lastPush : ℕ → CScript → List UInt8 → Option (List UInt8)
  | 0, _, data => some data
  | rounds + 1, pc, data =>
    if pc = [] then some data
    else match getOp pc with
      | none => none
      | some (opcode, pushed, pc) => if OP_16 < opcode then none else lastPush rounds pc pushed

/-- The signature operations of the redeem script `scriptSig` supplies. -/
def getSigOpCountP2SH (script scriptSig : CScript) : ℕ :=
  if ¬ script.isPayToScriptHash then script.getSigOpCount true
  else match lastPush scriptSig.length scriptSig [] with
    | none => 0
    | some subscript => CScript.getSigOpCount subscript true

def isPushOnly (script : CScript) : Bool :=
  (lastPush script.length script []).isSome

end CScript

/-! ## The opcodes of the interpreter

Opcodes are the bytes of a script, in the order of `opcodetype`. Names that only pattern matching on
standard outputs uses are left out.
-/

def OP_1NEGATE : UInt8 := 0x4f

def OP_NOP : UInt8 := 0x61
@[match_pattern] def OP_IF : UInt8 := 0x63
@[match_pattern] def OP_NOTIF : UInt8 := 0x64
@[match_pattern] def OP_ELSE : UInt8 := 0x67
@[match_pattern] def OP_ENDIF : UInt8 := 0x68
@[match_pattern] def OP_VERIFY : UInt8 := 0x69
@[match_pattern] def OP_RETURN : UInt8 := 0x6a

@[match_pattern] def OP_TOALTSTACK : UInt8 := 0x6b
@[match_pattern] def OP_FROMALTSTACK : UInt8 := 0x6c
@[match_pattern] def OP_2DROP : UInt8 := 0x6d
@[match_pattern] def OP_2DUP : UInt8 := 0x6e
@[match_pattern] def OP_3DUP : UInt8 := 0x6f
@[match_pattern] def OP_2OVER : UInt8 := 0x70
@[match_pattern] def OP_2ROT : UInt8 := 0x71
@[match_pattern] def OP_2SWAP : UInt8 := 0x72
@[match_pattern] def OP_IFDUP : UInt8 := 0x73
@[match_pattern] def OP_DEPTH : UInt8 := 0x74
@[match_pattern] def OP_DROP : UInt8 := 0x75
@[match_pattern] def OP_NIP : UInt8 := 0x77
@[match_pattern] def OP_OVER : UInt8 := 0x78
@[match_pattern] def OP_PICK : UInt8 := 0x79
@[match_pattern] def OP_ROLL : UInt8 := 0x7a
@[match_pattern] def OP_ROT : UInt8 := 0x7b
@[match_pattern] def OP_SWAP : UInt8 := 0x7c
@[match_pattern] def OP_TUCK : UInt8 := 0x7d
@[match_pattern] def OP_SIZE : UInt8 := 0x82

@[match_pattern] def OP_1ADD : UInt8 := 0x8b
@[match_pattern] def OP_1SUB : UInt8 := 0x8c
@[match_pattern] def OP_NEGATE : UInt8 := 0x8f
@[match_pattern] def OP_ABS : UInt8 := 0x90
@[match_pattern] def OP_NOT : UInt8 := 0x91
@[match_pattern] def OP_0NOTEQUAL : UInt8 := 0x92
@[match_pattern] def OP_ADD : UInt8 := 0x93
@[match_pattern] def OP_SUB : UInt8 := 0x94
@[match_pattern] def OP_BOOLAND : UInt8 := 0x9a
@[match_pattern] def OP_BOOLOR : UInt8 := 0x9b
@[match_pattern] def OP_NUMEQUAL : UInt8 := 0x9c
@[match_pattern] def OP_NUMEQUALVERIFY : UInt8 := 0x9d
@[match_pattern] def OP_NUMNOTEQUAL : UInt8 := 0x9e
@[match_pattern] def OP_LESSTHAN : UInt8 := 0x9f
@[match_pattern] def OP_GREATERTHAN : UInt8 := 0xa0
@[match_pattern] def OP_LESSTHANOREQUAL : UInt8 := 0xa1
@[match_pattern] def OP_GREATERTHANOREQUAL : UInt8 := 0xa2
@[match_pattern] def OP_MIN : UInt8 := 0xa3
@[match_pattern] def OP_MAX : UInt8 := 0xa4
def OP_WITHIN : UInt8 := 0xa5

@[match_pattern] def OP_RIPEMD160 : UInt8 := 0xa6
@[match_pattern] def OP_SHA1 : UInt8 := 0xa7
@[match_pattern] def OP_SHA256 : UInt8 := 0xa8
@[match_pattern] def OP_HASH256 : UInt8 := 0xaa

def OP_CAT : UInt8 := 0x7e
def OP_SUBSTR : UInt8 := 0x7f
def OP_LEFT : UInt8 := 0x80
def OP_RIGHT : UInt8 := 0x81
def OP_INVERT : UInt8 := 0x83
def OP_AND : UInt8 := 0x84
def OP_OR : UInt8 := 0x85
def OP_XOR : UInt8 := 0x86
def OP_2MUL : UInt8 := 0x8d
def OP_2DIV : UInt8 := 0x8e
def OP_MUL : UInt8 := 0x95
def OP_DIV : UInt8 := 0x96
def OP_MOD : UInt8 := 0x97
def OP_LSHIFT : UInt8 := 0x98
def OP_RSHIFT : UInt8 := 0x99

/-- `OP_1NEGATE` and `OP_1` to `OP_16`. -/
def isSmallNumber (opcode : UInt8) : Prop := opcode = OP_1NEGATE ∨ OP_1 ≤ opcode ∧ opcode ≤ OP_16

instance (opcode : UInt8) : Decidable (isSmallNumber opcode) := inferInstanceAs (Decidable (_ ∨ _))

/-- `OP_NOP` and `OP_NOP1` to `OP_NOP10`. -/
def isNop (opcode : UInt8) : Prop := opcode = OP_NOP ∨ 0xb0 ≤ opcode ∧ opcode ≤ 0xb9

instance (opcode : UInt8) : Decidable (isNop opcode) := inferInstanceAs (Decidable (_ ∨ _))

def disabledOpcodes : List UInt8 :=
  [OP_CAT, OP_SUBSTR, OP_LEFT, OP_RIGHT, OP_INVERT, OP_AND, OP_OR, OP_XOR, OP_2MUL, OP_2DIV, OP_MUL, OP_DIV,
    OP_MOD, OP_LSHIFT, OP_RSHIFT]

end BitCrystal
