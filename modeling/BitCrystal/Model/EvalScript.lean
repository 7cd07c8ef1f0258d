import BitCrystal.Machine.StateAction
import BitCrystal.Model.Block
import BitCrystal.Model.Signature

/-! # The script interpreter

The stacks are lists whose head is the top, so `stacktop(-k)` is the element with number `k - 1`. An
evaluation counts its calls of `CheckSig`. `return false` is an error without a text; an exception the
interpreter catches is an error as well.
-/

namespace BitCrystal

open CBigNum

def MAX_SCRIPT_ELEMENT_SIZE : ℕ := 520

/-- The local variables of `EvalScript`; the innermost conditional is the head of `vfExec`. -/
structure ScriptState where
  stack : List valtype
  altstack : List valtype
  vfExec : List Bool
  pbegincodehash : CScript
  nOpCount : ℕ
deriving DecidableEq, Repr

namespace ScriptState

/-- `!count(vfExec.begin(), vfExec.end(), false)`. -/
def fExec (state : ScriptState) : Bool := state.vfExec.all id

def push (state : ScriptState) (vch : valtype) : ScriptState := { state with stack := vch :: state.stack }

end ScriptState

def returnFalse {α : Type} : Check α := .error (.error "")

/-- `if (stack.size() < n) return false`. -/
def require (stack : List valtype) (n : ℕ) : Check Unit := rejectIf (stack.length < n) (.error "")

/-- `stack.at(stack.size() - k)`. -/
def stacktop (stack : List valtype) (k : ℕ) : Check valtype :=
  if k = 0 then .error (.throws "out_of_range") else assertSome (.throws "out_of_range") stack[k - 1]?

/-- `stacktop(-k)` and the `n - 1` elements below it. -/
def stackSlice (stack : List valtype) (k n : ℕ) : Check (List valtype) :=
  if stack.length + 1 < k + n then .error (.throws "out_of_range") else .ok ((stack.drop (k - 1)).take n)

def popstack : List valtype → Check (List valtype)
  | [] => .error (.throws "popstack() : stack empty")
  | _ :: stack => .ok stack

def popstacks : ℕ → List valtype → Check (List valtype)
  | 0, stack => .ok stack
  | i + 1, stack => do popstacks i (← popstack stack)

/-- `stack.erase(stack.end() - k)`. -/
def eraseTop (stack : List valtype) (k : ℕ) : Check (List valtype) :=
  if k = 0 ∨ stack.length < k then .error .undefined else .ok (stack.eraseIdx (k - 1))

/-- `swap(stacktop(-i), stacktop(-j))`. -/
def swapTop (stack : List valtype) (i j : ℕ) : Check (List valtype) := do
  let vch1 ← stacktop stack i
  let vch2 ← stacktop stack j
  return (stack.set (i - 1) vch2).set (j - 1) vch1

/-- The answer of an operation on the stack; its `VERIFY` form takes a true answer back. -/
def answer (verify fValue : Bool) (stack : List valtype) : Check (List valtype) :=
  if verify then if fValue then .ok stack else returnFalse
  else .ok ((if fValue then vchTrue else vchFalse) :: stack)

/-! ## Operations -/

def controlOp (opcode : UInt8) (state : ScriptState) : Check ScriptState :=
  match opcode with
  | OP_IF | OP_NOTIF =>
    if state.fExec then do
      require state.stack 1
      let fValue := castToBool (← stacktop state.stack 1)
      let stack ← popstack state.stack
      return { state with stack, vfExec := (fValue ^^ opcode = OP_NOTIF) :: state.vfExec }
    else .ok { state with vfExec := false :: state.vfExec }
  | OP_ELSE =>
    match state.vfExec with
    | [] => returnFalse
    | last :: vfExec => .ok { state with vfExec := (!last) :: vfExec }
  | OP_ENDIF =>
    match state.vfExec with
    | [] => returnFalse
    | _ :: vfExec => .ok { state with vfExec }
  | OP_VERIFY => do
    require state.stack 1
    if castToBool (← stacktop state.stack 1) then
      return { state with stack := ← popstack state.stack }
    else returnFalse
  | OP_RETURN => returnFalse
  | _ => returnFalse

def altstackOp (opcode : UInt8) (state : ScriptState) : Check ScriptState :=
  match opcode with
  | OP_TOALTSTACK => do
    require state.stack 1
    let vch ← stacktop state.stack 1
    return { state with stack := ← popstack state.stack, altstack := vch :: state.altstack }
  | OP_FROMALTSTACK => do
    require state.altstack 1
    let vch ← stacktop state.altstack 1
    return { state with stack := vch :: state.stack, altstack := ← popstack state.altstack }
  | _ => returnFalse

def stackOp (opcode : UInt8) (stack : List valtype) : Check (List valtype) :=
  match opcode with
  | OP_2DROP => do
    require stack 2
    popstack (← popstack stack)
  | OP_2DUP => do
    require stack 2
    let vch1 ← stacktop stack 2
    let vch2 ← stacktop stack 1
    return vch2 :: vch1 :: stack
  | OP_3DUP => do
    require stack 3
    let vch1 ← stacktop stack 3
    let vch2 ← stacktop stack 2
    let vch3 ← stacktop stack 1
    return vch3 :: vch2 :: vch1 :: stack
  | OP_2OVER => do
    require stack 4
    let vch1 ← stacktop stack 4
    let vch2 ← stacktop stack 3
    return vch2 :: vch1 :: stack
  | OP_2ROT => do
    require stack 6
    let vch1 ← stacktop stack 6
    let vch2 ← stacktop stack 5
    let stack ← eraseTop (← eraseTop stack 6) 5
    return vch2 :: vch1 :: stack
  | OP_2SWAP => do
    require stack 4
    swapTop (← swapTop stack 4 2) 3 1
  | OP_IFDUP => do
    require stack 1
    let vch ← stacktop stack 1
    return if castToBool vch then vch :: stack else stack
  | OP_DEPTH => .ok (getvch stack.length :: stack)
  | OP_DROP => do
    require stack 1
    popstack stack
  | OP_DUP => do
    require stack 1
    let vch ← stacktop stack 1
    return vch :: stack
  | OP_NIP => do
    require stack 2
    eraseTop stack 2
  | OP_OVER => do
    require stack 2
    let vch ← stacktop stack 2
    return vch :: stack
  | OP_PICK | OP_ROLL => do
    require stack 2
    let n := getint (← castToBigNum (← stacktop stack 1))
    let stack ← popstack stack
    rejectIf (n < 0 ∨ stack.length ≤ n) (.error "")
    let vch ← stacktop stack (n.toNat + 1)
    let rest ← if opcode = OP_ROLL then eraseTop stack (n.toNat + 1) else pure stack
    return vch :: rest
  | OP_ROT => do
    require stack 3
    swapTop (← swapTop stack 3 2) 2 1
  | OP_SWAP => do
    require stack 2
    swapTop stack 2 1
  | OP_TUCK => do
    require stack 2
    let vch ← stacktop stack 1
    return stack.insertIdx 2 vch
  | OP_SIZE => do
    require stack 1
    let vch ← stacktop stack 1
    return getvch vch.length :: stack
  | OP_EQUAL | OP_EQUALVERIFY => do
    require stack 2
    let vch1 ← stacktop stack 2
    let vch2 ← stacktop stack 1
    answer (opcode = OP_EQUALVERIFY) (vch1 = vch2) (← popstack (← popstack stack))
  | _ => returnFalse

def unary (opcode : UInt8) (bn : ℤ) : Option ℤ :=
  match opcode with
  | OP_1ADD => some (bn + 1)
  | OP_1SUB => some (bn - 1)
  | OP_NEGATE => some (-bn)
  | OP_ABS => some (if bn < 0 then -bn else bn)
  | OP_NOT => some (if bn = 0 then 1 else 0)
  | OP_0NOTEQUAL => some (if bn ≠ 0 then 1 else 0)
  | _ => none

def binary (opcode : UInt8) (bn1 bn2 : ℤ) : Option ℤ :=
  match opcode with
  | OP_ADD => some (bn1 + bn2)
  | OP_SUB => some (bn1 - bn2)
  | OP_BOOLAND => some (if bn1 ≠ 0 ∧ bn2 ≠ 0 then 1 else 0)
  | OP_BOOLOR => some (if bn1 ≠ 0 ∨ bn2 ≠ 0 then 1 else 0)
  | OP_NUMEQUAL | OP_NUMEQUALVERIFY => some (if bn1 = bn2 then 1 else 0)
  | OP_NUMNOTEQUAL => some (if bn1 ≠ bn2 then 1 else 0)
  | OP_LESSTHAN => some (if bn1 < bn2 then 1 else 0)
  | OP_GREATERTHAN => some (if bn1 > bn2 then 1 else 0)
  | OP_LESSTHANOREQUAL => some (if bn1 ≤ bn2 then 1 else 0)
  | OP_GREATERTHANOREQUAL => some (if bn1 ≥ bn2 then 1 else 0)
  | OP_MIN => some (if bn1 < bn2 then bn1 else bn2)
  | OP_MAX => some (if bn1 > bn2 then bn1 else bn2)
  | _ => none

def unaryOp (opcode : UInt8) (stack : List valtype) : Check (List valtype) := do
  require stack 1
  let bn ← castToBigNum (← stacktop stack 1)
  let result ← assertSome (.assertion "invalid opcode") (unary opcode bn)
  return getvch result :: (← popstack stack)

def binaryOp (opcode : UInt8) (stack : List valtype) : Check (List valtype) := do
  require stack 2
  let bn1 ← castToBigNum (← stacktop stack 2)
  let bn2 ← castToBigNum (← stacktop stack 1)
  let result ← assertSome (.assertion "invalid opcode") (binary opcode bn1 bn2)
  let stack ← popstack (← popstack stack)
  let vch := getvch result
  if opcode = OP_NUMEQUALVERIFY then
    if castToBool vch then return stack else returnFalse
  else return vch :: stack

def withinOp (stack : List valtype) : Check (List valtype) := do
  require stack 3
  let bn1 ← castToBigNum (← stacktop stack 3)
  let bn2 ← castToBigNum (← stacktop stack 2)
  let bn3 ← castToBigNum (← stacktop stack 1)
  let stack ← popstack (← popstack (← popstack stack))
  answer false (bn2 ≤ bn1 ∧ bn1 < bn3) stack

namespace Crypto

def digest (crypto : Crypto) (opcode : UInt8) : Option (valtype → valtype) :=
  match opcode with
  | OP_RIPEMD160 => some crypto.ripemd160
  | OP_SHA1 => some crypto.sha1
  | OP_SHA256 => some crypto.sha256
  | OP_HASH160 => some crypto.hash160
  | OP_HASH256 => some crypto.hash2
  | _ => none

end Crypto

def digestOp (digest : valtype → valtype) (stack : List valtype) : Check (List valtype) := do
  require stack 1
  let vch ← stacktop stack 1
  return digest vch :: (← popstack stack)

/-- The arguments of `EvalScript` that stay the same, with the library. -/
structure ScriptContext where
  crypto : Crypto
  txTo : CTransaction
  nIn : ℕ
  flags : ℕ
  nHashType : BitVec 32

namespace ScriptContext

variable (ctx : ScriptContext)

def fStrictEncodings : Bool := ctx.flags &&& SCRIPT_VERIFY_STRICTENC ≠ 0

/-- `CheckSig` is called for canonical encodings only, when these are asked for. -/
def checkSig (vchSig vchPubKey : valtype) (scriptCode : CScript) : Metered Failure Bool :=
  if ctx.fStrictEncodings ∧ ¬ ((isCanonicalSignature vchSig).isOk ∧ (isCanonicalPubKey vchPubKey).isOk) then
    .free (.ok false)
  else .call (ctx.crypto.checkSig vchSig vchPubKey scriptCode ctx.txTo ctx.nIn ctx.nHashType)

def checkSigOp (verify : Bool) (state : ScriptState) : Metered Failure ScriptState := do
  let (vchSig, vchPubKey) ← .free do
    require state.stack 2
    return (← stacktop state.stack 2, ← stacktop state.stack 1)
  let scriptCode := state.pbegincodehash.findAndDelete (CScript.pushData vchSig)
  let fSuccess ← ctx.checkSig vchSig vchPubKey scriptCode
  .free do
    let stack ← answer verify fSuccess (← popstack (← popstack state.stack))
    return { state with stack }

/-- The loop over signatures and keys: a key is used up in every round, a signature when it matches. -/
def multisigLoop (scriptCode : CScript) : List valtype → List valtype → Metered Failure Bool
  | vchPubKey :: vchPubKeys, vchSig :: vchSigs => do
    let fOk ← ctx.checkSig vchSig vchPubKey scriptCode
    let rest := if fOk then vchSigs else vchSig :: vchSigs
    if vchPubKeys.length < rest.length then .free (.ok false)
    else multisigLoop scriptCode vchPubKeys rest
  | _, vchSigs => .free (.ok (vchSigs = []))

end ScriptContext

/-- Keys, signatures and the number of stack elements of `OP_CHECKMULTISIG`. -/
def multisigArguments (stack : List valtype) (nOpCount : ℕ) : Check (List valtype × List valtype × ℕ) := do
  require stack 1
  let nKeysCount := getint (← castToBigNum (← stacktop stack 1))
  rejectIf (nKeysCount < 0 ∨ 20 < nKeysCount) (.error "")
  rejectIf (201 < nOpCount + nKeysCount.toNat) (.error "")
  let ikey := 2
  let i := ikey + nKeysCount.toNat
  require stack i
  let nSigsCount := getint (← castToBigNum (← stacktop stack i))
  rejectIf (nSigsCount < 0 ∨ nKeysCount < nSigsCount) (.error "")
  let isig := i + 1
  let i := isig + nSigsCount.toNat
  require stack i
  return (← stackSlice stack ikey nKeysCount.toNat, ← stackSlice stack isig nSigsCount.toNat, i)

namespace ScriptContext

variable (ctx : ScriptContext)

def multisigOp (verify : Bool) (state : ScriptState) : Metered Failure ScriptState := do
  let (vchPubKeys, vchSigs, i) ← .free (multisigArguments state.stack state.nOpCount)
  let scriptCode := vchSigs.foldl (fun scriptCode vchSig => scriptCode.findAndDelete (CScript.pushData vchSig))
    state.pbegincodehash
  let fSuccess ← ctx.multisigLoop scriptCode vchPubKeys vchSigs
  .free do
    let stack ← answer verify fSuccess (← popstacks i state.stack)
    return { state with stack, nOpCount := state.nOpCount + vchPubKeys.length }

/-- The operations that call no `CheckSig`; `next` is the iterator behind the operation. -/
def freeOp (opcode : UInt8) (next : CScript) (state : ScriptState) : Check ScriptState :=
  let onStack (operation : List valtype → Check (List valtype)) : Check ScriptState := do
    return { state with stack := ← operation state.stack }
  if isSmallNumber opcode then .ok (state.push (getvch ((opcode.toNat : ℤ) - (OP_1.toNat - 1 : ℤ))))
  else if isNop opcode then .ok state
  else if opcode ≤ OP_RETURN then controlOp opcode state
  else if opcode = OP_TOALTSTACK ∨ opcode = OP_FROMALTSTACK then altstackOp opcode state
  else if (unary opcode 0).isSome then onStack (unaryOp opcode)
  else if (binary opcode 0 0).isSome then onStack (binaryOp opcode)
  else if opcode = OP_WITHIN then onStack withinOp
  else if opcode = OP_CODESEPARATOR then .ok { state with pbegincodehash := next }
  else match ctx.crypto.digest opcode with
    | some digest => onStack (digestOp digest)
    | none => onStack (stackOp opcode)

/-- The `switch` over the opcodes. -/
def evalOp (opcode : UInt8) (next : CScript) (state : ScriptState) : Metered Failure ScriptState :=
  if opcode = OP_CHECKSIG ∨ opcode = OP_CHECKSIGVERIFY then
    ctx.checkSigOp (opcode = OP_CHECKSIGVERIFY) state
  else if opcode = OP_CHECKMULTISIG ∨ opcode = OP_CHECKMULTISIGVERIFY then
    ctx.multisigOp (opcode = OP_CHECKMULTISIGVERIFY) state
  else .free (ctx.freeOp opcode next state)

/-- The checks on an instruction before it is executed; the count of operations. -/
def admitOp (opcode : UInt8) (vchPushValue : valtype) (nOpCount : ℕ) : Check ℕ := do
  rejectIf (MAX_SCRIPT_ELEMENT_SIZE < vchPushValue.length) (.error "")
  let nOpCount := if OP_16 < opcode then nOpCount + 1 else nOpCount
  rejectIf (OP_16 < opcode ∧ 201 < nOpCount) (.error "")
  rejectIf (opcode ∈ disabledOpcodes) (.error "")
  return nOpCount

/-- An instruction is executed outside of conditionals that are not taken. -/
def executeOp (opcode : UInt8) (vchPushValue : valtype) (next : CScript) (state : ScriptState) :
    Metered Failure ScriptState :=
  if state.fExec ∧ opcode ≤ OP_PUSHDATA4 then pure (state.push vchPushValue)
  else if state.fExec ∨ OP_IF ≤ opcode ∧ opcode ≤ OP_ENDIF then ctx.evalOp opcode next state
  else pure state

/-- One round of the loop: the instruction at `pc`. -/
def evalStep (pc : CScript) (state : ScriptState) : Metered Failure (CScript × ScriptState) := do
  let (opcode, vchPushValue, next) ← .free (assertSome (.error "") pc.getOp)
  let nOpCount ← .free (admitOp opcode vchPushValue state.nOpCount)
  let state ← ctx.executeOp opcode vchPushValue next { state with nOpCount }
  let _ ← .free (rejectIf (1000 < state.stack.length + state.altstack.length) (.error ""))
  return (next, state)

/-- The loop; every instruction takes at least one byte, so the length of the script bounds the
number of rounds. -/
def evalLoop : ℕ → CScript → ScriptState → Metered Failure ScriptState
  | 0, _, state => pure state
  | rounds + 1, pc, state =>
    if pc = [] then pure state
    else do
      let (next, state) ← ctx.evalStep pc state
      evalLoop rounds next state

def evalScript (stack : List valtype) (script : CScript) : Metered Failure (List valtype) := do
  let _ ← .free (rejectIf (10000 < script.length) (.error ""))
  let state ← ctx.evalLoop script.length script ⟨stack, [], [], script, 0⟩
  let _ ← .free (rejectIf (state.vfExec ≠ []) (.error ""))
  return state.stack

/-- The stack `scriptSig` leaves, when `scriptPubKey` accepts it. -/
def acceptedStack (scriptSig scriptPubKey : CScript) : Check (List valtype) := do
  let stackCopy ← (ctx.evalScript [] scriptSig).outcome
  match ← (ctx.evalScript stackCopy scriptPubKey).outcome with
  | [] => returnFalse
  | vch :: _ => if castToBool vch then return stackCopy else returnFalse

/-- The redeem script `VerifyScript` evaluates and the stack it starts on, if there is one. -/
def redeemScript (scriptSig scriptPubKey : CScript) : Check (Option (CScript × List valtype)) := do
  let stackCopy ← ctx.acceptedStack scriptSig scriptPubKey
  if ctx.flags &&& SCRIPT_VERIFY_P2SH ≠ 0 ∧ scriptPubKey.isPayToScriptHash then
    if scriptSig.isPushOnly then
      match stackCopy with
      | [] => .error (.assertion "!stackCopy.empty()")
      | pubKeySerialized :: stackCopy => return some (pubKeySerialized, stackCopy)
    else returnFalse
  else return none

def verifyScript (scriptSig scriptPubKey : CScript) : Check Unit := do
  match ← ctx.redeemScript scriptSig scriptPubKey with
  | none => return ()
  | some (pubKey2, stackCopy) =>
    match ← (ctx.evalScript stackCopy pubKey2).outcome with
    | [] => returnFalse
    | vch :: _ => if castToBool vch then return () else returnFalse

end ScriptContext

/-! ## The indices of `OP_CHECKMULTISIG`

The operation as it moves over the stack: every signature and every key is read at its own index when the loop comes to
it.
-/

/-- The numbers of keys and signatures, when the stack holds as many. -/
def multisigNumbers (stack : List valtype) (nOpCount : ℕ) : Check (ℕ × ℕ) := do
  require stack 1
  let nKeysCount := getint (← castToBigNum (← stacktop stack 1))
  rejectIf (nKeysCount < 0 ∨ 20 < nKeysCount) (.error "")
  rejectIf (201 < nOpCount + nKeysCount.toNat) (.error "")
  let i := 2 + nKeysCount.toNat
  require stack i
  let nSigsCount := getint (← castToBigNum (← stacktop stack i))
  rejectIf (nSigsCount < 0 ∨ nKeysCount < nSigsCount) (.error "")
  require stack (i + 1 + nSigsCount.toNat)
  return (nKeysCount.toNat, nSigsCount.toNat)

/-- The loop that drops as many signatures from the script. -/
def dropSignatures (stack : List valtype) : ℕ → ℕ → CScript → Check CScript
  | 0, _, scriptCode => .ok scriptCode
  | nSigsCount + 1, isig, scriptCode => do
    let vchSig ← stacktop stack isig
    dropSignatures stack nSigsCount (isig + 1) (scriptCode.findAndDelete (CScript.pushData vchSig))

namespace ScriptContext

variable (ctx : ScriptContext)

/-- `while (fSuccess && nSigsCount > 0)`. -/
def checkMultisigLoop (stack : List valtype) (scriptCode : CScript) : ℕ → ℤ → ℤ → ℕ → ℕ → Metered Failure Bool
  | 0, _, _, _, _ => .free (.error .diverges)
  | rounds + 1, nKeysCount, nSigsCount, ikey, isig =>
    if nSigsCount ≤ 0 then .free (.ok true)
    else do
      let vchSig ← .free (stacktop stack isig)
      let vchPubKey ← .free (stacktop stack ikey)
      let fOk ← ctx.checkSig vchSig vchPubKey scriptCode
      let isig := if fOk then isig + 1 else isig
      let nSigsCount := if fOk then nSigsCount - 1 else nSigsCount
      let ikey := ikey + 1
      let nKeysCount := nKeysCount - 1
      if nKeysCount < nSigsCount then .free (.ok false)
      else checkMultisigLoop stack scriptCode rounds nKeysCount nSigsCount ikey isig

def checkMultisigOp (verify : Bool) (state : ScriptState) : Metered Failure ScriptState := do
  let (nKeysCount, nSigsCount) ← .free (multisigNumbers state.stack state.nOpCount)
  let ikey := 2
  let isig := ikey + nKeysCount + 1
  let i := isig + nSigsCount
  let scriptCode ← .free (dropSignatures state.stack nSigsCount isig state.pbegincodehash)
  let fSuccess ← ctx.checkMultisigLoop state.stack scriptCode (nKeysCount + 1) nKeysCount nSigsCount ikey isig
  .free do
    let stack ← answer verify fSuccess (← popstacks i state.stack)
    return { state with stack, nOpCount := state.nOpCount + nKeysCount }

end ScriptContext

end BitCrystal
