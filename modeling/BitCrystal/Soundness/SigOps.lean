import BitCrystal.Proofs.EvalScript

/-! # Signature operations bound the work of the interpreter

The counter and the interpreter read the same instructions. Where the accurate counter takes the number
of keys from the opcode before a multi-signature operation, the interpreter finds that number on its
stack: both opcodes are executed or neither is.
-/

namespace BitCrystal

open CScript CBigNum Metered

namespace CScript

/-- What one opcode adds to the count. -/
def sigOps (fAccurate : Bool) (lastOpcode opcode : UInt8) : ℕ :=
  if opcode = OP_CHECKSIG ∨ opcode = OP_CHECKSIGVERIFY then 1
  else if opcode = OP_CHECKMULTISIG ∨ opcode = OP_CHECKMULTISIGVERIFY then
    if fAccurate ∧ OP_1 ≤ lastOpcode ∧ lastOpcode ≤ OP_16 then lastOpcode.toNat - (OP_1.toNat - 1) else 20
  else 0

theorem sigOpLoop_succ (fAccurate : Bool) (rounds : ℕ) (pc : CScript) (lastOpcode : UInt8) (n : ℕ) :
    sigOpLoop fAccurate (rounds + 1) pc lastOpcode n =
      match getOp pc with
      | none => n
      | some (opcode, _, next) => sigOpLoop fAccurate rounds next opcode (n + sigOps fAccurate lastOpcode opcode) := by
  rw [sigOpLoop]
  cases getOp pc with
  | none => rfl
  | some read =>
    obtain ⟨opcode, _, next⟩ := read
    unfold sigOps
    dsimp only
    congr 1
    split_ifs <;> rfl

/-- The count so far is carried along. -/
theorem sigOpLoop_add (fAccurate : Bool) (rounds : ℕ) (pc : CScript) (lastOpcode : UInt8) (m n : ℕ) :
    sigOpLoop fAccurate rounds pc lastOpcode (m + n) = m + sigOpLoop fAccurate rounds pc lastOpcode n := by
  induction rounds generalizing pc lastOpcode n with
  | zero => rfl
  | succ rounds ih =>
    rw [sigOpLoop_succ, sigOpLoop_succ]
    cases getOp pc with
    | none => rfl
    | some read =>
      obtain ⟨opcode, _, next⟩ := read
      dsimp only
      rw [Nat.add_assoc, ih]

/-- Reading one operation splits the count. -/
theorem sigOpLoop_getOp {fAccurate : Bool} {rounds : ℕ} {pc next : CScript} {lastOpcode opcode : UInt8}
    {data : List UInt8} (read : getOp pc = some (opcode, data, next)) :
    sigOpLoop fAccurate (rounds + 1) pc lastOpcode 0 =
      sigOps fAccurate lastOpcode opcode + sigOpLoop fAccurate rounds next opcode 0 := by
  rw [sigOpLoop_succ, read]
  dsimp only
  rw [Nat.zero_add, ← sigOpLoop_add, Nat.add_zero]

end CScript

/-- The number the counter takes from the last opcode is on the stack, if opcodes are executed. -/
def OnStack (lastOpcode : UInt8) (state : ScriptState) : Prop :=
  OP_1 ≤ lastOpcode → lastOpcode ≤ OP_16 → state.fExec →
    state.stack.head? = some (getvch ((lastOpcode.toNat : ℤ) - (OP_1.toNat - 1 : ℤ)))

theorem CScript.getOp_data_eq_nil {pc next : CScript} {opcode : UInt8} {data : List UInt8}
    (read : getOp pc = some (opcode, data, next)) (above : OP_PUSHDATA4.toNat < opcode.toNat) : data = [] := by
  cases pc with
  | nil => cases read
  | cons byte pc =>
    rw [getOp] at read
    split at read
    next small =>
      have same : byte = opcode := by
        split at read
        · cases read
        · split at read
          · cases read
          · cases read
            rfl
      rw [same] at small
      exact absurd (UInt8.le_iff_toNat_le.mp small) (not_le.mpr above)
    · cases read
      rfl

namespace ScriptContext

variable {ctx : ScriptContext} {opcode : UInt8} {next : CScript} {state after : ScriptState} {scriptSig : CScript}

theorem onStack_of_executeOp {vchPushValue : valtype}
    (executed : (ctx.executeOp opcode vchPushValue next state).outcome = .ok after) : OnStack opcode after := by
  intro low high taken
  rw [executeOp_smallNumber (Or.inr ⟨low, high⟩)] at executed
  split at executed
  · rw [free_outcome, Except.ok.injEq] at executed
    rw [← executed]
    rfl
  next skipped =>
    rw [free_outcome, Except.ok.injEq] at executed
    exact absurd (executed ▸ taken) skipped

/-- One instruction calls `CheckSig` at most as often as it counts. -/
theorem executeOp_cost_le {fAccurate : Bool} {lastOpcode : UInt8} {vchPushValue : valtype}
    (known : fAccurate → OnStack lastOpcode state) :
    (ctx.executeOp opcode vchPushValue next state).cost ≤ CScript.sigOps fAccurate lastOpcode opcode := by
  unfold executeOp
  split
  · exact Nat.zero_le _
  split
  next taken =>
    unfold evalOp CScript.sigOps
    split
    · exact checkSigOp_cost_le
    split
    next multisig =>
      apply multisigOp_cost_le
      intro vchPubKeys vchSigs i arguments
      obtain ⟨atMost, vch, top, number⟩ := multisigArguments_keys arguments
      split
      next small =>
        obtain ⟨accurate, low, high⟩ := small
        have executing : state.fExec := by
          rcases taken with executing | inside
          · exact executing
          · rcases multisig with rfl | rfl
            · exact absurd inside (by decide)
            · exact absurd inside (by decide)
        have same := known accurate low high executing
        rw [top, Option.some.injEq] at same
        have range : 0x51 ≤ lastOpcode.toNat ∧ lastOpcode.toNat ≤ 0x60 :=
          ⟨UInt8.le_iff_toNat_le.mp low, UInt8.le_iff_toNat_le.mp high⟩
        rw [same, setvch_getvch] at number
        unfold getint at number
        have one : OP_1.toNat = 0x51 := rfl
        omega
      · exact atMost
    · exact Nat.zero_le _
  · exact Nat.zero_le _

theorem onStack_of_evalStep {pc : CScript} (step : (ctx.evalStep pc state).outcome = .ok (next, after)) :
    ∃ opcode data, pc.getOp = some (opcode, data, next) ∧ OnStack opcode after := by
  obtain ⟨opcode, data, nOpCount, read, -, executed, -⟩ := evalStep_eq_ok.mp step
  exact ⟨opcode, data, read, onStack_of_executeOp executed⟩

/-- The rest of a script calls `CheckSig` at most as often as it counts. -/
theorem evalLoop_cost_le (fAccurate : Bool) (rounds : ℕ) (pc : CScript) (lastOpcode : UInt8) (state : ScriptState)
    (known : fAccurate → OnStack lastOpcode state) :
    (ctx.evalLoop rounds pc state).cost ≤ CScript.sigOpLoop fAccurate rounds pc lastOpcode 0 := by
  induction rounds generalizing pc lastOpcode state with
  | zero => exact Nat.zero_le _
  | succ rounds ih =>
    rw [evalLoop]
    split
    · exact Nat.zero_le _
    cases read : pc.getOp with
    | none =>
      refine le_trans (b := 0 + 0) (cost_bind_le ?_ ?_) (Nat.zero_le _)
      · apply evalStep_cost_le
        intro opcode data next nOpCount read'
        cases read.symm.trans read'
      · rintro ⟨next, after⟩ step
        obtain ⟨opcode, data, read', -⟩ := onStack_of_evalStep step
        cases read.symm.trans read'
    | some operation =>
      obtain ⟨opcode, data, next⟩ := operation
      rw [CScript.sigOpLoop_getOp read]
      apply cost_bind_le
      · apply evalStep_cost_le
        intro opcode' data' next' nOpCount read'
        rw [read, Option.some.injEq, Prod.mk.injEq, Prod.mk.injEq] at read'
        obtain ⟨rfl, rfl, rfl⟩ := read'
        exact executeOp_cost_le known
      · rintro ⟨next', after⟩ step
        obtain ⟨opcode', data', read', onStack⟩ := onStack_of_evalStep step
        rw [read, Option.some.injEq, Prod.mk.injEq, Prod.mk.injEq] at read'
        obtain ⟨rfl, rfl, rfl⟩ := read'
        exact ih next opcode after fun _ => onStack

theorem evalScript_cost_le (fAccurate : Bool) (stack : List valtype) (script : CScript) :
    (ctx.evalScript stack script).cost ≤ script.getSigOpCount fAccurate := by
  apply cost_free_bind_le
  intro _ _
  rw [← Nat.add_zero (getSigOpCount _ _)]
  apply cost_bind_le
  · apply evalLoop_cost_le
    exact fun _ _ high => absurd high (by decide)
  · exact fun _ _ => cost_free_bind_le fun _ _ => le_rfl

/-- The top of the stack is the last pushed item, or a small number that has no item. -/
def Supplies (data : valtype) (stack : List valtype) : Prop :=
  ∀ top, stack.head? = some top → top = data ∨ data = [] ∧
    ∃ opcode, isSmallNumber opcode ∧ top = getvch ((opcode.toNat : ℤ) - (OP_1.toNat - 1 : ℤ))

/-- An instruction of a push-only script pushes. -/
theorem supplies_of_push {data : valtype}
    (read : ∃ pc, CScript.getOp pc = some (opcode, data, next)) (push : opcode ≤ OP_16)
    (executed : (ctx.executeOp opcode data next state).outcome = .ok after) (unconditional : state.vfExec = []) :
    Supplies data after.stack ∧ after.vfExec = [] := by
  have executing : state.fExec := by
    rw [ScriptState.fExec, unconditional]
    rfl
  obtain ⟨pc, read⟩ := read
  by_cases small : isSmallNumber opcode
  · rw [executeOp_smallNumber small, if_pos executing, free_outcome, Except.ok.injEq] at executed
    rw [← executed]
    constructor
    · rintro top ⟨⟩
      exact Or.inr ⟨getOp_data_eq_nil read (toNat_of_isSmallNumber small).1, opcode, small, rfl⟩
    · exact unconditional
  by_cases immediate : opcode ≤ OP_PUSHDATA4
  · rw [executeOp, if_pos ⟨executing, immediate⟩, pure_outcome, Except.ok.injEq] at executed
    rw [← executed]
    constructor
    · rintro top ⟨⟩
      exact Or.inl rfl
    · exact unconditional
  -- the only push-only opcode left is `OP_RESERVED`, which no case of the switch takes
  have reserved : opcode = 0x50 := by
    have high : opcode.toNat ≤ 0x60 := UInt8.le_iff_toNat_le.mp push
    have low : ¬ opcode.toNat ≤ 0x4e := fun low => immediate (UInt8.le_iff_toNat_le.mpr low)
    have negate : opcode.toNat ≠ 0x4f := fun same => small (Or.inl (UInt8.toNat_inj.mp same))
    have number : ¬ 0x51 ≤ opcode.toNat := fun low => small (Or.inr ⟨UInt8.le_iff_toNat_le.mpr low, push⟩)
    apply UInt8.toNat_inj.mp
    change opcode.toNat = 0x50
    omega
  rw [reserved, executeOp, if_neg (fun both => absurd both.2 (by decide)), if_pos (Or.inl executing)] at executed
  cases executed

/-- The last item a push-only script pushes is what it leaves on the top of the stack. -/
theorem supplies_of_evalLoop {rounds : ℕ} {pc : CScript} {data last : valtype}
    (pushes : lastPush rounds pc data = some last) (unconditional : state.vfExec = [])
    (start : Supplies data state.stack) (run : (ctx.evalLoop rounds pc state).outcome = .ok after) :
    Supplies last after.stack := by
  induction rounds generalizing pc data state with
  | zero =>
    cases pushes
    cases run
    exact start
  | succ rounds ih =>
    rw [lastPush] at pushes
    rw [evalLoop] at run
    split at pushes
    next ended =>
      rw [if_pos ended] at run
      cases pushes
      cases run
      exact start
    next more =>
      rw [if_neg more, bind_outcome_eq_ok] at run
      obtain ⟨⟨next, middle⟩, step, run⟩ := run
      obtain ⟨opcode, vchPushValue, nOpCount, read, -, executed, -⟩ := evalStep_eq_ok.mp step
      rw [read] at pushes
      dsimp only at pushes
      split at pushes
      · cases pushes
      next push =>
        obtain ⟨supplies, unconditional⟩ :=
          supplies_of_push ⟨pc, read⟩ (UInt8.not_lt.mp push) executed unconditional
        exact ih pushes unconditional supplies run

theorem supplies_of_evalScript {last : valtype} {stack : List valtype}
    (pushes : lastPush scriptSig.length scriptSig [] = some last)
    (evaluated : (ctx.evalScript [] scriptSig).outcome = .ok stack) : Supplies last stack := by
  simp only [evalScript, bind_outcome_eq_ok, pure_outcome, Except.ok.injEq] at evaluated
  obtain ⟨-, -, state, run, -, -, rfl⟩ := evaluated
  apply supplies_of_evalLoop pushes rfl ?_ run
  rintro top ⟨⟩

/-- The byte of a small number is a script without signature operations. -/
theorem getSigOpCount_smallNumber (small : isSmallNumber opcode) :
    getSigOpCount (getvch ((opcode.toNat : ℤ) - (OP_1.toNat - 1 : ℤ))) true = 0 := by
  have table : ∀ n < 256, isSmallNumber (UInt8.ofNat n) →
      getSigOpCount (getvch ((n : ℤ) - (OP_1.toNat - 1 : ℤ))) true = 0 := by decide +kernel
  have same := table opcode.toNat opcode.toNat_lt
  rw [UInt8.ofNat_toNat] at same
  exact same small

theorem evaluated_of_acceptedStack {scriptPubKey : CScript} {stackCopy : List valtype}
    (accepted : ctx.acceptedStack scriptSig scriptPubKey = .ok stackCopy) :
    (ctx.evalScript [] scriptSig).outcome = .ok stackCopy := by
  obtain ⟨stack, evaluated, accepted⟩ := Check.bind_eq_ok.mp accepted
  obtain ⟨stack', -, accepted⟩ := Check.bind_eq_ok.mp accepted
  cases stack' with
  | nil => cases accepted
  | cons vch stack' =>
    dsimp only at accepted
    split at accepted
    · cases accepted
      exact evaluated
    · cases accepted

/-- The redeem script is on the top of the stack a push-only script leaves. -/
theorem redeemScript_eq_some {scriptPubKey pubKey2 : CScript} {stackCopy : List valtype}
    (redeem : ctx.redeemScript scriptSig scriptPubKey = .ok (some (pubKey2, stackCopy))) :
    scriptPubKey.isPayToScriptHash ∧ scriptSig.isPushOnly ∧
      (ctx.evalScript [] scriptSig).outcome = .ok (pubKey2 :: stackCopy) := by
  obtain ⟨stack, accepted, redeem⟩ := Check.bind_eq_ok.mp redeem
  have evaluated := evaluated_of_acceptedStack accepted
  split at redeem
  next scriptHash =>
    split at redeem
    next pushOnly =>
      cases stack with
      | nil => cases redeem
      | cons pubKeySerialized stack =>
        cases redeem
        exact ⟨scriptHash.2, pushOnly, evaluated⟩
    · cases redeem
  · cases redeem

/-- The counters bound the calls of `CheckSig`: the accurate one for a redeem script, the other one for
every script. -/
theorem cost_le_getSigOpCount (ctx : ScriptContext) :
    (∀ scriptSig scriptPubKey pubKey2 stackCopy,
      ctx.redeemScript scriptSig scriptPubKey = .ok (some (pubKey2, stackCopy)) →
      (ctx.evalScript stackCopy pubKey2).cost ≤ scriptPubKey.getSigOpCountP2SH scriptSig) ∧
    ∀ stack script, (ctx.evalScript stack script).cost ≤ script.getSigOpCount false := by
  constructor
  · intro scriptSig scriptPubKey pubKey2 stackCopy redeem
    obtain ⟨scriptHash, pushOnly, evaluated⟩ := redeemScript_eq_some redeem
    obtain ⟨last, pushes⟩ := Option.isSome_iff_exists.mp pushOnly
    rw [getSigOpCountP2SH, if_neg (not_not.mpr scriptHash), pushes]
    rcases supplies_of_evalScript pushes evaluated pubKey2 rfl with rfl | ⟨-, opcode, small, rfl⟩
    · exact evalScript_cost_le true stackCopy pubKey2
    · apply (evalScript_cost_le true stackCopy _).trans
      rw [getSigOpCount_smallNumber small]
      exact Nat.zero_le _
  · exact evalScript_cost_le false

end ScriptContext

/-! A redeem script with one of two keys. -/

namespace TestNet

def oneOfTwo : CScript := [OP_1, 1, 7, 1, 8, OP_1 + 1, OP_CHECKMULTISIG]

/-- A library that accepts every signature. -/
def trusting : ScriptContext where
  crypto :=
    { sha1 := id
      sha256 := id
      ripemd160 := fun vch => (vch ++ List.replicate 20 0).take 20
      verify := fun _ _ _ => true }
  txTo := { nVersion := 1, vin := [⟨⟨1, 0⟩, [], 0⟩], vout := [], nLockTime := 0, strTxComment := [] }
  nIn := 0
  flags := SCRIPT_VERIFY_P2SH
  nHashType := 0

def oneOfTwoHash : CScript := [OP_HASH160, 20] ++ trusting.crypto.hash160 oneOfTwo ++ [OP_EQUAL]

def oneOfTwoSig : CScript := [0, 2, 9, 1, 7] ++ oneOfTwo

end TestNet

theorem ScriptContext.cost_le_getSigOpCount_oneOfTwo :
    TestNet.trusting.redeemScript TestNet.oneOfTwoSig TestNet.oneOfTwoHash =
        .ok (some (TestNet.oneOfTwo, [[9, 1], []])) ∧
      (TestNet.trusting.evalScript [[9, 1], []] TestNet.oneOfTwo).cost ≤
        getSigOpCountP2SH TestNet.oneOfTwoHash TestNet.oneOfTwoSig := by
  have redeem : TestNet.trusting.redeemScript TestNet.oneOfTwoSig TestNet.oneOfTwoHash =
      .ok (some (TestNet.oneOfTwo, [[9, 1], []])) := by decide
  exact ⟨redeem, (ScriptContext.cost_le_getSigOpCount TestNet.trusting).1 _ _ _ _ redeem⟩

end BitCrystal
