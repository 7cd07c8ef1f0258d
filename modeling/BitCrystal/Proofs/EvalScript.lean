import BitCrystal.Model.Multisig

/-! # Steps of the interpreter

What one instruction does to the state and how often it calls `CheckSig`.
-/

namespace BitCrystal

open CBigNum Metered Check

variable {ctx : ScriptContext} {stack : List valtype}

@[simp] theorem require_eq_ok {n : ℕ} {done : Unit} : require stack n = .ok done ↔ n ≤ stack.length := by
  rw [require, rejectIf_eq_ok, not_lt]

theorem stacktop_eq_ok {k : ℕ} {vch : valtype} : stacktop stack k = .ok vch ↔ 0 < k ∧ stack[k - 1]? = some vch := by
  unfold stacktop
  split
  next zero => simp [zero]
  next positive => simp [Nat.pos_of_ne_zero positive]

theorem stackSlice_eq_ok {slice : List valtype} {k n : ℕ} :
    stackSlice stack k n = .ok slice ↔ k + n ≤ stack.length + 1 ∧ (stack.drop (k - 1)).take n = slice := by
  unfold stackSlice
  split
  next short => simp [not_le.mpr short]
  next enough => simp [not_lt.mp enough]

namespace ScriptContext

variable {state : ScriptState}

/-- What a round that succeeds has read, admitted and executed. -/
theorem evalStep_eq_ok {pc next : CScript} {after : ScriptState} :
    (ctx.evalStep pc state).outcome = .ok (next, after) ↔
      ∃ opcode vchPushValue nOpCount, pc.getOp = some (opcode, vchPushValue, next) ∧
        admitOp opcode vchPushValue state.nOpCount = .ok nOpCount ∧
        (ctx.executeOp opcode vchPushValue next { state with nOpCount }).outcome = .ok after ∧
        after.stack.length + after.altstack.length ≤ 1000 := by
  simp only [evalStep, Metered.bind_outcome_eq_ok, Metered.free_outcome, Metered.pure_outcome,
    assertSome_eq_ok, rejectIf_eq_ok, Except.ok.injEq, Prod.mk.injEq, not_lt]
  constructor
  · rintro ⟨⟨opcode, vchPushValue, _⟩, read, nOpCount, admitted, _, executed, _, small, rfl, rfl⟩
    exact ⟨opcode, vchPushValue, nOpCount, read, admitted, executed, small⟩
  · rintro ⟨opcode, vchPushValue, nOpCount, read, admitted, executed, small⟩
    exact ⟨_, read, nOpCount, admitted, _, executed, (), small, rfl, rfl⟩

/-- A round costs what its instruction costs. -/
theorem evalStep_cost_le {pc : CScript} {bound : ℕ}
    (executed : ∀ opcode vchPushValue next nOpCount, pc.getOp = some (opcode, vchPushValue, next) →
      (ctx.executeOp opcode vchPushValue next { state with nOpCount }).cost ≤ bound) :
    (ctx.evalStep pc state).cost ≤ bound := by
  apply cost_free_bind_le
  rintro ⟨opcode, vchPushValue, next⟩ read
  apply cost_free_bind_le
  intro nOpCount admitted
  rw [← Nat.add_zero bound]
  apply cost_bind_le (executed opcode vchPushValue next nOpCount (assertSome_eq_ok.mp read))
  intro after _
  exact cost_free_bind_le fun _ _ => le_rfl

/-- A small number above the data pushes is below every other operation. -/
theorem toNat_of_isSmallNumber {opcode : UInt8} (small : isSmallNumber opcode) :
    0x4e < opcode.toNat ∧ opcode.toNat ≤ 0x60 := by
  rcases small with rfl | ⟨low, high⟩
  · decide
  · have low : 0x51 ≤ opcode.toNat := UInt8.le_iff_toNat_le.mp low
    have high : opcode.toNat ≤ 0x60 := UInt8.le_iff_toNat_le.mp high
    omega

/-- A small number is pushed where opcodes are executed and skipped elsewhere. -/
theorem executeOp_smallNumber {opcode : UInt8} {vchPushValue : valtype} {next : CScript}
    (small : isSmallNumber opcode) : ctx.executeOp opcode vchPushValue next state = if state.fExec then
        .free (.ok (state.push (CBigNum.getvch ((opcode.toNat : ℤ) - (OP_1.toNat - 1 : ℤ)))))
      else .free (.ok state) := by
  have range := toNat_of_isSmallNumber small
  have above : ¬ opcode ≤ OP_PUSHDATA4 := fun low => by
    have : opcode.toNat ≤ 0x4e := UInt8.le_iff_toNat_le.mp low
    omega
  have outside : ¬ OP_IF ≤ opcode := fun large => by
    have : 0x63 ≤ opcode.toNat := UInt8.le_iff_toNat_le.mp large
    omega
  have different {byte : UInt8} (large : 0x60 < byte.toNat) : opcode ≠ byte := by
    rintro rfl
    omega
  rw [executeOp, if_neg (fun both => above both.2)]
  split
  next taken =>
    rw [if_pos (taken.resolve_right fun inside => outside inside.1), evalOp,
      if_neg (not_or.mpr ⟨different (by decide), different (by decide)⟩),
      if_neg (not_or.mpr ⟨different (by decide), different (by decide)⟩), freeOp, if_pos small]
  next skipped =>
    rw [if_neg (fun executing => skipped (Or.inl executing))]
    rfl

theorem checkSig_cost_le {vchSig vchPubKey : valtype} {scriptCode : CScript} :
    (ctx.checkSig vchSig vchPubKey scriptCode).cost ≤ 1 := by
  unfold checkSig
  split
  · exact Nat.zero_le _
  · exact le_rfl

theorem checkSigOp_cost_le {verify : Bool} : (ctx.checkSigOp verify state).cost ≤ 1 := by
  apply cost_free_bind_le
  rintro ⟨vchSig, vchPubKey⟩ -
  exact cost_bind_free_le checkSig_cost_le

/-- Every call uses up a key. -/
theorem multisigLoop_cost_le {scriptCode : CScript} {vchPubKeys vchSigs : List valtype} :
    (ctx.multisigLoop scriptCode vchPubKeys vchSigs).cost ≤ vchPubKeys.length := by
  induction vchPubKeys generalizing vchSigs with
  | nil => exact Nat.zero_le _
  | cons vchPubKey vchPubKeys ih =>
    cases vchSigs with
    | nil => exact Nat.zero_le _
    | cons vchSig vchSigs =>
      rw [multisigLoop, List.length_cons, Nat.add_comm]
      apply cost_bind_le checkSig_cost_le
      intro fOk _
      generalize (if fOk = true then vchSigs else vchSig :: vchSigs) = rest
      dsimp only
      split
      · exact Nat.zero_le _
      · exact ih

end ScriptContext

/-- The number of keys is the number on the top of the stack, at most 20. -/
theorem multisigArguments_keys {vchPubKeys vchSigs : List valtype} {nOpCount i : ℕ}
    (arguments : multisigArguments stack nOpCount = .ok (vchPubKeys, vchSigs, i)) :
    vchPubKeys.length ≤ 20 ∧ ∃ vch, stack.head? = some vch ∧ (vchPubKeys.length : ℤ) = getint (setvch vch) := by
  simp only [multisigArguments, bind_eq_ok, require_eq_ok, stacktop_eq_ok, castToBigNum_eq_ok,
    rejectIf_eq_ok, stackSlice_eq_ok, pure_eq_ok, Prod.mk.injEq] at arguments
  obtain ⟨_, nonempty, vch, ⟨-, top⟩, n, ⟨-, rfl⟩, _, range, _, count, _, enough, vchSigsCount, second, m, _, _,
    sigs, _, all, keys, ⟨inside, rfl⟩, _, _, rfl, rfl, rfl⟩ := arguments
  have counted : ((stack.drop (2 - 1)).take (getint (setvch vch)).toNat).length =
      (getint (setvch vch)).toNat := by
    rw [List.length_take, List.length_drop]
    omega
  constructor
  · rw [counted]
    omega
  · rw [counted]
    exact ⟨vch, by rw [List.head?_eq_getElem?]; exact top, by omega⟩

namespace ScriptContext

/-- A multi-signature operation calls at most once for every key. -/
theorem multisigOp_cost_le {verify : Bool} {state : ScriptState} {keys : ℕ}
    (bound : ∀ vchPubKeys vchSigs i, multisigArguments state.stack state.nOpCount = .ok (vchPubKeys, vchSigs, i) →
      vchPubKeys.length ≤ keys) : (ctx.multisigOp verify state).cost ≤ keys := by
  apply cost_free_bind_le
  rintro ⟨vchPubKeys, vchSigs, i⟩ arguments
  exact cost_bind_free_le (multisigLoop_cost_le.trans (bound _ _ _ arguments))

end ScriptContext

end BitCrystal

/-! ## Running scripts

A script is run from its first instruction to its last; the number of rounds of the loop is enough. A
push puts its data on the stack.
-/

namespace BitCrystal

open Check CScript LittleEndian

namespace CScript

theorem pushAll_cons (vch : valtype) (data : List valtype) : pushAll (vch :: data) = pushData vch ++ pushAll data := rfl

theorem pushAll_append (first second : List valtype) : pushAll (first ++ second) = pushAll first ++ pushAll second :=
  List.flatMap_append

variable {vch : valtype}

private theorem read_operand {opcode : UInt8} {pc rest : CScript} (low : opcode ≤ OP_PUSHDATA4)
    (size : operandSize opcode pc = some (vch.length, vch ++ rest)) :
    getOp (opcode :: pc) = some (opcode, vch, rest) := by
  have enough : ¬ (vch ++ rest).length < vch.length := by
    rw [List.length_append]
    omega
  simp only [getOp, if_pos low, size, if_neg enough, List.take_left, List.drop_left]

private theorem toNat_ofNat_length (short : vch.length < 256) : (UInt8.ofNat vch.length).toNat = vch.length :=
  UInt8.toNat_ofNat_of_lt' short

/-- A push is read as it is written. -/
theorem getOp_pushData (short : vch.length < 2 ^ 32) (rest : CScript) :
    ∃ opcode ≤ OP_PUSHDATA4, getOp (pushData vch ++ rest) = some (opcode, vch, rest) := by
  unfold pushData
  split_ifs with direct one two
  · have direct : vch.length < 76 := direct
    have size := toNat_ofNat_length (by omega : vch.length < 256)
    have below : UInt8.ofNat vch.length < OP_PUSHDATA1 := by
      rw [UInt8.lt_iff_toNat_lt, size]
      exact direct
    have low : UInt8.ofNat vch.length ≤ OP_PUSHDATA4 := by
      rw [UInt8.le_iff_toNat_le, size]
      exact (direct.trans (by decide : 76 < OP_PUSHDATA4.toNat)).le
    refine ⟨_, low, read_operand low ?_⟩
    unfold operandSize
    rw [if_pos below, size]
    rfl
  · refine ⟨OP_PUSHDATA1, by decide, read_operand (by decide) ?_⟩
    have size := toNat_ofNat_length (by omega : vch.length < 256)
    exact congrArg (fun n => some (n, vch ++ rest)) size
  · refine ⟨OP_PUSHDATA2, by decide, read_operand (by decide) ?_⟩
    have size := decode_encode (by omega : vch.length < 256 ^ 2)
    simp only [encode, decode] at size
    refine congrArg (fun n => some (n, vch ++ rest)) (Eq.trans ?_ size)
    omega
  · refine ⟨OP_PUSHDATA4, by decide, read_operand (by decide) ?_⟩
    have size := decode_encode (by omega : vch.length < 256 ^ 4)
    simp only [encode, decode] at size
    refine congrArg (fun n => some (n, vch ++ rest)) (Eq.trans ?_ size)
    omega

theorem length_pushData (vch : valtype) :
    vch.length < (pushData vch).length ∧ (pushData vch).length ≤ vch.length + 5 := by
  unfold pushData
  split_ifs <;> simp <;> omega

end CScript

namespace ScriptContext

variable {ctx : ScriptContext}

/-- The loop with as many rounds as there are bytes. -/
def runScript (ctx : ScriptContext) (pc : CScript) (state : ScriptState) : Metered Failure ScriptState :=
  ctx.evalLoop pc.length pc state

variable {pc : CScript} {state : ScriptState} {next : CScript} {after : ScriptState} {opcode : UInt8}
  {vchPushValue : valtype} {nOpCount : ℕ} {vch : valtype} {rest : CScript} {below : List valtype}

private theorem evalLoop_congr {rounds more : ℕ} (enough : pc.length ≤ rounds)
    (also : pc.length ≤ more) : ctx.evalLoop rounds pc state = ctx.evalLoop more pc state := by
  induction rounds generalizing more pc state with
  | zero =>
    have empty := List.eq_nil_of_length_eq_zero (Nat.le_zero.mp enough)
    cases more <;> simp [evalLoop, empty]
  | succ rounds ih =>
    cases pc with
    | nil => cases more <;> rfl
    | cons byte pc =>
      obtain ⟨more, rfl⟩ : ∃ left, more = left + 1 := ⟨more - 1, by simp only [List.length_cons] at also; omega⟩
      rw [evalLoop, evalLoop, if_neg nofun, if_neg nofun]
      apply Metered.bind_congr
      rintro ⟨next, after⟩ step
      obtain ⟨opcode, vchPushValue, nOpCount, read, -⟩ := evalStep_eq_ok.mp step
      have shorter := (getOp_suffix read).2
      exact ih (by omega) (by omega)

theorem runScript_nil (state : ScriptState) : ctx.runScript [] state = pure state := rfl

/-- A script runs its first instruction and then the rest. -/
theorem runScript_cons {byte : UInt8} : ctx.runScript (byte :: pc) state =
      ctx.evalStep (byte :: pc) state >>= fun step => ctx.runScript step.1 step.2 := by
  rw [runScript, List.length_cons, evalLoop, if_neg nofun]
  apply Metered.bind_congr
  rintro ⟨next, after⟩ step
  obtain ⟨opcode, vchPushValue, nOpCount, read, -⟩ := evalStep_eq_ok.mp step
  have shorter := (getOp_suffix read).2
  exact evalLoop_congr (by simp only [List.length_cons] at shorter; omega) le_rfl

/-- An instruction that is read, admitted and executed. -/
theorem evalStep_eq (read : pc.getOp = some (opcode, vchPushValue, next))
    (admitted : admitOp opcode vchPushValue state.nOpCount = .ok nOpCount)
    (executed : ctx.executeOp opcode vchPushValue next { state with nOpCount } = pure after)
    (small : after.stack.length + after.altstack.length ≤ 1000) : ctx.evalStep pc state = pure (next, after) := by
  have fits : rejectIf (1000 < after.stack.length + after.altstack.length) (.error "") = .ok () := if_neg (by omega)
  rw [evalStep, read]
  simp only [assertSome, admitted, executed, Metered.free_ok_bind]
  change (Metered.free (.ok after) >>= _) = _
  rw [Metered.free_ok_bind, fits, Metered.free_ok_bind]

theorem runScript_step (read : pc.getOp = some (opcode, vchPushValue, next))
    (admitted : admitOp opcode vchPushValue state.nOpCount = .ok nOpCount)
    (executed : ctx.executeOp opcode vchPushValue next { state with nOpCount } = pure after)
    (small : after.stack.length + after.altstack.length ≤ 1000) :
    ctx.runScript pc state = ctx.runScript next after := by
  cases pc with
  | nil => cases read
  | cons byte pc =>
    rw [runScript_cons, evalStep_eq read admitted executed small]
    exact Metered.free_ok_bind _

theorem admitOp_push (low : opcode ≤ OP_16)
    (short : vchPushValue.length ≤ MAX_SCRIPT_ELEMENT_SIZE) : admitOp opcode vchPushValue nOpCount = .ok nOpCount := by
  have enabled : opcode ∉ disabledOpcodes := by
    intro disabled
    have high : (disabledOpcodes.all fun other => decide (OP_16 < other)) = true := by decide
    exact absurd (of_decide_eq_true (List.all_eq_true.mp high opcode disabled)) (UInt8.not_lt.mpr low)
  have small : ¬ OP_16 < opcode := UInt8.not_lt.mpr low
  simp only [admitOp, bind_eq_ok, rejectIf_eq_ok, pure_eq_ok, if_neg small]
  exact ⟨(), not_lt.mpr short, (), fun both => small both.1, (), enabled, trivial⟩

/-- An opcode that counts as an operation. -/
theorem admitOp_counted (high : OP_16 < opcode) (enabled : opcode ∉ disabledOpcodes)
    (room : nOpCount < 201) : admitOp opcode [] nOpCount = .ok (nOpCount + 1) := by
  simp only [admitOp, bind_eq_ok, rejectIf_eq_ok, pure_eq_ok, if_pos high]
  exact ⟨(), Nat.not_lt_zero _, (), fun both => by omega, (), enabled, trivial⟩

theorem evalStep_pushData (short : vch.length ≤ MAX_SCRIPT_ELEMENT_SIZE) (unconditional : state.vfExec = [])
    (room : state.stack.length + state.altstack.length < 1000) :
    ctx.evalStep (CScript.pushData vch ++ rest) state = pure (rest, state.push vch) := by
  have limit : MAX_SCRIPT_ELEMENT_SIZE = 520 := rfl
  obtain ⟨opcode, low, read⟩ := CScript.getOp_pushData (by omega : vch.length < 2 ^ 32) rest
  have push : opcode ≤ OP_16 := UInt8.le_trans low (by decide)
  have executing : state.fExec = true := by
    rw [ScriptState.fExec, unconditional]
    rfl
  refine evalStep_eq read (admitOp_push push short) ?_ ?_
  · rw [executeOp, if_pos ⟨executing, low⟩]
  · simp only [ScriptState.push, List.length_cons]
    omega

/-- A push above the limit is not admitted. -/
theorem admitOp_long (long : MAX_SCRIPT_ELEMENT_SIZE < vchPushValue.length) :
    admitOp opcode vchPushValue nOpCount = .error (.error "") := by
  rw [admitOp, rejectIf, if_pos long]
  rfl

theorem evalStep_pushData_long (long : MAX_SCRIPT_ELEMENT_SIZE < vch.length) (short : vch.length < 2 ^ 32) :
    ctx.evalStep (CScript.pushData vch ++ rest) state = .throw (.error "") := by
  obtain ⟨opcode, -, read⟩ := CScript.getOp_pushData short rest
  rw [evalStep, read]
  simp only [assertSome, admitOp_long long, Metered.free_ok_bind]
  rfl

/-- A push is not empty. -/
theorem pushData_ne_nil (vch : valtype) (rest : CScript) : CScript.pushData vch ++ rest ≠ [] := by
  intro empty
  have long := (CScript.length_pushData vch).1
  rw [(List.append_eq_nil_iff.mp empty).1] at long
  cases long

private theorem runScript_of_ne_nil (more : pc ≠ []) :
    ctx.runScript pc state = ctx.evalStep pc state >>= fun step => ctx.runScript step.1 step.2 := by
  cases pc with
  | nil => exact absurd rfl more
  | cons byte pc => exact runScript_cons

theorem runScript_pushData {vch : valtype} {rest : CScript} {state : ScriptState}
    (short : vch.length ≤ MAX_SCRIPT_ELEMENT_SIZE) (unconditional : state.vfExec = [])
    (room : state.stack.length + state.altstack.length < 1000) :
    ctx.runScript (CScript.pushData vch ++ rest) state = ctx.runScript rest (state.push vch) := by
  rw [runScript_of_ne_nil (pushData_ne_nil vch rest), evalStep_pushData short unconditional room]
  exact Metered.free_ok_bind _

/-- A push above the limit fails. -/
theorem runScript_pushData_long (long : MAX_SCRIPT_ELEMENT_SIZE < vch.length) (short : vch.length < 2 ^ 32) :
    ctx.runScript (CScript.pushData vch ++ rest) state = .throw (.error "") := by
  rw [runScript_of_ne_nil (pushData_ne_nil vch rest), evalStep_pushData_long long short]
  rfl

/-- Pushes are left on the stack, the last one on the top. -/
theorem runScript_pushAll {data : List valtype} {rest : CScript} {state : ScriptState}
    (short : ∀ vch ∈ data, vch.length ≤ MAX_SCRIPT_ELEMENT_SIZE) (unconditional : state.vfExec = [])
    (room : state.stack.length + state.altstack.length + data.length ≤ 1000) :
    ctx.runScript (CScript.pushAll data ++ rest) state =
      ctx.runScript rest { state with stack := data.reverse ++ state.stack } := by
  induction data generalizing state with
  | nil => rfl
  | cons vch data ih =>
    rw [List.length_cons] at room
    have others : ∀ other ∈ data, other.length ≤ MAX_SCRIPT_ELEMENT_SIZE :=
      fun other member => short other (List.mem_cons_of_mem _ member)
    have left : (state.push vch).stack.length + (state.push vch).altstack.length + data.length ≤ 1000 := by
      simp only [ScriptState.push, List.length_cons]
      omega
    have pushed : (state.push vch).vfExec = [] := unconditional
    rw [CScript.pushAll_cons, List.append_assoc,
      runScript_pushData (short vch List.mem_cons_self) unconditional (by omega), ih others pushed left,
      List.reverse_cons, List.append_assoc]
    rfl

theorem getOp_opcode (high : OP_PUSHDATA4 < opcode) (rest : CScript) :
    CScript.getOp (opcode :: rest) = some (opcode, [], rest) := by
  rw [CScript.getOp, if_neg (UInt8.not_le.mpr high)]

/-- A small number is pushed. -/
theorem runScript_smallNumber (small : isSmallNumber opcode)
    (unconditional : state.vfExec = []) (room : state.stack.length + state.altstack.length < 1000) :
    ctx.runScript (opcode :: rest) state =
      ctx.runScript rest (state.push (CBigNum.getvch ((opcode.toNat : ℤ) - (OP_1.toNat - 1 : ℤ)))) := by
  obtain ⟨above, below⟩ := toNat_of_isSmallNumber small
  have high : OP_PUSHDATA4 < opcode := UInt8.lt_iff_toNat_lt.mpr above
  have low : opcode ≤ OP_16 := UInt8.le_iff_toNat_le.mpr below
  have executing : state.fExec = true := by
    rw [ScriptState.fExec, unconditional]
    rfl
  refine runScript_step (getOp_opcode high rest) (admitOp_push low (Nat.zero_le _)) ?_ ?_
  · rw [executeOp_smallNumber small]
    exact if_pos executing
  · simp only [ScriptState.push, List.length_cons]
    omega

/-- An operation on the stack. -/
theorem runScript_freeOp {opcode : UInt8} {rest : CScript} {state : ScriptState} {stack : List valtype}
    (high : OP_16 < opcode) (enabled : opcode ∉ disabledOpcodes)
    (free : ¬ (opcode = OP_CHECKSIG ∨ opcode = OP_CHECKSIGVERIFY) ∧
      ¬ (opcode = OP_CHECKMULTISIG ∨ opcode = OP_CHECKMULTISIGVERIFY))
    (unconditional : state.vfExec = []) (count : state.nOpCount < 201)
    (done : ctx.freeOp opcode rest { state with nOpCount := state.nOpCount + 1 } =
      .ok { state with stack, nOpCount := state.nOpCount + 1 })
    (room : stack.length + state.altstack.length ≤ 1000) :
    ctx.runScript (opcode :: rest) state =
      ctx.runScript rest { state with stack, nOpCount := state.nOpCount + 1 } := by
  have above : OP_PUSHDATA4 < opcode := UInt8.lt_of_le_of_lt (by decide) high
  have executing : { state with nOpCount := state.nOpCount + 1 }.fExec = true := by
    rw [ScriptState.fExec, unconditional]
    rfl
  refine runScript_step (getOp_opcode above rest) (admitOp_counted high enabled count) ?_ room
  rw [executeOp, if_neg (fun both => UInt8.not_le.mpr above both.2), if_pos (Or.inl executing), evalOp,
    if_neg free.1, if_neg free.2, done]
  rfl

theorem evalScript_eq {script : CScript} {stack : List valtype} (small : script.length ≤ 10000)
    (run : (ctx.runScript script ⟨stack, [], [], script, 0⟩).outcome = .ok after) (closed : after.vfExec = []) :
    (ctx.evalScript stack script).outcome = .ok after.stack := by
  simp only [evalScript, Metered.bind_outcome_eq_ok, Metered.free_outcome, rejectIf_eq_ok,
    Metered.pure_outcome, Except.ok.injEq]
  exact ⟨(), not_lt.mpr small, after, run, (), not_not.mpr closed, rfl⟩

theorem evalScript_pushAll {data : List valtype} (short : ∀ vch ∈ data, vch.length ≤ MAX_SCRIPT_ELEMENT_SIZE)
    (few : data.length ≤ 1000) (small : (CScript.pushAll data).length ≤ 10000) :
    (ctx.evalScript [] (CScript.pushAll data)).outcome = .ok data.reverse := by
  have room : ([] : List valtype).length + ([] : List valtype).length + data.length ≤ 1000 := by simpa using few
  have run := @runScript_pushAll ctx data [] ⟨[], [], [], CScript.pushAll data, 0⟩ short rfl room
  rw [List.append_nil, List.append_nil, runScript_nil] at run
  exact evalScript_eq small (by rw [run]; rfl) rfl

theorem freeOp_equal {altstack : List valtype} {vfExec : List Bool} {code : CScript} :
    ctx.freeOp OP_EQUAL next ⟨vch :: vch :: below, altstack, vfExec, code, nOpCount⟩ =
      .ok ⟨vchTrue :: below, altstack, vfExec, code, nOpCount⟩ := by
  have done : stackOp OP_EQUAL (vch :: vch :: below) = .ok (vchTrue :: below) := by
    change answer false (decide (vch = vch)) below = _
    rw [decide_eq_true rfl]
    rfl
  change (stackOp OP_EQUAL (vch :: vch :: below) >>= fun stack => _) = _
  rw [done]
  rfl

/-- The output for a script compares the hash. -/
theorem runScript_payToScriptHash {code : CScript}
    (size : (ctx.crypto.hash160 vch).length = 20) (room : below.length < 999) :
    ctx.runScript (payToScriptHash (ctx.crypto.hash160 vch)) ⟨vch :: below, [], [], code, 0⟩ =
      pure ⟨vchTrue :: below, [], [], code, 2⟩ := by
  have push : payToScriptHash (ctx.crypto.hash160 vch) =
      OP_HASH160 :: (CScript.pushData (ctx.crypto.hash160 vch) ++ [OP_EQUAL]) := by
    rw [payToScriptHash, CScript.pushData, size]
    rfl
  have limit : MAX_SCRIPT_ELEMENT_SIZE = 520 := rfl
  have hashed := @runScript_freeOp ctx OP_HASH160 (CScript.pushData (ctx.crypto.hash160 vch) ++ [OP_EQUAL])
    ⟨vch :: below, [], [], code, 0⟩ (ctx.crypto.hash160 vch :: below)
    (by decide) (by decide) (by decide) rfl (by simp) rfl (by simp; omega)
  have pushed := @runScript_pushData ctx (ctx.crypto.hash160 vch) [OP_EQUAL]
    ⟨ctx.crypto.hash160 vch :: below, [], [], code, 1⟩ (by omega) rfl (by simp; omega)
  have compared := @runScript_freeOp ctx OP_EQUAL [] ⟨ctx.crypto.hash160 vch :: ctx.crypto.hash160 vch :: below, [], [],
    code, 1⟩ (vchTrue :: below) (by decide) (by decide) (by decide) rfl (by simp) freeOp_equal (by simp; omega)
  rw [push]
  exact (hashed.trans pushed).trans compared

theorem evalScript_payToScriptHash (size : (ctx.crypto.hash160 vch).length = 20) (room : below.length < 999) :
    (ctx.evalScript (vch :: below) (payToScriptHash (ctx.crypto.hash160 vch))).outcome = .ok (vchTrue :: below) := by
  have small : (payToScriptHash (ctx.crypto.hash160 vch)).length ≤ 10000 := by
    simp [payToScriptHash, size]
  exact evalScript_eq small (by rw [runScript_payToScriptHash size room]; rfl) rfl

end ScriptContext

end BitCrystal
