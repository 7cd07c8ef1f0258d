import BitCrystal.Proofs.StackAccess

/-! # The resources a script may use

The limits hold after every round of the loop, whatever the script and however far it runs, and no operation looks below
its stack.
-/

namespace BitCrystal

open Check CBigNum Metered

namespace ScriptContext

variable {ctx : ScriptContext} {opcode : UInt8} {vchPushValue : valtype} {pc next : CScript} {state after : ScriptState}

/-- The keys that are counted as operations: as many as the top of the stack tells `OP_CHECKMULTISIG`. -/
def countedKeys (opcode : UInt8) (state : ScriptState) : ℕ :=
  if state.fExec ∧ (opcode = OP_CHECKMULTISIG ∨ opcode = OP_CHECKMULTISIGVERIFY) then
    (state.stack.head?.map fun vch => (getint (setvch vch)).toNat).getD 0
  else 0

/-- What the instruction at `pc` is counted as. -/
def countedOperations (pc : CScript) (state : ScriptState) : ℕ :=
  (pc.getOp.map fun (opcode, _, _) => (if OP_16 < opcode then 1 else 0) + countedKeys opcode state).getD 0

/-- Rounds of the loop that end without a return, and the operations counted in them. -/
inductive Rounds (ctx : ScriptContext) : CScript → ScriptState → ℕ → CScript → ScriptState → Prop
  | none (pc : CScript) (state : ScriptState) : Rounds ctx pc state 0 pc state
  | round {pc next pc' : CScript} {state after state' : ScriptState} {count : ℕ}
      (step : (ctx.evalStep pc state).outcome = .ok (next, after)) (rest : Rounds ctx next after count pc' state') :
      Rounds ctx pc state (countedOperations pc state + count) pc' state'

theorem multisigOp_eq_ok {verify : Bool} (done : (ctx.multisigOp verify state).outcome = .ok after) :
    ∃ vch, state.stack.head? = some vch ∧
      after.nOpCount = state.nOpCount + (getint (setvch vch)).toNat ∧ after.nOpCount ≤ 201 := by
  obtain ⟨⟨vchPubKeys, vchSigs, i⟩, arguments, done⟩ := bind_outcome_eq_ok.mp done
  obtain ⟨fSuccess, -, done⟩ := bind_outcome_eq_ok.mp done
  obtain ⟨popped, -, done⟩ := bind_eq_ok.mp done
  obtain ⟨stack, -, done⟩ := bind_eq_ok.mp done
  obtain rfl := pure_eq_ok.mp done
  obtain ⟨-, vch, top, keys⟩ := multisigArguments_keys arguments
  obtain ⟨-, -, room, -⟩ := multisigNumbers_eq_ok (multisigArguments_eq_ok arguments).1
  exact ⟨vch, top, by dsimp only; omega, room⟩

theorem checkSigOp_nOpCount {verify : Bool} (done : (ctx.checkSigOp verify state).outcome = .ok after) :
    after.nOpCount = state.nOpCount := by
  obtain ⟨_, -, done⟩ := bind_outcome_eq_ok.mp done
  obtain ⟨_, -, done⟩ := bind_outcome_eq_ok.mp done
  obtain ⟨_, -, done⟩ := bind_eq_ok.mp done
  obtain ⟨_, -, done⟩ := bind_eq_ok.mp done
  obtain ⟨_, -, done⟩ := bind_eq_ok.mp done
  obtain rfl := pure_eq_ok.mp done
  rfl

private theorem countedKeys_of_ne (multisig : ¬ (opcode = OP_CHECKMULTISIG ∨ opcode = OP_CHECKMULTISIGVERIFY)) :
    countedKeys opcode state = 0 := if_neg fun both => multisig both.2

/-- An instruction counts the keys it is given. -/
theorem executeOp_nOpCount (room : state.nOpCount ≤ 201)
    (done : (ctx.executeOp opcode vchPushValue next state).outcome = .ok after) :
    after.nOpCount = state.nOpCount + countedKeys opcode state ∧ after.nOpCount ≤ 201 := by
  have uncounted (same : after.nOpCount = state.nOpCount)
      (multisig : ¬ (opcode = OP_CHECKMULTISIG ∨ opcode = OP_CHECKMULTISIGVERIFY)) :
      after.nOpCount = state.nOpCount + countedKeys opcode state ∧ after.nOpCount ≤ 201 := by
    rw [countedKeys_of_ne multisig, same]
    exact ⟨rfl, room⟩
  unfold executeOp at done
  split at done
  next push =>
    cases done
    apply uncounted rfl
    rintro (rfl | rfl) <;> exact absurd push.2 (by decide)
  split at done
  next executed =>
    unfold evalOp at done
    split at done
    next checkSig =>
      apply uncounted (checkSigOp_nOpCount done)
      rcases checkSig with rfl | rfl <;> decide
    split at done
    next multisig =>
      have executing : state.fExec = true := by
        refine executed.resolve_right fun control => absurd control.2 ?_
        rcases multisig with rfl | rfl <;> decide
      obtain ⟨vch, top, count, room⟩ := multisigOp_eq_ok done
      rw [countedKeys, if_pos ⟨executing, multisig⟩, top]
      exact ⟨count, room⟩
    next free => exact uncounted (freeOp_nOpCount done) free
  next skipped =>
    cases done
    rw [countedKeys, if_neg fun both => skipped (Or.inl both.1)]
    exact ⟨rfl, room⟩

theorem admitOp_eq_ok {nOpCount admitted : ℕ} (done : admitOp opcode vchPushValue nOpCount = .ok admitted) :
    vchPushValue.length ≤ MAX_SCRIPT_ELEMENT_SIZE ∧ admitted = nOpCount + (if OP_16 < opcode then 1 else 0) ∧
      (nOpCount ≤ 201 → admitted ≤ 201) := by
  simp only [admitOp, bind_eq_ok, rejectIf_eq_ok, pure_eq_ok] at done
  obtain ⟨_, short, _, few, _, _, rfl⟩ := done
  refine ⟨not_lt.mp short, by split <;> rfl, fun room => ?_⟩
  split
  next counted => exact not_lt.mp fun many => few ⟨counted, by rwa [if_pos counted]⟩
  next => exact room

/-- A round keeps the limits and counts its instruction. -/
theorem evalStep_keeps (room : state.nOpCount ≤ 201) (step : (ctx.evalStep pc state).outcome = .ok (next, after)) :
    after.stack.length + after.altstack.length ≤ 1000 ∧ after.nOpCount ≤ 201 ∧
      after.nOpCount = state.nOpCount + countedOperations pc state := by
  obtain ⟨opcode, vchPushValue, nOpCount, read, admitted, executed, small⟩ := evalStep_eq_ok.mp step
  obtain ⟨-, count, few⟩ := admitOp_eq_ok admitted
  obtain ⟨counted, few⟩ := executeOp_nOpCount (few room) executed
  refine ⟨small, few, ?_⟩
  rw [counted, count, countedOperations, read, Nat.add_assoc]
  rfl

private theorem length_smallNumber {opcode : UInt8} (small : isSmallNumber opcode) :
    (getvch ((opcode.toNat : ℤ) - (OP_1.toNat - 1 : ℤ))).length ≤ MAX_SCRIPT_ELEMENT_SIZE := by
  have range := toNat_of_isSmallNumber small
  have one : (OP_1.toNat : ℤ) = 81 := rfl
  unfold getvch
  split
  · exact Nat.zero_le _
  next nonzero =>
    rw [LittleEndian.length_encode, width]
    have low : ((opcode.toNat : ℤ) - (OP_1.toNat - 1 : ℤ)).natAbs.log2 < 8 := (Nat.log2_lt (by omega)).mpr (by omega)
    have limit : MAX_SCRIPT_ELEMENT_SIZE = 520 := rfl
    omega

/-- An opcode up to `OP_16` pushes one value of limited size or does nothing. -/
theorem evalStep_push (read : pc.getOp = some (opcode, vchPushValue, next)) (push : opcode ≤ OP_16)
    (step : (ctx.evalStep pc state).outcome = .ok (next, after)) :
    after.stack = state.stack ∨
      ∃ value, value.length ≤ MAX_SCRIPT_ELEMENT_SIZE ∧ after.stack = value :: state.stack := by
  obtain ⟨opcode, vchPushValue, nOpCount, reads, admitted, executed, -⟩ := evalStep_eq_ok.mp step
  simp only [reads, Option.some.injEq, Prod.mk.injEq, and_true] at read
  obtain ⟨rfl, rfl⟩ := read
  by_cases small : isSmallNumber opcode
  · rw [executeOp_smallNumber small] at executed
    split at executed
    · cases executed
      exact Or.inr ⟨_, length_smallNumber small, rfl⟩
    · cases executed
      exact Or.inl rfl
  unfold executeOp at executed
  split at executed
  · cases executed
    exact Or.inr ⟨_, (admitOp_eq_ok admitted).1, rfl⟩
  split at executed
  next notPush taken =>
    -- what is left is `OP_RESERVED`
    have low : opcode.toNat ≤ 0x60 := UInt8.le_iff_toNat_le.mp push
    have outside : ¬ OP_IF ≤ opcode := fun large => by
      have : 0x63 ≤ opcode.toNat := UInt8.le_iff_toNat_le.mp large
      omega
    have high : 0x4e < opcode.toNat := UInt8.lt_iff_toNat_lt.mp (UInt8.not_le.mp fun low =>
      notPush ⟨taken.resolve_right fun inside => outside inside.1, low⟩)
    have notOne : opcode.toNat ≠ 0x4f := fun one => small (Or.inl (UInt8.toNat_inj.mp one))
    have notNumber : ¬ 0x51 ≤ opcode.toNat := fun number => small (Or.inr ⟨UInt8.le_iff_toNat_le.mpr number, push⟩)
    obtain rfl : opcode = 0x50 := UInt8.toNat_inj.mp (by change opcode.toNat = 0x50; omega)
    exact absurd executed nofun
  · cases executed
    exact Or.inl rfl

/-- The limits hold after any number of rounds. -/
theorem Rounds.keeps {count : ℕ} (rounds : Rounds ctx pc state count next after)
    (small : state.stack.length + state.altstack.length ≤ 1000) (room : state.nOpCount ≤ 201) :
    after.stack.length + after.altstack.length ≤ 1000 ∧ after.nOpCount ≤ 201 ∧
      after.nOpCount = state.nOpCount + count := by
  induction rounds with
  | none => exact ⟨small, room, rfl⟩
  | round step rest ih =>
    obtain ⟨small, room, counted⟩ := evalStep_keeps room step
    obtain ⟨small, room, count⟩ := ih small room
    exact ⟨small, room, by omega⟩

/-- The loop runs rounds up to the end of the script. -/
theorem rounds_of_evalLoop {rounds : ℕ} (enough : pc.length ≤ rounds)
    (done : (ctx.evalLoop rounds pc state).outcome = .ok after) : ∃ count, Rounds ctx pc state count [] after := by
  induction rounds generalizing pc state with
  | zero =>
    obtain rfl := List.eq_nil_of_length_eq_zero (Nat.le_zero.mp enough)
    cases done
    exact ⟨0, .none _ _⟩
  | succ rounds ih =>
    unfold evalLoop at done
    split at done
    next empty =>
      cases done
      rw [empty]
      exact ⟨0, .none _ _⟩
    next more =>
      obtain ⟨⟨next, middle⟩, step, done⟩ := bind_outcome_eq_ok.mp done
      obtain ⟨opcode, vchPushValue, nOpCount, read, -⟩ := evalStep_eq_ok.mp step
      have shorter := (CScript.getOp_suffix read).2
      obtain ⟨count, rest⟩ := ih (by omega) done
      exact ⟨_, .round step rest⟩

/-- The limits on a script, whatever it does. -/
theorem evalScript_resources (ctx : ScriptContext) (stack : List valtype) (script : CScript)
    (small : stack.length ≤ 1000) :
    (∀ count pc state, Rounds ctx script ⟨stack, [], [], script, 0⟩ count pc state →
      state.stack.length + state.altstack.length ≤ 1000 ∧ count ≤ 201 ∧
      (∀ opcode vchPushValue next, pc.getOp = some (opcode, vchPushValue, next) →
        (∀ nOpCount, admitOp opcode vchPushValue state.nOpCount = .ok nOpCount → nOpCount ≤ 201 ∧
          ∀ vchPubKeys vchSigs i, multisigArguments state.stack nOpCount = .ok (vchPubKeys, vchSigs, i) →
            nOpCount + vchPubKeys.length ≤ 201) ∧
        ∀ after, opcode ≤ OP_16 → (ctx.evalStep pc state).outcome = .ok (next, after) →
          after.stack = state.stack ∨
            ∃ value, value.length ≤ MAX_SCRIPT_ELEMENT_SIZE ∧ after.stack = value :: state.stack)) ∧
    InRange (ctx.evalScript stack script).outcome ∧
    (∀ verify state, ctx.multisigOp verify state = ctx.checkMultisigOp verify state) ∧
    ∀ result, (ctx.evalScript stack script).outcome = .ok result →
      ∃ count state, Rounds ctx script ⟨stack, [], [], script, 0⟩ count [] state ∧ state.vfExec = [] ∧
        state.stack = result := by
  refine ⟨fun count pc state rounds => ?_, InRange.evalScript stack script,
    fun verify state => (checkMultisigOp_eq verify state).symm, fun result done => ?_⟩
  · obtain ⟨fits, room, counted⟩ := rounds.keeps small (Nat.zero_le 201)
    have zero : (⟨stack, [], [], script, 0⟩ : ScriptState).nOpCount = 0 := rfl
    refine ⟨fits, by omega, fun opcode vchPushValue next read => ⟨fun nOpCount admitted => ?_, fun after push step =>
      evalStep_push read push step⟩⟩
    refine ⟨(admitOp_eq_ok admitted).2.2 room, fun vchPubKeys vchSigs i arguments => ?_⟩
    exact (multisigNumbers_eq_ok (multisigArguments_eq_ok arguments).1).2.2.1
  · obtain ⟨_, -, done⟩ := bind_outcome_eq_ok.mp done
    obtain ⟨state, run, done⟩ := bind_outcome_eq_ok.mp done
    obtain ⟨_, closed, done⟩ := bind_outcome_eq_ok.mp done
    obtain ⟨count, rounds⟩ := rounds_of_evalLoop le_rfl run
    exact ⟨count, state, rounds, not_not.mp (rejectIf_eq_ok.mp closed), Except.ok.inj done⟩

/-- A verification without a transaction to speak of. -/
def bareContext : ScriptContext := ⟨⟨id, id, id, fun _ _ _ => true⟩, { vin := [], vout := [] }, 0, 0, 0⟩

/-- A script that looks below its stack, and one that leaves a number. -/
theorem evalScript_resources_at :
    InRange (bareContext.evalScript [[1]] [OP_PICK]).outcome ∧
      ∃ count state, Rounds bareContext [OP_1] ⟨[], [], [], [OP_1], 0⟩ count [] state ∧ state.vfExec = [] ∧
        state.stack = [[1]] :=
  ⟨(evalScript_resources bareContext [[1]] [OP_PICK] (by decide)).2.1,
    (evalScript_resources bareContext [] [OP_1] (by decide)).2.2.2 [[1]] rfl⟩

end ScriptContext

end BitCrystal
