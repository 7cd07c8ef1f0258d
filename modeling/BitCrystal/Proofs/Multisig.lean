import BitCrystal.Proofs.EvalScript

/-! # The multisig operation

The loop finds a key for every signature if there is an assignment that keeps the order. Operands and the
redeem script are laid out as `SetMultisig` writes them.
-/

namespace BitCrystal

open CBigNum Metered

namespace ScriptContext

variable {ctx : ScriptContext}

/-- A signature that `CheckSig` accepts for a key. -/
def Accepts (ctx : ScriptContext) (scriptCode : CScript) (vchSig vchPubKey : valtype) : Prop :=
  (ctx.checkSig vchSig vchPubKey scriptCode).outcome = .ok true

/-- Every signature is accepted for a key of its own, in the order of the keys. -/
def Signed (ctx : ScriptContext) (scriptCode : CScript) (vchPubKeys vchSigs : List valtype) : Prop :=
  ∃ signers : List valtype, signers.Sublist vchPubKeys ∧ List.Forall₂ (ctx.Accepts scriptCode) vchSigs signers

variable {scriptCode : CScript} {vchPubKeys vchSigs : List valtype}

theorem Signed.length_le
    (signed : ctx.Signed scriptCode vchPubKeys vchSigs) : vchSigs.length ≤ vchPubKeys.length := by
  obtain ⟨signers, sublist, accepted⟩ := signed
  exact accepted.length_eq ▸ sublist.length_le

theorem Signed.reverse (signed : ctx.Signed scriptCode vchPubKeys vchSigs) :
    ctx.Signed scriptCode vchPubKeys.reverse vchSigs.reverse := by
  obtain ⟨signers, sublist, accepted⟩ := signed
  exact ⟨signers.reverse, List.reverse_sublist.mpr sublist, List.forall₂_reverse_iff.mpr accepted⟩

/-- `CheckSig` answers. -/
theorem checkSig_outcome (vchSig vchPubKey : valtype) (scriptCode : CScript) :
    ∃ fOk, (ctx.checkSig vchSig vchPubKey scriptCode).outcome = .ok fOk := by
  unfold checkSig
  split
  · exact ⟨false, rfl⟩
  · exact ⟨_, rfl⟩

/-- The loop takes the first key that a signature is accepted for. -/
theorem Signed.multisigLoop (signed : ctx.Signed scriptCode vchPubKeys vchSigs) :
    (ctx.multisigLoop scriptCode vchPubKeys vchSigs).outcome = .ok true := by
  induction vchPubKeys generalizing vchSigs with
  | nil =>
    have empty := List.eq_nil_of_length_eq_zero (Nat.le_zero.mp signed.length_le)
    rw [empty]
    rfl
  | cons vchPubKey vchPubKeys ih =>
    cases vchSigs with
    | nil => rfl
    | cons vchSig vchSigs =>
      obtain ⟨signers, sublist, accepted⟩ := signed
      cases accepted with
      | @cons _ signer _ signers first others =>
        obtain ⟨fOk, answered⟩ := @checkSig_outcome ctx vchSig vchPubKey scriptCode
        have left : ctx.Signed scriptCode vchPubKeys (if fOk then vchSigs else vchSig :: vchSigs) := by
          cases fOk with
          | true =>
            refine ⟨signers, ?_, others⟩
            cases sublist with
            | cons _ sublist => exact (List.sublist_cons_self ..).trans sublist
            | cons_cons _ sublist => exact sublist
          | false =>
            cases sublist with
            | cons _ sublist => exact ⟨signer :: signers, sublist, .cons first others⟩
            | cons_cons _ sublist =>
              rw [Accepts, answered] at first
              cases first
        have enough := left.length_le
        rw [ScriptContext.multisigLoop, bind_outcome_eq_ok]
        refine ⟨fOk, answered, ?_⟩
        dsimp only
        rw [if_neg (by omega)]
        exact ih left

end ScriptContext

theorem length_getvch_le {n : ℕ} (small : n ≤ 20) : (getvch n).length ≤ nMaxNumSize := by
  have table : ∀ n < 21, (getvch (n : ℕ)).length ≤ nMaxNumSize := by decide
  exact table n (by omega)

theorem getint_natCast {n : ℕ} (small : n ≤ 20) : getint n = n := by
  unfold getint
  omega

theorem popstacks_append (above below : List valtype) : popstacks above.length (above ++ below) = .ok below := by
  induction above with
  | nil => rfl
  | cons vch above ih => exact ih

/-- Keys, signatures and the element below them, as the operation finds them. -/
theorem multisigArguments_eq {vchPubKeys vchSigs below : List valtype} {vchDummy : valtype} {nOpCount : ℕ}
    (few : vchPubKeys.length ≤ 20) (fewer : vchSigs.length ≤ vchPubKeys.length)
    (count : nOpCount + vchPubKeys.length ≤ 201) :
    multisigArguments (getvch vchPubKeys.length :: vchPubKeys ++ getvch vchSigs.length :: vchSigs ++
      vchDummy :: below) nOpCount = .ok (vchPubKeys, vchSigs, vchPubKeys.length + vchSigs.length + 3) := by
  have keys := getint_natCast few
  have sigs := getint_natCast (fewer.trans few)
  simp only [multisigArguments, Check.bind_eq_ok, require_eq_ok, stacktop_eq_ok, castToBigNum_eq_ok,
    Check.rejectIf_eq_ok, stackSlice_eq_ok, Check.pure_eq_ok, Prod.mk.injEq]
  refine ⟨(), ?_, _, ⟨Nat.one_pos, rfl⟩, _, ⟨length_getvch_le few, rfl⟩, (), ?_, (), ?_, (), ?_,
    getvch vchSigs.length, ⟨?_, ?_⟩, _, ⟨length_getvch_le (fewer.trans few), rfl⟩, (), ?_, (), ?_,
    vchPubKeys, ⟨?_, ?_⟩, vchSigs, ⟨?_, ?_⟩, rfl, rfl, ?_⟩
  case refine_6 =>
    simp only [setvch_getvch, keys, Int.toNat_natCast]
    rw [show 2 + vchPubKeys.length - 1 = vchPubKeys.length + 1 by omega]
    simp
  case refine_10 =>
    simp only [setvch_getvch, keys, Int.toNat_natCast]
    simp
  case refine_12 =>
    simp only [setvch_getvch, keys, sigs, Int.toNat_natCast]
    have below : List.drop (2 + vchPubKeys.length + 1 - 1) (getvch vchPubKeys.length :: vchPubKeys ++
        getvch vchSigs.length :: vchSigs ++ vchDummy :: below) = vchSigs ++ vchDummy :: below := by
      rw [show 2 + vchPubKeys.length + 1 - 1 = vchPubKeys.length + 1 + 1 by omega]
      simp
    rw [below, List.take_left]
  all_goals
    try simp only [setvch_getvch, keys, sigs, Int.toNat_natCast, List.length_cons, List.length_append]
    omega

namespace ScriptContext

variable {ctx : ScriptContext}

/-- The answer of the operation is that of its loop, over what is left below the operands. -/
theorem multisigOp_eq {vchPubKeys vchSigs below altstack : List valtype} {vchDummy : valtype} {vfExec : List Bool}
    {code : CScript} {nOpCount : ℕ} (few : vchPubKeys.length ≤ 20) (count : nOpCount + vchPubKeys.length ≤ 201)
    (signed : ctx.Signed (vchSigs.foldl (fun scriptCode vchSig => scriptCode.findAndDelete (CScript.pushData vchSig))
      code) vchPubKeys vchSigs) :
    (ctx.multisigOp false ⟨getvch vchPubKeys.length :: vchPubKeys ++ getvch vchSigs.length :: vchSigs ++
      vchDummy :: below, altstack, vfExec, code, nOpCount⟩).outcome =
      .ok ⟨vchTrue :: below, altstack, vfExec, code, nOpCount + vchPubKeys.length⟩ := by
  have arguments := @multisigArguments_eq vchPubKeys vchSigs below vchDummy nOpCount few signed.length_le count
  have popped : popstacks (vchPubKeys.length + vchSigs.length + 3) (getvch vchPubKeys.length :: vchPubKeys ++
      getvch vchSigs.length :: vchSigs ++ vchDummy :: below) = .ok below := by
    have layout : getvch vchPubKeys.length :: vchPubKeys ++ getvch vchSigs.length :: vchSigs ++
        vchDummy :: below = (getvch vchPubKeys.length :: vchPubKeys ++
          getvch vchSigs.length :: vchSigs ++ [vchDummy]) ++ below := by simp
    have size : vchPubKeys.length + vchSigs.length + 3 = (getvch vchPubKeys.length :: vchPubKeys ++
        getvch vchSigs.length :: vchSigs ++ [vchDummy]).length := by
      simp only [List.length_append, List.length_cons, List.length_nil]
      omega
    rw [layout, size]
    exact popstacks_append _ _
  rw [multisigOp, arguments, free_ok_bind]
  simp only [bind_outcome_eq_ok, free_outcome]
  refine ⟨true, signed.multisigLoop, ?_⟩
  rw [popped]
  rfl

end ScriptContext

/-! ## The redeem script -/

namespace CScript

/-- `OP_1` to `OP_16`. -/
def smallOpcode (n : ℕ) : UInt8 := UInt8.ofNat (OP_1.toNat + n - 1)

variable {n : ℕ} {data : List valtype}

theorem toNat_smallOpcode (pos : 0 < n) (small : n ≤ 16) : (smallOpcode n).toNat = 80 + n := by
  have table : ∀ n < 17, 0 < n → (smallOpcode n).toNat = 80 + n := by decide
  exact table n (by omega) pos

theorem isSmallNumber_smallOpcode (pos : 0 < n) (small : n ≤ 16) : isSmallNumber (smallOpcode n) := by
  have table : ∀ n < 17, 0 < n → isSmallNumber (smallOpcode n) := by decide
  exact table n (by omega) pos

/-- No push. -/
theorem lt_smallOpcode (pos : 0 < n) (small : n ≤ 16) : OP_PUSHDATA4 < smallOpcode n := by
  rw [UInt8.lt_iff_toNat_lt, toNat_smallOpcode pos small]
  exact Nat.lt_of_lt_of_le (by decide : OP_PUSHDATA4.toNat < 80) (Nat.le_add_right ..)

theorem encodeOP_N_eq (pos : 0 < n) (small : n ≤ 16) : encodeOP_N n = .ok (smallOpcode n) := by
  have inside : ¬ ¬ (0 ≤ (n : ℤ) ∧ (n : ℤ) ≤ 16) := by omega
  rw [encodeOP_N, rejectIf, if_neg inside, if_neg (by omega)]
  rfl

/-- What `SetMultisig` writes. -/
def multisig (required : ℕ) (keys : List valtype) : CScript :=
  smallOpcode required :: pushAll keys ++ [smallOpcode keys.length, OP_CHECKMULTISIG]

theorem isPayToScriptHash_multisig {required : ℕ} {keys : List valtype} (pos : 0 < required) (small : required ≤ 16) :
    (multisig required keys).isPayToScriptHash = false := by
  have first : smallOpcode required ≠ OP_HASH160 := by
    intro same
    have number := toNat_smallOpcode pos small
    rw [same] at number
    have value : OP_HASH160.toNat = 169 := rfl
    omega
  simp [isPayToScriptHash, multisig, first]

theorem setMultisig_eq {required : ℕ} {keys : List valtype} (pos : 0 < required) (enough : required ≤ keys.length)
    (few : keys.length ≤ 16) : setMultisig required keys = .ok (multisig required keys) := by
  rw [setMultisig, encodeOP_N_eq pos (enough.trans few), encodeOP_N_eq (pos.trans_le enough) few]
  rfl

theorem length_le_of_mem_pushAll {vch : valtype} (member : vch ∈ data) : vch.length ≤ (pushAll data).length := by
  induction data with
  | nil => cases member
  | cons other data ih =>
    have long := (length_pushData other).1
    rw [pushAll_cons, List.length_append]
    rcases List.mem_cons.mp member with rfl | member
    · omega
    · have rest := ih member
      omega

theorem length_pushAll_le {bound : ℕ} (short : ∀ vch ∈ data, vch.length ≤ bound) :
    (pushAll data).length ≤ data.length * (bound + 5) := by
  induction data with
  | nil => exact Nat.zero_le _
  | cons vch data ih =>
    have first := (length_pushData vch).2.trans (Nat.add_le_add_right (short vch List.mem_cons_self) 5)
    have rest := ih fun other member => short other (List.mem_cons_of_mem _ member)
    rw [pushAll_cons, List.length_append, List.length_cons, Nat.succ_mul]
    omega

theorem isPushOnly_pushAll (short : ∀ vch ∈ data, vch.length < 2 ^ 32) : (pushAll data).isPushOnly = true := by
  have pushes : ∀ (rounds : ℕ) (last : valtype), (pushAll data).length ≤ rounds →
      (lastPush rounds (pushAll data) last).isSome = true := by
    induction data with
    | nil =>
      intro rounds last _
      cases rounds <;> rfl
    | cons vch data ih =>
      intro rounds last enough
      have long := (length_pushData vch).1
      rw [pushAll_cons] at enough ⊢
      rw [List.length_append] at enough
      obtain ⟨opcode, low, read⟩ := getOp_pushData (short vch List.mem_cons_self) (pushAll data)
      obtain ⟨rounds, rfl⟩ : ∃ left, rounds = left + 1 := ⟨rounds - 1, by omega⟩
      have push : ¬ OP_16 < opcode := UInt8.not_lt.mpr (UInt8.le_trans low (by decide))
      have more : pushData vch ++ pushAll data ≠ [] := by
        intro empty
        rw [empty] at read
        cases read
      rw [lastPush, if_neg more, read]
      dsimp only
      rw [if_neg push]
      exact ih (fun other member => short other (List.mem_cons_of_mem _ member)) rounds vch (by omega)
  exact pushes _ [] le_rfl

theorem isPayToScriptHash_payToScriptHash {scriptID : valtype} (size : scriptID.length = 20) :
    (payToScriptHash scriptID).isPayToScriptHash = true := by
  simp [isPayToScriptHash, payToScriptHash, size]

end CScript

namespace ScriptContext

variable {ctx : ScriptContext}

/-- The code that signatures for a script cover, without their pushes. -/
def signedCode (script : CScript) (vchSigs : List valtype) : CScript :=
  vchSigs.reverse.foldl (fun scriptCode vchSig => scriptCode.findAndDelete (CScript.pushData vchSig)) script

theorem runScript_smallOpcode {n : ℕ} {rest : CScript} {state : ScriptState} (pos : 0 < n) (small : n ≤ 16)
    (unconditional : state.vfExec = []) (room : state.stack.length + state.altstack.length < 1000) :
    ctx.runScript (CScript.smallOpcode n :: rest) state = ctx.runScript rest (state.push (getvch n)) := by
  have number : ((CScript.smallOpcode n).toNat : ℤ) - (OP_1.toNat - 1 : ℤ) = n := by
    have one : (OP_1.toNat : ℤ) = 81 := rfl
    rw [CScript.toNat_smallOpcode pos small, one]
    push_cast
    omega
  rw [runScript_smallNumber (CScript.isSmallNumber_smallOpcode pos small) unconditional room, number]

/-- The operation at the end of a script. -/
theorem runScript_checkMultisig {state after : ScriptState} (unconditional : state.vfExec = [])
    (count : state.nOpCount < 201)
    (done : (ctx.multisigOp false { state with nOpCount := state.nOpCount + 1 }).outcome = .ok after)
    (room : after.stack.length + after.altstack.length ≤ 1000) :
    (ctx.runScript [OP_CHECKMULTISIG] state).outcome = .ok after := by
  have executing : { state with nOpCount := state.nOpCount + 1 }.fExec = true := by
    rw [ScriptState.fExec, unconditional]
    rfl
  have step : (ctx.evalStep [OP_CHECKMULTISIG] state).outcome = .ok ([], after) := by
    refine evalStep_eq_ok.mpr ⟨OP_CHECKMULTISIG, [], _, getOp_opcode (by decide) [],
      admitOp_counted (by decide) (by decide) count, ?_, room⟩
    rw [executeOp, if_neg (fun both => absurd both.2 (by decide)), if_pos (Or.inl executing), evalOp,
      if_neg (by decide), if_pos (by decide)]
    exact done
  rw [runScript_cons, bind_outcome_eq_ok]
  exact ⟨_, step, rfl⟩

/-- The script accepts signatures for as many of its keys as it requires. -/
theorem evalScript_multisig {keys sigs : List valtype} {vchDummy : valtype} (pos : 0 < sigs.length)
    (few : keys.length ≤ 16) (short : ∀ key ∈ keys, key.length ≤ MAX_SCRIPT_ELEMENT_SIZE)
    (signed : ctx.Signed (signedCode (CScript.multisig sigs.length keys) sigs) keys sigs) :
    (ctx.evalScript (sigs.reverse ++ [vchDummy]) (CScript.multisig sigs.length keys)).outcome = .ok [vchTrue] := by
  have enough := signed.length_le
  have limit : MAX_SCRIPT_ELEMENT_SIZE = 520 := rfl
  have small : (CScript.multisig sigs.length keys).length ≤ 10000 := by
    have pushes := CScript.length_pushAll_le short
    have bound := Nat.mul_le_mul_right (MAX_SCRIPT_ELEMENT_SIZE + 5) few
    simp only [CScript.multisig, List.length_cons, List.length_append, List.length_nil]
    omega
  have done := @multisigOp_eq ctx keys.reverse sigs.reverse [] [] vchDummy [] (CScript.multisig sigs.length keys) 1
    (by simp; omega) (by simp; omega) signed.reverse
  rw [List.length_reverse, List.length_reverse] at done
  have operation := @runScript_checkMultisig ctx
    ⟨getvch keys.length :: keys.reverse ++ getvch sigs.length :: sigs.reverse ++ [vchDummy], [], [],
      CScript.multisig sigs.length keys, 0⟩ _ rfl (by simp) done (by simp)
  have counted := @runScript_smallOpcode ctx keys.length [OP_CHECKMULTISIG]
    ⟨keys.reverse ++ (getvch sigs.length :: (sigs.reverse ++ [vchDummy])), [], [],
      CScript.multisig sigs.length keys, 0⟩ (pos.trans_le enough) few rfl (by simp; omega)
  have pushed := @runScript_pushAll ctx keys [CScript.smallOpcode keys.length, OP_CHECKMULTISIG]
    ⟨getvch sigs.length :: (sigs.reverse ++ [vchDummy]), [], [], CScript.multisig sigs.length keys, 0⟩
    short rfl (by simp; omega)
  have required := @runScript_smallOpcode ctx sigs.length
    (CScript.pushAll keys ++ [CScript.smallOpcode keys.length, OP_CHECKMULTISIG])
    ⟨sigs.reverse ++ [vchDummy], [], [], CScript.multisig sigs.length keys, 0⟩ pos (enough.trans few) rfl
    (by simp; omega)
  have run := congrArg outcome ((required.trans pushed).trans counted)
  have layout : (⟨keys.reverse ++ (getvch sigs.length :: (sigs.reverse ++ [vchDummy])), [], [],
      CScript.multisig sigs.length keys, 0⟩ : ScriptState).push (getvch keys.length) =
      ⟨getvch keys.length :: keys.reverse ++ getvch sigs.length :: sigs.reverse ++ [vchDummy], [], [],
        CScript.multisig sigs.length keys, 0⟩ := by
    simp [ScriptState.push]
  rw [layout] at run
  have evaluated := evalScript_eq small (run.trans operation)
  exact evaluated rfl

/-- A script whose signature script leaves a stack that it accepts. -/
theorem acceptedStack_eq {scriptSig scriptPubKey : CScript} {stackCopy below : List valtype}
    (pushed : (ctx.evalScript [] scriptSig).outcome = .ok stackCopy)
    (accepted : (ctx.evalScript stackCopy scriptPubKey).outcome = .ok (vchTrue :: below)) :
    ctx.acceptedStack scriptSig scriptPubKey = .ok stackCopy := by
  rw [acceptedStack, pushed]
  change ((ctx.evalScript stackCopy scriptPubKey).outcome >>= _) = _
  rw [accepted]
  rfl

private theorem evalScript_signatures {sigs last : List valtype} (few : sigs.length + last.length ≤ 17)
    (short : ∀ vch ∈ [] :: sigs ++ last, vch.length ≤ MAX_SCRIPT_ELEMENT_SIZE) :
    (ctx.evalScript [] (CScript.pushAll ([] :: sigs ++ last))).outcome = .ok (last.reverse ++ (sigs.reverse ++ [[]])) := by
  have limit : MAX_SCRIPT_ELEMENT_SIZE = 520 := rfl
  have size := CScript.length_pushAll_le short
  have count : ([] :: sigs ++ last).length = sigs.length + last.length + 1 := by
    simp only [List.length_append, List.length_cons]
    omega
  have bound := Nat.mul_le_mul_right (MAX_SCRIPT_ELEMENT_SIZE + 5) (by omega : ([] :: sigs ++ last).length ≤ 18)
  have evaluated := @evalScript_pushAll ctx _ short (by omega) (by omega)
  rw [evaluated, List.reverse_append, List.reverse_cons]

/-- An output that is the script itself accepts its signatures. -/
theorem verifyScript_multisig {keys sigs : List valtype} (pos : 0 < sigs.length) (few : keys.length ≤ 16)
    (short : ∀ key ∈ keys, key.length ≤ MAX_SCRIPT_ELEMENT_SIZE)
    (pushable : ∀ sig ∈ sigs, sig.length ≤ MAX_SCRIPT_ELEMENT_SIZE)
    (signed : ctx.Signed (signedCode (CScript.multisig sigs.length keys) sigs) keys sigs) :
    ctx.verifyScript (CScript.pushAll ([] :: sigs)) (CScript.multisig sigs.length keys) = .ok () := by
  have enough := signed.length_le
  have sizes : ∀ vch ∈ [] :: sigs ++ [], vch.length ≤ MAX_SCRIPT_ELEMENT_SIZE := by
    intro vch member
    rw [List.append_nil] at member
    rcases List.mem_cons.mp member with rfl | member
    · exact Nat.zero_le _
    · exact pushable vch member
  have pushed := @evalScript_signatures ctx sigs [] (by simp; omega) sizes
  rw [List.append_nil] at pushed
  have accepted := acceptedStack_eq pushed (evalScript_multisig pos few short signed)
  have bare := @CScript.isPayToScriptHash_multisig sigs.length keys pos (enough.trans few)
  rw [verifyScript, redeemScript, accepted]
  change ((if _ then _ else _ : Check (Option (CScript × List valtype))) >>= _) = _
  rw [if_neg (by rw [bare]; simp)]
  rfl

/-- An output for the script accepts its signatures and the script. -/
theorem verifyScript_payToScriptHash {keys sigs : List valtype} (pos : 0 < sigs.length) (few : keys.length ≤ 16)
    (pushable : ∀ sig ∈ sigs, sig.length ≤ MAX_SCRIPT_ELEMENT_SIZE)
    (fits : (CScript.multisig sigs.length keys).length ≤ MAX_SCRIPT_ELEMENT_SIZE)
    (size : (ctx.crypto.hash160 (CScript.multisig sigs.length keys)).length = 20)
    (signed : ctx.Signed (signedCode (CScript.multisig sigs.length keys) sigs) keys sigs) :
    ctx.verifyScript (CScript.pushAll ([] :: sigs ++ [CScript.multisig sigs.length keys]))
      (CScript.payToScriptHash (ctx.crypto.hash160 (CScript.multisig sigs.length keys))) = .ok () := by
  have enough := signed.length_le
  have limit : MAX_SCRIPT_ELEMENT_SIZE = 520 := rfl
  have short : ∀ key ∈ keys, key.length ≤ MAX_SCRIPT_ELEMENT_SIZE := by
    intro key member
    have part := CScript.length_le_of_mem_pushAll member
    simp only [CScript.multisig, List.length_cons, List.length_append] at fits
    omega
  have sizes : ∀ vch ∈ [] :: sigs ++ [CScript.multisig sigs.length keys], vch.length ≤ MAX_SCRIPT_ELEMENT_SIZE := by
    intro vch member
    rcases List.mem_append.mp member with member | member
    · rcases List.mem_cons.mp member with rfl | member
      · exact Nat.zero_le _
      · exact pushable vch member
    · rw [List.mem_singleton.mp member]
      exact fits
  have pushed := @evalScript_signatures ctx sigs [CScript.multisig sigs.length keys] (by simp; omega) sizes
  have hashed := evalScript_payToScriptHash size (by simp; omega : (sigs.reverse ++ [[]]).length < 999)
  have accepted := acceptedStack_eq pushed hashed
  have pushOnly := CScript.isPushOnly_pushAll fun vch member => (sizes vch member).trans_lt (by omega)
  have evaluated := @evalScript_multisig ctx keys sigs [] pos few short signed
  rw [verifyScript, redeemScript, accepted]
  change ((if _ then _ else _ : Check (Option (CScript × List valtype))) >>= _) = _
  split_ifs
  · change ((ctx.evalScript (sigs.reverse ++ [[]]) (CScript.multisig sigs.length keys)).outcome >>= _) = _
    rw [evaluated]
    rfl
  · rfl

end ScriptContext

end BitCrystal
