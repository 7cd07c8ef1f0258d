import BitCrystal.Proofs.EvalScript

/-! # Accesses to the stack

An operation looks at its stack only after it has seen that the stack is deep enough. What is left to fail is
`return false` and a number that is too long.
-/

namespace BitCrystal

open Check

/-- A failure is a `return false` or the exception of `CastToBigNum`; no access is out of range. -/
def InRange {α : Type} (checked : Check α) : Prop :=
  ∀ failure, checked = .error failure → failure = .error "" ∨ failure = .throws "CastToBigNum() : overflow"

namespace InRange

variable {α β : Type}

theorem ok (value : α) : InRange (.ok value) := nofun

theorem returnFalse : InRange (returnFalse : Check α) := by
  rintro failure ⟨⟩
  exact Or.inl rfl

theorem bind {first : Check α} {next : α → Check β} (head : InRange first)
    (tail : ∀ value, first = .ok value → InRange (next value)) : InRange (first >>= next) := by
  intro failure failed
  rcases bind_eq_error.mp failed with failed | ⟨value, done, failed⟩
  · exact head failure failed
  · exact tail value done failure failed

theorem rejectIf (bad : Prop) [Decidable bad] : InRange (rejectIf bad (.error "")) := by
  unfold BitCrystal.rejectIf
  split
  · exact returnFalse
  · exact ok ()

theorem ite {c : Prop} [Decidable c] {first second : Check α} (yes : c → InRange first) (no : ¬ c → InRange second) :
    InRange (if c then first else second) := by
  split
  · exact yes ‹_›
  · exact no ‹_›

theorem castToBigNum (vch : valtype) : InRange (castToBigNum vch) := by
  unfold BitCrystal.castToBigNum
  refine ite (fun _ => ?_) fun _ => ok _
  rintro failure ⟨⟩
  exact Or.inr rfl

variable {stack : List valtype} {k n : ℕ}

theorem require (stack : List valtype) (n : ℕ) : InRange (require stack n) := rejectIf _

/-- A stack that is deep enough gives what is needed further on. -/
theorem requireThen {next : Unit → Check α} (tail : n ≤ stack.length → InRange (next ())) :
    InRange (BitCrystal.require stack n >>= next) :=
  bind (require stack n) fun _ deep => tail (require_eq_ok.mp deep)

theorem stacktop (positive : 0 < k) (deep : k ≤ stack.length) : InRange (stacktop stack k) := by
  have inside : k - 1 < stack.length := by omega
  rw [BitCrystal.stacktop, if_neg positive.ne', List.getElem?_eq_getElem inside]
  exact ok _

theorem topThen {next : valtype → Check α} (inside : 0 < k ∧ k ≤ stack.length) (tail : ∀ vch, InRange (next vch)) :
    InRange (BitCrystal.stacktop stack k >>= next) :=
  bind (stacktop inside.1 inside.2) fun vch _ => tail vch

theorem popstack (deep : 0 < stack.length) : InRange (popstack stack) := by
  cases stack with
  | nil => cases deep
  | cons vch stack => exact ok stack

variable {next : List valtype → Check α} {ctx : ScriptContext}

theorem popstackThen (deep : 0 < stack.length)
    (tail : ∀ rest, rest.length + 1 = stack.length → InRange (next rest)) : InRange (BitCrystal.popstack stack >>= next) := by
  cases stack with
  | nil => cases deep
  | cons vch stack => exact tail stack rfl

theorem popstacks (deep : n ≤ stack.length) : InRange (popstacks n stack) := by
  induction n generalizing stack with
  | zero => exact ok stack
  | succ n ih => exact popstackThen (by omega) fun rest length => ih (by omega)

theorem eraseTop (positive : 0 < k) (deep : k ≤ stack.length) : InRange (eraseTop stack k) := by
  rw [BitCrystal.eraseTop, if_neg (by omega)]
  exact ok _

theorem stackSlice (deep : k + n ≤ stack.length + 1) : InRange (stackSlice stack k n) := by
  rw [BitCrystal.stackSlice, if_neg (by omega)]
  exact ok _

theorem answer (verify fValue : Bool) (stack : List valtype) : InRange (answer verify fValue stack) := by
  unfold BitCrystal.answer
  refine ite (fun _ => ite (fun _ => ok _) fun _ => returnFalse) fun _ => ok _

theorem swapTop {i j : ℕ} (first : 0 < i ∧ i ≤ stack.length) (second : 0 < j ∧ j ≤ stack.length) :
    InRange (swapTop stack i j) :=
  bind (stacktop first.1 first.2) fun _ _ => bind (stacktop second.1 second.2) fun _ _ => ok _

theorem swapTopThen {i j : ℕ} (first : 0 < i ∧ i ≤ stack.length)
    (second : 0 < j ∧ j ≤ stack.length) (tail : ∀ after, after.length = stack.length → InRange (next after)) :
    InRange (BitCrystal.swapTop stack i j >>= next) := by
  refine bind (swapTop first second) fun after swapped => tail after ?_
  simp only [BitCrystal.swapTop, bind_eq_ok, pure_eq_ok] at swapped
  obtain ⟨_, _, _, _, rfl⟩ := swapped
  rw [List.length_set, List.length_set]

theorem eraseTopThen (positive : 0 < k) (deep : k ≤ stack.length)
    (tail : ∀ after, after.length + 1 = stack.length → InRange (next after)) :
    InRange (BitCrystal.eraseTop stack k >>= next) := by
  rw [BitCrystal.eraseTop, if_neg (by omega)]
  apply tail
  rw [List.length_eraseIdx_of_lt (by omega)]
  omega

/-- The element that `OP_PICK` and `OP_ROLL` look up is there. -/
private theorem picked {m : ℤ} {size : ℕ} {failure : Failure} {done : Unit}
    (inside : BitCrystal.rejectIf (m < 0 ∨ (size : ℤ) ≤ m) failure = .ok done) : m.toNat + 1 ≤ size := by
  have inside := not_or.mp (rejectIf_eq_ok.mp inside)
  omega

theorem stackOp (opcode : UInt8) (stack : List valtype) : InRange (stackOp opcode stack) := by
  unfold BitCrystal.stackOp
  split
  · exact requireThen fun deep => popstackThen (by omega) fun rest length => popstack (by omega)
  · exact requireThen fun deep => topThen (by omega) fun _ => topThen (by omega) fun _ => ok _
  · exact requireThen fun deep => topThen (by omega) fun _ =>
      topThen (by omega) fun _ => topThen (by omega) fun _ => ok _
  · exact requireThen fun deep => topThen (by omega) fun _ => topThen (by omega) fun _ => ok _
  · exact requireThen fun deep => topThen (by omega) fun _ =>
      topThen (by omega) fun _ => eraseTopThen (by omega) deep fun after length =>
        bind (eraseTop (by omega) (by omega)) fun _ _ => ok _
  · exact requireThen fun deep => swapTopThen ⟨by omega, deep⟩ ⟨by omega, by omega⟩ fun after length =>
      swapTop ⟨by omega, by omega⟩ ⟨by omega, by omega⟩
  · exact requireThen fun deep => topThen (by omega) fun _ => ok _
  · exact ok _
  · exact requireThen fun deep => popstack deep
  · exact requireThen fun deep => topThen (by omega) fun _ => ok _
  · exact requireThen fun deep => eraseTop (by omega) deep
  · exact requireThen fun deep => topThen (by omega) fun _ => ok _
  · exact requireThen fun deep => topThen (by omega) fun vch =>
      bind (castToBigNum vch) fun _ _ => popstackThen (by omega) fun rest length => bind (rejectIf _) fun _ inside =>
        topThen ⟨by omega, picked inside⟩ fun _ => ok _
  · exact requireThen fun deep => topThen (by omega) fun vch =>
      bind (castToBigNum vch) fun _ _ => popstackThen (by omega) fun rest length => bind (rejectIf _) fun _ inside =>
        topThen ⟨by omega, picked inside⟩ fun _ => bind (eraseTop (by omega) (picked inside)) fun _ _ => ok _
  · exact requireThen fun deep => swapTopThen ⟨by omega, deep⟩ ⟨by omega, by omega⟩ fun after length =>
      swapTop ⟨by omega, by omega⟩ ⟨by omega, by omega⟩
  · exact requireThen fun deep => swapTop ⟨by omega, deep⟩ ⟨by omega, by omega⟩
  · exact requireThen fun deep => topThen (by omega) fun _ => ok _
  · exact requireThen fun deep => topThen (by omega) fun _ => ok _
  iterate 2
    exact requireThen fun deep => topThen (by omega) fun _ =>
      topThen (by omega) fun _ => popstackThen (by omega) fun rest length =>
        popstackThen (by omega) fun rest length => answer _ _ _
  · exact returnFalse

/-- The operations on numbers are the ones that have a result. -/
theorem unaryOp {opcode : UInt8} (known : (unary opcode 0).isSome) (stack : List valtype) :
    InRange (unaryOp opcode stack) := by
  refine requireThen fun deep => topThen (by omega) fun vch => bind (castToBigNum vch) fun bn _ =>
    bind ?_ fun _ _ => popstackThen (by omega) fun _ _ => ok _
  obtain ⟨result, computed⟩ : ∃ result, unary opcode bn = some result := by
    revert known
    unfold unary
    split <;> simp
  rw [computed]
  exact ok result

theorem binaryOp {opcode : UInt8} (known : (binary opcode 0 0).isSome) (stack : List valtype) :
    InRange (binaryOp opcode stack) := by
  refine requireThen fun deep => topThen (by omega) fun vch1 => bind (castToBigNum vch1) fun bn1 _ =>
    topThen (by omega) fun vch2 => bind (castToBigNum vch2) fun bn2 _ => bind ?_ fun _ _ =>
      popstackThen (by omega) fun _ _ => popstackThen (by omega) fun _ _ =>
        ite (fun _ => ite (fun _ => ok _) fun _ => returnFalse) fun _ => ok _
  obtain ⟨result, computed⟩ : ∃ result, binary opcode bn1 bn2 = some result := by
    revert known
    unfold binary
    split <;> simp
  rw [computed]
  exact ok result

theorem withinOp (stack : List valtype) : InRange (withinOp stack) :=
  requireThen fun deep => topThen (by omega) fun vch1 => bind (castToBigNum vch1) fun _ _ =>
    topThen (by omega) fun vch2 => bind (castToBigNum vch2) fun _ _ =>
      topThen (by omega) fun vch3 => bind (castToBigNum vch3) fun _ _ =>
        popstackThen (by omega) fun _ _ => popstackThen (by omega) fun _ _ => popstackThen (by omega) fun _ _ =>
          answer _ _ _

theorem digestOp (digest : valtype → valtype) (stack : List valtype) : InRange (digestOp digest stack) :=
  requireThen fun deep => topThen (by omega) fun _ => bind (popstack deep) fun _ _ => ok _

theorem controlOp (opcode : UInt8) (state : ScriptState) : InRange (controlOp opcode state) := by
  unfold BitCrystal.controlOp
  split
  iterate 2
    exact ite (fun _ => requireThen fun deep => topThen (by omega) fun _ => bind (popstack deep) fun _ _ =>
      ok _) fun _ => ok _
  iterate 2
    split
    · exact returnFalse
    · exact ok _
  · exact requireThen fun deep => topThen (by omega) fun _ =>
      ite (fun _ => bind (popstack deep) fun _ _ => ok _) fun _ => returnFalse
  · exact returnFalse
  · exact returnFalse

theorem altstackOp (opcode : UInt8) (state : ScriptState) : InRange (altstackOp opcode state) := by
  unfold BitCrystal.altstackOp
  split
  · exact requireThen fun deep => topThen (by omega) fun _ => bind (popstack deep) fun _ _ => ok _
  · exact requireThen fun deep => topThen (by omega) fun _ => bind (popstack deep) fun _ _ => ok _
  · exact returnFalse

theorem freeOp (opcode : UInt8) (next : CScript) (state : ScriptState) : InRange (ctx.freeOp opcode next state) := by
  unfold ScriptContext.freeOp
  refine ite (fun _ => ok _) fun _ => ite (fun _ => ok _) fun _ => ite (fun _ => controlOp opcode state) fun _ =>
    ite (fun _ => altstackOp opcode state) fun _ => ite (fun known => bind (unaryOp known _) fun _ _ => ok _) fun _ =>
      ite (fun known => bind (binaryOp known _) fun _ _ => ok _) fun _ =>
        ite (fun _ => bind (withinOp _) fun _ _ => ok _) fun _ => ite (fun _ => ok _) fun _ => ?_
  split
  · exact bind (digestOp _ _) fun _ _ => ok _
  · exact bind (stackOp opcode _) fun _ _ => ok _

/-- A metered computation is judged by its outcome. -/
theorem bindOutcome {first : Metered Failure α} {next : α → Metered Failure β} (head : InRange first.outcome)
    (tail : ∀ value, first.outcome = .ok value → InRange (next value).outcome) : InRange (first >>= next).outcome := by
  change InRange (Metered.bind first next).outcome
  unfold Metered.bind
  split
  next failed =>
    rintro failure ⟨⟩
    exact head _ failed
  next done => exact tail _ done

theorem checkSig (vchSig vchPubKey : valtype) (scriptCode : CScript) :
    InRange (ctx.checkSig vchSig vchPubKey scriptCode).outcome := by
  unfold ScriptContext.checkSig
  split <;> exact ok _

theorem checkSigOp (verify : Bool) (state : ScriptState) : InRange (ctx.checkSigOp verify state).outcome := by
  refine bindOutcome (requireThen fun deep => topThen (by omega) fun _ =>
    topThen (by omega) fun _ => ok _) fun _ read => bindOutcome (checkSig _ _ _) fun _ _ => ?_
  obtain ⟨_, deep, _⟩ := bind_eq_ok.mp read
  have deep := require_eq_ok.mp deep
  exact popstackThen (by omega) fun _ _ => popstackThen (by omega) fun _ _ => bind (answer _ _ _) fun _ _ => ok _

theorem multisigLoop {scriptCode : CScript} {vchPubKeys vchSigs : List valtype} :
    InRange (ctx.multisigLoop scriptCode vchPubKeys vchSigs).outcome := by
  induction vchPubKeys generalizing vchSigs with
  | nil => exact ok _
  | cons vchPubKey vchPubKeys ih =>
    cases vchSigs with
    | nil => exact ok _
    | cons vchSig vchSigs =>
      refine bindOutcome (checkSig _ _ _) fun fOk _ => ?_
      generalize (if fOk = true then vchSigs else vchSig :: vchSigs) = rest
      dsimp only
      split
      · exact ok _
      · exact ih

theorem multisigNumbers (stack : List valtype) (nOpCount : ℕ) : InRange (multisigNumbers stack nOpCount) :=
  requireThen fun deep => topThen (by omega) fun vch => bind (castToBigNum vch) fun _ _ =>
    bind (rejectIf _) fun _ _ => bind (rejectIf _) fun _ _ => requireThen fun deep =>
      topThen (by omega) fun vch => bind (castToBigNum vch) fun _ _ => bind (rejectIf _) fun _ _ =>
        requireThen fun _ => ok _

end InRange

/-! ## Keys and signatures -/

variable {stack : List valtype} {k : ℕ}

/-- The stack holds the keys and signatures that are counted, and one element more. -/
theorem multisigNumbers_eq_ok {nOpCount nKeysCount nSigsCount : ℕ}
    (counted : multisigNumbers stack nOpCount = .ok (nKeysCount, nSigsCount)) :
    nKeysCount ≤ 20 ∧ nSigsCount ≤ nKeysCount ∧ nOpCount + nKeysCount ≤ 201 ∧
      2 + nKeysCount + 1 + nSigsCount ≤ stack.length := by
  simp only [multisigNumbers, bind_eq_ok, require_eq_ok, rejectIf_eq_ok, pure_eq_ok,
    Prod.mk.injEq] at counted
  obtain ⟨_, _, _, _, bn, _, _, keys, _, count, _, _, _, _, _, _, _, sigs, _, deep, rfl, rfl⟩ := counted
  omega

theorem multisigArguments_slices (stack : List valtype) (nOpCount : ℕ) :
    multisigArguments stack nOpCount = do
      let (nKeysCount, nSigsCount) ← multisigNumbers stack nOpCount
      return (← stackSlice stack 2 nKeysCount, ← stackSlice stack (2 + nKeysCount + 1) nSigsCount,
        2 + nKeysCount + 1 + nSigsCount) := by
  simp only [multisigArguments, multisigNumbers, bind_assoc, pure_bind]

/-- The elements of the stack from one index on. -/
private def slice (stack : List valtype) (k n : ℕ) : List valtype := (stack.drop (k - 1)).take n

private theorem slice_succ (positive : 0 < k) (deep : k ≤ stack.length) :
    ∃ vch, stacktop stack k = .ok vch ∧ ∀ n, slice stack k (n + 1) = vch :: slice stack (k + 1) n := by
  have inside : k - 1 < stack.length := by omega
  refine ⟨stack[k - 1], stacktop_eq_ok.mpr ⟨positive, List.getElem?_eq_getElem inside⟩, fun n => ?_⟩
  rw [slice, slice, List.drop_eq_getElem_cons inside, List.take_succ_cons, Nat.sub_add_cancel positive,
    Nat.add_sub_cancel]

theorem dropSignatures_eq {n : ℕ} {scriptCode : CScript} (positive : 0 < k) (deep : k + n ≤ stack.length + 1) :
    dropSignatures stack n k scriptCode = .ok ((slice stack k n).foldl
      (fun scriptCode vchSig => scriptCode.findAndDelete (CScript.pushData vchSig)) scriptCode) := by
  induction n generalizing k scriptCode with
  | zero => rw [dropSignatures, slice, List.take_zero, List.foldl_nil]
  | succ n ih =>
    obtain ⟨vchSig, read, succ⟩ := slice_succ positive (by omega : k ≤ stack.length)
    rw [dropSignatures, read, ok_bind, succ, List.foldl_cons]
    exact ih (Nat.succ_pos k) (by omega)

private theorem length_slice {n : ℕ} (positive : 0 < k) (deep : k + n ≤ stack.length + 1) :
    (slice stack k n).length = n := by
  rw [slice, List.length_take, List.length_drop]
  omega

namespace ScriptContext

variable {ctx : ScriptContext}

/-- The indices run over the keys and the signatures, and no index leaves them. -/
theorem checkMultisigLoop_eq {stack : List valtype} {scriptCode : CScript} {rounds nKeysCount nSigsCount ikey isig : ℕ}
    (few : nSigsCount ≤ nKeysCount) (enough : nKeysCount < rounds) (first : 0 < ikey ∧ 0 < isig)
    (keys : ikey + nKeysCount ≤ stack.length + 1) (sigs : isig + nSigsCount ≤ stack.length + 1) :
    ctx.checkMultisigLoop stack scriptCode rounds nKeysCount nSigsCount ikey isig =
      ctx.multisigLoop scriptCode (slice stack ikey nKeysCount) (slice stack isig nSigsCount) := by
  induction rounds generalizing nKeysCount nSigsCount ikey isig with
  | zero => omega
  | succ rounds ih =>
    cases nSigsCount with
    | zero =>
      rw [checkMultisigLoop, if_pos (Nat.cast_nonpos.mpr rfl)]
      cases slice stack ikey nKeysCount <;> rfl
    | succ nSigsCount =>
      obtain ⟨nKeysCount, rfl⟩ : ∃ left, nKeysCount = left + 1 := ⟨nKeysCount - 1, by omega⟩
      obtain ⟨vchSig, readSig, sigSlice⟩ := slice_succ first.2 (by omega : isig ≤ stack.length)
      obtain ⟨vchPubKey, readKey, keySlice⟩ := slice_succ first.1 (by omega : ikey ≤ stack.length)
      have positive : ¬ ((nSigsCount + 1 : ℕ) : ℤ) ≤ 0 := by omega
      rw [checkMultisigLoop, if_neg positive, readSig, Metered.free_ok_bind, readKey, Metered.free_ok_bind, sigSlice,
        keySlice, multisigLoop]
      apply Metered.bind_congr
      intro fOk _
      have keysLeft : (slice stack (ikey + 1) nKeysCount).length = nKeysCount :=
        length_slice (Nat.succ_pos ikey) (by omega)
      have sigsLeft : (slice stack (isig + 1) nSigsCount).length = nSigsCount :=
        length_slice (Nat.succ_pos isig) (by omega)
      have oneKey : ((nKeysCount + 1 : ℕ) : ℤ) - 1 = nKeysCount := by omega
      have oneSig : ((nSigsCount + 1 : ℕ) : ℤ) - 1 = nSigsCount := by omega
      cases fOk with
      | false =>
        simp only [Bool.false_eq_true, if_false, List.length_cons, keysLeft, sigsLeft, oneKey, Nat.cast_lt]
        split
        · rfl
        next left =>
          rw [← sigSlice]
          exact ih (by omega) (by omega) ⟨Nat.succ_pos ikey, first.2⟩ (by omega) sigs
      | true =>
        simp only [if_true, keysLeft, sigsLeft, oneKey, oneSig, Nat.cast_lt]
        split
        · rfl
        next left => exact ih (by omega) (by omega) ⟨Nat.succ_pos ikey, Nat.succ_pos isig⟩ (by omega) (by omega)

/-- Reading by indices is reading the two slices first. -/
theorem checkMultisigOp_eq (verify : Bool) (state : ScriptState) :
    ctx.checkMultisigOp verify state = ctx.multisigOp verify state := by
  rw [checkMultisigOp, multisigOp, multisigArguments_slices]
  cases counted : multisigNumbers state.stack state.nOpCount with
  | error failure => rfl
  | ok counts =>
    obtain ⟨nKeysCount, nSigsCount⟩ := counts
    obtain ⟨-, few, -, deep⟩ := multisigNumbers_eq_ok counted
    have keys : stackSlice state.stack 2 nKeysCount = .ok (slice state.stack 2 nKeysCount) :=
      stackSlice_eq_ok.mpr ⟨by omega, rfl⟩
    have sigs : stackSlice state.stack (2 + nKeysCount + 1) nSigsCount =
        .ok (slice state.stack (2 + nKeysCount + 1) nSigsCount) := stackSlice_eq_ok.mpr ⟨by omega, rfl⟩
    have length := length_slice (by omega : 0 < 2) (by omega : 2 + nKeysCount ≤ state.stack.length + 1)
    simp only [ok_bind, keys, sigs, Metered.free_ok_bind, pure, Except.pure,
      dropSignatures_eq (by omega : 0 < 2 + nKeysCount + 1)
        (by omega : 2 + nKeysCount + 1 + nSigsCount ≤ state.stack.length + 1), length]
    rw [checkMultisigLoop_eq few (Nat.lt_succ_self nKeysCount) ⟨by omega, by omega⟩ (by omega) (by omega)]

end ScriptContext

theorem multisigArguments_eq_ok {vchPubKeys vchSigs : List valtype} {nOpCount i : ℕ}
    (arguments : multisigArguments stack nOpCount = .ok (vchPubKeys, vchSigs, i)) :
    multisigNumbers stack nOpCount = .ok (vchPubKeys.length, vchSigs.length) ∧ i ≤ stack.length := by
  rw [multisigArguments_slices] at arguments
  obtain ⟨⟨nKeysCount, nSigsCount⟩, counted, arguments⟩ := bind_eq_ok.mp arguments
  obtain ⟨-, few, -, deep⟩ := multisigNumbers_eq_ok counted
  simp only [bind_eq_ok, stackSlice_eq_ok, pure_eq_ok, Prod.mk.injEq] at arguments
  obtain ⟨_, ⟨_, rfl⟩, _, ⟨_, rfl⟩, rfl, rfl, rfl⟩ := arguments
  refine ⟨?_, deep⟩
  rw [List.length_take, List.length_drop, List.length_take, List.length_drop, counted, min_eq_left (by omega),
    min_eq_left (by omega)]

namespace InRange

theorem multisigArguments (stack : List valtype) (nOpCount : ℕ) : InRange (multisigArguments stack nOpCount) := by
  rw [multisigArguments_slices]
  refine bind (multisigNumbers _ _) fun counts counted => ?_
  obtain ⟨-, few, -, deep⟩ := multisigNumbers_eq_ok counted
  exact bind (stackSlice (by omega)) fun _ _ => bind (stackSlice (by omega)) fun _ _ => ok _

variable {ctx : ScriptContext}

theorem multisigOp (verify : Bool) (state : ScriptState) : InRange (ctx.multisigOp verify state).outcome := by
  refine bindOutcome (multisigArguments _ _) fun ⟨vchPubKeys, vchSigs, i⟩ arguments =>
    bindOutcome multisigLoop fun fSuccess _ => ?_
  exact bind (popstacks (multisigArguments_eq_ok arguments).2) fun _ _ => bind (answer _ _ _) fun _ _ => ok _

theorem executeOp (opcode : UInt8) (vchPushValue : valtype) (next : CScript) (state : ScriptState) :
    InRange (ctx.executeOp opcode vchPushValue next state).outcome := by
  unfold ScriptContext.executeOp
  split
  · exact ok _
  split
  · unfold ScriptContext.evalOp
    split
    · exact checkSigOp _ _
    split
    · exact multisigOp _ _
    · exact freeOp _ _ _
  · exact ok _

theorem evalStep (pc : CScript) (state : ScriptState) : InRange (ctx.evalStep pc state).outcome := by
  have read : InRange (assertSome (.error "") pc.getOp) := by
    rintro failure failed
    exact Or.inl (assertSome_eq_error.mp failed).2.symm
  refine bindOutcome read fun ⟨opcode, vchPushValue, next⟩ _ => bindOutcome ?_ fun _ _ =>
    bindOutcome (executeOp _ _ _ _) fun _ _ => bindOutcome (rejectIf _) fun _ _ => ok _
  exact bind (rejectIf _) fun _ _ => bind (rejectIf _) fun _ _ => bind (rejectIf _) fun _ _ => ok _

theorem evalLoop (rounds : ℕ) (pc : CScript) (state : ScriptState) : InRange (ctx.evalLoop rounds pc state).outcome := by
  induction rounds generalizing pc state with
  | zero => exact ok _
  | succ rounds ih =>
    unfold ScriptContext.evalLoop
    split
    · exact ok _
    · exact bindOutcome (evalStep pc state) fun step _ => ih _ _

theorem evalScript (stack : List valtype) (script : CScript) : InRange (ctx.evalScript stack script).outcome :=
  bindOutcome (rejectIf _) fun _ _ => bindOutcome (evalLoop _ _ _) fun _ _ => bindOutcome (rejectIf _) fun _ _ => ok _

end InRange

namespace ScriptContext

variable {ctx : ScriptContext} {state after : ScriptState} {opcode : UInt8}

private theorem controlOp_nOpCount (done : controlOp opcode state = .ok after) : after.nOpCount = state.nOpCount := by
  revert done
  unfold controlOp
  split
  iterate 2
    split
    · simp only [bind_eq_ok, pure_eq_ok]
      rintro ⟨_, _, _, _, _, _, rfl⟩
      rfl
    · rintro ⟨⟩
      rfl
  iterate 2
    split
    · rintro ⟨⟩
    · rintro ⟨⟩
      rfl
  · simp only [bind_eq_ok]
    rintro ⟨_, _, _, _, taken⟩
    split at taken
    · obtain ⟨_, _, popped⟩ := bind_eq_ok.mp taken
      cases popped
      rfl
    · cases taken
  · rintro ⟨⟩
  · rintro ⟨⟩

private theorem altstackOp_nOpCount (done : altstackOp opcode state = .ok after) :
    after.nOpCount = state.nOpCount := by
  revert done
  unfold altstackOp
  split
  iterate 2
    simp only [bind_eq_ok, pure_eq_ok]
    rintro ⟨_, _, _, _, _, _, rfl⟩
    rfl
  · rintro ⟨⟩

theorem freeOp_nOpCount {next : CScript} (done : ctx.freeOp opcode next state = .ok after) :
    after.nOpCount = state.nOpCount := by
  have onStack {changed : Check (List valtype)}
      (done : (do return { state with stack := ← changed } : Check ScriptState) = .ok after) :
      after.nOpCount = state.nOpCount := by
    obtain ⟨_, _, changed⟩ := bind_eq_ok.mp done
    cases changed
    rfl
  unfold freeOp at done
  split at done
  · cases done
    rfl
  split at done
  · cases done
    rfl
  split at done
  · exact controlOp_nOpCount done
  split at done
  · exact altstackOp_nOpCount done
  split at done
  · exact onStack done
  split at done
  · exact onStack done
  split at done
  · exact onStack done
  split at done
  · cases done
    rfl
  split at done
  · exact onStack done
  · exact onStack done

end ScriptContext

end BitCrystal
