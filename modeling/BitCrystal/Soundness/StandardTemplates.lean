import BitCrystal.Proofs.Templates

/-! # The standard scripts

`Solver` recognises exactly the four standard forms and returns the data they push. A script in the form of a multisig
script with wrong numbers is rejected after the result has been written, so its caller sees `TX_MULTISIG` and the keys.
-/

namespace BitCrystal

open txnouttype

/-- A standard script and the data it carries. -/
inductive StandardScript : txnouttype → CScript → List (List UInt8) → Prop
  | pubKey {key : List UInt8} {push : CScript} (pushed : PushOf key push) (size : isPubKeySize key) :
      StandardScript TX_PUBKEY (push ++ [OP_CHECKSIG]) [key]
  | pubKeyHash {hash : List UInt8} {push : CScript} (pushed : PushOf hash push) (size : hash.length = 20) :
      StandardScript TX_PUBKEYHASH (OP_DUP :: OP_HASH160 :: (push ++ [OP_EQUALVERIFY, OP_CHECKSIG])) [hash]
  | scriptHash {hash : List UInt8} (size : hash.length = 20) :
      StandardScript TX_SCRIPTHASH (OP_HASH160 :: 0x14 :: (hash ++ [OP_EQUAL])) [hash]
  | multisig {m n : ℕ} {keys : List (List UInt8)} {pushes : CScript} (least : 1 ≤ m) (enough : m ≤ n) (few : n ≤ 16)
      (count : keys.length = n) (pushed : KeyPushes keys pushes) :
      StandardScript TX_MULTISIG (opN m :: (pushes ++ [opN n, OP_CHECKMULTISIG]))
        ([UInt8.ofNat m] :: (keys ++ [[UInt8.ofNat n]]))

/-- The form of a multisig script, with numbers that do not fit its keys. -/
def Miscounted (script : CScript) : Prop :=
  ∃ m n keys pushes, m ≤ 16 ∧ n ≤ 16 ∧ KeyPushes keys pushes ∧ script = opN m :: (pushes ++ [opN n, OP_CHECKMULTISIG]) ∧
    ¬ (1 ≤ m ∧ m ≤ n ∧ keys.length = n)

section Templates

variable {script : CScript} {vSolutions : List (List UInt8)}

theorem template_pubKey : matchLoop (script.length + 1) script [OP_PUBKEY, OP_CHECKSIG] [] = some vSolutions ↔
    ∃ key push, PushOf key push ∧ isPubKeySize key ∧ script = push ++ [OP_CHECKSIG] ∧ vSolutions = [key] := by
  simp only [matchLoop_pubKey, matchLoop_literal (by decide : Literal OP_CHECKSIG), matchLoop_nil]
  constructor
  · rintro ⟨_, key, push, _, -, pushed, size, rfl, _, _, -, rfl, -, rfl, rfl⟩
    exact ⟨key, push, pushed, size, rfl, rfl⟩
  · rintro ⟨key, push, pushed, size, rfl, rfl⟩
    obtain ⟨_, -, operation⟩ := pushed
    obtain ⟨operand, rfl⟩ := operation.head_eq
    refine ⟨_, key, _, _, rfl, operation.pushOf ?_, size, rfl, operand.length + 1, [], ?_, rfl, by omega, rfl, rfl⟩
    · rintro rfl
      exact absurd size (by decide)
    · simp

theorem template_pubKeyHash :
    matchLoop (script.length + 1) script [OP_DUP, OP_HASH160, OP_PUBKEYHASH, OP_EQUALVERIFY, OP_CHECKSIG] [] =
      some vSolutions ↔ ∃ hash push, PushOf hash push ∧ hash.length = 20 ∧
        script = OP_DUP :: OP_HASH160 :: (push ++ [OP_EQUALVERIFY, OP_CHECKSIG]) ∧ vSolutions = [hash] := by
  simp only [matchLoop_pubKeyHash, matchLoop_literal (by decide : Literal OP_CHECKSIG),
    matchLoop_literal (by decide : Literal OP_DUP), matchLoop_literal (by decide : Literal OP_HASH160),
    matchLoop_literal (by decide : Literal OP_EQUALVERIFY), matchLoop_nil]
  constructor
  · rintro ⟨_, _, -, rfl, _, _, -, rfl, _, hash, push, _, -, pushed, size, rfl, _, _, -, rfl, _, _, -, rfl, -, rfl, rfl⟩
    exact ⟨hash, push, pushed, size, rfl, rfl⟩
  · rintro ⟨hash, push, pushed, size, rfl, rfl⟩
    obtain ⟨_, -, operation⟩ := pushed
    obtain ⟨operand, rfl⟩ := operation.head_eq
    refine ⟨operand.length + 5, _, by simp, rfl, operand.length + 4, _, rfl, rfl, operand.length + 3, hash, _, _, rfl,
      operation.pushOf ?_, size, rfl, operand.length + 2, _, rfl, rfl, operand.length + 1, _, rfl, rfl, by omega, rfl, rfl⟩
    rintro rfl
    exact absurd size (by decide)

theorem template_multisig :
    matchLoop (script.length + 1) script [OP_SMALLINTEGER, OP_PUBKEYS, OP_SMALLINTEGER, OP_CHECKMULTISIG] [] =
      some vSolutions ↔ ∃ m n keys pushes, m ≤ 16 ∧ n ≤ 16 ∧ KeyPushes keys pushes ∧
        script = opN m :: (pushes ++ [opN n, OP_CHECKMULTISIG]) ∧
        vSolutions = [UInt8.ofNat m] :: (keys ++ [[UInt8.ofNat n]]) := by
  rw [matchLoop_smallInteger]
  simp only [matchLoop_pubKeys_iff, matchLoop_literal (by decide : Literal OP_CHECKMULTISIG), matchLoop_nil]
  constructor
  · rintro ⟨_, m, _, -, few, rfl, _, keys, pushes, n, _, -, pushed, few', rfl, _, _, -, rfl, -, rfl, rfl⟩
    exact ⟨m, n, keys, pushes, few, few', pushed, rfl, rfl⟩
  · rintro ⟨m, n, keys, pushes, few, few', pushed, rfl, rfl⟩
    exact ⟨pushes.length + 3, m, _, by simp, few, rfl, pushes.length + 2, keys, pushes, n, _, rfl, pushed, few', rfl,
      pushes.length + 1, _, rfl, rfl, by omega, rfl, rfl⟩

theorem multisigCounts_iff {m n : ℕ} {keys : List (List UInt8)} (few : m ≤ 16) (few' : n ≤ 16) :
    multisigCounts ([UInt8.ofNat m] :: (keys ++ [[UInt8.ofNat n]])) = true ↔ 1 ≤ m ∧ m ≤ n ∧ keys.length = n := by
  have last : ([UInt8.ofNat m] :: (keys ++ [[UInt8.ofNat n]])).getLastD [] = [UInt8.ofNat n] := by
    rw [List.getLastD_eq_getLast?, ← List.cons_append, List.getLast?_append]
    rfl
  have length : ([UInt8.ofNat m] :: (keys ++ [[UInt8.ofNat n]])).length - 2 = keys.length := by simp
  have numeral : ∀ n < 17, (UInt8.ofNat n).toNat = n := by decide
  simp only [multisigCounts, last, length, decide_not, Bool.not_eq_true', decide_eq_false_iff_not]
  simp only [List.headD_cons, UInt8.lt_iff_toNat_lt, numeral m (by omega), numeral n (by omega), UInt8.toNat_one]
  omega

theorem isPayToScriptHash_iff :
    script.isPayToScriptHash = true ↔ ∃ hash, hash.length = 20 ∧ script = OP_HASH160 :: 0x14 :: (hash ++ [OP_EQUAL]) := by
  simp only [CScript.isPayToScriptHash, decide_eq_true_eq]
  constructor
  · rintro ⟨size, first, second, last⟩
    obtain ⟨a, b, tail, rfl⟩ : ∃ a b tail, script = a :: b :: tail := by
      match script, size with
      | a :: b :: tail, _ => exact ⟨a, b, tail, rfl⟩
    obtain rfl := Option.some.inj first
    obtain rfl := Option.some.inj second
    have size : tail.length = 21 := by simpa using size
    have last : tail[20]? = some OP_EQUAL := last
    obtain ⟨inside, same⟩ := List.getElem?_eq_some_iff.mp last
    refine ⟨tail.take 20, by rw [List.length_take]; omega, ?_⟩
    have behind : tail.drop 20 = [OP_EQUAL] := by
      rw [List.drop_eq_getElem_cons inside, same, List.drop_eq_nil_of_le (by omega)]
    rw [← behind, List.take_append_drop]
  · rintro ⟨hash, size, rfl⟩
    refine ⟨by simp [size], rfl, rfl, ?_⟩
    have last : (hash ++ [OP_EQUAL])[20]? = some OP_EQUAL := by rw [← size, List.getElem?_concat_length]
    exact last

end Templates

section Order

variable {script : CScript} {type : txnouttype} {vSolutions : List (List UInt8)}

/-- The templates one after the other. -/
theorem solver_eq (script : CScript) : solver script =
    if script.isPayToScriptHash then ⟨true, TX_SCRIPTHASH, [(script.drop 2).take 20]⟩
    else match matchLoop (script.length + 1) script [OP_PUBKEY, OP_CHECKSIG] [] with
      | none =>
        match matchLoop (script.length + 1) script [OP_DUP, OP_HASH160, OP_PUBKEYHASH, OP_EQUALVERIFY, OP_CHECKSIG] [] with
        | none =>
          match matchLoop (script.length + 1) script [OP_SMALLINTEGER, OP_PUBKEYS, OP_SMALLINTEGER, OP_CHECKMULTISIG] [] with
          | none => ⟨false, TX_NONSTANDARD, []⟩
          | some vSolutions => ⟨multisigCounts vSolutions, TX_MULTISIG, vSolutions⟩
        | some vSolutions => ⟨true, TX_PUBKEYHASH, vSolutions⟩
      | some vSolutions => ⟨true, TX_PUBKEY, vSolutions⟩ := by
  cases first : matchLoop (script.length + 1) script [OP_PUBKEY, OP_CHECKSIG] [] with
  | some vSolutions => simp only [solver, mTemplates, scanTemplates, first, reduceCtorEq, if_false]
  | none =>
    cases second : matchLoop (script.length + 1) script
        [OP_DUP, OP_HASH160, OP_PUBKEYHASH, OP_EQUALVERIFY, OP_CHECKSIG] [] with
    | some vSolutions => simp only [solver, mTemplates, scanTemplates, first, second, reduceCtorEq, if_false]
    | none =>
      cases third : matchLoop (script.length + 1) script
          [OP_SMALLINTEGER, OP_PUBKEYS, OP_SMALLINTEGER, OP_CHECKMULTISIG] [] with
      | some vSolutions => simp only [solver, mTemplates, scanTemplates, first, second, third, if_true]
      | none => simp only [solver, mTemplates, scanTemplates, first, second, third]

variable {opcode : UInt8} {rest : CScript}

private theorem pubKey_eq_none (other : opcode = OP_0 ∨ OP_PUSHDATA4 < opcode) :
    matchLoop ((opcode :: rest).length + 1) (opcode :: rest) [OP_PUBKEY, OP_CHECKSIG] [] = none := by
  rw [Option.eq_none_iff_forall_ne_some]
  intro vSolutions matched
  obtain ⟨key, push, ⟨first, low, operation⟩, size, shape, -⟩ := template_pubKey.mp matched
  obtain ⟨operand, rfl⟩ := operation.head_eq
  obtain rfl : opcode = first := by
    rw [List.cons_append, List.cons.injEq] at shape
    exact shape.1
  rcases other with rfl | high
  · obtain ⟨rfl, -⟩ := operation.eq_of_zero
    exact absurd size (by decide)
  · exact absurd low (UInt8.not_le.mpr high)

private theorem pubKeyHash_eq_none (other : opcode ≠ OP_DUP) :
    matchLoop ((opcode :: rest).length + 1) (opcode :: rest)
      [OP_DUP, OP_HASH160, OP_PUBKEYHASH, OP_EQUALVERIFY, OP_CHECKSIG] [] = none := by
  rw [Option.eq_none_iff_forall_ne_some]
  intro vSolutions matched
  obtain ⟨hash, push, -, -, shape, -⟩ := template_pubKeyHash.mp matched
  exact other (List.cons.inj shape).1

private theorem isPayToScriptHash_eq_false (other : opcode ≠ OP_HASH160) :
    ¬ CScript.isPayToScriptHash (opcode :: rest) = true := by
  rw [isPayToScriptHash_iff]
  rintro ⟨hash, -, shape⟩
  exact other (List.cons.inj shape).1

private theorem opN_facts {m : ℕ} (few : m ≤ 16) :
    (opN m = OP_0 ∨ OP_PUSHDATA4 < opN m) ∧ opN m ≠ OP_DUP ∧ opN m ≠ OP_HASH160 := by
  have table : ∀ m < 17, (opN m = OP_0 ∨ OP_PUSHDATA4 < opN m) ∧ opN m ≠ OP_DUP ∧ opN m ≠ OP_HASH160 := by decide
  exact table m (by omega)

/-- A script in the form of a multisig script reaches the last template, and its numbers decide. -/
theorem solver_multisigForm {m n : ℕ} {keys : List (List UInt8)} {pushes : CScript} (few : m ≤ 16) (few' : n ≤ 16)
    (pushed : KeyPushes keys pushes) : solver (opN m :: (pushes ++ [opN n, OP_CHECKMULTISIG])) =
      ⟨decide (1 ≤ m ∧ m ≤ n ∧ keys.length = n), TX_MULTISIG, [UInt8.ofNat m] :: (keys ++ [[UInt8.ofNat n]])⟩ := by
  obtain ⟨number, notDup, notHash⟩ := opN_facts few
  rw [solver_eq, if_neg (isPayToScriptHash_eq_false notHash), pubKey_eq_none number, pubKeyHash_eq_none notDup,
    template_multisig.mpr ⟨m, n, keys, pushes, few, few', pushed, rfl, rfl⟩]
  dsimp only
  rw [Solution.mk.injEq, Bool.eq_iff_iff, multisigCounts_iff few few', decide_eq_true_eq]
  exact ⟨Iff.rfl, rfl, rfl⟩

/-- Standard scripts are recognised with the data they carry. -/
theorem solver_of_standard (standard : StandardScript type script vSolutions) :
    solver script = ⟨true, type, vSolutions⟩ := by
  cases standard with
  | @pubKey key push pushed size =>
    have matched := template_pubKey.mpr ⟨key, push, pushed, size, rfl, rfl⟩
    obtain ⟨opcode, low, operation⟩ := pushed
    obtain ⟨operand, rfl⟩ := operation.head_eq
    have notHash : opcode ≠ OP_HASH160 := by
      rintro rfl
      exact absurd low (by decide)
    rw [solver_eq, matched]
    exact if_neg (isPayToScriptHash_eq_false notHash)
  | @pubKeyHash hash push pushed size =>
    have matched := template_pubKeyHash.mpr ⟨hash, push, pushed, size, rfl, rfl⟩
    rw [solver_eq, if_neg (isPayToScriptHash_eq_false (by decide)), pubKey_eq_none (by decide), matched]
  | @scriptHash hash size =>
    rw [solver_eq, if_pos (isPayToScriptHash_iff.mpr ⟨hash, size, rfl⟩)]
    have whole : (hash ++ [OP_EQUAL]).take 20 = hash := by rw [← size, List.take_left]
    exact congrArg (fun hash => (⟨true, TX_SCRIPTHASH, [hash]⟩ : Solution)) whole
  | @multisig m n keys pushes least enough few count pushed =>
    rw [solver_multisigForm (enough.trans few) few pushed, decide_eq_true ⟨least, enough, count⟩]

/-- What `Solver` returns for a script of no form at all, and only for those. -/
theorem solver_cases (script : CScript) :
    (∃ type vSolutions, StandardScript type script vSolutions) ∨ Miscounted script ∨
      solver script = ⟨false, TX_NONSTANDARD, []⟩ := by
  rw [solver_eq]
  split
  next p2sh =>
    obtain ⟨hash, size, rfl⟩ := isPayToScriptHash_iff.mp p2sh
    exact .inl ⟨_, _, .scriptHash size⟩
  split
  · split
    · split
      · exact .inr (.inr rfl)
      next matched =>
        obtain ⟨m, n, keys, pushes, few, few', pushed, rfl, rfl⟩ := template_multisig.mp matched
        by_cases counts : 1 ≤ m ∧ m ≤ n ∧ keys.length = n
        · exact .inl ⟨_, _, .multisig counts.1 counts.2.1 few' counts.2.2 pushed⟩
        · exact .inr (.inl ⟨m, n, keys, pushes, few, few', pushed, rfl, counts⟩)
    next matched =>
      obtain ⟨hash, push, pushed, size, rfl, rfl⟩ := template_pubKeyHash.mp matched
      exact .inl ⟨_, _, .pubKeyHash pushed size⟩
  next matched =>
    obtain ⟨key, push, pushed, size, rfl, rfl⟩ := template_pubKey.mp matched
    exact .inl ⟨_, _, .pubKey pushed size⟩

theorem solver_of_miscounted (miscounted : Miscounted script) :
    (solver script).fSolved = false ∧ (solver script).typeRet = TX_MULTISIG ∧ (solver script).vSolutionsRet ≠ [] := by
  obtain ⟨m, n, keys, pushes, few, few', pushed, rfl, counts⟩ := miscounted
  rw [solver_multisigForm few few' pushed]
  exact ⟨decide_eq_false counts, rfl, nofun⟩

theorem solver_eq_true_iff : solver script = ⟨true, type, vSolutions⟩ ↔ StandardScript type script vSolutions := by
  refine ⟨?_, solver_of_standard⟩
  intro solved
  rcases solver_cases script with ⟨type', vSolutions', standard⟩ | miscounted | failed
  · obtain ⟨-, rfl, rfl⟩ := Solution.mk.inj (solved.symm.trans (solver_of_standard standard))
    exact standard
  · have failed := (solver_of_miscounted miscounted).1
    rw [solved] at failed
    cases failed
  · rw [solved] at failed
    cases failed

/-- Standard scripts are recognised exactly, and a failure leaves nothing behind except for wrong numbers. -/
theorem solver_law (script : CScript) :
    ((∀ type vSolutions, solver script = ⟨true, type, vSolutions⟩ ↔ StandardScript type script vSolutions) ∧
      ((solver script).fSolved = false →
        (solver script).typeRet = TX_NONSTANDARD ∧ (solver script).vSolutionsRet = [])) ↔
    ¬ Miscounted script := by
  constructor
  · rintro ⟨-, clean⟩ miscounted
    obtain ⟨failed, -, nonempty⟩ := solver_of_miscounted miscounted
    exact nonempty (clean failed).2
  · intro counted
    refine ⟨fun type vSolutions => solver_eq_true_iff, fun failed => ?_⟩
    rcases solver_cases script with ⟨type, vSolutions, standard⟩ | miscounted | plain
    · rw [solver_of_standard standard] at failed
      cases failed
    · exact absurd miscounted counted
    · rw [plain]
      exact ⟨rfl, rfl⟩

end Order

/-- Two of one key are required. -/
def twoOfOne : CScript := (OP_1 + 1) :: 33 :: (List.replicate 33 2 ++ [OP_1, OP_CHECKMULTISIG])

/-- `Solver` fails and leaves the type and the values of the script. -/
theorem solver_twoOfOne : solver twoOfOne = ⟨false, TX_MULTISIG, [[2], List.replicate 33 2, [1]]⟩ ∧
    ¬ ((solver twoOfOne).fSolved = false →
      (solver twoOfOne).typeRet = TX_NONSTANDARD ∧ (solver twoOfOne).vSolutionsRet = []) := by
  decide

end BitCrystal
