import BitCrystal.Model.Solver

/-! # Scripts as sequences of operations

`GetOp` reads an operation from exactly the bytes that encode it. One round of the comparison with a template
therefore takes a known piece off the script, and the rest is compared with the rest of the template.
-/

namespace BitCrystal

open LittleEndian ScriptOp

/-- The bytes of one operation and the data it pushes. -/
inductive Operation : UInt8 → List UInt8 → CScript → Prop
  | direct {opcode : UInt8} {data : List UInt8} (low : opcode < OP_PUSHDATA1) (size : data.length = opcode.toNat) :
      Operation opcode data (opcode :: data)
  | pushData1 {data : List UInt8} (size : data.length < 256 ^ 1) :
      Operation OP_PUSHDATA1 data (OP_PUSHDATA1 :: encode 1 data.length ++ data)
  | pushData2 {data : List UInt8} (size : data.length < 256 ^ 2) :
      Operation OP_PUSHDATA2 data (OP_PUSHDATA2 :: encode 2 data.length ++ data)
  | pushData4 {data : List UInt8} (size : data.length < 256 ^ 4) :
      Operation OP_PUSHDATA4 data (OP_PUSHDATA4 :: encode 4 data.length ++ data)
  | plain {opcode : UInt8} (high : OP_PUSHDATA4 < opcode) : Operation opcode [] [opcode]

/-- The bytes of an operation that pushes the data, in any of the four forms. -/
def PushOf (data : List UInt8) (bytes : CScript) : Prop :=
  ∃ opcode ≤ OP_PUSHDATA4, Operation opcode data bytes

namespace Operation

variable {opcode : UInt8} {data : List UInt8} {bytes rest pc : CScript}

theorem head_eq (operation : Operation opcode data bytes) : ∃ operand, bytes = opcode :: operand := by
  cases operation <;> exact ⟨_, rfl⟩

theorem pushOf (operation : Operation opcode data bytes) (nonempty : data ≠ []) : PushOf data bytes := by
  cases operation with
  | direct low size => exact ⟨_, UInt8.le_trans (UInt8.le_of_lt low) (by decide), .direct low size⟩
  | pushData1 size => exact ⟨_, by decide, .pushData1 size⟩
  | pushData2 size => exact ⟨_, by decide, .pushData2 size⟩
  | pushData4 size => exact ⟨_, by decide, .pushData4 size⟩
  | plain => exact absurd rfl nonempty

theorem eq_of_high (operation : Operation opcode data bytes) (high : OP_PUSHDATA4 < opcode) :
    data = [] ∧ bytes = [opcode] := by
  cases operation with
  | direct low => exact absurd (UInt8.lt_trans low (by decide : OP_PUSHDATA1 < OP_PUSHDATA4)) (UInt8.lt_asymm high)
  | pushData1 => exact absurd high (by decide)
  | pushData2 => exact absurd high (by decide)
  | pushData4 => exact absurd high (by decide)
  | plain => exact ⟨rfl, rfl⟩

theorem eq_of_zero (operation : Operation OP_0 data bytes) : data = [] ∧ bytes = [OP_0] := by
  cases operation with
  | direct low size =>
    obtain rfl := List.length_eq_zero_iff.mp size
    exact ⟨rfl, rfl⟩
  | plain high => exact absurd high (by decide)

private theorem getOp_of_operand {size : ℕ} (low : opcode ≤ OP_PUSHDATA4)
    (operand : CScript.operandSize opcode pc = some (size, data ++ rest)) (length : data.length = size) :
    CScript.getOp (opcode :: pc) = some (opcode, data, rest) := by
  subst length
  have enough : ¬ (data ++ rest).length < data.length := by
    rw [List.length_append]
    omega
  simp only [CScript.getOp, if_pos low, operand, if_neg enough, List.take_left, List.drop_left]

/-- An operation is read as it is written. -/
theorem getOp (operation : Operation opcode data bytes) (rest : CScript) :
    CScript.getOp (bytes ++ rest) = some (opcode, data, rest) := by
  cases operation with
  | direct low size =>
    refine getOp_of_operand (UInt8.le_trans (UInt8.le_of_lt low) (by decide)) ?_ size
    unfold CScript.operandSize
    rw [if_pos low]
    rfl
  | pushData1 size =>
    refine getOp_of_operand (by decide) ?_ (decode_encode size).symm
    rfl
  | pushData2 size =>
    refine getOp_of_operand (by decide) ?_ (decode_encode size).symm
    simp only [encode, decode]
    apply congrArg (fun n => some (n, data ++ rest))
    omega
  | pushData4 size =>
    refine getOp_of_operand (by decide) ?_ (decode_encode size).symm
    simp only [encode, decode]
    apply congrArg (fun n => some (n, data ++ rest))
    omega
  | plain high =>
    rw [List.singleton_append, CScript.getOp, if_neg (UInt8.not_le.mpr high)]

end Operation

/-- The size field is the number it encodes, and the data is that much of what follows. -/
private theorem sized_data {opcode : UInt8} {width nSize : ℕ} {field behind : List UInt8} (length : field.length = width)
    (value : decode field = nSize) (enough : nSize ≤ behind.length) :
    (behind.take nSize).length < 256 ^ width ∧ opcode :: (field ++ behind) =
      opcode :: encode width (behind.take nSize).length ++ behind.take nSize ++ behind.drop nSize := by
  subst length value
  have bound := decode_lt field
  rw [List.length_take, Nat.min_eq_left enough, encode_decode, List.append_assoc, List.take_append_drop]
  exact ⟨bound, rfl⟩

/-- The bytes in front of what is left are those of the operation. -/
theorem operation_of_getOp {opcode : UInt8} {data : List UInt8} {pc rest : CScript}
    (read : CScript.getOp pc = some (opcode, data, rest)) : ∃ bytes, Operation opcode data bytes ∧ pc = bytes ++ rest := by
  cases pc with
  | nil => cases read
  | cons first pc =>
    rw [CScript.getOp] at read
    split at read
    next low =>
      rcases operand : CScript.operandSize first pc with _ | ⟨nSize, behind⟩
      · rw [operand] at read
        cases read
      rw [operand] at read
      dsimp only at read
      split at read
      · cases read
      next enough =>
        obtain ⟨rfl, rfl, rfl⟩ : first = opcode ∧ behind.take nSize = data ∧ behind.drop nSize = rest := by
          simpa using read
        have length : (behind.take nSize).length = nSize := by
          rw [List.length_take]
          omega
        unfold CScript.operandSize at operand
        split at operand
        next direct =>
          obtain ⟨rfl, rfl⟩ : first.toNat = nSize ∧ pc = behind := by simpa using operand
          exact ⟨_, .direct direct length, by rw [List.cons_append, List.take_append_drop]⟩
        split at operand
        next one =>
          subst one
          split at operand
          next a pc =>
            obtain ⟨size, rfl⟩ : a.toNat = nSize ∧ pc = behind := by simpa using operand
            obtain ⟨small, bytes⟩ := @sized_data OP_PUSHDATA1 1 _ [a] _ rfl size (not_lt.mp enough)
            exact ⟨_, .pushData1 small, bytes⟩
          · cases operand
        split at operand
        next two =>
          subst two
          split at operand
          next a b pc =>
            obtain ⟨size, rfl⟩ : a.toNat + 2 ^ 8 * b.toNat = nSize ∧ pc = behind := by simpa using operand
            obtain ⟨small, bytes⟩ := @sized_data OP_PUSHDATA2 2 _ [a, b] _ rfl size (not_lt.mp enough)
            exact ⟨_, .pushData2 small, bytes⟩
          · cases operand
        next direct one two =>
          have four : first = OP_PUSHDATA4 := by
            rw [UInt8.lt_iff_toNat_lt] at direct
            rw [← UInt8.toNat_inj] at one two ⊢
            rw [UInt8.le_iff_toNat_le] at low
            simp only [OP_PUSHDATA1, OP_PUSHDATA2, OP_PUSHDATA4, UInt8.reduceToNat] at direct one two low ⊢
            omega
          subst four
          split at operand
          next a b c d pc =>
            obtain ⟨size, rfl⟩ : a.toNat + 2 ^ 8 * b.toNat + 2 ^ 16 * c.toNat + 2 ^ 24 * d.toNat = nSize ∧ pc = behind := by
              simpa using operand
            obtain ⟨small, bytes⟩ := @sized_data OP_PUSHDATA4 4 _ [a, b, c, d] _ rfl
              (by simp only [decode]; omega) (not_lt.mp enough)
            exact ⟨_, .pushData4 small, bytes⟩
          · cases operand
    next high =>
      obtain ⟨rfl, rfl, rfl⟩ : first = opcode ∧ [] = data ∧ pc = rest := by simpa using read
      exact ⟨_, .plain (UInt8.not_le.mp high), rfl⟩

theorem ScriptOp.get_eq_some {pc : CScript} {op : ScriptOp} :
    ScriptOp.get pc = some op ↔ ∃ bytes, Operation op.opcode op.vch bytes ∧ pc = bytes ++ op.pc := by
  obtain ⟨opcode, vch, rest⟩ := op
  rw [ScriptOp.get, Option.map_eq_some_iff]
  constructor
  · rintro ⟨⟨_, _, _⟩, read, ⟨⟩⟩
    exact operation_of_getOp read
  · rintro ⟨bytes, operation, rfl⟩
    exact ⟨_, operation.getOp rest, rfl⟩

/-- `OP_0` to `OP_16`. -/
def opN (n : ℕ) : UInt8 := if n = 0 then OP_0 else UInt8.ofNat (0x50 + n)

theorem isSmall_iff {opcode : UInt8} : (opcode = OP_0 ∨ OP_1 ≤ opcode ∧ opcode ≤ OP_16) ↔ ∃ n ≤ 16, opcode = opN n := by
  constructor
  · rintro (rfl | ⟨low, high⟩)
    · exact ⟨0, by decide, rfl⟩
    · rw [UInt8.le_iff_toNat_le] at low high
      have least : 81 ≤ opcode.toNat := low
      have most : opcode.toNat ≤ 96 := high
      refine ⟨opcode.toNat - 0x50, by omega, ?_⟩
      rw [opN, if_neg (by omega), show 0x50 + (opcode.toNat - 0x50) = opcode.toNat by omega, UInt8.ofNat_toNat]
  · rintro ⟨n, small, rfl⟩
    have table : ∀ n < 17, opN n = OP_0 ∨ OP_1 ≤ opN n ∧ opN n ≤ OP_16 := by decide
    exact table n (by omega)

variable {n : ℕ}

theorem decodeOP_N_opN (small : n ≤ 16) : decodeOP_N (opN n) = UInt8.ofNat n := by
  have table : ∀ n < 17, decodeOP_N (opN n) = UInt8.ofNat n := by decide
  exact table n (by omega)

/-- A small integer is one byte. -/
theorem Operation.eq_of_opN {data bytes : List UInt8} (small : n ≤ 16) (operation : Operation (opN n) data bytes) :
    data = [] ∧ bytes = [opN n] := by
  rcases Nat.eq_zero_or_pos n with rfl | positive
  · exact operation.eq_of_zero
  · have table : ∀ n < 17, 0 < n → OP_PUSHDATA4 < opN n := by decide
    exact operation.eq_of_high (table n (by omega) positive)

theorem Operation.small (few : n ≤ 16) : Operation (opN n) [] [opN n] := by
  rcases Nat.eq_zero_or_pos n with rfl | positive
  · exact .direct (by decide) rfl
  · have table : ∀ n < 17, 0 < n → OP_PUSHDATA4 < opN n := by decide
    exact .plain (table n (by omega) positive)

section Match

variable {op : ScriptOp} {found : List (List UInt8)} {ts : CScript} {t : UInt8}

theorem matchOp_pubKey : matchOp op ⟨OP_PUBKEY, [], ts⟩ = some found ↔ isPubKeySize op.vch ∧ [op.vch] = found := by
  rw [matchOp, if_pos rfl]
  split
  next size => simp [size]
  next size => simp [size]

theorem matchOp_pubKeyHash : matchOp op ⟨OP_PUBKEYHASH, [], ts⟩ = some found ↔ op.vch.length = 20 ∧ [op.vch] = found := by
  rw [matchOp, if_neg (by decide : OP_PUBKEYHASH ≠ OP_PUBKEY), if_pos rfl]
  split
  next size => simp [size]
  next size => simp [size]

theorem matchOp_smallInteger : matchOp op ⟨OP_SMALLINTEGER, [], ts⟩ = some found ↔
    ∃ n ≤ 16, op.opcode = opN n ∧ [[UInt8.ofNat n]] = found := by
  rw [matchOp, if_neg (by decide : OP_SMALLINTEGER ≠ OP_PUBKEY), if_neg (by decide : OP_SMALLINTEGER ≠ OP_PUBKEYHASH),
    if_pos rfl]
  split
  next small =>
    obtain ⟨n, few, same⟩ := isSmall_iff.mp small
    constructor
    · intro matched
      refine ⟨n, few, same, ?_⟩
      rw [← decodeOP_N_opN few, ← same]
      exact Option.some.inj matched
    · rintro ⟨m, few', same', rfl⟩
      rw [same', decodeOP_N_opN few']
  next other =>
    simp only [reduceCtorEq, false_iff, not_exists, not_and]
    intro n few same
    exact absurd (isSmall_iff.mpr ⟨n, few, same⟩) other

/-- An opcode that stands for itself. -/
def Literal (t : UInt8) : Prop :=
  OP_PUSHDATA4 < t ∧ t ≠ OP_PUBKEYS ∧ t ≠ OP_PUBKEY ∧ t ≠ OP_PUBKEYHASH ∧ t ≠ OP_SMALLINTEGER

instance : Decidable (Literal t) := inferInstanceAs (Decidable (_ ∧ _))

theorem matchOp_literal (literal : Literal t) :
    matchOp op ⟨t, [], ts⟩ = some found ↔ op.opcode = t ∧ op.vch = [] ∧ [] = found := by
  obtain ⟨-, -, key, hash, small⟩ := literal
  rw [matchOp, if_neg key, if_neg hash, if_neg small]
  split
  next same => simp [same]
  next other =>
    simp only [reduceCtorEq, false_iff, not_and]
    exact fun opcode vch => absurd ⟨opcode, vch⟩ other

end Match

section Round

variable {rounds : ℕ} {pc ts : CScript} {t : UInt8} {vSolutions result : List (List UInt8)}

theorem matchLoop_nil :
    matchLoop rounds pc [] vSolutions = some result ↔ 0 < rounds ∧ pc = [] ∧ vSolutions = result := by
  cases rounds with
  | zero => simp [matchLoop]
  | succ less =>
    rw [matchLoop]
    split
    next done => simp [done]
    next more =>
      have nonempty : pc ≠ [] := fun empty => more ⟨empty, rfl⟩
      have absent : ScriptOp.get [] = none := rfl
      cases ScriptOp.get pc <;> simp [absent, nonempty]

theorem matchLoop_single (high : OP_PUSHDATA4 < t) (single : t ≠ OP_PUBKEYS) :
    matchLoop rounds pc (t :: ts) vSolutions = some result ↔ ∃ less op found, rounds = less + 1 ∧
      ScriptOp.get pc = some op ∧ matchOp op ⟨t, [], ts⟩ = some found ∧
      matchLoop less op.pc ts (vSolutions ++ found) = some result := by
  have template : ScriptOp.get (t :: ts) = some ⟨t, [], ts⟩ := get_eq_some.mpr ⟨_, .plain high, rfl⟩
  cases rounds with
  | zero => simp [matchLoop]
  | succ less =>
    have more : ¬ (pc = [] ∧ t :: ts = []) := fun both => nomatch both.2
    rw [matchLoop, if_neg more, template]
    cases ScriptOp.get pc with
    | none => simp
    | some op =>
      simp only [Option.bind_eq_bind, Option.bind_some, if_neg single, Option.bind_eq_some_iff, Nat.add_right_cancel_iff,
        Option.some.injEq]
      constructor
      · rintro ⟨found, matched, rest⟩
        exact ⟨less, op, found, rfl, rfl, matched, rest⟩
      · rintro ⟨_, _, found, rfl, rfl, matched, rest⟩
        exact ⟨found, matched, rest⟩

theorem matchLoop_literal (literal : Literal t) : matchLoop rounds pc (t :: ts) vSolutions = some result ↔
    ∃ less rest, rounds = less + 1 ∧ pc = t :: rest ∧ matchLoop less rest ts vSolutions = some result := by
  rw [matchLoop_single literal.1 literal.2.1]
  simp only [matchOp_literal literal, get_eq_some]
  constructor
  · rintro ⟨less, ⟨_, _, rest⟩, _, rfl, ⟨bytes, operation, rfl⟩, ⟨rfl, rfl, rfl⟩, tail⟩
    obtain ⟨-, rfl⟩ := operation.eq_of_high literal.1
    rw [List.append_nil] at tail
    exact ⟨less, rest, rfl, rfl, tail⟩
  · rintro ⟨less, rest, rfl, rfl, tail⟩
    refine ⟨less, ⟨t, [], rest⟩, [], rfl, ⟨[t], .plain literal.1, rfl⟩, ⟨rfl, rfl, rfl⟩, ?_⟩
    rw [List.append_nil]
    exact tail

/-- A template operation that any data of the right size meets. -/
private theorem matchLoop_data {fits : List UInt8 → Prop} (high : OP_PUSHDATA4 < t) (single : t ≠ OP_PUBKEYS)
    (matched : ∀ op found, matchOp op ⟨t, [], ts⟩ = some found ↔ fits op.vch ∧ [op.vch] = found) (unfit : ¬ fits []) :
    matchLoop rounds pc (t :: ts) vSolutions = .some result ↔ ∃ less data push rest, rounds = less + 1 ∧
      PushOf data push ∧ fits data ∧ pc = push ++ rest ∧ matchLoop less rest ts (vSolutions ++ [data]) = .some result := by
  rw [matchLoop_single high single]
  simp only [matched, get_eq_some]
  constructor
  · rintro ⟨less, ⟨_, data, rest⟩, _, rfl, ⟨push, operation, rfl⟩, ⟨size, rfl⟩, tail⟩
    refine ⟨less, data, push, rest, rfl, operation.pushOf ?_, size, rfl, tail⟩
    rintro rfl
    exact unfit size
  · rintro ⟨less, data, push, rest, rfl, ⟨opcode, -, operation⟩, size, rfl, tail⟩
    exact ⟨less, ⟨opcode, data, rest⟩, [data], rfl, ⟨push, operation, rfl⟩, ⟨size, rfl⟩, tail⟩

theorem matchLoop_pubKey : matchLoop rounds pc (OP_PUBKEY :: ts) vSolutions = some result ↔
    ∃ less key push rest, rounds = less + 1 ∧ PushOf key push ∧ isPubKeySize key ∧ pc = push ++ rest ∧
      matchLoop less rest ts (vSolutions ++ [key]) = some result :=
  matchLoop_data (by decide) (by decide) (fun _ _ => matchOp_pubKey) (by decide)

theorem matchLoop_pubKeyHash : matchLoop rounds pc (OP_PUBKEYHASH :: ts) vSolutions = some result ↔
    ∃ less hash push rest, rounds = less + 1 ∧ PushOf hash push ∧ hash.length = 20 ∧ pc = push ++ rest ∧
      matchLoop less rest ts (vSolutions ++ [hash]) = some result :=
  matchLoop_data (by decide) (by decide) (fun _ _ => matchOp_pubKeyHash) (by decide)

theorem matchLoop_smallInteger : matchLoop rounds pc (OP_SMALLINTEGER :: ts) vSolutions = some result ↔
    ∃ less n rest, rounds = less + 1 ∧ n ≤ 16 ∧ pc = opN n :: rest ∧
      matchLoop less rest ts (vSolutions ++ [[UInt8.ofNat n]]) = some result := by
  rw [matchLoop_single (by decide) (by decide)]
  simp only [matchOp_smallInteger, get_eq_some]
  constructor
  · rintro ⟨less, ⟨_, _, rest⟩, _, rfl, ⟨bytes, operation, rfl⟩, ⟨n, few, rfl, rfl⟩, tail⟩
    obtain ⟨-, rfl⟩ := operation.eq_of_opN few
    exact ⟨less, n, rest, rfl, few, rfl, tail⟩
  · rintro ⟨less, n, rest, rfl, few, rfl, tail⟩
    exact ⟨less, ⟨opN n, [], rest⟩, _, rfl, ⟨_, .small few, rfl⟩, ⟨n, few, rfl, rfl⟩, tail⟩

end Round

/-- The bytes that push public keys one after the other. -/
inductive KeyPushes : List (List UInt8) → CScript → Prop
  | nil : KeyPushes [] []
  | cons {key : List UInt8} {push pushes : CScript} {keys : List (List UInt8)} (first : PushOf key push)
      (size : isPubKeySize key) (others : KeyPushes keys pushes) : KeyPushes (key :: keys) (push ++ pushes)

section Keys

variable {rounds n : ℕ} {pc rest ts : CScript} {op next : ScriptOp} {keys vSolutions collected : List (List UInt8)}
  {pushes : CScript}

theorem KeyPushes.length_le (pushed : KeyPushes keys pushes) : keys.length ≤ pushes.length := by
  induction pushed with
  | nil => exact le_rfl
  | cons first size others ih =>
    obtain ⟨_, -, operation⟩ := first
    obtain ⟨operand, rfl⟩ := operation.head_eq
    simp only [List.length_cons, List.length_append]
    omega

theorem KeyPushes.exists_get (pushed : KeyPushes keys pushes) (few : n ≤ 16) (rest : CScript) :
    ∃ next, ScriptOp.get (pushes ++ opN n :: rest) = some next := by
  cases pushed with
  | nil => exact ⟨⟨opN n, [], rest⟩, get_eq_some.mpr ⟨_, .small few, rfl⟩⟩
  | cons first =>
    obtain ⟨opcode, -, operation⟩ := first
    exact ⟨⟨opcode, _, _⟩, get_eq_some.mpr ⟨_, operation, List.append_assoc ..⟩⟩

/-- A small integer is only reached behind keys. -/
theorem keyPushes_of_takePubKeys (few : n ≤ 16) (read : ScriptOp.get pc = some op)
    (taken : takePubKeys rounds op vSolutions = (next, collected)) (small : next.opcode = opN n) :
    ∃ keys pushes, KeyPushes keys pushes ∧ pc = pushes ++ opN n :: next.pc ∧ collected = vSolutions ++ keys := by
  induction rounds generalizing pc op vSolutions with
  | zero =>
    obtain ⟨rfl, rfl⟩ := Prod.mk.inj taken
    obtain ⟨bytes, operation, rfl⟩ := get_eq_some.mp read
    rw [small] at operation
    obtain ⟨-, rfl⟩ := operation.eq_of_opN few
    exact ⟨[], [], .nil, rfl, (List.append_nil _).symm⟩
  | succ rounds ih =>
    obtain ⟨bytes, operation, rfl⟩ := get_eq_some.mp read
    rw [takePubKeys] at taken
    split at taken
    next size =>
      have push : PushOf op.vch bytes := by
        apply operation.pushOf
        intro empty
        rw [empty] at size
        exact absurd size (by decide)
      cases behind : ScriptOp.get op.pc with
      | none =>
        rw [behind] at taken
        obtain ⟨rfl, -⟩ := Prod.mk.inj taken
        have table : ∀ n < 17, OP_INVALIDOPCODE ≠ opN n := by decide
        exact absurd small (table n (by omega))
      | some following =>
        rw [behind] at taken
        obtain ⟨keys, pushes, pushed, shape, all⟩ := ih behind taken
        refine ⟨op.vch :: keys, bytes ++ pushes, .cons push size pushed, ?_, ?_⟩
        · rw [shape, List.append_assoc]
        · rw [all, List.append_assoc, List.singleton_append]
    next other =>
      obtain ⟨rfl, rfl⟩ := Prod.mk.inj taken
      rw [small] at operation
      obtain ⟨-, rfl⟩ := operation.eq_of_opN few
      exact ⟨[], [], .nil, rfl, (List.append_nil _).symm⟩

/-- Keys in front of a small integer are all collected. -/
theorem takePubKeys_of_keyPushes (few : n ≤ 16) (pushed : KeyPushes keys pushes)
    (read : ScriptOp.get (pushes ++ opN n :: rest) = some op) (enough : keys.length ≤ rounds) :
    takePubKeys rounds op vSolutions = (⟨opN n, [], rest⟩, vSolutions ++ keys) := by
  have number : ScriptOp.get (opN n :: rest) = some ⟨opN n, [], rest⟩ :=
    get_eq_some.mpr ⟨_, .small few, rfl⟩
  induction pushed generalizing rounds op vSolutions with
  | nil =>
    rw [List.nil_append, number, Option.some.injEq] at read
    subst read
    rw [List.append_nil]
    cases rounds with
    | zero => rfl
    | succ rounds => rw [takePubKeys, if_neg (by decide : ¬ isPubKeySize [])]
  | @cons key push pushes keys first size others ih =>
    obtain ⟨rounds, rfl⟩ : ∃ left, rounds = left + 1 := ⟨rounds - 1, by rw [List.length_cons] at enough; omega⟩
    obtain ⟨opcode, -, operation⟩ := first
    have this : ScriptOp.get (push ++ pushes ++ opN n :: rest) = some ⟨opcode, key, pushes ++ opN n :: rest⟩ :=
      get_eq_some.mpr ⟨push, operation, List.append_assoc ..⟩
    rw [this, Option.some.injEq] at read
    subst read
    rw [takePubKeys, if_pos size]
    obtain ⟨next, behind⟩ := others.exists_get few rest
    dsimp only
    rw [behind]
    dsimp only
    rw [ih behind (by rw [List.length_cons] at enough; omega), List.append_assoc, List.singleton_append]

theorem matchLoop_pubKeys_iff {result : List (List UInt8)} :
    matchLoop rounds pc (OP_PUBKEYS :: OP_SMALLINTEGER :: ts) vSolutions = some result ↔
      ∃ less keys pushes n rest, rounds = less + 1 ∧ KeyPushes keys pushes ∧ n ≤ 16 ∧ pc = pushes ++ opN n :: rest ∧
        matchLoop less rest ts (vSolutions ++ keys ++ [[UInt8.ofNat n]]) = some result := by
  have template (t : UInt8) (high : OP_PUSHDATA4 < t) (ts : CScript) : ScriptOp.get (t :: ts) = some ⟨t, [], ts⟩ :=
    get_eq_some.mpr ⟨_, .plain high, rfl⟩
  cases rounds with
  | zero => simp [matchLoop]
  | succ less =>
    have more : ¬ (pc = [] ∧ OP_PUBKEYS :: OP_SMALLINTEGER :: ts = []) := fun both => nomatch both.2
    rw [matchLoop, if_neg more, template OP_PUBKEYS (by decide)]
    constructor
    · intro matched
      simp only [Option.bind_eq_bind, Option.bind_eq_some_iff, if_true, Option.some.injEq, exists_eq_left',
        template OP_SMALLINTEGER (by decide), matchOp_smallInteger] at matched
      obtain ⟨op, read, _, ⟨n, few, small, rfl⟩, tail⟩ := matched
      obtain ⟨keys, pushes, pushed, shape, all⟩ := keyPushes_of_takePubKeys few read rfl small
      rw [all] at tail
      exact ⟨less, keys, pushes, n, _, rfl, pushed, few, shape, tail⟩
    · rintro ⟨_, keys, pushes, n, rest, ⟨⟩, pushed, few, rfl, tail⟩
      obtain ⟨op, read⟩ := pushed.exists_get few rest
      have enough : keys.length ≤ (pushes ++ opN n :: rest).length := by
        rw [List.length_append]
        exact pushed.length_le.trans (Nat.le_add_right ..)
      have matched : matchOp ⟨opN n, [], rest⟩ ⟨OP_SMALLINTEGER, [], ts⟩ = some [[UInt8.ofNat n]] :=
        matchOp_smallInteger.mpr ⟨n, few, rfl, rfl⟩
      simp only [Option.bind_eq_bind, Option.bind_some, if_true, read, takePubKeys_of_keyPushes few pushed read enough,
        template OP_SMALLINTEGER (by decide), matched, tail]

end Keys

end BitCrystal
