import BitCrystal.Model.CoinCodec
import BitCrystal.Proofs.Coins

/-! # Round trips of the coin formats

Amounts, scripts, outputs, undo records and entries are read back from what was written, followed by
any bytes. The version of an entry is the exception: it goes through the encoding of an `int` and
comes back as `wireInt`.
-/

namespace BitCrystal

open Reader CTxOut

theorem stripZeros_spec (left n : ℕ) (positive : 0 < n) :
    0 < (stripZeros left n).1 ∧ (stripZeros left n).2 ≤ left ∧
      (stripZeros left n).1 * 10 ^ (stripZeros left n).2 = n ∧
      ((stripZeros left n).2 < left → (stripZeros left n).1 % 10 ≠ 0) := by
  induction left generalizing n with
  | zero => simp [stripZeros, positive]
  | succ left ih =>
    unfold stripZeros
    split
    next exact10 =>
      obtain ⟨positive, few, product, stopped⟩ := ih (n / 10) (by omega)
      refine ⟨positive, by dsimp only; omega, ?_, fun more => stopped (by dsimp only at more; omega)⟩
      dsimp only
      rw [pow_succ, ← mul_assoc, product]
      omega
    next other => exact ⟨positive, Nat.zero_le _, by simp, fun _ => other⟩

theorem stripZeros_mul_pow {left m e : ℕ} (few : e ≤ left) (stopped : m % 10 ≠ 0 ∨ e = left) :
    stripZeros left (m * 10 ^ e) = (m, e) := by
  induction left generalizing e with
  | zero =>
    obtain rfl : e = 0 := by omega
    simp [stripZeros]
  | succ left ih =>
    cases e with
    | zero =>
      have digit : m % 10 ≠ 0 := by omega
      simp [stripZeros, digit]
    | succ e =>
      have shifted : m * 10 ^ (e + 1) = m * 10 ^ e * 10 := by rw [pow_succ, mul_assoc]
      rw [stripZeros, if_pos (by omega), shifted, Nat.mul_div_cancel _ (by decide), ih (by omega) (by omega)]

/-- The number without its zeros and their count, as a compressed amount other than 0 packs them. -/
def unpackAmount (x : ℕ) : ℕ × ℕ :=
  (if (x - 1) % 10 < 9 then (x - 1) / 10 / 9 * 10 + ((x - 1) / 10 % 9 + 1) else (x - 1) / 10 + 1, (x - 1) % 10)

theorem decompressAmount_of_ne_zero {x : ℕ} (nonzero : x ≠ 0) :
    decompressAmount x = (unpackAmount x).1 * 10 ^ (unpackAmount x).2 % 2 ^ 64 := by
  unfold decompressAmount
  rw [if_neg nonzero]
  rfl

/-- Packing undoes unpacking. -/
theorem compressAmount_unpack {x : ℕ} (nonzero : x ≠ 0) (range : x < 2 ^ 64) :
    compressAmount ((unpackAmount x).1 * 10 ^ (unpackAmount x).2) = x := by
  have positive : 0 < (unpackAmount x).1 := by
    unfold unpackAmount
    dsimp only
    split <;> omega
  have few : (unpackAmount x).2 ≤ 9 := by
    unfold unpackAmount
    dsimp only
    omega
  have stopped : (unpackAmount x).1 % 10 ≠ 0 ∨ (unpackAmount x).2 = 9 := by
    unfold unpackAmount
    dsimp only
    split <;> omega
  unfold compressAmount
  rw [if_neg (Nat.mul_pos positive (Nat.pow_pos (by decide))).ne', stripZeros_mul_pow few stopped]
  unfold unpackAmount
  dsimp only
  split
  next inside =>
    rw [Nat.mod_eq_of_lt (by omega)]
    omega
  next outside =>
    rw [Nat.mod_eq_of_lt (by omega)]
    omega

/-- Unpacking undoes packing below a ninth of the range. -/
theorem unpackAmount_compressAmount {n : ℕ} (positive : 0 < n) (bound : n < 2 ^ 64 / 9) :
    compressAmount n ≠ 0 ∧ unpackAmount (compressAmount n) = stripZeros 9 n := by
  obtain ⟨left, few, product, stopped⟩ := stripZeros_spec 9 n positive
  unfold compressAmount
  rw [if_neg positive.ne']
  generalize stripZeros 9 n = split at left few product stopped
  obtain ⟨m, e⟩ := split
  dsimp only at left few product stopped ⊢
  have small : m ≤ n := by
    rw [← product]
    exact Nat.le_mul_of_pos_right m (Nat.pow_pos (by decide))
  split
  next inside =>
    have digit := stopped inside
    rw [Nat.mod_eq_of_lt (by omega)]
    have exponent : (1 + (m / 10 * 9 + m % 10 - 1) * 10 + e - 1) % 10 = e := by omega
    have packed : (1 + (m / 10 * 9 + m % 10 - 1) * 10 + e - 1) / 10 = m / 10 * 9 + (m % 10 - 1) := by omega
    have whole : (m / 10 * 9 + (m % 10 - 1)) / 9 * 10 + ((m / 10 * 9 + (m % 10 - 1)) % 9 + 1) = m := by omega
    refine ⟨by omega, ?_⟩
    unfold unpackAmount
    rw [exponent, packed, if_pos inside, whole]
  next outside =>
    obtain rfl : e = 9 := by omega
    rw [Nat.mod_eq_of_lt (by omega)]
    have exponent : (1 + (m - 1) * 10 + 9 - 1) % 10 = 9 := by omega
    have packed : (1 + (m - 1) * 10 + 9 - 1) / 10 + 1 = m := by omega
    refine ⟨by omega, ?_⟩
    unfold unpackAmount
    rw [exponent, if_neg (by omega), packed]

theorem unpack_compressAmount_product {n : ℕ} (positive : 0 < n) (bound : n < 2 ^ 64 / 9) :
    (unpackAmount (compressAmount n)).1 * 10 ^ (unpackAmount (compressAmount n)).2 = n := by
  rw [(unpackAmount_compressAmount positive bound).2]
  exact (stripZeros_spec 9 n positive).2.2.1

/-- Amounts below a ninth of the range are recovered. -/
theorem decompressAmount_compressAmount {n : ℕ} (bound : n < 2 ^ 64 / 9) :
    decompressAmount (compressAmount n) = n := by
  rcases Nat.eq_zero_or_pos n with rfl | positive
  · rfl
  rw [decompressAmount_of_ne_zero (unpackAmount_compressAmount positive bound).1,
    unpack_compressAmount_product positive bound, Nat.mod_eq_of_lt (by omega)]

private theorem compressAmount_lt (n : ℕ) : compressAmount n < 2 ^ 64 := by
  unfold compressAmount
  split
  · decide
  · dsimp only
    split <;> exact Nat.mod_lt _ (by decide)

namespace CScript

variable {K : KeyLibrary} {script : CScript}

private theorem take_middle_drop (script : CScript) (a b : ℕ) :
    script.take a ++ (script.drop a).take b ++ script.drop (a + b) = script := by
  rw [List.append_assoc, ← List.drop_drop, List.take_append_drop, List.take_append_drop]

private theorem isToKeyID_eq_some {keyID : List UInt8} (found : script.isToKeyID = some keyID) :
    keyID.length = 20 ∧ script = [OP_DUP, OP_HASH160, 20] ++ keyID ++ [OP_EQUALVERIFY, OP_CHECKSIG] := by
  unfold isToKeyID at found
  split at found
  next shape =>
    obtain ⟨length, front, back⟩ := shape
    cases found
    constructor
    · simp only [List.length_take, List.length_drop, length]
      rfl
    · rw [← front, ← back]
      exact (take_middle_drop script 3 20).symm
  · contradiction

private theorem isToScriptID_eq_some {scriptID : List UInt8} (found : script.isToScriptID = some scriptID) :
    scriptID.length = 20 ∧ script = [OP_HASH160, 20] ++ scriptID ++ [OP_EQUAL] := by
  unfold isToScriptID at found
  split at found
  next shape =>
    obtain ⟨length, front, back⟩ := shape
    cases found
    constructor
    · simp only [List.length_take, List.length_drop, length]
      rfl
    · rw [← front, ← back]
      exact (take_middle_drop script 2 20).symm
  · contradiction

private theorem take_two {a b : UInt8} (front : script.take 2 = [a, b]) :
    ∃ rest, script = a :: b :: rest :=
  ⟨script.drop 2, by rw [← List.take_append_drop 2 script, front]; rfl⟩

/-- The two forms of key a pay-to-pubkey script may hold. -/
private theorem isToPubKey_eq_some {key : List UInt8} (found : script.isToPubKey K = some key) :
    (∃ form x, key = form :: x ∧ (form = 0x02 ∨ form = 0x03) ∧ x.length = 32 ∧
        script = [33, form] ++ x ++ [OP_CHECKSIG]) ∨
      (∃ x, key = 0x04 :: x ∧ key.length = 65 ∧ K.setPubKey key = true ∧ script = [65] ++ key ++ [OP_CHECKSIG]) := by
  unfold isToPubKey at found
  split at found
  next shape =>
    obtain ⟨length, back, front⟩ := shape
    cases found
    left
    obtain ⟨form, first, two⟩ : ∃ form, (form = 0x02 ∨ form = 0x03) ∧ script.take 2 = [33, form] := by
      rcases front with front | front
      · exact ⟨0x02, .inl rfl, front⟩
      · exact ⟨0x03, .inr rfl, front⟩
    have whole := take_middle_drop script 2 32
    obtain ⟨rest, rfl⟩ := take_two two
    refine ⟨form, rest.take 32, rfl, first, ?_, ?_⟩
    · simp only [List.length_cons] at length
      rw [List.length_take]
      omega
    · rw [two, back] at whole
      exact whole.symm
  next =>
    split at found
    next shape =>
      obtain ⟨length, back, front, valid⟩ := shape
      cases found
      right
      have whole := take_middle_drop script 1 65
      obtain ⟨rest, rfl⟩ := take_two front
      refine ⟨rest.take 64, rfl, ?_, valid, ?_⟩
      · simp only [List.length_cons] at length
        simp only [List.drop_succ_cons, List.drop_zero, List.length_take, List.length_cons]
        omega
      · rw [back] at whole
        exact whole.symm
    · contradiction

private theorem reads_special {n : ℕ} (small : n < 6) : (readVarInt 4).Reads [UInt8.ofNat n] n := by
  have written : writeVarInt 4 n = [UInt8.ofNat n] := by
    have le : (n : ℤ) ≤ 0x7F := by omega
    have digit : ((n : ℤ) % 128).toNat + 0 = n := by omega
    rw [writeVarInt, show varIntRoom 4 = 4 + 1 from rfl]
    simp only [varIntDigits, if_pos le, Bool.false_eq_true, ↓reduceIte, digit, List.reverse_singleton]
  rw [← written]
  exact reads_varInt (by decide) (by omega)

private theorem reads_decompress {n : ℕ} (small : n < 6) {vch : List UInt8}
    (length : vch.length = getSpecialSize n) :
    (unserialize K).Reads (UInt8.ofNat n :: vch) (decompress K n vch []) := by
  change (unserialize K).Reads ([UInt8.ofNat n] ++ vch) _
  apply (reads_special small).bind
  rw [if_pos (show n < nSpecialScripts from small)]
  exact (reads_bytes length).map fun vch => decompress K n vch []

/-- Every script is read back, the compressed ones through their special forms. -/
theorem reads_script (lawful : K.Lawful) (size : script.length + nSpecialScripts < 2 ^ 32) :
    (unserialize K).Reads (serialize K script) script := by
  unfold serialize compress
  cases keyID : script.isToKeyID with
  | some hash =>
    obtain ⟨length, whole⟩ := isToKeyID_eq_some keyID
    have reads : (unserialize K).Reads (UInt8.ofNat 0 :: hash) _ := reads_decompress (by decide) length
    rw [whole]
    exact reads
  | none =>
    cases scriptID : script.isToScriptID with
    | some hash =>
      obtain ⟨length, whole⟩ := isToScriptID_eq_some scriptID
      have reads : (unserialize K).Reads (UInt8.ofNat 1 :: hash) _ := reads_decompress (by decide) length
      rw [whole]
      exact reads
    | none =>
      cases pubKey : script.isToPubKey K with
      | some key =>
        rcases isToPubKey_eq_some pubKey with ⟨form, x, rfl, first, length, whole⟩ | ⟨x, rfl, length, valid, whole⟩
        · simp only [if_pos first]
          rw [whole]
          rcases first with rfl | rfl
          · exact reads_decompress (show 2 < 6 by decide) length
          · exact reads_decompress (show 3 < 6 by decide) length
        · simp only [show ¬ ((0x04 : UInt8) = 0x02 ∨ (0x04 : UInt8) = 0x03) by decide, if_false]
          have recovered := lawful.recovers (0x04 :: x) length rfl valid
          have parity : (4 + (x.getLast?.getD 0).toNat % 2) - 2 = 2 + (x.getLast?.getD 0).toNat % 2 := by omega
          have nonempty : x ≠ [] := by
            rintro rfl
            simp at length
          have small : 4 + (x.getLast?.getD 0).toNat % 2 < 6 := by omega
          have reads : (unserialize K).Reads
              (UInt8.ofNat (4 + (x.getLast?.getD 0).toNat % 2) :: x.take 32)
              (decompress K (4 + (x.getLast?.getD 0).toNat % 2) (x.take 32) []) := by
            apply reads_decompress small
            simp only [List.length_cons] at length
            rw [List.length_take, getSpecialSize, if_neg (by omega)]
            omega
          rw [decompress, if_neg (by omega), if_neg (by omega), if_neg (by omega), parity] at reads
          rw [List.getLast?_cons_of_ne_nil nonempty, List.drop_one, List.tail_cons] at recovered
          rw [recovered] at reads
          rw [whole]
          exact reads
      | none =>
        rw [Nat.mod_eq_of_lt size]
        apply (reads_varInt (by decide) size).bind
        rw [if_neg (by omega)]
        exact reads_bytes (by omega)

end CScript

/-- An output whose amount and script fit the format. -/
structure CTxOut.Storable (txout : CTxOut) : Prop where
  nonneg : 0 ≤ txout.nValue
  amount : txout.nValue < 2 ^ 60
  script : txout.scriptPubKey.length + CScript.nSpecialScripts < 2 ^ 32

variable {K : KeyLibrary}

theorem reads_txout (lawful : K.Lawful) {txout : CTxOut} (storable : txout.Storable) :
    (CTxOut.unserialize K).Reads (txout.serialize K) txout := by
  obtain ⟨nonneg, amount, script⟩ := storable
  have wrapped : (txout.nValue % 2 ^ 64).toNat = txout.nValue.toNat := by omega
  have value : ((txout.nValue.toNat : ℕ) : ℤ).bmod (2 ^ 64) = txout.nValue := by
    rw [Int.toNat_of_nonneg nonneg, Int.bmod_eq_of_le (by omega) (by omega)]
  apply (reads_varInt (by decide) (compressAmount_lt _)).bind
  have read := (CScript.reads_script lawful script).map fun scriptPubKey : CScript =>
    (⟨(decompressAmount (compressAmount (txout.nValue % 2 ^ 64).toNat) : ℤ).bmod (2 ^ 64), scriptPubKey⟩ : CTxOut)
  rw [wrapped, decompressAmount_compressAmount (by omega), value] at read
  rw [wrapped, decompressAmount_compressAmount (by omega), value]
  exact read

/-- An undo record as `Spend` makes it, with a height and a version that fit. -/
structure CTxInUndo.Storable (undo : CTxInUndo) : Prop where
  txout : undo.txout.Storable
  height : undo.nHeight < 2 ^ 31
  bare : undo.nHeight = 0 → undo.metadata = {}
  version : -2 ^ 31 ≤ undo.nVersion ∧ undo.nVersion < 2 ^ 31

theorem reads_undo (lawful : K.Lawful) {undo : CTxInUndo} (storable : undo.Storable) :
    (CTxInUndo.unserialize K).Reads (undo.serialize K) { undo with nVersion := wireInt undo.nVersion } := by
  obtain ⟨txout, height, bare, version⟩ := storable
  have code : (undo.nHeight * 2 + if undo.fCoinBase then 1 else 0) < 2 ^ 32 := by
    split <;> omega
  have half : (undo.nHeight * 2 + if undo.fCoinBase then 1 else 0) / 2 = undo.nHeight := by
    split <;> omega
  have parity : decide ((undo.nHeight * 2 + if undo.fCoinBase then 1 else 0) % 2 = 1) = undo.fCoinBase := by
    cases undo.fCoinBase
    · exact decide_eq_false (by simp)
    · exact decide_eq_true (by simp)
  rw [CTxInUndo.serialize, Nat.mod_eq_of_lt code, List.append_assoc]
  apply (reads_varInt (by decide) code).bind
  rw [half, parity]
  have last (nVersion : ℤ) := (reads_txout lawful txout).map fun txout : CTxOut =>
    ({ txout, fCoinBase := undo.fCoinBase, nHeight := undo.nHeight, nVersion } : CTxInUndo)
  rcases Nat.eq_zero_or_pos undo.nHeight with zero | positive
  · have wire : wireInt undo.nVersion = 0 := by
      rw [show undo.nVersion = 0 from congrArg CoinMeta.nVersion (bare zero)]
      rfl
    rw [if_neg (by omega), if_neg (by omega), wire]
    exact (reads_pure (0 : ℤ)).bind (last 0)
  · rw [if_pos positive, if_pos positive]
    exact (reads_varIntSigned version.1 version.2).bind (last _)

/-! ## Coin entries -/

/-- A spent output is read back as the default one. -/
def CTxOut.canonical (txout : CTxOut) : CTxOut := if txout.isNull then .null else txout

namespace CCoins

private theorem range_eight : List.range 8 = [0, 1, 2, 3, 4, 5, 6, 7] := rfl

private theorem unpackByte_packByte (bit : ℕ → Bool) : unpackByte (packByte bit) = (List.range 8).map bit := by
  simp only [unpackByte, packByte, range_eight, List.foldl_cons, List.foldl_nil, List.map_cons, List.map_nil]
  generalize bit 0 = b0
  generalize bit 1 = b1
  generalize bit 2 = b2
  generalize bit 3 = b3
  generalize bit 4 = b4
  generalize bit 5 = b5
  generalize bit 6 = b6
  generalize bit 7 = b7
  revert b0 b1 b2 b3 b4 b5 b6 b7
  decide

private theorem packByte_ne_zero {bit : ℕ → Bool} {i : ℕ} (inside : i < 8) (set : bit i = true) :
    packByte bit ≠ 0 := by
  intro zero
  have bits := unpackByte_packByte bit
  rw [zero, show unpackByte 0 = List.replicate 8 false by decide] at bits
  have member : bit i ∈ (List.range 8).map bit := List.mem_map_of_mem (List.mem_range.mpr inside)
  rw [← bits, set] at member
  exact Bool.noConfusion (List.eq_of_mem_replicate member)

/-- The bit vector ends in a non-zero byte, so reading stops exactly behind it. -/
private theorem reads_mask {l : List UInt8} (last : ∀ chAvail ∈ l.getLast?, chAvail ≠ 0) (rest : List UInt8) :
    readMask (l ++ rest) (l.filter fun chAvail => decide (chAvail ≠ 0)).length =
      some (l.flatMap unpackByte, rest) := by
  induction l with
  | nil => cases rest <;> rfl
  | cons chAvail others ih =>
    have tail : ∀ ch ∈ others.getLast?, ch ≠ 0 := by
      intro ch member
      cases others with
      | nil => simp at member
      | cons second more =>
        exact last ch (by rwa [List.getLast?_cons_cons])
    have read := ih tail
    by_cases zero : chAvail = 0
    · have more : (others.filter fun chAvail => decide (chAvail ≠ 0)).length ≠ 0 := by
        rw [Ne, List.length_eq_zero_iff, List.filter_eq_nil_iff]
        intro all
        cases final : others.getLast? with
        | none =>
          rw [List.getLast?_eq_none_iff] at final
          subst final
          exact last chAvail (by simp) zero
        | some ch => exact all ch (List.mem_of_getLast? final) (by simpa using tail ch final)
      obtain ⟨count, counted⟩ := Nat.exists_eq_succ_of_ne_zero more
      rw [counted] at read
      rw [List.filter_cons_of_neg (by simp [zero]), counted, List.cons_append, readMask,
        if_neg (not_not.mpr zero), read]
      rfl
    · rw [List.filter_cons_of_pos (by simpa using zero), List.length_cons, List.cons_append, readMask,
        if_pos zero, read]
      rfl

private theorem flatMap_range (f : ℕ → Bool) (groups : ℕ) :
    ((List.range groups).flatMap fun b => (List.range 8).map fun i => f (b * 8 + i)) =
      (List.range (groups * 8)).map f := by
  induction groups with
  | zero => rfl
  | succ groups ih =>
    rw [List.range_succ (n := groups), List.flatMap_append, ih, Nat.succ_mul, List.range_add, List.map_append, List.map_map]
    simp only [List.flatMap_cons, List.flatMap_nil, List.append_nil]
    rfl

variable {coins : CCoins}

theorem unspentAt_iff {i : ℕ} : unspentAt coins.vout i = true ↔ ∃ out, coins.output? i = some out := by
  simp [unspentAt, output?_eq_some, Option.any_eq_true]

/-- The last group of outputs holds the last output, which is unspent. -/
private theorem availByte_last (trimmed : coins.Trimmed) {groups : ℕ}
    (size : (coins.vout.length - 2 + 7) / 8 = groups + 1) : availByte coins.vout groups ≠ 0 := by
  have nonempty : coins.vout ≠ [] := by
    rintro nil
    simp [nil] at size
  have last := List.getLast?_eq_some_getLast nonempty
  have notNull := trimmed _ last
  rw [List.getLast?_eq_getElem?] at last
  have inside : coins.vout.length - 1 - (2 + groups * 8) < 8 := by omega
  refine packByte_ne_zero inside (unspentAt_iff.mpr ⟨_, output?_eq_some.mpr ⟨?_, notNull⟩⟩)
  rwa [show 2 + groups * 8 + (coins.vout.length - 1 - (2 + groups * 8)) = coins.vout.length - 1 by omega]

/-- The bit vector of an entry without trailing spent outputs covers all outputs. -/
private theorem calcMaskSize_fst (trimmed : coins.Trimmed) :
    (calcMaskSize coins.vout).1 = (coins.vout.length - 2 + 7) / 8 := by
  cases size : (coins.vout.length - 2 + 7) / 8 with
  | zero =>
    rw [calcMaskSize, size]
    rfl
  | succ groups =>
    have used := availByte_last trimmed size
    rw [calcMaskSize, size, List.range_succ, List.filter_append, List.filter_cons_of_pos (by simpa using used)]
    simp

/-- The bit vector is empty or ends in a non-zero byte. -/
private theorem mask_last (trimmed : coins.Trimmed) :
    ∀ chAvail ∈ ((List.range (calcMaskSize coins.vout).1).map (availByte coins.vout)).getLast?, chAvail ≠ 0 := by
  intro chAvail last
  rw [calcMaskSize_fst trimmed] at last
  cases size : (coins.vout.length - 2 + 7) / 8 with
  | zero => simp [size] at last
  | succ groups =>
    rw [size, List.range_succ, List.map_append, List.map_singleton, List.getLast?_concat,
      Option.mem_some_iff] at last
    exact last ▸ availByte_last trimmed size

/-- The assertion of `Serialize`. -/
private theorem something_unspent (unpruned : ¬ coins.isPruned) : unspentAt coins.vout 0 = true ∨
    unspentAt coins.vout 1 = true ∨ (calcMaskSize coins.vout).2 ≠ 0 := by
  rw [isPruned_iff] at unpruned
  push Not at unpruned
  obtain ⟨i, there⟩ := unpruned
  have set : unspentAt coins.vout i = true := unspentAt_iff.mpr (Option.ne_none_iff_exists'.mp there)
  match i, set with
  | 0, set => exact .inl set
  | 1, set => exact .inr (.inl set)
  | i + 2, set =>
    right
    right
    obtain ⟨out, found⟩ := unspentAt_iff.mp set
    have inside := (List.getElem?_eq_some_iff.mp (output?_eq_some.mp found).1).1
    have nonzero : availByte coins.vout (i / 8) ≠ 0 := by
      have bit : i % 8 < 8 := Nat.mod_lt _ (by decide)
      apply packByte_ne_zero bit
      rwa [show 2 + i / 8 * 8 + i % 8 = i + 2 by omega]
    rw [calcMaskSize, Ne, List.length_eq_zero_iff, List.filter_eq_nil_iff]
    push Not
    exact ⟨i / 8, List.mem_range.mpr (by omega), by simpa using nonzero⟩

private theorem reads_outputs (lawful : K.Lawful) (vout : List CTxOut)
    (storable : ∀ out ∈ vout, ¬ out.isNull → out.Storable) :
    (readOutputs K (vout.map fun out => decide (¬ out.isNull))).Reads
      ((vout.filter fun out => ¬ out.isNull).flatMap (CTxOut.serialize K)) (vout.map canonical) := by
  induction vout with
  | nil => exact reads_pure []
  | cons out rest ih =>
    have others := ih fun out member => storable out (List.mem_cons_of_mem _ member)
    by_cases null : out.isNull
    · rw [List.filter_cons_of_neg (by simpa using null), List.map_cons, List.map_cons, canonical,
        if_pos null, decide_eq_false (not_not.mpr null)]
      exact (reads_pure CTxOut.null).bind (others.map fun vout => CTxOut.null :: vout)
    · rw [List.filter_cons_of_pos (by simpa using null), List.map_cons, List.map_cons, canonical,
        if_neg null, decide_eq_true null, List.flatMap_cons]
      exact (reads_txout lawful (storable out (List.mem_cons_self ..) null)).bind
        (others.map fun vout => out :: vout)

private theorem cleanup_padded {vout : List CTxOut} (trimmed : ∀ out ∈ vout.getLast?, ¬ out.isNull) (k : ℕ) :
    (vout ++ List.replicate k CTxOut.null).rdropWhile (fun out => decide out.isNull) = vout := by
  induction k with
  | zero =>
    rw [List.replicate_zero, List.append_nil, List.rdropWhile_eq_self_iff]
    intro nonempty
    simpa using trimmed _ (List.getLast?_eq_some_getLast nonempty)
  | succ k ih =>
    rw [List.replicate_succ', ← List.append_assoc, List.rdropWhile_concat_pos _ _ _ (by simp)]
    exact ih

/-- An entry whose fields fit the format. -/
structure Storable (coins : CCoins) : Prop where
  trimmed : coins.Trimmed
  outputs : ∀ out ∈ coins.vout, ¬ out.isNull → out.Storable
  size : coins.vout.length + 6 ≤ 2 ^ 32
  height : coins.nHeight < 2 ^ 31
  version : -2 ^ 31 ≤ coins.nVersion ∧ coins.nVersion < 2 ^ 31

/-- The bits `Unserialize` has when it comes to the outputs: one for each output, and some padding. -/
private theorem avail_bits (trimmed : coins.Trimmed) :
    ∃ padding, unspentAt coins.vout 0 :: unspentAt coins.vout 1 ::
        ((List.range (calcMaskSize coins.vout).1).map (availByte coins.vout)).flatMap unpackByte =
      (coins.vout ++ List.replicate padding CTxOut.null).map fun out => decide (¬ out.isNull) := by
  have size := calcMaskSize_fst trimmed
  refine ⟨2 + (calcMaskSize coins.vout).1 * 8 - coins.vout.length, ?_⟩
  have bytes : ((List.range (calcMaskSize coins.vout).1).map (availByte coins.vout)).flatMap unpackByte =
      (List.range ((calcMaskSize coins.vout).1 * 8)).map fun i => unspentAt coins.vout (2 + i) := by
    rw [List.flatMap_map, ← flatMap_range]
    refine List.flatMap_congr fun b _ => ?_
    simp [availByte, unpackByte_packByte, Nat.add_assoc]
  rw [bytes]
  have whole : (List.range (2 + (calcMaskSize coins.vout).1 * 8)).map (unspentAt coins.vout) =
      unspentAt coins.vout 0 :: unspentAt coins.vout 1 ::
        (List.range ((calcMaskSize coins.vout).1 * 8)).map fun i => unspentAt coins.vout (2 + i) := by
    rw [List.range_add, List.map_append, List.map_map]
    rfl
  rw [← whole]
  apply List.ext_getElem
  · simp only [List.length_map, List.length_range, List.length_append, List.length_replicate]
    omega
  · intro i _ bound
    simp only [List.getElem_map, List.getElem_range, unspentAt, List.getElem_append, List.getElem_replicate]
    split
    next inside => simp [List.getElem?_eq_getElem inside]
    next outside => simp [List.getElem?_eq_none (not_lt.mp outside)]

private theorem headerCode_fields {fCoinBase fFirst fSecond : Bool} {nMaskCode nCode : ℕ}
    (unspent : fFirst = true ∨ fSecond = true ∨ nMaskCode ≠ 0)
    (code : nCode = 8 * (nMaskCode - if fFirst || fSecond then 0 else 1) + (if fCoinBase then 1 else 0) +
      (if fFirst then 2 else 0) + if fSecond then 4 else 0) :
    decide (nCode % 2 = 1) = fCoinBase ∧ decide (nCode / 2 % 2 = 1) = fFirst ∧
      decide (nCode / 4 % 2 = 1) = fSecond ∧
      (nCode / 8 + if nCode / 2 % 4 ≠ 0 then 0 else 1) = nMaskCode := by
  cases fCoinBase <;> cases fFirst <;> cases fSecond <;>
    simp only [Bool.or_self, Bool.or_true, Bool.or_false, Bool.false_eq_true, ↓reduceIte, false_or,
      decide_eq_true_eq, decide_eq_false_iff_not] at unspent code ⊢ <;>
    refine ⟨by omega, by omega, by omega, ?_⟩ <;> split <;> omega

/-- `Unserialize` gives the entry back, its version as an `int` travels and its spent outputs as
default ones. -/
theorem reads_coins (lawful : K.Lawful) (storable : coins.Storable) (unpruned : ¬ coins.isPruned) :
    ∃ bytes, coins.serialize K = .ok bytes ∧ (unserialize K).Reads bytes
      { coins with nVersion := wireInt coins.nVersion, vout := coins.vout.map canonical } := by
  obtain ⟨trimmed, outputs, size, height, version⟩ := storable
  have unspent := something_unspent unpruned
  have groups : (calcMaskSize coins.vout).2 ≤ (coins.vout.length - 2 + 7) / 8 := by
    rw [calcMaskSize]
    exact (List.length_filter_le ..).trans List.length_range.le
  have code : coins.headerCode < 2 ^ 32 := by
    rw [headerCode]
    split_ifs <;> omega
  have fields := headerCode_fields unspent (show coins.headerCode = _ from rfl)
  have counted : ((((List.range (calcMaskSize coins.vout).1).map (availByte coins.vout)).filter
      fun chAvail => decide (chAvail ≠ 0)).length) = (calcMaskSize coins.vout).2 := by
    rw [List.filter_map, List.length_map, calcMaskSize_fst trimmed]
    rfl
  have mask : Reads (fun stream => readMask stream (calcMaskSize coins.vout).2) _ _ :=
    fun rest => counted ▸ reads_mask (mask_last trimmed) rest
  obtain ⟨padding, bits⟩ := avail_bits trimmed
  have padded : ∀ out ∈ coins.vout ++ List.replicate padding CTxOut.null, ¬ out.isNull → out.Storable := by
    intro out member notNull
    rcases List.mem_append.mp member with inside | outside
    · exact outputs out inside notNull
    · rw [List.eq_of_mem_replicate outside] at notNull
      exact absurd isNull_null notNull
  have outs := reads_outputs lawful _ padded
  rw [← bits, List.filter_append, List.filter_replicate_of_neg (by simp), List.append_nil] at outs
  have last := (reads_varIntSigned (n := coins.nHeight) (by omega) (by omega)).map fun nHeight : ℤ =>
    cleanup { fCoinBase := coins.fCoinBase
              vout := (coins.vout ++ List.replicate padding CTxOut.null).map canonical
              nHeight := nHeight.toNat
              nVersion := wireInt coins.nVersion }
  have result : cleanup { fCoinBase := coins.fCoinBase
                          vout := (coins.vout ++ List.replicate padding CTxOut.null).map canonical
                          nHeight := (wireInt coins.nHeight).toNat
                          nVersion := wireInt coins.nVersion } =
      { coins with nVersion := wireInt coins.nVersion, vout := coins.vout.map canonical } := by
    have kept : ∀ out ∈ (coins.vout.map canonical).getLast?, ¬ out.isNull := by
      intro out final
      rw [List.getLast?_map, Option.mem_def, Option.map_eq_some_iff] at final
      obtain ⟨source, there, rfl⟩ := final
      have notNull := trimmed source there
      rwa [canonical, if_neg notNull]
    rw [cleanup, List.map_append, List.map_replicate, show CTxOut.null.canonical = .null from rfl,
      cleanup_padded kept, wireInt_of_nonneg (by omega), Int.toNat_natCast]
  rw [serialize, show rejectIf _ _ = .ok () from Check.rejectIf_eq_ok.mpr (not_not.mpr unspent), Check.ok_bind,
    Nat.mod_eq_of_lt code]
  refine ⟨_, rfl, (reads_varIntSigned version.1 version.2).bind ?_⟩
  apply (reads_varInt (by decide) code).bind
  rw [fields.1, fields.2.1, fields.2.2.1, fields.2.2.2, ← result]
  exact mask.bind (outs.bind last)

private theorem output?_canonical :
    ({ coins with vout := coins.vout.map canonical } : CCoins).output? = coins.output? := by
  funext n
  apply Option.ext
  intro out
  simp only [output?_eq_some, List.getElem?_map, Option.map_eq_some_iff, canonical]
  constructor
  · rintro ⟨⟨source, there, same⟩, notNull⟩
    split at same
    · exact absurd (same ▸ isNull_null) notNull
    · exact ⟨same ▸ there, notNull⟩
  · rintro ⟨there, notNull⟩
    exact ⟨⟨out, there, if_neg notNull⟩, notNull⟩

/-- The database returns the outputs of an entry and its metadata, the version as it travels. -/
theorem stored_eq_some (lawful : K.Lawful) (storable : coins.Storable) (unpruned : ¬ coins.isPruned) :
    ∃ found, coins.stored K = some found ∧ found.Trimmed ∧
      found.unspent? = some ({ coins.metadata with nVersion := wireInt coins.nVersion }, coins.output?) := by
  obtain ⟨bytes, written, reads⟩ := reads_coins lawful storable unpruned
  have pruned : ¬ ({ coins with
      nVersion := wireInt coins.nVersion, vout := coins.vout.map canonical } : CCoins).isPruned := by
    rw [isPruned_iff] at unpruned ⊢
    exact fun empty => unpruned fun n => (congrFun output?_canonical n).symm.trans (empty n)
  refine ⟨_, ?_, ?_, unspent?_eq_some.mpr ⟨pruned, rfl, output?_canonical⟩⟩
  · rw [stored, if_neg unpruned, written]
    exact reads.parse
  · intro out last
    rw [List.getLast?_map, Option.mem_def, Option.map_eq_some_iff] at last
    obtain ⟨source, there, rfl⟩ := last
    have notNull := storable.trimmed source there
    rwa [canonical, if_neg notNull]

private theorem length_spend {n : ℕ} {left : CCoins} {undo : CTxInUndo} (spent : coins.spend n = some (left, undo)) :
    left.vout.length ≤ coins.vout.length := by
  have shorter : (cleanup { coins with vout := coins.vout.set n .null }).vout.length ≤ coins.vout.length := by
    have := (List.rdropWhile_prefix (fun out : CTxOut => decide out.isNull) (coins.vout.set n .null)).length_le
    rwa [List.length_set] at this
  unfold spend at spent
  split at spent
  · contradiction
  · split at spent
    · contradiction
    · dsimp only at spent
      split at spent <;> cases spent <;> exact shorter

/-- Spending keeps an entry storable, and its undo record is storable too. -/
theorem Storable.spend (storable : coins.Storable) {n : ℕ} {left : CCoins} {undo : CTxInUndo}
    (spent : coins.spend n = some (left, undo)) (height : coins.nHeight ≠ 0) : left.Storable ∧ undo.Storable := by
  obtain ⟨there, outputs, data, trimmed, undone⟩ := spend_spec spent
  have unspent {m : ℕ} {out : CTxOut} (found : coins.output? m = some out) : out.Storable :=
    storable.outputs out (List.mem_of_getElem? (output?_eq_some.mp found).1) (output?_eq_some.mp found).2
  have sameHeight : left.nHeight = coins.nHeight := congrArg CoinMeta.nHeight data
  have sameVersion : left.nVersion = coins.nVersion := congrArg CoinMeta.nVersion data
  constructor
  · refine ⟨trimmed, fun out member notNull => ?_, (Nat.add_le_add_right (length_spend spent) 6).trans storable.size,
      sameHeight ▸ storable.height, sameVersion ▸ storable.version⟩
    obtain ⟨m, found⟩ := List.getElem?_of_mem member
    have kept : left.output? m = some out := output?_eq_some.mpr ⟨found, notNull⟩
    rw [outputs] at kept
    by_cases same : m = n
    · rw [same, Function.update_self] at kept
      contradiction
    · exact unspent (Function.update_of_ne same _ _ ▸ kept)
  · by_cases pruned : left.isPruned
    · rw [if_pos pruned] at undone
      have undoHeight : undo.nHeight = coins.nHeight := congrArg CoinMeta.nHeight undone
      have undoVersion : undo.nVersion = coins.nVersion := congrArg CoinMeta.nVersion undone
      exact ⟨unspent there, undoHeight ▸ storable.height, fun zero => absurd (undoHeight ▸ zero) height,
        undoVersion ▸ storable.version⟩
    · rw [if_neg pruned] at undone
      have undoHeight : undo.nHeight = 0 := congrArg CoinMeta.nHeight undone
      have undoVersion : undo.nVersion = 0 := congrArg CoinMeta.nVersion undone
      exact ⟨unspent there, by omega, fun _ => undone, by omega⟩

end CCoins

private theorem mapM_eq_map {α β : Type} {f : α → Option β} {g : α → β} {l : List α}
    (each : ∀ a ∈ l, f a = some (g a)) : l.mapM f = some (l.map g) := by
  induction l with
  | nil => rfl
  | cons a rest ih =>
    rw [List.mapM_cons, each a (List.mem_cons_self ..), ih fun b member => each b (List.mem_cons_of_mem _ member)]
    rfl

/-- An undo record as it comes back, with its version as it travels. -/
def CTxInUndo.reread (undo : CTxInUndo) : CTxInUndo := { undo with nVersion := wireInt undo.nVersion }

def CBlockUndo.reread (blockundo : CBlockUndo) : CBlockUndo :=
  ⟨blockundo.vtxundo.map fun txundo => List.map CTxInUndo.reread txundo⟩

theorem CBlockUndo.stored_eq_some (lawful : K.Lawful) {blockundo : CBlockUndo}
    (storable : ∀ txundo ∈ blockundo.vtxundo, ∀ undo ∈ txundo, undo.Storable) :
    blockundo.stored K = some blockundo.reread := by
  rw [CBlockUndo.stored, mapM_eq_map fun txundo member => mapM_eq_map fun undo inside =>
    (reads_undo lawful (storable txundo member undo inside)).parse]
  rfl

end BitCrystal
