import BitCrystal.Proofs.CoinCodec
import BitCrystal.Model.TestNet

/-! # Coin entries and undo records come back as they were

Sizes are counted in `unsigned int`, so a script has to be shorter than four gigabytes to be written
with its size, and `GetSerializeSize` is the number of bytes modulo 2^32.
-/

namespace BitCrystal

open Reader CScript CCoins CTxOut

variable {K : KeyLibrary}

theorem CScript.getSerializeSize_eq (script : CScript) :
    script.getSerializeSize K = (script.serialize K).length % 2 ^ 32 := by
  rw [CScript.getSerializeSize, CScript.serialize]
  split
  · rfl
  · rw [List.length_append, length_writeVarInt, Nat.add_comm]

theorem CTxOut.compressedSize_eq (txout : CTxOut) : txout.compressedSize K = (txout.serialize K).length % 2 ^ 32 := by
  rw [compressedSize, CTxOut.serialize, List.length_append, length_writeVarInt, CScript.getSerializeSize_eq,
    Nat.add_mod_mod]

theorem CTxInUndo.getSerializeSize_eq (undo : CTxInUndo) :
    undo.getSerializeSize K = (undo.serialize K).length % 2 ^ 32 := by
  have version : (if 0 < undo.nHeight then writeVarInt 4 undo.nVersion else []).length =
      if 0 < undo.nHeight then getSizeOfVarInt 4 undo.nVersion else 0 := by
    split
    · exact length_writeVarInt ..
    · rfl
  rw [CTxInUndo.getSerializeSize, CTxInUndo.serialize, List.length_append, List.length_append, length_writeVarInt,
    version, compressedSize_eq, Nat.add_mod_mod]

namespace CCoins

theorem outputsSize_eq (vout : List CTxOut) (nSize : ℕ) :
    outputsSize K vout (nSize % 2 ^ 32) =
      (nSize + ((vout.filter fun out => ¬ out.isNull).flatMap (CTxOut.serialize K)).length) % 2 ^ 32 := by
  induction vout generalizing nSize with
  | nil => rfl
  | cons txout rest ih =>
    rw [outputsSize]
    by_cases null : txout.isNull
    · rw [if_pos null, ih, List.filter_cons_of_neg (by simpa using null)]
    · rw [if_neg null, compressedSize_eq, ← Nat.add_mod, ih, List.filter_cons_of_pos (by simpa using null),
        List.flatMap_cons, List.length_append, Nat.add_assoc]

theorem getSerializeSize_eq {coins : CCoins} {bytes : List UInt8} (written : coins.serialize K = .ok bytes) :
    coins.getSerializeSize K = .ok (bytes.length % 2 ^ 32) := by
  rw [serialize] at written
  obtain ⟨_, unpruned, written⟩ := Check.bind_eq_ok.mp written
  cases written
  rw [getSerializeSize, unpruned, Check.ok_bind]
  simp only [outputsSize_eq, Nat.mod_add_mod, List.length_append, length_writeVarInt, List.length_map,
    List.length_range]
  apply congrArg (fun n => Except.ok (n % 2 ^ 32))
  omega

end CCoins

/-! ## Round trips -/

/-- An output as `SetNull` leaves it or with an amount in the money range, its script short enough to be
written with its size. -/
structure CTxOut.Sized (out : CTxOut) : Prop where
  value : out = .null ∨ moneyRange out.nValue
  script : out.scriptPubKey.length + nSpecialScripts < 2 ^ 32

/-- An entry with its last output unspent whose fields are in range. -/
structure CCoins.Sized (coins : CCoins) : Prop where
  version : 0 ≤ coins.nVersion ∧ coins.nVersion < 2 ^ 31
  height : 0 < coins.nHeight ∧ coins.nHeight < 2 ^ 31
  some : coins.vout ≠ []
  last : ∀ out ∈ coins.vout.getLast?, ¬ out.isNull
  outputs : ∀ out ∈ coins.vout, out.Sized
  count : coins.vout.length + 6 ≤ 2 ^ 32

/-- An undo record with the metadata of a transaction or with none. -/
structure CTxInUndo.Sized (undo : CTxInUndo) : Prop where
  version : 0 ≤ undo.nVersion ∧ undo.nVersion < 2 ^ 31
  height : 0 < undo.nHeight ∧ undo.nHeight < 2 ^ 31 ∨ undo.metadata = {}
  value : moneyRange undo.txout.nValue
  script : undo.txout.scriptPubKey.length + nSpecialScripts < 2 ^ 32

/-- The entry is written, measured and read back as it is. -/
def CCoins.RoundTrips (K : KeyLibrary) (coins : CCoins) : Prop :=
  ∃ bytes, coins.serialize K = .ok bytes ∧ (unserialize K).Reads bytes coins ∧
    coins.getSerializeSize K = .ok (bytes.length % 2 ^ 32)

def CTxInUndo.RoundTrips (K : KeyLibrary) (undo : CTxInUndo) : Prop :=
  (CTxInUndo.unserialize K).Reads (undo.serialize K) undo ∧
    undo.getSerializeSize K = (undo.serialize K).length % 2 ^ 32

theorem CTxOut.storable_of_moneyRange {out : CTxOut} (value : moneyRange out.nValue)
    (script : out.scriptPubKey.length + nSpecialScripts < 2 ^ 32) : out.Storable :=
  ⟨value.1, value.2.trans_lt (by decide), script⟩

theorem CTxOut.Sized.canonical {out : CTxOut} (sized : out.Sized) : out.canonical = out := by
  rw [CTxOut.canonical]
  split
  next null =>
    rcases sized.value with rfl | value
    · rfl
    · have nonneg := value.1
      rw [null] at nonneg
      contradiction
  next => rfl

theorem CCoins.Sized.roundTrips (lawful : K.Lawful) {coins : CCoins} (sized : coins.Sized) : coins.RoundTrips K := by
  have outputs : ∀ out ∈ coins.vout, ¬ out.isNull → out.Storable := by
    intro out member notNull
    rcases (sized.outputs out member).value with rfl | value
    · exact absurd isNull_null notNull
    · exact storable_of_moneyRange value (sized.outputs out member).script
  have unpruned : ¬ coins.isPruned := by
    have final := List.getLast?_eq_some_getLast sized.some
    exact fun pruned => sized.last _ final (pruned _ (List.getLast_mem sized.some))
  have storable : coins.Storable :=
    ⟨sized.last, outputs, sized.count, sized.height.2, by have := sized.version; omega⟩
  obtain ⟨bytes, written, reads⟩ := reads_coins lawful storable unpruned
  have same : coins.vout.map CTxOut.canonical = coins.vout :=
    (List.map_congr_left fun out member => (sized.outputs out member).canonical).trans (List.map_id _)
  rw [wireInt_of_nonneg sized.version.1, same] at reads
  exact ⟨bytes, written, reads, CCoins.getSerializeSize_eq written⟩

theorem CTxInUndo.Sized.roundTrips (lawful : K.Lawful) {undo : CTxInUndo} (sized : undo.Sized) : undo.RoundTrips K := by
  have storable : undo.Storable := by
    refine ⟨storable_of_moneyRange sized.value sized.script, ?_, ?_, by have := sized.version; omega⟩
    · rcases sized.height with height | bare
      · exact height.2
      · rw [show undo.nHeight = 0 from congrArg CoinMeta.nHeight bare]
        decide
    · intro zero
      rcases sized.height with height | bare
      · omega
      · exact bare
  have reads := reads_undo lawful storable
  rw [wireInt_of_nonneg sized.version.1] at reads
  exact ⟨reads, CTxInUndo.getSerializeSize_eq undo⟩

/-- Coin entries and undo records whose fields are in range come back as they were, and are measured
as they are written. -/
theorem roundTrips_of_sized (lawful : K.Lawful) :
    (∀ coins : CCoins, coins.Sized → coins.RoundTrips K) ∧ ∀ undo : CTxInUndo, undo.Sized → undo.RoundTrips K :=
  ⟨fun _ => CCoins.Sized.roundTrips lawful, fun _ => CTxInUndo.Sized.roundTrips lawful⟩

open TestNet in
/-- A pay-to-script-hash output behind a null one, and its undo record. -/
theorem roundTrips_of_sized_scriptHash :
    let out : CTxOut := ⟨10 ^ 12, [OP_HASH160, 20] ++ List.replicate 20 7 ++ [OP_EQUAL]⟩
    CCoins.RoundTrips keys { vout := [.null, out], nHeight := 5, nVersion := 1 } ∧
      CTxInUndo.RoundTrips keys { txout := out, nHeight := 5, nVersion := 1 } := by
  obtain ⟨coins, undo⟩ := roundTrips_of_sized keys_lawful
  refine ⟨coins _ ⟨by decide, by decide, by decide, ?_, ?_, by decide⟩, undo _ ⟨by decide, by decide, by decide, by decide⟩⟩
  · intro out last
    cases last
    decide
  · intro out member
    rcases List.mem_cons.mp member with rfl | member
    · exact ⟨.inl rfl, by decide⟩
    · cases List.mem_singleton.mp member
      exact ⟨.inr (by decide), by decide⟩

/-- An entry with one output of no value. -/
def oneOutput (script : CScript) (nHeight : ℕ) : CCoins := { vout := [⟨0, script⟩], nHeight, nVersion := 1 }

private theorem serialize_oneOutput (script : CScript) (nHeight : ℕ) :
    (oneOutput script nHeight).serialize TestNet.keys =
      .ok ([1, 2, 0] ++ (script.serialize TestNet.keys ++ writeVarInt 4 nHeight)) := by
  have mask : calcMaskSize (oneOutput script nHeight).vout = (0, 0) := by
    simp [calcMaskSize, oneOutput]
  have first : unspentAt (oneOutput script nHeight).vout 0 = true := by
    simp [unspentAt, oneOutput, isNull]
  have second : unspentAt (oneOutput script nHeight).vout 1 = false := by
    simp [unspentAt, oneOutput]
  have code : (oneOutput script nHeight).headerCode = 2 := by
    simp only [headerCode, mask, first, second]
    rfl
  have outs : (oneOutput script nHeight).vout.filter (fun out => decide (¬ out.isNull)) = [⟨0, script⟩] := by
    simp [oneOutput, isNull]
  simp only [CCoins.serialize, mask, first, second, code, outs]
  simp only [true_or, not_true_eq_false, rejectIf, if_false, Check.ok_bind, List.flatMap_cons, List.flatMap_nil,
    List.append_nil, CTxOut.serialize, List.append_assoc]
  rfl

private theorem serialize_zeros {n : ℕ} (long : 67 < n) : CScript.serialize TestNet.keys (List.replicate n 0) =
      writeVarInt 4 (((n + nSpecialScripts) % 2 ^ 32 : ℕ) : ℤ) ++ List.replicate n 0 := by
  have absent : compress TestNet.keys (List.replicate n 0) = none := by
    have keyID : isToKeyID (List.replicate n 0) = none := if_neg (by simp; omega)
    have scriptID : isToScriptID (List.replicate n 0) = none := if_neg (by simp; omega)
    have pubKey : isToPubKey TestNet.keys (List.replicate n 0) = none := by
      rw [isToPubKey, if_neg (by simp; omega), if_neg (by simp; omega)]
    rw [compress, keyID, scriptID, pubKey]
  rw [CScript.serialize, absent, List.length_replicate]

/-- The size of a script of 2^32 bytes is written as that of an empty one. -/
theorem not_roundTrips_longScript :
    let coins := oneOutput (List.replicate (2 ^ 32) 0) 1
    0 ≤ coins.nVersion ∧ 0 < coins.nHeight ∧ coins.nHeight < 2 ^ 31 ∧ (∀ out ∈ coins.vout, moneyRange out.nValue) ∧
      TestNet.keys.Lawful ∧ ¬ coins.RoundTrips TestNet.keys := by
  intro coins
  refine ⟨by decide, by decide, by decide, fun out member => ?_, TestNet.keys_lawful, ?_⟩
  · cases List.mem_singleton.mp member
    exact ⟨le_rfl, by decide⟩
  rintro ⟨bytes, written, reads, -⟩
  -- The bytes start with those of an entry with an empty script at height zero.
  have storable : (oneOutput [] 0).Storable := by
    refine ⟨fun out last => ?_, fun out member _ => ?_, by decide, by decide, by decide⟩
    · cases last
      decide
    · cases List.mem_singleton.mp member
      exact ⟨by decide, by decide, by decide⟩
  obtain ⟨front, writtenFront, readsFront⟩ := reads_coins TestNet.keys_lawful storable (by decide)
  have zeros : List.replicate (2 ^ 32) (0 : UInt8) = 0 :: List.replicate (2 ^ 32 - 1) 0 :=
    List.replicate_succ (n := 2 ^ 32 - 1)
  rw [serialize_oneOutput] at written writtenFront
  rw [serialize_zeros (by decide)] at written
  cases written
  cases writtenFront
  have starts : [1, 2, 0] ++ (writeVarInt 4 (((2 ^ 32 + nSpecialScripts) % 2 ^ 32 : ℕ) : ℤ) ++
      List.replicate (2 ^ 32) 0 ++ writeVarInt 4 (1 : ℕ)) ++ [] =
      [1, 2, 0] ++ (CScript.serialize TestNet.keys [] ++ writeVarInt 4 (0 : ℕ)) ++
        (List.replicate (2 ^ 32 - 1) 0 ++ writeVarInt 4 (1 : ℕ)) := by
    have size : (2 ^ 32 + nSpecialScripts) % 2 ^ 32 = 6 := by decide
    have empty : CScript.serialize TestNet.keys [] = writeVarInt 4 (6 : ℕ) := by decide
    have zero : writeVarInt 4 (0 : ℕ) = [0] := by decide
    rw [zeros, size, empty, zero]
    simp only [List.append_assoc, List.cons_append, List.nil_append, List.append_nil]
  have same := (reads.unique readsFront starts).1
  exact absurd (congrArg CCoins.nHeight same) (by decide)

end BitCrystal

/-! ## Amount compression

Both directions of `CTxOutCompressor` are inverse where their sums and products stay below 2^64.
The values computed on the way are listed in exact arithmetic, the shifts of the digits included.
-/

namespace BitCrystal

/-- The sums and products of `CompressAmount` in the order of their evaluation, in exact arithmetic. -/
def compressSteps (n : ℕ) : List ℕ :=
  if n = 0 then []
  else
    let (n, e) := stripZeros 9 n
    if e < 9 then
      let d := n % 10
      let n := n / 10
      [n * 9, n * 9 + d, (n * 9 + d - 1) * 10, 1 + (n * 9 + d - 1) * 10, 1 + (n * 9 + d - 1) * 10 + e]
    else [(n - 1) * 10, 1 + (n - 1) * 10, 1 + (n - 1) * 10 + 9]

/-- The sums and products of `DecompressAmount` in the order of their evaluation, in exact arithmetic. -/
def decompressSteps (x : ℕ) : List ℕ :=
  if x = 0 then []
  else
    let x := x - 1
    let e := x % 10
    let x := x / 10
    let raise (n : ℕ) := (List.range e).map fun i => n * 10 ^ (i + 1)
    if e < 9 then
      let d := x % 9 + 1
      let n := x / 9
      n * 10 :: (n * 10 + d) :: raise (n * 10 + d)
    else (x + 1) :: raise (x + 1)

/-- No sum or product of the computation leaves 64 bits. -/
def WithoutOverflow (steps : List ℕ) : Prop := ∀ value ∈ steps, value < 2 ^ 64

theorem compressSteps_fit {n : ℕ} (bound : n < 2 ^ 64 / 9) : WithoutOverflow (compressSteps n) := by
  intro value member
  unfold compressSteps at member
  split at member
  · simp at member
  next nonzero =>
    obtain ⟨left, few, product, stopped⟩ := stripZeros_spec 9 n (by omega)
    generalize stripZeros 9 n = split at left few product stopped member
    obtain ⟨m, e⟩ := split
    dsimp only at left few product stopped member
    have small : m ≤ n := by
      rw [← product]
      exact Nat.le_mul_of_pos_right m (Nat.pow_pos (by decide))
    split at member
    next inside =>
      simp only [List.mem_cons, List.not_mem_nil, or_false] at member
      omega
    next outside =>
      obtain rfl : e = 9 := by omega
      simp only [List.mem_cons, List.not_mem_nil, or_false] at member
      omega

/-- Raising to an exponent only grows, so its last step bounds all of them. -/
private theorem raise_fit {m e : ℕ} (bound : m * 10 ^ e < 2 ^ 64) :
    ∀ value ∈ (List.range e).map fun i => m * 10 ^ (i + 1), value < 2 ^ 64 := by
  intro value member
  obtain ⟨i, inside, rfl⟩ := List.mem_map.mp member
  rw [List.mem_range] at inside
  exact (Nat.mul_le_mul_left m (Nat.pow_le_pow_right (by decide) inside)).trans_lt bound

/-- Decompression overflows exactly when its result does not fit. -/
theorem decompressSteps_fit_iff {x : ℕ} (nonzero : x ≠ 0) :
    WithoutOverflow (decompressSteps x) ↔ (unpackAmount x).1 * 10 ^ (unpackAmount x).2 < 2 ^ 64 := by
  have steps : decompressSteps x = if (x - 1) % 10 < 9 then
      (x - 1) / 10 / 9 * 10 :: (unpackAmount x).1 ::
        (List.range (unpackAmount x).2).map fun i => (unpackAmount x).1 * 10 ^ (i + 1)
      else (unpackAmount x).1 :: (List.range (unpackAmount x).2).map fun i => (unpackAmount x).1 * 10 ^ (i + 1) := by
    unfold decompressSteps unpackAmount
    rw [if_neg nonzero]
    dsimp only
    split <;> rfl
  have start : (unpackAmount x).1 ≤ (unpackAmount x).1 * 10 ^ (unpackAmount x).2 :=
    Nat.le_mul_of_pos_right _ (Nat.pow_pos (by decide))
  have tens : (x - 1) % 10 < 9 → (x - 1) / 10 / 9 * 10 ≤ (unpackAmount x).1 := by
    intro inside
    unfold unpackAmount
    rw [if_pos inside]
    exact Nat.le_add_right ..
  constructor
  · intro fit
    have held : (unpackAmount x).1 < 2 ^ 64 := by
      apply fit
      rw [steps]
      split <;> simp
    rcases Nat.eq_zero_or_pos (unpackAmount x).2 with zero | positive
    · rwa [zero, pow_zero, mul_one]
    · apply fit
      have last : (unpackAmount x).1 * 10 ^ (unpackAmount x).2 ∈
          (List.range (unpackAmount x).2).map fun i => (unpackAmount x).1 * 10 ^ (i + 1) :=
        List.mem_map.mpr ⟨(unpackAmount x).2 - 1, List.mem_range.mpr (by omega), by rw [Nat.sub_add_cancel positive]⟩
      rw [steps]
      split
      · exact List.mem_cons_of_mem _ (List.mem_cons_of_mem _ last)
      · exact List.mem_cons_of_mem _ last
  · intro bound value member
    rw [steps] at member
    split at member
    next inside =>
      have tens := tens inside
      rcases List.mem_cons.mp member with rfl | member
      · omega
      rcases List.mem_cons.mp member with rfl | member
      · omega
      exact raise_fit bound value member
    next outside =>
      rcases List.mem_cons.mp member with rfl | member
      · omega
      exact raise_fit bound value member

theorem decompressSteps_compressAmount_fit {n : ℕ} (bound : n < 2 ^ 64 / 9) :
    WithoutOverflow (decompressSteps (compressAmount n)) := by
  rcases Nat.eq_zero_or_pos n with rfl | positive
  · exact fun value member => absurd member (List.not_mem_nil)
  rw [decompressSteps_fit_iff (unpackAmount_compressAmount positive bound).1,
    unpack_compressAmount_product positive bound]
  omega

theorem compressAmount_decompressAmount {x : ℕ} (range : x < 2 ^ 64)
    (fit : WithoutOverflow (decompressSteps x)) : compressAmount (decompressAmount x) = x := by
  rcases Nat.eq_zero_or_pos x with rfl | positive
  · rfl
  rw [decompressSteps_fit_iff positive.ne'] at fit
  rw [decompressAmount_of_ne_zero positive.ne', Nat.mod_eq_of_lt fit, compressAmount_unpack positive.ne' range]

/-- Compression and decompression are inverse on the amounts and the codes that need no more than 64 bits. -/
theorem amount_compression_lossless :
    (∀ n < 2 ^ 64 / 9, decompressAmount (compressAmount n) = n ∧ WithoutOverflow (compressSteps n) ∧
      WithoutOverflow (decompressSteps (compressAmount n))) ∧
    Set.InjOn compressAmount {n | n < 2 ^ 64 / 9} ∧
    ∀ x < 2 ^ 64, WithoutOverflow (decompressSteps x) → compressAmount (decompressAmount x) = x := by
  refine ⟨?_, ?_, ?_⟩
  · intro n bound
    exact ⟨decompressAmount_compressAmount bound, compressSteps_fit bound, decompressSteps_compressAmount_fit bound⟩
  · intro n bound m bound' same
    rw [← decompressAmount_compressAmount bound, same, decompressAmount_compressAmount bound']
  · intro x range fit
    exact compressAmount_decompressAmount range fit

/-- The largest amount of the range and a code that decompresses without overflow. -/
theorem amount_compression_lossless_at :
    decompressAmount (compressAmount (2 ^ 64 / 9 - 1)) = 2 ^ 64 / 9 - 1 ∧
      compressAmount (decompressAmount 1000) = 1000 :=
  ⟨(amount_compression_lossless.1 _ (by decide)).1, amount_compression_lossless.2.2 1000 (by decide) (by
    unfold WithoutOverflow
    decide)⟩

end BitCrystal
