import BitCrystal.Machine.Reader
import BitCrystal.Model.Coins

/-! # Integers and coins in the database

`WriteVarInt` collects base-128 digits in an array sized for the integer type, lowest digit first,
and writes them in reverse. It compares and shifts the integer as it is, so a negative value of a
signed type has a single digit. `ReadVarInt` accumulates in the integer type.
-/

namespace BitCrystal

/-- The size of the array `tmp` for an integer type of this many bytes. -/
def varIntRoom (sizeof : ℕ) : ℕ := (sizeof * 8 + 6) / 7

/-- The digits `WriteVarInt` collects, the lowest first. A digit behind the lowest has its high bit
set; the loop would write past the array when the room runs out. -/
def varIntDigits (continued : Bool) : ℕ → ℤ → List UInt8
  | 0, _ => []
  | room + 1, n =>
    let digit := UInt8.ofNat ((n % 128).toNat + if continued then 128 else 0)
    if n ≤ 0x7F then [digit] else digit :: varIntDigits true room (n / 128 - 1)

def writeVarInt (sizeof : ℕ) (n : ℤ) : List UInt8 := (varIntDigits false (varIntRoom sizeof) n).reverse

/-- The loop of `GetSizeOfVarInt`, which ends within as many rounds as there is room for digits. -/
def sizeOfVarIntLoop : ℕ → ℤ → ℕ
  | 0, _ => 0
  | rounds + 1, n => if n ≤ 0x7F then 1 else 1 + sizeOfVarIntLoop rounds (n / 128 - 1)

def getSizeOfVarInt (sizeof : ℕ) (n : ℤ) : ℕ := sizeOfVarIntLoop (varIntRoom sizeof) n

/-- The loop of `ReadVarInt` for an unsigned type of this many bytes, from the value read so far. -/
def readVarIntLoop (sizeof : ℕ) : List UInt8 → ℕ → Option (ℕ × List UInt8)
  | [], _ => none
  | chData :: stream, n =>
    let n := (n * 128 + chData.toNat % 128) % 2 ^ (8 * sizeof)
    if 128 ≤ chData.toNat then readVarIntLoop sizeof stream ((n + 1) % 2 ^ (8 * sizeof))
    else some (n, stream)

def readVarInt (sizeof : ℕ) : Reader ℕ := fun stream => readVarIntLoop sizeof stream 0

/-- `ReadVarInt<int>`. -/
def readVarIntSigned : Reader ℤ := do
  let n ← readVarInt 4
  return (n : ℤ).bmod (2 ^ 32)

private theorem length_varIntDigits (continued : Bool) (room : ℕ) (n : ℤ) :
    (varIntDigits continued room n).length = sizeOfVarIntLoop room n := by
  induction room generalizing continued n with
  | zero => rfl
  | succ room ih =>
    rw [varIntDigits, sizeOfVarIntLoop]
    split
    · rfl
    · rw [List.length_cons, ih, Nat.add_comm]

@[simp] theorem length_writeVarInt (sizeof : ℕ) (n : ℤ) : (writeVarInt sizeof n).length = getSizeOfVarInt sizeof n := by
  rw [writeVarInt, List.length_reverse, length_varIntDigits, getSizeOfVarInt]

/-- One round of the loop: the number is its last digit, or that digit comes before those of what is left. -/
theorem varIntDigits_cases (continued : Bool) {room m : ℕ} (bound : m < 128 ^ (room + 1)) :
    ∃ chData : UInt8, chData.toNat = m % 128 + (if continued then 128 else 0) ∧
      (m < 128 ∧ varIntDigits continued (room + 1) m = [chData] ∨
        128 ≤ m ∧ m / 128 - 1 + 1 < 128 ^ room ∧
          varIntDigits continued (room + 1) m = chData :: varIntDigits true room (m / 128 - 1 : ℕ)) := by
  refine ⟨UInt8.ofNat (((m : ℤ) % 128).toNat + if continued then 128 else 0), ?_, ?_⟩
  · rw [UInt8.toNat_ofNat']
    split <;> omega
  · rw [varIntDigits]
    by_cases small : m < 128
    · exact .inl ⟨small, if_pos (by omega)⟩
    · have higher : (m : ℤ) / 128 - 1 = ((m / 128 - 1 : ℕ) : ℤ) := by omega
      rw [pow_succ] at bound
      exact .inr ⟨by omega, by omega, higher ▸ if_neg (by omega)⟩

/-- The continued digits of `m` leave `m + 1` in the accumulator. -/
private theorem readVarIntLoop_digits {sizeof room m : ℕ} (bound : m + 1 < 128 ^ room)
    (width : m + 1 < 2 ^ (8 * sizeof)) (rest : List UInt8) :
    readVarIntLoop sizeof ((varIntDigits true room m).reverse ++ rest) 0 =
      readVarIntLoop sizeof rest (m + 1) := by
  induction room generalizing m rest with
  | zero =>
    rw [pow_zero] at bound
    omega
  | succ room ih =>
    obtain ⟨chData, digit, outcome⟩ := varIntDigits_cases true (Nat.lt_of_succ_lt bound)
    rw [if_pos rfl] at digit
    rcases outcome with ⟨small, digits⟩ | ⟨large, fewer, digits⟩
    · rw [digits, List.reverse_singleton, List.singleton_append, readVarIntLoop, digit, if_pos (by omega)]
      have first : (0 * 128 + (m % 128 + 128) % 128) % 2 ^ (8 * sizeof) = m := by
        rw [Nat.mod_eq_of_lt] <;> omega
      rw [first, Nat.mod_eq_of_lt width]
    · rw [digits, List.reverse_cons, List.append_assoc, ih fewer (by omega), List.singleton_append, readVarIntLoop,
        digit, if_pos (by omega)]
      have next : ((m / 128 - 1 + 1) * 128 + (m % 128 + 128) % 128) % 2 ^ (8 * sizeof) = m := by
        rw [Nat.mod_eq_of_lt] <;> omega
      rw [next, Nat.mod_eq_of_lt width]

/-- The last byte that is written, and the continued digits before it. -/
theorem writeVarInt_cases {sizeof n : ℕ} (positive : 0 < sizeof) (bound : n < 2 ^ (8 * sizeof)) :
    ∃ chData : UInt8, chData.toNat = n % 128 ∧ (n < 128 ∧ writeVarInt sizeof n = [chData] ∨
      128 ≤ n ∧ ∃ room, n / 128 - 1 + 1 < 128 ^ room ∧
        writeVarInt sizeof n = (varIntDigits true room (n / 128 - 1 : ℕ)).reverse ++ [chData]) := by
  have enough : 2 ^ (8 * sizeof) ≤ 128 ^ varIntRoom sizeof := by
    rw [show 128 = 2 ^ 7 from rfl, ← pow_mul]
    apply Nat.pow_le_pow_right (by decide)
    unfold varIntRoom
    omega
  obtain ⟨room, more⟩ : ∃ room, varIntRoom sizeof = room + 1 :=
    Nat.exists_eq_succ_of_ne_zero (by unfold varIntRoom; omega)
  obtain ⟨chData, digit, outcome⟩ := varIntDigits_cases false (more ▸ bound.trans_le enough)
  refine ⟨chData, digit, ?_⟩
  rw [writeVarInt, more]
  rcases outcome with ⟨small, digits⟩ | ⟨large, fewer, digits⟩
  · exact .inl ⟨small, by rw [digits, List.reverse_singleton]⟩
  · exact .inr ⟨large, room, fewer, by rw [digits, List.reverse_cons]⟩

/-- Every value of an unsigned type is read back. -/
theorem reads_varInt {sizeof n : ℕ} (positive : 0 < sizeof) (bound : n < 2 ^ (8 * sizeof)) :
    (readVarInt sizeof).Reads (writeVarInt sizeof n) n := by
  intro rest
  rw [StateT.run, readVarInt]
  obtain ⟨chData, digit, ⟨small, written⟩ | ⟨large, room, fewer, written⟩⟩ := writeVarInt_cases positive bound
  · rw [written, List.singleton_append, readVarIntLoop, digit, if_neg (by omega)]
    have only : (0 * 128 + n % 128 % 128) % 2 ^ (8 * sizeof) = n := by
      rw [Nat.mod_eq_of_lt] <;> omega
    rw [only]
  · rw [written, List.append_assoc, readVarIntLoop_digits fewer (by omega), List.singleton_append, readVarIntLoop, digit,
      if_neg (by omega)]
    have last : ((n / 128 - 1 + 1) * 128 + n % 128 % 128) % 2 ^ (8 * sizeof) = n := by
      rw [Nat.mod_eq_of_lt] <;> omega
    rw [last]

/-- What reading back an `int` gives: a negative one keeps its lowest seven bits only. -/
def wireInt (n : ℤ) : ℤ := if n < 0 then n % 128 else n

theorem wireInt_nonneg (n : ℤ) : 0 ≤ wireInt n := by
  unfold wireInt
  split <;> omega

theorem wireInt_of_nonneg {n : ℤ} (nonneg : 0 ≤ n) : wireInt n = n := if_neg (by omega)

private theorem writeVarInt_negative {n : ℤ} (negative : n < 0) : writeVarInt 4 n = writeVarInt 4 (n % 128).toNat := by
  have small : n ≤ 0x7F := by omega
  have digit : (((n % 128).toNat : ℕ) : ℤ) ≤ 0x7F := by omega
  have same : ((((n % 128).toNat : ℕ) : ℤ) % 128).toNat = (n % 128).toNat := by omega
  rw [writeVarInt, writeVarInt, show varIntRoom 4 = 4 + 1 from rfl]
  simp only [varIntDigits, if_pos small, if_pos digit, same]

theorem reads_varIntSigned {n : ℤ} (low : -2 ^ 31 ≤ n) (high : n < 2 ^ 31) :
    readVarIntSigned.Reads (writeVarInt 4 n) (wireInt n) := by
  obtain ⟨m, bound, written, value⟩ : ∃ m : ℕ, m < 2 ^ 31 ∧ writeVarInt 4 n = writeVarInt 4 m ∧ wireInt n = m := by
    rcases lt_or_ge n 0 with negative | nonneg
    · exact ⟨(n % 128).toNat, by omega, writeVarInt_negative negative, by rw [wireInt, if_pos negative]; omega⟩
    · exact ⟨n.toNat, by omega, by rw [Int.toNat_of_nonneg nonneg], by rw [wireInt_of_nonneg nonneg]; omega⟩
  have reads : readVarIntSigned.Reads (writeVarInt 4 m) ((m : ℤ).bmod (2 ^ 32)) :=
    (reads_varInt (by decide) (bound.trans (by decide))).map fun m : ℕ => (m : ℤ).bmod (2 ^ 32)
  rw [Int.bmod_eq_of_le (by omega) (by omega)] at reads
  rw [written, value]
  exact reads

/-! ## The coin database and undo formats

`CTxOutCompressor` shortens amounts and the usual scripts, `CCoins::Serialize` writes a bit vector
of the unspent outputs and these outputs, `CTxInUndo::Serialize` one output with its metadata. The
elliptic-curve operations on public keys are parameters.
-/

/-- The operations of `CKey` the script compressor uses. -/
structure KeyLibrary where
  /-- `SetPubKey` accepts these bytes. -/
  setPubKey : List UInt8 → Bool
  /-- `SetPubKey`, `SetCompressedPubKey(false)` and `GetPubKey` of a compressed key. -/
  decompressPubKey : List UInt8 → Option (List UInt8)

/-- A valid uncompressed key is recovered from its first coordinate and the parity of the second. -/
structure KeyLibrary.Lawful (K : KeyLibrary) : Prop where
  recovers : ∀ key : List UInt8, key.length = 65 → key.head? = some 0x04 → K.setPubKey key = true →
    K.decompressPubKey (UInt8.ofNat (2 + (key.getLast?.getD 0).toNat % 2) :: (key.drop 1).take 32) = some key

/-- Divide by ten while that is exact, at most `left` times. -/
def stripZeros : ℕ → ℕ → ℕ × ℕ
  | 0, n => (n, 0)
  | left + 1, n => if n % 10 = 0 then ((stripZeros left (n / 10)).1, (stripZeros left (n / 10)).2 + 1) else (n, 0)

/-- `CTxOutCompressor::CompressAmount` on `uint64`. -/
def compressAmount (n : ℕ) : ℕ :=
  if n = 0 then 0
  else
    let (n, e) := stripZeros 9 n
    if e < 9 then (1 + (n / 10 * 9 + n % 10 - 1) * 10 + e) % 2 ^ 64
    else (1 + (n - 1) * 10 + 9) % 2 ^ 64

/-- `CTxOutCompressor::DecompressAmount` on `uint64`. -/
def decompressAmount (x : ℕ) : ℕ :=
  if x = 0 then 0
  else
    let x := x - 1
    let e := x % 10
    let x := x / 10
    let n := if e < 9 then x / 9 * 10 + (x % 9 + 1) else x + 1
    n * 10 ^ e % 2 ^ 64

namespace CScript

/-- `IsToKeyID`: the hash of a pay-to-pubkey-hash script. -/
def isToKeyID (script : CScript) : Option (List UInt8) :=
  if script.length = 25 ∧ script.take 3 = [OP_DUP, OP_HASH160, 20] ∧
      script.drop 23 = [OP_EQUALVERIFY, OP_CHECKSIG] then
    some ((script.drop 3).take 20)
  else none

/-- `IsToScriptID`: the hash of a pay-to-script-hash script. -/
def isToScriptID (script : CScript) : Option (List UInt8) :=
  if script.length = 23 ∧ script.take 2 = [OP_HASH160, 20] ∧ script.drop 22 = [OP_EQUAL] then
    some ((script.drop 2).take 20)
  else none

/-- `IsToPubKey`: the key of a pay-to-pubkey script; an uncompressed one has to be valid. -/
def isToPubKey (K : KeyLibrary) (script : CScript) : Option (List UInt8) :=
  if script.length = 35 ∧ script.drop 34 = [OP_CHECKSIG] ∧
      (script.take 2 = [33, 0x02] ∨ script.take 2 = [33, 0x03]) then
    some ((script.drop 1).take 33)
  else if script.length = 67 ∧ script.drop 66 = [OP_CHECKSIG] ∧ script.take 2 = [65, 0x04] ∧
      K.setPubKey ((script.drop 1).take 65) then
    some ((script.drop 1).take 65)
  else none

/-- `Compress`. -/
def compress (K : KeyLibrary) (script : CScript) : Option (List UInt8) :=
  match script.isToKeyID with
  | some keyID => some (0x00 :: keyID)
  | none =>
    match script.isToScriptID with
    | some scriptID => some (0x01 :: scriptID)
    | none =>
      match script.isToPubKey K with
      | some [] => none
      | some (form :: key) =>
        if form = 0x02 ∨ form = 0x03 then some (form :: key)
        else some (UInt8.ofNat (4 + (key.getLast?.getD 0).toNat % 2) :: key.take 32)
      | none => none

/-- `Decompress`, which leaves the script as it was when it fails. -/
def decompress (K : KeyLibrary) (nSize : ℕ) (vch : List UInt8) (script : CScript) : CScript :=
  if nSize = 0 then [OP_DUP, OP_HASH160, 20] ++ vch ++ [OP_EQUALVERIFY, OP_CHECKSIG]
  else if nSize = 1 then [OP_HASH160, 20] ++ vch ++ [OP_EQUAL]
  else if nSize = 2 ∨ nSize = 3 then [33, UInt8.ofNat nSize] ++ vch ++ [OP_CHECKSIG]
  else
    match K.decompressPubKey (UInt8.ofNat (nSize - 2) :: vch) with
    | some pubkey => [65] ++ pubkey ++ [OP_CHECKSIG]
    | none => script

def nSpecialScripts : ℕ := 6

/-- `GetSpecialSize`. -/
def getSpecialSize (nSize : ℕ) : ℕ := if nSize ≤ 1 then 20 else 32

/-- `CScriptCompressor::Serialize`. -/
def serialize (K : KeyLibrary) (script : CScript) : List UInt8 :=
  match script.compress K with
  | some compr => compr
  | none => writeVarInt 4 (((script.length + nSpecialScripts) % 2 ^ 32 : ℕ) : ℤ) ++ script

/-- `CScriptCompressor::GetSerializeSize`, an `unsigned int` like all sizes below. -/
def getSerializeSize (K : KeyLibrary) (script : CScript) : ℕ :=
  match script.compress K with
  | some compr => compr.length % 2 ^ 32
  | none => (script.length + getSizeOfVarInt 4 (((script.length + nSpecialScripts) % 2 ^ 32 : ℕ) : ℤ)) % 2 ^ 32

/-- `CScriptCompressor::Unserialize` into a script that is empty before. -/
def unserialize (K : KeyLibrary) : Reader CScript := do
  let nSize ← readVarInt 4
  if nSize < nSpecialScripts then
    let vch ← Reader.bytes (getSpecialSize nSize)
    return decompress K nSize vch []
  else Reader.bytes (nSize - nSpecialScripts)

end CScript

namespace CTxOut

/-- `CTxOutCompressor` when writing. -/
def serialize (K : KeyLibrary) (txout : CTxOut) : List UInt8 :=
  writeVarInt 8 (compressAmount (txout.nValue % 2 ^ 64).toNat) ++ txout.scriptPubKey.serialize K

/-- `CTxOutCompressor` when measuring. -/
def compressedSize (K : KeyLibrary) (txout : CTxOut) : ℕ :=
  (getSizeOfVarInt 8 (compressAmount (txout.nValue % 2 ^ 64).toNat) + txout.scriptPubKey.getSerializeSize K) % 2 ^ 32

/-- `CTxOutCompressor` when reading into a default output. -/
def unserialize (K : KeyLibrary) : Reader CTxOut := do
  let nVal ← readVarInt 8
  let scriptPubKey ← CScript.unserialize K
  return ⟨(decompressAmount nVal : ℤ).bmod (2 ^ 64), scriptPubKey⟩

end CTxOut

namespace CTxInUndo

def serialize (K : KeyLibrary) (undo : CTxInUndo) : List UInt8 :=
  writeVarInt 4 (((undo.nHeight * 2 + if undo.fCoinBase then 1 else 0) % 2 ^ 32 : ℕ) : ℤ) ++
    (if 0 < undo.nHeight then writeVarInt 4 undo.nVersion else []) ++ undo.txout.serialize K

def getSerializeSize (K : KeyLibrary) (undo : CTxInUndo) : ℕ :=
  (getSizeOfVarInt 4 (((undo.nHeight * 2 + if undo.fCoinBase then 1 else 0) % 2 ^ 32 : ℕ) : ℤ) +
    (if 0 < undo.nHeight then getSizeOfVarInt 4 undo.nVersion else 0) + undo.txout.compressedSize K) % 2 ^ 32

def unserialize (K : KeyLibrary) : Reader CTxInUndo := do
  let nCode ← readVarInt 4
  let nVersion ← (if 0 < nCode / 2 then readVarIntSigned else pure 0)
  let txout ← CTxOut.unserialize K
  return { txout, fCoinBase := nCode % 2 = 1, nHeight := nCode / 2, nVersion }

end CTxInUndo

namespace CCoins

/-- `!vout[i].IsNull()`, false behind the end. -/
def unspentAt (vout : List CTxOut) (i : ℕ) : Bool := vout[i]?.any fun out => ¬ out.isNull

/-- A byte with these bits, the lowest first. -/
def packByte (bit : ℕ → Bool) : UInt8 :=
  (List.range 8).foldl (fun chAvail i => if bit i then chAvail ||| (1 <<< UInt8.ofNat i) else chAvail) 0

def unpackByte (chAvail : UInt8) : List Bool :=
  (List.range 8).map fun p => (chAvail &&& (1 <<< UInt8.ofNat p)) != 0

/-- The byte of the bit vector for the outputs from `2 + 8 * b` on. -/
def availByte (vout : List CTxOut) (b : ℕ) : UInt8 := packByte fun i => unspentAt vout (2 + b * 8 + i)

/-- `CalcMaskSize`: the bytes up to the last one in use and the number of non-zero bytes. -/
def calcMaskSize (vout : List CTxOut) : ℕ × ℕ :=
  let used := (List.range ((vout.length - 2 + 7) / 8)).filter fun b => decide (availByte vout b ≠ 0)
  (used.getLast?.elim 0 (· + 1), used.length)

/-- The word `nCode`. -/
def headerCode (coins : CCoins) : ℕ :=
  let fFirst := unspentAt coins.vout 0
  let fSecond := unspentAt coins.vout 1
  8 * ((calcMaskSize coins.vout).2 - if fFirst || fSecond then 0 else 1) + (if coins.fCoinBase then 1 else 0) +
    (if fFirst then 2 else 0) + if fSecond then 4 else 0

/-- `CCoins::Serialize`, whose assertion only a pruned entry fails. -/
def serialize (K : KeyLibrary) (coins : CCoins) : Check (List UInt8) := do
  rejectIf (¬ (unspentAt coins.vout 0 ∨ unspentAt coins.vout 1 ∨ (calcMaskSize coins.vout).2 ≠ 0))
    (.assertion "fFirst || fSecond || nMaskCode")
  return writeVarInt 4 coins.nVersion ++ (writeVarInt 4 (coins.headerCode % 2 ^ 32 : ℕ) ++
    ((List.range (calcMaskSize coins.vout).1).map (availByte coins.vout) ++
      ((coins.vout.filter fun out => ¬ out.isNull).flatMap (CTxOut.serialize K) ++
        writeVarInt 4 coins.nHeight)))

/-- The loop of `GetSerializeSize` over the outputs. -/
def outputsSize (K : KeyLibrary) : List CTxOut → ℕ → ℕ
  | [], nSize => nSize
  | txout :: rest, nSize =>
    outputsSize K rest (if txout.isNull then nSize else (nSize + txout.compressedSize K) % 2 ^ 32)

/-- `CCoins::GetSerializeSize`. -/
def getSerializeSize (K : KeyLibrary) (coins : CCoins) : Check ℕ := do
  rejectIf (¬ (unspentAt coins.vout 0 ∨ unspentAt coins.vout 1 ∨ (calcMaskSize coins.vout).2 ≠ 0))
    (.assertion "fFirst || fSecond || nMaskCode")
  let nSize := (getSizeOfVarInt 4 coins.nVersion + getSizeOfVarInt 4 (coins.headerCode % 2 ^ 32 : ℕ)) % 2 ^ 32
  let nSize := outputsSize K coins.vout ((nSize + (calcMaskSize coins.vout).1) % 2 ^ 32)
  return (nSize + getSizeOfVarInt 4 coins.nHeight) % 2 ^ 32

/-- The loop that reads the bit vector until all non-zero bytes are there. -/
def readMask : List UInt8 → ℕ → Option (List Bool × List UInt8)
  | stream, 0 => some ([], stream)
  | [], _ + 1 => none
  | chAvail :: stream, nMaskCode + 1 => do
    let (bits, stream) ← readMask stream (if chAvail ≠ 0 then nMaskCode else nMaskCode + 1)
    return (unpackByte chAvail ++ bits, stream)

/-- Read an output for every bit that is set. -/
def readOutputs (K : KeyLibrary) : List Bool → Reader (List CTxOut)
  | [] => pure []
  | available :: rest => do
    let txout ← (if available then CTxOut.unserialize K else pure .null)
    let vout ← readOutputs K rest
    return txout :: vout

/-- `CCoins::Unserialize`. -/
def unserialize (K : KeyLibrary) : Reader CCoins := do
  let nVersion ← readVarIntSigned
  let nCode ← readVarInt 4
  let nMaskCode := nCode / 8 + if nCode / 2 % 4 ≠ 0 then 0 else 1
  let mask ← (fun stream => readMask stream nMaskCode : Reader (List Bool))
  let vout ← readOutputs K (decide (nCode / 2 % 2 = 1) :: decide (nCode / 4 % 2 = 1) :: mask)
  let nHeight ← readVarIntSigned
  return cleanup { fCoinBase := nCode % 2 = 1, vout, nHeight := nHeight.toNat, nVersion }

end CCoins

/-- An entry written to the database and read back; a pruned one is erased. -/
def CCoins.stored (K : KeyLibrary) (coins : CCoins) : Option CCoins :=
  if coins.isPruned then none
  else match coins.serialize K with
    | .ok bytes => (CCoins.unserialize K).parse bytes
    | .error _ => none

/-- The view after a flush of everything it holds, read through an empty cache. -/
def CCoinsViewCache.flushed (K : KeyLibrary) (view : CCoinsViewCache) : CCoinsViewCache where
  base := ⟨fun txid => (view.getCoins txid).bind (CCoins.stored K), view.getBestBlock⟩

@[simp] theorem CCoinsViewCache.getBestBlock_flushed (K : KeyLibrary) (view : CCoinsViewCache) :
    (view.flushed K).getBestBlock = view.getBestBlock := Option.none_or

/-- The undo records of a block, each of them written and read back. -/
def CBlockUndo.stored (K : KeyLibrary) (blockundo : CBlockUndo) : Option CBlockUndo :=
  (blockundo.vtxundo.mapM fun txundo : CTxUndo =>
    List.mapM (fun undo => (CTxInUndo.unserialize K).parse (undo.serialize K)) txundo).map CBlockUndo.mk

end BitCrystal
