import BitCrystal.Model.GetWork
import BitCrystal.Proofs.PartialMerkleTree
import BitCrystal.Proofs.EvalScript

/-! # The buffers and blocks of getwork

Hex text and the order of the bytes are undone by the reader. A header goes into the buffer at fixed places, so data
that differ in the time and the nonce only name the same merkle root. The merkle root of a block binds the script of its
coinbase, and that script the extra nonce.
-/

namespace BitCrystal

open LittleEndian CBigNum

theorem phexdigit_hexmap {n : UInt8} (small : n.toNat < 16) :
    phexdigit (hexmap n) = some n ∧ isspace (hexmap n) = false := by
  have each : ∀ k : Fin 16, phexdigit (hexmap (UInt8.ofNat k)) = some (UInt8.ofNat k) ∧
      isspace (hexmap (UInt8.ofNat k)) = false := by decide
  have this := each ⟨n.toNat, small⟩
  rwa [UInt8.ofNat_toNat] at this

set_option maxRecDepth 4000 in
theorem nibbles (val : UInt8) :
    (val >>> 4).toNat < 16 ∧ (val &&& 15).toNat < 16 ∧ (val >>> 4) <<< 4 ||| (val &&& 15) = val := by
  have each : ∀ k : Fin 256, (UInt8.ofNat k >>> 4).toNat < 16 ∧ (UInt8.ofNat k &&& 15).toNat < 16 ∧
      (UInt8.ofNat k >>> 4) <<< 4 ||| (UInt8.ofNat k &&& 15) = UInt8.ofNat k := by decide
  have this := each ⟨val.toNat, val.toNat_lt⟩
  rwa [UInt8.ofNat_toNat] at this

theorem parseHex_pair {c d n low : UInt8} (visible : isspace c = false) (high : phexdigit c = some n)
    (digit : phexdigit d = some low) (psz : List UInt8) :
    parseHex (c :: d :: psz) = (n <<< 4 ||| low) :: parseHex psz := by
  rw [parseHex, if_neg (Bool.eq_false_iff.mp visible), digit]
  exact high

theorem parseHex_hexStr (vch : valtype) : parseHex (hexStr vch) = vch := by
  induction vch with
  | nil => rfl
  | cons val vch ih =>
    obtain ⟨high, low, whole⟩ := nibbles val
    obtain ⟨highDigit, visible⟩ := phexdigit_hexmap high
    have step : hexStr (val :: vch) = hexmap (val >>> 4) :: hexmap (val &&& 15) :: hexStr vch := rfl
    rw [step, parseHex_pair visible highDigit (phexdigit_hexmap low).1, whole, ih]

theorem byteReverse_byteReverse (buffer : List UInt8) : byteReverse (byteReverse buffer) = buffer := by
  induction buffer using byteReverse.induct with
  | case1 a b c d words ih => rw [byteReverse, byteReverse, ih]
  | case2 rest short => rw [byteReverse.eq_2 rest short, byteReverse.eq_2 rest short]

@[simp] theorem length_byteReverse (buffer : List UInt8) : (byteReverse buffer).length = buffer.length := by
  induction buffer using byteReverse.induct with
  | case1 a b c d words ih => simp only [byteReverse, List.length_cons, ih]
  | case2 rest short => rw [byteReverse.eq_2 rest short]

/-- Whole words are reversed by themselves. -/
theorem byteReverse_words (words : ℕ) (buffer : List UInt8) (inside : 4 * words ≤ buffer.length) :
    (byteReverse buffer).take (4 * words) = byteReverse (buffer.take (4 * words)) ∧
      (byteReverse buffer).drop (4 * words) = byteReverse (buffer.drop (4 * words)) := by
  induction words generalizing buffer with
  | zero => exact ⟨rfl, rfl⟩
  | succ words ih =>
    match buffer, inside with
    | a :: b :: c :: d :: rest, inside =>
      have fewer : 4 * words ≤ rest.length := by
        simp only [List.length_cons] at inside
        omega
      obtain ⟨front, back⟩ := ih rest fewer
      rw [Nat.mul_succ, byteReverse]
      simp only [List.take_succ_cons, List.drop_succ_cons, byteReverse, front, back, and_self]

theorem byteReverse_take (words : ℕ) (buffer : List UInt8) (inside : 4 * words ≤ buffer.length) :
    (byteReverse buffer).take (4 * words) = byteReverse (buffer.take (4 * words)) :=
  (byteReverse_words words buffer inside).1

theorem byteReverse_drop (words : ℕ) (buffer : List UInt8) (inside : 4 * words ≤ buffer.length) :
    (byteReverse buffer).drop (4 * words) = byteReverse (buffer.drop (4 * words)) :=
  (byteReverse_words words buffer inside).2

/-- Data sent back: the time and the nonce may be others. -/
structure Rework (handed sent : List UInt8) : Prop where
  length : sent.length = 128
  before : sent.take 68 = handed.take 68
  between : (sent.drop 72).take 4 = (handed.drop 72).take 4
  behind : sent.drop 80 = handed.drop 80

theorem Rework.byteReverse {handed sent : List UInt8} (rework : Rework handed sent) (length : handed.length = 128) :
    Rework (byteReverse handed) (byteReverse sent) where
  length := by rw [length_byteReverse, rework.length]
  before := by
    rw [byteReverse_take 17 _ (by rw [rework.length]; decide), byteReverse_take 17 _ (by rw [length]; decide),
      rework.before]
  between := by
    rw [byteReverse_drop 18 _ (by rw [rework.length]; decide), byteReverse_drop 18 _ (by rw [length]; decide),
      byteReverse_take 1 _ (by rw [List.length_drop, rework.length]; decide),
      byteReverse_take 1 _ (by rw [List.length_drop, length]; decide), rework.between]
  behind := by
    rw [byteReverse_drop 20 _ (by rw [rework.length]; decide), byteReverse_drop 20 _ (by rw [length]; decide),
      rework.behind]

namespace CBlockHeader

variable (header : CBlockHeader)

/-- The part of the header that a miner keeps. -/
def front : List UInt8 :=
  encodeInt 4 header.nVersion ++ encode 32 header.hashPrevBlock ++ encode 32 header.hashMerkleRoot

theorem length_front : header.front.length = 68 := by
  simp only [front, List.length_append, length_encode, length_encodeInt]

/-- What `FormatHashBlocks` puts behind a header. -/
def padding : List UInt8 := 0x80 :: List.replicate 43 0 ++ (encode 4 640).reverse

theorem formatHashBlocks_memory : formatHashBlocks header.memory =
    header.front ++ encode 4 header.nTime ++ encode 4 header.nBits ++ encode 4 header.nNonce ++ padding := by
  have length : header.memory.length = 80 := by
    simp only [memory, List.length_append, length_encode, length_encodeInt]
  rw [formatHashBlocks, length]
  rfl

theorem length_formatHashBlocks : (formatHashBlocks header.memory).length = 128 := by
  rw [formatHashBlocks_memory]
  simp only [List.length_append, length_front, length_encode]
  rfl

theorem take_front (rest : List UInt8) : (header.front ++ rest).take 68 = header.front := by
  rw [List.take_left' header.length_front]

theorem drop_front (n : ℕ) (rest : List UInt8) : (header.front ++ rest).drop (68 + n) = rest.drop n := by
  rw [← List.drop_drop, List.drop_left' header.length_front]

variable {header} {pdata : List UInt8}

/-- The data name the merkle root of the header. -/
theorem root_of_rework (bound : header.hashMerkleRoot < 2 ^ 256)
    (rework : Rework (formatHashBlocks header.memory) pdata) :
    decode ((pdata.drop 36).take 32) = header.hashMerkleRoot := by
  have kept : pdata.take 68 = header.front := by
    rw [rework.before, formatHashBlocks_memory]
    simp only [List.append_assoc, take_front]
  have inner : (pdata.drop 36).take 32 = (pdata.take 68).drop 36 := by rw [List.drop_take]
  have left : (encodeInt 4 header.nVersion ++ encode 32 header.hashPrevBlock).length = 36 := by
    rw [List.length_append, length_encode, length_encodeInt]
  rw [inner, kept, front, List.drop_left' left]
  exact decode_encode bound

/-- The header with the time and the nonce of the data gives these data. -/
theorem format_of_rework (rework : Rework (formatHashBlocks header.memory) pdata) :
    formatHashBlocks (CBlockHeader.memory { header with
      nTime := decode ((pdata.drop 68).take 4), nNonce := decode ((pdata.drop 76).take 4) }) = pdata := by
  have kept : pdata.take 68 = header.front := by
    rw [rework.before, formatHashBlocks_memory]
    simp only [List.append_assoc, take_front]
  have bits : (pdata.drop 72).take 4 = encode 4 header.nBits := by
    rw [rework.between, formatHashBlocks_memory]
    simp only [List.append_assoc]
    rw [show 72 = 68 + 4 from rfl, drop_front, List.drop_left' (length_encode ..), List.take_left' (length_encode ..)]
  have tail : pdata.drop 80 = padding := by
    rw [rework.behind, formatHashBlocks_memory]
    simp only [List.append_assoc]
    rw [show 80 = 68 + 12 from rfl, drop_front, show 12 = 4 + (4 + 4) from rfl]
    rw [← List.drop_drop, List.drop_left' (length_encode ..), ← List.drop_drop, List.drop_left' (length_encode ..),
      List.drop_left' (length_encode ..)]
  have word (start : ℕ) (inside : start + 4 ≤ 128) :
      encode 4 (decode ((pdata.drop start).take 4)) = (pdata.drop start).take 4 := by
    have length : ((pdata.drop start).take 4).length = 4 := by
      rw [List.length_take, List.length_drop, rework.length]
      omega
    have same := encode_decode ((pdata.drop start).take 4)
    rwa [length] at same
  have split (start : ℕ) : (pdata.drop start).take 4 ++ pdata.drop (start + 4) = pdata.drop start := by
    rw [← List.drop_drop, List.take_append_drop]
  rw [formatHashBlocks_memory]
  change header.front ++ encode 4 _ ++ encode 4 header.nBits ++ encode 4 _ ++ padding = pdata
  rw [word 68 (by decide), word 76 (by decide), ← kept, ← bits, ← tail]
  simp only [List.append_assoc]
  rw [split 76, split 72, split 68, List.take_append_drop]

end CBlockHeader

/-- The first transaction of a template. -/
def generation (scriptSig : CScript) (txout : CTxOut) : CTransaction :=
  { vin := [{ prevout := .null, scriptSig }], vout := [txout] }

namespace CBlock

variable {P : Platform}

theorem toCBlockHeader_setScriptSig (scriptSig : CScript) (block : CBlock) :
    (block.setScriptSig scriptSig).toCBlockHeader = block.toCBlockHeader := by
  unfold setScriptSig
  split <;> rfl

theorem setScriptSig_vtx {block : CBlock} {scriptSig : CScript} {txout : CTxOut} {vtx : List CTransaction}
    (shape : block.vtx = generation scriptSig txout :: vtx) (other : CScript) :
    (block.setScriptSig other).vtx = generation other txout :: vtx := by
  rw [setScriptSig, shape]
  rfl

/-- A script that is set again replaces the one before. -/
theorem setScriptSig_rewritten (block : CBlock) (nTime nNonce : ℕ) (scriptSig other : CScript) :
    (((({ block with nTime, nNonce }).setScriptSig scriptSig).setMerkleRoot P).setScriptSig other).vtx =
      (block.setScriptSig other).vtx := by
  rcases split : block.vtx with _ | ⟨tx, vtx⟩
  · simp only [setScriptSig, setMerkleRoot, split]
  · rcases inputs : tx.vin with _ | ⟨txin, vin⟩ <;>
      simp only [setScriptSig, setMerkleRoot, split, inputs, List.modifyHead]

theorem buildMerkleTree_congr {block other : CBlock} (same : block.vtx = other.vtx) :
    block.buildMerkleTree P = other.buildMerkleTree P := by
  rw [buildMerkleTree, buildMerkleTree, txids, txids, same]

/-- With bounded hashes the merkle root is a number of 256 bits. -/
theorem buildMerkleTree_lt (leaves : ∀ tx, P.hashTx tx < 2 ^ 256) (inner : ∀ a b, P.hashPair a b < 2 ^ 256)
    (block : CBlock) : block.buildMerkleTree P < 2 ^ 256 := by
  rw [buildMerkleTree_eq, merkleRoot_eq]
  cases top : HashTree.root P.hashPair (block.txids P) with
  | none => exact Nat.two_pow_pos 256
  | some hash =>
    rw [Option.getD_some]
    rcases HashTree.leaf_or_inner top with leaf | ⟨a, b, rfl⟩
    · obtain ⟨tx, -, rfl⟩ := List.mem_map.mp leaf
      exact leaves tx.serialized
    · exact inner a b

/-- Equal merkle roots belong to equal coinbases. -/
theorem coinbase_of_root (injective : Function.Injective P.hashTx) (injective₂ : Function.Injective2 P.hashPair)
    (apart : ∀ tx : CTransaction, 64 < tx.getSerializeSize → ∀ a b, tx.getHash P ≠ P.hashPair a b)
    {block block' : CBlock} {tx tx' : CTransaction} {vtx vtx' : List CTransaction} (shape : block.vtx = tx :: vtx)
    (shape' : block'.vtx = tx' :: vtx') (long : 64 < tx.getSerializeSize) (long' : 64 < tx'.getSerializeSize)
    (same : block.buildMerkleTree P = block'.buildMerkleTree P) : tx.serialized = tx'.serialized := by
  have leaves : ∀ leaf ∈ (block.txids P).head?, ∀ a b, leaf ≠ P.hashPair a b := by
    rw [txids, shape]
    rintro leaf ⟨⟩
    exact apart tx long
  have leaves' : ∀ leaf ∈ (block'.txids P).head?, ∀ a b, leaf ≠ P.hashPair a b := by
    rw [txids, shape']
    rintro leaf ⟨⟩
    exact apart tx' long'
  obtain ⟨hash, top⟩ := HashTree.exists_root P.hashPair (show block.txids P ≠ [] by simp [txids, shape])
  obtain ⟨hash', top'⟩ := HashTree.exists_root P.hashPair (show block'.txids P ≠ [] by simp [txids, shape'])
  rw [buildMerkleTree_eq, buildMerkleTree_eq, merkleRoot_eq, merkleRoot_eq, top, top', Option.getD_some,
    Option.getD_some] at same
  have heads := HashTree.head_of_node injective₂ leaves leaves' top (same ▸ top')
  rw [txids, txids, shape, shape'] at heads
  exact injective (Option.some.inj heads)

end CBlock

theorem coinbaseScript_inj {nHeight : ℕ} {n n' : UInt32} (same : coinbaseScript nHeight n = coinbaseScript nHeight n') :
    n = n' := by
  have short (n : UInt32) : (getvch n.toNat).length < 2 ^ 32 := by
    have bound := n.toNat_lt
    have log := Nat.log2_le_self n.toNat
    unfold getvch
    split
    · exact Nat.two_pow_pos 32
    · rw [length_encode, width, Int.natAbs_natCast]
      omega
  have pushed := List.append_cancel_left (List.append_cancel_right same)
  obtain ⟨_, -, read⟩ := CScript.getOp_pushData (short n) []
  obtain ⟨_, -, read'⟩ := CScript.getOp_pushData (short n') []
  rw [pushed, read'] at read
  have data : getvch n'.toNat = getvch n.toNat :=
    (Prod.mk.inj (Prod.mk.inj (Option.some.inj read)).2).1
  have number := congrArg setvch data
  rw [setvch_getvch, setvch_getvch] at number
  exact UInt32.toNat.inj (Int.ofNat.inj number).symm

theorem long_generation (nHeight : ℕ) (n : UInt32) (txout : CTxOut) :
    64 < (generation (coinbaseScript nHeight n) txout).getSerializeSize := by
  have script : 8 ≤ (coinbaseScript nHeight n).length := by
    have nonce := (CScript.length_pushData (getvch n.toNat)).1
    have flags : COINBASE_FLAGS.length = 7 := rfl
    rw [coinbaseScript, List.length_append, List.length_append]
    omega
  have lengthByte (size : ℕ) : 1 ≤ getSizeOfCompactSize size := by
    unfold getSizeOfCompactSize
    split_ifs <;> decide
  have first := lengthByte (coinbaseScript nHeight n).length
  have second := lengthByte txout.scriptPubKey.length
  have one : getSizeOfCompactSize 1 = 1 := rfl
  simp only [generation, CTransaction.getSerializeSize, CTxIn.getSerializeSize, CTxOut.getSerializeSize, vectorSize,
    List.map_cons, List.map_nil, List.sum_cons, List.sum_nil, List.length_singleton, one]
  omega

/-- Blocks with different extra nonces at one height have different merkle roots. -/
theorem CBlock.root_ne {P : Platform} (injective : Function.Injective P.hashTx)
    (injective₂ : Function.Injective2 P.hashPair)
    (apart : ∀ tx : CTransaction, 64 < tx.getSerializeSize → ∀ a b, tx.getHash P ≠ P.hashPair a b)
    {block block' : CBlock} {txout txout' : CTxOut} {vtx vtx' : List CTransaction} {nHeight : ℕ} {n n' : UInt32}
    (shape : block.vtx = generation (coinbaseScript nHeight n) txout :: vtx)
    (shape' : block'.vtx = generation (coinbaseScript nHeight n') txout' :: vtx') (different : n ≠ n') :
    block.buildMerkleTree P ≠ block'.buildMerkleTree P := by
  intro same
  have serialized := coinbase_of_root injective injective₂ apart shape shape' (long_generation ..)
    (long_generation ..) same
  have inputs : (generation (coinbaseScript nHeight n) txout).vin = (generation (coinbaseScript nHeight n') txout').vin :=
    congrArg SerializedTx.vin serialized
  have script : coinbaseScript nHeight n = coinbaseScript nHeight n' := congrArg CTxIn.scriptSig (List.cons.inj inputs).1
  exact different (coinbaseScript_inj script)

end BitCrystal
