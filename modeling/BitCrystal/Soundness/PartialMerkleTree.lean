import BitCrystal.Proofs.MerkleTrace
import BitCrystal.Soundness.MerkleRoot

/-! # Partial merkle trees prove what they say

A partial merkle tree with the number of transactions of a block, whatever bits and hashes it holds,
yields the merkle root of the block only together with txids of the block in their order. Zero stands
for a failure, so a root of zero proves nothing. One built from a block and sent to another node yields
the root and the selected txids.
-/

namespace BitCrystal

open HashTree CPartialMerkleTree TestNet

variable {P : Platform}

/-- The extraction always comes back. If it comes back with the merkle root of the block, which is not
zero, the matches are transactions of the block, each at most once and in block order. -/
theorem extractMatches_sound (injective : Function.Injective2 P.hashPair) (tree : CPartialMerkleTree) :
    (∃ result, tree.extractMatches P = .ok result) ∧
    ∀ (block : CBlock) (vMatch : List Uint256), (block.txids P).Nodup → tree.nTransactions = block.vtx.length →
      block.buildMerkleTree P ≠ 0 → tree.extractMatches P = .ok (block.buildMerkleTree P, vMatch) →
      vMatch.Sublist (block.txids P) ∧ vMatch.Nodup ∧ ∀ txid ∈ vMatch, ∃ tx ∈ block.vtx, tx.getHash P = txid := by
  refine ⟨extractMatches_returns P tree, fun block vMatch distinct total nonzero ran => ?_⟩
  obtain ⟨something, many, s', traversed, fine, rfl⟩ := extractMatches_nonzero ran nonzero
  have length : (block.txids P).length = tree.nTransactions := by rw [CBlock.txids, List.length_map, total]
  have small : tree.nTransactions ≤ 2 ^ 31 := many.trans (by decide)
  have occupied : block.txids P ≠ [] := List.ne_nil_of_length_pos (by omega)
  obtain ⟨hash, top⟩ := exists_root P.hashPair occupied
  rw [CBlock.buildMerkleTree_eq, merkleRoot_eq, top, Option.getD_some] at traversed
  rw [root, length] at top
  have low : Nat.clog 2 tree.nTransactions ≤ 31 := (Nat.clog_le_iff_le_pow (by decide)).mpr small
  obtain ⟨found, matched, below⟩ := matched_below injective length small low traversed fine top
  rw [below_root (length ▸ Nat.le_pow_clog (by decide) _)] at below
  rw [List.nil_append] at matched
  subst matched
  exact ⟨below, below.nodup distinct, fun txid member => List.mem_map.mp (below.subset member)⟩

/-- A tree of three transactions with the last one matched. -/
theorem extractMatches_sound_last :
    let vtx := [coinbase 1 50, spending 2 [⟨7, 0⟩] [1], spending 3 [⟨8, 0⟩] [1]]
    let block : CBlock := ⟨⟨112, 5, 0, 1400000000, 0x1d00ffff, 9⟩, vtx⟩
    ∃ tree vMatch, ofMatches paired (block.txids paired) [false, false, true] = .ok tree ∧
      tree.extractMatches paired = .ok (block.buildMerkleTree paired, vMatch) ∧ vMatch = [6002] ∧
      vMatch.Sublist (block.txids paired) := by
  intro vtx block
  let tree : CPartialMerkleTree := ⟨3, [true, false, true, true], [paired.hashPair 2002 4002, 6002], false⟩
  have ran : tree.extractMatches paired = .ok (block.buildMerkleTree paired, [6002]) := by decide
  exact ⟨tree, [6002], by decide, ran, rfl,
    ((extractMatches_sound injective_paired tree).2 block [6002] (by decide) (by decide) (by decide) ran).1⟩

/-- A block whose single txid is zero: a failed extraction comes back with zero and a match. -/
theorem not_extractMatches_sound_zero : ¬ ∀ P : Platform, Function.Injective2 P.hashPair →
    (∀ (tx : CTransaction) (a b : Uint256), tx.getHash P ≠ P.hashPair a b) →
    ∀ (block : CBlock) (tree : CPartialMerkleTree) (vMatch : List Uint256), (block.txids P).Nodup →
      tree.nTransactions = block.vtx.length → tree.extractMatches P = .ok (block.buildMerkleTree P, vMatch) →
      ∀ txid ∈ vMatch, ∃ tx ∈ block.vtx, tx.getHash P = txid := by
  intro sound
  let P : Platform := { TestNet.paired with hashTx := fun _ => 0 }
  let block : CBlock := ⟨⟨112, 5, 0, 1400000000, 0x1d00ffff, 9⟩, [TestNet.coinbase 1 50]⟩
  let tree : CPartialMerkleTree := ⟨1, List.replicate 16 true, [7], false⟩
  obtain ⟨tx, member, same⟩ := sound P TestNet.injective_paired (fun _ a b => TestNet.even_ne_hashPair 0 a b) block tree
    [7] (by decide) rfl (by decide) 7 (List.mem_singleton_self 7)
  exact absurd (show (0 : ℕ) = 7 from same) (by decide)

/-- A partial merkle tree built from a non-empty list of txids and a mask is read back from its
serialization, and yields the merkle root and the selected txids. -/
theorem extractMatches_complete (inner : ∀ a b, P.hashPair a b < 2 ^ 256) (vTxid : List Uint256) (vMatch : List Bool)
    (leaves : ∀ txid ∈ vTxid, txid < 2 ^ 256) (nonempty : vTxid ≠ []) (bound : vTxid.length ≤ MAX_BLOCK_SIZE / 60)
    (sameLength : vMatch.length = vTxid.length) :
    ∃ tree received, ofMatches P vTxid vMatch = .ok tree ∧ (unserialize MAX_SIZE).Reads tree.serialize received ∧
      received.extractMatches P = .ok (merkleRoot P vTxid, selected vTxid vMatch) ∧
      ∀ block : CBlock, block.txids P = vTxid → block.buildMerkleTree P = merkleRoot P vTxid := by
  have small : vTxid.length ≤ 2 ^ 31 := bound.trans (by decide)
  have most : vTxid.length ≤ 16666 := bound
  let height := Nat.clog 2 vTxid.length
  have low : height ≤ 15 := (Nat.clog_le_iff_le_pow (by decide)).mpr (most.trans (by decide))
  have inside : 0 < width vTxid.length height := width_pos (List.length_pos_iff.mpr nonempty)
  have whole : (below vTxid height 0).length = vTxid.length := by
    rw [below_root (Nat.le_pow_clog (by decide) _)]
  have wholeMask : below vMatch height 0 = vMatch := below_root (sameLength ▸ Nat.le_pow_clog (by decide) _)
  let bits := traceBits vMatch height 0
  let hashes := traceHashes P vTxid vMatch height 0
  let received : CPartialMerkleTree := ⟨vTxid.length, unpackBits (packBits bits), hashes, false⟩
  have fewHashes : hashes.length ≤ vTxid.length := whole ▸ length_traceHashes_le_below sameLength inside
  have moreBits : hashes.length ≤ bits.length := length_traceHashes_le_bits ..
  have fewBits : bits.length < 2 ^ 16 := (length_traceBits_lt ..).trans_le (Nat.pow_le_pow_right (by decide) (by omega))
  have width : ∀ hash ∈ hashes, hash < 2 ^ 256 := fun hash member => by
    obtain ⟨_, _, there⟩ := exists_node_of_mem_traceHashes member
    obtain leaf | ⟨a, b, rfl⟩ := leaf_or_inner there
    · exact leaves hash leaf
    · exact inner a b
  have built : ofMatches P vTxid vMatch = .ok ⟨vTxid.length, bits, hashes, false⟩ := by
    rw [ofMatches, treeHeight_eq small, Check.ok_bind]
    exact traverseAndBuild_eq sameLength small (by omega) inside _
  have size : vTxid.length < 2 ^ 32 := by omega
  have hashCount : hashes.length ≤ MAX_SIZE := by
    unfold MAX_SIZE
    omega
  have byteCount : (bits.length + 7) / 8 ≤ MAX_SIZE := by
    unfold MAX_SIZE
    omega
  have reads : (unserialize MAX_SIZE).Reads (serialize ⟨vTxid.length, bits, hashes, false⟩) received :=
    reads_serialize size width hashCount byteCount (by decide)
  have filled : received.vBits.length = (bits.length + 7) / 8 * 8 := length_unpackBits bits
  obtain ⟨hash, top, traversed⟩ := @traverseAndExtract_trace P received _ _ _ _ { fBad := false } sameLength small rfl
    (by omega) inside (prefix_unpackBits bits) (List.prefix_refl hashes)
  rw [below_root (Nat.le_pow_clog (by decide) _), wholeMask] at traversed
  refine ⟨_, received, built, reads, ?_, fun block same => same ▸ block.buildMerkleTree_eq⟩
  have enough : ¬ received.vBits.length < hashes.length := by
    rw [filled]
    omega
  have consumed : (bits.length + 7) / 8 = (received.vBits.length + 7) / 8 := by
    rw [filled]
    omega
  have result : merkleRoot P vTxid = hash := by rw [merkleRoot_eq, root, top, Option.getD_some]
  rw [extractMatches, if_neg (mt List.length_eq_zero_iff.mp nonempty), if_neg (not_lt.mpr bound), if_neg (not_lt.mpr fewHashes),
    if_neg enough, treeHeight_eq small, Check.ok_bind, traversed]
  dsimp only
  rw [Nat.zero_add, Nat.zero_add, Check.ok_bind, if_neg (by decide), if_neg (not_not.mpr consumed), if_neg (not_not.mpr rfl),
    result]
  rfl

/-- Three txids with the second one selected, in a tree whose pairs are hashed to their sum. -/
theorem extractMatches_complete_middle :
    let P : Platform := { platform with hashPair := fun a b => (a + 2 * b) % 2 ^ 256 }
    ∃ tree received, ofMatches P [11, 12, 13] [false, true, false] = .ok tree ∧
      (unserialize MAX_SIZE).Reads tree.serialize received ∧
      received.extractMatches P = .ok (merkleRoot P [11, 12, 13], [12]) := by
  intro P
  obtain ⟨tree, received, built, reads, ran, -⟩ := extractMatches_complete (P := P)
    (fun a b => Nat.mod_lt _ (by decide)) [11, 12, 13] [false, true, false] (by decide) (by decide) (by decide) (by decide)
  exact ⟨tree, received, built, reads, ran⟩

end BitCrystal
