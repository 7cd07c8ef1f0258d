import BitCrystal.Proofs.ConnectBlock
import BitCrystal.Proofs.PartialMerkleTree
import BitCrystal.Model.TestNet

/-! # The merkle root binds the transactions

The last hash of an odd level is paired with itself, so lists with repetitions can share a root with
others. Lists without repetitions cannot, and `CheckBlock` accepts no others.
-/

namespace BitCrystal

open Check

variable {P : Platform}

/-- Equal roots of two non-empty lists of txids without repetitions come from equal lists. -/
theorem eq_of_merkleRoot (injective : Function.Injective2 P.hashPair) {vTxid vTxid' : List Uint256}
    (distinct : vTxid.Nodup) (distinct' : vTxid'.Nodup)
    (leaves : ∀ txid ∈ vTxid ++ vTxid', ∀ a b, txid ≠ P.hashPair a b) (empty : vTxid = [] ↔ vTxid' = [])
    (same : merkleRoot P vTxid = merkleRoot P vTxid') : vTxid = vTxid' := by
  rcases eq_or_ne vTxid [] with rfl | nonempty
  · exact (empty.mp rfl).symm
  · have nonempty' := mt empty.mpr nonempty
    obtain ⟨hash, top⟩ := HashTree.exists_root P.hashPair nonempty
    obtain ⟨hash', top'⟩ := HashTree.exists_root P.hashPair nonempty'
    rw [merkleRoot_eq, merkleRoot_eq, top, top', Option.getD_some, Option.getD_some] at same
    exact HashTree.eq_of_root injective distinct distinct' nonempty nonempty'
      (fun txid member => leaves txid (List.mem_append_left _ member))
      (fun txid member => leaves txid (List.mem_append_right _ member)) (by rw [top, top', same])

/-- What `CheckBlock` says about the merkle tree. -/
theorem CBlock.merkle_of_checkBlock {block : CBlock} {fCheckPOW : Bool}
    (passed : block.checkBlock P fCheckPOW true = .ok ()) :
    block.txids P ≠ [] ∧ (block.txids P).Nodup ∧ block.hashMerkleRoot = merkleRoot P (block.txids P) := by
  simp only [checkBlock, bind_eq_ok, rejectIf_eq_ok, not_not, not_or, true_and] at passed
  obtain ⟨-, ⟨empty, -⟩, -, -, -, -, -, -, -, -, -, -, -, distinct, -, -, root⟩ := passed
  rw [txids, Ne, List.map_eq_nil_iff, ← txids]
  exact ⟨empty, distinct, root.trans block.buildMerkleTree_eq⟩

/-- The root of a tree with injective hashing binds a non-empty list of distinct txids, and the header
of a block that passes `CheckBlock` binds the txids of the block. -/
theorem merkleRoot_binds (injective : Function.Injective2 P.hashPair) :
    (∀ vTxid vTxid' : List Uint256, vTxid.Nodup → vTxid'.Nodup →
      (∀ txid ∈ vTxid ++ vTxid', ∀ a b, txid ≠ P.hashPair a b) → (vTxid = [] ↔ vTxid' = []) →
      merkleRoot P vTxid = merkleRoot P vTxid' → vTxid = vTxid') ∧
    ∀ (block block' : CBlock) (fCheckPOW fCheckPOW' : Bool),
      (∀ tx ∈ block.vtx ++ block'.vtx, ∀ a b, tx.getHash P ≠ P.hashPair a b) →
      block.toCBlockHeader = block'.toCBlockHeader → block.checkBlock P fCheckPOW true = .ok () →
      block'.checkBlock P fCheckPOW' true = .ok () → block.txids P = block'.txids P := by
  refine ⟨fun _ _ distinct distinct' leaves empty same => eq_of_merkleRoot injective distinct distinct' leaves empty same,
    fun block block' _ _ leaves header passed passed' => ?_⟩
  obtain ⟨nonempty, distinct, root⟩ := CBlock.merkle_of_checkBlock passed
  obtain ⟨nonempty', distinct', root'⟩ := CBlock.merkle_of_checkBlock passed'
  have same : merkleRoot P (block.txids P) = merkleRoot P (block'.txids P) := by
    rw [← root, ← root', header]
  refine eq_of_merkleRoot injective distinct distinct' (fun txid member => ?_)
    ⟨fun empty => absurd empty nonempty, fun empty => absurd empty nonempty'⟩ same
  rw [CBlock.txids, CBlock.txids, ← List.map_append] at member
  obtain ⟨tx, inside, rfl⟩ := List.mem_map.mp member
  exact leaves tx inside

namespace TestNet

theorem injective_paired : Function.Injective2 paired.hashPair := fun a a' b b' same => by
  have odd : (2 * Nat.pair a b + 1 : ℕ) = 2 * Nat.pair a' b' + 1 := same
  exact Nat.pair_eq_pair.mp (by omega)

theorem even_ne_hashPair (n : ℕ) (a b : Uint256) : 2 * n ≠ paired.hashPair a b := fun same => by
  have parity : (2 * n : ℕ) = 2 * Nat.pair a b + 1 := same
  omega

end TestNet

open TestNet in
/-- Two blocks with the same header, whose second transactions pay different amounts. The hash of the
test network does not read the outputs. -/
theorem merkleRoot_binds_twins :
    let block (nValue : ℤ) : CBlock :=
      let vtx := [coinbase 1 50, spending 2 [⟨7, 0⟩] [nValue], spending 3 [⟨8, 0⟩] [1]]
      ⟨⟨112, 5, merkleRoot paired (vtx.map (·.getHash paired)), 1400000000, 0x1d00ffff, 9⟩, vtx⟩
    block 10 ≠ block 20 ∧ (block 10).txids paired = (block 20).txids paired := by
  intro block
  refine ⟨by decide, (merkleRoot_binds injective_paired).2 (block 10) (block 20) true true ?_ (by decide) (by decide)
    (by decide)⟩
  intro tx _ a b
  exact even_ne_hashPair _ a b

/-- No transactions, and a single txid that is zero. -/
theorem not_merkleRoot_binds_empty : ¬ ∀ P : Platform, Function.Injective2 P.hashPair →
    ∀ vTxid vTxid' : List Uint256, vTxid.Nodup → vTxid'.Nodup →
      (∀ txid ∈ vTxid ++ vTxid', ∀ a b, txid ≠ P.hashPair a b) →
      merkleRoot P vTxid = merkleRoot P vTxid' → vTxid = vTxid' := by
  intro binds
  refine absurd (binds TestNet.paired TestNet.injective_paired [] [0] .nil (List.nodup_singleton 0) ?_ rfl) (by decide)
  intro txid member a b
  obtain rfl := List.mem_singleton.mp member
  exact TestNet.even_ne_hashPair 0 a b

end BitCrystal

/-! ## Merkle branches verify

The vector that is built holds the levels of the tree one after the other. A branch holds the partners of the
nodes above a transaction, so checking it climbs to the root, and with injective hashing from that txid only.
-/

namespace BitCrystal

open HashTree Check

namespace CBlock

variable {P : Platform} {L : List Uint256}

/-- The pairs of a level from `i` on are appended. -/
theorem appendLevel_eq {j i : ℕ} {vMerkleTree : List Uint256} (row : ∀ k < L.length, vMerkleTree[j + k]? = L[k]?) :
    appendLevel P j L.length i vMerkleTree = .ok (vMerkleTree ++ merkleLevel P (L.drop i)) := by
  rw [appendLevel]
  split
  next inside =>
    have left := (row i inside).trans (List.getElem?_eq_getElem inside)
    have stays (hash : Uint256) : ∀ k < L.length, (vMerkleTree ++ [hash])[j + k]? = L[k]? := by
      intro k small
      have there := row k small
      rw [List.getElem?_eq_getElem small] at there ⊢
      rw [List.getElem?_append_left (List.getElem?_eq_some_iff.mp there).1, there]
    rcases Nat.lt_or_ge (i + 1) L.length with paired | last
    · have right := (row (i + 1) paired).trans (List.getElem?_eq_getElem paired)
      have pair : L.drop i = L[i] :: L[i + 1] :: L.drop (i + 2) := by
        rw [List.drop_eq_getElem_cons inside, List.drop_eq_getElem_cons paired]
      dsimp only
      rw [min_eq_left (by omega), left, right]
      apply (appendLevel_eq (stays _)).trans
      rw [pair, merkleLevel, List.append_assoc, List.singleton_append]
    · have single : L.drop i = [L[i]] := by
        rw [List.drop_eq_getElem_cons inside, List.drop_eq_nil_of_le last]
      dsimp only
      rw [min_eq_right (by omega), show L.length - 1 = i by omega, left]
      apply (appendLevel_eq (stays _)).trans
      rw [single, merkleLevel, List.drop_eq_nil_of_le (by omega), merkleLevel, List.append_nil]
  next outside =>
    rw [List.drop_eq_nil_of_le (not_lt.mp outside), merkleLevel, List.append_nil]
    rfl
termination_by L.length - i

/-- The levels above the last one are appended. -/
theorem appendLevels_eq {L front : List Uint256} {rounds : ℕ} (enough : L.length ≤ 2 ^ rounds) :
    appendLevels P front.length L.length (front ++ L) = .ok (front ++ merkleLevels P rounds L) := by
  induction rounds generalizing L front with
  | zero =>
    rw [pow_zero] at enough
    rw [appendLevels, if_neg (not_lt.mpr enough), merkleLevels]
    rfl
  | succ rounds ih =>
    rw [appendLevels, merkleLevels]
    split
    next wide =>
      have row : ∀ k < L.length, (front ++ L)[front.length + k]? = L[k]? := by
        intro k _
        rw [List.getElem?_append_right (Nat.le_add_right _ _), Nat.add_sub_cancel_left]
      have length : (merkleLevel P L).length = (L.length + 1) / 2 := by rw [merkleLevel_eq, length_level]
      have above := @ih (merkleLevel P L) (front ++ L) (by
        rw [pow_succ] at enough
        omega)
      rw [List.length_append, length, List.append_assoc] at above
      rw [if_neg (not_le.mpr wide), appendLevel_eq row, ok_bind, List.drop_zero, List.append_assoc, above,
        List.append_assoc]
    next narrow =>
      rw [if_pos (not_lt.mp narrow)]
      rfl

theorem vMerkleTree_eq (block : CBlock) :
    block.vMerkleTree P = .ok (merkleLevels P block.vtx.length (block.txids P)) := by
  have length : (block.txids P).length = block.vtx.length := by rw [txids, List.length_map]
  have levels := @appendLevels_eq P (block.txids P) [] block.vtx.length (by rw [length]; exact Nat.lt_two_pow_self.le)
  rwa [List.nil_append, List.nil_append, List.length_nil, length] at levels

/-- The first level of the rest of the vector. -/
theorem getElem?_merkleLevels {rounds k : ℕ} (inside : k < L.length) : (merkleLevels P rounds L)[k]? = L[k]? := by
  cases rounds with
  | zero => rfl
  | succ rounds =>
    rw [merkleLevels]
    split
    · rfl
    · rw [List.getElem?_append_left inside]

/-- A single hash is the last one. -/
theorem getLast?_of_single {pos : ℕ} {hash : Uint256} (single : L.length ≤ 1)
    (there : L[pos]? = some hash) : L.getLast? = some hash := by
  obtain ⟨inside, -⟩ := List.getElem?_eq_some_iff.mp there
  have first : pos = 0 := by omega
  rw [first] at there
  rw [List.getLast?_eq_getElem?, show L.length - 1 = 0 by omega, there]

/-- A branch is found, and it leads to the last hash of the vector. -/
theorem branchLoop_eq_ok {L front : List Uint256} {rounds pos : ℕ} {hash : Uint256} (enough : L.length ≤ 2 ^ rounds)
    (there : L[pos]? = some hash) :
    ∃ branch, branchLoop (front ++ merkleLevels P rounds L) front.length L.length pos = .ok branch ∧
      (merkleLevels P rounds L).getLast? = some (ascend P.hashPair hash pos branch) := by
  induction rounds generalizing L front pos hash with
  | zero =>
    rw [pow_zero] at enough
    refine ⟨[], ?_, getLast?_of_single enough there⟩
    rw [branchLoop, if_neg (not_lt.mpr enough)]
    rfl
  | succ rounds ih =>
    rw [branchLoop]
    split
    next wide =>
      obtain ⟨inside, -⟩ := List.getElem?_eq_some_iff.mp there
      have partnerInside : min (pos ^^^ 1) (L.length - 1) < L.length := by omega
      have beside := List.getElem?_eq_getElem partnerInside
      have above := @node_above _ P.hashPair L 0 pos _ _ there (by rw [partner, width_zero]; exact beside)
      have length : (level P.hashPair L).length = (L.length + 1) / 2 := length_level L
      have next : (level P.hashPair L)[pos / 2]? = _ := above
      obtain ⟨branch, found, last⟩ := @ih (level P.hashPair L) (front ++ L) _ _ (by
        rw [pow_succ] at enough
        omega) next
      have split : merkleLevels P (rounds + 1) L = L ++ merkleLevels P rounds (level P.hashPair L) := by
        rw [merkleLevels, if_neg (not_le.mpr wide), merkleLevel_eq]
      have read : (front ++ merkleLevels P (rounds + 1) L)[front.length + min (pos ^^^ 1) (L.length - 1)]? =
          some L[min (pos ^^^ 1) (L.length - 1)] := by
        rw [List.getElem?_append_right (Nat.le_add_right _ _), Nat.add_sub_cancel_left,
          getElem?_merkleLevels partnerInside, beside]
      rw [List.length_append, length, List.append_assoc, ← split] at found
      refine ⟨L[min (pos ^^^ 1) (L.length - 1)] :: branch, ?_, ?_⟩
      · dsimp only
        rw [read]
        exact bind_eq_ok.mpr ⟨_, rfl, bind_eq_ok.mpr ⟨_, found, rfl⟩⟩
      · rw [split, List.getLast?_append, last, Option.some_or, ascend]
    next narrow =>
      refine ⟨[], rfl, ?_⟩
      rw [merkleLevels, if_pos (not_lt.mp narrow)]
      exact getLast?_of_single (not_lt.mp narrow) there

theorem checkLoop_eq (hash : Uint256) (pos : ℕ) (branch : List Uint256) :
    checkLoop P hash pos branch = ascend P.hashPair hash pos branch := by
  induction branch generalizing hash pos with
  | nil => rfl
  | cons other branch ih =>
    have odd : (pos : ℤ) % 2 = 1 ↔ pos % 2 = 1 := by omega
    have half : (pos : ℤ) / 2 = (pos / 2 : ℕ) := rfl
    rw [checkLoop, ascend, half, ih]
    simp only [odd]

theorem checkMerkleBranch_eq (hash : Uint256) (pos : ℕ) (branch : List Uint256) :
    checkMerkleBranch P hash branch pos = ascend P.hashPair hash pos branch := by
  rw [checkMerkleBranch, if_neg (by omega), checkLoop_eq]

/-- The branch of each transaction leads from its txid, and with injective hashing from no other hash, to the root. -/
theorem checkMerkleBranch_getMerkleBranch (P : Platform) (block : CBlock) {i : ℕ} (inside : i < block.vtx.length) :
    ∃ vMerkleTree hash vMerkleBranch, block.vMerkleTree P = .ok vMerkleTree ∧
      vMerkleTree.getLast? = some (block.buildMerkleTree P) ∧ block.getTxHash vMerkleTree i = .ok hash ∧
      (block.txids P)[i]? = some hash ∧ block.getMerkleBranch P vMerkleTree i = .ok vMerkleBranch ∧
      block.getMerkleBranch P [] i = .ok vMerkleBranch ∧
      checkMerkleBranch P hash vMerkleBranch i = block.buildMerkleTree P ∧
      (Function.Injective2 P.hashPair → ∀ other, checkMerkleBranch P other vMerkleBranch i = block.buildMerkleTree P →
        other = hash) := by
  have length : (block.txids P).length = block.vtx.length := by rw [txids, List.length_map]
  have leaf := List.getElem?_eq_getElem (length.symm ▸ inside)
  have enough : (block.txids P).length ≤ 2 ^ block.vtx.length := by
    rw [length]
    exact Nat.lt_two_pow_self.le
  obtain ⟨branch, found, last⟩ := @branchLoop_eq_ok P _ [] _ _ _ enough leaf
  rw [List.nil_append, List.length_nil, length] at found
  have root : block.buildMerkleTree P = ascend P.hashPair (block.txids P)[i] i branch := by
    rw [buildMerkleTree, last, Option.getD_some]
  have first : (merkleLevels P block.vtx.length (block.txids P))[i]? = some (block.txids P)[i] :=
    (getElem?_merkleLevels (length.symm ▸ inside)).trans leaf
  have nonempty : merkleLevels P block.vtx.length (block.txids P) ≠ [] := by
    intro empty
    rw [empty] at first
    cases first
  refine ⟨_, _, branch, block.vMerkleTree_eq, ?_, ?_, leaf, ?_, ?_, ?_, fun injective other same => ?_⟩
  · rw [last, root]
  · refine bind_eq_ok.mpr ⟨(), if_neg nonempty, bind_eq_ok.mpr ⟨(), if_neg (not_le.mpr inside), ?_⟩⟩
    rw [first]
    rfl
  · rw [getMerkleBranch, if_neg nonempty]
    exact found
  · rw [getMerkleBranch, if_pos rfl, block.vMerkleTree_eq]
    exact found
  · rw [checkMerkleBranch_eq, root]
  · rw [checkMerkleBranch_eq, root] at same
    exact ascend_inj injective same

end CBlock

namespace TestNet

def threeTxs : CBlock :=
  ⟨⟨112, 5, 0, 1400000000, 0x1d00ffff, 9⟩, [coinbase 1 50, spending 2 [⟨7, 0⟩] [1], spending 3 [⟨8, 0⟩] [1]]⟩

end TestNet

open TestNet in
/-- The last of three transactions is paired with itself, and only its txid has the branch. -/
theorem CBlock.checkMerkleBranch_getMerkleBranch_third :
    ∃ vMerkleBranch, threeTxs.getMerkleBranch paired [] 2 = .ok vMerkleBranch ∧
      ∀ other, checkMerkleBranch paired other vMerkleBranch 2 = threeTxs.buildMerkleTree paired ↔
        (threeTxs.txids paired)[2]? = some other := by
  obtain ⟨_, hash, vMerkleBranch, -, -, -, leaf, -, found, verifies, only⟩ :=
    checkMerkleBranch_getMerkleBranch paired threeTxs (show 2 < threeTxs.vtx.length by decide)
  refine ⟨vMerkleBranch, found, fun other => ⟨fun same => ?_, fun same => ?_⟩⟩
  · rw [leaf, only injective_paired other same]
  · rw [leaf, Option.some.injEq] at same
    rw [← same]
    exact verifies

end BitCrystal
