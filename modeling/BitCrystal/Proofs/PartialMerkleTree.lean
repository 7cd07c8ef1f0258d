import BitCrystal.Machine.HashTree
import BitCrystal.Model.PartialMerkleTree

/-! # The tree behind a partial merkle tree

`BuildMerkleTree` computes the root of the hash tree. An extraction comes back for whatever it is given,
and one that ends with the hash of a node has only matched leaves below that node.
-/

namespace BitCrystal

open HashTree StateAction

variable {P : Platform}

theorem merkleLevel_eq (l : List Uint256) : merkleLevel P l = level P.hashPair l := by
  fun_induction merkleLevel P l with
  | case1 => rfl
  | case2 => rfl
  | case3 a b rest ih => rw [ih, level]

/-- The last hash that is appended is the root of the tree. -/
theorem getLast?_merkleLevels {l : List Uint256} {hash : Uint256} (top : root P.hashPair l = some hash)
    {rounds height : ℕ} (low : height ≤ Nat.clog 2 l.length) (enough : Nat.clog 2 l.length ≤ height + rounds) :
    (merkleLevels P rounds (climb P.hashPair l height)).getLast? = some hash := by
  induction rounds generalizing height with
  | zero =>
    rw [merkleLevels, le_antisymm low enough, climb_clog top, List.getLast?_singleton]
  | succ rounds ih =>
    have narrow : (climb P.hashPair l height).length ≤ 1 ↔ Nat.clog 2 l.length ≤ height := by
      rw [length_climb, width_le_one, ← Nat.clog_le_iff_le_pow (by decide)]
    rw [merkleLevels]
    split
    next single => rw [le_antisymm low (narrow.mp single), climb_clog top, List.getLast?_singleton]
    next wide =>
      have below := mt narrow.mpr wide
      have above := @ih (height + 1) (by omega) (by omega)
      rw [climb, ← merkleLevel_eq] at above
      rw [List.getLast?_append, above, Option.some_or]

theorem merkleRoot_eq (l : List Uint256) : merkleRoot P l = (root P.hashPair l).getD 0 := by
  rcases eq_or_ne l [] with rfl | nonempty
  · rfl
  · obtain ⟨hash, top⟩ := exists_root P.hashPair nonempty
    have rounds : Nat.clog 2 l.length ≤ 0 + l.length := by
      rw [Nat.zero_add, Nat.clog_le_iff_le_pow (by decide)]
      exact Nat.lt_two_pow_self.le
    have last := getLast?_merkleLevels top (Nat.zero_le _) rounds
    rw [climb] at last
    rw [merkleRoot, last, top]

theorem CBlock.buildMerkleTree_eq (block : CBlock) : block.buildMerkleTree P = merkleRoot P (block.txids P) := by
  rw [buildMerkleTree, merkleRoot, txids, List.length_map]

namespace CPartialMerkleTree

variable {tree : CPartialMerkleTree} {vTxid : List Uint256} {vMatch : List Bool} {n height pos : ℕ}

theorem calcTreeWidth_eq (small : n ≤ 2 ^ 31) (low : height ≤ 31) : calcTreeWidth n height = width n height := by
  have positive : 0 < 2 ^ height := Nat.pow_pos (by decide)
  have bound : 2 ^ height ≤ 2 ^ 31 := Nat.pow_le_pow_right (by decide) low
  rw [calcTreeWidth, uint32_of_lt (by omega), width]

theorem one_lt_calcTreeWidth (small : n ≤ 2 ^ 31) (low : height ≤ 31) :
    1 < calcTreeWidth n height ↔ height < Nat.clog 2 n := by
  rw [calcTreeWidth_eq small low, ← not_le, width_le_one, ← Nat.clog_le_iff_le_pow (by decide), not_le]

theorem treeHeight_from (small : n ≤ 2 ^ 31) {rounds : ℕ} (low : height ≤ Nat.clog 2 n)
    (enough : Nat.clog 2 n ≤ height + rounds) : treeHeight n rounds height = .ok (Nat.clog 2 n) := by
  have most : Nat.clog 2 n ≤ 31 := (Nat.clog_le_iff_le_pow (by decide)).mpr small
  induction rounds generalizing height with
  | zero =>
    rw [treeHeight, if_neg fun above => (((one_lt_calcTreeWidth small (low.trans most)).mp above).trans_le enough).ne rfl,
      le_antisymm low enough]
  | succ rounds ih =>
    have wide := one_lt_calcTreeWidth small (low.trans most)
    rw [treeHeight]
    split
    next above => exact ih (wide.mp above) (by omega)
    next top => rw [le_antisymm low (not_lt.mp (mt wide.mpr top))]

theorem treeHeight_eq (small : n ≤ 2 ^ 31) : treeHeight n 32 0 = .ok (Nat.clog 2 n) := by
  have most : Nat.clog 2 n ≤ 31 := (Nat.clog_le_iff_le_pow (by decide)).mpr small
  exact treeHeight_from small (Nat.zero_le _) (by omega)

variable {s s' : ExtractState} {hash : Uint256}

theorem takeBit_past (past : tree.vBits.length ≤ s.nBitsUsed) :
    tree.takeBit s = (.ok none, { s with fBad := true }) := by
  rw [takeBit, get_bind, if_pos past, modify_bind, pure_apply]

theorem takeBit_next {bit : Bool} (next : tree.vBits[s.nBitsUsed]? = some bit) :
    tree.takeBit s = (.ok (some bit), { s with nBitsUsed := s.nBitsUsed + 1 }) := by
  have within := (List.getElem?_eq_some_iff.mp next).1
  rw [takeBit, get_bind, if_neg (by omega), next, assertSome, lift_bind_ok,
    modify_bind, pure_apply]

theorem takeHash_past (fMatched : Bool) (past : tree.vHash.length ≤ s.nHashUsed) :
    tree.takeHash fMatched s = (.ok 0, { s with fBad := true }) := by
  rw [takeHash, get_bind, if_pos past, modify_bind, pure_apply]

theorem takeHash_next (fMatched : Bool) (next : tree.vHash[s.nHashUsed]? = some hash) :
    tree.takeHash fMatched s = (.ok hash, { s with
      nHashUsed := s.nHashUsed + 1, vMatch := if fMatched then s.vMatch ++ [hash] else s.vMatch }) := by
  have within := (List.getElem?_eq_some_iff.mp next).1
  rw [takeHash, get_bind, if_neg (by omega), next, assertSome, lift_bind_ok,
    modify_bind, pure_apply]

/-- What `takeBit` can do. -/
theorem takeBit_cases (tree : CPartialMerkleTree) (s : ExtractState) :
    tree.takeBit s = (.ok none, { s with fBad := true }) ∨
    ∃ bit, tree.takeBit s = (.ok (some bit), { s with nBitsUsed := s.nBitsUsed + 1 }) := by
  rcases Nat.lt_or_ge s.nBitsUsed tree.vBits.length with within | past
  · exact .inr ⟨_, takeBit_next (List.getElem?_eq_getElem within)⟩
  · exact .inl (takeBit_past past)

/-- What `takeHash` can do. -/
theorem takeHash_cases (tree : CPartialMerkleTree) (fMatched : Bool) (s : ExtractState) :
    tree.takeHash fMatched s = (.ok 0, { s with fBad := true }) ∨
    ∃ hash, tree.takeHash fMatched s = (.ok hash, { s with
      nHashUsed := s.nHashUsed + 1, vMatch := if fMatched then s.vMatch ++ [hash] else s.vMatch }) := by
  rcases Nat.lt_or_ge s.nHashUsed tree.vHash.length with within | past
  · exact .inr ⟨_, takeHash_next fMatched (List.getElem?_eq_getElem within)⟩
  · exact .inl (takeHash_past fMatched past)

/-- The traversal comes back with a hash and never clears `fBad`, whatever the tree holds. -/
theorem traverseAndExtract_returns (P : Platform) (tree : CPartialMerkleTree) (height pos : ℕ) (s : ExtractState) :
    ∃ hash s', tree.traverseAndExtract P height pos s = (.ok hash, s') ∧ (s.fBad = true → s'.fBad = true) := by
  induction height generalizing pos s with
  | zero =>
    rw [traverseAndExtract]
    obtain past | ⟨bit, next⟩ := takeBit_cases tree s
    · exact ⟨0, _, bind_of_ok past, fun _ => rfl⟩
    · rw [bind_of_ok next]
      obtain past | ⟨hash, next⟩ := takeHash_cases tree bit { s with nBitsUsed := s.nBitsUsed + 1 }
      · exact ⟨0, _, past, fun _ => rfl⟩
      · exact ⟨hash, _, next, id⟩
  | succ height ih =>
    rw [traverseAndExtract]
    obtain past | ⟨bit, next⟩ := takeBit_cases tree s
    · exact ⟨0, _, bind_of_ok past, fun _ => rfl⟩
    · rw [bind_of_ok next]
      cases bit with
      | false =>
        obtain past | ⟨hash, next⟩ := takeHash_cases tree false { s with nBitsUsed := s.nBitsUsed + 1 }
        · exact ⟨0, _, past, fun _ => rfl⟩
        · exact ⟨hash, _, next, id⟩
      | true =>
        obtain ⟨left, s₁, first, bad⟩ := ih (pos * 2) { s with nBitsUsed := s.nBitsUsed + 1 }
        dsimp only
        rw [bind_of_ok first]
        split
        · obtain ⟨right, s₂, second, bad'⟩ := ih (pos * 2 + 1) s₁
          exact ⟨_, s₂, bind_of_ok second, fun worse => bad' (bad worse)⟩
        · exact ⟨_, s₁, rfl, bad⟩

/-- A traversal that ends with the hash of the node, without a complaint, has matched leaves below it. -/
theorem matched_below (injective : Function.Injective2 P.hashPair) (length : vTxid.length = tree.nTransactions)
    (small : tree.nTransactions ≤ 2 ^ 31) (low : height ≤ 31)
    (ran : tree.traverseAndExtract P height pos s = (.ok hash, s')) (fine : s'.fBad = false)
    (agree : node P.hashPair vTxid height pos = some hash) :
    ∃ found, s'.vMatch = s.vMatch ++ found ∧ found.Sublist (below vTxid height pos) := by
  induction height generalizing pos s s' hash with
  | zero =>
    rw [traverseAndExtract] at ran
    rw [node_zero] at agree
    rw [below_zero, agree]
    obtain past | ⟨bit, next⟩ := takeBit_cases tree s
    · rw [bind_of_ok past] at ran
      cases ran
      cases fine
    · rw [bind_of_ok next] at ran
      obtain past | ⟨_, next⟩ := takeHash_cases tree bit { s with nBitsUsed := s.nBitsUsed + 1 }
      · cases ran.symm.trans past
        cases fine
      · cases ran.symm.trans next
        cases bit with
        | false => exact ⟨[], (List.append_nil _).symm, List.nil_sublist _⟩
        | true => exact ⟨[hash], rfl, .refl _⟩
  | succ height ih =>
    rw [traverseAndExtract] at ran
    obtain past | ⟨bit, next⟩ := takeBit_cases tree s
    · rw [bind_of_ok past] at ran
      cases ran
      cases fine
    · rw [bind_of_ok next] at ran
      cases bit with
      | false =>
        obtain past | ⟨_, next⟩ := takeHash_cases tree false { s with nBitsUsed := s.nBitsUsed + 1 }
        · cases ran.symm.trans past
          cases fine
        · cases ran.symm.trans next
          exact ⟨[], (List.append_nil _).symm, List.nil_sublist _⟩
      | true =>
        have low' := (Nat.le_succ height).trans low
        rw [node_succ, Option.map_eq_some_iff] at agree
        obtain ⟨left₀, agreeLeft, both⟩ := agree
        obtain ⟨left, s₁, first, -⟩ := traverseAndExtract_returns P tree height (pos * 2)
          { s with nBitsUsed := s.nBitsUsed + 1 }
        dsimp only at ran
        rw [bind_of_ok first, calcTreeWidth_eq small low', ← length] at ran
        rw [below_succ]
        split at ran
        next inside =>
          obtain ⟨right₀, agreeRight⟩ := exists_node P.hashPair inside
          rw [agreeRight, Option.getD_some] at both
          obtain ⟨right, s₂, second, bad⟩ := traverseAndExtract_returns P tree height (pos * 2 + 1) s₁
          rw [bind_of_ok second] at ran
          cases ran
          obtain ⟨rfl, rfl⟩ := injective both
          have fine₁ : s₁.fBad = false := Bool.eq_false_iff.mpr fun worse => by
            rw [bad worse] at fine
            cases fine
          obtain ⟨found, matched, below⟩ := ih low' first fine₁ agreeLeft
          obtain ⟨found', matched', below'⟩ := ih low' second fine agreeRight
          refine ⟨found ++ found', ?_, below.append below'⟩
          rw [matched', matched, List.append_assoc]
        next beyond =>
          have absent := node_eq_none P.hashPair (not_lt.mp beyond)
          rw [absent, Option.getD_none] at both
          cases ran
          obtain ⟨rfl, -⟩ := injective both
          obtain ⟨found, matched, below⟩ := ih low' first fine agreeLeft
          refine ⟨found, matched, ?_⟩
          rw [below_eq_nil (not_lt.mp beyond), List.append_nil]
          exact below

/-- `ExtractMatches` comes back whatever it is given. -/
theorem extractMatches_returns (P : Platform) (tree : CPartialMerkleTree) :
    ∃ result, tree.extractMatches P = .ok result := by
  unfold extractMatches
  split_ifs with empty many
  all_goals first | exact ⟨_, rfl⟩ | skip
  have small : tree.nTransactions ≤ 2 ^ 31 := (not_lt.mp many).trans (by decide)
  obtain ⟨hash, s', ran, -⟩ := traverseAndExtract_returns P tree (Nat.clog 2 tree.nTransactions) 0 { fBad := tree.fBad }
  rw [treeHeight_eq small, Check.ok_bind, ran]
  dsimp only
  rw [Check.ok_bind]
  split_ifs
  all_goals exact ⟨_, rfl⟩

/-- A result other than zero is the hash a traversal without a complaint came back with. -/
theorem extractMatches_nonzero {root : Uint256} {vMatch : List Uint256} (ran : tree.extractMatches P = .ok (root, vMatch))
    (nonzero : root ≠ 0) : tree.nTransactions ≠ 0 ∧ tree.nTransactions ≤ MAX_BLOCK_SIZE / 60 ∧
      ∃ s', tree.traverseAndExtract P (Nat.clog 2 tree.nTransactions) 0 { fBad := tree.fBad } = (.ok root, s') ∧
        s'.fBad = false ∧ s'.vMatch = vMatch := by
  unfold extractMatches at ran
  have zero {other : List Uint256} : (Except.ok (0, other) : Check (Uint256 × List Uint256)) ≠ .ok (root, vMatch) :=
    fun same => nonzero (Prod.ext_iff.mp (Except.ok.inj same)).1.symm
  split_ifs at ran with empty many hashes bits
  all_goals first | exact absurd ran zero | skip
  have small : tree.nTransactions ≤ 2 ^ 31 := (not_lt.mp many).trans (by decide)
  obtain ⟨hash, s', traversed, -⟩ := traverseAndExtract_returns P tree (Nat.clog 2 tree.nTransactions) 0 { fBad := tree.fBad }
  rw [treeHeight_eq small, Check.ok_bind, traversed] at ran
  dsimp only at ran
  rw [Check.ok_bind] at ran
  split_ifs at ran with bad
  all_goals first | exact absurd ran zero | skip
  cases ran
  exact ⟨empty, not_lt.mp many, s', traversed, Bool.eq_false_iff.mpr bad, rfl⟩

end CPartialMerkleTree

end BitCrystal
