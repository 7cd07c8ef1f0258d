import BitCrystal.Proofs.PartialMerkleTree
import BitCrystal.Proofs.TxCodec

/-! # Building, sending and extracting a partial merkle tree

The construction appends the trace of a node, the serialization packs its bits in bytes, and the
extraction consumes it.
-/

namespace BitCrystal.CPartialMerkleTree

open HashTree StateAction Check

variable {P : Platform} {tree : CPartialMerkleTree} {vTxid : List Uint256} {vMatch : List Bool} {height pos : ℕ}
  {s : ExtractState}

/-- Whether a leaf below a node is matched. -/
def matchedBelow (vMatch : List Bool) (height pos : ℕ) : Bool := (below vMatch height pos).any id

/-- The bits the construction stores for a node and the nodes it visits below. -/
def traceBits (vMatch : List Bool) : ℕ → ℕ → List Bool
  | 0, pos => [matchedBelow vMatch 0 pos]
  | height + 1, pos =>
    if matchedBelow vMatch (height + 1) pos then
      true :: (traceBits vMatch height (pos * 2) ++
        if pos * 2 + 1 < width vMatch.length height then traceBits vMatch height (pos * 2 + 1) else [])
    else [false]

/-- The hashes it stores. -/
def traceHashes (P : Platform) (vTxid : List Uint256) (vMatch : List Bool) : ℕ → ℕ → List Uint256
  | 0, pos => (node P.hashPair vTxid 0 pos).toList
  | height + 1, pos =>
    if matchedBelow vMatch (height + 1) pos then
      traceHashes P vTxid vMatch height (pos * 2) ++
        if pos * 2 + 1 < width vMatch.length height then traceHashes P vTxid vMatch height (pos * 2 + 1) else []
    else (node P.hashPair vTxid (height + 1) pos).toList

/-- The txids a mask selects. -/
def selected (vTxid : List Uint256) (vMatch : List Bool) : List Uint256 :=
  ((vTxid.zip vMatch).filter fun pair => pair.2).map Prod.fst

theorem inside_left {n : ℕ} (inside : pos < width n (height + 1)) : pos * 2 < width n height := by
  rw [width_succ] at inside
  omega

theorem calcHash_eq (small : vTxid.length ≤ 2 ^ 31) (low : height ≤ 31) (inside : pos < width vTxid.length height) :
    ∃ hash, calcHash P vTxid height pos = .ok hash ∧ node P.hashPair vTxid height pos = some hash := by
  induction height generalizing pos with
  | zero =>
    obtain ⟨hash, found⟩ := exists_node P.hashPair inside
    refine ⟨hash, ?_, found⟩
    rw [node_zero] at found
    rw [calcHash, found, assertSome]
  | succ height ih =>
    have low' := (Nat.le_succ height).trans low
    obtain ⟨left, first, agree⟩ := ih low' (inside_left inside)
    rw [calcHash, first, ok_bind, calcTreeWidth_eq small low', node_succ, agree]
    split
    next right =>
      obtain ⟨right, second, agree'⟩ := ih low' right
      rw [second, ok_bind, agree']
      exact ⟨_, rfl, rfl⟩
    next beyond =>
      rw [node_eq_none P.hashPair (not_lt.mp beyond)]
      exact ⟨_, rfl, rfl⟩

private theorem mapM_range' {l : List Bool} {first k : ℕ} (within : first + k ≤ l.length) :
    (List.range' first k).mapM (fun p => assertSome Failure.undefined l[p]?) = .ok ((l.drop first).take k) := by
  induction k generalizing first with
  | zero =>
    rw [List.take_zero]
    rfl
  | succ k ih =>
    have inside : first < l.length := by omega
    rw [List.range'_succ, List.mapM_cons, List.getElem?_eq_getElem inside, assertSome, ok_bind,
      ih (by omega), ok_bind, List.drop_eq_getElem_cons inside, List.take_succ_cons]
    rfl

theorem parentOfMatch_eq (inside : pos < width vMatch.length height) :
    parentOfMatch vMatch.length vMatch height pos = .ok (matchedBelow vMatch height pos) := by
  have starts : pos * 2 ^ height < vMatch.length := by
    rw [← not_le, ← width_le, not_le]
    exact inside
  have ends : (pos + 1) * 2 ^ height = pos * 2 ^ height + 2 ^ height := Nat.succ_mul ..
  have slice : below vMatch height pos = (vMatch.drop (pos * 2 ^ height)).take
      (min ((pos + 1) * 2 ^ height) vMatch.length - pos * 2 ^ height) := by
    rw [below, List.take_eq_take_iff, List.length_drop, ends]
    generalize pos * 2 ^ height = first at starts
    generalize 2 ^ height = size
    omega
  have within : pos * 2 ^ height + (min ((pos + 1) * 2 ^ height) vMatch.length - pos * 2 ^ height) ≤ vMatch.length := by
    generalize pos * 2 ^ height = first at starts
    omega
  rw [parentOfMatch, mapM_range' within, ok_bind, ← slice]
  rfl

/-- The construction appends the trace of the node. -/
theorem traverseAndBuild_eq (sameLength : vMatch.length = vTxid.length) (small : vTxid.length ≤ 2 ^ 31)
    (low : height ≤ 31) (inside : pos < width vTxid.length height) (tree : CPartialMerkleTree) :
    traverseAndBuild P vTxid vMatch height pos tree = .ok { tree with
      vBits := tree.vBits ++ traceBits vMatch height pos
      vHash := tree.vHash ++ traceHashes P vTxid vMatch height pos } := by
  induction height generalizing pos tree with
  | zero =>
    obtain ⟨hash, calculated, agree⟩ := calcHash_eq (P := P) small low inside
    rw [traverseAndBuild, ← sameLength, parentOfMatch_eq (sameLength ▸ inside), ok_bind, calculated, ok_bind,
      traceBits, traceHashes, agree]
    rfl
  | succ height ih =>
    have low' := (Nat.le_succ height).trans low
    rw [traverseAndBuild, ← sameLength, parentOfMatch_eq (sameLength ▸ inside), ok_bind, traceBits, traceHashes]
    cases matchedBelow vMatch (height + 1) pos with
    | false =>
      obtain ⟨hash, calculated, agree⟩ := calcHash_eq (P := P) small low inside
      rw [calculated, agree]
      rfl
    | true =>
      simp only [↓reduceIte]
      rw [ih low' (inside_left inside), ok_bind, sameLength, calcTreeWidth_eq small low']
      split
      next right =>
        rw [ih low' right]
        simp only [List.append_assoc, List.cons_append, List.nil_append]
      next beyond =>
        simp only [List.append_assoc, List.cons_append, List.nil_append, List.append_nil]
        rfl

/-! ## Extraction of a trace -/

section Prefixes

variable {α : Type} {l first second : List α} {i : ℕ} {a : α}

private theorem getElem?_of_stored (stored : a :: first <+: l.drop i) : l[i]? = some a := by
  obtain ⟨rest, same⟩ := stored
  rw [← List.head?_drop, ← same]
  rfl

private theorem stored_left (stored : first ++ second <+: l.drop i) : first <+: l.drop i :=
  (List.prefix_append ..).trans stored

private theorem stored_right (stored : first ++ second <+: l.drop i) : second <+: l.drop (i + first.length) := by
  obtain ⟨rest, same⟩ := stored
  refine ⟨rest, ?_⟩
  rw [← List.drop_drop, ← same, List.append_assoc, List.drop_left]

private theorem stored_tail (stored : a :: first <+: l.drop i) : first <+: l.drop (i + 1) := by
  obtain ⟨rest, same⟩ := stored
  refine ⟨rest, ?_⟩
  rw [← List.drop_drop, ← same]
  rfl

end Prefixes

theorem selected_append {left right : List Uint256} {leftMask rightMask : List Bool}
    (sameLength : left.length = leftMask.length) :
    selected (left ++ right) (leftMask ++ rightMask) = selected left leftMask ++ selected right rightMask := by
  rw [selected, List.zip_append sameLength, List.filter_append, List.map_append, selected, selected]

theorem selected_eq_nil {txids : List Uint256} {mask : List Bool} (unmasked : mask.any id = false) :
    selected txids mask = [] := by
  rw [selected, List.map_eq_nil_iff, List.filter_eq_nil_iff]
  intro pair member matched
  have unmatched := List.any_eq_false.mp unmasked pair.2 (List.of_mem_zip member).2
  exact unmatched matched

theorem length_below_eq (sameLength : vMatch.length = vTxid.length) :
    (below vTxid height pos).length = (below vMatch height pos).length := by
  rw [below, below, List.length_take, List.length_take, List.length_drop, List.length_drop, sameLength]

/-- The extraction consumes the trace of the node and comes back with its hash and the matches below. -/
theorem traverseAndExtract_trace (sameLength : vMatch.length = vTxid.length) (small : vTxid.length ≤ 2 ^ 31)
    (total : tree.nTransactions = vTxid.length) (low : height ≤ 31) (inside : pos < width vTxid.length height)
    (bits : traceBits vMatch height pos <+: tree.vBits.drop s.nBitsUsed)
    (hashes : traceHashes P vTxid vMatch height pos <+: tree.vHash.drop s.nHashUsed) :
    ∃ hash, node P.hashPair vTxid height pos = some hash ∧
      tree.traverseAndExtract P height pos s = (.ok hash, { s with
        nBitsUsed := s.nBitsUsed + (traceBits vMatch height pos).length
        nHashUsed := s.nHashUsed + (traceHashes P vTxid vMatch height pos).length
        vMatch := s.vMatch ++ selected (below vTxid height pos) (below vMatch height pos) }) := by
  induction height generalizing pos s with
  | zero =>
    obtain ⟨hash, agree⟩ := exists_node P.hashPair inside
    have matched : pos < width vMatch.length 0 := sameLength ▸ inside
    rw [width_zero] at matched
    refine ⟨hash, agree, ?_⟩
    rw [traceHashes, agree] at hashes
    rw [traceBits] at bits
    rw [traverseAndExtract, bind_of_ok (takeBit_next (getElem?_of_stored bits)), traceBits, traceHashes, agree]
    dsimp only
    refine (takeHash_next (s := { s with nBitsUsed := s.nBitsUsed + 1 }) _ (getElem?_of_stored hashes)).trans ?_
    rw [below_zero, below_zero, matchedBelow, below_zero, List.getElem?_eq_getElem matched,
      ← node_zero P.hashPair, agree]
    cases vMatch[pos] with
    | false => simp [selected]
    | true => rfl
  | succ height ih =>
    have low' := (Nat.le_succ height).trans low
    rw [traceBits] at bits ⊢
    rw [traceHashes] at hashes ⊢
    rw [traverseAndExtract]
    cases any : matchedBelow vMatch (height + 1) pos with
    | false =>
      obtain ⟨hash, agree⟩ := exists_node P.hashPair inside
      rw [any] at bits hashes
      simp only [Bool.false_eq_true, ↓reduceIte, agree] at bits hashes ⊢
      refine ⟨hash, rfl, ?_⟩
      rw [bind_of_ok (takeBit_next (getElem?_of_stored bits))]
      dsimp only
      refine (takeHash_next (s := { s with nBitsUsed := s.nBitsUsed + 1 }) _ (getElem?_of_stored hashes)).trans ?_
      rw [selected_eq_nil any]
      simp
    | true =>
      rw [any] at bits hashes
      simp only [↓reduceIte] at bits hashes ⊢
      have tail : _ <+: tree.vBits.drop (s.nBitsUsed + 1) := stored_tail bits
      rw [bind_of_ok (takeBit_next (getElem?_of_stored bits))]
      dsimp only
      obtain ⟨left, agree, first⟩ := ih (s := { s with nBitsUsed := s.nBitsUsed + 1 }) low' (inside_left inside)
        (stored_left tail) (stored_left hashes)
      rw [bind_of_ok first, calcTreeWidth_eq (total ▸ small) low', total, node_succ, agree, below_succ, below_succ,
        selected_append (length_below_eq sameLength)]
      rw [sameLength] at tail hashes ⊢
      split
      next right =>
        rw [if_pos right] at tail hashes
        obtain ⟨right, agree', second⟩ := ih (s := { s with
            nBitsUsed := s.nBitsUsed + 1 + (traceBits vMatch height (pos * 2)).length
            nHashUsed := s.nHashUsed + (traceHashes P vTxid vMatch height (pos * 2)).length
            vMatch := s.vMatch ++ selected (below vTxid height (pos * 2)) (below vMatch height (pos * 2)) })
          low' right (stored_right tail) (stored_right hashes)
        refine ⟨P.hashPair left right, by rw [agree']; rfl, ?_⟩
        rw [bind_of_ok second]
        simp only [pure_apply, List.length_cons, List.length_append, List.append_assoc,
          Prod.mk.injEq, ExtractState.mk.injEq, true_and, and_true]
        omega
      next beyond =>
        have absent := node_eq_none P.hashPair (not_lt.mp beyond)
        refine ⟨P.hashPair left left, by rw [absent]; rfl, ?_⟩
        have nothing : selected [] (below vMatch height (pos * 2 + 1)) = [] := rfl
        rw [below_eq_nil (not_lt.mp beyond), nothing, List.append_nil, List.append_nil, List.append_nil,
          List.length_cons, Nat.add_right_comm, Nat.add_assoc s.nBitsUsed]
        rfl

theorem length_traceHashes_le_bits (vTxid : List Uint256) (vMatch : List Bool) (height pos : ℕ) :
    (traceHashes P vTxid vMatch height pos).length ≤ (traceBits vMatch height pos).length := by
  have single (found : Option Uint256) : found.toList.length ≤ 1 := by cases found <;> simp
  induction height generalizing pos with
  | zero => exact single _
  | succ height ih =>
    rw [traceHashes, traceBits]
    split
    · rw [List.length_cons, List.length_append, List.length_append]
      have left := ih (pos * 2)
      have right := ih (pos * 2 + 1)
      split
      · omega
      · simp only [List.length_nil]
        omega
    · exact single _

theorem length_traceBits_lt (vMatch : List Bool) (height pos : ℕ) :
    (traceBits vMatch height pos).length < 2 ^ (height + 1) := by
  induction height generalizing pos with
  | zero => simp [traceBits]
  | succ height ih =>
    have left := ih (pos * 2)
    have right := ih (pos * 2 + 1)
    rw [traceBits]
    split
    · rw [List.length_cons, List.length_append]
      split
      · omega
      · simp only [List.length_nil]
        omega
    · simp only [List.length_singleton]
      omega

theorem length_traceHashes_le_below (sameLength : vMatch.length = vTxid.length) (inside : pos < width vTxid.length height) :
    (traceHashes P vTxid vMatch height pos).length ≤ (below vTxid height pos).length := by
  have single {height pos : ℕ} (inside : pos < width vTxid.length height) (found : Option Uint256) :
      found.toList.length ≤ (below vTxid height pos).length := by
    have positive := below_pos inside
    cases found <;> simp only [Option.toList_none, Option.toList_some, List.length_nil, List.length_singleton] <;> omega
  induction height generalizing pos with
  | zero => exact single inside _
  | succ height ih =>
    rw [traceHashes]
    split
    · rw [below_succ, List.length_append, List.length_append]
      have left := ih (inside_left inside)
      split
      next right =>
        rw [sameLength] at right
        have right := ih right
        omega
      next => simp only [List.length_nil]; omega
    · exact single inside _

theorem exists_node_of_mem_traceHashes {hash : Uint256} (member : hash ∈ traceHashes P vTxid vMatch height pos) :
    ∃ height pos, node P.hashPair vTxid height pos = some hash := by
  induction height generalizing pos with
  | zero => exact ⟨0, pos, Option.mem_toList.mp member⟩
  | succ height ih =>
    rw [traceHashes] at member
    split at member
    · rcases List.mem_append.mp member with left | right
      · exact ih left
      · split at right
        · exact ih right
        · cases right
    · exact ⟨height + 1, pos, Option.mem_toList.mp member⟩

theorem unpackBits_packBits (bits : List Bool) :
    unpackBits (packBits bits) = (List.range ((bits.length + 7) / 8 * 8)).map fun i => bits.getD i false := by
  rw [unpackBits, packBits, List.flatMap_map]
  generalize (bits.length + 7) / 8 = size
  induction size with
  | zero => rfl
  | succ size ih =>
    have byte : (List.range 8).map (UInt8.ofNat (Nat.ofBits fun p : Fin 8 => bits.getD (size * 8 + p) false)).toNat.testBit =
        (List.range 8).map fun p => bits.getD (size * 8 + p) false := by
      rw [UInt8.toNat_ofNat', Nat.mod_eq_of_lt (Nat.ofBits_lt_two_pow _)]
      refine List.map_congr_left fun p member => ?_
      exact Nat.testBit_ofBits_lt _ p (List.mem_range.mp member)
    rw [@List.range_succ size, List.flatMap_append, ih, Nat.succ_mul, List.range_add, List.map_append, List.map_map]
    simp only [List.flatMap_cons, List.flatMap_nil, List.append_nil, byte]
    rfl

theorem prefix_unpackBits (bits : List Bool) : bits <+: unpackBits (packBits bits) := by
  have more : (bits.length + 7) / 8 * 8 = bits.length + ((bits.length + 7) / 8 * 8 - bits.length) := by omega
  rw [unpackBits_packBits, more, List.range_add, List.map_append]
  have same : (List.range bits.length).map (fun i => bits.getD i false) = bits := by
    apply List.ext_getElem
    · simp
    · intro i _ within
      simp [within]
  exact ⟨_, by rw [same]⟩

theorem length_packBits (bits : List Bool) : (packBits bits).length = (bits.length + 7) / 8 := by
  rw [packBits, List.length_map, List.length_range]

theorem length_unpackBits (bits : List Bool) : (unpackBits (packBits bits)).length = (bits.length + 7) / 8 * 8 := by
  rw [unpackBits_packBits, List.length_map, List.length_range]

/-- What comes out of the serialization: the bits are filled up to whole bytes. -/
theorem reads_serialize {nMaxSize : ℕ} (total : tree.nTransactions < 2 ^ 32) (each : ∀ hash ∈ tree.vHash, hash < 2 ^ 256)
    (hashes : tree.vHash.length ≤ nMaxSize) (bytes : (tree.vBits.length + 7) / 8 ≤ nMaxSize) (most : nMaxSize < 2 ^ 64) :
    (unserialize nMaxSize).Reads tree.serialize
      { tree with vBits := unpackBits (packBits tree.vBits), fBad := false } := by
  have vector : (readVector nMaxSize).Reads (writeVector (packBits tree.vBits)) (packBits tree.vBits) := by
    apply (readsIff_vector _).reads <;> rw [length_packBits] <;> omega
  have objects : (readObjects nMaxSize (LittleEndian.read 32)).Reads
      (writeObjects (LittleEndian.encode 32) tree.vHash) tree.vHash := by
    refine (readsIff_objects (hashes.trans_lt most) fun hash member => (Reader.Reads.iff_true ?_)).reads
      ⟨hashes, fun _ _ => trivial⟩
    exact @LittleEndian.reads 32 _ (each hash member)
  exact (@LittleEndian.reads 4 _ total).bind (objects.bind (vector.map fun vBytes =>
    (⟨tree.nTransactions, unpackBits vBytes, tree.vHash, false⟩ : CPartialMerkleTree)))

end BitCrystal.CPartialMerkleTree
