import BitCrystal.Proofs.OrphanBlocks
import BitCrystal.Proofs.Selection

/-! # Families of blocks

The checks of `AcceptBlock` read only what a block and its ancestors determine. So a block that passes them
in one tree passes them in every index that is a part of the tree and has its parent.
-/

namespace BitCrystal

open Forest Node Function CBlockIndex

/-- Entries that agree agree in every field but the ones that change. -/
theorem CBlockIndex.eq_of_placed {α : Type} (field : CBlockIndex → α) (reads : ∀ entry, field (placed entry) = field entry)
    {entry entry' : CBlockIndex} (same : entry'.placed = entry.placed) : field entry' = field entry := by
  rw [← reads entry', same, reads]

section Congruence

variable {P : Platform} {fCheckpoints : Bool} {block : CBlock}

theorem lastOrdinaryBits_map_placed (nProofOfWorkLimit : ℕ) (chain : List CBlockIndex) :
    lastOrdinaryBits nProofOfWorkLimit (chain.map CBlockIndex.placed) = lastOrdinaryBits nProofOfWorkLimit chain := by
  induction chain with
  | nil => rfl
  | cons pindex rest ih =>
    cases rest with
    | nil => rfl
    | cons prev rest =>
      change (if _ then lastOrdinaryBits nProofOfWorkLimit ((prev :: rest).map CBlockIndex.placed) else _) = _
      rw [ih]
      rfl

theorem getNextWorkRequired_map_placed (chain : List CBlockIndex) (nTime : ℕ) :
    getNextWorkRequired P (chain.map CBlockIndex.placed) nTime = getNextWorkRequired P chain nTime := by
  have bits := lastOrdinaryBits_map_placed (getCompact bnProofOfWorkLimit) chain
  cases chain with
  | nil => rfl
  | cons pindexLast rest =>
    unfold getNextWorkRequired
    rw [List.map_cons] at bits ⊢
    dsimp only
    rw [bits, ← List.map_cons, List.getElem?_map]
    cases (pindexLast :: rest)[nInterval - 1]? <;> rfl

theorem getMedianTimePast_map_placed (chain : List CBlockIndex) :
    getMedianTimePast (chain.map CBlockIndex.placed) = getMedianTimePast chain := by
  rw [getMedianTimePast, ← List.map_take, List.map_map]
  rfl

theorem isSuperMajority_map_placed (minVersion : ℤ) (chain : List CBlockIndex) (nRequired nToCheck : ℕ) :
    isSuperMajority minVersion (chain.map CBlockIndex.placed) nRequired nToCheck =
      isSuperMajority minVersion chain nRequired nToCheck := by
  rw [isSuperMajority, ← List.map_take, List.countP_map]
  rfl

theorem CBlock.checkAgainst_congr {pindexPrev pindexPrev' : CBlockIndex} {chain chain' : List CBlockIndex}
    (prev : pindexPrev'.placed = pindexPrev.placed)
    (same : chain'.map CBlockIndex.placed = chain.map CBlockIndex.placed) :
    block.checkAgainst P fCheckpoints pindexPrev' chain' = block.checkAgainst P fCheckpoints pindexPrev chain := by
  have height : pindexPrev'.nHeight = pindexPrev.nHeight := eq_of_placed nHeight (fun _ => rfl) prev
  have work (nTime : ℕ) : getNextWorkRequired P chain' nTime = getNextWorkRequired P chain nTime := by
    rw [← getNextWorkRequired_map_placed chain', same, getNextWorkRequired_map_placed]
  have median : getMedianTimePast chain' = getMedianTimePast chain := by
    rw [← getMedianTimePast_map_placed chain', same, getMedianTimePast_map_placed]
  have majority (nRequired nToCheck : ℕ) :
      isSuperMajority 2 chain' nRequired nToCheck = isSuperMajority 2 chain nRequired nToCheck := by
    rw [← isSuperMajority_map_placed 2 chain', same, isSuperMajority_map_placed]
  unfold CBlock.checkAgainst
  rw [height, work, median, majority, majority]

end Congruence

/-! ## Parts of a tree -/

/-- The blocks of the index are in the tree, with the same data. -/
def Within (index tree : BlockMap) : Prop :=
  ∀ pindex entry, index pindex = some entry → ∃ entry', tree pindex = some entry' ∧ entry'.placed = entry.placed

namespace Within

variable {P : Platform} {fCheckpoints : Bool} {block : CBlock} {genesis : BlockPtr} {index index' tree : BlockMap}

theorem refl (index : BlockMap) : Within index index := fun _ entry found => ⟨entry, found, rfl⟩

theorem trans (first : Within index index') (second : Within index' tree) : Within index tree := by
  intro pindex entry found
  obtain ⟨between, there, same⟩ := first pindex entry found
  obtain ⟨last, further, same'⟩ := second pindex between there
  exact ⟨last, further, same'.trans same⟩

theorem of_sameBlocks (same : SameBlocks index index') : Within index' index := fun _ _ found => same.symm.entry found

variable {pindex : BlockPtr}

theorem indexed (within : Within index tree) (there : ∃ entry, index pindex = some entry) :
    ∃ entry, tree pindex = some entry := by
  obtain ⟨entry, found⟩ := there
  obtain ⟨entry', further, -⟩ := within pindex entry found
  exact ⟨entry', further⟩

theorem update {entry entry' : CBlockIndex} {hash : BlockPtr} (within : Within index tree)
    (there : tree hash = some entry') (same : entry'.placed = entry.placed) :
    Within (Function.update index hash (some entry)) tree := by
  intro pindex other found
  rw [update_apply] at found
  split at found
  next here =>
    cases found
    exact ⟨entry', here ▸ there, same⟩
  next => exact within pindex other found

theorem workOf (within : Within index tree) (there : ∃ entry, index pindex = some entry) :
    Node.workOf tree pindex = Node.workOf index pindex := by
  obtain ⟨entry, found⟩ := there
  obtain ⟨entry', further, same⟩ := within pindex entry found
  rw [Node.workOf, Node.workOf, found, further]
  exact eq_of_placed nChainWork (fun _ => rfl) same

theorem parentOf (within : Within index tree) (there : ∃ entry, index pindex = some entry) :
    Node.parentOf tree pindex = Node.parentOf index pindex := by
  obtain ⟨entry, found⟩ := there
  obtain ⟨entry', further, same⟩ := within pindex entry found
  rw [Node.parentOf, Node.parentOf, found, further]
  exact eq_of_placed pprev (fun _ => rfl) same

variable (within : Within index tree) (rooted : Rooted index genesis)
include within rooted

/-- The chain of an indexed block is the same in the tree. -/
theorem ancestor_iff {a b : BlockPtr} (there : ∃ entry, index b = some entry) :
    Ancestor (Node.parentOf tree) a b ↔ Ancestor (Node.parentOf index) a b := by
  constructor
  · intro ancestor
    induction ancestor using Relation.ReflTransGen.head_induction_on with
    | refl => exact .refl _
    | head edge _ ih =>
      rw [within.parentOf there] at edge
      exact (ih (rooted.indexed_of_ancestor (.of_parent edge) there)).trans (.of_parent edge)
  · intro ancestor
    induction ancestor using Relation.ReflTransGen.head_induction_on with
    | refl => exact .refl _
    | head edge _ ih =>
      refine (ih (rooted.indexed_of_ancestor (.of_parent edge) there)).trans (.of_parent ?_)
      rw [within.parentOf there, edge]

theorem pprevs_map_placed {rounds : ℕ} {pindex : Option BlockPtr}
    (there : ∀ p ∈ pindex, ∃ entry, index p = some entry) :
    (pprevs tree rounds pindex).map CBlockIndex.placed = (pprevs index rounds pindex).map CBlockIndex.placed := by
  induction rounds generalizing pindex with
  | zero => cases pindex <;> rfl
  | succ rounds ih =>
    cases pindex with
    | none => rfl
    | some p =>
      obtain ⟨entry, found⟩ := there p rfl
      obtain ⟨entry', further, same⟩ := within p entry found
      have edge : entry'.pprev = entry.pprev := eq_of_placed pprev (fun _ => rfl) same
      have behind : ∀ q ∈ entry.pprev, ∃ above, index q = some above := by
        intro q prev
        obtain ⟨above, found', -⟩ := rooted.parent p entry q found prev
        exact ⟨above, found'⟩
      simp only [pprevs, found, further, List.map_cons, same, edge, ih behind]

/-- The checks of a block whose parent is indexed. -/
theorem checkContext (there : ∃ entry, index block.hashPrevBlock = some entry) :
    block.checkContext P fCheckpoints tree = block.checkContext P fCheckpoints index := by
  obtain ⟨entry, found⟩ := there
  obtain ⟨entry', further, same⟩ := within _ entry found
  have height : entry'.nHeight = entry.nHeight := eq_of_placed nHeight (fun _ => rfl) same
  unfold CBlock.checkContext
  rw [found, further]
  split
  · rfl
  · apply CBlock.checkAgainst_congr same
    rw [height]
    refine within.pprevs_map_placed rooted fun p here => ?_
    cases here
    exact ⟨entry, found⟩

omit rooted in
/-- The entry of a new block depends on its parent only. -/
theorem placed_newEntry (there : ∃ entry, index block.hashPrevBlock = some entry)
    (other : block.hashPrevBlock ≠ block.getHash P) :
    (newEntry P tree block 0 0).placed = (newEntry P index block 0 0).placed := by
  obtain ⟨entry, found⟩ := there
  obtain ⟨entry', further, same⟩ := within _ entry found
  have height : entry'.nHeight = entry.nHeight := eq_of_placed nHeight (fun _ => rfl) same
  have work : entry'.nChainWork = entry.nChainWork := eq_of_placed nChainWork (fun _ => rfl) same
  have chainTx : entry'.nChainTx = entry.nChainTx := eq_of_placed nChainTx (fun _ => rfl) same
  simp only [newEntry, update_of_ne other, found, further, Option.elim_some, Option.map_some, height, work,
    chainTx]

end Within

/-- A finite set of blocks and the tree they make on top of an index, in an order in which every block has
its parent: each of them passes `CheckBlock` and the checks of `AcceptBlock`. Zero stands for no block. -/
inductive Family (P : Platform) (fCheckpoints : Bool) (start : BlockMap) : List CBlock → BlockMap → Prop
  | nil : Family P fCheckpoints start [] start
  | cons {blocks : List CBlock} {tree : BlockMap} {block : CBlock} (family : Family P fCheckpoints start blocks tree)
      (fresh : tree (block.getHash P) = none) (nonzero : block.getHash P ≠ 0)
      (checked : block.checkBlock P true true = .ok ())
      (passed : block.checkContext P fCheckpoints tree = .ok ()) :
      Family P fCheckpoints start (block :: blocks)
        (Function.update tree (block.getHash P) (some (newEntry P tree block 0 0)))

/-- A block of a family in its tree. -/
structure Placed (P : Platform) (fCheckpoints : Bool) (tree : BlockMap) (block : CBlock) : Prop where
  parent : ∃ entry, tree block.hashPrevBlock = some entry
  other : block.hashPrevBlock ≠ block.getHash P
  entry : ∃ entry, tree (block.getHash P) = some entry ∧ entry.placed = (newEntry P tree block 0 0).placed
  nonzero : block.getHash P ≠ 0
  checked : block.checkBlock P true true = .ok ()
  passed : block.checkContext P fCheckpoints tree = .ok ()

theorem Within.of_fresh {index : BlockMap} {hash : BlockPtr} (fresh : index hash = none) (entry : CBlockIndex) :
    Within index (Function.update index hash (some entry)) := by
  intro pindex other found
  refine ⟨other, ?_, rfl⟩
  rw [update_of_ne, found]
  rintro rfl
  rw [fresh] at found
  contradiction

namespace Family

variable {P : Platform} {fCheckpoints : Bool} {start tree : BlockMap} {blocks : List CBlock}

theorem within (family : Family P fCheckpoints start blocks tree) : Within start tree := by
  induction family with
  | nil => exact .refl start
  | cons _ fresh _ _ _ ih => exact ih.trans (.of_fresh fresh _)

theorem indexed_iff (family : Family P fCheckpoints start blocks tree) (pindex : BlockPtr) :
    (∃ entry, tree pindex = some entry) ↔
      (∃ entry, start pindex = some entry) ∨ ∃ block ∈ blocks, block.getHash P = pindex := by
  induction family with
  | nil => simp
  | @cons blocks tree block _ fresh _ _ _ ih =>
    rw [List.exists_mem_cons_iff, update_apply]
    split
    next here => simp [here]
    next elsewhere =>
      rw [ih]
      have away : ¬ block.getHash P = pindex := fun same => elsewhere same.symm
      simp [away]

section

variable (founded : ∃ entry, start P.hashGenesisBlock = some entry)
include founded

/-- The parent of a block that passes the checks, which is not the genesis block. -/
theorem parent (family : Family P fCheckpoints start blocks tree) {block : CBlock}
    (fresh : tree (block.getHash P) = none) (passed : block.checkContext P fCheckpoints tree = .ok ()) :
    ∃ entry, tree block.hashPrevBlock = some entry := by
  rw [CBlock.checkContext, if_neg] at passed
  · obtain ⟨entry, found, -⟩ := Check.bind_eq_ok.mp passed
    exact ⟨entry, Check.assertSome_eq_ok.mp found⟩
  · intro first
    obtain ⟨entry, found⟩ := family.within.indexed founded
    rw [← first, fresh] at found
    contradiction

variable (base : Rooted start P.hashGenesisBlock)
include base

theorem rooted (family : Family P fCheckpoints start blocks tree) : Rooted tree P.hashGenesisBlock := by
  induction family with
  | nil => exact base
  | cons family fresh _ _ passed ih => exact (newEntry_hangs fresh (.inl (family.parent founded fresh passed))).rooted ih

theorem placed (family : Family P fCheckpoints start blocks tree) {block : CBlock} (member : block ∈ blocks) :
    Placed P fCheckpoints tree block := by
  induction family with
  | nil => simp at member
  | @cons blocks tree last family fresh nonzero checked passed ih =>
    have grown : Within tree (Function.update tree (last.getHash P) (some (newEntry P tree last 0 0))) :=
      .of_fresh fresh _
    have below : Rooted tree P.hashGenesisBlock := family.rooted founded base
    rcases List.mem_cons.mp member with rfl | earlier
    · have parent := family.parent founded fresh passed
      have other : block.hashPrevBlock ≠ block.getHash P := by
        intro same
        obtain ⟨entry, found⟩ := parent
        rw [same, fresh] at found
        contradiction
      refine ⟨grown.indexed parent, other, ⟨_, update_self .., ?_⟩, nonzero, checked, ?_⟩
      · exact (grown.placed_newEntry parent other).symm
      · exact (grown.checkContext below parent).trans passed
    · have placed := ih earlier
      obtain ⟨entry, found, same⟩ := placed.entry
      obtain ⟨entry', further, same'⟩ := grown _ entry found
      refine ⟨grown.indexed placed.parent, placed.other, ⟨entry', further, ?_⟩, placed.nonzero, placed.checked, ?_⟩
      · exact (same'.trans same).trans (grown.placed_newEntry placed.parent placed.other).symm
      · exact (grown.checkContext below placed.parent).trans placed.passed

end

theorem getHash_inj (family : Family P fCheckpoints start blocks tree) {first second : CBlock} (member : first ∈ blocks)
    (member' : second ∈ blocks) (same : first.getHash P = second.getHash P) : first = second := by
  induction family with
  | nil => simp at member
  | @cons blocks tree last family fresh _ _ _ ih =>
    have apart {block : CBlock} (inside : block ∈ blocks) : block.getHash P ≠ last.getHash P := by
      intro equal
      obtain ⟨entry, found⟩ := (family.indexed_iff _).mpr (.inr ⟨block, inside, equal⟩)
      rw [fresh] at found
      contradiction
    rcases List.mem_cons.mp member with rfl | earlier <;> rcases List.mem_cons.mp member' with rfl | earlier'
    · rfl
    · exact absurd same.symm (apart earlier')
    · exact absurd same (apart earlier)
    · exact ih earlier earlier'

end Family

end BitCrystal
