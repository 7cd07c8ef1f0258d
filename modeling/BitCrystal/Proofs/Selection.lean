import BitCrystal.Proofs.Decided

/-! # One round of ConnectBestBlock

The last candidate has the most work. Its ancestry is walked down to a failed block or to the active
chain, and the blocks between a failed block and the candidate are marked.
-/

namespace BitCrystal

open StateAction Forest

namespace Node

variable {genesis : BlockPtr} {index : BlockMap} {node : Node}

theorem workLess_iff {pa pb : BlockPtr} : workLess index pa pb = true ↔
    workOf index pa < workOf index pb ∨ workOf index pa = workOf index pb ∧ pb < pa := by
  simp [workLess, workOf]

theorem lastCandidate_eq_none {candidates : List BlockPtr} : lastCandidate index candidates = none ↔ candidates = [] := by
  cases candidates with
  | nil => simp [lastCandidate]
  | cons pindex rest =>
    rw [lastCandidate]
    split
    · simp
    · split <;> simp

theorem lastCandidate_eq_some {candidates : List BlockPtr} {last : BlockPtr}
    (found : lastCandidate index candidates = some last) :
    last ∈ candidates ∧ ∀ pindex ∈ candidates, workOf index pindex ≤ workOf index last := by
  induction candidates generalizing last with
  | nil => simp [lastCandidate] at found
  | cons pindex rest ih =>
    rw [lastCandidate] at found
    cases below : lastCandidate index rest with
    | none =>
      rw [below] at found
      cases found
      simp [lastCandidate_eq_none.mp below]
    | some other =>
      obtain ⟨member, most⟩ := ih below
      simp only [below] at found
      split at found
      next less =>
        cases found
        refine ⟨List.mem_cons_self .., List.forall_mem_cons.mpr ⟨le_rfl, fun p there => ?_⟩⟩
        have := most p there
        rcases workLess_iff.mp less with more | ⟨same, -⟩ <;> omega
      next more =>
        cases found
        refine ⟨List.mem_cons_of_mem _ member, List.forall_mem_cons.mpr ⟨?_, most⟩⟩
        rw [workLess_iff, not_or] at more
        omega

/-- The block has more work than the tip, or there is no tip. -/
def beats (index : BlockMap) (best : Option CBlockIndex) (pindex : BlockPtr) : Bool :=
  best.all fun tip => tip.nChainWork < workOf index pindex

/-- Down to a failed block, or to the parent of a block with a `pnext`. -/
theorem checkAncestry_returns (rooted : Rooted index genesis) (best : Option CBlockIndex) {rounds : ℕ}
    {vAttach : List BlockPtr} {pindexTest : BlockPtr} (indexed : ∃ entry, index pindexTest = some entry)
    (enough : heightOf index pindexTest < rounds) :
    (∃ failed, checkAncestry index best rounds vAttach pindexTest = .ok (.inl failed) ∧
      Ancestor (parentOf index) failed pindexTest ∧ failedOf index failed = true) ∨
    ∃ rest bottom,
      checkAncestry index best rounds vAttach pindexTest =
        .ok (.inr (((pindexTest :: rest).filter (beats index best)).reverse ++ vAttach)) ∧
      Path (parentOf index) (parentOf index pindexTest) rest bottom ∧
      (∀ pindex ∈ pindexTest :: rest, failedOf index pindex = false) ∧
      ∀ pindex, OnChain (parentOf index) bottom pindex →
        ∃ linked, nextOf index linked ≠ none ∧ Ancestor (parentOf index) pindex linked := by
  induction rounds generalizing pindexTest vAttach with
  | zero => omega
  | succ rounds ih =>
    obtain ⟨entry, found⟩ := indexed
    have link := parentOf_of_some found
    have status := failedOf_of_some found
    have work := workOf_of_some found
    have unfolded : checkAncestry index best (rounds + 1) vAttach pindexTest =
        if entry.nStatus.failed then .ok (.inl pindexTest)
        else entry.pprev.elim (.ok (.inr (([pindexTest].filter (beats index best)).reverse ++ vAttach))) fun prev =>
          if entry.pnext ≠ none then .ok (.inr (([pindexTest].filter (beats index best)).reverse ++ vAttach))
          else checkAncestry index best rounds (([pindexTest].filter (beats index best)).reverse ++ vAttach) prev := by
      have attach : ([pindexTest].filter (beats index best)).reverse ++ vAttach =
          if best.all fun tip => tip.nChainWork < entry.nChainWork then pindexTest :: vAttach else vAttach := by
        rw [List.filter_singleton, beats, work]
        split <;> simp [*]
      rw [checkAncestry, found, attach, assertSome, Check.ok_bind]
      cases entry.pprev <;> rfl
    rw [unfolded]
    cases failed : entry.nStatus.failed with
    | true => exact .inl ⟨pindexTest, rfl, .refl _, status.trans failed⟩
    | false =>
      rw [if_neg Bool.false_ne_true]
      have sound : failedOf index pindexTest = false := status.trans failed
      cases edge : entry.pprev with
      | none =>
        rw [edge] at link
        refine .inr ⟨[], none, rfl, by rw [link]; exact .nil none, by simpa using sound, ?_⟩
        exact fun pindex on => absurd on not_onChain_none
      | some prev =>
        rw [edge] at link
        rw [Option.elim_some]
        by_cases top : entry.pnext ≠ none
        · rw [if_pos top]
          refine .inr ⟨[], some prev, rfl, by rw [link]; exact .nil _, by simpa using sound, ?_⟩
          intro pindex on
          have next := nextOf_of_some found
          exact ⟨pindexTest, next ▸ top, (onChain_some.mp on).trans (.of_parent link)⟩
        · rw [if_neg top]
          have step := rooted.graded pindexTest prev link
          obtain ⟨above, there, -⟩ := rooted.parent pindexTest entry prev found edge
          rcases @ih (([pindexTest].filter (beats index best)).reverse ++ vAttach) prev ⟨above, there⟩ (by omega) with
            ⟨failed, ran, ancestor, marked⟩ | ⟨walked, bottom, ran, path, clean, active⟩
          · exact .inl ⟨failed, ran, ancestor.trans (.of_parent link), marked⟩
          · refine .inr ⟨prev :: walked, bottom, ?_, link ▸ .cons path, ?_, active⟩
            · rw [ran, ← List.append_assoc, ← List.reverse_append, ← List.filter_append, List.singleton_append]
            · exact List.forall_mem_cons.mpr ⟨sound, clean⟩

/-- `pindex` is above `low`, and it is `high` or below it. -/
def Between (index : BlockMap) (low high pindex : BlockPtr) : Prop :=
  Ancestor (parentOf index) pindex high ∧ Ancestor (parentOf index) low pindex ∧ pindex ≠ low

/-- The blocks above `pindexTest` up to `pindexFailed` are marked. -/
theorem markDescendants_returns (rooted : Rooted node.mapBlockIndex genesis) {rounds : ℕ}
    {pindexTest pindexFailed : BlockPtr}
    (ancestor : Ancestor (parentOf node.mapBlockIndex) pindexTest pindexFailed)
    (indexed : ∃ entry, node.mapBlockIndex pindexFailed = some entry)
    (enough : heightOf node.mapBlockIndex pindexFailed ≤ heightOf node.mapBlockIndex pindexTest + rounds) :
    ∃ node', markDescendants pindexTest rounds pindexFailed node = (.ok (), node') ∧
      Marked genesis (Between node.mapBlockIndex pindexTest pindexFailed) node node' := by
  have same (rounds : ℕ) {node : Node} (rooted : Rooted node.mapBlockIndex genesis) :
      ∃ node', markDescendants pindexTest rounds pindexTest node = (.ok (), node') ∧
        Marked genesis (Between node.mapBlockIndex pindexTest pindexTest) node node' := by
    refine ⟨node, by unfold markDescendants; rw [if_pos rfl]; rfl, ?_⟩
    have nothing : Between node.mapBlockIndex pindexTest pindexTest = fun _ => False := by
      refine funext fun pindex => eq_false ?_
      rintro ⟨below, above, other⟩
      exact other (rooted.graded.eq_of_height_le below (rooted.graded.height_le above))
    exact nothing ▸ .refl node
  induction rounds generalizing node pindexFailed with
  | zero =>
    obtain rfl : pindexTest = pindexFailed := rooted.graded.eq_of_height_le ancestor enough
    exact same 0 rooted
  | succ rounds ih =>
    by_cases reached : pindexTest = pindexFailed
    · subst reached
      exact same (rounds + 1) rooted
    · obtain ⟨entry, found⟩ := indexed
      obtain ⟨prev, link, further⟩ := (ancestor_iff.mp ancestor).resolve_left reached
      have edge : entry.pprev = some prev := by rwa [parentOf, found] at link
      have step := rooted.graded pindexFailed prev link
      have indexedPrev := rooted.indexed_of_ancestor (.of_parent link) ⟨entry, found⟩
      have first : Marked genesis (· = pindexFailed) node
          (node.markFailed pindexFailed entry { entry.nStatus with failedChild := true }) :=
        markFailed_marked found (Bool.or_true _)
      have begun : markDescendants pindexTest (rounds + 1) pindexFailed node =
          markDescendants pindexTest rounds prev
            (node.markFailed pindexFailed entry { entry.nStatus with failedChild := true }) := by
        rw [markDescendants, if_neg reached, bind_of_ok (deref_some found), modify_bind, edge]
        rfl
      generalize node.markFailed pindexFailed entry { entry.nStatus with failedChild := true } = marked at first begun
      have parents := first.chain.tree.parentOf
      have heights := first.chain.tree.heightOf
      obtain ⟨node', ran, rest⟩ := ih (first.chain.tree.rooted rooted) (parents ▸ further)
        (first.chain.tree.indexed indexedPrev) (by rw [heights, heights]; omega)
      refine ⟨node', begun.trans ran, first.trans rest fun pindex => ?_⟩
      rw [Between, Between, parents, ancestor_iff, link, onChain_some]
      constructor
      · rintro ⟨rfl | below, above, other⟩
        · exact .inl rfl
        · exact .inr ⟨below, above, other⟩
      · rintro (rfl | ⟨below, above, other⟩)
        · exact ⟨.inl rfl, ancestor, Ne.symm reached⟩
        · exact ⟨.inr below, above, other⟩

/-- The new block has an indexed parent, or it is genesis and has none. -/
def Attaches (P : Platform) (index : BlockMap) (block : CBlock) : Prop :=
  (∃ entry, index block.hashPrevBlock = some entry) ∨
    block.getHash P = P.hashGenesisBlock ∧ block.hashPrevBlock ≠ P.hashGenesisBlock ∧
      index block.hashPrevBlock = none

theorem parentOf_update (hash : BlockPtr) (entry : CBlockIndex) :
    parentOf (Function.update index hash (some entry)) = Function.update (parentOf index) hash entry.pprev := by
  funext pindex
  simp only [parentOf, Function.update_apply]
  split <;> rfl

/-- The entry is fresh and hangs on an indexed block, or is the first one. -/
structure Hangs (index : BlockMap) (genesis hash : BlockPtr) (entry : CBlockIndex) : Prop where
  fresh : index hash = none
  self : entry.phashBlock = some hash
  pnext : entry.pnext = none
  attached : entry.pprev = none ∧ entry.nHeight = 0 ∧ hash = genesis ∨
    ∃ prev above, index prev = some above ∧ entry.pprev = some prev ∧ entry.nHeight = above.nHeight + 1

namespace Hangs

variable {hash : BlockPtr} {entry : CBlockIndex} (hangs : Hangs index genesis hash entry)
include hangs

variable {pindex : BlockPtr}

theorem update_of_indexed {other : CBlockIndex} (found : index pindex = some other) :
    Function.update index hash (some entry) pindex = some other := by
  rw [Function.update_of_ne, found]
  rintro rfl
  rw [hangs.fresh] at found
  contradiction

theorem indexed_iff : (∃ other, Function.update index hash (some entry) pindex = some other) ↔
    (∃ other, index pindex = some other) ∨ pindex = hash := by
  by_cases same : pindex = hash
  · subst same
    exact ⟨fun _ => .inr rfl, fun _ => ⟨entry, Function.update_self ..⟩⟩
  · rw [Function.update_of_ne same]
    exact ⟨.inl, fun there => there.resolve_right same⟩

theorem workOf_of_indexed (there : ∃ other, index pindex = some other) :
    workOf (Function.update index hash (some entry)) pindex = workOf index pindex := by
  obtain ⟨other, found⟩ := there
  rw [workOf, workOf, hangs.update_of_indexed found, found]

theorem failedOf_of_indexed (there : ∃ other, index pindex = some other) :
    failedOf (Function.update index hash (some entry)) pindex = failedOf index pindex := by
  obtain ⟨other, found⟩ := there
  rw [failedOf, failedOf, hangs.update_of_indexed found, found]

theorem rooted (rooted : Rooted index genesis) : Rooted (Function.update index hash (some entry)) genesis where
  self pindex other found := by
    rw [Function.update_apply] at found
    split at found
    next same =>
      cases found
      exact same ▸ hangs.self
    next => exact rooted.self pindex other found
  parent pindex other prev found edge := by
    rw [Function.update_apply] at found
    split at found
    next same =>
      cases found
      rcases hangs.attached with ⟨root, -⟩ | ⟨prev', above, there, edge', height⟩
      · rw [root] at edge
        contradiction
      · cases edge.symm.trans edge'
        exact ⟨above, hangs.update_of_indexed there, height⟩
    next =>
      obtain ⟨above, there, height⟩ := rooted.parent pindex other prev found edge
      exact ⟨above, hangs.update_of_indexed there, height⟩
  root pindex other found edge := by
    rw [Function.update_apply] at found
    split at found
    next same =>
      cases found
      rcases hangs.attached with ⟨-, height, first⟩ | ⟨prev, -, -, edge', -⟩
      · exact ⟨same.trans first, height⟩
      · rw [edge] at edge'
        contradiction
    next => exact rooted.root pindex other found edge

theorem nextOf_eq : nextOf (Function.update index hash (some entry)) = nextOf index := by
  funext pindex
  simp only [nextOf, Function.update_apply]
  split
  next same => rw [same, hangs.fresh, Option.bind_some, hangs.pnext, Option.bind_none]
  next => rfl

/-- The chains of the old blocks are the same. -/
theorem ancestor_iff (rooted : Rooted index genesis) {a b : BlockPtr} (indexed : ∃ other, index b = some other) :
    Ancestor (parentOf (Function.update index hash (some entry))) a b ↔ Ancestor (parentOf index) a b := by
  rw [parentOf_update]
  refine ancestor_update fun above => ?_
  obtain ⟨other, found⟩ := rooted.indexed_of_ancestor above indexed
  rw [hangs.fresh] at found
  contradiction

theorem onChain_iff (rooted : Rooted index genesis) {a : BlockPtr} {top : Option BlockPtr}
    (indexed : ∀ b ∈ top, ∃ other, index b = some other) :
    OnChain (parentOf (Function.update index hash (some entry))) top a ↔ OnChain (parentOf index) top a := by
  cases top with
  | none => simp only [not_onChain_none]
  | some b => rw [onChain_some, onChain_some, hangs.ancestor_iff rooted (indexed b rfl)]

end Hangs

/-- Indexing a block leaves the active chain alone. -/
theorem Linked.insert (linked : Linked genesis node) {hash : BlockPtr} {entry : CBlockIndex}
    (hangs : Hangs node.mapBlockIndex genesis hash entry) (candidates : List BlockPtr) :
    Linked genesis { node.setEntry hash entry with setBlockIndexValid := candidates } := by
  have indexed (b : BlockPtr) (best : b ∈ node.pindexBest) : ∃ other, node.mapBlockIndex b = some other := by
    obtain ⟨other, there, -⟩ := linked.tip b best
    exact ⟨other, there⟩
  refine ⟨hangs.rooted linked.tree, fun x y => ?_, linked.coins, fun best found => ?_, linked.idle, linked.started,
    linked.origin, fun pindex found => ?_⟩
  · change nextOf (Function.update node.mapBlockIndex hash (some entry)) x = some y ↔
      OnChain (parentOf (Function.update node.mapBlockIndex hash (some entry))) node.pindexBest y ∧
        parentOf (Function.update node.mapBlockIndex hash (some entry)) y = some x
    rw [hangs.nextOf_eq, linked.links, hangs.onChain_iff linked.tree indexed]
    refine and_congr_right fun on => ?_
    obtain ⟨b, best, ancestor⟩ := on
    obtain ⟨other, there⟩ := linked.tree.indexed_of_ancestor ancestor (indexed b best)
    rw [parentOf, parentOf, hangs.update_of_indexed there, there]
  · obtain ⟨other, there, data⟩ := linked.tip best found
    exact ⟨other, hangs.update_of_indexed there, data⟩
  · exact (hangs.onChain_iff linked.tree indexed).mpr (linked.looked pindex found)

theorem newEntry_hangs {P : Platform} {block : CBlock} {nFile nPos : ℕ} (fresh : index (block.getHash P) = none)
    (attaches : Attaches P index block) :
    Hangs index P.hashGenesisBlock (block.getHash P) (newEntry P index block nFile nPos) where
  fresh := fresh
  self := rfl
  pnext := rfl
  attached := by
    have elsewhere (other : block.hashPrevBlock ≠ block.getHash P) (entry : CBlockIndex) :
        Function.update index (block.getHash P) (some entry) block.hashPrevBlock = index block.hashPrevBlock :=
      Function.update_of_ne other ..
    rcases attaches with ⟨above, found⟩ | ⟨genesis, other, missing⟩
    · have other : block.hashPrevBlock ≠ block.getHash P := by
        intro same
        rw [same, fresh] at found
        contradiction
      refine .inr ⟨block.hashPrevBlock, above, found, ?_⟩
      simp [newEntry, elsewhere other, found]
    · rw [← genesis] at other
      refine .inl ⟨?_, ?_, genesis⟩ <;> simp [newEntry, elsewhere other, missing]

end Node

end BitCrystal
