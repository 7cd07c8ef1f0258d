import BitCrystal.Proofs.Selection
import BitCrystal.Soundness.MainChain

/-! # Selection of the best chain

With validity a fixed predicate, the tip is always the best block all of whose chain is valid. The
invariant says that every candidate with more work than the tip has a failed block below it, so that
only a block that has just been indexed can become the tip.
-/

namespace BitCrystal

open StateAction Forest

namespace Node

/-- The candidates are the blocks not marked failed, failed blocks have an invalid block below them,
and a candidate with more work than the tip is pending or has a failed block below it. -/
structure Selected (genesis : BlockPtr) (valid pending : BlockPtr → Prop) (node : Node) : Prop where
  linked : Linked genesis node
  candidates : ∀ pindex, pindex ∈ node.setBlockIndexValid ↔
    (∃ entry, node.mapBlockIndex pindex = some entry) ∧ failedOf node.mapBlockIndex pindex = false
  failed : ∀ pindex, failedOf node.mapBlockIndex pindex = true →
    ∃ below, Ancestor (parentOf node.mapBlockIndex) below pindex ∧ ¬ valid below
  active : ∀ pindex, OnChain (parentOf node.mapBlockIndex) node.pindexBest pindex → valid pindex
  first : node.pindexBest = none → ∀ pindex entry, node.mapBlockIndex pindex = some entry → pindex = genesis
  settled : ∀ pindex ∈ node.setBlockIndexValid,
    (∀ best ∈ node.pindexBest, workOf node.mapBlockIndex best < workOf node.mapBlockIndex pindex) →
    pending pindex ∨
      ∃ below, Ancestor (parentOf node.mapBlockIndex) below pindex ∧ failedOf node.mapBlockIndex below = true

/-- The tree is the same, and the tip is the same or has more work than before. -/
structure Advanced (node node' : Node) : Prop where
  entries : ∀ pindex, (∃ entry, node'.mapBlockIndex pindex = some entry) ↔
    ∃ entry, node.mapBlockIndex pindex = some entry
  works : workOf node'.mapBlockIndex = workOf node.mapBlockIndex
  parents : parentOf node'.mapBlockIndex = parentOf node.mapBlockIndex
  best : node'.pindexBest = node.pindexBest ∨ ∃ pindexNew, node'.pindexBest = some pindexNew ∧
    ∀ best ∈ node.pindexBest, workOf node.mapBlockIndex best < workOf node.mapBlockIndex pindexNew

/-- Success, or a broken rule because of an invalid block below a suspect. -/
def Blames (index : BlockMap) (valid suspect : BlockPtr → Prop) (outcome : Check Unit) : Prop :=
  outcome = .ok () ∨ (∃ nDoS what, outcome = .error (.dos nDoS what)) ∧
    ∃ pindex below, suspect pindex ∧ Ancestor (parentOf index) below pindex ∧ ¬ valid below

variable {genesis : BlockPtr} {valid pending : BlockPtr → Prop} {node node' : Node} {ops : ChainOps}

theorem Advanced.refl (node : Node) : Advanced node node := ⟨fun _ => Iff.rfl, rfl, rfl, .inl rfl⟩

theorem Advanced.of_sameChain {after : Node} (same : SameChain genesis node node') (further : Advanced node' after) :
    Advanced node after where
  entries pindex := (further.entries pindex).trans ⟨same.tree.symm.indexed, same.tree.indexed⟩
  works := further.works.trans (funext same.tree.workOf)
  parents := further.parents.trans same.tree.parentOf
  best := by
    rw [← same.best, ← funext same.tree.workOf]
    exact further.best

/-- Comparing with the tip. -/
theorem Linked.beats_iff (linked : Linked genesis node) (pindex : BlockPtr) :
    beats node.mapBlockIndex node.best pindex = true ↔
      ∀ best ∈ node.pindexBest, workOf node.mapBlockIndex best < workOf node.mapBlockIndex pindex := by
  rw [beats, Node.best]
  cases best : node.pindexBest with
  | none => simp
  | some tip =>
    obtain ⟨entry, there, -⟩ := linked.tip tip best
    simp only [Option.bind_some, there, Option.all_some, Option.mem_some_iff, forall_eq', workOf, Option.elim_some]
    exact decide_eq_true_iff

namespace Selected

section

variable (selected : Selected genesis valid pending node)
include selected

theorem best_indexed (best : BlockPtr)
    (found : best ∈ node.pindexBest) : ∃ entry, node.mapBlockIndex best = some entry := by
  obtain ⟨entry, there, -⟩ := selected.linked.tip best found
  exact ⟨entry, there⟩

/-- The tip is a candidate. -/
theorem best_mem {best : BlockPtr} (found : node.pindexBest = some best) : best ∈ node.setBlockIndexValid := by
  obtain ⟨entry, there, -⟩ := selected.linked.tip best found
  rw [selected.candidates]
  refine ⟨⟨entry, there⟩, Bool.eq_false_iff.mpr fun failed => ?_⟩
  obtain ⟨below, ancestor, wrong⟩ := selected.failed best failed
  exact wrong (selected.active below (found ▸ onChain_some.mpr ancestor))

/-- Nothing is pending when no candidate has more work than the tip. -/
theorem settle (most : ∀ pindex ∈ node.setBlockIndexValid, ∃ best ∈ node.pindexBest,
      workOf node.mapBlockIndex pindex ≤ workOf node.mapBlockIndex best) :
    Selected genesis valid (fun _ => False) node where
  linked := selected.linked
  candidates := selected.candidates
  failed := selected.failed
  active := selected.active
  first := selected.first
  settled pindex member more := by
    obtain ⟨best, found, less⟩ := most pindex member
    exact absurd (more best found) (Nat.not_lt.mpr less)

/-- Marking blocks with an invalid block below them. -/
theorem marked {marked pending' : BlockPtr → Prop} (marks : Marked genesis marked node node')
    (invalid : ∀ pindex, marked pindex → ∃ below, Ancestor (parentOf node.mapBlockIndex) below pindex ∧ ¬ valid below)
    (settles : ∀ pindex, pending pindex → pending' pindex ∨
      ∃ below, Ancestor (parentOf node.mapBlockIndex) below pindex ∧ marked below) :
    Selected genesis valid pending' node' where
  linked := selected.linked.sameChain marks.chain
  candidates pindex := by
    rw [marks.candidates, selected.candidates, and_assoc]
    apply and_congr ⟨marks.chain.tree.indexed, marks.chain.tree.symm.indexed⟩
    rw [Bool.eq_false_iff, Bool.eq_false_iff, ne_eq, ne_eq, marks.failed, not_or]
  failed pindex failed := by
    rw [marks.chain.tree.parentOf]
    rcases (marks.failed pindex).mp failed with before | now
    · exact selected.failed pindex before
    · exact invalid pindex now
  active pindex on := by
    rw [marks.chain.tree.parentOf, marks.chain.best] at on
    exact selected.active pindex on
  first nothing pindex entry found := by
    obtain ⟨entry', there, -⟩ := marks.chain.tree.symm.entry found
    exact selected.first (marks.chain.best ▸ nothing) pindex entry' there
  settled pindex member more := by
    rw [marks.chain.best, funext marks.chain.tree.workOf] at more
    rw [marks.chain.tree.parentOf]
    rcases selected.settled pindex ((marks.candidates pindex).mp member).1 more with waiting | ⟨below, ancestor, failed⟩
    · rcases settles pindex waiting with still | ⟨below, ancestor, now⟩
      · exact .inl still
      · exact .inr ⟨below, ancestor, (marks.failed below).mpr (.inr now)⟩
    · exact .inr ⟨below, ancestor, (marks.failed below).mpr (.inl failed)⟩

/-- A block with a `pnext` above it has no failed block below it. -/
theorem not_failed_of_next {pindex linked : BlockPtr} (next : nextOf node.mapBlockIndex linked ≠ none)
    (ancestor : Ancestor (parentOf node.mapBlockIndex) pindex linked) : failedOf node.mapBlockIndex pindex = false := by
  obtain ⟨above, edge⟩ := Option.ne_none_iff_exists'.mp next
  obtain ⟨on, parent⟩ := (selected.linked.links linked above).mp edge
  refine Bool.eq_false_iff.mpr fun failed => ?_
  obtain ⟨below, further, wrong⟩ := selected.failed pindex failed
  have active := on.of_ancestor (.of_parent parent)
  exact wrong (selected.active below (active.of_ancestor (further.trans ancestor)))

/-- A walk that meets no failed block starts at a pending one and collects only that. -/
theorem attach {top : BlockPtr} {rest : List BlockPtr}
    {bottom : Option BlockPtr} (member : top ∈ node.setBlockIndexValid)
    (more : ∀ best ∈ node.pindexBest, workOf node.mapBlockIndex best < workOf node.mapBlockIndex top)
    (path : Path (parentOf node.mapBlockIndex) (parentOf node.mapBlockIndex top) rest bottom)
    (clean : ∀ pindex ∈ top :: rest, failedOf node.mapBlockIndex pindex = false)
    (reached : ∀ pindex, OnChain (parentOf node.mapBlockIndex) bottom pindex →
      ∃ linked, nextOf node.mapBlockIndex linked ≠ none ∧ Ancestor (parentOf node.mapBlockIndex) pindex linked)
    (only : ∀ pindex, pending pindex → ∀ other, pending other → other = pindex) :
    pending top ∧ (top :: rest).filter (beats node.mapBlockIndex node.best) = [top] := by
  have unfailed (below : BlockPtr) (ancestor : Ancestor (parentOf node.mapBlockIndex) below top) :
      failedOf node.mapBlockIndex below = false := by
    rcases ancestor_iff.mp ancestor with rfl | on
    · exact clean _ (List.mem_cons_self ..)
    · rcases path.onChain_iff.mp on with inside | under
      · exact clean below (List.mem_cons_of_mem _ inside)
      · obtain ⟨linked, next, further⟩ := reached below under
        exact selected.not_failed_of_next next further
  have waits {pindex : BlockPtr} (ancestor : Ancestor (parentOf node.mapBlockIndex) pindex top)
      (candidate : pindex ∈ node.setBlockIndexValid)
      (strong : ∀ best ∈ node.pindexBest, workOf node.mapBlockIndex best < workOf node.mapBlockIndex pindex) :
      pending pindex := by
    rcases selected.settled pindex candidate strong with waiting | ⟨below, under, failed⟩
    · exact waiting
    · rw [unfailed below (under.trans ancestor)] at failed
      contradiction
  have pendingTop : pending top := waits (.refl top) member more
  refine ⟨pendingTop, ?_⟩
  have nothing : rest.filter (beats node.mapBlockIndex node.best) = [] := by
    rw [List.filter_eq_nil_iff]
    intro pindex inside strong
    have on : OnChain (parentOf node.mapBlockIndex) (parentOf node.mapBlockIndex top) pindex :=
      path.onChain_iff.mpr (.inl inside)
    have ancestor : Ancestor (parentOf node.mapBlockIndex) pindex top := ancestor_iff.mpr (.inr on)
    have indexed := selected.linked.tree.indexed_of_ancestor ancestor ((selected.candidates top).mp member).1
    have candidate := (selected.candidates pindex).mpr ⟨indexed, unfailed pindex ancestor⟩
    have same := only top pendingTop pindex
      (waits ancestor candidate ((selected.linked.beats_iff pindex).mp strong))
    obtain ⟨above, edge, further⟩ := on
    have := selected.linked.tree.graded top above edge
    have := selected.linked.tree.graded.height_le further
    rw [same] at this
    omega
  rw [List.filter_cons_of_pos ((selected.linked.beats_iff top).mpr more), nothing]

/-- The switch to a pending candidate, the only block of `vAttach`. -/
theorem switchTo {top : BlockPtr}
    (sound : ops.Sound genesis) (decided : ops.Decided valid) (validGenesis : valid genesis)
    (member : top ∈ node.setBlockIndexValid)
    (most : ∀ pindex ∈ node.setBlockIndexValid, workOf node.mapBlockIndex pindex ≤ workOf node.mapBlockIndex top)
    (more : ∀ best ∈ node.pindexBest, workOf node.mapBlockIndex best < workOf node.mapBlockIndex top)
    (only : ∀ pindex, pending pindex → pindex = top) (reorganise : NodeAction Unit) :
    ∃ outcome node', Node.switchTo ops reorganise [top] node = (outcome, node') ∧
      Blames node.mapBlockIndex valid (· = top) outcome ∧
      Selected genesis valid (fun _ => False) node' ∧ Advanced node node' := by
  have linked := selected.linked
  have indexed := ((selected.candidates top).mp member).1
  have started (nothing : node.pindexBest = none) (pindex : BlockPtr)
      (ancestor : Ancestor (parentOf node.mapBlockIndex) pindex top) : valid pindex := by
    obtain ⟨entry, found⟩ := linked.tree.indexed_of_ancestor ancestor indexed
    rwa [selected.first nothing pindex entry found]
  rcases @setBestChain_returns genesis top valid node ops reorganise sound decided linked indexed started with
    ⟨node', ran, linked', moved, fine⟩ | ⟨wrong, ancestor, invalid, nDoS, what, node', ran, marks⟩
  · have switched : Node.switchTo ops reorganise [top] node = (.ok (), node') := by
      have caught : catchErrors (setBestChain ops reorganise top) node = (.ok (), node') := by rw [catchErrors, ran]
      exact bind_of_ok caught
    refine ⟨_, node', switched, .inl rfl, ?_, moved.entries, moved.works, moved.parents, .inr ⟨top, moved.best, more⟩⟩
    refine ⟨linked', fun pindex => ?_, fun pindex failed => ?_, fun pindex on => ?_, fun nothing => ?_,
      fun pindex candidate strong => ?_⟩
    · rw [moved.candidates, moved.entries, moved.failed, selected.candidates]
    · rw [moved.failed] at failed
      rw [moved.parents]
      exact selected.failed pindex failed
    · rw [moved.parents, moved.best, onChain_some] at on
      by_cases old : OnChain (parentOf node.mapBlockIndex) node.pindexBest pindex
      · exact selected.active pindex old
      · exact fine pindex on old
    · rw [moved.best] at nothing
      contradiction
    · rw [moved.works] at strong
      have := strong top moved.best
      have := most pindex ((moved.candidates pindex).mp candidate)
      omega
  · have switched : Node.switchTo ops reorganise [top] node = (.error (.dos nDoS what), node') := by
      have caught : catchErrors (setBestChain ops reorganise top) node = (.error (.dos nDoS what), node') := by
        rw [catchErrors, ran]
      exact bind_of_error caught
    refine ⟨_, node', switched, .inr ⟨⟨nDoS, what, rfl⟩, top, wrong, rfl, ancestor, invalid⟩,
      selected.marked marks ?_ ?_, .of_sameChain marks.chain (.refl _)⟩
    · rintro _ rfl
      exact ⟨_, .refl _, invalid⟩
    · intro pindex waiting
      exact .inr ⟨wrong, only pindex waiting ▸ ancestor, rfl⟩

/-- `ConnectBestBlock` ends and leaves nothing pending. -/
theorem connectBestBlock (sound : ops.Sound genesis) (decided : ops.Decided valid) (validGenesis : valid genesis)
    (only : ∀ pindex, pending pindex → ∀ other, pending other → other = pindex) {rounds : ℕ}
    (enough : node.setBlockIndexValid.length < rounds) :
    ∃ outcome node', Node.connectBestBlock ops rounds node = (outcome, node') ∧
      Blames node.mapBlockIndex valid pending outcome ∧
      Selected genesis valid (fun _ => False) node' ∧ Advanced node node' := by
  induction rounds generalizing node with
  | zero => omega
  | succ rounds ih =>
    cases last : lastCandidate node.mapBlockIndex node.setBlockIndexValid with
    | none =>
      have nothing := lastCandidate_eq_none.mp last
      have ran : Node.connectBestBlock ops (rounds + 1) node = (.ok (), node) := by
        rw [Node.connectBestBlock, get_bind, last]
        rfl
      exact ⟨_, node, ran, .inl rfl, selected.settle (by simp [nothing]), .refl node⟩
    | some top =>
      obtain ⟨member, most⟩ := lastCandidate_eq_some last
      obtain ⟨⟨entry, found⟩, clean⟩ := (selected.candidates top).mp member
      have work := workOf_of_some found
      by_cases idle : node.pindexBest = some top ∨ ∃ best ∈ node.best, entry.nChainWork = best.nChainWork
      · have ran : Node.connectBestBlock ops (rounds + 1) node = (.ok (), node) := by
          rw [Node.connectBestBlock, get_bind, last]
          dsimp only
          rw [bind_of_ok (deref_some found), if_pos idle]
          rfl
        refine ⟨_, node, ran, .inl rfl, selected.settle fun pindex candidate => ?_, .refl node⟩
        rcases idle with best | ⟨tip, best, same⟩
        · exact ⟨top, best, most pindex candidate⟩
        · obtain ⟨hash, there, indexed⟩ := Option.bind_eq_some_iff.mp best
          have tipWork := workOf_of_some indexed
          have := most pindex candidate
          exact ⟨hash, there, by omega⟩
      · have more (best : BlockPtr) (there : best ∈ node.pindexBest) :
            workOf node.mapBlockIndex best < workOf node.mapBlockIndex top := by
          have := most best (selected.best_mem there)
          obtain ⟨tip, indexed, -⟩ := selected.linked.tip best there
          have tipWork := workOf_of_some indexed
          have other : entry.nChainWork ≠ tip.nChainWork := fun same =>
            idle (.inr ⟨tip, Option.bind_eq_some_iff.mpr ⟨best, there, indexed⟩, same⟩)
          omega
        have height := heightOf_of_some found
        have begun (ancestry : BlockPtr ⊕ List BlockPtr)
            (walked : checkAncestry node.mapBlockIndex node.best (entry.nHeight + 1) [] top = .ok ancestry) :
            Node.connectBestBlock ops (rounds + 1) node = (ancestry.elim (fun pindexTest => do
                markDescendants pindexTest entry.nHeight top
                invalidChainFound top
                Node.connectBestBlock ops rounds)
              (Node.switchTo ops (Node.connectBestBlock ops rounds))) node := by
          rw [Node.connectBestBlock, get_bind, last]
          dsimp only
          rw [bind_of_ok (deref_some found), if_neg idle, walked]
          cases ancestry <;> rfl
        rcases @checkAncestry_returns genesis node.mapBlockIndex selected.linked.tree node.best (entry.nHeight + 1) []
            top ⟨entry, found⟩ (by omega) with
          ⟨failed, walked, ancestor, bad⟩ | ⟨rest, bottom, walked, path, fine, reached⟩
        · obtain ⟨wrong, under, invalid⟩ := selected.failed failed bad
          have started : node.pindexBest ≠ none := by
            intro nothing
            have onlyGenesis {pindex : BlockPtr} (above : Ancestor (parentOf node.mapBlockIndex) pindex top) :
                pindex = genesis := by
              obtain ⟨other, there⟩ := selected.linked.tree.indexed_of_ancestor above ⟨entry, found⟩
              exact selected.first nothing pindex other there
            rw [onlyGenesis (under.trans ancestor)] at invalid
            exact invalid validGenesis
          obtain ⟨below, marking, marks⟩ : ∃ below, markDescendants failed entry.nHeight top node = (.ok (), below) ∧
              Marked genesis (Between node.mapBlockIndex failed top) node below :=
            markDescendants_returns selected.linked.tree ancestor ⟨entry, found⟩ (by omega)
          obtain ⟨warned, warning, quiet⟩ : ∃ warned, invalidChainFound top below = (.ok (), warned) ∧
              Marked genesis (fun _ => False) below warned :=
            invalidChainFound_returns (marks.chain.tree.indexed ⟨entry, found⟩) (marks.chain.best ▸ started)
          have both : Marked genesis (Between node.mapBlockIndex failed top) node warned :=
            marks.trans quiet fun _ => by rw [or_false]
          have different : top ≠ failed := by
            rintro rfl
            rw [clean] at bad
            contradiction
          have fewer : warned.setBlockIndexValid.length < node.setBlockIndexValid.length := by
            refine lt_of_le_of_ne both.sublist.length_le fun same => ?_
            rw [← both.sublist.eq_of_length same, both.candidates] at member
            exact member.2 ⟨.refl top, ancestor, different⟩
          have sifted : Selected genesis valid pending warned := by
            refine selected.marked both ?_ fun pindex waits => .inl waits
            rintro pindex ⟨-, above, -⟩
            exact ⟨wrong, under.trans above, invalid⟩
          obtain ⟨outcome, node', ran, ends, selected', advanced⟩ := ih sifted (by omega)
          rw [Blames, both.chain.tree.parentOf] at ends
          refine ⟨outcome, node', ?_, ends, selected', .of_sameChain both.chain advanced⟩
          rw [begun _ walked, Sum.elim_inl, bind_of_ok marking, bind_of_ok warning, ran]
        · obtain ⟨waits, attached⟩ := selected.attach member more path fine reached only
          rw [attached] at walked
          obtain ⟨outcome, node', ran, ends, selected', advanced⟩ := selected.switchTo sound decided validGenesis
            member most more (only top waits) (Node.connectBestBlock ops rounds)
          refine ⟨outcome, node', (begun _ walked).trans ran, ends.imp_right ?_, selected', advanced⟩
          rintro ⟨failed, pindex, below, same, blame⟩
          refine ⟨failed, pindex, below, ?_, blame⟩
          rwa [show pindex = top from same]

end

end Selected

variable {P : Platform} {block : CBlock}

/-- What `AddToBlockIndex` does to the tree and the tip. -/
structure IndexGrown (hash : BlockPtr) (node node' : Node) : Prop where
  entries : ∀ pindex, (∃ entry, node'.mapBlockIndex pindex = some entry) ↔
    (∃ entry, node.mapBlockIndex pindex = some entry) ∨ pindex = hash
  best : node'.pindexBest = node.pindexBest ∨ ∃ pindexNew, node'.pindexBest = some pindexNew ∧
    ∀ best ∈ node.pindexBest, workOf node'.mapBlockIndex best < workOf node'.mapBlockIndex pindexNew

namespace Selected

section

variable (selected : Selected genesis valid (fun _ => False) node)
include selected

/-- Once a block is indexed only that block can be pending. -/
theorem insert {hash : BlockPtr} {entry : CBlockIndex}
    (hangs : Hangs node.mapBlockIndex genesis hash entry) (clean : entry.nStatus.failed = false)
    (first : node.pindexBest = none → hash = genesis) : Selected genesis valid (· = hash)
      { node.setEntry hash entry with setBlockIndexValid := hash :: node.setBlockIndexValid } where
  linked := selected.linked.insert hangs _
  candidates pindex := by
    change pindex ∈ hash :: node.setBlockIndexValid ↔
      (∃ other, Function.update node.mapBlockIndex hash (some entry) pindex = some other) ∧
        failedOf (Function.update node.mapBlockIndex hash (some entry)) pindex = false
    rw [List.mem_cons, hangs.indexed_iff, or_comm]
    constructor
    · rintro (candidate | rfl)
      · obtain ⟨there, unfailed⟩ := (selected.candidates pindex).mp candidate
        exact ⟨.inl there, (hangs.failedOf_of_indexed there).trans unfailed⟩
      · refine ⟨.inr rfl, ?_⟩
        rw [failedOf, Function.update_self]
        exact clean
    · rintro ⟨there | rfl, unfailed⟩
      · rw [hangs.failedOf_of_indexed there] at unfailed
        exact .inl ((selected.candidates pindex).mpr ⟨there, unfailed⟩)
      · exact .inr rfl
  failed pindex failed := by
    change failedOf (Function.update node.mapBlockIndex hash (some entry)) pindex = true at failed
    by_cases same : pindex = hash
    · rw [same, failedOf, Function.update_self, Option.elim_some, clean] at failed
      contradiction
    · have old : failedOf node.mapBlockIndex pindex = true := by
        rwa [failedOf, Function.update_of_ne same] at failed
      obtain ⟨below, ancestor, wrong⟩ := selected.failed pindex old
      have there : ∃ other, node.mapBlockIndex pindex = some other := by
        cases found : node.mapBlockIndex pindex with
        | some other => exact ⟨other, rfl⟩
        | none =>
          rw [failedOf, found] at old
          contradiction
      exact ⟨below, (hangs.ancestor_iff selected.linked.tree there).mpr ancestor, wrong⟩
  active pindex on := selected.active pindex ((hangs.onChain_iff selected.linked.tree selected.best_indexed).mp on)
  first nothing pindex other found := by
    rcases hangs.indexed_iff.mp ⟨other, found⟩ with ⟨old, there⟩ | rfl
    · exact selected.first nothing pindex old there
    · exact first nothing
  settled pindex member more := by
    rcases List.mem_cons.mp member with rfl | candidate
    · exact .inl rfl
    · obtain ⟨there, -⟩ := (selected.candidates pindex).mp candidate
      have strong (best : BlockPtr) (found : best ∈ node.pindexBest) :
          workOf node.mapBlockIndex best < workOf node.mapBlockIndex pindex := by
        rw [← hangs.workOf_of_indexed there, ← hangs.workOf_of_indexed (selected.best_indexed best found)]
        exact more best found
      obtain ⟨below, ancestor, failed⟩ := (selected.settled pindex candidate strong).resolve_left id
      refine .inr ⟨below, (hangs.ancestor_iff selected.linked.tree there).mpr ancestor, ?_⟩
      exact (hangs.failedOf_of_indexed (selected.linked.tree.indexed_of_ancestor ancestor there)).trans failed

/-- A block with more work than the tip has a block on its chain that is not valid. -/
theorem invalid_of_stronger {pindex : BlockPtr} (indexed : ∃ entry, node.mapBlockIndex pindex = some entry)
    (strong : ∀ best ∈ node.pindexBest, workOf node.mapBlockIndex best < workOf node.mapBlockIndex pindex) :
    ∃ below, Ancestor (parentOf node.mapBlockIndex) below pindex ∧ ¬ valid below := by
  by_contra allValid
  have unfailed (other : BlockPtr) (ancestor : Ancestor (parentOf node.mapBlockIndex) other pindex) :
      failedOf node.mapBlockIndex other = false := by
    refine Bool.eq_false_iff.mpr fun failed => ?_
    obtain ⟨below, under, wrong⟩ := selected.failed other failed
    exact allValid ⟨below, under.trans ancestor, wrong⟩
  have candidate := (selected.candidates pindex).mpr ⟨indexed, unfailed pindex (.refl pindex)⟩
  obtain ⟨below, ancestor, failed⟩ := (selected.settled pindex candidate strong).resolve_left id
  rw [unfailed below ancestor] at failed
  contradiction

/-- Without a tip there is no block. -/
theorem empty_of_none (validGenesis : valid genesis)
    (nothing : node.pindexBest = none) (pindex : BlockPtr) : node.mapBlockIndex pindex = none := by
  rw [Option.eq_none_iff_forall_ne_some]
  intro entry found
  obtain ⟨below, ancestor, wrong⟩ := selected.invalid_of_stronger ⟨entry, found⟩ (by simp [nothing])
  obtain ⟨last, there⟩ := selected.linked.tree.indexed_of_ancestor ancestor ⟨entry, found⟩
  rw [selected.first nothing below last there] at wrong
  exact wrong validGenesis

/-- The tip has the most work among the blocks with a valid chain. -/
theorem best_most {pindex : BlockPtr} (indexed : ∃ entry, node.mapBlockIndex pindex = some entry)
    (chain : ∀ below, Ancestor (parentOf node.mapBlockIndex) below pindex → valid below) :
    ∃ best ∈ node.pindexBest, workOf node.mapBlockIndex pindex ≤ workOf node.mapBlockIndex best := by
  by_contra stronger
  obtain ⟨below, ancestor, wrong⟩ := selected.invalid_of_stronger indexed fun best there =>
    Nat.lt_of_not_le fun less => stronger ⟨best, there, less⟩
  exact wrong (chain below ancestor)

end

/-- `AddToBlockIndex` without disk errors. -/
theorem addToBlockIndex (selected : Selected P.hashGenesisBlock valid (fun _ => False) node)
    (sound : ops.Sound P.hashGenesisBlock) (decided : ops.Decided valid) (validGenesis : valid P.hashGenesisBlock)
    (attaches : Attaches P node.mapBlockIndex block) (nFile nPos : ℕ) :
    ∃ outcome node', Node.addToBlockIndex P ops {} block nFile nPos node = (outcome, node') ∧
      (outcome = .ok () ∨ ∃ nDoS what, outcome = .error (.dos nDoS what)) ∧
      (node.mapBlockIndex (block.getHash P) = none →
        Blames node'.mapBlockIndex valid (· = block.getHash P) outcome) ∧
      Selected P.hashGenesisBlock valid (fun _ => False) node' ∧ IndexGrown (block.getHash P) node node' := by
  cases found : node.mapBlockIndex (block.getHash P) with
  | some old =>
    have ran : Node.addToBlockIndex P ops {} block nFile nPos node =
        (.error (.dos 0 "AddToBlockIndex() : already exists"), node) := by
      rw [Node.addToBlockIndex, get_bind, if_pos (by rw [found]; exact Option.some_ne_none old)]
      rfl
    refine ⟨_, node, ran, .inr ⟨_, _, rfl⟩, nofun, selected, fun pindex => ?_, .inl rfl⟩
    exact ⟨.inl, fun there => there.elim id fun same => ⟨old, same ▸ found⟩⟩
  | none =>
    have hangs : Hangs node.mapBlockIndex P.hashGenesisBlock (block.getHash P)
        (newEntry P node.mapBlockIndex block nFile nPos) := newEntry_hangs found attaches
    have first (nothing : node.pindexBest = none) : block.getHash P = P.hashGenesisBlock := by
      rcases attaches with ⟨entry, there⟩ | ⟨same, -⟩
      · rw [selected.empty_of_none validGenesis nothing] at there
        contradiction
      · exact same
    have inserted := selected.insert hangs rfl first
    obtain ⟨outcome, node', ran, ends, selected', advanced⟩ := inserted.connectBestBlock sound decided validGenesis
      (fun pindex same other same' => same'.trans same.symm)
      (show _ < node.setBlockIndexValid.length + 2 by simp)
    refine ⟨outcome, node', ?_, ends.imp_right And.left, fun _ => ?_, selected', fun pindex => ?_, ?_⟩
    · have begun : Node.addToBlockIndex P ops {} block nFile nPos node =
          (Node.connectBestBlock ops (node.setBlockIndexValid.length + 2) >>= fun _ => pure ())
            { node.setEntry (block.getHash P) (newEntry P node.mapBlockIndex block nFile nPos) with
              setBlockIndexValid := block.getHash P :: node.setBlockIndexValid } := by
        rw [Node.addToBlockIndex, get_bind, if_neg (by simp [found]), modify_bind]
        rfl
      rw [begun]
      rcases ends with rfl | ⟨⟨nDoS, what, rfl⟩, -⟩
      · exact bind_of_ok ran
      · exact bind_of_error ran
    · rwa [Blames, advanced.parents]
    · exact (advanced.entries pindex).trans hangs.indexed_iff
    · rw [advanced.works]
      exact advanced.best

end Selected

/-- The states after indexing blocks one after another, from nothing. -/
inductive IndexRun (P : Platform) (ops : ChainOps) : Node → Prop
  | start {node : Node} (unstarted : Unstarted P.hashGenesisBlock node)
      (empty : ∀ pindex, node.mapBlockIndex pindex = none) (candidates : node.setBlockIndexValid = []) :
      IndexRun P ops node
  | add {node : Node} (run : IndexRun P ops node) (block : CBlock) (nFile nPos : ℕ)
      (attaches : Attaches P node.mapBlockIndex block) :
      IndexRun P ops (addToBlockIndex P ops {} block nFile nPos node).2

theorem selected_of_unstarted {node : Node} (unstarted : Unstarted genesis node)
    (empty : ∀ pindex, node.mapBlockIndex pindex = none) (candidates : node.setBlockIndexValid = []) :
    Selected genesis valid (fun _ => False) node where
  linked := unstarted.linked
  candidates pindex := by simp [candidates, empty]
  failed pindex failed := by simp [failedOf, empty] at failed
  active pindex on := by
    rw [unstarted.best] at on
    exact absurd on not_onChain_none
  first _ pindex entry found := by simp [empty] at found
  settled pindex member := by simp [candidates] at member

section

variable (sound : ops.Sound P.hashGenesisBlock) (decided : ops.Decided valid) (validGenesis : valid P.hashGenesisBlock)
include sound decided validGenesis

theorem IndexRun.selected (run : IndexRun P ops node) :
    Selected P.hashGenesisBlock valid (fun _ => False) node := by
  induction run with
  | start unstarted empty candidates => exact selected_of_unstarted unstarted empty candidates
  | @add node _ block nFile nPos attaches ih =>
    obtain ⟨outcome, node', ran, -, -, selected, -⟩ := ih.addToBlockIndex sound decided validGenesis attaches nFile nPos
    rw [ran]
    exact selected

/-- After every call the tip has the most work among the blocks with a valid chain, no candidate is
failed, and the next call comes back and moves the tip to more work only. -/
theorem bestChain_of_run (run : IndexRun P ops node) :
    (∀ best ∈ node.pindexBest, (∃ entry, node.mapBlockIndex best = some entry) ∧
        ∀ pindex, Ancestor (parentOf node.mapBlockIndex) pindex best → valid pindex) ∧
      (∀ pindex entry, node.mapBlockIndex pindex = some entry →
        (∀ below, Ancestor (parentOf node.mapBlockIndex) below pindex → valid below) →
        ∃ best ∈ node.pindexBest, workOf node.mapBlockIndex pindex ≤ workOf node.mapBlockIndex best) ∧
      (∀ pindex ∈ node.setBlockIndexValid, ∃ entry, node.mapBlockIndex pindex = some entry ∧
        entry.nStatus.failed = false) ∧
      ∀ (block : CBlock) (nFile nPos : ℕ), Attaches P node.mapBlockIndex block →
        let r := addToBlockIndex P ops {} block nFile nPos node
        (r.1 = .ok () ∨ ∃ nDoS what, r.1 = .error (.dos nDoS what)) ∧
          (r.2.pindexBest = node.pindexBest ∨ ∃ pindexNew, r.2.pindexBest = some pindexNew ∧
            ∀ best ∈ node.pindexBest, workOf r.2.mapBlockIndex best < workOf r.2.mapBlockIndex pindexNew) := by
  have selected := run.selected sound decided validGenesis
  refine ⟨fun best found => ⟨selected.best_indexed best found, fun pindex ancestor => ?_⟩,
    fun pindex entry found chain => ?_, fun pindex member => ?_, fun block nFile nPos attaches => ?_⟩
  · exact selected.active pindex (found ▸ onChain_some.mpr ancestor)
  · exact selected.best_most ⟨entry, found⟩ chain
  · obtain ⟨⟨entry, found⟩, unfailed⟩ := (selected.candidates pindex).mp member
    rw [failedOf, found] at unfailed
    exact ⟨entry, found, unfailed⟩
  · obtain ⟨outcome, node', ran, ends, -, -, indexed⟩ :=
      selected.addToBlockIndex sound decided validGenesis attaches nFile nPos
    rw [ran]
    exact ⟨ends, indexed.best⟩

end

section TestNet

open TestNet

theorem deciding_sound (valid : BlockPtr → Bool) : (deciding valid).Sound 0 where
  connected index entry pindex block view next read connected := by
    simp only [deciding] at connected ⊢
    split at connected
    · cases connected
      exact ⟨rfl, decide_eq_true⟩
    · cases connected
  genesis index entry pindex block view read set := of_decide_eq_true set
  disconnected entry pindex block view fClean next clean := by
    cases clean
    rfl
  pool node vResurrect vDelete failure failed := by cases failed

theorem deciding_decided (valid : BlockPtr → Bool) : (deciding valid).Decided (valid · = true) where
  read pindex := ⟨_, rfl⟩
  accepts index entry pindex block view read fine := ⟨_, if_pos fine⟩
  refuses index entry pindex block view read wrong := ⟨_, _, if_neg wrong⟩
  status index entry pindex block view := rfl
  clean entry pindex block view read above := ⟨_, rfl⟩
  pool node vResurrect vDelete := ⟨_, rfl⟩
  written pindex := by
    rintro ⟨-, full | unwritten⟩ <;> contradiction

/-- Genesis, two blocks above it and an invalid block above the first of these. -/
theorem bestChain_of_run_invalidBlock :
    let ops := deciding (· ≠ 3)
    let add block node := (addToBlockIndex platform ops {} block 0 0 node).2
    let node := add (mine 3 1 []) (add (mine 2 0 []) (add (mine 1 0 []) (add (mine 0 99 []) nothing)))
    node.pindexBest = some 1 ∧ ∀ best ∈ node.pindexBest, (∃ entry, node.mapBlockIndex best = some entry) ∧
      ∀ pindex, Ancestor (parentOf node.mapBlockIndex) pindex best → decide (pindex ≠ 3) = true := by
  intro ops add node
  have child {node : Node} {block : CBlock} (there : (node.mapBlockIndex block.hashPrevBlock).isSome = true) :
      Attaches platform node.mapBlockIndex block := .inl (Option.isSome_iff_exists.mp there)
  have empty : IndexRun platform ops nothing :=
    .start ⟨⟨nofun, nofun, nofun⟩, fun _ => rfl, rfl, rfl, rfl, rfl, rfl⟩ (fun _ => rfl) rfl
  have run : IndexRun platform ops node :=
    .add (.add (.add (.add empty (mine 0 99 []) 0 0 (.inr ⟨rfl, by decide, rfl⟩)) _ 0 0 (child (by decide)))
      _ 0 0 (child (by decide))) _ 0 0 (child (by decide))
  exact ⟨by decide, (bestChain_of_run (deciding_sound _) (deciding_decided _) (by decide) run).1⟩

end TestNet

end Node

end BitCrystal
