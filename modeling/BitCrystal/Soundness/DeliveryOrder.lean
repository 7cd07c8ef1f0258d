import BitCrystal.Proofs.Family
import BitCrystal.Soundness.BestChainSelection

/-! # The order of delivery does not matter

A finite family of blocks is delivered in any order, with any duplicates. A block is indexed as soon as its
parent is, or it is held; the children of a block that is accepted are released, and `AcceptBlock` refuses
only blocks with an invalid block on their chain. So in the end every block without an invalid proper ancestor
is indexed, and the tip has the most work of all valid chains, whatever the order was.
-/

namespace BitCrystal

open StateAction Forest Node

namespace Receiver

/-- Every write succeeds. -/
structure Setting.NoDiskErrors (setting : Setting) : Prop where
  position : ∀ hash, ∃ pos, (setting.disk hash).findBlockPos = .ok pos
  written : ∀ hash, (setting.disk hash).fWriteToDisk = true
  index : ∀ hash, (setting.disk hash).index = {}

/-- There is an invalid block on the chain of the block. -/
def Spoiled (valid : BlockPtr → Prop) (tree : BlockMap) (pindex : BlockPtr) : Prop :=
  ∃ below, Ancestor (parentOf tree) below pindex ∧ ¬ valid below

/-- The best valid chain is selected in a part of the tree. -/
structure Grounded (P : Platform) (valid : BlockPtr → Prop) (tree : BlockMap) (node : Node) : Prop where
  selected : Selected P.hashGenesisBlock valid (fun _ => False) node
  within : Within node.mapBlockIndex tree

variable {P : Platform} {setting : Setting} {valid : BlockPtr → Prop} {tree : BlockMap}
  {receiver receiver' : Receiver} {block : CBlock}

theorem acceptBlock_eq {node : Node} (faultless : setting.NoDiskErrors)
    (fresh : node.mapBlockIndex (block.getHash P) = none)
    (passed : block.checkContext P setting.fCheckpoints node.mapBlockIndex = .ok ()) :
    ∃ nFile nPos, acceptBlock P setting.fCheckpoints setting.ops (setting.disk (block.getHash P)) none block node =
      catchErrors (Node.addToBlockIndex P setting.ops {} block nFile nPos) node := by
  obtain ⟨⟨nFile, nPos⟩, located⟩ := faultless.position (block.getHash P)
  refine ⟨nFile, nPos, ?_⟩
  rw [acceptBlock, get_bind, if_neg (not_not.mpr fresh), passed, lift_bind_ok, located, faultless.index]
  simp only [catchErrors, lift_bind_ok, faultless.written, not_true_eq_false, and_false, if_false, Option.getD_none]

section

variable (sound : setting.ops.Sound P.hashGenesisBlock) (decided : setting.ops.Decided valid)
  (validGenesis : valid P.hashGenesisBlock) (faultless : setting.NoDiskErrors)
include sound decided validGenesis faultless

/-- `AcceptBlock` with a new block of the tree whose parent is indexed. -/
theorem Grounded.tryAccept (grounded : Grounded P valid tree receiver.toNode)
    (placed : Placed P setting.fCheckpoints tree block)
    (parent : ∃ entry, receiver.mapBlockIndex block.hashPrevBlock = some entry)
    (fresh : receiver.mapBlockIndex (block.getHash P) = none) :
    ∃ outcome receiver', Receiver.tryAccept P setting none block receiver = (outcome, receiver') ∧
      Tried P setting block outcome.isOk receiver receiver' ∧ Grounded P valid tree receiver'.toNode ∧
      (∃ entry, receiver'.mapBlockIndex (block.getHash P) = some entry) ∧
      (outcome = .ok () ∨ (∃ nDoS what, outcome = .error (.dos nDoS what)) ∧ Spoiled valid tree (block.getHash P)) := by
  have passed : block.checkContext P setting.fCheckpoints receiver.mapBlockIndex = .ok () :=
    (grounded.within.checkContext grounded.selected.linked.tree parent).symm.trans placed.passed
  obtain ⟨nFile, nPos, accepts⟩ := acceptBlock_eq faultless fresh passed
  obtain ⟨outcome, node', ran, ends, blames, selected, -⟩ :=
    grounded.selected.addToBlockIndex sound decided validGenesis (.inl parent) nFile nPos
  have stored : Stored P setting.fCheckpoints block receiver.mapBlockIndex node'.mapBlockIndex := by
    rw [← show (Node.addToBlockIndex P setting.ops {} block nFile nPos receiver.toNode).2 = node' from
      congrArg Prod.snd ran]
    exact addToBlockIndex_stored passed fresh nFile nPos
  have within : Within node'.mapBlockIndex tree := by
    obtain ⟨entry, found, same⟩ := placed.entry
    refine .trans (.of_sameBlocks stored.stored) (grounded.within.update found (same.trans ?_))
    exact grounded.within.placed_newEntry parent placed.other
  have accepted : acceptBlock P setting.fCheckpoints setting.ops (setting.disk (block.getHash P)) none block
      receiver.toNode = (outcome, node') := by
    rw [accepts, catchErrors, ran]
    rcases ends with rfl | ⟨nDoS, what, rfl⟩ <;> rfl
  have tried := tryAccept_tried P setting none block receiver
  have same : Receiver.tryAccept P setting none block receiver = (outcome, { receiver with
      toNode := node', verdicts := (block.getHash P, outcome.isOk) :: receiver.verdicts }) := by
    simp only [Receiver.tryAccept, onNode, accepted]
  rw [same] at tried
  have there : ∃ entry, node'.mapBlockIndex (block.getHash P) = some entry := (stored.indexed_iff _).mpr (.inr rfl)
  refine ⟨outcome, _, same, tried, ⟨selected, within⟩, there, ?_⟩
  apply (blames fresh).imp_right
  rintro ⟨failed, pindex, below, suspect, ancestor, wrong⟩
  refine ⟨failed, below, ?_, wrong⟩
  rw [show pindex = block.getHash P from suspect] at ancestor
  exact (within.ancestor_iff selected.linked.tree there).mpr ancestor

/-- The inner loop over new blocks of the tree with an indexed parent. -/
theorem Grounded.releaseChildren {children : List CBlock} {hashPrev : Uint256}
    (grounded : Grounded P valid tree receiver.toNode)
    (parent : ∃ entry, receiver.mapBlockIndex hashPrev = some entry)
    (placed : ∀ child ∈ children, Placed P setting.fCheckpoints tree child ∧ child.hashPrevBlock = hashPrev ∧
      receiver.mapBlockIndex (child.getHash P) = none)
    (distinct : (children.map (CBlock.getHash · P)).Nodup) :
    ∃ pushed receiver', Receiver.releaseChildren P setting children receiver = (.ok pushed, receiver') ∧
      Grounded P valid tree receiver'.toNode ∧
      ∀ child ∈ children, (∃ entry, receiver'.mapBlockIndex (child.getHash P) = some entry) ∧
        (child.getHash P ∈ pushed ∨ Spoiled valid tree (child.getHash P)) := by
  induction children generalizing receiver with
  | nil => exact ⟨[], receiver, rfl, grounded, by simp⟩
  | cons child rest ih =>
    obtain ⟨first, link, fresh⟩ := placed child (List.mem_cons_self ..)
    obtain ⟨outcome, next, ran, tried, grounded', there, ends⟩ :=
      grounded.tryAccept sound decided validGenesis faultless first (link ▸ parent) fresh
    rw [List.map_cons, List.nodup_cons] at distinct
    have later : ∀ other ∈ rest, Placed P setting.fCheckpoints tree other ∧ other.hashPrevBlock = hashPrev ∧
        (next.eraseOrphan (child.getHash P)).mapBlockIndex (other.getHash P) = none := by
      intro other member
      obtain ⟨placed', link', fresh'⟩ := placed other (List.mem_cons_of_mem _ member)
      refine ⟨placed', link', Option.eq_none_iff_forall_ne_some.mpr fun entry found => ?_⟩
      rcases tried.indexed _ ⟨entry, found⟩ with ⟨old, before⟩ | same
      · rw [fresh'] at before
        contradiction
      · exact distinct.1 (same ▸ List.mem_map_of_mem member)
    obtain ⟨pushed, last, others, grounded'', done⟩ :=
      @ih (next.eraseOrphan (child.getHash P)) grounded' (tried.kept parent) later distinct.2
    have tail (accepted : Bool)
        (tested : completes Failure.returnsFalse (Receiver.tryAccept P setting none child) receiver = (.ok accepted, next)) :
        Receiver.releaseChildren P setting (child :: rest) receiver =
          (.ok (if accepted then child.getHash P :: pushed else pushed), last) := by
      rw [Receiver.releaseChildren, bind_of_ok tested, modify_bind, bind_of_ok others]
      rfl
    have kept : ∃ entry, last.mapBlockIndex (child.getHash P) = some entry := (releaseChildren_ok others).kept _ there
    rcases ends with rfl | ⟨⟨nDoS, what, rfl⟩, spoiled⟩
    · refine ⟨_, last, tail true (completes_of_ok ran), grounded'', List.forall_mem_cons.mpr ⟨⟨kept, .inl ?_⟩, ?_⟩⟩
      · exact List.mem_cons_self ..
      · exact fun other member => ⟨(done other member).1, (done other member).2.imp_left (List.mem_cons_of_mem _)⟩
    · refine ⟨_, last, tail false (completes_of_caught ran rfl), grounded'', List.forall_mem_cons.mpr ⟨⟨kept, ?_⟩, done⟩⟩
      exact .inr spoiled

end

/-- Each delivered block is indexed or held, and a held block with an indexed parent waits for the queue unless
its parent is spoiled. -/
structure Delivering (P : Platform) (valid : BlockPtr → Prop) (start tree : BlockMap) (blocks : List CBlock)
    (delivered : CBlock → Prop) (vWorkQueue : List Uint256) (receiver : Receiver) : Prop where
  grounded : Grounded P valid tree receiver.toNode
  founded : ∀ pindex, (∃ entry, start pindex = some entry) → ∃ entry, receiver.mapBlockIndex pindex = some entry
  consistent : Consistent P receiver
  member : ∀ hash orphan, receiver.mapOrphanBlocks hash = some orphan → orphan ∈ blocks
  apart : ∀ hash orphan, receiver.mapOrphanBlocks hash = some orphan → receiver.mapBlockIndex hash = none
  arrived : ∀ block, delivered block → (∃ entry, receiver.mapBlockIndex (block.getHash P) = some entry) ∨
    receiver.mapOrphanBlocks (block.getHash P) = some block
  waits : ∀ hash orphan, receiver.mapOrphanBlocks hash = some orphan →
    (∃ entry, receiver.mapBlockIndex orphan.hashPrevBlock = some entry) →
    orphan.hashPrevBlock ∈ vWorkQueue ∨ Spoiled valid tree orphan.hashPrevBlock
  queued : ∀ hash ∈ vWorkQueue, ∃ entry, receiver.mapBlockIndex hash = some entry

theorem length_waitingFor (receiver : Receiver) (hashPrev : Uint256) :
    (receiver.waitingFor hashPrev).length + (receiver.eraseByPrev hashPrev).mapOrphanBlocksByPrev.length =
      receiver.mapOrphanBlocksByPrev.length := by
  have parts := List.length_eq_length_filter_add (fun held : Uint256 × CBlock => decide (held.1 = hashPrev))
    (l := receiver.mapOrphanBlocksByPrev)
  rw [waitingFor, List.length_map, parts]
  simp [eraseByPrev]

section

variable {start : BlockMap} {blocks : List CBlock} {delivered : CBlock → Prop}
  (sound : setting.ops.Sound P.hashGenesisBlock) (decided : setting.ops.Decided valid)
  (validGenesis : valid P.hashGenesisBlock) (faultless : setting.NoDiskErrors)
  (placed : ∀ block ∈ blocks, Placed P setting.fCheckpoints tree block)
include sound decided validGenesis faultless placed

/-- A round of the loop: the blocks under `hashPrev` are indexed. -/
theorem Delivering.round {hashPrev : Uint256} {vWorkQueue : List Uint256}
    (delivering : Delivering P valid start tree blocks delivered (hashPrev :: vWorkQueue) receiver) :
    ∃ pushed next, Receiver.releaseChildren P setting (receiver.waitingFor hashPrev) receiver = (.ok pushed, next) ∧
      Delivering P valid start tree blocks delivered (vWorkQueue ++ pushed) (next.eraseByPrev hashPrev) ∧
      pushed.length + (next.eraseByPrev hashPrev).mapOrphanBlocksByPrev.length ≤
        receiver.mapOrphanBlocksByPrev.length := by
  have consistent := delivering.consistent
  have waiting (child : CBlock) (member : child ∈ receiver.waitingFor hashPrev) :
      Placed P setting.fCheckpoints tree child ∧ child.hashPrevBlock = hashPrev ∧
        receiver.mapBlockIndex (child.getHash P) = none := by
    obtain ⟨held, same⟩ := consistent.mem_waitingFor_iff.mp member
    exact ⟨placed child (delivering.member _ _ held), same.symm, delivering.apart _ _ held⟩
  obtain ⟨pushed, next, ran, grounded, done⟩ := delivering.grounded.releaseChildren sound decided validGenesis faultless
    (delivering.queued hashPrev (List.mem_cons_self ..)) waiting (consistent.nodup_waitingFor hashPrev)
  have released := releaseChildren_ok ran
  have held_iff {hash : Uint256} {orphan : CBlock} : next.mapOrphanBlocks hash = some orphan ↔
      receiver.mapOrphanBlocks hash = some orphan ∧ orphan.hashPrevBlock ≠ hashPrev := consistent.held_iff released
  refine ⟨pushed, next, ran, ⟨grounded, fun pindex there => ?_, consistent.erase released, fun hash orphan held => ?_,
    fun hash orphan held => ?_, fun block old => ?_, fun hash orphan held there => ?_, fun hash member => ?_⟩, ?_⟩
  · exact released.kept pindex (delivering.founded pindex there)
  · exact delivering.member hash orphan (held_iff.mp held).1
  · refine Option.eq_none_iff_forall_ne_some.mpr fun entry found => ?_
    rcases released.indexed hash ⟨entry, found⟩ with ⟨before, there⟩ | ⟨member, -⟩
    · rw [delivering.apart hash orphan (held_iff.mp held).1] at there
      contradiction
    · have gone := released.orphans hash
      rw [if_pos member] at gone
      cases gone.symm.trans held
  · rcases delivering.arrived block old with there | held
    · exact .inl (released.kept _ there)
    · by_cases same : block.hashPrevBlock = hashPrev
      · exact .inl (done block (consistent.mem_waitingFor_iff.mpr ⟨held, same.symm⟩)).1
      · exact .inr (held_iff.mpr ⟨held, same⟩)
  · obtain ⟨before, other⟩ := held_iff.mp held
    rcases released.indexed _ there with old | ⟨member, -⟩
    · rcases delivering.waits hash orphan before old with queued | spoiled
      · exact .inl (List.mem_append_left _ ((List.mem_cons.mp queued).resolve_left other))
      · exact .inr spoiled
    · obtain ⟨child, inside, same⟩ := List.mem_map.mp member
      rw [← same]
      exact (done child inside).2.imp_left (List.mem_append_right _)
  · rcases List.mem_append.mp member with old | new
    · exact released.kept hash (delivering.queued hash (List.mem_cons_of_mem _ old))
    · exact released.accepted hash new
  · have shorter := released.pushed.length_le
    have parts := length_waitingFor receiver hashPrev
    rw [List.length_map] at shorter
    have byPrev : (next.eraseByPrev hashPrev).mapOrphanBlocksByPrev =
        (receiver.eraseByPrev hashPrev).mapOrphanBlocksByPrev := by
      simp only [eraseByPrev, released.byPrev]
    rw [byPrev]
    omega

/-- The loop ends with nothing in the queue. -/
theorem Delivering.loop {rounds : ℕ} {vWorkQueue : List Uint256}
    (delivering : Delivering P valid start tree blocks delivered vWorkQueue receiver)
    (enough : vWorkQueue.length + receiver.mapOrphanBlocksByPrev.length ≤ rounds) :
    ∃ receiver', releaseLoop P setting rounds vWorkQueue receiver = (.ok (), receiver') ∧
      Delivering P valid start tree blocks delivered [] receiver' := by
  induction rounds generalizing receiver vWorkQueue with
  | zero =>
    cases vWorkQueue with
    | nil => exact ⟨receiver, rfl, delivering⟩
    | cons hashPrev vWorkQueue => simp at enough
  | succ rounds ih =>
    cases vWorkQueue with
    | nil => exact ⟨receiver, rfl, delivering⟩
    | cons hashPrev vWorkQueue =>
      obtain ⟨pushed, next, ran, delivering', shorter⟩ := delivering.round sound decided validGenesis faultless placed
      obtain ⟨receiver', looped, done⟩ := ih delivering' (by simp at enough ⊢; omega)
      refine ⟨receiver', ?_, done⟩
      rw [releaseLoop, get_bind, bind_of_ok ran, modify_bind]
      exact looped

section

variable (delivering : Delivering P valid start tree blocks delivered [] receiver)
include delivering

omit sound decided validGenesis faultless placed in
/-- A block that was tried is indexed, and its children wait for it if it was accepted. -/
theorem Delivering.tried {accepted : Bool}
    (fresh : receiver.mapOrphanBlocks (block.getHash P) = none) (tried : Tried P setting block accepted receiver receiver')
    (grounded : Grounded P valid tree receiver'.toNode)
    (there : ∃ entry, receiver'.mapBlockIndex (block.getHash P) = some entry) (vWorkQueue : List Uint256)
    (queue : block.getHash P ∈ vWorkQueue ∨ vWorkQueue = [] ∧ Spoiled valid tree (block.getHash P))
    (queued : ∀ hash ∈ vWorkQueue, hash = block.getHash P) :
    Delivering P valid start tree blocks (fun other => delivered other ∨ other = block) vWorkQueue receiver' where
  grounded := grounded
  founded pindex old := tried.kept (delivering.founded pindex old)
  consistent := tried.consistent delivering.consistent
  member hash orphan held := delivering.member hash orphan (tried.orphans ▸ held)
  apart hash orphan held := by
    rw [tried.orphans] at held
    refine Option.eq_none_iff_forall_ne_some.mpr fun entry found => ?_
    rcases tried.indexed hash ⟨entry, found⟩ with ⟨old, before⟩ | rfl
    · rw [delivering.apart hash orphan held] at before
      contradiction
    · rw [fresh] at held
      contradiction
  arrived other done := by
    rcases done with old | rfl
    · exact (delivering.arrived other old).imp tried.kept fun held => tried.orphans ▸ held
    · exact .inl there
  waits hash orphan held indexed := by
    rw [tried.orphans] at held
    rcases tried.indexed _ indexed with old | same
    · exact .inr ((delivering.waits hash orphan held old).resolve_left List.not_mem_nil)
    · rw [same]
      exact queue.imp_right And.right
  queued hash member := by
    rw [queued hash member]
    exact there

omit sound decided validGenesis faultless placed in
/-- A block whose parent is missing is held. -/
theorem Delivering.hold (inside : block ∈ blocks) (fresh : receiver.mapBlockIndex (block.getHash P) = none)
    (unknown : receiver.mapOrphanBlocks (block.getHash P) = none) (orphan : receiver.isOrphan block) :
    Delivering P valid start tree blocks (fun other => delivered other ∨ other = block) [] (receiver.hold P block) := by
  have held_cases {hash : Uint256} {other : CBlock} (held : (receiver.hold P block).mapOrphanBlocks hash = some other) :
      hash = block.getHash P ∧ other = block ∨ receiver.mapOrphanBlocks hash = some other := by
    simp only [Receiver.hold, Function.update_apply] at held
    split at held
    next same =>
      cases held
      exact .inl ⟨same, rfl⟩
    next => exact .inr held
  refine ⟨delivering.grounded, delivering.founded, delivering.consistent.hold unknown, fun hash other held => ?_,
    fun hash other held => ?_, fun other done => ?_, fun hash other held indexed => ?_, by simp⟩
  · rcases held_cases held with ⟨-, rfl⟩ | before
    · exact inside
    · exact delivering.member hash other before
  · rcases held_cases held with ⟨rfl, -⟩ | before
    · exact fresh
    · exact delivering.apart hash other before
  · rcases done with old | rfl
    · refine (delivering.arrived other old).imp_right fun held => ?_
      simp only [Receiver.hold, Function.update_apply]
      split
      next same =>
        rw [same, unknown] at held
        contradiction
      next => exact held
    · exact .inr (Function.update_self ..)
  · rcases held_cases held with ⟨-, rfl⟩ | before
    · obtain ⟨entry, found⟩ := indexed
      exact absurd (found.symm.trans orphan.2) (Option.some_ne_none entry)
    · exact delivering.waits hash other before indexed

/-- A delivery comes back and keeps the invariant. -/
theorem Delivering.processBlock (inside : block ∈ blocks)
    (distinct : ∀ first ∈ blocks, ∀ second ∈ blocks, first.getHash P = second.getHash P → first = second)
    (zero : (∃ entry, tree 0 = some entry) → ∃ entry, start 0 = some entry) :
    ∃ outcome receiver', Receiver.processBlock P setting true none block receiver = (outcome, receiver') ∧
      (outcome = .ok () ∨ ∃ nDoS what, outcome = .error (.dos nDoS what)) ∧
      Delivering P valid start tree blocks (fun other => delivered other ∨ other = block) [] receiver' := by
  have here := placed block inside
  have again (there : (∃ entry, receiver.mapBlockIndex (block.getHash P) = some entry) ∨
      receiver.mapOrphanBlocks (block.getHash P) = some block) :
      Delivering P valid start tree blocks (fun other => delivered other ∨ other = block) [] receiver := by
    refine { delivering with arrived := fun other done => ?_ }
    rcases done with old | rfl
    · exact delivering.arrived other old
    · exact there
  have begun {arrived : Check Unit} (checked : receiver.checkArrival P setting block = arrived) :
      Receiver.processBlock P setting true none block receiver =
        (StateAction.lift arrived >>= fun _ =>
          if receiver.isOrphan block then StateAction.modify fun receiver => receiver.hold P block
          else Receiver.tryAccept P setting none block >>= fun _ =>
            releaseLoop P setting (receiver.mapOrphanBlocksByPrev.length + 1) [block.getHash P]) receiver := by
    rw [Receiver.processBlock, get_bind, checked]
    rfl
  cases indexed : receiver.mapBlockIndex (block.getHash P) with
  | some entry =>
    have refused : receiver.checkArrival P setting block = .error (.dos 0 "ProcessBlock() : already have block") := by
      rw [checkArrival, rejectIf, if_pos (by rw [indexed]; exact Option.some_ne_none entry)]
      rfl
    exact ⟨_, receiver, begun refused, .inr ⟨_, _, rfl⟩, again (.inl ⟨entry, indexed⟩)⟩
  | none =>
    cases held : receiver.mapOrphanBlocks (block.getHash P) with
    | some orphan =>
      have refused : receiver.checkArrival P setting block =
          .error (.dos 0 "ProcessBlock() : already have block (orphan)") := by
        rw [checkArrival, rejectIf, if_neg (not_not.mpr indexed), rejectIf,
          if_pos (by rw [held]; exact Option.some_ne_none orphan)]
        rfl
      have same := distinct orphan (delivering.member _ _ held) block inside (delivering.consistent.keyed _ _ held)
      exact ⟨_, receiver, begun refused, .inr ⟨_, _, rfl⟩, again (.inr (same ▸ held))⟩
    | none =>
      have arrived : receiver.checkArrival P setting block = .ok () := by
        rw [checkArrival, rejectIf, if_neg (not_not.mpr indexed), rejectIf, if_neg (not_not.mpr held),
          here.checked, Checkpoints.getLastCheckpoint_eq_none]
        rfl
      rw [begun arrived, lift_bind_ok]
      by_cases orphan : receiver.isOrphan block
      · rw [if_pos orphan]
        exact ⟨_, _, rfl, .inl rfl, delivering.hold inside indexed held orphan⟩
      · rw [if_neg orphan]
        have parent : ∃ entry, receiver.mapBlockIndex block.hashPrevBlock = some entry := by
          rcases not_and_or.mp orphan with null | there
          · have null := not_not.mp null
            rw [null]
            exact delivering.founded 0 (zero (null ▸ here.parent))
          · exact Option.ne_none_iff_exists'.mp there
        obtain ⟨outcome, next, ran, tried, grounded, there, ends⟩ :=
          delivering.grounded.tryAccept sound decided validGenesis faultless here parent indexed
        rcases ends with rfl | ⟨⟨nDoS, what, rfl⟩, spoiled⟩
        · have queue := delivering.tried held tried grounded there [block.getHash P] (.inl (List.mem_singleton_self _))
            (fun hash => List.mem_singleton.mp)
          have enough : [block.getHash P].length + next.mapOrphanBlocksByPrev.length ≤
              receiver.mapOrphanBlocksByPrev.length + 1 := by
            rw [tried.byPrev, List.length_singleton, Nat.add_comm]
          obtain ⟨last, looped, done⟩ := queue.loop sound decided validGenesis faultless placed enough
          exact ⟨_, last, (bind_of_ok ran).trans looped, .inl rfl, done⟩
        · exact ⟨_, next, bind_of_error ran, .inr ⟨nDoS, what, rfl⟩,
            delivering.tried held tried grounded there [] (.inr ⟨rfl, spoiled⟩) (by simp)⟩

end

end

/-- The blocks are delivered by a peer, one after another. -/
def deliver (P : Platform) (setting : Setting) (receiver : Receiver) (order : List CBlock) : Receiver :=
  order.foldl (fun receiver block => (processBlock P setting true none block receiver).2) receiver

/-- All blocks on the chain of the block are valid. -/
def FullyValid (valid : BlockPtr → Prop) (tree : BlockMap) (pindex : BlockPtr) : Prop :=
  (∃ entry, tree pindex = some entry) ∧ ∀ below, Ancestor (parentOf tree) below pindex → valid below

theorem parentOf_placed {fCheckpoints : Bool} (placed : Placed P fCheckpoints tree block) :
    parentOf tree (block.getHash P) = some block.hashPrevBlock := by
  obtain ⟨entry, found, same⟩ := placed.entry
  obtain ⟨above, there⟩ := placed.parent
  have edge : entry.pprev = (newEntry P tree block 0 0).pprev :=
    CBlockIndex.eq_of_placed CBlockIndex.pprev (fun _ => rfl) same
  rw [parentOf, found, Option.bind_some, edge]
  simp [newEntry, Function.update_of_ne placed.other, there]

/-- Every block of the family without an invalid proper ancestor is indexed once all are delivered. -/
theorem Delivering.complete {start : BlockMap} {blocks : List CBlock} {delivered : CBlock → Prop}
    (delivering : Delivering P valid start tree blocks delivered [] receiver) (all : ∀ block ∈ blocks, delivered block)
    (placed : ∀ block ∈ blocks, Placed P setting.fCheckpoints tree block)
    (members : ∀ pindex, (∃ entry, tree pindex = some entry) →
      (∃ entry, start pindex = some entry) ∨ ∃ block ∈ blocks, block.getHash P = pindex)
    (rooted : Rooted tree P.hashGenesisBlock) {pindex : BlockPtr} (there : ∃ entry, tree pindex = some entry)
    (fine : ∀ below, Ancestor (parentOf tree) below pindex → below ≠ pindex → valid below) :
    ∃ entry, receiver.mapBlockIndex pindex = some entry := by
  induction height : heightOf tree pindex generalizing pindex with
  | zero =>
    rcases members pindex there with old | ⟨block, inside, rfl⟩
    · exact delivering.founded pindex old
    · have := rooted.graded _ _ (parentOf_placed (placed block inside))
      omega
  | succ n ih =>
    rcases members pindex there with old | ⟨block, inside, rfl⟩
    · exact delivering.founded pindex old
    · have edge := parentOf_placed (placed block inside)
      have step := rooted.graded _ _ edge
      have proper {below : BlockPtr} (ancestor : Ancestor (parentOf tree) below block.hashPrevBlock) : valid below := by
        apply fine below (ancestor.trans (.of_parent edge))
        rintro rfl
        have := rooted.graded.height_le ancestor
        omega
      refine (delivering.arrived block (all block inside)).resolve_right fun held => ?_
      have parent := ih (placed block inside).parent (fun below ancestor _ => proper ancestor) (by omega)
      rcases delivering.waits _ block held parent with queued | ⟨below, ancestor, wrong⟩
      · cases queued
      · exact wrong (proper ancestor)

section

variable {start : Receiver} {blocks : List CBlock} (sound : setting.ops.Sound P.hashGenesisBlock)
  (decided : setting.ops.Decided valid) (validGenesis : valid P.hashGenesisBlock) (faultless : setting.NoDiskErrors)
  (run : IndexRun P setting.ops start.toNode) (founded : ∃ entry, start.mapBlockIndex P.hashGenesisBlock = some entry)
  (fresh : Fresh start) (family : Family P setting.fCheckpoints start.mapBlockIndex blocks tree)
include sound decided validGenesis faultless run founded fresh family

/-- The invariant after every delivery, each of which comes back. -/
theorem delivering_deliver {order : List CBlock} (inside : ∀ block ∈ order, block ∈ blocks) :
    Delivering P valid start.mapBlockIndex tree blocks (· ∈ order) [] (deliver P setting start order) ∧
    ∀ block ∈ blocks, (processBlock P setting true none block (deliver P setting start order)).1 = .ok () ∨
      ∃ nDoS what, (processBlock P setting true none block (deliver P setting start order)).1 =
        .error (.dos nDoS what) := by
  have selected := run.selected sound decided validGenesis
  have base := selected.linked.tree
  have placed (block : CBlock) (member : block ∈ blocks) : Placed P setting.fCheckpoints tree block :=
    family.placed founded base member
  have zero (there : ∃ entry, tree 0 = some entry) : ∃ entry, start.mapBlockIndex 0 = some entry :=
    ((family.indexed_iff 0).mp there).resolve_right fun ⟨block, member, same⟩ => (placed block member).nonzero same
  have next {order : List CBlock} {receiver : Receiver}
      (delivering : Delivering P valid start.mapBlockIndex tree blocks (· ∈ order) [] receiver) (block : CBlock)
      (member : block ∈ blocks) := delivering.processBlock sound decided validGenesis faultless placed member
        (fun first member second member' => family.getHash_inj member member') zero
  have delivering : Delivering P valid start.mapBlockIndex tree blocks (· ∈ order) [] (deliver P setting start order) := by
    induction order using List.reverseRecOn with
    | nil =>
      refine ⟨⟨selected, family.within⟩, fun _ => id, .of_empty fresh.orphans fresh.byPrev, ?_, ?_, by simp, ?_, by simp⟩ <;>
        · intro hash orphan held
          rw [deliver, List.foldl_nil, fresh.orphans] at held
          contradiction
    | append_singleton earlier block ih =>
      obtain ⟨outcome, receiver', ran, -, done⟩ := next (ih fun other member => inside other (by simp [member])) block
        (inside block (by simp))
      have same : deliver P setting start (earlier ++ [block]) = receiver' := by
        rw [deliver, List.foldl_append, List.foldl_cons, List.foldl_nil]
        exact congrArg Prod.snd ran
      rw [same]
      have members : (fun other => other ∈ earlier ++ [block]) = fun other => other ∈ earlier ∨ other = block := by
        funext other
        simp
      exact members ▸ done
  refine ⟨delivering, fun block member => ?_⟩
  obtain ⟨outcome, receiver', ran, ends, -⟩ := next delivering block member
  rw [ran]
  exact ends

/-- What all deliveries end with. -/
theorem best_of_deliver {order : List CBlock} (all : ∀ block, block ∈ order ↔ block ∈ blocks) :
    ∃ best, (deliver P setting start order).pindexBest = some best ∧ FullyValid valid tree best ∧
      workOf (deliver P setting start order).mapBlockIndex best = workOf tree best ∧
      ∀ pindex, FullyValid valid tree pindex → workOf tree pindex ≤ workOf tree best := by
  have selected := run.selected sound decided validGenesis
  have base := selected.linked.tree
  have delivering := (delivering_deliver sound decided validGenesis faultless run founded fresh family
    fun block member => (all block).mp member).1
  generalize deliver P setting start order = receiver at delivering
  have grounded := delivering.grounded
  have rooted := grounded.selected.linked.tree
  have indexed {pindex : BlockPtr} (fully : FullyValid valid tree pindex) :
      ∃ entry, receiver.mapBlockIndex pindex = some entry :=
    delivering.complete (fun block member => (all block).mpr member) (fun block => family.placed founded base)
      (fun pindex => (family.indexed_iff pindex).mp) (family.rooted founded base) fully.1
      fun below ancestor _ => fully.2 below ancestor
  have most {pindex : BlockPtr} (fully : FullyValid valid tree pindex) :
      ∃ best ∈ receiver.pindexBest, workOf tree pindex ≤ workOf receiver.mapBlockIndex best := by
    obtain ⟨best, found, less⟩ := grounded.selected.best_most (indexed fully) fun below ancestor =>
      fully.2 below ((grounded.within.ancestor_iff rooted (indexed fully)).mpr ancestor)
    exact ⟨best, found, grounded.within.workOf (indexed fully) ▸ less⟩
  obtain ⟨best, found⟩ : ∃ best, receiver.pindexBest = some best := by
    refine Option.ne_none_iff_exists'.mp fun nothing => ?_
    obtain ⟨entry, there⟩ := delivering.founded _ founded
    rw [grounded.selected.empty_of_none validGenesis nothing] at there
    contradiction
  have there := grounded.selected.best_indexed best found
  have same := grounded.within.workOf there
  refine ⟨best, found, ⟨grounded.within.indexed there, fun below ancestor => ?_⟩, same.symm, fun pindex fully => ?_⟩
  · refine grounded.selected.active below (found ▸ onChain_some.mpr ?_)
    exact (grounded.within.ancestor_iff rooted there).mp ancestor
  · obtain ⟨tip, tipFound, less⟩ := most fully
    cases found.symm.trans tipFound
    rwa [same]

/-- Deliveries in any order, with any duplicates: after each of them the two maps hold the same blocks and no
held block is indexed, and each comes back; once all blocks are there, every block without an invalid proper
ancestor is indexed and the tip is the best fully valid block, so that two orders end with equal work. -/
theorem tips_of_deliveries :
    (∀ order, (∀ block ∈ order, block ∈ blocks) →
      Consistent P (deliver P setting start order) ∧
      (∀ hash orphan, (deliver P setting start order).mapOrphanBlocks hash = some orphan →
        (deliver P setting start order).mapBlockIndex hash = none) ∧
      ∀ block ∈ blocks, (processBlock P setting true none block (deliver P setting start order)).1 = .ok () ∨
        ∃ nDoS what, (processBlock P setting true none block (deliver P setting start order)).1 =
          .error (.dos nDoS what)) ∧
    (∀ order, (∀ block, block ∈ order ↔ block ∈ blocks) →
      (∀ pindex entry, tree pindex = some entry →
        (∀ below, Ancestor (parentOf tree) below pindex → below ≠ pindex → valid below) →
        ∃ entry', (deliver P setting start order).mapBlockIndex pindex = some entry') ∧
      ∃ best, (deliver P setting start order).pindexBest = some best ∧ FullyValid valid tree best ∧
        ∀ pindex, FullyValid valid tree pindex → workOf tree pindex ≤ workOf tree best) ∧
    ∀ order order', (∀ block, block ∈ order ↔ block ∈ blocks) → (∀ block, block ∈ order' ↔ block ∈ blocks) →
      ∃ best best', (deliver P setting start order).pindexBest = some best ∧
        (deliver P setting start order').pindexBest = some best' ∧
        workOf (deliver P setting start order).mapBlockIndex best =
          workOf (deliver P setting start order').mapBlockIndex best' := by
  have base := (run.selected sound decided validGenesis).linked.tree
  have best {order : List CBlock} (all : ∀ block, block ∈ order ↔ block ∈ blocks) :=
    best_of_deliver sound decided validGenesis faultless run founded fresh family all
  refine ⟨fun order inside => ?_, fun order all => ⟨fun pindex entry found fine => ?_, ?_⟩, fun order order' all all' => ?_⟩
  · obtain ⟨delivering, returns⟩ :=
      delivering_deliver sound decided validGenesis faultless run founded fresh family inside
    exact ⟨delivering.consistent, delivering.apart, returns⟩
  · have delivering := (delivering_deliver sound decided validGenesis faultless run founded fresh family
      fun block member => (all block).mp member).1
    exact delivering.complete (fun block member => (all block).mpr member) (fun block => family.placed founded base)
      (fun pindex => (family.indexed_iff pindex).mp) (family.rooted founded base) ⟨entry, found⟩ fine
  · obtain ⟨tip, there, fully, -, most⟩ := best all
    exact ⟨tip, there, fully, most⟩
  · obtain ⟨tip, there, fully, same, most⟩ := best all
    obtain ⟨tip', there', fully', same', most'⟩ := best all'
    refine ⟨tip, tip', there, there', ?_⟩
    rw [same, same']
    exact le_antisymm (most' tip fully) (most tip' fully')

end

section TestNet

open TestNet

/-- Only the genesis block is indexed. -/
def afterGenesis : Receiver where
  toNode := (Node.addToBlockIndex platform (deciding (· ≠ 2)) {} (mine 0 99 []) 0 0 nothing).2

/-- An orphan is released, another one waits for a block that is refused, and the tip is the same as in order. -/
theorem tips_of_deliveries_released :
    let after := deliver platform { ops := deciding (· ≠ 2) } afterGenesis
    (after [child, upon]).mapOrphanBlocks 4 = some upon ∧ (after [child, upon, greedy, honest]).mapOrphanBlocks 4 = none ∧
    ∃ best best', (after [child, upon, greedy, honest]).pindexBest = some best ∧
      (after [honest, upon, child, child, greedy]).pindexBest = some best' ∧
      workOf (after [child, upon, greedy, honest]).mapBlockIndex best =
        workOf (after [honest, upon, child, child, greedy]).mapBlockIndex best' := by
  have empty : IndexRun platform (deciding (· ≠ 2)) nothing :=
    .start ⟨⟨nofun, nofun, nofun⟩, fun _ => rfl, rfl, rfl, rfl, rfl, rfl⟩ (fun _ => rfl) rfl
  have run : IndexRun platform (deciding (· ≠ 2)) afterGenesis.toNode :=
    empty.add (mine 0 99 []) 0 0 (.inr ⟨rfl, by decide, rfl⟩)
  have family : ∃ tree, Family platform true afterGenesis.mapBlockIndex [child, upon, greedy, honest] tree := by
    refine ⟨_, .cons (.cons (.cons (.cons .nil ?_ ?_ ?_ ?_) ?_ ?_ ?_ ?_) ?_ ?_ ?_ ?_) ?_ ?_ ?_ ?_⟩ <;> decide
  obtain ⟨tree, family⟩ := family
  exact ⟨by decide, by decide, (tips_of_deliveries (deciding_sound _) (deciding_decided _) (by decide)
    ⟨fun _ => ⟨_, rfl⟩, fun _ => rfl, fun _ => rfl⟩ run (Option.isSome_iff_exists.mp (by decide))
    ⟨fun _ => rfl, rfl, rfl⟩ family).2.2 _ _ (by simp) (by simp; tauto)⟩

end TestNet

end Receiver

end BitCrystal
