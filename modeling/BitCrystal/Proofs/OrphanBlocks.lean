import BitCrystal.Proofs.AcceptBlock

/-! # Held blocks and their release

`mapOrphanBlocksByPrev` has exactly the held blocks, each under its parent. A round of the release loop
gives the blocks under one hash to `AcceptBlock`, each of them once, and holds them no longer; the hashes
of those that are accepted go to the queue.
-/

namespace BitCrystal

open StateAction Node

/-- Whatever is indexed. -/
theorem Checkpoints.getLastCheckpoint_eq_none (P : Platform) (fCheckpoints : Bool) (index : BlockMap) :
    getLastCheckpoint P fCheckpoints index = none := by
  have loop (checkpoints : List (ℕ × Uint256)) : lastCheckpointLoop index checkpoints = none := by
    induction checkpoints with
    | nil => rfl
    | cons checkpoint rest ih =>
      obtain ⟨nHeight, hash⟩ := checkpoint
      rw [lastCheckpointLoop]
      split
      · rfl
      · exact ih
  unfold getLastCheckpoint
  split
  · rfl
  · exact loop _

namespace Receiver

variable {P : Platform} {setting : Setting} {receiver receiver' : Receiver} {block : CBlock}

/-- The two maps hold the same blocks. -/
structure Consistent (P : Platform) (receiver : Receiver) : Prop where
  keyed : ∀ hash orphan, receiver.mapOrphanBlocks hash = some orphan → orphan.getHash P = hash
  byPrev : ∀ prev orphan, (prev, orphan) ∈ receiver.mapOrphanBlocksByPrev ↔
    receiver.mapOrphanBlocks (orphan.getHash P) = some orphan ∧ prev = orphan.hashPrevBlock
  nodup : receiver.mapOrphanBlocksByPrev.Nodup

theorem Consistent.of_empty (orphans : ∀ hash, receiver.mapOrphanBlocks hash = none)
    (byPrev : receiver.mapOrphanBlocksByPrev = []) : Consistent P receiver where
  keyed hash orphan found := by simp [orphans] at found
  byPrev prev orphan := by simp [orphans, byPrev]
  nodup := by simp [byPrev]

theorem mem_waitingFor {hashPrev : Uint256} {orphan : CBlock} :
    orphan ∈ receiver.waitingFor hashPrev ↔ (hashPrev, orphan) ∈ receiver.mapOrphanBlocksByPrev := by
  simp only [waitingFor, List.mem_map, List.mem_filter, decide_eq_true_eq, Prod.exists]
  constructor
  · rintro ⟨_, _, ⟨member, rfl⟩, rfl⟩
    exact member
  · intro member
    exact ⟨hashPrev, orphan, ⟨member, rfl⟩, rfl⟩

namespace Consistent

variable (consistent : Consistent P receiver)
include consistent

theorem mem_waitingFor_iff {hashPrev : Uint256} {orphan : CBlock} : orphan ∈ receiver.waitingFor hashPrev ↔
    receiver.mapOrphanBlocks (orphan.getHash P) = some orphan ∧ hashPrev = orphan.hashPrevBlock :=
  mem_waitingFor.trans (consistent.byPrev ..)

omit consistent in
/-- Held blocks with one hash are the same. -/
theorem getHash_inj {first second : CBlock} (held : receiver.mapOrphanBlocks (first.getHash P) = some first)
    (held' : receiver.mapOrphanBlocks (second.getHash P) = some second) (same : first.getHash P = second.getHash P) :
    first = second := by
  rw [same, held'] at held
  exact (Option.some.inj held).symm

theorem nodup_waitingFor (hashPrev : Uint256) : ((receiver.waitingFor hashPrev).map (CBlock.getHash · P)).Nodup := by
  refine List.Nodup.map_on (fun first there second there' same => ?_) ?_
  · exact getHash_inj (consistent.mem_waitingFor_iff.mp there).1
      (consistent.mem_waitingFor_iff.mp there').1 same
  · refine List.Nodup.map_on ?_ (consistent.nodup.filter _)
    rintro ⟨prev, first⟩ there ⟨prev', second⟩ there' same
    simp only [List.mem_filter, decide_eq_true_eq] at there there'
    exact Prod.ext (there.2.trans there'.2.symm) same

theorem hold (fresh : receiver.mapOrphanBlocks (block.getHash P) = none) : Consistent P (receiver.hold P block) where
  keyed hash orphan found := by
    simp only [Receiver.hold, Function.update_apply] at found
    split at found
    next same =>
      cases found
      exact same.symm
    next => exact consistent.keyed hash orphan found
  byPrev prev orphan := by
    simp only [Receiver.hold, List.mem_append, List.mem_singleton, Prod.mk.injEq, consistent.byPrev, Function.update_apply]
    by_cases same : orphan.getHash P = block.getHash P
    · rw [same, fresh, if_pos rfl]
      constructor
      · rintro (⟨⟨⟩, -⟩ | ⟨rfl, rfl⟩)
        exact ⟨rfl, rfl⟩
      · rintro ⟨⟨⟩, rfl⟩
        exact .inr ⟨rfl, rfl⟩
    · rw [if_neg same]
      constructor
      · rintro (there | ⟨-, rfl⟩)
        · exact there
        · exact absurd rfl same
      · exact .inl
  nodup := by
    refine List.nodup_append.mpr ⟨consistent.nodup, List.nodup_singleton _, ?_⟩
    rintro ⟨prev, orphan⟩ member _ single rfl
    cases List.mem_singleton.mp single
    have held := ((consistent.byPrev _ _).mp member).1
    rw [fresh] at held
    contradiction

end Consistent

/-! ## One block -/

/-- `AcceptBlock` was tried with the block. -/
structure Tried (P : Platform) (setting : Setting) (block : CBlock) (accepted : Bool) (receiver receiver' : Receiver) :
    Prop where
  node : accepted = false ∧ receiver'.toNode = receiver.toNode ∨
    Stored P setting.fCheckpoints block receiver.mapBlockIndex receiver'.mapBlockIndex
  orphans : receiver'.mapOrphanBlocks = receiver.mapOrphanBlocks
  byPrev : receiver'.mapOrphanBlocksByPrev = receiver.mapOrphanBlocksByPrev
  verdicts : receiver'.verdicts = (block.getHash P, accepted) :: receiver.verdicts

theorem tryAccept_tried (P : Platform) (setting : Setting) (dbp : Option (ℕ × ℕ)) (block : CBlock) (receiver : Receiver) :
    Tried P setting block (tryAccept P setting dbp block receiver).1.isOk receiver
      (tryAccept P setting dbp block receiver).2 where
  node := by
    rcases acceptBlock_cases P setting.fCheckpoints setting.ops (setting.disk (block.getHash P)) dbp block
      receiver.toNode with ⟨failure, refused⟩ | stored
    · refine .inl ⟨?_, ?_⟩ <;> simp only [tryAccept, onNode, refused]
      rfl
    · exact .inr stored
  orphans := rfl
  byPrev := rfl
  verdicts := rfl

namespace Tried

variable {accepted : Bool} (tried : Tried P setting block accepted receiver receiver')
include tried

/-- At most the block is new in the index, and an accepted block is. -/
theorem indexed (pindex : BlockPtr) : (∃ e, receiver'.mapBlockIndex pindex = some e) →
    (∃ e, receiver.mapBlockIndex pindex = some e) ∨ pindex = block.getHash P := by
  rcases tried.node with ⟨-, same⟩ | stored
  · rw [same]
    exact .inl
  · exact (stored.indexed_iff pindex).mp

/-- Another block was indexed or tried before. -/
theorem seen_before {hash : Uint256} (other : hash ≠ block.getHash P)
    (seen : (∃ e, receiver'.mapBlockIndex hash = some e) ∨ ∃ accepted, (hash, accepted) ∈ receiver'.verdicts) :
    (∃ e, receiver.mapBlockIndex hash = some e) ∨ ∃ accepted, (hash, accepted) ∈ receiver.verdicts := by
  rcases seen with there | ⟨accepted, there⟩
  · exact .inl ((tried.indexed _ there).resolve_right other)
  · rw [tried.verdicts, List.mem_cons, Prod.mk.injEq] at there
    exact .inr ⟨accepted, there.resolve_left fun same => other same.1⟩

theorem kept {pindex : BlockPtr} (there : ∃ e, receiver.mapBlockIndex pindex = some e) :
    ∃ e, receiver'.mapBlockIndex pindex = some e := by
  rcases tried.node with ⟨-, same⟩ | stored
  · rwa [same]
  · exact (stored.indexed_iff pindex).mpr (.inl there)

theorem accepted_indexed (fine : accepted = true) : ∃ e, receiver'.mapBlockIndex (block.getHash P) = some e := by
  rcases tried.node with ⟨refused, -⟩ | stored
  · rw [fine] at refused
    contradiction
  · exact (stored.indexed_iff _).mpr (.inr rfl)

theorem consistent (consistent : Consistent P receiver) : Consistent P receiver' where
  keyed := by rw [tried.orphans]; exact consistent.keyed
  byPrev := by rw [tried.orphans, tried.byPrev]; exact consistent.byPrev
  nodup := by rw [tried.byPrev]; exact consistent.nodup

end Tried

/-- The blocks with these hashes were given to `AcceptBlock` and are held no longer. -/
structure Released (hashes pushed : List Uint256) (receiver receiver' : Receiver) : Prop where
  orphans : ∀ hash, receiver'.mapOrphanBlocks hash = if hash ∈ hashes then none else receiver.mapOrphanBlocks hash
  byPrev : receiver'.mapOrphanBlocksByPrev = receiver.mapOrphanBlocksByPrev
  verdicts : ∀ hash accepted, (hash, accepted) ∈ receiver'.verdicts →
    (hash, accepted) ∈ receiver.verdicts ∨ hash ∈ hashes ∧ (accepted = true → hash ∈ pushed)
  recorded : ∀ verdict ∈ receiver.verdicts, verdict ∈ receiver'.verdicts
  indexed : ∀ pindex, (∃ e, receiver'.mapBlockIndex pindex = some e) →
    (∃ e, receiver.mapBlockIndex pindex = some e) ∨
      pindex ∈ hashes ∧ ∃ accepted, (pindex, accepted) ∈ receiver'.verdicts
  kept : ∀ pindex, (∃ e, receiver.mapBlockIndex pindex = some e) → ∃ e, receiver'.mapBlockIndex pindex = some e
  accepted : ∀ hash ∈ pushed, ∃ e, receiver'.mapBlockIndex hash = some e
  pushed : pushed.Sublist hashes

theorem Released.refl (receiver : Receiver) : Released [] [] receiver receiver where
  orphans _ := rfl
  byPrev := rfl
  verdicts _ _ := .inl
  recorded _ := id
  indexed _ := .inl
  kept _ := id
  accepted _ := nofun
  pushed := .refl _

theorem Tried.released {accepted : Bool} {next : Receiver} {hashes pushed : List Uint256}
    (tried : Tried P setting block accepted receiver next)
    (rest : Released hashes pushed (next.eraseOrphan (block.getHash P)) receiver') :
    Released (block.getHash P :: hashes) (if accepted then block.getHash P :: pushed else pushed) receiver receiver' where
  orphans hash := by
    rw [rest.orphans]
    simp only [eraseOrphan, tried.orphans, Function.update_apply, List.mem_cons]
    split_ifs <;> simp_all
  byPrev := rest.byPrev.trans tried.byPrev
  verdicts hash verdict recorded := by
    rcases rest.verdicts hash verdict recorded with before | ⟨member, queued⟩
    · change (hash, verdict) ∈ next.verdicts at before
      rw [tried.verdicts, List.mem_cons, Prod.mk.injEq] at before
      rcases before with ⟨rfl, rfl⟩ | before
      · exact .inr ⟨List.mem_cons_self .., fun fine => by rw [if_pos fine]; exact List.mem_cons_self ..⟩
      · exact .inl before
    · refine .inr ⟨List.mem_cons_of_mem _ member, fun fine => ?_⟩
      split
      · exact List.mem_cons_of_mem _ (queued fine)
      · exact queued fine
  recorded verdict there := by
    apply rest.recorded
    change verdict ∈ next.verdicts
    rw [tried.verdicts]
    exact List.mem_cons_of_mem _ there
  indexed pindex there := by
    rcases rest.indexed pindex there with before | ⟨member, recorded⟩
    · rcases tried.indexed pindex before with older | rfl
      · exact .inl older
      · refine .inr ⟨List.mem_cons_self .., accepted, rest.recorded _ ?_⟩
        change (_, accepted) ∈ next.verdicts
        rw [tried.verdicts]
        exact List.mem_cons_self ..
    · exact .inr ⟨List.mem_cons_of_mem _ member, recorded⟩
  kept pindex there := rest.kept pindex (tried.kept there)
  accepted hash member := by
    split at member
    next fine =>
      rcases List.mem_cons.mp member with rfl | later
      · exact rest.kept _ (tried.accepted_indexed fine)
      · exact rest.accepted hash later
    next => exact rest.accepted hash member
  pushed := by
    split
    · exact rest.pushed.cons_cons _
    · exact rest.pushed.cons _

theorem releaseChildren_ok {children : List CBlock} {pushed : List Uint256}
    (ran : releaseChildren P setting children receiver = (.ok pushed, receiver')) :
    Released (children.map (CBlock.getHash · P)) pushed receiver receiver' := by
  induction children generalizing receiver pushed with
  | nil =>
    cases ran
    exact .refl _
  | cons child rest ih =>
    simp only [releaseChildren, bind_eq_ok, modify_apply, Prod.mk.injEq] at ran
    obtain ⟨accepted, next, tried, _, _, ⟨-, rfl⟩, more, _, others, result⟩ := ran
    obtain ⟨rfl, rfl⟩ := completes_ok tried
    cases result
    exact (tryAccept_tried ..).released (ih others)

theorem releaseChildren_error {children : List CBlock} {failure : Failure}
    (ran : releaseChildren P setting children receiver = (.error failure, receiver')) :
    failure.returnsFalse = false := by
  induction children generalizing receiver with
  | nil => cases ran
  | cons child rest ih =>
    simp only [releaseChildren, bind_eq_error, modify_apply, Prod.mk.injEq, reduceCtorEq, false_and,
      false_or] at ran
    rcases ran with stopped | ⟨_, _, -, _, _, -, others | ⟨_, _, -, ⟨⟩⟩⟩
    · exact completes_error stopped
    · exact ih others

variable {rounds : ℕ} {vWorkQueue : List Uint256}

theorem releaseLoop_error {failure : Failure}
    (ran : releaseLoop P setting rounds vWorkQueue receiver = (.error failure, receiver')) :
    failure.returnsFalse = false := by
  induction rounds generalizing receiver vWorkQueue with
  | zero => cases vWorkQueue <;> cases ran; rfl
  | succ rounds ih =>
    cases vWorkQueue with
    | nil => cases ran
    | cons hashPrev vWorkQueue =>
      simp only [releaseLoop, bind_eq_error, get_apply, modify_apply, Prod.mk.injEq, reduceCtorEq, false_and,
        Except.ok.injEq, false_or] at ran
      obtain ⟨_, _, -, stopped | ⟨pushed, _, -, _, _, -, others⟩⟩ := ran
      · exact releaseChildren_error stopped
      · exact ih others

/-- One round: the blocks under `hashPrev` are given to `AcceptBlock`, and the key is erased. -/
theorem releaseLoop_cons {hashPrev : Uint256}
    (ran : releaseLoop P setting (rounds + 1) (hashPrev :: vWorkQueue) receiver = (.ok (), receiver')) :
    ∃ pushed next, Released ((receiver.waitingFor hashPrev).map (CBlock.getHash · P)) pushed receiver next ∧
      releaseLoop P setting rounds (vWorkQueue ++ pushed) (next.eraseByPrev hashPrev) = (.ok (), receiver') := by
  simp only [releaseLoop, bind_eq_ok, get_apply, modify_apply, Prod.mk.injEq, Except.ok.injEq] at ran
  obtain ⟨_, _, ⟨rfl, rfl⟩, pushed, next, released, _, _, ⟨-, rfl⟩, others⟩ := ran
  exact ⟨pushed, next, releaseChildren_ok released, others⟩

/-- What every round keeps, with the rest of the loop still to run, holds once the queue is empty. -/
theorem releaseLoop_induction {motive : List Uint256 → Receiver → Prop}
    (ran : releaseLoop P setting rounds vWorkQueue receiver = (.ok (), receiver'))
    (round : ∀ {rounds hashPrev vWorkQueue pushed receiver next},
      Released ((receiver.waitingFor hashPrev).map (CBlock.getHash · P)) pushed receiver next →
      releaseLoop P setting rounds (vWorkQueue ++ pushed) (next.eraseByPrev hashPrev) = (.ok (), receiver') →
      motive (hashPrev :: vWorkQueue) receiver → motive (vWorkQueue ++ pushed) (next.eraseByPrev hashPrev))
    (start : motive vWorkQueue receiver) : motive [] receiver' := by
  induction rounds generalizing receiver vWorkQueue with
  | zero =>
    cases vWorkQueue with
    | nil =>
      cases ran
      exact start
    | cons hashPrev vWorkQueue => cases ran
  | succ rounds ih =>
    cases vWorkQueue with
    | nil =>
      cases ran
      exact start
    | cons hashPrev vWorkQueue =>
      obtain ⟨pushed, next, released, others⟩ := releaseLoop_cons ran
      exact ih others (round released others start)

namespace Consistent

variable {hashPrev : Uint256} {pushed : List Uint256} {next : Receiver} (consistent : Consistent P receiver)
  (released : Released ((receiver.waitingFor hashPrev).map (CBlock.getHash · P)) pushed receiver next)
include consistent released

/-- After a round exactly the blocks with another parent are held. -/
theorem held_iff {hash : Uint256} {orphan : CBlock} : next.mapOrphanBlocks hash = some orphan ↔
    receiver.mapOrphanBlocks hash = some orphan ∧ orphan.hashPrevBlock ≠ hashPrev := by
  rw [released.orphans]
  split
  next member =>
    obtain ⟨child, waiting, rfl⟩ := List.mem_map.mp member
    obtain ⟨held, same⟩ := consistent.mem_waitingFor_iff.mp waiting
    refine ⟨nofun, fun ⟨there, other⟩ => ?_⟩
    rw [held] at there
    cases there
    exact absurd same.symm other
  next apart =>
    refine ⟨fun held => ⟨held, fun same => apart ?_⟩, And.left⟩
    have key := consistent.keyed hash orphan held
    refine List.mem_map.mpr ⟨orphan, ?_, key⟩
    exact consistent.mem_waitingFor_iff.mpr ⟨key ▸ held, same.symm⟩

theorem erase : Consistent P (next.eraseByPrev hashPrev) where
  keyed hash orphan held := consistent.keyed hash orphan ((consistent.held_iff released).mp held).1
  byPrev prev orphan := by
    change _ ∈ (next.mapOrphanBlocksByPrev.filter _) ↔ next.mapOrphanBlocks _ = some orphan ∧ _
    rw [List.mem_filter, released.byPrev, consistent.byPrev, consistent.held_iff released, decide_eq_true_eq]
    constructor
    · rintro ⟨⟨held, rfl⟩, other⟩
      exact ⟨⟨held, other⟩, rfl⟩
    · rintro ⟨⟨held, other⟩, rfl⟩
      exact ⟨⟨held, rfl⟩, other⟩
  nodup := by
    change (next.mapOrphanBlocksByPrev.filter _).Nodup
    rw [released.byPrev]
    exact consistent.nodup.filter _

end Consistent

theorem releaseLoop_recorded
    (ran : releaseLoop P setting rounds vWorkQueue receiver = (.ok (), receiver')) (verdict : Uint256 × Bool)
    (there : verdict ∈ receiver.verdicts) : verdict ∈ receiver'.verdicts :=
  releaseLoop_induction (motive := fun _ receiver => verdict ∈ receiver.verdicts) ran
    (fun released _ => released.recorded verdict) there

/-- Blocks that passed the checks against their parents were added one after another. -/
def Grows (P : Platform) (fCheckpoints : Bool) : BlockMap → BlockMap → Prop :=
  Relation.ReflTransGen fun index index' => ∃ block, Stored P fCheckpoints block index index'

/-- The action only adds blocks to the index. -/
abbrev OnlyGrows {α : Type} (P : Platform) (fCheckpoints : Bool) (action : ReceiverAction α) : Prop :=
  Keeps (fun receiver receiver' => Grows P fCheckpoints receiver.mapBlockIndex receiver'.mapBlockIndex) action

theorem OnlyGrows.bind {α β : Type} {fCheckpoints : Bool} {action : ReceiverAction α} {next : α → ReceiverAction β}
    (first : OnlyGrows P fCheckpoints action) (second : ∀ a, OnlyGrows P fCheckpoints (next a)) :
    OnlyGrows P fCheckpoints (action >>= next) := Keeps.bind Relation.ReflTransGen.trans first second

theorem tryAccept_grows (dbp : Option (ℕ × ℕ)) (block : CBlock) :
    OnlyGrows P setting.fCheckpoints (tryAccept P setting dbp block) := by
  intro receiver
  rcases (tryAccept_tried P setting dbp block receiver).node with ⟨-, same⟩ | stored
  · have index : (tryAccept P setting dbp block receiver).2.mapBlockIndex = receiver.mapBlockIndex := by rw [same]
    exact index ▸ .refl
  · exact .single ⟨block, stored⟩

theorem releaseChildren_grows (children : List CBlock) :
    OnlyGrows P setting.fCheckpoints (releaseChildren P setting children) := by
  induction children with
  | nil => exact fun _ => .refl
  | cons child rest ih =>
    refine OnlyGrows.bind (Keeps.completes (tryAccept_grows none child)) fun accepted => ?_
    exact OnlyGrows.bind (fun _ => .refl) fun _ => ih.bind fun more _ => .refl

theorem releaseLoop_grows (rounds : ℕ) (vWorkQueue : List Uint256) :
    OnlyGrows P setting.fCheckpoints (releaseLoop P setting rounds vWorkQueue) := by
  induction rounds generalizing vWorkQueue with
  | zero => cases vWorkQueue <;> exact fun _ => .refl
  | succ rounds ih =>
    cases vWorkQueue with
    | nil => exact fun _ => .refl
    | cons hashPrev vWorkQueue =>
      refine OnlyGrows.bind (fun _ => .refl) fun receiver => ?_
      refine (releaseChildren_grows _).bind fun pushed => ?_
      exact OnlyGrows.bind (fun _ => .refl) fun _ => ih _

/-- Whatever the result of the call is. -/
theorem processBlock_grows (fFrom : Bool) (dbp : Option (ℕ × ℕ)) (block : CBlock) :
    OnlyGrows P setting.fCheckpoints (processBlock P setting fFrom dbp block) := by
  refine OnlyGrows.bind (fun _ => .refl) fun receiver => OnlyGrows.bind (fun _ => .refl) fun _ => ?_
  split
  · intro receiver
    rw [modify_apply]
    cases fFrom <;> exact .refl
  · exact (tryAccept_grows dbp block).bind fun _ => releaseLoop_grows _ _

/-- The arguments of a call and what surrounds it. -/
structure Call where
  adjustedTime : ℤ
  setting : Setting
  fFrom : Bool := true
  dbp : Option (ℕ × ℕ) := none
  block : CBlock

/-- The platform with the clock of the call. -/
def Call.platform (call : Call) (P : Platform) : Platform := { P with adjustedTime := call.adjustedTime }

/-- The outcome of a call and the state after it. -/
def Call.run (call : Call) (P : Platform) (receiver : Receiver) : Check Unit × Receiver :=
  processBlock (call.platform P) call.setting call.fFrom call.dbp call.block receiver

/-- The call came back. -/
def Call.Returns (call : Call) (P : Platform) (receiver : Receiver) : Prop :=
  ∀ failure, (call.run P receiver).1 = .error failure → failure.returnsFalse = true

/-- Nothing is held and no block was tried. -/
structure Fresh (receiver : Receiver) : Prop where
  orphans : ∀ hash, receiver.mapOrphanBlocks hash = none
  byPrev : receiver.mapOrphanBlocksByPrev = []
  verdicts : receiver.verdicts = []

/-- The states after allowed calls, from a start node. -/
inductive CallRun (P : Platform) (start : Node → Prop) (allowed : Receiver → Call → Prop) : Receiver → Prop
  | start {receiver : Receiver} (fresh : Fresh receiver) (started : start receiver.toNode) :
      CallRun P start allowed receiver
  | call {receiver : Receiver} (run : CallRun P start allowed receiver) (call : Call) (fine : allowed receiver call)
      (returns : call.Returns P receiver) : CallRun P start allowed (call.run P receiver).2

/-- What a call that came back did. -/
theorem processBlock_cases (P : Platform) (setting : Setting) (fFrom : Bool) (dbp : Option (ℕ × ℕ)) (block : CBlock)
    (receiver : Receiver)
    (returns : ∀ failure, (processBlock P setting fFrom dbp block receiver).1 = .error failure →
      failure.returnsFalse = true) :
    (processBlock P setting fFrom dbp block receiver).2 = receiver ∨
    receiver.checkArrival P setting block = .ok () ∧
      (receiver.isOrphan block ∧ (processBlock P setting fFrom dbp block receiver).2 = receiver.hold P block ∨
      ¬ receiver.isOrphan block ∧
        (Tried P setting block false receiver (processBlock P setting fFrom dbp block receiver).2 ∨
        ∃ next, Tried P setting block true receiver next ∧
          releaseLoop P setting (receiver.mapOrphanBlocksByPrev.length + 1) [block.getHash P] next =
            (.ok (), (processBlock P setting fFrom dbp block receiver).2))) := by
  revert returns
  rw [processBlock, get_bind]
  cases arrived : receiver.checkArrival P setting block with
  | error failure => exact fun _ => .inl rfl
  | ok done =>
    rw [lift_bind_ok]
    intro returns
    split at returns
    next orphan =>
      rw [if_pos orphan]
      cases fFrom with
      | false => exact .inl rfl
      | true => exact .inr ⟨rfl, .inl ⟨orphan, rfl⟩⟩
    next present =>
      rw [if_neg present]
      refine .inr ⟨rfl, .inr ⟨present, ?_⟩⟩
      have tried := tryAccept_tried P setting dbp block receiver
      rcases outcome : tryAccept P setting dbp block receiver with ⟨failure | done, next⟩ <;> rw [outcome] at tried
      · rw [bind_of_error outcome]
        exact .inl tried
      · rw [bind_of_ok outcome] at returns ⊢
        refine .inr ⟨next, tried, ?_⟩
        rcases looped : releaseLoop P setting (receiver.mapOrphanBlocksByPrev.length + 1) [block.getHash P] next with
          ⟨failure | done, last⟩
        · rw [looped] at returns
          have fatal := releaseLoop_error looped
          rw [returns failure rfl] at fatal
          contradiction
        · rfl

end Receiver

end BitCrystal
