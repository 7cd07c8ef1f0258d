import BitCrystal.Proofs.OrphanBlocks
import BitCrystal.Model.TestNet

/-! # Held blocks wait for a parent the node has not seen

Blocks are released when their parent is accepted and only then. When `AcceptBlock` refuses a block that
has a held child, or a child arrives after its parent was refused, the child stays held with nothing to
wait for. In runs without these two events every held block waits for a parent that was never tried.
-/

namespace BitCrystal

open StateAction Node

namespace Receiver

/-- No held block has a parent that is indexed or was given to `AcceptBlock`. -/
def NoneStuck (receiver : Receiver) : Prop :=
  ∀ hash orphan, receiver.mapOrphanBlocks hash = some orphan →
    receiver.mapBlockIndex orphan.hashPrevBlock = none ∧
      ∀ accepted, (orphan.hashPrevBlock, accepted) ∉ receiver.verdicts

/-- No block refused so far is the parent of a block that is held before the call or arrives with it. The step that goes
wrong is the return behind a refusal, and the verdicts of the call are what it starts from. -/
structure Unobstructed (P : Platform) (receiver : Receiver) (call : Call) : Prop where
  held : ∀ hash orphan, receiver.mapOrphanBlocks hash = some orphan →
    (orphan.hashPrevBlock, false) ∉ (call.run P receiver).2.verdicts
  arriving : receiver.isOrphan call.block → (call.block.hashPrevBlock, false) ∉ receiver.verdicts

/-- A held block whose parent was tried or indexed waits for the queue. -/
structure Releasing (P : Platform) (vWorkQueue : List Uint256) (receiver : Receiver) : Prop where
  consistent : Consistent P receiver
  queued : ∀ hash orphan, receiver.mapOrphanBlocks hash = some orphan →
    ((∃ e, receiver.mapBlockIndex orphan.hashPrevBlock = some e) ∨
      ∃ accepted, (orphan.hashPrevBlock, accepted) ∈ receiver.verdicts) → orphan.hashPrevBlock ∈ vWorkQueue
  accepted : ∀ hash, (hash, true) ∈ receiver.verdicts → ∃ e, receiver.mapBlockIndex hash = some e

variable {P : Platform} {setting : Setting} {receiver receiver' : Receiver}

theorem Releasing.noneStuck (releasing : Releasing P [] receiver) : NoneStuck receiver := by
  intro hash orphan held
  have unseen := fun seen => List.not_mem_nil (releasing.queued hash orphan held seen)
  refine ⟨Option.eq_none_iff_forall_ne_some.mpr fun e found => unseen (.inl ⟨e, found⟩), fun accepted there => ?_⟩
  exact unseen (.inr ⟨accepted, there⟩)

/-- A round of the loop, in which no block with a held child is refused. -/
theorem Releasing.round {hashPrev : Uint256} {vWorkQueue pushed : List Uint256} {next : Receiver}
    (releasing : Releasing P (hashPrev :: vWorkQueue) receiver)
    (released : Released ((receiver.waitingFor hashPrev).map (CBlock.getHash · P)) pushed receiver next)
    (fine : ∀ hash orphan, receiver.mapOrphanBlocks hash = some orphan →
      (orphan.hashPrevBlock, false) ∉ next.verdicts) :
    Releasing P (vWorkQueue ++ pushed) (next.eraseByPrev hashPrev) where
  consistent := releasing.consistent.erase released
  queued hash orphan held seen := by
    obtain ⟨before, other⟩ := (releasing.consistent.held_iff released).mp held
    have old (seen : (∃ e, receiver.mapBlockIndex orphan.hashPrevBlock = some e) ∨
        ∃ accepted, (orphan.hashPrevBlock, accepted) ∈ receiver.verdicts) :
        orphan.hashPrevBlock ∈ vWorkQueue ++ pushed :=
      List.mem_append_left _ ((List.mem_cons.mp (releasing.queued hash orphan before seen)).resolve_left other)
    have recorded {accepted : Bool} (there : (orphan.hashPrevBlock, accepted) ∈ next.verdicts) :
        orphan.hashPrevBlock ∈ vWorkQueue ++ pushed := by
      cases accepted with
      | false => exact absurd there (fine hash orphan before)
      | true =>
        rcases released.verdicts _ _ there with earlier | ⟨-, now⟩
        · exact old (.inr ⟨true, earlier⟩)
        · exact List.mem_append_right _ (now rfl)
    rcases seen with there | ⟨accepted, there⟩
    · rcases released.indexed _ there with earlier | ⟨-, accepted, there⟩
      · exact old (.inl earlier)
      · exact recorded there
    · exact recorded there
  accepted hash there := by
    rcases released.verdicts _ _ there with earlier | ⟨-, now⟩
    · exact released.kept hash (releasing.accepted hash earlier)
    · exact released.accepted hash (now rfl)

/-- The whole loop. -/
theorem Releasing.loop {rounds : ℕ} {vWorkQueue : List Uint256} (releasing : Releasing P vWorkQueue receiver)
    (ran : releaseLoop P setting rounds vWorkQueue receiver = (.ok (), receiver'))
    (fine : ∀ hash orphan, receiver.mapOrphanBlocks hash = some orphan →
      (orphan.hashPrevBlock, false) ∉ receiver'.verdicts) : Releasing P [] receiver' := by
  refine (releaseLoop_induction (motive := fun vWorkQueue receiver => Releasing P vWorkQueue receiver ∧
    ∀ hash orphan, receiver.mapOrphanBlocks hash = some orphan → (orphan.hashPrevBlock, false) ∉ receiver'.verdicts)
    ran ?_ ⟨releasing, fine⟩).1
  rintro rounds hashPrev vWorkQueue pushed receiver next released others ⟨releasing, fine⟩
  refine ⟨releasing.round released fun hash orphan held there => ?_, fun hash orphan held => ?_⟩
  · exact fine hash orphan held (releaseLoop_recorded others _ there)
  · exact fine hash orphan ((releasing.consistent.held_iff released).mp held).1

variable {block : CBlock}

/-- A block that was accepted starts the loop. -/
theorem Releasing.accept (releasing : Releasing P [] receiver)
    (tried : Tried P setting block true receiver receiver') : Releasing P [block.getHash P] receiver' where
  consistent := tried.consistent releasing.consistent
  queued hash orphan held seen := by
    rw [tried.orphans] at held
    apply List.mem_singleton.mpr
    by_contra other
    exact List.not_mem_nil (releasing.queued hash orphan held (tried.seen_before other seen))
  accepted hash there := by
    rw [tried.verdicts, List.mem_cons, Prod.mk.injEq] at there
    rcases there with ⟨rfl, -⟩ | earlier
    · exact tried.accepted_indexed rfl
    · exact tried.kept (releasing.accepted hash earlier)

/-- A block that was refused has no held child. -/
theorem Releasing.refuse (releasing : Releasing P [] receiver)
    (tried : Tried P setting block false receiver receiver')
    (fine : ∀ hash orphan, receiver.mapOrphanBlocks hash = some orphan →
      (orphan.hashPrevBlock, false) ∉ receiver'.verdicts) : Releasing P [] receiver' where
  consistent := tried.consistent releasing.consistent
  queued hash orphan held seen := by
    rw [tried.orphans] at held
    have other : orphan.hashPrevBlock ≠ block.getHash P := by
      intro same
      apply fine hash orphan held
      rw [tried.verdicts, same]
      exact List.mem_cons_self ..
    exact releasing.queued hash orphan held (tried.seen_before other seen)
  accepted hash there := by
    rw [tried.verdicts, List.mem_cons, Prod.mk.injEq] at there
    rcases there with ⟨-, ⟨⟩⟩ | earlier
    exact tried.kept (releasing.accepted hash earlier)

/-- A block whose parent was not refused can be held. -/
theorem Releasing.hold (releasing : Releasing P [] receiver)
    (arrived : receiver.checkArrival P setting block = .ok ()) (orphan : receiver.isOrphan block)
    (fine : (block.hashPrevBlock, false) ∉ receiver.verdicts) : Releasing P [] (receiver.hold P block) := by
  have unknown : receiver.mapOrphanBlocks (block.getHash P) = none := by
    simp only [checkArrival, Check.bind_eq_ok, Check.rejectIf_eq_ok, not_not] at arrived
    obtain ⟨-, -, -, fresh, -⟩ := arrived
    exact fresh
  have missing (e : CBlockIndex) : receiver.mapBlockIndex block.hashPrevBlock ≠ some e := by
    simp [orphan.2]
  refine ⟨releasing.consistent.hold unknown, fun hash held there seen => ?_, releasing.accepted⟩
  simp only [Receiver.hold, Function.update_apply] at there
  split at there
  · cases there
    rcases seen with ⟨e, found⟩ | ⟨accepted, tried⟩
    · exact absurd found (missing e)
    · cases accepted with
      | false => exact absurd tried fine
      | true =>
        obtain ⟨e, found⟩ := releasing.accepted _ tried
        exact absurd found (missing e)
  · exact releasing.queued hash held there seen

/-- A call without obstruction leaves nothing stuck. -/
theorem Releasing.processBlock (releasing : Releasing P [] receiver) (fFrom : Bool) (dbp : Option (ℕ × ℕ))
    (returns : ∀ failure, (Receiver.processBlock P setting fFrom dbp block receiver).1 = .error failure →
      failure.returnsFalse = true) (held : ∀ hash orphan, receiver.mapOrphanBlocks hash = some orphan →
      (orphan.hashPrevBlock, false) ∉ (Receiver.processBlock P setting fFrom dbp block receiver).2.verdicts)
    (arriving : receiver.isOrphan block → (block.hashPrevBlock, false) ∉ receiver.verdicts) :
    Releasing P [] (Receiver.processBlock P setting fFrom dbp block receiver).2 := by
  rcases processBlock_cases P setting fFrom dbp block receiver returns with
    same | ⟨arrived, ⟨orphan, same⟩ | ⟨-, tried | ⟨next, tried, looped⟩⟩⟩
  · rw [same]
    exact releasing
  · rw [same]
    exact releasing.hold arrived orphan (arriving orphan)
  · exact releasing.refuse tried held
  · refine (releasing.accept tried).loop looped fun hash orphan there => ?_
    rw [tried.orphans] at there
    exact held hash orphan there

theorem releasing_of_run {start : Node → Prop} (run : CallRun P start (Unobstructed P) receiver) :
    Releasing P [] receiver := by
  induction run with
  | start fresh _ =>
    refine ⟨.of_empty fresh.orphans fresh.byPrev, fun hash orphan held => ?_, fun hash there => ?_⟩
    · rw [fresh.orphans] at held
      contradiction
    · rw [fresh.verdicts] at there
      contradiction
  | @call receiver run call unobstructed returns ih =>
    have onClock : Releasing (call.platform P) [] receiver := ⟨⟨ih.consistent.keyed, ih.consistent.byPrev,
      ih.consistent.nodup⟩, ih.queued, ih.accepted⟩
    have after := onClock.processBlock call.fFrom call.dbp returns unobstructed.held unobstructed.arriving
    exact ⟨⟨after.consistent.keyed, after.consistent.byPrev, after.consistent.nodup⟩, after.queued, after.accepted⟩

/-- In a run without obstruction every held block waits for a parent the node has not processed. -/
theorem noneStuck_of_run {start : Node → Prop} (run : CallRun P start (Unobstructed P) receiver) :
    NoneStuck receiver := (releasing_of_run run).noneStuck

section TestNet

open TestNet

/-- A call by a peer. -/
def peerCall (block : CBlock) : Call where
  adjustedTime := 1500000000
  setting :=
    { ops := ChainOps.real platform 3
        { blockFile := fun hash => [(1, honest), (2, greedy), (4, upon)].lookup hash
          undoFile := fun _ => none } }
  block := block

/-- After the child has arrived. -/
def childHeld : Receiver := ((peerCall child).run platform { toNode := started }).2

theorem childHeld_returns : (peerCall child).Returns platform { toNode := started } := by
  intro failure failed
  have ended : ((peerCall child).run platform { toNode := started }).1.isOk = true := by decide
  rw [failed] at ended
  cases ended

/-- A second orphan has arrived. -/
def bothHeld : Receiver := ((peerCall upon).run platform childHeld).2

/-- The honest block releases the orphan on top of it, and the other one waits. -/
theorem noneStuck_of_run_released :
    let released := ((peerCall honest).run platform bothHeld).2
    bothHeld.mapOrphanBlocks 4 = some upon ∧ released.mapOrphanBlocks 4 = none ∧ released.pindexBest = some 4 ∧
      released.mapOrphanBlocks 3 = some child ∧ NoneStuck released := by
  intro released
  have start : CallRun platform (· = started) (Unobstructed platform) { toNode := started } :=
    .start ⟨fun _ => rfl, rfl, rfl⟩ rfl
  have first : CallRun platform (· = started) (Unobstructed platform) childHeld :=
    start.call (peerCall child) ⟨nofun, fun _ => List.not_mem_nil⟩ childHeld_returns
  have second : CallRun platform (· = started) (Unobstructed platform) bothHeld := by
    have ended : ((peerCall upon).run platform childHeld).1.isOk = true := by decide
    have verdicts : bothHeld.verdicts = [] := by decide
    refine first.call (peerCall upon) ⟨fun hash orphan _ there => ?_, fun _ => List.not_mem_nil⟩ fun failure failed => ?_
    · rw [← bothHeld, verdicts] at there
      exact List.not_mem_nil there
    · rw [failed] at ended
      cases ended
  have ended : ((peerCall honest).run platform bothHeld).1.isOk = true := by decide
  have verdicts : released.verdicts = [(4, true), (1, true)] := by decide
  refine ⟨by decide, by decide, by decide, by decide, noneStuck_of_run (second.call (peerCall honest)
    ⟨fun hash orphan _ there => ?_, fun _ => by decide⟩ fun failure failed => ?_)⟩
  · rw [verdicts] at there
    simp at there
  · rw [failed] at ended
    cases ended

/-- The child of the greedy block arrives first; its parent is indexed and refused, and it stays held. -/
theorem stuck_child_of_refused : ∃ receiver, CallRun platform (· = started)
    (fun _ call => call.fFrom = true ∧ (call.block.checkBlock platform true true).isOk = true) receiver ∧
    ¬ NoneStuck receiver := by
  have start : CallRun platform (· = started)
      (fun _ call => call.fFrom = true ∧ (call.block.checkBlock platform true true).isOk = true)
      { toNode := started } := .start ⟨fun _ => rfl, rfl, rfl⟩ rfl
  have first := start.call (peerCall child) ⟨rfl, by decide⟩ childHeld_returns
  have ended : ((peerCall greedy).run platform childHeld).1 =
      .error (.dos 100 "ConnectBlock() : coinbase pays too much") := by decide
  have held : ((peerCall greedy).run platform childHeld).2.mapOrphanBlocks 3 = some child := by decide
  have indexed : (((peerCall greedy).run platform childHeld).2.mapBlockIndex 2).isSome = true := by decide
  refine ⟨_, first.call (peerCall greedy) ⟨rfl, by decide⟩ fun failure failed => ?_, fun noneStuck => ?_⟩
  · cases ended.symm.trans failed
    rfl
  · have missing : ((peerCall greedy).run platform childHeld).2.mapBlockIndex 2 = none := (noneStuck 3 child held).1
    rw [missing] at indexed
    cases indexed

end TestNet

end Receiver

end BitCrystal
