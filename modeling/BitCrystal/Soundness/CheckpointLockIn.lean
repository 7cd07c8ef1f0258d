import BitCrystal.Proofs.OrphanBlocks
import BitCrystal.Model.TestNet

/-! # Checkpoints lock nothing in

`GetLastCheckpoint` returns null although a checkpoint is indexed, so nothing that depends on its result
happens. The genesis block is the first checkpoint: the guarantee ends with the first indexed block.
-/

namespace BitCrystal

open StateAction Node

namespace Checkpoints

variable {P : Platform} {index : BlockMap}

/-- The entry of the highest checkpoint in the index, what `GetLastCheckpoint` is there to return. -/
def lastIndexed (P : Platform) (index : BlockMap) : Option CBlockIndex :=
  (mapCheckpoints P).reverse.findSome? fun checkpoint => index checkpoint.2

theorem genesis_mem (P : Platform) : (0, P.hashGenesisBlock) ∈ mapCheckpoints P := by
  unfold mapCheckpoints
  split <;> exact List.mem_cons_self ..

theorem lastIndexed_eq_none_iff :
    lastIndexed P index = none ↔ ∀ checkpoint ∈ mapCheckpoints P, index checkpoint.2 = none := by
  simp [lastIndexed]

end Checkpoints

namespace Receiver

open Checkpoints

variable {P : Platform} {receiver : Receiver}

/-- The work of the block is too little for the time since the checkpoint. -/
def TooLittleWork (P : Platform) (pcheckpoint : CBlockIndex) (block : CBlock) : Prop :=
  block.nTime < pcheckpoint.nTime ∨
    setCompact (computeMinWork P pcheckpoint.nBits ((block.nTime : ℤ) - pcheckpoint.nTime)) < setCompact block.nBits

/-- The blocks at checkpoint heights are the listed ones, `GetLastCheckpoint` finds the highest checkpoint in
the index, and a block off the tip with too little work for it is refused and not held. -/
structure LockedIn (P : Platform) (receiver : Receiver) : Prop where
  listed : ∀ nHeight hash, (nHeight, hash) ∈ mapCheckpoints P → ∀ pindex entry,
    receiver.mapBlockIndex pindex = some entry → entry.nHeight = nHeight → pindex = hash
  last : getLastCheckpoint P true receiver.mapBlockIndex = lastIndexed P receiver.mapBlockIndex
  work : ∀ pcheckpoint, lastIndexed P receiver.mapBlockIndex = some pcheckpoint → ∀ call : Call,
    call.setting.fCheckpoints = true → call.block.hashPrevBlock ≠ receiver.hashBestChain →
    TooLittleWork (call.platform P) pcheckpoint call.block →
    (call.run P receiver).1.isOk = false ∧ (call.run P receiver).2.mapOrphanBlocks = receiver.mapOrphanBlocks

/-- The genesis block is in the index, or the index is empty. -/
def Founded (genesis : BlockPtr) (index : BlockMap) : Prop :=
  (∃ entry, index genesis = some entry) ∨ ∀ pindex, index pindex = none

theorem Founded.grows {fCheckpoints : Bool} {index index' : BlockMap} (founded : Founded P.hashGenesisBlock index)
    (grows : Grows P fCheckpoints index index') : Founded P.hashGenesisBlock index' := by
  induction grows with
  | refl => exact founded
  | tail _ step ih =>
    obtain ⟨block, stored⟩ := step
    refine .inl ((stored.indexed_iff _).mpr ?_)
    by_cases first : block.getHash P = P.hashGenesisBlock
    · exact .inr first.symm
    · obtain ⟨entry, found⟩ := stored.parent first
      rcases ih with there | nothing
      · exact .inl there
      · rw [nothing] at found
        contradiction

theorem founded_of_run {allowed : Receiver → Call → Prop}
    (run : CallRun P (fun node => Founded P.hashGenesisBlock node.mapBlockIndex) allowed receiver) :
    Founded P.hashGenesisBlock receiver.mapBlockIndex := by
  induction run with
  | start _ founded => exact founded
  | call _ call _ _ ih =>
    exact Founded.grows (P := call.platform P) ih (processBlock_grows call.fFrom call.dbp call.block _)

/-- With checkpoints enabled the guarantee holds in exactly the states in which no block is indexed. -/
theorem lockedIn_iff_of_run
    (run : CallRun P (fun node => Founded P.hashGenesisBlock node.mapBlockIndex)
      (fun _ call => call.setting.fCheckpoints = true) receiver) :
    LockedIn P receiver ↔ ∀ pindex, receiver.mapBlockIndex pindex = none := by
  constructor
  · intro locked
    refine (founded_of_run run).resolve_left fun ⟨entry, found⟩ => ?_
    have nothing := locked.last
    rw [getLastCheckpoint_eq_none, eq_comm, lastIndexed_eq_none_iff] at nothing
    have missing := nothing _ (genesis_mem P)
    rw [found] at missing
    contradiction
  · intro empty
    have nothing : lastIndexed P receiver.mapBlockIndex = none :=
      lastIndexed_eq_none_iff.mpr fun checkpoint _ => empty checkpoint.2
    refine ⟨fun nHeight hash _ pindex entry found => ?_, ?_, fun pcheckpoint found => ?_⟩
    · rw [empty] at found
      contradiction
    · rw [getLastCheckpoint_eq_none, nothing]
    · rw [nothing] at found
      contradiction

section TestNet

open TestNet

theorem lockedIn_nothing : LockedIn platform { toNode := nothing } :=
  (lockedIn_iff_of_run (.start ⟨fun _ => rfl, rfl, rfl⟩ (.inr fun _ => rfl))).mpr fun _ => rfl

/-- A block from before the genesis block with an unknown parent. -/
def early : Call where
  adjustedTime := 1500000000
  setting := { ops := deciding fun _ => true }
  block := mineAt 1300000000 5 4 [coinbase 5 (10 ^ 12)]

/-- With the genesis block indexed such a block is held, not refused. -/
theorem not_lockedIn_started : ∃ receiver, CallRun platform (fun node => Founded 0 node.mapBlockIndex)
    (fun _ call => call.setting.fCheckpoints = true) receiver ∧ ¬ LockedIn platform receiver := by
  refine ⟨{ toNode := started }, .start ⟨fun _ => rfl, rfl, rfl⟩ (.inl ⟨genesisEntry, rfl⟩), fun locked => ?_⟩
  have returned : (early.run platform { toNode := started }).1.isOk = true := by decide
  have refused := (locked.work genesisEntry rfl early rfl (by decide) (.inl (by decide))).1
  rw [returned] at refused
  contradiction

end TestNet

end Receiver

end BitCrystal
