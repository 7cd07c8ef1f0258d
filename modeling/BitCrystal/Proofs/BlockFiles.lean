import BitCrystal.Model.BlockFiles

/-! # What a call for a position does to the files

A range in a file is protected when the size on record of the file, and the cached size of the last
file, reach its end. The calls move between files, let a size grow and put it on record.
-/

namespace BitCrystal.BlockFiles

open StateAction

variable {files files' settled : BlockFiles} {disk : FileDisk} {rounds nAddSize nHeight nTime nFile : ℕ}
  {pos found : CDiskBlockPos} {fKnown : Bool}

/-- The record of a file, empty if there is none. -/
def recorded (files : BlockFiles) (nFile : ℕ) : CBlockFileInfo := (files.blockFileInfo nFile).getD {}

theorem infoOf_last (files : BlockFiles) : files.infoOf files.nLastBlockFile = files.infoLastBlockFile := if_pos rfl

theorem infoOf_of_ne (other : nFile ≠ files.nLastBlockFile) : files.infoOf nFile = files.recorded nFile := if_neg other

theorem recorded_write (files : BlockFiles) (nFile : ℕ) (info : CBlockFileInfo) :
    (files.writeBlockFileInfo nFile info).recorded nFile = info := by
  simp only [recorded, writeBlockFileInfo, Function.update_self, Option.getD_some]

theorem recorded_write_of_ne {other : ℕ} (different : other ≠ nFile) (info : CBlockFileInfo) :
    (files.writeBlockFileInfo nFile info).recorded other = files.recorded other := by
  simp only [recorded, writeBlockFileInfo, Function.update_of_ne different]

theorem leaveFull_cases (left : leaveFull nAddSize rounds files = some settled) :
    settled = files ∨ ∃ nFile, files.nLastBlockFile < nFile ∧ settled = files.switchTo nFile := by
  induction rounds generalizing files with
  | zero =>
    rw [leaveFull] at left
    split at left
    · cases left
    · exact .inl (Option.some.inj left).symm
  | succ rounds ih =>
    rw [leaveFull] at left
    split at left
    · obtain rfl | ⟨nFile, later, rfl⟩ := ih left
      · exact .inr ⟨_, Nat.lt_succ_self _, rfl⟩
      · exact .inr ⟨nFile, Nat.lt_of_succ_lt later, rfl⟩
    · exact .inl (Option.some.inj left).symm

/-- The last file stays or another one takes its place; a known block determines it. -/
theorem settle_cases (found : files.settle rounds pos nAddSize fKnown = some settled) :
    (settled = files ∨ ∃ nFile, nFile ≠ files.nLastBlockFile ∧ settled = files.switchTo nFile) ∧
      (fKnown = true → settled.nLastBlockFile = pos.nFile) := by
  cases fKnown with
  | false =>
    refine ⟨?_, fun known => absurd known (by decide)⟩
    obtain same | ⟨nFile, later, rfl⟩ := leaveFull_cases found
    · exact .inl same
    · exact .inr ⟨nFile, later.ne', rfl⟩
  | true =>
    obtain rfl := Option.some.inj found
    split
    next same => exact ⟨.inl rfl, fun _ => same⟩
    next other => exact ⟨.inr ⟨_, Ne.symm other, rfl⟩, fun _ => rfl⟩

/-- The last file has the information it had before. -/
theorem info_of_settle (found : files.settle rounds pos nAddSize fKnown = some settled) :
    settled.infoLastBlockFile = files.infoOf settled.nLastBlockFile := by
  obtain ⟨rfl | ⟨nFile, other, rfl⟩, -⟩ := settle_cases found
  · rw [infoOf_last]
  · exact (infoOf_of_ne other).symm

/-- The position a block gets in the file it is stored in. -/
def placeOf (settled : BlockFiles) (pos : CDiskBlockPos) (fKnown : Bool) : CDiskBlockPos :=
  if fKnown then pos else ⟨settled.nLastBlockFile, settled.infoLastBlockFile.nSize⟩

/-- `FindBlockPos` gives up before it changes anything, fails with the block counted in the cache
only, or puts the information on record. -/
theorem findBlockPos_cases (files : BlockFiles) :
    findBlockPos disk rounds pos nAddSize nHeight nTime fKnown files = (.error .diverges, files) ∨
    ∃ settled, files.settle rounds pos nAddSize fKnown = some settled ∧
      let added := settled.addBlock nAddSize nHeight nTime
      (∃ failure, findBlockPos disk rounds pos nAddSize nHeight nTime fKnown files = (.error failure, added)) ∨
      ∃ lastBlockFile, findBlockPos disk rounds pos nAddSize nHeight nTime fKnown files =
        (.ok (settled.placeOf pos fKnown),
          { added.writeBlockFileInfo added.nLastBlockFile added.infoLastBlockFile with lastBlockFile }) := by
  unfold findBlockPos
  rw [get_bind]
  cases found : files.settle rounds pos nAddSize fKnown with
  | none => exact .inl rfl
  | some settled =>
    refine .inr ⟨settled, rfl, ?_⟩
    simp only [assertSome, lift_bind_ok, modify_bind, rejectIf, lift_guard_bind,
      pure_apply]
    split_ifs
    all_goals first | exact .inl ⟨_, rfl⟩ | exact .inr ⟨_, by simp only [placeOf, *]; rfl⟩

/-- A position that was found belongs to a block on record. -/
theorem findBlockPos_ok (ran : findBlockPos disk rounds pos nAddSize nHeight nTime fKnown files = (.ok found, files')) :
    ∃ settled, files.settle rounds pos nAddSize fKnown = some settled ∧ found = settled.placeOf pos fKnown ∧
      files'.recorded settled.nLastBlockFile = (settled.addBlock nAddSize nHeight nTime).infoLastBlockFile := by
  obtain failed | ⟨settled, settles, ⟨failure, failed⟩ | ⟨lastBlockFile, done⟩⟩ := findBlockPos_cases files
  · cases ran.symm.trans failed
  · cases ran.symm.trans failed
  · cases ran.symm.trans done
    exact ⟨settled, settles, rfl, recorded_write ..⟩

/-- Only the record of the last file changes, whose undo data stay. -/
theorem findBlockPos_keeps (files : BlockFiles) :
    let after := (findBlockPos disk rounds pos nAddSize nHeight nTime fKnown files).2
    (∀ nFile, nFile ≠ after.nLastBlockFile → after.blockFileInfo nFile = files.blockFileInfo nFile) ∧
      after.infoLastBlockFile.nUndoSize = (files.infoOf after.nLastBlockFile).nUndoSize := by
  have settled_keeps {settled : BlockFiles} (settles : files.settle rounds pos nAddSize fKnown = some settled) :
      settled.blockFileInfo = files.blockFileInfo := by
    obtain ⟨rfl | ⟨_, -, rfl⟩, -⟩ := settle_cases settles
    · rfl
    · rfl
  obtain ran | ⟨settled, settles, ⟨failure, ran⟩ | ⟨lastBlockFile, ran⟩⟩ := findBlockPos_cases files <;> rw [ran]
  · exact ⟨fun _ _ => rfl, by rw [infoOf_last]⟩
  · have same : settled.infoLastBlockFile.nUndoSize = _ := congrArg CBlockFileInfo.nUndoSize (info_of_settle settles)
    exact ⟨fun _ _ => congrFun (settled_keeps settles) _, same⟩
  · have same : settled.infoLastBlockFile.nUndoSize = _ := congrArg CBlockFileInfo.nUndoSize (info_of_settle settles)
    refine ⟨fun nFile other => ?_, same⟩
    exact (Function.update_of_ne other _ _).trans (congrFun (settled_keeps settles) _)

/-- The cache with the new size, when the file is the last one. -/
def cacheGrown (files : BlockFiles) (nFile nAddSize : ℕ) : BlockFiles :=
  if nFile = files.nLastBlockFile then { files with infoLastBlockFile := withUndo (files.infoOf nFile) nAddSize } else files

/-- `FindUndoPos` gives up before it changes anything, fails with the new size in the cache only, or
puts it on record. -/
theorem findUndoPos_cases (files : BlockFiles) :
    (∃ failure, findUndoPos disk nFile nAddSize files = (.error failure, files)) ∨
    (∃ failure, findUndoPos disk nFile nAddSize files = (.error failure, files.cacheGrown nFile nAddSize)) ∨
    (∃ failure, findUndoPos disk nFile nAddSize files =
      (.error failure, (files.cacheGrown nFile nAddSize).writeBlockFileInfo nFile (withUndo (files.infoOf nFile) nAddSize))) ∨
    findUndoPos disk nFile nAddSize files = (.ok ⟨nFile, (files.infoOf nFile).nUndoSize⟩,
      (files.cacheGrown nFile nAddSize).writeBlockFileInfo nFile (withUndo (files.infoOf nFile) nAddSize)) := by
  unfold findUndoPos
  rw [get_bind]
  by_cases last : nFile = files.nLastBlockFile
  · subst last
    simp only [if_true, lift_bind_ok, modify_bind, rejectIf, lift_guard_bind,
      pure_apply, cacheGrown, infoOf_last]
    split_ifs
    · exact .inr (.inr (.inl ⟨_, rfl⟩))
    · exact .inr (.inr (.inr rfl))
    · exact .inr (.inl ⟨_, rfl⟩)
  · rw [if_neg last, cacheGrown, infoOf_of_ne last, recorded, if_neg last]
    cases files.blockFileInfo nFile with
    | none => exact .inl ⟨_, rfl⟩
    | some info =>
      simp only [assertSome, lift_bind_ok, modify_bind, rejectIf, lift_guard_bind,
        pure_apply, if_neg last, Option.getD_some]
      split_ifs
      · exact .inr (.inr (.inl ⟨_, rfl⟩))
      · exact .inr (.inr (.inr rfl))
      · exact .inr (.inl ⟨_, rfl⟩)

theorem findUndoPos_ok (ran : findUndoPos disk nFile nAddSize files = (.ok found, files')) :
    found = ⟨nFile, (files.infoOf nFile).nUndoSize⟩ ∧
      files'.recorded nFile = withUndo (files.infoOf nFile) nAddSize := by
  obtain ⟨failure, failed⟩ | ⟨failure, failed⟩ | ⟨failure, failed⟩ | done := findUndoPos_cases files
  · cases ran.symm.trans failed
  · cases ran.symm.trans failed
  · cases ran.symm.trans failed
  · cases ran.symm.trans done
    exact ⟨rfl, recorded_write ..⟩

theorem findUndoPos_last (files : BlockFiles) :
    (findUndoPos disk nFile nAddSize files).2.nLastBlockFile = files.nLastBlockFile := by
  have cached : (files.cacheGrown nFile nAddSize).nLastBlockFile = files.nLastBlockFile := by
    unfold cacheGrown
    split <;> rfl
  obtain ⟨failure, ran⟩ | ⟨failure, ran⟩ | ⟨failure, ran⟩ | ran := findUndoPos_cases files <;> rw [ran]
  · exact cached
  · exact cached
  · exact cached

/-- The ranges are apart, and the sizes on record and in the cache protect them. -/
structure Marked (size : CBlockFileInfo → ℕ) (files : BlockFiles) (extents : List (Extent ℕ)) : Prop where
  apart : extents.Pairwise Extent.Apart
  below : Extent.Below (fun nFile => size (files.recorded nFile)) extents
  cached : size (files.recorded files.nLastBlockFile) ≤ size files.infoLastBlockFile

namespace Marked

variable {size : CBlockFileInfo → ℕ} {extents : List (Extent ℕ)}

theorem start (size : CBlockFileInfo → ℕ) (files : BlockFiles) (empty : size (files.recorded files.nLastBlockFile) ≤
    size files.infoLastBlockFile) : Marked size files [] := ⟨.nil, Extent.below_nil _, empty⟩

theorem recorded_le (marked : Marked size files extents) (nFile : ℕ) :
    size (files.recorded nFile) ≤ size (files.infoOf nFile) := by
  unfold infoOf
  split
  next same => exact same ▸ marked.cached
  next => exact le_rfl

theorem below_infoOf (marked : Marked size files extents) :
    Extent.Below (fun nFile => size (files.infoOf nFile)) extents :=
  marked.below.mono fun extent _ => marked.recorded_le extent.space

theorem settle (marked : Marked size files extents)
    (found : files.settle rounds pos nAddSize fKnown = some settled) : Marked size settled extents := by
  obtain ⟨rfl | ⟨nFile, -, rfl⟩, -⟩ := settle_cases found
  · exact marked
  · exact ⟨marked.apart, marked.below, le_rfl⟩

theorem cache (marked : Marked size files extents) {info : CBlockFileInfo}
    (grows : size files.infoLastBlockFile ≤ size info) :
    Marked size { files with infoLastBlockFile := info } extents :=
  ⟨marked.apart, marked.below, marked.cached.trans grows⟩

theorem write (marked : Marked size files extents) {info : CBlockFileInfo}
    (grows : size (files.recorded nFile) ≤ size info)
    (last : nFile = files.nLastBlockFile → size info ≤ size files.infoLastBlockFile) :
    Marked size (files.writeBlockFileInfo nFile info) extents where
  apart := marked.apart
  below := marked.below.mono fun extent _ => by
    rcases eq_or_ne extent.space nFile with same | other
    · rw [same, recorded_write]
      exact grows
    · rw [recorded_write_of_ne other]
  cached := by
    change size ((files.writeBlockFileInfo nFile info).recorded files.nLastBlockFile) ≤ size files.infoLastBlockFile
    rcases eq_or_ne files.nLastBlockFile nFile with same | other
    · rw [same, recorded_write]
      exact last same.symm
    · rw [recorded_write_of_ne other]
      exact marked.cached

theorem cons (marked : Marked size files extents) {extent : Extent ℕ} (fresh : ∀ other ∈ extents, extent.Apart other)
    (ends : extent.first + extent.size ≤ size (files.recorded extent.space)) :
    Marked size files (extent :: extents) where
  apart := List.pairwise_cons.mpr ⟨fresh, marked.apart⟩
  below := marked.below.cons ends
  cached := marked.cached

/-- A size that adding the block does not shrink protects what it protected before the call. -/
theorem findBlockPos (marked : Marked size files extents)
    (grows : ∀ settled, files.settle rounds pos nAddSize fKnown = some settled →
      size settled.infoLastBlockFile ≤ size (settled.addBlock nAddSize nHeight nTime).infoLastBlockFile) :
    Marked size (findBlockPos disk rounds pos nAddSize nHeight nTime fKnown files).2 extents := by
  obtain ran | ⟨settled, found, ⟨failure, ran⟩ | ⟨lastBlockFile, ran⟩⟩ := findBlockPos_cases files <;> rw [ran]
  · exact marked
  · exact (marked.settle found).cache (grows settled found)
  · have added := (marked.settle found).cache (grows settled found)
    have written := added.write added.cached fun _ => le_rfl
    exact ⟨written.apart, written.below, written.cached⟩

theorem cacheGrown (marked : Marked size files extents)
    (grows : size (files.infoOf nFile) ≤ size (withUndo (files.infoOf nFile) nAddSize)) :
    Marked size (files.cacheGrown nFile nAddSize) extents := by
  unfold BlockFiles.cacheGrown
  split
  next last =>
    apply marked.cache
    rwa [last, infoOf_last] at grows ⊢
  next => exact marked

/-- The same for undo data. -/
theorem findUndoPos (marked : Marked size files extents)
    (grows : size (files.infoOf nFile) ≤ size (withUndo (files.infoOf nFile) nAddSize)) :
    Marked size (findUndoPos disk nFile nAddSize files).2 extents := by
  have written : Marked size ((files.cacheGrown nFile nAddSize).writeBlockFileInfo nFile
      (withUndo (files.infoOf nFile) nAddSize)) extents := by
    apply (marked.cacheGrown grows).write
    · refine le_trans ?_ ((marked.recorded_le nFile).trans grows)
      unfold BlockFiles.cacheGrown
      split <;> exact le_rfl
    · unfold BlockFiles.cacheGrown
      split
      next => exact fun _ => le_rfl
      next other => exact fun last => absurd last other
  obtain ⟨failure, ran⟩ | ⟨failure, ran⟩ | ⟨failure, ran⟩ | ran := findUndoPos_cases files <;> rw [ran]
  · exact marked
  · exact marked.cacheGrown grows
  · exact written
  · exact written

end Marked

end BitCrystal.BlockFiles
