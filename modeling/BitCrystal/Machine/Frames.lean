import Mathlib.Order.CompletePartialOrder
import Mathlib.Order.Interval.Set.Disjoint
import Mathlib.Order.Lattice.Nat

/-! # Ranges and frames

Ranges that are handed out in a numbered space, and frames that follow each other in a stream.
-/

/-! ## Ranges in numbered spaces

Positions are handed out as ranges, each in one of several spaces. As long as every range ends at or
below a mark of its space, a range that starts at the mark is apart from all of them.
-/

structure Extent (ι : Type) where
  space : ι
  first : ℕ
  size : ℕ
deriving DecidableEq, Repr

namespace Extent

variable {ι : Type}

def positions (extent : Extent ι) : Set ℕ := Set.Ico extent.first (extent.first + extent.size)

/-- The two ranges share no position of a space. -/
def Apart (a b : Extent ι) : Prop := a.space = b.space → Disjoint a.positions b.positions

/-- Every range ends at or below the mark of its space. -/
def Below (mark : ι → ℕ) (extents : List (Extent ι)) : Prop :=
  ∀ extent ∈ extents, extent.first + extent.size ≤ mark extent.space

variable {a b extent : Extent ι} {mark mark' : ι → ℕ} {extents : List (Extent ι)}

theorem apart_of_le (after : b.first + b.size ≤ a.first) : a.Apart b := by
  intro _
  refine (Set.Ico_disjoint_Ico.mpr ?_).symm
  exact (min_le_left _ _).trans (after.trans (le_max_right _ _))

instance (a : Extent ι) (position : ℕ) : Decidable (position ∈ a.positions) :=
  inferInstanceAs (Decidable (_ ∧ _))

/-- Ranges that are apart have no position in common. -/
theorem not_pairwise_apart (both : [a, b].Sublist extents) (same : a.space = b.space) (position : ℕ)
    (left : position ∈ a.positions) (right : position ∈ b.positions) : ¬ extents.Pairwise Apart := fun apart =>
  Set.disjoint_left.mp (List.pairwise_iff_forall_sublist.mp apart both same) left right

theorem below_nil (mark : ι → ℕ) : Below mark [] := fun _ member => absurd member List.not_mem_nil

theorem Below.mono (below : Below mark extents)
    (grows : ∀ extent ∈ extents, mark extent.space ≤ mark' extent.space) : Below mark' extents :=
  fun extent member => (below extent member).trans (grows extent member)

theorem Below.cons (below : Below mark extents) (ends : extent.first + extent.size ≤ mark extent.space) :
    Below mark (extent :: extents) := by
  intro other member
  rcases List.mem_cons.mp member with rfl | earlier
  · exact ends
  · exact below other earlier

/-- A range that starts at the mark of its space is apart from the earlier ones. -/
theorem Below.apart (below : Below mark extents) (starts : mark extent.space ≤ extent.first) :
    ∀ other ∈ extents, extent.Apart other := by
  intro other member same
  exact apart_of_le ((below other member).trans (same ▸ starts)) same

end Extent

/-! ## Streams of frames

A frame tells its own end: no frame is empty and none begins another one. A stream is a sequence of frames
and a rest that begins with none of them, in exactly one way. Removing a frame wherever it stands in the
sequence leaves the other frames and the rest as they are.
-/

namespace Frames

variable {α : Type*} {Frame : List α → Prop}

/-- No frame is empty, and no frame begins another. -/
structure PrefixFree (Frame : List α → Prop) : Prop where
  nonempty : ¬ Frame []
  eq_of_prefix : ∀ {first second : List α}, Frame first → Frame second → first <+: second → first = second

/-- The stream is these frames and a rest that begins with none. -/
structure Framed (Frame : List α → Prop) (stream : List α) (frames : List (List α)) (rest : List α) : Prop where
  stream_eq : stream = frames.flatten ++ rest
  frames : ∀ frame ∈ frames, Frame frame
  rest : ∀ frame, Frame frame → ¬ frame <+: rest

/-- Two frames at the front of a stream are the same. -/
theorem PrefixFree.unique (free : PrefixFree Frame) {first second behind after : List α} (one : Frame first)
    (other : Frame second) (same : first ++ behind = second ++ after) : first = second ∧ behind = after := by
  have front : first = second := by
    have left : first <+: second ++ after := same ▸ List.prefix_append ..
    rcases List.prefix_or_prefix_of_prefix left (List.prefix_append second after) with short | long
    · exact free.eq_of_prefix one other short
    · exact (free.eq_of_prefix other one long).symm
  subst front
  exact ⟨rfl, List.append_cancel_left same⟩

theorem PrefixFree.prefix_append_iff (free : PrefixFree Frame) {first second rest : List α} (one : Frame first)
    (other : Frame second) : first <+: second ++ rest ↔ first = second := by
  constructor
  · rintro ⟨behind, same⟩
    exact (free.unique one other same).1
  · rintro rfl
    exact List.prefix_append ..

/-- A stream is read in one way only. -/
theorem Framed.unique (free : PrefixFree Frame) {stream rest other : List α} {frames others : List (List α)}
    (framed : Framed Frame stream frames rest) (again : Framed Frame stream others other) :
    frames = others ∧ rest = other := by
  induction frames generalizing stream others with
  | nil =>
    cases others with
    | nil => exact ⟨rfl, framed.stream_eq.symm.trans again.stream_eq⟩
    | cons frame others =>
      have start : frame <+: rest := by
        rw [← List.nil_append rest, ← List.flatten_nil, ← framed.stream_eq, again.stream_eq, List.flatten_cons,
          List.append_assoc]
        exact List.prefix_append ..
      exact absurd start (framed.rest frame (again.frames frame List.mem_cons_self))
  | cons frame frames ih =>
    have here := framed.frames frame List.mem_cons_self
    have start : stream = frame ++ (frames.flatten ++ rest) := by
      rw [framed.stream_eq, List.flatten_cons, List.append_assoc]
    cases others with
    | nil =>
      have inside : frame <+: other := by
        rw [← List.nil_append other, ← List.flatten_nil, ← again.stream_eq, start]
        exact List.prefix_append ..
      exact absurd inside (again.rest frame here)
    | cons second others =>
      have same : frame ++ (frames.flatten ++ rest) = second ++ (others.flatten ++ other) := by
        rw [← start, again.stream_eq, List.flatten_cons, List.append_assoc]
      obtain ⟨rfl, left⟩ := free.unique here (again.frames second List.mem_cons_self) same
      have first : Framed Frame (frames.flatten ++ rest) frames rest :=
        ⟨rfl, fun f member => framed.frames f (List.mem_cons_of_mem _ member), framed.rest⟩
      have last : Framed Frame (frames.flatten ++ rest) others other :=
        ⟨left, fun f member => again.frames f (List.mem_cons_of_mem _ member), again.rest⟩
      obtain ⟨rfl, rfl⟩ := ih first last
      exact ⟨rfl, rfl⟩

/-- Frames read from the beginning of a sequence of frames are the first of them. -/
theorem Framed.of_prefix (free : PrefixFree Frame) {stream rest : List α} {frames sent : List (List α)}
    (framed : Framed Frame stream frames rest) (all : ∀ frame ∈ sent, Frame frame) (inside : stream <+: sent.flatten) :
    ∃ later, sent = frames ++ later ∧ rest <+: later.flatten := by
  induction frames generalizing stream sent with
  | nil =>
    rw [framed.stream_eq] at inside
    exact ⟨sent, rfl, inside⟩
  | cons frame frames ih =>
    have here := framed.frames frame List.mem_cons_self
    have start := framed.stream_eq
    rw [List.flatten_cons, List.append_assoc] at start
    obtain ⟨more, same⟩ := inside
    rw [start, List.append_assoc] at same
    cases sent with
    | nil => exact absurd ((List.append_eq_nil_iff.mp same).1 ▸ here) free.nonempty
    | cons second sent =>
      obtain ⟨rfl, left⟩ := free.unique here (all second List.mem_cons_self) same
      have tail : Framed Frame (frames.flatten ++ rest) frames rest :=
        ⟨rfl, fun f member => framed.frames f (List.mem_cons_of_mem _ member), framed.rest⟩
      obtain ⟨later, rfl, behind⟩ := ih tail (fun f member => all f (List.mem_cons_of_mem _ member)) ⟨more, left⟩
      exact ⟨later, rfl, behind⟩

end Frames
