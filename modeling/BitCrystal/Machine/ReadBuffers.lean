import Mathlib.Data.List.Basic
import Mathlib.Data.List.GetD
import Mathlib.Data.Nat.ModEq

/-! # Buffers that are read from

What has been read stays in a buffer for some time and can be read again: in a queue with a position, and in a ring.
-/

/-! ## Queues that can be rewound

A queue, and those of the elements taken last that can still be brought back. Taking everything gives up what could be
brought back; putting in front first fills the places of what has been taken, as far as they suffice.
-/

/-- What can be brought back, the last taken at the end, and what is in the queue. -/
structure RewindQueue (α : Type*) where
  before : List α
  queue : List α
deriving DecidableEq

namespace RewindQueue

variable {α : Type*} (q : RewindQueue α)

def ofList (queue : List α) : RewindQueue α := ⟨[], queue⟩

def put (l : List α) : RewindQueue α := ⟨q.before, q.queue ++ l⟩

/-- Take the first `n`, if there are as many. -/
def take (n : ℕ) : RewindQueue α :=
  ⟨if n = q.queue.length then [] else q.before ++ q.queue.take n, q.queue.drop n⟩

/-- Insert in front of everything. -/
def insert (l : List α) : RewindQueue α := ⟨q.before, l ++ q.queue⟩

/-- Put in front, in the places of what has been taken. -/
def putFront (l : List α) : RewindQueue α :=
  ⟨if l.length ≤ q.before.length then q.before.take (q.before.length - l.length) else q.before, l ++ q.queue⟩

/-- Bring back the last `n`, if there are as many. -/
def rewind (n : ℕ) : RewindQueue α :=
  ⟨q.before.take (q.before.length - n), q.before.drop (q.before.length - n) ++ q.queue⟩

def compact : RewindQueue α := ⟨[], q.queue⟩

/-- What has just been taken can be put back. -/
theorem putFront_take (n : ℕ) : ((q.take n).putFront (q.queue.take n)).queue = q.queue := List.take_append_drop n q.queue

end RewindQueue

/-! ## Ring buffers

The last elements of a stream that has been read up to a position, each in the cell of its position modulo the number
of cells. What is read next replaces what is too old.
-/

namespace RingBuffer

variable {α : Type*} {cells stream : List α} {lo hi : ℕ}

/-- The positions from `lo` up to `hi` that are not too old have their elements in the cells. -/
def Holds (cells stream : List α) (lo hi : ℕ) : Prop :=
  ∀ p, lo ≤ p → p < hi → hi ≤ p + cells.length → cells[p % cells.length]? = stream[p]?

def overwrite (cells : List α) (pos : ℕ) (source : List α) : List α :=
  cells.take pos ++ source ++ cells.drop (pos + source.length)

variable {pos : ℕ} {source : List α} {p n : ℕ}

theorem length_overwrite (fits : pos + source.length ≤ cells.length) :
    (overwrite cells pos source).length = cells.length := by
  simp only [overwrite, List.length_append, List.length_take, List.length_drop]
  omega

theorem overwrite_inside {j : ℕ} (fits : pos + source.length ≤ cells.length)
    (inside : j < source.length) : (overwrite cells pos source)[pos + j]? = source[j]? := by
  have start : (cells.take pos).length = pos := List.length_take_of_le (by omega)
  rw [overwrite, List.append_assoc, List.getElem?_append_right (by omega), start, Nat.add_sub_cancel_left,
    List.getElem?_append_left inside]

theorem overwrite_outside {i : ℕ} (fits : pos + source.length ≤ cells.length)
    (outside : i < pos ∨ pos + source.length ≤ i) : (overwrite cells pos source)[i]? = cells[i]? := by
  have start : (cells.take pos).length = pos := List.length_take_of_le (by omega)
  have front : (cells.take pos ++ source).length = pos + source.length := by rw [List.length_append, start]
  rcases outside with before | behind
  · rw [overwrite, List.append_assoc, List.getElem?_append_left (by omega), List.getElem?_take_of_lt before]
  · rw [overwrite, List.getElem?_append_right (by omega), front, List.getElem?_drop]
    congr 1
    omega

/-- Positions less than a turn apart have different cells. -/
theorem mod_ne {q : ℕ} (less : p < q) (near : q < p + n) : p % n ≠ q % n := by
  intro same
  have divides : n ∣ q - p := (Nat.modEq_iff_dvd' less.le).mp same
  have := Nat.le_of_dvd (by omega) divides
  omega

theorem mod_add {j : ℕ} (inside : p % n + j < n) : (p + j) % n = p % n + j := by
  rw [← Nat.mod_add_mod, Nat.mod_eq_of_lt inside]

theorem holds_nothing (cells stream : List α) (lo : ℕ) : Holds cells stream lo lo := by
  intro p above below
  omega

/-- Reading on keeps what is not too old. -/
theorem Holds.extend (holds : Holds cells stream lo hi) (read : ((stream.drop hi).take n).length = n)
    (fits : hi % cells.length + n ≤ cells.length) :
    Holds (overwrite cells (hi % cells.length) ((stream.drop hi).take n)) stream lo (hi + n) := by
  have inside : hi % cells.length + ((stream.drop hi).take n).length ≤ cells.length := by rwa [read]
  intro p above below young
  rw [length_overwrite inside] at young ⊢
  rcases Nat.lt_or_ge p hi with old | new
  · rw [overwrite_outside inside]
    · exact holds p above old (by omega)
    · -- the cell of a position that has just been read is not that of an older one
      rw [read]
      by_contra both
      have cell : (hi + (p % cells.length - hi % cells.length)) % cells.length = p % cells.length := by
        rw [mod_add (by omega)]
        omega
      exact mod_ne (by omega) (by omega) cell.symm
  · obtain ⟨j, rfl⟩ := Nat.exists_eq_add_of_le new
    rw [mod_add (by omega), overwrite_inside inside (by omega), List.getElem?_take_of_lt (by omega), List.getElem?_drop]

/-- A part of the cells that does not wrap is a part of the stream. -/
theorem Holds.slice (holds : Holds cells stream lo hi) (above : lo ≤ p) (below : p + n ≤ hi)
    (young : hi ≤ p + cells.length) (fits : p % cells.length + n ≤ cells.length) :
    (cells.drop (p % cells.length)).take n = (stream.drop p).take n := by
  apply List.ext_getElem?
  intro j
  rcases Nat.lt_or_ge j n with inside | outside
  · have cell := holds (p + j) (by omega) (by omega) (by omega)
    rw [mod_add (by omega)] at cell
    rw [List.getElem?_take_of_lt inside, List.getElem?_take_of_lt inside, List.getElem?_drop, List.getElem?_drop, cell]
  · rw [List.getElem?_take_eq_none outside, List.getElem?_take_eq_none outside]

end RingBuffer
