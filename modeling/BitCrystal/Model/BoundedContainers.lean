import BitCrystal.Machine.OrderedMap
import BitCrystal.Model.Validation
import Mathlib.Data.Finset.Basic
import Mathlib.Data.List.Sort

/-! # Containers of bounded size

`limitedmap` is to keep the elements with the highest values, `mruset` the most recent ones. A map from a container that
is indexed to its index is a list in the order of the index.
-/

namespace BitCrystal

/-- An iterator of `map` is the key of its element. -/
structure LimitedMap (K V : Type) [LinearOrder K] where
  map : OrderedMap K V := ∅
  /-- A `multimap`, in the order of its keys; equal keys are in the order of their insertion. -/
  rmap : List (V × K) := []
  nMaxSize : ℕ

namespace LimitedMap

variable {K V : Type} [LinearOrder V]

/-- `rmap.insert`. -/
def rmapInsert (entry : V × K) (rmap : List (V × K)) : List (V × K) :=
  rmap.orderedInsert (fun a b => a.1 < b.1) entry

variable [LinearOrder K] (m : LimitedMap K V)

/-- `map.erase(rmap.begin()->second)` and `rmap.erase(rmap.begin())`. -/
def eraseLowest : Check (LimitedMap K V) :=
  match m.rmap with
  | [] => .error .undefined
  | lowest :: rmap => .ok { m with map := m.map.erase lowest.2, rmap }

def insert (x : K × V) : Check (LimitedMap K V) :=
  match m.map.find? x.1 with
  | some _ => .ok m
  | none => do
    let m := { m with map := m.map.insert x.1 x.2 }
    let m ← if m.nMaxSize ≠ 0 ∧ m.map.size = m.nMaxSize then m.eraseLowest else .ok m
    return { m with rmap := rmapInsert (x.2, x.1) m.rmap }

def erase (k : K) : Check (LimitedMap K V) :=
  match m.map.find? k with
  | none => .ok m
  | some value =>
    -- the iterator is looked for in the equal range of the value
    if (value, k) ∈ m.rmap then .ok { m with rmap := m.rmap.erase (value, k), map := m.map.erase k }
    else .error (.assertion "0")

/-- The argument is the key of the iterator. -/
def update (k : K) (v : V) : Check (LimitedMap K V) :=
  match m.map.find? k with
  | none => .ok m
  | some value =>
    if (value, k) ∈ m.rmap then
      .ok { m with rmap := rmapInsert (v, k) (m.rmap.erase (value, k)), map := m.map.insert k v }
    else .error (.assertion "0")

/-- The loop of `max_size`, with a bound on its rounds. -/
def shrink (s : ℕ) : ℕ → LimitedMap K V → Check (LimitedMap K V)
  | rounds, m =>
    if s < m.map.size then
      match rounds with
      | 0 => .error .diverges
      | rounds + 1 => do
        let m ← m.eraseLowest
        shrink s rounds m
    else .ok m

def maxSize (s : ℕ) : Check (LimitedMap K V) := do
  let m ← if s ≠ 0 then shrink s m.map.size m else .ok m
  return { m with nMaxSize := s }

end LimitedMap

structure MruSet (T : Type) where
  set : Finset T := ∅
  queue : List T := []
  nMaxSize : ℕ

namespace MruSet

variable {T : Type} [DecidableEq T] (m : MruSet T)

/-- `set.erase(queue.front())` and `queue.pop_front()`. -/
def eraseFront : Check (MruSet T) :=
  match m.queue with
  | [] => .error .undefined
  | front :: queue => .ok { m with set := m.set.erase front, queue }

/-- `insert`, with the flag it returns. -/
def insert (x : T) : Check (Bool × MruSet T) :=
  if x ∈ m.set then .ok (false, m)
  else do
    let m := { m with set := Insert.insert x m.set }
    let m ← if m.nMaxSize ≠ 0 ∧ m.queue.length = m.nMaxSize then m.eraseFront else .ok m
    return (true, { m with queue := m.queue ++ [x] })

/-- The loop of `max_size`, with a bound on its rounds. -/
def shrink (s : ℕ) : ℕ → MruSet T → Check (MruSet T)
  | rounds, m =>
    if s < m.queue.length then
      match rounds with
      | 0 => .error .diverges
      | rounds + 1 => do
        let m ← m.eraseFront
        shrink s rounds m
    else .ok m

def maxSize (s : ℕ) : Check (MruSet T) := do
  let m ← if s ≠ 0 then shrink s m.queue.length m else .ok m
  return { m with nMaxSize := s }

end MruSet

end BitCrystal
