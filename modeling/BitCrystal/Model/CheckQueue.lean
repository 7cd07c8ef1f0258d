import Mathlib.Data.Fintype.Option

/-! # The queue of script checks

One thread, the master, adds checks and then joins the workers in `Loop` until all checks are done. A
critical section is one step, up to a wait, a return or the end of the section, and from a wait on; a
check is executed outside. Waiting threads may wake up without a notification. Counters are natural
numbers, since there are never 2³¹ threads or 2³² pending checks, and nothing ever sets `fQuit`.
-/

namespace BitCrystal

/-- The members of `CCheckQueue`; the head of `queue` is the back of the vector. -/
structure CCheckQueue (T : Type) where
  queue : List T := []
  nIdle : ℕ := 0
  nTotal : ℕ := 0
  fAllOk : Bool := true
  nTodo : ℕ := 0
  fQuit : Bool := false
  nBatchSize : ℕ
deriving DecidableEq, Repr

/-- Where a thread is in `Loop`, with its local variables; `vChecks` is what is left of its batch. -/
inductive LoopState (T : Type)
  | outside
  | waiting (notified : Bool)
  | working (nNow : ℕ) (fOk : Bool) (vChecks : List T)
deriving DecidableEq, Repr

namespace LoopState

variable {T : Type}

/-- The effect of a notification on the thread that receives it. -/
def notify : LoopState T → LoopState T
  | waiting _ => waiting true
  | state => state

def isOutside : LoopState T → Bool
  | outside => true
  | _ => false

/-- The thread waits and has not been notified. -/
def isBlocked : LoopState T → Bool
  | waiting false => true
  | _ => false

end LoopState

namespace CCheckQueue

variable {T : Type} (q : CCheckQueue T)

/-- How many work units to process now. -/
def batchSize : ℕ := max 1 (min q.nBatchSize (q.queue.length / (q.nTotal + q.nIdle + 1)))

/-- What a critical section leaves: the queue, the thread behind it, and what `Loop` returned. -/
structure Section (T : Type) where
  queue : CCheckQueue T
  thread : LoopState T
  fRet : Option Bool

/-- The critical section of `Loop` from `while (queue.empty())` on. -/
def proceed (fMaster : Bool) : Section T :=
  if q.queue.isEmpty then
    if (fMaster ∨ q.fQuit) ∧ q.nTodo = 0 then
      ⟨{ q with nTotal := q.nTotal - 1, fAllOk := if fMaster then true else q.fAllOk }, .outside, some q.fAllOk⟩
    else ⟨{ q with nIdle := q.nIdle + 1 }, .waiting false, none⟩
  else
    ⟨{ q with queue := q.queue.drop q.batchSize }, .working q.batchSize q.fAllOk (q.queue.take q.batchSize), none⟩

/-- The first iteration. -/
def enter (fMaster : Bool) : Section T := proceed { q with nTotal := q.nTotal + 1 } fMaster

/-- After the wait. -/
def wake (fMaster : Bool) : Section T := proceed { q with nIdle := q.nIdle - 1 } fMaster

/-- The clean-up of the previous loop run. -/
def cleanUp (nNow : ℕ) (fOk : Bool) : CCheckQueue T :=
  { q with fAllOk := q.fAllOk && fOk, nTodo := q.nTodo - nNow }

def report (fMaster : Bool) (nNow : ℕ) (fOk : Bool) : Section T := proceed (q.cleanUp nNow fOk) fMaster

/-- The critical section of `Add`. -/
def add (vChecks : List T) : CCheckQueue T :=
  { q with queue := vChecks.reverse ++ q.queue, nTodo := q.nTodo + vChecks.length }

/-- What the constructor of `CCheckQueueControl` asserts. -/
def isUnused : Prop := q.nTotal = q.nIdle ∧ q.nTodo = 0 ∧ q.fAllOk = true

instance : Decidable q.isUnused := inferInstanceAs (Decidable (_ ∧ _))

end CCheckQueue

/-- The queue and its threads; `none` is the master. -/
structure CheckPool (ι T : Type) where
  shared : CCheckQueue T
  thread : Option ι → LoopState T

/-- The step of a thread. `Add` names the worker that `notify_one` reaches. -/
inductive QueueStep (ι T : Type)
  | add (vChecks : List T) (woken : Option ι)
  | enter (t : Option ι)
  | wake (t : Option ι)
  | execute (t : Option ι)
  | report (t : Option ι)
deriving DecidableEq, Repr

/-- What a step shows: checks that are added, executed or passed by, and the result of `Wait`. -/
inductive QueueEvent (T : Type)
  | added (vChecks : List T)
  | ran (check : T)
  | skipped (check : T)
  | returned (fRet : Bool)
  | internal
deriving DecidableEq, Repr

namespace CheckPool

variable {ι T : Type}

def init (nBatchSizeIn : ℕ) : CheckPool ι T := ⟨{ nBatchSize := nBatchSizeIn }, fun _ => .outside⟩

variable (pool : CheckPool ι T)

/-- `condWorker.notify_all()`. -/
def notifyWorkers : CheckPool ι T where
  shared := pool.shared
  thread
    | none => pool.thread none
    | some k => (pool.thread (some k)).notify

/-- The worker is one that `notify_one` can reach. -/
def canWake : Option ι → Prop
  | none => ∀ k, ¬ (pool.thread (some k)).isBlocked
  | some k => (pool.thread (some k)).isBlocked

instance [Fintype ι] : (woken : Option ι) → Decidable (pool.canWake woken)
  | none => inferInstanceAs (Decidable (∀ k, ¬ (pool.thread (some k)).isBlocked))
  | some k => inferInstanceAs (Decidable ((pool.thread (some k)).isBlocked = true))

variable [DecidableEq ι]

/-- `condWorker.notify_one()` reaches one of the workers that wait for it. -/
def notifyWorker : Option ι → CheckPool ι T
  | none => pool
  | some k => { pool with thread := Function.update pool.thread (some k) (pool.thread (some k)).notify }

/-- The notification of `Add` for a number of checks. -/
def notifyFor (size : ℕ) (woken : Option ι) : CheckPool ι T :=
  if size = 1 then pool.notifyWorker woken else if 1 < size then pool.notifyWorkers else pool

/-- `condMaster.notify_one()`. -/
def notifyMaster : CheckPool ι T := { pool with thread := Function.update pool.thread none (pool.thread none).notify }

/-- Install what a critical section of a thread leaves. -/
def install (t : Option ι) (left : CCheckQueue.Section T) : QueueEvent T × CheckPool ι T :=
  (match t, left.fRet with
    | none, some fRet => .returned fRet
    | _, _ => .internal,
    ⟨left.queue, Function.update pool.thread t left.thread⟩)

/-- The steps that a pool allows, with what they show. -/
def step [Fintype ι] (check : T → Bool) : QueueStep ι T → Option (QueueEvent T × CheckPool ι T)
  | .add vChecks woken =>
    if (pool.thread none).isOutside ∧ pool.canWake woken then
      some (.added vChecks, notifyFor { pool with shared := pool.shared.add vChecks } vChecks.length woken)
    else none
  | .enter t =>
    match pool.thread t with
    | .outside => some (pool.install t (pool.shared.enter t.isNone))
    | _ => none
  | .wake t =>
    match pool.thread t with
    | .waiting _ => some (pool.install t (pool.shared.wake t.isNone))
    | _ => none
  | .execute t =>
    match pool.thread t with
    | .working nNow fOk (c :: vChecks) =>
      some (if fOk then .ran c else .skipped c,
        { pool with thread := Function.update pool.thread t (.working nNow (fOk && check c) vChecks) })
    | _ => none
  | .report t =>
    match pool.thread t with
    | .working nNow fOk [] =>
      let left := pool.shared.report t.isNone nNow fOk
      some (if (pool.shared.cleanUp nNow fOk).nTodo = 0 ∧ t.isSome then pool.notifyMaster.install t left
        else pool.install t left)
    | _ => none

end CheckPool

end BitCrystal
