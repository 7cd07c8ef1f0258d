import BitCrystal.Machine.Buckets
import BitCrystal.Model.CheckQueue
import Mathlib.Tactic.Abel

/-! # The invariant of the check queue

Each counter is the sum of what the threads contribute to it. A critical section is a clean-up, after
which the thread is inside without a batch, and a second part that starts from there.
-/

namespace BitCrystal

open Census Function

namespace LoopState

variable {T : Type}

def idle : LoopState T → ℕ
  | waiting _ => 1
  | _ => 0

def inside : LoopState T → ℕ
  | outside => 0
  | _ => 1

/-- The checks the thread has taken and not reported. -/
def held : LoopState T → ℕ
  | working nNow _ _ => nNow
  | _ => 0

/-- The checks the thread has taken and not executed. -/
def pending : LoopState T → Multiset T
  | working _ _ vChecks => vChecks
  | _ => 0

/-- The thread has a failure to report, or has taken its batch after one. -/
def failing : LoopState T → Bool
  | working _ fOk _ => !fOk
  | _ => false

/-- In a critical section, between the clean-up and the rest. -/
def locked : LoopState T := working 0 true []

/-- A thread that works has something to report. -/
def Busy (state : LoopState T) : Prop := ∀ nNow fOk vChecks, state = working nNow fOk vChecks → 0 < nNow

theorem notify_eq (state : LoopState T) : state.notify = state ∨ ∃ b, state = waiting b ∧ state.notify = waiting true := by
  cases state with
  | outside => exact .inl rfl
  | waiting notified => exact .inr ⟨notified, rfl, rfl⟩
  | working nNow fOk vChecks => exact .inl rfl

end LoopState

/-! ## What a trace says; the last event comes first -/

namespace QueueEvent

variable {T : Type}

def isReturn : QueueEvent T → Bool
  | returned _ => true
  | _ => false

def addedChecks : QueueEvent T → Multiset T
  | added vChecks => vChecks
  | _ => 0

def ranChecks : QueueEvent T → Multiset T
  | ran check => {check}
  | _ => 0

def skippedChecks : QueueEvent T → Multiset T
  | skipped check => {check}
  | _ => 0

/-- The events since `Wait` last returned. -/
def session (trace : List (QueueEvent T)) : List (QueueEvent T) := trace.takeWhile fun event => !event.isReturn

def addedIn (events : List (QueueEvent T)) : Multiset T := (events.map addedChecks).sum

def ranIn (events : List (QueueEvent T)) : Multiset T := (events.map ranChecks).sum

def skippedIn (events : List (QueueEvent T)) : Multiset T := (events.map skippedChecks).sum

/-- A check has been executed and has failed. -/
def Failed (check : T → Bool) (events : List (QueueEvent T)) : Prop := ∃ c, .ran c ∈ events ∧ check c = false

theorem session_cons {event : QueueEvent T} (inside : event.isReturn = false) (trace : List (QueueEvent T)) :
    session (event :: trace) = event :: session trace := by
  rw [session, List.takeWhile_cons_of_pos (by rw [inside]; rfl), session]

theorem failed_cons {check : T → Bool} {event : QueueEvent T} {events : List (QueueEvent T)} :
    Failed check (event :: events) ↔ (∃ c, .ran c = event ∧ check c = false) ∨ Failed check events := by
  simp only [Failed, List.mem_cons, or_and_right, exists_or]

/-- Every check passed by comes after a failure. -/
def SkipsAfterFailure (check : T → Bool) (events : List (QueueEvent T)) : Prop :=
  ∀ after c before, events = after ++ .skipped c :: before → Failed check before

theorem SkipsAfterFailure.cons {check : T → Bool} {event : QueueEvent T} {events : List (QueueEvent T)}
    (skips : SkipsAfterFailure check events) (head : ∀ c, event = .skipped c → Failed check events) :
    SkipsAfterFailure check (event :: events) := by
  rintro (_ | ⟨first, after⟩) c before same
  · cases same
    exact head c rfl
  · exact skips after c before (List.cons.inj same).2

end QueueEvent

open QueueEvent

namespace CheckPool

variable {ι T : Type} [Fintype ι] [DecidableEq ι]

/-- The counters agree with the threads and the trace. -/
structure Consistent (check : T → Bool) (pool : CheckPool ι T) (events : List (QueueEvent T)) : Prop where
  quit : pool.shared.fQuit = false
  idle : pool.shared.nIdle = census LoopState.idle pool.thread
  total : pool.shared.nTotal = census LoopState.inside pool.thread
  todo : pool.shared.nTodo = pool.shared.queue.length + census LoopState.held pool.thread
  accounted : addedIn events =
    (pool.shared.queue : Multiset T) + census LoopState.pending pool.thread + (ranIn events + skippedIn events)
  atMost : pool.shared.nTodo ≤ (addedIn events).card
  recorded : Failed check events ↔ pool.shared.fAllOk = false ∨ ∃ t, (pool.thread t).failing = true
  skips : SkipsAfterFailure check events

/-- The invariant between critical sections. -/
structure Settled (check : T → Bool) (pool : CheckPool ι T) (events : List (QueueEvent T)) : Prop
    extends Consistent check pool events where
  busy : ∀ t, (pool.thread t).Busy
  blocked : (pool.thread none).isBlocked = true → pool.shared.nTodo ≠ 0
  drained : ∀ b, pool.thread none = .waiting b → pool.shared.queue = []

variable {check : T → Bool} {q q' : CCheckQueue T} {thread : Option ι → LoopState T} {events : List (QueueEvent T)}

/-- One thread changes its state and the queue, and what it contributes changes with the counters. -/
structure Exchange (q q' : CCheckQueue T) (s s' : LoopState T) : Prop where
  quit : q'.fQuit = q.fQuit
  idle : q'.nIdle + s.idle = q.nIdle + s'.idle
  total : q'.nTotal + s.inside = q.nTotal + s'.inside
  todo : q'.nTodo + (q.queue.length + s.held) = q.nTodo + (q'.queue.length + s'.held)
  pending : (q'.queue : Multiset T) + s'.pending = q.queue + s.pending
  atMost : q'.nTodo ≤ q.nTodo
  recorded : q'.fAllOk = false ∨ s'.failing = true ↔ q.fAllOk = false ∨ s.failing = true

omit [Fintype ι] in
theorem failing_update {t : Option ι} {s : LoopState T} :
    (∃ i, (Function.update thread t s i).failing = true) ↔
      s.failing = true ∨ ∃ i, i ≠ t ∧ (thread i).failing = true := by
  constructor
  · rintro ⟨i, failing⟩
    rcases eq_or_ne i t with rfl | other
    · rw [update_self] at failing
      exact .inl failing
    · rw [update_of_ne other] at failing
      exact .inr ⟨i, other, failing⟩
  · rintro (failing | ⟨i, other, failing⟩)
    · exact ⟨t, by rwa [update_self]⟩
    · exact ⟨i, by rwa [update_of_ne other]⟩

omit [Fintype ι] in
theorem failing_split (t : Option ι) :
    (∃ i, (thread i).failing = true) ↔ (thread t).failing = true ∨ ∃ i, i ≠ t ∧ (thread i).failing = true := by
  rw [← failing_update, update_eq_self]

theorem Consistent.exchange (consistent : Consistent check ⟨q, thread⟩ events) {t : Option ι} {s' : LoopState T}
    (exchange : Exchange q q' (thread t) s') : Consistent check ⟨q', Function.update thread t s'⟩ events where
  quit := exchange.quit.trans consistent.quit
  idle := by
    have sums := census_update LoopState.idle thread t s'
    have before := consistent.idle
    have change := exchange.idle
    simp only at before ⊢
    omega
  total := by
    have sums := census_update LoopState.inside thread t s'
    have before := consistent.total
    have change := exchange.total
    simp only at before ⊢
    omega
  todo := by
    have sums := census_update LoopState.held thread t s'
    have before := consistent.todo
    have change := exchange.todo
    simp only at before ⊢
    omega
  accounted := by
    have sums := census_update LoopState.pending thread t s'
    rw [consistent.accounted]
    congr 1
    apply add_right_cancel (b := (thread t).pending)
    calc (q.queue : Multiset T) + census LoopState.pending thread + (thread t).pending
        = q.queue + (thread t).pending + census LoopState.pending thread := by rw [add_right_comm]
      _ = q'.queue + (census LoopState.pending thread + s'.pending) := by
        rw [← exchange.pending, add_assoc, add_comm s'.pending]
      _ = q'.queue + census LoopState.pending (Function.update thread t s') + (thread t).pending := by
        rw [← sums, add_assoc]
  atMost := exchange.atMost.trans consistent.atMost
  recorded := by
    have before := consistent.recorded
    simp only at before ⊢
    rw [before, failing_update, failing_split t, ← or_assoc, ← or_assoc, exchange.recorded]
  skips := consistent.skips

omit [DecidableEq ι] in
theorem Consistent.internal {pool : CheckPool ι T} (consistent : Consistent check pool events) :
    Consistent check pool (.internal :: events) where
  quit := consistent.quit
  idle := consistent.idle
  total := consistent.total
  todo := consistent.todo
  accounted := by simpa [addedIn, ranIn, skippedIn, addedChecks, ranChecks, skippedChecks] using consistent.accounted
  atMost := by simpa [addedIn, addedChecks] using consistent.atMost
  recorded := by simpa [failed_cons] using consistent.recorded
  skips := consistent.skips.cons nofun

theorem exchange_enter : Exchange q { q with nTotal := q.nTotal + 1 } .outside .locked :=
  ⟨rfl, rfl, rfl, rfl, rfl, le_rfl, by simp [LoopState.failing, LoopState.locked]⟩

theorem exchange_wake {b : Bool} (positive : 0 < q.nIdle) :
    Exchange q { q with nIdle := q.nIdle - 1 } (.waiting b) .locked :=
  ⟨rfl, Nat.sub_add_cancel positive, rfl, rfl, rfl, le_rfl, by simp [LoopState.failing, LoopState.locked]⟩

theorem exchange_cleanUp {nNow : ℕ} {fOk : Bool} (atMost : nNow ≤ q.nTodo) :
    Exchange q (q.cleanUp nNow fOk) (.working nNow fOk []) .locked where
  quit := rfl
  idle := rfl
  total := rfl
  todo := by
    simp only [CCheckQueue.cleanUp, LoopState.held, LoopState.locked]
    omega
  pending := rfl
  atMost := Nat.sub_le ..
  recorded := by
    simp only [CCheckQueue.cleanUp, LoopState.failing, LoopState.locked]
    cases q.fAllOk <;> cases fOk <;> simp

theorem exchange_return (positive : 0 < q.nTotal) :
    Exchange q { q with nTotal := q.nTotal - 1 } .locked .outside :=
  ⟨rfl, rfl, Nat.sub_add_cancel positive, rfl, rfl, le_rfl, by simp [LoopState.failing, LoopState.locked]⟩

theorem exchange_wait : Exchange q { q with nIdle := q.nIdle + 1 } .locked (.waiting false) :=
  ⟨rfl, rfl, rfl, rfl, rfl, le_rfl, by simp [LoopState.failing, LoopState.locked]⟩

theorem exchange_take {n : ℕ} (atMost : n ≤ q.queue.length) : Exchange q { q with queue := q.queue.drop n } .locked
    (.working n q.fAllOk (q.queue.take n)) where
  quit := rfl
  idle := rfl
  total := rfl
  todo := by
    simp only [LoopState.held, LoopState.locked, List.length_drop]
    omega
  pending := by
    simp only [LoopState.pending, LoopState.locked, Multiset.coe_nil, add_zero, Multiset.coe_add, Multiset.coe_eq_coe]
    exact List.perm_append_comm.trans (List.Perm.of_eq (List.take_append_drop ..))
  atMost := le_rfl
  recorded := by simp [LoopState.failing, LoopState.locked]

/-- The three ways to leave the second part: `Loop` returns, it waits, or it takes a batch. -/
theorem proceed_cases (q : CCheckQueue T) (fMaster : Bool) :
    (q.queue = [] ∧ (fMaster = true ∨ q.fQuit = true) ∧ q.nTodo = 0 ∧ q.proceed fMaster =
      ⟨{ q with nTotal := q.nTotal - 1, fAllOk := if fMaster then true else q.fAllOk }, .outside, some q.fAllOk⟩) ∨
    (q.queue = [] ∧ ¬ ((fMaster = true ∨ q.fQuit = true) ∧ q.nTodo = 0) ∧
      q.proceed fMaster = ⟨{ q with nIdle := q.nIdle + 1 }, .waiting false, none⟩) ∨
    ∃ n, 0 < n ∧ n ≤ q.queue.length ∧
      q.proceed fMaster = ⟨{ q with queue := q.queue.drop n }, .working n q.fAllOk (q.queue.take n), none⟩ := by
  rw [CCheckQueue.proceed]
  split
  next empty =>
    split
    next done => exact .inl ⟨List.isEmpty_iff.mp empty, done.1, done.2, rfl⟩
    next more => exact .inr (.inl ⟨List.isEmpty_iff.mp empty, more, rfl⟩)
  next empty =>
    refine .inr (.inr ⟨q.batchSize, Nat.le_max_left .., ?_, rfl⟩)
    have positive : 0 < q.queue.length := List.length_pos_iff.mpr fun nothing => empty (List.isEmpty_iff.mpr nothing)
    have share : q.queue.length / (q.nTotal + q.nIdle + 1) ≤ q.queue.length := Nat.div_le_self ..
    rw [CCheckQueue.batchSize]
    omega

end CheckPool

namespace QueueEvent

variable {T : Type} {check : T → Bool} {events : List (QueueEvent T)} {c : T}

private theorem mem_sum {f : QueueEvent T → Multiset T} : c ∈ (events.map f).sum ↔ ∃ event ∈ events, c ∈ f event := by
  induction events with
  | nil => simp
  | cons event events ih => simp [ih]

theorem mem_ranIn : c ∈ ranIn events ↔ .ran c ∈ events := by
  rw [ranIn, mem_sum]
  constructor
  · rintro ⟨event, member, inside⟩
    cases event <;> simp [ranChecks] at inside
    rwa [inside]
  · exact fun member => ⟨_, member, Multiset.mem_singleton_self c⟩

theorem mem_skippedIn : c ∈ skippedIn events ↔ .skipped c ∈ events := by
  rw [skippedIn, mem_sum]
  constructor
  · rintro ⟨event, member, inside⟩
    cases event <;> simp [skippedChecks] at inside
    rwa [inside]
  · exact fun member => ⟨_, member, Multiset.mem_singleton_self c⟩

/-- The result of `Wait` and the events it covers: each check has been executed or passed by, and the
result says whether all of them are true. -/
structure Covers (check : T → Bool) (fRet : Bool) (events : List (QueueEvent T)) : Prop where
  handled : addedIn events = ranIn events + skippedIn events
  result : fRet = true ↔ ∀ c ∈ addedIn events, check c = true

theorem covers_of_handled {fRet : Bool} (handled : addedIn events = ranIn events + skippedIn events)
    (skips : SkipsAfterFailure check events) (recorded : Failed check events ↔ fRet = false) :
    Covers check fRet events := by
  refine ⟨handled, ?_⟩
  rw [handled]
  constructor
  · intro ok c member
    have fine : ¬ Failed check events := fun failed => by
      rw [recorded.mp failed] at ok
      cases ok
    rcases Multiset.mem_add.mp member with ran | skipped
    · by_contra wrong
      exact fine ⟨c, mem_ranIn.mp ran, Bool.eq_false_iff.mpr wrong⟩
    · obtain ⟨after, before, split⟩ := List.append_of_mem (mem_skippedIn.mp skipped)
      obtain ⟨c', earlier, wrong⟩ := skips after c before split
      refine absurd ⟨c', ?_, wrong⟩ fine
      rw [split]
      exact List.mem_append_right _ (List.mem_cons_of_mem _ earlier)
  · intro fine
    by_contra wrong
    obtain ⟨c, ran, bad⟩ := recorded.mpr (Bool.eq_false_iff.mpr wrong)
    have good := fine c (Multiset.mem_add.mpr (.inl (mem_ranIn.mpr ran)))
    rw [bad] at good
    cases good

end QueueEvent

namespace CheckPool

variable {ι T : Type} [Fintype ι] {pool : CheckPool ι T} {events : List (QueueEvent T)}

/-- Nothing is left to do, so nobody works. -/
theorem Consistent.not_working {check : T → Bool}
    (consistent : Consistent check pool events) (busy : ∀ t, (pool.thread t).Busy) (zero : pool.shared.nTodo = 0)
    (t : Option ι) (nNow : ℕ) (fOk : Bool) (vChecks : List T) : pool.thread t ≠ .working nNow fOk vChecks := by
  intro working
  have positive := busy t nNow fOk vChecks working
  have part : (pool.thread t).held ≤ census LoopState.held pool.thread := le_census t
  rw [working, LoopState.held] at part
  have todo := consistent.todo
  omega

theorem Consistent.reset {check : T → Bool}
    (consistent : Consistent check pool events) (busy : ∀ t, (pool.thread t).Busy) (zero : pool.shared.nTodo = 0) :
    Covers check pool.shared.fAllOk events ∧
      Consistent check { pool with shared := { pool.shared with fAllOk := true } } [] := by
  have idle (t : Option ι) : (pool.thread t).pending = 0 ∧ (pool.thread t).failing = false := by
    rcases state : pool.thread t with _ | b | ⟨nNow, fOk, vChecks⟩
    · exact ⟨rfl, rfl⟩
    · exact ⟨rfl, rfl⟩
    · exact absurd state (consistent.not_working busy zero t nNow fOk vChecks)
  have empty : pool.shared.queue = [] := by
    have todo := consistent.todo
    exact List.eq_nil_of_length_eq_zero (by omega)
  have nobody : ¬ ∃ t, (pool.thread t).failing = true := fun ⟨t, failing⟩ => by
    rw [(idle t).2] at failing
    cases failing
  have accounted := consistent.accounted
  rw [empty, census_eq_zero fun t => (idle t).1, Multiset.coe_nil, zero_add, zero_add] at accounted
  have recorded := consistent.recorded
  rw [or_iff_left nobody] at recorded
  refine ⟨covers_of_handled accounted consistent.skips recorded, ?_⟩
  exact {
    quit := consistent.quit
    idle := consistent.idle
    total := consistent.total
    todo := consistent.todo
    accounted := by
      simp only [empty, census_eq_zero fun t => (idle t).1]
      rfl
    atMost := zero.le.trans (Nat.zero_le _)
    recorded := by
      apply iff_of_false (fun ⟨c, member, _⟩ => absurd member List.not_mem_nil)
      rintro (wrong | failing)
      · cases wrong
      · exact nobody failing
    skips := fun after c before split => absurd split.symm (by simp) }

variable [DecidableEq ι] {check : T → Bool} {q shared : CCheckQueue T} {thread : Option ι → LoopState T}
  {trace : List (QueueEvent T)} {t : Option ι}

/-- The invariant while a thread is between the two parts of its critical section. -/
structure Locked (check : T → Bool) (q : CCheckQueue T) (thread : Option ι → LoopState T) (t : Option ι)
    (events : List (QueueEvent T)) : Prop where
  consistent : Consistent check ⟨q, Function.update thread t .locked⟩ events
  busy : ∀ i, i ≠ t → (thread i).Busy
  blocked : t ≠ none → (thread none).isBlocked = true → q.nTodo ≠ 0
  drained : t ≠ none → ∀ b, thread none = .waiting b → q.queue = []

omit [Fintype ι] in
theorem busy_update {s : LoopState T} (others : ∀ i, i ≠ t → (thread i).Busy) (busy : s.Busy) (i : Option ι) :
    (Function.update thread t s i).Busy := by
  rcases eq_or_ne i t with rfl | other
  · rwa [update_self]
  · rw [update_of_ne other]
    exact others i other

private theorem Locked.next (locked : Locked check q thread t (session trace)) {q' : CCheckQueue T} {s' : LoopState T}
    (exchange : Exchange q q' .locked s') : Consistent check ⟨q', Function.update thread t s'⟩ (session trace) := by
  have next : Consistent check ⟨q', Function.update (Function.update thread t .locked) t s'⟩ (session trace) :=
    locked.consistent.exchange (by rwa [update_self])
  rwa [update_idem] at next

/-- The end of a critical section: the invariant holds again, and what `Wait` returns is the result of
the session. -/
theorem Locked.install (locked : Locked check q thread t (session trace)) {event : QueueEvent T}
    (installed : CheckPool.install ⟨shared, thread⟩ t (q.proceed t.isNone) = (event, pool)) :
    Settled check pool (session (event :: trace)) ∧
      ∀ fRet, event = .returned fRet → Covers check fRet (session trace) := by
  have quit : q.fQuit = false := locked.consistent.quit
  rcases proceed_cases q t.isNone with ⟨empty, leaves, done, left⟩ | ⟨empty, stays, left⟩ | ⟨n, positive, atMost, left⟩
  · have master : t = none := by
      rcases leaves with master | other
      · exact Option.isNone_iff_eq_none.mp master
      · rw [quit] at other
        cases other
    subst master
    rw [left] at installed
    cases installed
    have counted : 0 < q.nTotal := by
      have part : (Function.update thread none LoopState.locked none).inside ≤
          census LoopState.inside (Function.update thread none .locked) := le_census none
      rw [update_self] at part
      exact part.trans_eq locked.consistent.total.symm
    have busy := busy_update locked.busy (s := .outside) nofun
    obtain ⟨covers, consistent⟩ := (locked.next (exchange_return counted)).reset busy done
    refine ⟨⟨consistent, busy, ?_, ?_⟩, ?_⟩
    · simp [LoopState.isBlocked]
    · simp
    · rintro fRet ⟨⟩
      exact covers
  · rw [left] at installed
    have shape : event = .internal ∧ pool = ⟨{ q with nIdle := q.nIdle + 1 }, Function.update thread t (.waiting false)⟩ := by
      cases t <;> cases installed <;> exact ⟨rfl, rfl⟩
    obtain ⟨rfl, rfl⟩ := shape
    refine ⟨⟨?_, busy_update locked.busy nofun, ?_, fun b there => empty⟩, nofun⟩
    · rw [session_cons rfl]
      exact (locked.next exchange_wait).internal
    · rcases eq_or_ne t none with rfl | worker
      · exact fun _ nothing => stays ⟨.inl rfl, nothing⟩
      · simp only [update_of_ne worker.symm]
        exact locked.blocked worker
  · rw [left] at installed
    have shape : event = .internal ∧ pool = ⟨{ q with queue := q.queue.drop n },
        Function.update thread t (.working n q.fAllOk (q.queue.take n))⟩ := by
      cases t <;> cases installed <;> exact ⟨rfl, rfl⟩
    obtain ⟨rfl, rfl⟩ := shape
    have busy : (LoopState.working n q.fAllOk (q.queue.take n)).Busy := by
      rintro _ _ _ ⟨⟩
      exact positive
    refine ⟨⟨?_, busy_update locked.busy busy, ?_, ?_⟩, nofun⟩
    · rw [session_cons rfl]
      exact (locked.next (exchange_take atMost)).internal
    · rcases eq_or_ne t none with rfl | worker
      · simp [LoopState.isBlocked]
      · simp only [update_of_ne worker.symm]
        exact locked.blocked worker
    · rcases eq_or_ne t none with rfl | worker
      · simp
      · simp only [update_of_ne worker.symm]
        intro b waits
        simp only [locked.drained worker b waits, List.drop_nil]

/-- The clean-up of a critical section, by what it exchanges. -/
theorem Settled.locked (settled : Settled check pool events)
    (exchange : Exchange pool.shared q (pool.thread t) .locked) (queue : q.queue = pool.shared.queue)
    (blocked : t ≠ none → (pool.thread none).isBlocked = true → q.nTodo ≠ 0) :
    Locked check q pool.thread t events where
  consistent := settled.toConsistent.exchange exchange
  busy i _ := settled.busy i
  blocked := blocked
  drained _ b waits := queue.trans (settled.drained b waits)

omit [DecidableEq ι] in
/-- A notification changes no counter. -/
theorem Settled.notify (settled : Settled check pool events)
    {thread' : Option ι → LoopState T} (notified : ∀ i, thread' i = pool.thread i ∨ thread' i = (pool.thread i).notify) :
    Settled check ⟨pool.shared, thread'⟩ events := by
  have cases_of (i : Option ι) : thread' i = pool.thread i ∨ ∃ b, pool.thread i = .waiting b ∧ thread' i = .waiting true := by
    rcases notified i with same | changed
    · exact .inl same
    · rcases (pool.thread i).notify_eq with same | ⟨b, waits, woken⟩
      · exact .inl (changed.trans same)
      · exact .inr ⟨b, waits, changed.trans woken⟩
  have kept {M : Type} (f : LoopState T → M) (same : ∀ b, f (.waiting b) = f (.waiting true)) (i : Option ι) :
      f (thread' i) = f (pool.thread i) := by
    rcases cases_of i with unchanged | ⟨b, waits, woken⟩
    · rw [unchanged]
    · rw [waits, woken, same b]
  refine ⟨⟨settled.quit, ?_, ?_, ?_, ?_, settled.atMost, ?_, settled.skips⟩, ?_, ?_, ?_⟩
  · exact settled.idle.trans (census_congr (kept _ fun _ => rfl)).symm
  · exact settled.total.trans (census_congr (kept _ fun _ => rfl)).symm
  · simp only [census_congr (kept LoopState.held fun _ => rfl)]
    exact settled.todo
  · simp only [census_congr (kept LoopState.pending fun _ => rfl)]
    exact settled.accounted
  · simp only [kept LoopState.failing fun _ => rfl]
    exact settled.recorded
  · intro i
    change (thread' i).Busy
    rcases cases_of i with unchanged | ⟨b, waits, woken⟩
    · rw [unchanged]
      exact settled.busy i
    · rw [woken]
      exact nofun
  · intro still
    change (thread' none).isBlocked = true at still
    rcases cases_of none with unchanged | ⟨b, waits, woken⟩
    · rw [unchanged] at still
      exact settled.blocked still
    · rw [woken] at still
      cases still
  · intro b still
    rcases cases_of none with unchanged | ⟨b', waits, woken⟩
    · exact settled.drained b (unchanged.symm.trans still)
    · exact settled.drained b' waits

omit [DecidableEq ι] in
theorem Settled.add {pool : CheckPool ι T} {events : List (QueueEvent T)} (settled : Settled check pool events)
    (outside : pool.thread none = .outside) (vChecks : List T) :
    Settled check { pool with shared := pool.shared.add vChecks } (.added vChecks :: events) where
  quit := settled.quit
  idle := settled.idle
  total := settled.total
  todo := by
    have before := settled.todo
    simp only [CCheckQueue.add, List.length_append, List.length_reverse]
    omega
  accounted := by
    have before := settled.accounted
    rw [addedIn] at before ⊢
    simp only [List.map_cons, List.sum_cons, before, addedChecks, CCheckQueue.add, ranIn, skippedIn, ranChecks,
      skippedChecks, zero_add, ← Multiset.coe_add, Multiset.coe_reverse, add_assoc]
  atMost := by
    have before := settled.atMost
    simp only [CCheckQueue.add, addedIn, List.map_cons, List.sum_cons, addedChecks, Multiset.card_add, Multiset.coe_card]
    rw [add_comm]
    exact Nat.add_le_add_left before _
  recorded := by simpa [failed_cons, CCheckQueue.add] using settled.recorded
  skips := settled.skips.cons nofun
  busy := settled.busy
  blocked still := by
    rw [outside] at still
    cases still
  drained b still := by
    rw [outside] at still
    cases still

theorem Consistent.execute
    (consistent : Consistent check pool events) {nNow : ℕ} {fOk : Bool} {c : T} {vChecks : List T}
    (working : pool.thread t = .working nNow fOk (c :: vChecks)) :
    Consistent check ⟨pool.shared, Function.update pool.thread t (.working nNow (fOk && check c) vChecks)⟩
      ((if fOk then .ran c else .skipped c) :: events) := by
  have sum {M : Type} [AddCommMonoid M] (f : LoopState T → M) :=
    census_update f pool.thread t (.working nNow (fOk && check c) vChecks)
  rw [working] at sum
  have recorded := consistent.recorded
  rw [failing_split t, working] at recorded
  refine ⟨consistent.quit, ?_, ?_, ?_, ?_, ?_, ?_, ?_⟩
  · exact consistent.idle.trans (add_right_cancel (sum LoopState.idle)).symm
  · exact consistent.total.trans (add_right_cancel (sum LoopState.inside)).symm
  · simp only [add_right_cancel (sum LoopState.held)]
    exact consistent.todo
  · have pending := sum LoopState.pending
    have moved : census LoopState.pending pool.thread =
        {c} + census LoopState.pending (Function.update pool.thread t (.working nNow (fOk && check c) vChecks)) := by
      apply add_right_cancel (b := (vChecks : Multiset T))
      simp only [LoopState.pending] at pending
      rw [← pending, ← Multiset.cons_coe, ← Multiset.singleton_add, add_left_comm, add_assoc]
    have before := consistent.accounted
    rw [moved] at before
    cases fOk with
    | true =>
      simp only [addedIn, ranIn, skippedIn, if_pos, List.map_cons, List.sum_cons, addedChecks, ranChecks, skippedChecks,
        zero_add] at before ⊢
      rw [before]
      abel
    | false =>
      simp only [addedIn, ranIn, skippedIn, Bool.false_eq_true, if_false, List.map_cons, List.sum_cons, addedChecks,
        ranChecks, skippedChecks, zero_add] at before ⊢
      rw [before]
      abel
  · cases fOk <;> simpa [addedIn, addedChecks] using consistent.atMost
  · rw [failed_cons, recorded, failing_update]
    cases fOk <;> simp [LoopState.failing, or_left_comm]
  · apply consistent.skips.cons
    intro c' skipped
    cases fOk with
    | true => cases skipped
    | false => exact recorded.mpr (.inr (.inl rfl))

end CheckPool

end BitCrystal
