import BitCrystal.Proofs.CheckQueue

/-! # Parallel checking is sequential checking

The invariant holds in every reachable state. A measure of the work falls with every step that is
neither a start nor a spurious wake-up, and while the master is in `Wait` there is such a step.
-/

namespace BitCrystal

open Census QueueEvent Function LoopState

namespace CheckPool

variable {ι T : Type} [Fintype ι] [DecidableEq ι] {check : T → Bool} {pool pool' : CheckPool ι T}
  {event : QueueEvent T} {trace : List (QueueEvent T)}

/-- The states that steps reach from an unused queue, with the events on the way, the last one first. -/
inductive Reached (check : T → Bool) (nBatchSizeIn : ℕ) : List (QueueEvent T) → CheckPool ι T → Prop
  | init : Reached check nBatchSizeIn [] (init nBatchSizeIn)
  | next {trace : List (QueueEvent T)} {pool pool' : CheckPool ι T} {action : QueueStep ι T} {event : QueueEvent T} :
      Reached check nBatchSizeIn trace pool → pool.step check action = some (event, pool') →
      Reached check nBatchSizeIn (event :: trace) pool'

/-- The cases of a step. -/
theorem step_cases {action : QueueStep ι T} (stepped : pool.step check action = some (event, pool')) :
    (∃ vChecks woken, action = .add vChecks woken ∧ pool.thread none = .outside ∧ event = .added vChecks ∧
      pool' = notifyFor { pool with shared := pool.shared.add vChecks } vChecks.length woken) ∨
    (∃ t, action = .enter t ∧ pool.thread t = .outside ∧
      pool.install t (pool.shared.enter t.isNone) = (event, pool')) ∨
    (∃ t b, action = .wake t ∧ pool.thread t = .waiting b ∧
      pool.install t (pool.shared.wake t.isNone) = (event, pool')) ∨
    (∃ t nNow fOk c vChecks, action = .execute t ∧ pool.thread t = .working nNow fOk (c :: vChecks) ∧
      event = (if fOk then .ran c else .skipped c) ∧
      pool' = ⟨pool.shared, Function.update pool.thread t (.working nNow (fOk && check c) vChecks)⟩) ∨
    ∃ t nNow fOk, action = .report t ∧ pool.thread t = .working nNow fOk [] ∧
      (if (pool.shared.cleanUp nNow fOk).nTodo = 0 ∧ t.isSome then pool.notifyMaster else pool).install t
        (pool.shared.report t.isNone nNow fOk) = (event, pool') := by
  cases action with
  | add vChecks woken =>
    rw [step] at stepped
    split at stepped
    next allowed =>
      cases stepped
      refine .inl ⟨vChecks, woken, rfl, ?_, rfl, rfl⟩
      cases state : pool.thread none with
      | outside => rfl
      | waiting notified => simp [state, isOutside] at allowed
      | working nNow fOk vChecks => simp [state, isOutside] at allowed
    next => cases stepped
  | enter t =>
    rw [step] at stepped
    split at stepped
    next state => exact .inr (.inl ⟨t, rfl, state, Option.some.inj stepped⟩)
    next => cases stepped
  | wake t =>
    rw [step] at stepped
    split at stepped
    next b state => exact .inr (.inr (.inl ⟨t, b, rfl, state, Option.some.inj stepped⟩))
    next => cases stepped
  | execute t =>
    rw [step] at stepped
    split at stepped
    next nNow fOk c vChecks state =>
      cases stepped
      exact .inr (.inr (.inr (.inl ⟨t, nNow, fOk, c, vChecks, rfl, state, rfl, rfl⟩)))
    next => cases stepped
  | report t =>
    rw [step] at stepped
    split at stepped
    next nNow fOk state =>
      refine .inr (.inr (.inr (.inr ⟨t, nNow, fOk, rfl, state, ?_⟩)))
      rw [← Option.some.inj stepped]
      split <;> rfl
    next => cases stepped

omit [Fintype ι] in
theorem notifyFor_thread (pool : CheckPool ι T) (size : ℕ) (woken i : Option ι) :
    (pool.notifyFor size woken).thread i = pool.thread i ∨
      (pool.notifyFor size woken).thread i = (pool.thread i).notify := by
  rw [notifyFor]
  split_ifs
  · cases woken with
    | none => exact .inl rfl
    | some k =>
      rcases eq_or_ne i (some k) with rfl | other
      · exact .inr (update_self ..)
      · exact .inl (update_of_ne other ..)
  · cases i with
    | none => exact .inl rfl
    | some k => exact .inr rfl
  · exact .inl rfl

omit [Fintype ι] in
theorem notifyFor_shared (pool : CheckPool ι T) (size : ℕ) (woken : Option ι) :
    (pool.notifyFor size woken).shared = pool.shared := by
  rw [notifyFor]
  split_ifs
  · cases woken <;> rfl
  · rfl
  · rfl

omit [Fintype ι] in
theorem notifyMaster_thread (pool : CheckPool ι T) (i : Option ι) :
    pool.notifyMaster.thread i = pool.thread i ∨ pool.notifyMaster.thread i = (pool.thread i).notify := by
  simp only [notifyMaster]
  rcases eq_or_ne i none with rfl | other
  · exact .inr (update_self ..)
  · exact .inl (update_of_ne other ..)

private theorem settled_of_report {t : Option ι} {nNow : ℕ} {fOk : Bool} (settled : Settled check pool (session trace))
    (working : pool.thread t = .working nNow fOk [])
    (blocked : t ≠ none → (pool.thread none).isBlocked = true → (pool.shared.cleanUp nNow fOk).nTodo ≠ 0)
    (installed : pool.install t (pool.shared.report t.isNone nNow fOk) = (event, pool')) :
    Settled check pool' (session (event :: trace)) ∧
      ∀ fRet, event = .returned fRet → Covers check fRet (session trace) := by
  have part : (pool.thread t).held ≤ census held pool.thread := le_census t
  have todo := settled.todo
  rw [working, held] at part
  have exchange : Exchange pool.shared (pool.shared.cleanUp nNow fOk) (pool.thread t) .locked := by
    rw [working]
    exact exchange_cleanUp (by omega)
  exact (settled.locked exchange rfl blocked).install installed

theorem step_settled (settled : Settled check pool (session trace)) {action : QueueStep ι T}
    (stepped : pool.step check action = some (event, pool')) :
    Settled check pool' (session (event :: trace)) ∧
      ∀ fRet, event = .returned fRet → Covers check fRet (session trace) := by
  rcases step_cases stepped with ⟨vChecks, woken, -, outside, rfl, rfl⟩ | ⟨t, -, outside, installed⟩ |
    ⟨t, b, -, waiting, installed⟩ | ⟨t, nNow, fOk, c, vChecks, -, working, rfl, rfl⟩ |
    ⟨t, nNow, fOk, -, working, installed⟩
  · refine ⟨?_, nofun⟩
    rw [session_cons rfl]
    have added := (settled.add outside vChecks).notify (notifyFor_thread _ vChecks.length woken)
    rwa [← notifyFor_shared _ vChecks.length woken] at added
  · have exchange : Exchange pool.shared _ (pool.thread t) .locked := outside ▸ exchange_enter
    exact (settled.locked exchange rfl fun _ => settled.blocked).install installed
  · have part : (pool.thread t).idle ≤ census LoopState.idle pool.thread := le_census t
    rw [waiting, ← settled.idle] at part
    have exchange : Exchange pool.shared _ (pool.thread t) .locked := waiting ▸ exchange_wake part
    exact (settled.locked exchange rfl fun _ => settled.blocked).install installed
  · refine ⟨?_, by split <;> exact nofun⟩
    rw [session_cons (by split <;> rfl)]
    have busy : (LoopState.working nNow (fOk && check c) vChecks).Busy := by
      rintro _ _ _ ⟨⟩
      exact settled.busy t nNow fOk (c :: vChecks) working
    refine ⟨settled.toConsistent.execute working, busy_update (fun i _ => settled.busy i) busy, ?_, ?_⟩
    · rcases eq_or_ne t none with rfl | worker
      · simp [isBlocked]
      · simp only [update_of_ne worker.symm]
        exact settled.blocked
    · rcases eq_or_ne t none with rfl | worker
      · simp
      · simp only [update_of_ne worker.symm]
        exact settled.drained
  · split at installed
    next last =>
      have worker : t ≠ none := Option.isSome_iff_ne_none.mp last.2
      have same : pool.notifyMaster.thread t = pool.thread t := update_of_ne worker ..
      apply settled_of_report (settled.notify pool.notifyMaster_thread) (same.trans working) ?_ installed
      intro _ still
      change (Function.update pool.thread none (pool.thread none).notify none).isBlocked = true at still
      rw [update_self] at still
      cases state : pool.thread none <;> rw [state] at still <;> cases still
    next more =>
      apply settled_of_report settled working ?_ installed
      intro worker _ done
      exact more ⟨done, Option.isSome_iff_ne_none.mpr worker⟩

theorem settled_of_reached {nBatchSizeIn : ℕ} (reached : Reached check nBatchSizeIn trace pool) :
    Settled check pool (session trace) := by
  induction reached with
  | init =>
    exact {
      quit := rfl
      idle := (census_eq_zero fun _ => rfl).symm
      total := (census_eq_zero fun _ => rfl).symm
      todo := by
        have idle : census held (init nBatchSizeIn : CheckPool ι T).thread = 0 :=
          census_eq_zero fun _ => rfl
        rw [idle]
        rfl
      accounted := by
        have idle : census pending (init nBatchSizeIn : CheckPool ι T).thread = 0 :=
          census_eq_zero fun _ => rfl
        rw [idle]
        rfl
      atMost := le_rfl
      recorded := by simp [Failed, session, init, failing]
      skips := fun after c before split => absurd split.symm (by simp [session])
      busy := fun _ => nofun
      blocked := nofun
      drained := nofun }
  | next reached stepped ih => exact (step_settled ih stepped).1

end CheckPool

/-! ## Progress -/

/-- The work a thread has in hand: two units for each check, two for the report, one for a wake-up. -/
def LoopState.work {T : Type} : LoopState T → ℕ
  | .outside => 0
  | .waiting notified => if notified then 1 else 0
  | .working _ _ vChecks => 2 * vChecks.length + 2

theorem LoopState.work_working {T : Type} (nNow : ℕ) (fOk : Bool) (vChecks : List T) :
    (LoopState.working nNow fOk vChecks).work = 2 * vChecks.length + 2 := rfl

namespace CheckPool

variable {ι T : Type} [Fintype ι] [DecidableEq ι] {check : T → Bool} {pool pool' : CheckPool ι T}
  {event : QueueEvent T} {trace : List (QueueEvent T)}

/-- The work of the pool; a check in the queue counts four units. -/
def work (pool : CheckPool ι T) : ℕ := 4 * pool.shared.queue.length + census LoopState.work pool.thread

/-- A step that is neither an addition nor a start nor a spurious wake-up. -/
def Productive (pool : CheckPool ι T) : QueueStep ι T → Prop
  | .add _ _ | .enter _ => False
  | .wake t => pool.thread t = .waiting true
  | .execute _ | .report _ => True

/-- The second part of a critical section makes no new work. -/
theorem work_install {q shared : CCheckQueue T} {thread : Option ι → LoopState T} {t : Option ι}
    (installed : install ⟨shared, thread⟩ t (q.proceed t.isNone) = (event, pool')) :
    pool'.work + (thread t).work ≤ 4 * q.queue.length + census LoopState.work thread := by
  have change (s : LoopState T) := census_update LoopState.work thread t s
  rcases proceed_cases q t.isNone with ⟨empty, -, -, left⟩ | ⟨empty, -, left⟩ | ⟨n, positive, atMost, left⟩
  all_goals
    rw [left] at installed
    rw [← (Prod.mk.inj installed).2, work]
  · rw [add_assoc, change .outside]
    rfl
  · rw [add_assoc, change (.waiting false)]
    rfl
  · rw [add_assoc, change (.working n q.fAllOk (q.queue.take n)), work_working, List.length_take,
      List.length_drop, Nat.min_eq_left atMost]
    omega

theorem work_notifyMaster (pool : CheckPool ι T) : pool.notifyMaster.work ≤ pool.work + 1 := by
  have change := census_update LoopState.work pool.thread none (pool.thread none).notify
  have single : (pool.thread none).notify.work ≤ (pool.thread none).work + 1 := by
    rcases pool.thread none with _ | _ | _ <;> simp [notify, LoopState.work]
  simp only [work, notifyMaster]
  omega

/-- While the master is in `Wait`, no step makes new work and a productive step does some. -/
theorem work_step {action : QueueStep ι T} (inside : pool.thread none ≠ .outside)
    (stepped : pool.step check action = some (event, pool')) :
    pool'.work ≤ pool.work ∧ (pool.Productive action → pool'.work < pool.work) := by
  rcases step_cases stepped with ⟨vChecks, woken, -, outside, -, -⟩ | ⟨t, rfl, outside, installed⟩ |
    ⟨t, b, rfl, waiting, installed⟩ | ⟨t, nNow, fOk, c, vChecks, rfl, working, -, rfl⟩ |
    ⟨t, nNow, fOk, rfl, working, installed⟩
  · exact absurd outside inside
  · have bound := work_install installed
    exact ⟨(Nat.le_add_right ..).trans bound, False.elim⟩
  · have bound : pool'.work + (pool.thread t).work ≤ pool.work :=
      work_install (q := { pool.shared with nIdle := pool.shared.nIdle - 1 }) installed
    refine ⟨(Nat.le_add_right ..).trans bound, fun notified => ?_⟩
    rw [show pool.thread t = .waiting true from notified] at bound
    exact bound
  · have change := census_update LoopState.work pool.thread t (.working nNow (fOk && check c) vChecks)
    rw [working, work_working, work_working, List.length_cons] at change
    have less : work ⟨pool.shared, Function.update pool.thread t (.working nNow (fOk && check c) vChecks)⟩ <
        pool.work := by
      simp only [work]
      omega
    exact ⟨less.le, fun _ => less⟩
  · have less : pool'.work < pool.work := by
      split at installed
      next last =>
        have worker : t ≠ none := Option.isSome_iff_ne_none.mp last.2
        have bound : pool'.work + (pool.notifyMaster.thread t).work ≤ pool.notifyMaster.work :=
          work_install (q := pool.shared.cleanUp nNow fOk) installed
        have same : pool.notifyMaster.thread t = pool.thread t := update_of_ne worker ..
        have woken := pool.work_notifyMaster
        rw [same, working, work_working] at bound
        omega
      next =>
        have bound : pool'.work + (pool.thread t).work ≤ pool.work :=
          work_install (q := pool.shared.cleanUp nNow fOk) installed
        rw [working, work_working] at bound
        omega
    exact ⟨less.le, fun _ => less⟩

/-- While the master is in `Wait`, some thread can do something. -/
theorem exists_productive (settled : Settled check pool (session trace)) (inside : pool.thread none ≠ .outside) :
    ∃ action, pool.Productive action ∧ (pool.step check action).isSome := by
  have works {t : Option ι} {nNow : ℕ} {fOk : Bool} {vChecks : List T}
      (working : pool.thread t = .working nNow fOk vChecks) :
      ∃ action, pool.Productive action ∧ (pool.step check action).isSome := by
    cases vChecks with
    | nil => exact ⟨.report t, trivial, by simp [step, working]⟩
    | cons c vChecks => exact ⟨.execute t, trivial, by simp [step, working]⟩
  rcases state : pool.thread none with _ | _ | ⟨nNow, fOk, vChecks⟩
  · exact absurd state inside
  next notified =>
    cases notified with
    | true => exact ⟨.wake none, state, by simp [step, state]⟩
    | false =>
      have todo := settled.todo
      have left := settled.blocked (by rw [state]; rfl)
      rw [settled.drained false state, List.length_nil, zero_add] at todo
      have somebody : ∃ t, (pool.thread t).held ≠ 0 := by
        by_contra nobody
        simp only [not_exists, not_not] at nobody
        exact left (todo.trans (census_eq_zero nobody))
      obtain ⟨t, holds⟩ := somebody
      rcases state' : pool.thread t with _ | _ | ⟨nNow, fOk, vChecks⟩
      · rw [state'] at holds
        exact absurd rfl holds
      · rw [state'] at holds
        exact absurd rfl holds
      · exact works state'
  · exact works state

/-- Steps while the master is in `Wait`, with the number of those that are productive. -/
inductive Waits (check : T → Bool) (pool : CheckPool ι T) : ℕ → CheckPool ι T → Prop
  | start : Waits check pool 0 pool
  | next {n : ℕ} {middle pool' : CheckPool ι T} {action : QueueStep ι T} {event : QueueEvent T} :
      Waits check pool n middle → middle.thread none ≠ .outside → middle.step check action = some (event, pool') →
      Waits check pool n pool'
  | productive {n : ℕ} {middle pool' : CheckPool ι T} {action : QueueStep ι T} {event : QueueEvent T} :
      Waits check pool n middle → middle.thread none ≠ .outside → middle.step check action = some (event, pool') →
      middle.Productive action → Waits check pool (n + 1) pool'

theorem work_waits {n : ℕ} (waits : Waits check pool n pool') : n + pool'.work ≤ pool.work := by
  induction waits with
  | start => exact (Nat.zero_add _).le
  | next _ inside stepped ih =>
    have less := (work_step inside stepped).1
    omega
  | productive _ inside stepped useful ih =>
    have less := (work_step inside stepped).2 useful
    omega

omit [DecidableEq ι] in
theorem isUnused_of_nothing {events : List (QueueEvent T)} (settled : Settled check pool events)
    (nothing : addedIn events = 0) : pool.shared.queue = [] ∧ pool.shared.isUnused := by
  have atMost := settled.atMost
  rw [nothing, Multiset.card_zero] at atMost
  have zero : pool.shared.nTodo = 0 := Nat.le_zero.mp atMost
  have todo := settled.todo
  refine ⟨List.eq_nil_of_length_eq_zero (by omega), ?_, zero, ?_⟩
  · rw [settled.total, settled.idle]
    apply Finset.sum_congr rfl
    intro t _
    rcases state : pool.thread t with _ | b | ⟨nNow, fOk, vChecks⟩
    · rfl
    · rfl
    · exact absurd state (settled.not_working settled.busy zero t nNow fOk vChecks)
  · by_contra wrong
    obtain ⟨c, ran, -⟩ := settled.recorded.mpr (.inl (Bool.eq_false_iff.mpr wrong))
    have member : c ∈ addedIn events := by
      rw [settled.accounted]
      exact Multiset.mem_add.mpr (.inr (Multiset.mem_add.mpr (.inl (mem_ranIn.mpr ran))))
    rw [nothing] at member
    exact absurd member (Multiset.notMem_zero c)

/-- Every check that is added is in one place: in the queue, in the batch of a thread, executed, or
passed by after a failure. `Wait` returns after boundedly many productive steps, one of which is always
possible, says whether all checks are true, and leaves the queue as it was before the first check. -/
theorem wait_eq_all (check : T → Bool) {nBatchSizeIn : ℕ} (reached : Reached check nBatchSizeIn trace pool) :
    (addedIn (session trace) = (pool.shared.queue : Multiset T) + census pending pool.thread +
      (ranIn (session trace) + skippedIn (session trace))) ∧ SkipsAfterFailure check (session trace) ∧
    ((pool.thread none).isBlocked = true → pool.shared.nTodo ≠ 0) ∧
    (∀ action fRet pool', pool.step check action = some (.returned fRet, pool') →
      (fRet = true ↔ ∀ c ∈ addedIn (session trace), check c = true) ∧
      addedIn (session trace) = ranIn (session trace) + skippedIn (session trace) ∧
      pool'.shared.queue = [] ∧ pool'.shared.isUnused) ∧ (addedIn (session trace) = 0 → pool.shared.isUnused) ∧
    (pool.thread none ≠ .outside → (∃ action, pool.Productive action ∧ (pool.step check action).isSome) ∧
      ∀ n pool', Waits check pool n pool' → n ≤ pool.work) := by
  have settled := settled_of_reached reached
  refine ⟨settled.accounted, settled.skips, settled.blocked, ?_, ?_, ?_⟩
  · intro action fRet pool' stepped
    obtain ⟨settled', covers⟩ := step_settled settled stepped
    have result := covers fRet rfl
    exact ⟨result.result, result.handled, isUnused_of_nothing settled' rfl⟩
  · exact fun nothing => (isUnused_of_nothing settled nothing).2
  · intro inside
    refine ⟨exists_productive settled inside, fun n pool' waits => ?_⟩
    exact (Nat.le_add_right ..).trans (work_waits waits)

/-- Play a list of steps. -/
def play (check : T → Bool) : List (QueueStep ι T) → List (QueueEvent T) × CheckPool ι T →
    Option (List (QueueEvent T) × CheckPool ι T)
  | [], state => some state
  | action :: actions, (trace, pool) => do
    let (event, pool) ← pool.step check action
    play check actions (event :: trace, pool)

theorem reached_of_play {nBatchSizeIn : ℕ} {actions : List (QueueStep ι T)} {state : List (QueueEvent T) × CheckPool ι T}
    (reached : Reached check nBatchSizeIn trace pool) (played : play check actions (trace, pool) = some state) :
    Reached check nBatchSizeIn state.1 state.2 := by
  induction actions generalizing trace pool with
  | nil =>
    cases played
    exact reached
  | cons action actions ih =>
    rw [play] at played
    obtain ⟨⟨event, pool'⟩, stepped, played⟩ := Option.bind_eq_some_iff.mp played
    exact ih (reached.next stepped) played

/-- One worker takes a check that fails, and the master waits for its report. -/
theorem wait_eq_all_oneWorker : ∃ (state : List (QueueEvent Bool) × CheckPool Unit Bool) (pool' : CheckPool Unit Bool),
    play id [.enter (some ()), .add [true, false] (some ()), .wake (some ()), .enter none, .execute none, .report none,
      .execute (some ()), .report (some ())] ([], init 1) = some state ∧
    state.2.step id (.wake none) = some (.returned false, pool') ∧
    (false = true ↔ ∀ c ∈ addedIn (session state.1), id c = true) ∧ pool'.shared.isUnused := by
  have observed : ((play id [.enter (some ()), .add [true, false] (some ()), .wake (some ()), .enter none,
      .execute none, .report none, .execute (some ()), .report (some ())] ([], (init 1 : CheckPool Unit Bool))).bind
      fun state => (state.2.step id (.wake none)).map Prod.fst) = some (.returned false) := by decide
  obtain ⟨state, played, last⟩ := Option.bind_eq_some_iff.mp observed
  obtain ⟨⟨event, pool'⟩, stepped, rfl⟩ := Option.map_eq_some_iff.mp last
  have result := (wait_eq_all id (reached_of_play .init played)).2.2.2.1 _ _ _ stepped
  exact ⟨state, pool', played, stepped, result.1, result.2.2.2⟩

end CheckPool

end BitCrystal
