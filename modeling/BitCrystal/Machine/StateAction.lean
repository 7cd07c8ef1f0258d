import Mathlib.Algebra.Order.Group.Nat

/-! # Computations with effects

A computation that changes a state and may fail, one that may fail and counts what it pays for, and one whose value is
kept.
-/

/-! ## Actions: computations on a state that may fail

An action returns a value or a failure, and changes the state either way: what it has done before a
failure stays done. Outcomes of a sequence are taken apart by inversion lemmas.
-/

/-- A computation on states `σ` with results `α` and failures `ε`. -/
def StateAction (σ ε α : Type) : Type := σ → Except ε α × σ

namespace StateAction

variable {σ ε α β : Type}

instance : Monad (StateAction σ ε) where
  pure a := fun s => (.ok a, s)
  bind action next := fun s =>
    match action s with
    | (.ok a, s) => next a s
    | (.error e, s) => (.error e, s)

/-- The current state. -/
def get : StateAction σ ε σ := fun s => (.ok s, s)

def modify (f : σ → σ) : StateAction σ ε Unit := fun s => (.ok (), f s)

def throw (e : ε) : StateAction σ ε α := fun s => (.error e, s)

/-- A computation that does not change the state. -/
def lift (result : Except ε α) : StateAction σ ε α := fun s => (result, s)

/-- Ignore the failures that are caught. -/
def attempt (caught : ε → Bool) (action : StateAction σ ε Unit) : StateAction σ ε Unit := fun s =>
  match action s with
  | (.ok _, s) => (.ok (), s)
  | (.error e, s) => if caught e then (.ok (), s) else (.error e, s)

/-- Whether the action came back without a failure; failures that are not caught stay failures. -/
def completes (caught : ε → Bool) (action : StateAction σ ε Unit) : StateAction σ ε Bool := fun s =>
  match action s with
  | (.ok _, s) => (.ok true, s)
  | (.error e, s) => if caught e then (.ok false, s) else (.error e, s)

variable {s t : σ} {e : ε} {a : α} {b : β} {action : StateAction σ ε α} {next : α → StateAction σ ε β}

theorem outcome_of_fst {outcome : Except ε α × σ} (done : outcome.1 = .ok a) : outcome = (.ok a, outcome.2) := by
  rw [← done]

theorem bind_of_ok (first : action s = (.ok a, t)) : (action >>= next) s = next a t := by
  simp only [bind, first]

theorem bind_of_error (first : action s = (.error e, t)) : (action >>= next) s = (.error e, t) := by
  simp only [bind, first]

variable {u : σ} {result : Except ε α} {caught : ε → Bool}

@[simp] theorem bind_eq_ok :
    (action >>= next) s = (.ok b, u) ↔ ∃ a t, action s = (.ok a, t) ∧ next a t = (.ok b, u) := by
  rcases first : action s with ⟨e | a, t⟩
  · simp [bind_of_error first]
  · rw [bind_of_ok first]
    constructor
    · intro second
      exact ⟨a, t, rfl, second⟩
    · rintro ⟨_, _, ⟨⟩, second⟩
      exact second

@[simp] theorem bind_eq_error : (action >>= next) s = (.error e, u) ↔
      action s = (.error e, u) ∨ ∃ a t, action s = (.ok a, t) ∧ next a t = (.error e, u) := by
  rcases first : action s with ⟨e | a, t⟩
  · simp [bind_of_error first]
  · rw [bind_of_ok first]
    constructor
    · intro second
      exact .inr ⟨a, t, rfl, second⟩
    · rintro (⟨⟨⟩⟩ | ⟨_, _, ⟨⟩, second⟩)
      exact second

@[simp] theorem pure_apply : (pure a : StateAction σ ε α) s = (.ok a, s) := rfl

@[simp] theorem get_apply : (get : StateAction σ ε σ) s = (.ok s, s) := rfl

@[simp] theorem modify_apply (f : σ → σ) : (modify f : StateAction σ ε Unit) s = (.ok (), f s) := rfl

@[simp] theorem throw_apply : (throw e : StateAction σ ε α) s = (.error e, s) := rfl

@[simp] theorem lift_apply : (lift result : StateAction σ ε α) s = (result, s) := rfl

theorem get_bind (next : σ → StateAction σ ε β) : (get >>= next) s = next s s := rfl

theorem modify_bind (f : σ → σ) (next : Unit → StateAction σ ε β) : (modify f >>= next) s = next () (f s) := rfl

theorem lift_bind_ok (a : α) (next : α → StateAction σ ε β) : (lift (.ok a) >>= next) s = next a s := rfl

theorem bind_pure_snd (f : α → β) : ((action >>= fun a => pure (f a)) s).2 = (action s).2 := by
  rcases first : action s with ⟨e | a, t⟩
  · rw [bind_of_error first]
  · rw [bind_of_ok first]
    rfl

theorem bind_throw_snd : ((action >>= fun _ => throw e : StateAction σ ε β) s).2 = (action s).2 := by
  rcases first : action s with ⟨e' | a, t⟩
  · rw [bind_of_error first]
  · rw [bind_of_ok first]
    rfl

theorem lift_bind_eq_ok : (lift result >>= next) s = (.ok b, u) ↔ ∃ a, result = .ok a ∧ next a s = (.ok b, u) := by
  cases result with
  | error e =>
    rw [bind_of_error (lift_apply : lift (.error e) s = (.error e, s))]
    exact ⟨nofun, nofun⟩
  | ok a =>
    rw [lift_bind_ok]
    exact ⟨fun ran => ⟨a, rfl, ran⟩, fun ⟨_, same, ran⟩ => Except.ok.inj same ▸ ran⟩

theorem lift_guard_bind (bad : Prop) [Decidable bad] (e : ε) (next : Unit → StateAction σ ε β) :
    (lift (if bad then .error e else .ok ()) >>= next) s = if bad then (.error e, s) else next () s := by
  split <;> rfl

theorem completes_of_ok {action : StateAction σ ε Unit} (ran : action s = (.ok (), t)) :
    completes caught action s = (.ok true, t) := by
  simp only [completes, ran]

theorem completes_of_caught {action : StateAction σ ε Unit} (ran : action s = (.error e, t))
    (fine : caught e = true) : completes caught action s = (.ok false, t) := by
  simp only [completes, ran, fine, if_true]

theorem completes_ok {action : StateAction σ ε Unit} {fine : Bool}
    (ran : completes caught action s = (.ok fine, t)) : fine = (action s).1.isOk ∧ t = (action s).2 := by
  unfold completes at ran
  rcases outcome : action s with ⟨e | done, u⟩ <;> rw [outcome] at ran
  · dsimp only at ran
    split at ran <;> cases ran
    exact ⟨rfl, rfl⟩
  · cases ran
    exact ⟨rfl, rfl⟩

theorem completes_error {action : StateAction σ ε Unit}
    (ran : completes caught action s = (.error e, t)) : caught e = false := by
  unfold completes at ran
  rcases outcome : action s with ⟨e | done, u⟩ <;> rw [outcome] at ran
  · dsimp only at ran
    split at ran <;> cases ran
    next fatal => exact Bool.eq_false_iff.mpr fatal
  · cases ran

/-! ### The states before and after

Some relations hold between the states before and after an action whatever its result is.
-/

def Keeps (rel : σ → σ → Prop) (action : StateAction σ ε α) : Prop := ∀ s, rel s (action s).2

variable {rel : σ → σ → Prop}

theorem Keeps.bind (trans : ∀ {r s t}, rel r s → rel s t → rel r t) (first : Keeps rel action)
    (second : ∀ a, Keeps rel (next a)) : Keeps rel (action >>= next) := by
  intro s
  have kept := first s
  rcases outcome : action s with ⟨e | a, t⟩ <;> rw [outcome] at kept
  · rw [bind_of_error outcome]
    exact kept
  · rw [bind_of_ok outcome]
    exact trans kept (second a t)

/-- The same from one state on. -/
theorem rel_bind (trans : ∀ {r s t}, rel r s → rel s t → rel r t) (first : rel s (action s).2)
    (second : ∀ a t, action s = (.ok a, t) → rel t (next a t).2) : rel s ((action >>= next) s).2 := by
  rcases outcome : action s with ⟨e | a, t⟩ <;> rw [outcome] at first
  · rw [bind_of_error outcome]
    exact first
  · rw [bind_of_ok outcome]
    exact trans first (second a t outcome)

/-- What holds after an action, also when it fails. -/
theorem holds_bind {holds : σ → Prop} (first : holds (action s).2)
    (second : ∀ a t, action s = (.ok a, t) → holds t → holds (next a t).2) : holds ((action >>= next) s).2 := by
  rcases outcome : action s with ⟨e | a, t⟩ <;> rw [outcome] at first
  · rw [bind_of_error outcome]
    exact first
  · rw [bind_of_ok outcome]
    exact second a t outcome first

/-- A computation that does not change the state. -/
theorem rel_lift_bind (refl : rel s s) (second : ∀ a, result = .ok a → rel s (next a s).2) :
    rel s ((lift result >>= next) s).2 := by
  cases result with
  | error e => exact refl
  | ok a => exact second a rfl

theorem Keeps.lift_bind (refl : ∀ s, rel s s) (second : ∀ a, Keeps rel (next a)) :
    Keeps rel (lift result >>= next) := by
  intro s
  cases result with
  | error e => exact refl s
  | ok a => exact second a s

theorem Keeps.attempt {action : StateAction σ ε Unit} (kept : Keeps rel action) :
    Keeps rel (attempt caught action) := by
  intro s
  have kept := kept s
  unfold StateAction.attempt
  rcases outcome : action s with ⟨e | a, t⟩ <;> rw [outcome] at kept
  · dsimp only
    split <;> exact kept
  · exact kept

theorem Keeps.completes {action : StateAction σ ε Unit} (kept : Keeps rel action) :
    Keeps rel (completes caught action) := by
  intro s
  have kept := kept s
  unfold StateAction.completes
  rcases outcome : action s with ⟨e | a, t⟩ <;> rw [outcome] at kept
  · dsimp only
    split <;> exact kept
  · exact kept

end StateAction

/-! ## Metered computations

A fallible computation together with the number of paid calls it makes. A computation that fails
still has made the calls up to its failure.
-/

structure Metered (ε α : Type*) where
  outcome : Except ε α
  cost : ℕ

namespace Metered

variable {ε : Type*} {α β : Type*}

/-- A computation without paid calls. -/
def free (outcome : Except ε α) : Metered ε α := ⟨outcome, 0⟩

/-- One paid call. -/
def call (result : α) : Metered ε α := ⟨.ok result, 1⟩

def bind (first : Metered ε α) (next : α → Metered ε β) : Metered ε β :=
  match first.outcome with
  | .error failure => ⟨.error failure, first.cost⟩
  | .ok value => ⟨(next value).outcome, first.cost + (next value).cost⟩

def throw (failure : ε) : Metered ε α := free (.error failure)

@[simp] theorem free_outcome (outcome : Except ε α) : (free outcome).outcome = outcome := rfl

@[simp] theorem free_cost (outcome : Except ε α) : (free outcome).cost = 0 := rfl

@[simp] theorem throw_outcome (failure : ε) : (throw failure : Metered ε α).outcome = .error failure := rfl

section

universe u

instance {ε : Type*} : Monad (Metered.{_, u} ε) where
  pure value := free (.ok value)
  bind := bind

variable {ε : Type*} {α β : Type u} {first : Metered ε α} {next : α → Metered ε β}

@[simp] theorem pure_outcome (value : α) : (pure value : Metered ε α).outcome = .ok value := rfl

theorem bind_outcome_eq_ok {result : β} :
    (first >>= next).outcome = .ok result ↔
      ∃ value, first.outcome = .ok value ∧ (next value).outcome = .ok result := by
  change (bind first next).outcome = _ ↔ _
  unfold bind
  split
  next failed => simp [failed]
  next done => simp [done]

/-- What a free head returns is passed on. -/
theorem free_ok_bind (value : α) : ((free (.ok value) : Metered ε α) >>= next) = next value := by
  change bind (free (.ok value)) next = _
  simp only [bind, free, Nat.zero_add]

/-- Only what the head may return matters for the rest. -/
theorem bind_congr {other : α → Metered ε β} (same : ∀ value, first.outcome = .ok value → next value = other value) :
    first >>= next = first >>= other := by
  change bind first next = bind first other
  unfold bind
  split
  · rfl
  next done => rw [same _ done]

/-- The calls of the parts are the calls of the whole. -/
theorem cost_bind_le {head tail : ℕ} (paid : first.cost ≤ head)
    (rest : ∀ value, first.outcome = .ok value → (next value).cost ≤ tail) :
    (first >>= next).cost ≤ head + tail := by
  change (bind first next).cost ≤ _
  unfold bind
  split
  · exact paid.trans (Nat.le_add_right ..)
  next done => exact Nat.add_le_add paid (rest _ done)

/-- A free head leaves the bound to the rest. -/
theorem cost_free_bind_le {outcome : Except ε α} {tail : ℕ}
    (rest : ∀ value, outcome = .ok value → (next value).cost ≤ tail) :
    (free outcome >>= next).cost ≤ tail := by
  have bound := cost_bind_le (le_of_eq (free_cost outcome)) rest
  rwa [Nat.zero_add] at bound

/-- A free tail leaves the bound to the head. -/
theorem cost_bind_free_le {outcome : α → Except ε β} {head : ℕ} (paid : first.cost ≤ head) :
    (first >>= fun value => free (outcome value)).cost ≤ head := by
  have bound : (first >>= fun value => free (outcome value)).cost ≤ head + 0 :=
    cost_bind_le paid fun _ _ => le_rfl
  exact bound

end

end Metered

/-! ## Kept values

The value of a computation is kept once it is known. A kept value is right as long as the computation would
still give it, and looking is then as good as computing.
-/

namespace Memo

variable {ε α : Type*} {compute other : Except ε α} {kept : Option α}

/-- The kept value, or the one that is computed. -/
def look (compute : Except ε α) (kept : Option α) : Except ε α :=
  match kept with
  | some a => .ok a
  | none => compute

def Right (compute : Except ε α) (kept : Option α) : Prop := ∀ a, kept = some a → compute = .ok a

theorem right_none : Right compute none := nofun

theorem right_some {a : α} (computed : compute = .ok a) : Right compute (some a) := by
  rintro _ ⟨⟩
  exact computed

theorem Right.congr (right : Right compute kept) (same : kept ≠ none → other = compute) : Right other kept := by
  rintro a rfl
  rw [same nofun]
  exact right a rfl

theorem Right.look_eq (right : Right compute kept) : look compute kept = compute := by
  cases kept with
  | none => rfl
  | some a => exact (right a rfl).symm

theorem look_none : look compute none = compute := rfl

end Memo
