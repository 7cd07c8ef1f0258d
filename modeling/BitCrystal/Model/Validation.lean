import Mathlib.Algebra.Order.Ring.Int

/-! # Validation outcomes and checked money arithmetic

`CValidationState` distinguishes a broken network rule (`DoS`, `Invalid`) from a run-time error
(`Error`, `Abort`); some functions return `false` without touching it. A failing `assert`, a thrown
`std::runtime_error` and undefined behaviour are further ways not to return `true`. All of them
are one type, so a function of the node is a computation in `Check`.
-/

namespace BitCrystal

/-- Why a function of the node did not return `true`. -/
inductive Failure
  /-- `return state.DoS(nDoS, error(what))`; `state.Invalid` is level zero. -/
  | dos (nDoS : ℕ) (what : String)
  /-- `return error(what)` or `return false`, the state left as it is. -/
  | error (what : String)
  /-- `return state.Abort(what)` or `return state.Error()`. -/
  | abort (what : String)
  /-- The `return false` of the memory pool that also sets `*pfMissingInputs`. -/
  | missingInputs
  /-- A thrown `std::runtime_error`. -/
  | throws (what : String)
  /-- A failing `assert`. -/
  | assertion (what : String)
  /-- A null dereference or an access out of range. -/
  | undefined
  /-- Signed overflow. -/
  | overflow
  /-- A loop or recursion that does not end. -/
  | diverges
deriving DecidableEq, Repr

namespace Failure

/-- `state.IsInvalid()` after the failure. -/
def isInvalid : Failure → Bool
  | dos _ _ => true
  | _ => false

/-- The function came back to its caller with the value `false`. -/
def returnsFalse : Failure → Bool
  | dos _ _ | error _ | abort _ | missingInputs => true
  | throws _ | assertion _ | undefined | overflow | diverges => false

/-- The function came back to a caller that catches `std::runtime_error`. -/
def survived : Failure → Bool
  | assertion _ | undefined | overflow | diverges => false
  | _ => true

end Failure

abbrev Check := Except Failure

/-- `if (bad) return state.DoS(...)` and its relatives. -/
def rejectIf (bad : Prop) [Decidable bad] (failure : Failure) : Check Unit :=
  if bad then .error failure else .ok ()

/-- An `assert`, or the value a dereference finds. -/
def assertSome {α : Type*} (failure : Failure) : Option α → Check α
  | some value => .ok value
  | none => .error failure

namespace Check

universe u

variable {α β : Type u} {first : Check α} {next : α → Check β} {value : α} {bad : Prop} {found : Option α}
  {other : Failure}

@[simp] theorem bind_eq_ok {result : β} :
    (first >>= next) = .ok result ↔ ∃ value, first = .ok value ∧ next value = .ok result := by
  cases first with
  | error failure => simp [bind, Except.bind]
  | ok value => simp [bind, Except.bind]

theorem bind_eq_error {failure : Failure} : (first >>= next) = .error failure ↔
      first = .error failure ∨ ∃ value, first = .ok value ∧ next value = .error failure := by
  cases first with
  | error other => simp [bind, Except.bind]
  | ok value => simp [bind, Except.bind]

@[simp] theorem ok_bind (value : α) (next : α → Check β) :
    ((.ok value : Check α) >>= next) = next value := rfl

@[simp] theorem error_bind (failure : Failure) (next : α → Check β) :
    ((.error failure : Check α) >>= next) = .error failure := rfl

@[simp] theorem pure_eq_ok {result : α} : (pure value : Check α) = .ok result ↔ value = result := by
  simp [pure, Except.pure]

@[simp] theorem rejectIf_eq_ok [Decidable bad] {failure : Failure} {done : Unit} :
    rejectIf bad failure = .ok done ↔ ¬ bad := by
  unfold rejectIf
  split_ifs with h <;> simp [h]

@[simp] theorem assertSome_eq_ok {failure : Failure} : assertSome failure found = .ok value ↔ found = some value := by
  cases found <;> simp [assertSome]

theorem assertSome_eq_error {failure : Failure} :
    assertSome failure found = .error other ↔ found = none ∧ failure = other := by
  cases found <;> simp [assertSome]

/-! A computation avoids a failure when all its steps do. -/

variable {failure : Failure}

theorem ok_ne_error : (.ok value : Check α) ≠ .error failure := nofun

theorem bind_ne_error (head : first ≠ .error failure)
    (tail : ∀ value, first = .ok value → next value ≠ .error failure) : (first >>= next) ≠ .error failure := by
  cases first with
  | error other => exact fun same => head (by cases same; rfl)
  | ok value => exact tail value rfl

theorem rejectIf_ne_error [Decidable bad] (different : other ≠ failure) : rejectIf bad other ≠ .error failure := by
  unfold rejectIf
  split_ifs
  · exact fun same => different (Except.error.inj same)
  · exact ok_ne_error

theorem rejectIf_bind_ne_error {α : Type} [Decidable bad] {next : Unit → Check α}
    (different : other ≠ failure) (tail : next () ≠ .error failure) : (rejectIf bad other >>= next) ≠ .error failure :=
  bind_ne_error (rejectIf_ne_error different) fun _ _ => tail

theorem assertSome_ne_error (different : other ≠ failure) : assertSome other found ≠ .error failure := by
  cases found with
  | none => exact fun same => different (Except.error.inj same)
  | some value => exact ok_ne_error

theorem exists_of_isOk {checked : Check α} (ok : checked.isOk = true) : ∃ value, checked = .ok value := by
  cases checked with
  | error failure => cases ok
  | ok value => exact ⟨value, rfl⟩

end Check

/-- Conversion to `unsigned int`. -/
def uint32 (n : ℕ) : ℕ := n % 2 ^ 32

theorem uint32_of_lt {n : ℕ} (bound : n < 2 ^ 32) : uint32 n = n := Nat.mod_eq_of_lt bound

def COIN : ℤ := 100000

/-- No amount larger than this is valid. -/
def MAX_MONEY : ℤ := 500000000 * COIN

def moneyRange (nValue : ℤ) : Prop := 0 ≤ nValue ∧ nValue ≤ MAX_MONEY

instance (nValue : ℤ) : Decidable (moneyRange nValue) := inferInstanceAs (Decidable (_ ∧ _))

/-- The values of the type `int64`. -/
def InInt64 (n : ℤ) : Prop := -2 ^ 63 ≤ n ∧ n < 2 ^ 63

instance (n : ℤ) : Decidable (InInt64 n) := inferInstanceAs (Decidable (_ ∧ _))

/-- The result of an `int64` operation, whose overflow is undefined. -/
def int64 (n : ℤ) : Check ℤ := if InInt64 n then .ok n else .error .overflow

@[simp] theorem int64_eq_ok {n m : ℤ} : int64 n = .ok m ↔ InInt64 n ∧ n = m := by
  unfold int64
  split_ifs with h <;> simp [h]

theorem Check.int64_ne_overflow {n : ℤ} (bounds : InInt64 n) : int64 n ≠ .error .overflow := by
  rw [int64, if_pos bounds]
  exact nofun

/-- `nSubsidy >>= shift` on a non-negative `int64`. The shift instruction of the supported targets
takes its count modulo 64; for counts from 64 on the language leaves the result open. -/
def shiftRight64 (n : ℤ) (shift : ℕ) : ℤ := n / 2 ^ (shift % 64)

end BitCrystal
