import Mathlib.Algebra.BigOperators.Group.List.Basic
import Mathlib.Algebra.Order.Ring.Int
import Mathlib.Data.List.AList
import Mathlib.Data.List.Induction

/-! # Journals and transactions

Changes that can be taken back one by one, and changes that are made together or not at all.
-/

/-! ## Journals: performing entries and taking them back

A journal is a list of entries, each of which changes a state or fails. `perform` plays a journal
forwards, `unwind` plays it backwards on a state of possibly another type. If taking back one entry
restores the state before it, up to a relation the unwinding state keeps to the performing one, then
unwinding restores the state before the whole journal. Two unwindings are compared by a relation
that may mention the entries still to be taken back.
-/

namespace Journal

variable {S T E : Type*}

/-- Perform the entries in order; the first failing one stops. -/
def perform (apply : S → E → Option S) : S → List E → Option S
  | s, [] => some s
  | s, e :: es => (apply s e).bind fun s => perform apply s es

/-- Take the entries back, the last one first. -/
def unwind (revert : T → E → T) (t : T) : List E → T
  | [] => t
  | e :: es => revert (unwind revert t es) e

variable {apply : S → E → Option S} {revert : T → E → T}

@[simp] theorem unwind_nil (t : T) : unwind revert t [] = t := rfl

theorem perform_append (s : S) (first second : List E) :
    perform apply s (first ++ second) = (perform apply s first).bind fun s => perform apply s second := by
  induction first generalizing s with
  | nil => rfl
  | cons e es ih => simp only [List.cons_append, perform, ih, Option.bind_assoc]

variable {s t : S} {es : List E}

theorem perform_append_eq_some {first second : List E} : perform apply s (first ++ second) = some t ↔
      ∃ m, perform apply s first = some m ∧ perform apply m second = some t := by
  rw [perform_append, Option.bind_eq_some_iff]

theorem perform_cons_eq_some {e : E} :
    perform apply s (e :: es) = some t ↔ ∃ m, apply s e = some m ∧ perform apply m es = some t := by
  rw [perform, Option.bind_eq_some_iff]

@[simp] theorem perform_singleton (s : S) (e : E) : perform apply s [e] = apply s e := by
  cases applied : apply s e <;> simp [perform, applied]

theorem unwind_append (t : T) (first second : List E) :
    unwind revert t (first ++ second) = unwind revert (unwind revert t second) first := by
  induction first with
  | nil => rfl
  | cons e es ih => simp only [List.cons_append, unwind, ih]

/-- What every successful entry preserves holds after a successful journal. -/
theorem perform_preserves (invariant : S → Prop) (step : ∀ s e s', apply s e = some s' → invariant s → invariant s')
    (run : perform apply s es = some t) (initial : invariant s) : invariant t := by
  induction es generalizing s with
  | nil => cases run; exact initial
  | cons e es ih =>
    obtain ⟨m, applied, rest⟩ := perform_cons_eq_some.mp run
    exact ih rest (step s e m applied initial)

/-- A property of the entries performed so far and the state they lead to. -/
theorem perform_history (property : List E → S → Prop) (initial : property [] s)
    (step : ∀ past m e s', property past m → apply m e = some s' → e ∈ es → property (past ++ [e]) s')
    (run : perform apply s es = some t) : property es t := by
  induction es using List.reverseRecOn generalizing t with
  | nil => cases run; exact initial
  | append_singleton es e ih =>
    obtain ⟨m, past, last⟩ := perform_append_eq_some.mp run
    rw [perform_singleton] at last
    exact step es m e t (ih (fun past m e s' h applied member =>
      step past m e s' h applied (List.mem_append_left _ member)) past) last (by simp)

/-- If each entry can be taken back where it was performed, so can the journal. -/
theorem unwind_of_perform (related : T → S → Prop) (good : S → E → Prop)
    (step : ∀ s e s' t, good s e → apply s e = some s' → related t s' → related (revert t e) s)
    {s' : S} {t : T} (run : perform apply s es = some s')
    (each : ∀ past e rest m, es = past ++ e :: rest → perform apply s past = some m → good m e)
    (final : related t s') : related (unwind revert t es) s := by
  induction es generalizing s with
  | nil => cases run; exact final
  | cons e es ih =>
    obtain ⟨m, applied, rest⟩ := perform_cons_eq_some.mp run
    apply step s e m _ (each [] e es s rfl rfl) applied
    apply ih rest
    intro past e' after m' split before
    exact each (e :: past) e' after m' (by rw [split, List.cons_append])
      (perform_cons_eq_some.mpr ⟨m, applied, before⟩)

/-- Two states unwound by one journal stay related through the entries still to come. -/
theorem unwind_related (related : List E → T → T → Prop)
    (step : ∀ es e t u, related (es ++ [e]) t u → related es (revert t e) (revert u e))
    {t u : T} (initial : related es t u) : related [] (unwind revert t es) (unwind revert u es) := by
  induction es using List.reverseRecOn generalizing t u with
  | nil => exact initial
  | append_singleton es e ih =>
    rw [unwind_append, unwind_append]
    exact ih (step es e t u initial)

variable {K : Type*} [DecidableEq K]

/-- The last entry of a journal with this key. -/
def latest (key : E → K) (k : K) (es : List E) : Option E := (es.filter fun e => key e = k).getLast?

@[simp] theorem latest_nil (key : E → K) (k : K) : latest key k [] = none := rfl

theorem latest_append_singleton (key : E → K) (k : K) (es : List E) (e : E) :
    latest key k (es ++ [e]) = if key e = k then some e else latest key k es := by
  unfold latest
  split
  next same => simp [List.filter_append, same]
  next other => simp [List.filter_append, other]

end Journal

/-! ## Record files with transactions

A record file is read and written through a handle. Every call may fail, as an argument tells for its number; a
call that fails changes nothing. The writes of a transaction reach the file together when it is committed, or none
of them does.
-/

/-- Records under their keys. -/
abbrev Records (K V : Type) : Type := AList fun _ : K => V

/-- A handle of a file: what is in the file, what an open transaction sees, and how often it has been called. -/
structure TxnStore (K V : Type) where
  file : Records K V
  activeTxn : Option (Records K V) := none
  calls : ℕ := 0

namespace TxnStore

variable {K V : Type} {store : TxnStore K V}

/-- A new handle. -/
def new (file : Records K V) : TxnStore K V := { file }

/-- What the handle reads. -/
def view (store : TxnStore K V) : Records K V := store.activeTxn.getD store.file

/-- The result of a call, which is counted. -/
def call (store : TxnStore K V) (result : Bool) : Bool × TxnStore K V :=
  (result, { store with calls := store.calls + 1 })

/-- A write goes to the transaction if there is one, or else to the file. -/
def setView (store : TxnStore K V) (records : Records K V) : TxnStore K V :=
  match store.activeTxn with
  | some _ => { store with activeTxn := some records }
  | none => { store with file := records }

variable (ok : ℕ → Bool)

def begin (store : TxnStore K V) : Bool × TxnStore K V :=
  if ok store.calls ∧ store.activeTxn = none then { store with activeTxn := some store.file }.call true
  else store.call false

/-- The changes of the transaction reach the file; it is over in any case. -/
def commit (store : TxnStore K V) : Bool × TxnStore K V :=
  match store.activeTxn with
  | none => store.call false
  | some records =>
    if ok store.calls then { store with file := records, activeTxn := none }.call true
    else { store with activeTxn := none }.call false

/-- The end of a transaction that is dropped. -/
def abort (store : TxnStore K V) : TxnStore K V := { store with activeTxn := none }

section

variable [DecidableEq K]

/-- Writing a record; without overwriting, a record that exists makes it fail. -/
def put (fOverwrite : Bool) (k : K) (v : V) (store : TxnStore K V) : Bool × TxnStore K V :=
  if ok store.calls ∧ (fOverwrite ∨ k ∉ store.view) then (store.setView (store.view.insert k v)).call true
  else store.call false

/-- Erasing a record, whether it exists or not. -/
def erase (k : K) (store : TxnStore K V) : Bool × TxnStore K V :=
  if ok store.calls then (store.setView (store.view.erase k)).call true else store.call false

end

variable {ok} {file records : Records K V} {n : ℕ}

theorem begin_of_ok (good : ok n = true) : begin ok ⟨file, none, n⟩ = (true, ⟨file, some file, n + 1⟩) :=
  if_pos ⟨good, rfl⟩

theorem begin_of_failed (bad : ok n = false) (active : Option (Records K V)) :
    begin ok ⟨file, active, n⟩ = (false, ⟨file, active, n + 1⟩) :=
  if_neg fun both => by simp [bad] at both

theorem commit_active :
    commit ok ⟨file, some records, n⟩ = (ok n, ⟨if ok n then records else file, none, n + 1⟩) := by
  cases good : ok n with
  | true => exact if_pos good
  | false => exact if_neg (by simp [good])

theorem put_active [DecidableEq K] (k : K) (v : V) : put ok true k v ⟨file, some records, n⟩ =
    (ok n, ⟨file, some (if ok n then records.insert k v else records), n + 1⟩) := by
  cases good : ok n with
  | true => exact if_pos ⟨good, .inl rfl⟩
  | false => exact if_neg (by simp [good])

theorem view_setView (records : Records K V) : (store.setView records).view = records := by
  unfold setView
  split
  · rfl
  · next closed => simp only [view, closed, Option.getD_none]

theorem view_put [DecidableEq K] {fOverwrite : Bool} {k : K} {v : V}
    (written : (put ok fOverwrite k v store).1 = true) :
    (put ok fOverwrite k v store).2.view = store.view.insert k v := by
  unfold put at written ⊢
  split
  · exact view_setView _
  · next failed =>
    rw [if_neg failed] at written
    cases written

theorem view_put_eq [DecidableEq K] (fOverwrite : Bool) (k : K) (v : V) : (put ok fOverwrite k v store).2.view =
    if (put ok fOverwrite k v store).1 then store.view.insert k v else store.view := by
  unfold put
  split
  · exact view_setView _
  · rfl

theorem notMem_of_put [DecidableEq K] {k : K} {v : V} (written : (put ok false k v store).1 = true) :
    k ∉ store.view := by
  unfold put at written
  split at written
  · next good => exact good.2.resolve_left nofun
  · cases written

theorem put_overwrite [DecidableEq K] (k : K) (v : V) : (put ok true k v store).1 = ok store.calls := by
  unfold put
  split
  · next good => exact good.1.symm
  · next bad => exact (Bool.eq_false_iff.mpr fun good => bad ⟨good, .inl rfl⟩).symm

theorem view_erase [DecidableEq K] (k : K) : (erase ok k store).2.view =
    if ok store.calls then store.view.erase k else store.view := by
  unfold erase
  split
  · exact view_setView _
  · rfl

theorem lookup_erase_if [DecidableEq K] (good : Prop) [Decidable good] (records : Records K V) (k k' : K) :
    (if good then records.erase k else records).lookup k' = if good ∧ k' = k then none else records.lookup k' := by
  by_cases same : k' = k
  · subst same
    split <;> simp_all
  · split <;> simp [same, AList.lookup_erase_ne]

@[simp] theorem calls_setView (records : Records K V) : (store.setView records).calls = store.calls := by
  unfold setView
  split <;> rfl

@[simp] theorem isSome_setView (records : Records K V) :
    (store.setView records).activeTxn.isSome = store.activeTxn.isSome := by
  unfold setView
  split
  · next opened => simp [opened]
  · rfl

@[simp] theorem calls_put [DecidableEq K] (fOverwrite : Bool) (k : K) (v : V) :
    (put ok fOverwrite k v store).2.calls = store.calls + 1 := by
  unfold put
  split <;> simp [call]

@[simp] theorem calls_erase [DecidableEq K] (k : K) : (erase ok k store).2.calls = store.calls + 1 := by
  unfold erase
  split <;> simp [call]

/-- A call inside of a transaction stays in it. -/
@[simp] theorem isSome_put [DecidableEq K] (fOverwrite : Bool) (k : K) (v : V) :
    (put ok fOverwrite k v store).2.activeTxn.isSome = store.activeTxn.isSome := by
  unfold put
  split <;> simp [call]

@[simp] theorem isSome_erase [DecidableEq K] (k : K) :
    (erase ok k store).2.activeTxn.isSome = store.activeTxn.isSome := by
  unfold erase
  split <;> simp [call]

theorem begin_good (good : ok store.calls = true) (closed : store.activeTxn.isSome = false) : ∃ opened,
    begin ok store = (true, opened) ∧ opened.view = store.file ∧ opened.calls = store.calls + 1 ∧
      opened.activeTxn.isSome = true := by
  have absent : store.activeTxn = none := by simpa using closed
  exact ⟨_, if_pos ⟨good, absent⟩, rfl, rfl, rfl⟩

/-- A transaction that is committed: the file is what it has seen. -/
theorem commit_done (done : (commit ok store).1 = true) :
    (commit ok store).2.file = store.view ∧ (commit ok store).2.activeTxn.isSome = false := by
  unfold commit at done ⊢
  split at done
  · cases done
  · next records active =>
    split at done
    · next good =>
      rw [if_pos good, view, active]
      exact ⟨rfl, rfl⟩
    · cases done

theorem view_closed (closed : store.activeTxn.isSome = false) : store.view = store.file := by
  rw [view, Option.isSome_eq_false_iff.mp closed |> Option.isNone_iff_eq_none.mp, Option.getD_none]

section Total

variable [DecidableEq K] (weight : K → V → ℤ)

/-- The sum of the weights of all records. -/
def total (records : Records K V) : ℤ := (records.entries.map fun entry => weight entry.1 entry.2).sum

theorem total_insert_of_notMem {k : K} {v : V} (fresh : k ∉ records) :
    total weight (records.insert k v) = weight k v + total weight records := by
  rw [total, AList.entries_insert_of_notMem fresh, List.map_cons, List.sum_cons, total]

/-- A record without a weight, under a key whose records never have one. -/
theorem total_insert_of_weightless {k : K} {v : V} (weightless : ∀ v, weight k v = 0) :
    total weight (records.insert k v) = total weight records := by
  by_cases member : k ∈ records
  · obtain ⟨old, before, after, -, whole, left⟩ := List.exists_of_kerase (AList.mem_keys.mp member)
    rw [total, AList.entries_insert, left, total, whole]
    simp only [List.map_cons, List.map_append, List.sum_cons, List.sum_append, weightless, zero_add]
  · rw [total_insert_of_notMem weight member, weightless, zero_add]

end Total

end TxnStore
