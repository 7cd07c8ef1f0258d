import Mathlib.Algebra.BigOperators.Group.List.Basic

/-! # Tallies: amounts under names

A tally holds one amount for each of finitely many names, and names that it does not hold stand at
zero. Adding an amount moves the value of its name and the total by that amount.
-/

abbrev Tally (κ α : Type) := List (κ × α)

namespace Tally

variable {κ α : Type} [DecidableEq κ] [AddCommMonoid α]

/-- What is held under a name. -/
def value : Tally κ α → κ → α
  | [], _ => 0
  | (held, amount) :: rest, name => if held = name then amount else value rest name

def total (tally : Tally κ α) : α := (tally.map Prod.snd).sum

def add : Tally κ α → κ → α → Tally κ α
  | [], name, more => [(name, more)]
  | (held, amount) :: rest, name, more =>
    if held = name then (held, amount + more) :: rest else (held, amount) :: add rest name more

/-- The name is held, at zero if it has not been there. -/
def touch (tally : Tally κ α) (name : κ) : Tally κ α := tally.add name 0

def addAll (tally : Tally κ α) (entries : List (κ × α)) : Tally κ α :=
  entries.foldl (fun tally entry => tally.add entry.1 entry.2) tally

/-- What a list of entries comes to under a name. -/
def sumOf (entries : List (κ × α)) (name : κ) : α := ((entries.filter fun entry => entry.1 = name).map Prod.snd).sum

variable {tally : Tally κ α} {name : κ}

theorem sumOf_nil (name : κ) : sumOf ([] : List (κ × α)) name = 0 := rfl

theorem sumOf_cons (entry : κ × α) (entries : List (κ × α)) (name : κ) :
    sumOf (entry :: entries) name = (if entry.1 = name then entry.2 else 0) + sumOf entries name := by
  by_cases same : entry.1 = name
  · simp [sumOf, same]
  · simp [sumOf, same]

theorem sumOf_append (entries others : List (κ × α)) (name : κ) :
    sumOf (entries ++ others) name = sumOf entries name + sumOf others name := by
  rw [sumOf, List.filter_append, List.map_append, List.sum_append, sumOf, sumOf]

theorem sumOf_map {ι : Type} (items : List ι) (nameOf : ι → κ) (amountOf : ι → α) (name : κ) :
    sumOf (items.map fun item => (nameOf item, amountOf item)) name =
      ((items.filter fun item => nameOf item = name).map amountOf).sum := by
  rw [sumOf, List.filter_map, List.map_map]
  rfl

/-- Everything stands under one name. -/
theorem sumOf_map_const {ι : Type} (items : List ι) (held : κ) (amountOf : ι → α) (name : κ) :
    sumOf (items.map fun item => (held, amountOf item)) name = if held = name then (items.map amountOf).sum else 0 := by
  rw [sumOf_map]
  split_ifs with same <;> simp [same]

theorem sumOf_flatMap {ι : Type} (items : List ι) (entriesOf : ι → List (κ × α)) (name : κ) :
    sumOf (items.flatMap entriesOf) name = (items.map fun item => sumOf (entriesOf item) name).sum := by
  induction items with
  | nil => rfl
  | cons item rest ih => rw [List.flatMap_cons, sumOf_append, ih, List.map_cons, List.sum_cons]

theorem value_add (tally : Tally κ α) (held name : κ) (more : α) :
    (tally.add held more).value name = tally.value name + if held = name then more else 0 := by
  induction tally with
  | nil => simp [add, value]
  | cons entry rest ih =>
    obtain ⟨first, amount⟩ := entry
    by_cases same : first = held
    · subst same
      by_cases here : first = name <;> simp [add, value, here]
    · rw [add, if_neg same]
      by_cases here : first = name
      · subst here
        rw [value, value, if_pos rfl, if_pos rfl, if_neg (Ne.symm same), add_zero]
      · rw [value, value, if_neg here, if_neg here, ih]

theorem total_add (tally : Tally κ α) (held : κ) (more : α) : (tally.add held more).total = tally.total + more := by
  induction tally with
  | nil => simp [add, total]
  | cons entry rest ih =>
    obtain ⟨first, amount⟩ := entry
    simp only [total] at ih ⊢
    rw [add]
    split_ifs
    · rw [List.map_cons, List.sum_cons, List.map_cons, List.sum_cons, add_right_comm]
    · rw [List.map_cons, List.sum_cons, List.map_cons, List.sum_cons, ih, add_assoc]

theorem value_touch (tally : Tally κ α) (held name : κ) : (tally.touch held).value name = tally.value name := by
  rw [touch, value_add, ite_self, add_zero]

theorem total_touch (tally : Tally κ α) (held : κ) : (tally.touch held).total = tally.total := by
  rw [touch, total_add, add_zero]

theorem addAll_append (tally : Tally κ α) (entries others : List (κ × α)) :
    tally.addAll (entries ++ others) = (tally.addAll entries).addAll others := List.foldl_append ..

theorem value_addAll (tally : Tally κ α) (entries : List (κ × α)) (name : κ) :
    (tally.addAll entries).value name = tally.value name + sumOf entries name := by
  induction entries generalizing tally with
  | nil => rw [addAll, List.foldl_nil, sumOf_nil, add_zero]
  | cons entry rest ih => rw [addAll, List.foldl_cons, ← addAll, ih, value_add, sumOf_cons, add_assoc]

theorem total_addAll (tally : Tally κ α) (entries : List (κ × α)) :
    (tally.addAll entries).total = tally.total + (entries.map Prod.snd).sum := by
  induction entries generalizing tally with
  | nil => rw [addAll, List.foldl_nil, List.map_nil, List.sum_nil, add_zero]
  | cons entry rest ih =>
    rw [addAll, List.foldl_cons, ← addAll, ih, total_add, List.map_cons, List.sum_cons, add_assoc]

end Tally
