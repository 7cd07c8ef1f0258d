import Mathlib.Data.List.Basic

/-! # Choices: at most so many values, one for each key

A choice takes for a key one of the values that are offered. It takes the same one when values that it
does not take are no longer offered. Choosing for a list of keys up to a limit then absorbs: what is
chosen from some values can stand for all of them.
-/

variable {K V : Type*}

/-- For every key one of the offered values, if any will do. -/
structure Choice (K V : Type*) where
  choose : List V → K → Option V
  mem : ∀ offered k v, choose offered k = some v → v ∈ offered
  none_of_subset : ∀ offered fewer k, fewer ⊆ offered → choose offered k = none → choose fewer k = none
  some_of_subset : ∀ offered fewer k v, fewer ⊆ offered → choose offered k = some v → v ∈ fewer →
    choose fewer k = some v

namespace Choice

variable (choice : Choice K V) {offered fewer rest : List V} {ks : List K} {m : ℕ} {v : V}

/-- The values for the first keys that have one. -/
def select : ℕ → List K → List V → List V
  | 0, _, _ => []
  | _, [], _ => []
  | m + 1, k :: ks, offered =>
    match choice.choose offered k with
    | none => select (m + 1) ks offered
    | some v => v :: select m ks offered

theorem select_nil : choice.select m [] offered = [] := by
  cases m <;> rfl

theorem select_cons_none {k : K} (refused : choice.choose offered k = none) :
    choice.select m (k :: ks) offered = choice.select m ks offered := by
  cases m with
  | zero => cases ks <;> rfl
  | succ m => simp only [select, refused]

theorem select_cons_some {k : K} (chosen : choice.choose offered k = some v) :
    choice.select (m + 1) (k :: ks) offered = v :: choice.select m ks offered := by
  simp only [select, chosen]

theorem length_select_le : (choice.select m ks offered).length ≤ m := by
  induction ks generalizing m with
  | nil =>
    rw [select_nil]
    exact Nat.zero_le m
  | cons k ks ih =>
    cases m with
    | zero => exact Nat.le_refl 0
    | succ m =>
      cases chosen : choice.choose offered k with
      | none =>
        rw [choice.select_cons_none chosen]
        exact ih
      | some v =>
        rw [choice.select_cons_some chosen]
        exact Nat.succ_le_succ ih

theorem subset_of_select : choice.select m ks offered ⊆ offered := by
  induction ks generalizing m with
  | nil =>
    rw [select_nil]
    exact List.nil_subset _
  | cons k ks ih =>
    cases m with
    | zero => exact List.nil_subset _
    | succ m =>
      cases chosen : choice.choose offered k with
      | none =>
        rw [choice.select_cons_none chosen]
        exact ih
      | some v =>
        rw [choice.select_cons_some chosen]
        exact List.cons_subset.mpr ⟨choice.mem _ _ _ chosen, ih⟩

/-- What is selected serves the first keys for which something is offered. -/
theorem forall₂_select : List.Forall₂ (fun v k => choice.choose offered k = some v) (choice.select m ks offered)
    ((ks.filter fun k => (choice.choose offered k).isSome).take m) := by
  induction ks generalizing m with
  | nil =>
    rw [select_nil, List.filter_nil, List.take_nil]
    exact .nil
  | cons k ks ih =>
    cases chosen : choice.choose offered k with
    | none =>
      rw [choice.select_cons_none chosen, List.filter_cons_of_neg (by simp [chosen])]
      exact ih
    | some v =>
      rw [List.filter_cons_of_pos (by simp [chosen])]
      cases m with
      | zero => exact .nil
      | succ m =>
        rw [choice.select_cons_some chosen, List.take_succ_cons]
        exact .cons chosen ih

/-- A higher limit selects more. -/
theorem select_subset_succ : choice.select m ks offered ⊆ choice.select (m + 1) ks offered := by
  induction ks generalizing m with
  | nil =>
    rw [select_nil]
    exact List.nil_subset _
  | cons k ks ih =>
    cases chosen : choice.choose offered k with
    | none =>
      rw [choice.select_cons_none chosen, choice.select_cons_none chosen]
      exact ih
    | some v =>
      cases m with
      | zero => exact List.nil_subset _
      | succ m =>
        rw [choice.select_cons_some chosen, choice.select_cons_some chosen]
        exact List.cons_subset_cons _ ih

/-- Nothing but what is selected has to be offered. -/
theorem select_of_subset (selected : choice.select m ks offered ⊆ fewer) (sub : fewer ⊆ offered) :
    choice.select m ks fewer = choice.select m ks offered := by
  induction ks generalizing m with
  | nil => rw [select_nil, select_nil]
  | cons k ks ih =>
    cases m with
    | zero => rfl
    | succ m =>
      cases chosen : choice.choose offered k with
      | none =>
        rw [choice.select_cons_none chosen] at selected ⊢
        rw [choice.select_cons_none (choice.none_of_subset _ _ _ sub chosen)]
        exact ih selected
      | some v =>
        rw [choice.select_cons_some chosen] at selected ⊢
        obtain ⟨member, others⟩ := List.cons_subset.mp selected
        rw [choice.select_cons_some (choice.some_of_subset _ _ _ _ sub chosen member), ih others]

/-- A selected value is selected from fewer as well. -/
theorem mem_select_of_subset (sub : fewer ⊆ offered) (selected : v ∈ choice.select m ks offered)
    (member : v ∈ fewer) : v ∈ choice.select m ks fewer := by
  induction ks generalizing m with
  | nil =>
    rw [select_nil] at selected
    cases selected
  | cons k ks ih =>
    cases m with
    | zero => cases selected
    | succ m =>
      cases chosen : choice.choose offered k with
      | none =>
        rw [choice.select_cons_none chosen] at selected
        rw [choice.select_cons_none (choice.none_of_subset _ _ _ sub chosen)]
        exact ih selected
      | some w =>
        rw [choice.select_cons_some chosen] at selected
        rcases List.mem_cons.mp selected with rfl | later
        · rw [choice.select_cons_some (choice.some_of_subset _ _ _ _ sub chosen member)]
          exact List.mem_cons_self
        · cases still : choice.choose fewer k with
          | none =>
            rw [choice.select_cons_none still]
            exact choice.select_subset_succ (ih later)
          | some u =>
            rw [choice.select_cons_some still]
            exact List.mem_cons_of_mem _ (ih later)

/-- Only the offered values count. -/
theorem select_congr (same : ∀ v, v ∈ fewer ↔ v ∈ offered) :
    choice.select m ks fewer = choice.select m ks offered := by
  refine choice.select_of_subset (fun v selected => ?_) fun v => (same v).mp
  exact (same v).mpr (choice.subset_of_select selected)

theorem select_append_comm : choice.select m ks (offered ++ rest) = choice.select m ks (rest ++ offered) :=
  choice.select_congr fun v => by rw [List.mem_append, List.mem_append, or_comm]

/-- What is selected from some of the values can stand for them. -/
theorem select_select_append :
    choice.select m ks (choice.select m ks offered ++ rest) = choice.select m ks (offered ++ rest) := by
  refine choice.select_of_subset (fun v selected => ?_) ?_
  · rcases List.mem_append.mp (choice.subset_of_select selected) with member | member
    · exact List.mem_append_left _ (choice.mem_select_of_subset (List.subset_append_left ..) selected member)
    · exact List.mem_append_right _ member
  · exact List.append_subset.mpr ⟨fun v selected => List.mem_append_left _ (choice.subset_of_select selected),
      List.subset_append_right ..⟩

theorem select_append_select :
    choice.select m ks (offered ++ choice.select m ks rest) = choice.select m ks (offered ++ rest) := by
  rw [select_append_comm, select_select_append, select_append_comm]

/-- Values that each do for one key of a list of keys, in its order. -/
theorem select_of_forall₂ {served : List K} {values : List V} (sublist : served.Sublist ks)
    (served_by : List.Forall₂ (fun k v => choice.choose offered k = some v) served values)
    (others : ∀ k ∈ ks, k ∉ served → choice.choose offered k = none) (distinct : ks.Nodup)
    (few : values.length ≤ m) : choice.select m ks offered = values := by
  induction sublist generalizing values m with
  | slnil =>
    cases served_by
    exact choice.select_nil
  | @cons served ks k sublist ih =>
    obtain ⟨fresh, distinct⟩ := List.nodup_cons.mp distinct
    have refused := others k List.mem_cons_self fun member => fresh (sublist.subset member)
    rw [choice.select_cons_none refused]
    exact ih served_by (fun other member => others other (List.mem_cons_of_mem _ member)) distinct few
  | @cons_cons served ks k sublist ih =>
    obtain ⟨fresh, distinct⟩ := List.nodup_cons.mp distinct
    cases served_by with
    | @cons _ v _ values chosen rest =>
      obtain ⟨m, rfl⟩ : ∃ below, m = below + 1 := ⟨m - 1, by simp only [List.length_cons] at few; omega⟩
      rw [choice.select_cons_some chosen, ih rest ?_ distinct (Nat.le_of_succ_le_succ few)]
      intro other member apart
      refine others other (List.mem_cons_of_mem _ member) fun listed => ?_
      rcases List.mem_cons.mp listed with rfl | listed
      · exact fresh member
      · exact apart listed

end Choice
