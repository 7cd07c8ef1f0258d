import Mathlib.Algebra.Order.Ring.Int
import Mathlib.Data.List.Infix
import Mathlib.Data.List.Nodup
import Mathlib.Data.List.ReduceOption

/-! # Giving numbers to items between numbered ones

Items come one after the other, some with a number. An item without one gets the next free number, and every later
number from there on is moved up by one. The numbers that are compared are the old ones, the places they are compared
with are new ones; this goes wrong for a number just above such a place.
-/

namespace Renumber

/-- The next free number, and the numbers given so far to items that had none. -/
structure Line where
  next : ℤ := 0
  starts : List ℤ := []

/-- A number after the items that were put in before it. -/
def shift (starts : List ℤ) (p : ℤ) : ℤ := p + starts.countP fun s => s ≤ p

def place (line : Line) : Option ℤ → ℤ × Line
  | none => (line.next, ⟨line.next + 1, line.starts ++ [line.next]⟩)
  | some p => (shift line.starts p, ⟨max line.next (shift line.starts p + 1), line.starts⟩)

def placeAll (line : Line) : List (Option ℤ) → List ℤ × Line
  | [] => ([], line)
  | o :: os => ((place line o).1 :: (placeAll (place line o).2 os).1, (placeAll (place line o).2 os).2)

variable {starts later : List ℤ} {p q s : ℤ}

theorem le_shift : p ≤ shift starts p := by
  unfold shift
  omega

theorem shift_lt_shift (less : p < q) : shift starts p < shift starts q := by
  have mono : starts.countP (fun s => s ≤ p) ≤ starts.countP (fun s => s ≤ q) :=
    List.countP_mono_left fun s _ below => decide_eq_true ((of_decide_eq_true below).trans less.le)
  unfold shift
  omega

theorem shift_append_of_lt (above : ∀ s ∈ later, p < s) : shift (starts ++ later) p = shift starts p := by
  have zero : later.countP (fun s => s ≤ p) = 0 :=
    List.countP_eq_zero.mpr fun s member => by simpa using above s member
  rw [shift, List.countP_append, zero, Nat.add_zero, shift]

variable (line : Line) (os : List (Option ℤ))

theorem placeAll_append (os' : List (Option ℤ)) : placeAll line (os ++ os') =
    ((placeAll line os).1 ++ (placeAll (placeAll line os).2 os').1, (placeAll (placeAll line os).2 os').2) := by
  induction os generalizing line with
  | nil => rfl
  | cons o os ih => rw [List.cons_append, placeAll, ih, placeAll, List.cons_append]

theorem place_next (o : Option ℤ) : line.next ≤ (place line o).2.next ∧ (place line o).1 < (place line o).2.next := by
  cases o with
  | none => exact ⟨by simp [place], by simp [place]⟩
  | some p => exact ⟨le_max_left .., (Int.lt_succ _).trans_le (le_max_right ..)⟩

theorem next_placeAll : line.next ≤ (placeAll line os).2.next ∧
    ∀ q ∈ (placeAll line os).1, q < (placeAll line os).2.next := by
  induction os generalizing line with
  | nil => exact ⟨le_rfl, nofun⟩
  | cons o os ih =>
    obtain ⟨grows, below⟩ := ih (place line o).2
    obtain ⟨least, own⟩ := place_next line o
    refine ⟨least.trans grows, fun q member => ?_⟩
    rcases List.mem_cons.mp member with rfl | member
    · exact own.trans_le grows
    · exact below q member

/-- The places that are put in later are free now. -/
theorem starts_placeAll : ∃ later, (placeAll line os).2.starts = line.starts ++ later ∧ later.Pairwise (· < ·) ∧
    (∀ s ∈ later, line.next ≤ s) ∧ later.length = os.count none := by
  induction os generalizing line with
  | nil => exact ⟨[], (List.append_nil _).symm, .nil, nofun, rfl⟩
  | cons o os ih =>
    obtain ⟨later, all, sorted, free, count⟩ := ih (place line o).2
    have least := (place_next line o).1
    cases o with
    | none =>
      refine ⟨line.next :: later, ?_, List.pairwise_cons.mpr ⟨fun s member => ?_, sorted⟩, fun s member => ?_, ?_⟩
      · rw [placeAll, all, place, List.append_assoc, List.singleton_append]
      · exact (Int.lt_succ _).trans_le (free s member)
      · rcases List.mem_cons.mp member with rfl | member
        · exact le_rfl
        · exact least.trans (free s member)
      · rw [List.length_cons, count, List.count_cons_self]
    | some p =>
      refine ⟨later, all, sorted, fun s member => least.trans (free s member), ?_⟩
      rw [count, List.count_cons_of_ne (Option.some_ne_none p)]

/-- In the end every number is shifted by all places, whenever they were put in. -/
theorem forall₂_placeAll : List.Forall₂ (fun o q => ∀ p, o = some p → q = shift (placeAll line os).2.starts p) os
    (placeAll line os).1 := by
  induction os generalizing line with
  | nil => exact .nil
  | cons o os ih =>
    refine .cons ?_ (ih (place line o).2)
    rintro p rfl
    obtain ⟨later, all, -, free, -⟩ := starts_placeAll (place line (some p)).2 os
    rw [placeAll, all]
    refine (shift_append_of_lt fun s member => ?_).symm
    have least : shift line.starts p + 1 ≤ s := (le_max_right ..).trans (free s member)
    have above : p ≤ shift line.starts p := le_shift
    omega

/-- The new numbers are the shifted old ones and the places that were put in. -/
theorem perm_placeAll : ∃ later, (placeAll line os).2.starts = line.starts ++ later ∧
    (placeAll line os).1.Perm (os.reduceOption.map (shift (placeAll line os).2.starts) ++ later) := by
  induction os generalizing line with
  | nil => exact ⟨[], (List.append_nil _).symm, .nil⟩
  | cons o os ih =>
    obtain ⟨later, all, perm⟩ := ih (place line o).2
    have first := (List.forall₂_cons.mp (forall₂_placeAll line (o :: os))).1
    cases o with
    | none =>
      refine ⟨line.next :: later, ?_, ?_⟩
      · rw [placeAll, all, place, List.append_assoc, List.singleton_append]
      · exact (perm.cons _).trans List.perm_middle.symm
    | some p =>
      refine ⟨later, all, ?_⟩
      rw [placeAll, List.reduceOption_cons_of_some, List.map_cons, List.cons_append]
      have same : (place line (some p)).1 = shift (placeAll (place line (some p)).2 os).2.starts p := first p rfl
      rw [same]
      exact perm.cons _

variable {os}

theorem mem_placeAll (member : q ∈ (placeAll {} os).1) :
    (∃ p, some p ∈ os ∧ q = shift (placeAll {} os).2.starts p) ∨ q ∈ (placeAll {} os).2.starts := by
  obtain ⟨later, all, perm⟩ := perm_placeAll {} os
  rw [List.nil_append] at all
  rcases List.mem_append.mp (perm.mem_iff.mp member) with shifted | new
  · obtain ⟨p, listed, rfl⟩ := List.mem_map.mp shifted
    exact .inl ⟨p, List.reduceOption_mem_iff.mp listed, rfl⟩
  · rw [all]
    exact .inr new

/-- Only what had a negative number keeps one. -/
theorem nonneg_or_mem_placeAll (member : q ∈ (placeAll {} os).1) : 0 ≤ q ∨ some q ∈ os := by
  obtain ⟨later, all, -, free, -⟩ := starts_placeAll {} os
  rw [List.nil_append] at all
  rcases mem_placeAll member with ⟨p, listed, rfl⟩ | new
  · rcases le_or_gt 0 p with large | negative
    · exact .inl (large.trans le_shift)
    · have same : shift (placeAll {} os).2.starts p = p := by
        rw [all, ← List.nil_append later, shift_append_of_lt fun s new => negative.trans_le (free s new)]
        exact add_zero p
      rw [same]
      exact .inr listed
  · rw [all] at new
    exact .inl (free q new)

/-- The new numbers are different just when no shifted number is a place that was put in. -/
theorem nodup_placeAll_iff (distinct : os.reduceOption.Nodup) :
    (placeAll {} os).1.Nodup ↔ ∀ p, some p ∈ os → shift (placeAll {} os).2.starts p ∉ (placeAll {} os).2.starts := by
  obtain ⟨later, all, perm⟩ := perm_placeAll {} os
  obtain ⟨later', all', sorted, -, -⟩ := starts_placeAll {} os
  rw [List.nil_append] at all all'
  subst all
  rw [perm.nodup_iff, List.nodup_append]
  constructor
  · rintro ⟨-, -, apart⟩ p member inside
    exact apart _ (List.mem_map.mpr ⟨p, List.reduceOption_mem_iff.mpr member, rfl⟩) _ inside rfl
  · intro apart
    have mono : StrictMono (shift (placeAll {} os).2.starts) := fun _ _ => shift_lt_shift
    refine ⟨distinct.map mono.injective, ?_, ?_⟩
    · rw [all']
      exact sorted.imp ne_of_lt
    · rintro q left s right rfl
      obtain ⟨p, member, rfl⟩ := List.mem_map.mp left
      exact apart p (List.reduceOption_mem_iff.mp member) right

/-! ## Numbers that stay clear of the places -/

/-- The first number above all numbers of a list. -/
def top (os : List (Option ℤ)) : ℤ := (os.reduceOption.map (· + 1)).foldr max 0

/-- No number just above a place comes after it. With the items that had no number before it, the place is moved up
from where the first one of them was put in. -/
def Clear (os : List (Option ℤ)) : Prop :=
  ∀ before between p after, os = before ++ none :: (between ++ some p :: after) →
    p < top before ∨ top before + before.count none ≤ p

theorem top_nonneg : 0 ≤ top os := by
  unfold top
  induction os.reduceOption with
  | nil => exact le_rfl
  | cons p ps ih => exact ih.trans (le_max_right ..)

theorem top_append_some : top (os ++ [some p]) = max (top os) (p + 1) := by
  unfold top
  rw [List.reduceOption_append, List.reduceOption_cons_of_some, List.reduceOption_nil]
  induction os.reduceOption with
  | nil => simp [max_comm]
  | cons q ps ih => simp only [List.cons_append, List.map_cons, List.foldr_cons, ih, max_assoc]

theorem top_append_none : top (os ++ [none]) = top os := by
  rw [top, List.reduceOption_append, List.reduceOption_cons_of_none, List.reduceOption_nil, List.append_nil, top]

theorem lt_top (member : some p ∈ os) : p < top os := by
  induction os using List.reverseRecOn with
  | nil => cases member
  | append_singleton os o ih =>
    rcases List.mem_append.mp member with old | new
    · cases o with
      | none => exact (ih old).trans_eq top_append_none.symm
      | some q => exact (ih old).trans_le ((le_max_left ..).trans_eq top_append_some.symm)
    · rw [← List.mem_singleton.mp new, top_append_some]
      exact (Int.lt_succ p).trans_le (le_max_right ..)

theorem top_le_append (before after : List (Option ℤ)) : top before ≤ top (before ++ after) := by
  induction after using List.reverseRecOn with
  | nil => rw [List.append_nil]
  | append_singleton after o ih =>
    rw [← List.append_assoc]
    cases o with
    | none => rwa [top_append_none]
    | some p =>
      rw [top_append_some]
      exact ih.trans (le_max_left ..)

theorem Clear.front {after : List (Option ℤ)} (clear : Clear (os ++ after)) : Clear os := by
  rintro before between p rest rfl
  apply clear before between p (rest ++ after)
  simp only [List.append_assoc, List.cons_append]

/-- The places that are there when one is put in, and those that follow. -/
theorem starts_split (before after : List (Option ℤ)) : ∃ later, (placeAll {} (before ++ none :: after)).2.starts =
      (placeAll {} before).2.starts ++ (placeAll {} before).2.next :: later ∧
    ∀ s ∈ later, (placeAll {} before).2.next < s := by
  obtain ⟨later, all, -, free, -⟩ := starts_placeAll (place (placeAll {} before).2 none).2 after
  refine ⟨later, ?_, fun s member => (Int.lt_succ _).trans_le (free s member)⟩
  rw [placeAll_append, placeAll, all, place, List.append_assoc, List.singleton_append]

/-- As long as the numbers stay clear, the next free one is the top, moved up by all items without a number, and
every place was put in at such a number. -/
theorem places_of_clear (clear : Clear os) : (placeAll {} os).2.next = top os + os.count none ∧
    ∀ s ∈ (placeAll {} os).2.starts, ∃ before after,
      os = before ++ none :: after ∧ s = top before + before.count none := by
  induction os using List.reverseRecOn with
  | nil => exact ⟨rfl, nofun⟩
  | append_singleton os o ih =>
    obtain ⟨next, places⟩ := ih clear.front
    have old : ∀ s ∈ (placeAll {} os).2.starts,
        ∃ before after, os ++ [o] = before ++ none :: after ∧ s = top before + before.count none := by
      intro s member
      obtain ⟨before, after, rfl, same⟩ := places s member
      exact ⟨before, after ++ [o], by simp, same⟩
    rw [placeAll_append, List.count_append]
    cases o with
    | none =>
      refine ⟨?_, fun s member => ?_⟩
      · rw [top_append_none]
        simp only [placeAll, place, List.count_singleton_self, Nat.cast_add, next]
        omega
      · rcases List.mem_append.mp member with held | new
        · exact old s held
        · exact ⟨os, [], rfl, (List.mem_singleton.mp new).trans next⟩
    | some p =>
      refine ⟨?_, old⟩
      obtain ⟨later, all, -, -, length⟩ := starts_placeAll {} os
      rw [List.nil_append] at all
      rw [← all] at length
      rw [top_append_some]
      have total : ([some p] : List (Option ℤ)).count none = 0 := rfl
      have bound := List.countP_le_length (p := fun s => decide (s ≤ p)) (l := (placeAll {} os).2.starts)
      simp only [placeAll, place, next, shift]
      by_cases past : ∀ s ∈ (placeAll {} os).2.starts, s ≤ p
      · have every : (placeAll {} os).2.starts.countP (fun s => s ≤ p) = (placeAll {} os).2.starts.length :=
          List.countP_eq_length.mpr fun s member => decide_eq_true (past s member)
        omega
      · obtain ⟨s, above⟩ := not_forall.mp past
        obtain ⟨member, above⟩ := Classical.not_imp.mp above
        obtain ⟨before, after, rfl, rfl⟩ := places s member
        have least := top_le_append before (none :: after)
        have side := clear before after p [] (by simp)
        omega

/-- A number below a place is moved by the places before it at most. -/
theorem shift_le_of_lt {before : List (Option ℤ)} (after : List (Option ℤ))
    (below : p < (placeAll {} before).2.next) :
    shift (placeAll {} (before ++ none :: after)).2.starts p = shift (placeAll {} before).2.starts p ∧
      shift (placeAll {} before).2.starts p ≤ p + before.count none := by
  obtain ⟨later, all, past⟩ := starts_split before after
  obtain ⟨old, first, -, -, length⟩ := starts_placeAll {} before
  rw [List.nil_append] at first
  rw [← first] at length
  constructor
  · rw [all, shift_append_of_lt]
    intro s member
    rcases List.mem_cons.mp member with rfl | member
    · exact below
    · exact below.trans (past s member)
  · have bound := List.countP_le_length (p := fun s => decide (s ≤ p)) (l := (placeAll {} before).2.starts)
    unfold shift
    omega

theorem lt_of_shift_mem (inside : shift starts p ∈ starts) : p < shift starts p := by
  by_contra above
  have positive : 0 < starts.countP fun s => s ≤ p :=
    List.countP_pos_iff.mpr ⟨_, inside, decide_eq_true (not_lt.mp above)⟩
  unfold shift at above
  omega

/-- A number that stays clear is not moved to a place that was put in. -/
theorem shift_notMem_of_clear (clear : Clear os) (member : some p ∈ os) :
    shift (placeAll {} os).2.starts p ∉ (placeAll {} os).2.starts := by
  intro inside
  have moved := lt_of_shift_mem inside
  obtain ⟨before, after, rfl, same⟩ := (places_of_clear clear).2 _ inside
  have next := (places_of_clear clear.front).1
  obtain ⟨kept, bound⟩ := shift_le_of_lt after (by omega : p < (placeAll {} before).2.next)
  rcases List.mem_append.mp member with here | there
  · have := lt_top here
    omega
  · have later : some p ∈ after := (List.mem_cons.mp there).resolve_left (Option.some_ne_none p)
    obtain ⟨between, rest, rfl⟩ := List.append_of_mem later
    have side := clear before between p rest rfl
    omega

/-- Where no number is left out, the numbers have to stay clear. -/
theorem clear_of_shift_notMem (gapless : ∀ p, some p ∈ os → ∀ q, 0 ≤ q → q < p → some q ∈ os)
    (apart : ∀ p, some p ∈ os → shift (placeAll {} os).2.starts p ∉ (placeAll {} os).2.starts) : Clear os := by
  suffices short : ∀ n, ∀ before between p after, before.length = n →
      os = before ++ none :: (between ++ some p :: after) → p < top before ∨ top before + before.count none ≤ p from
    fun before between p after => short _ before between p after rfl
  intro n
  induction n using Nat.strong_induction_on with
  | _ n ih =>
    intro before between p after length split
    have clear : Clear before := by
      rintro first middle q last rfl
      refine ih first.length ?_ first middle q (last ++ none :: (between ++ some p :: after)) rfl (by simp [split])
      rw [← length, List.length_append, List.length_cons]
      omega
    by_contra hit
    obtain ⟨above, short⟩ := not_or.mp hit
    have listed : some p ∈ os := by simp [split]
    -- the number at the place itself is there as well
    have own : some (top before) ∈ os := by
      rcases (not_lt.mp above).eq_or_lt with same | less
      · rwa [same]
      · exact gapless p listed _ top_nonneg less
    have next := (places_of_clear clear).1
    have later : some (top before) ∈ between ++ some p :: after := by
      rw [split] at own
      rcases List.mem_append.mp own with here | there
      · exact absurd (lt_top here) (lt_irrefl _)
      · exact (List.mem_cons.mp there).resolve_left (Option.some_ne_none _)
    have every : ∀ s ∈ (placeAll {} before).2.starts, s ≤ top before := by
      intro s member
      obtain ⟨first, rest, rfl, rfl⟩ := (places_of_clear clear).2 s member
      obtain ⟨middle, last, whole⟩ := List.append_of_mem later
      have least := top_le_append first (none :: rest)
      have shorter : first.length < n := by
        rw [← length, List.length_append, List.length_cons]
        omega
      have side := ih first.length shorter first (rest ++ none :: middle) (top (first ++ none :: rest)) last rfl
        (by simp [split, whole])
      omega
    obtain ⟨later, all, -⟩ := starts_split before (between ++ some p :: after)
    obtain ⟨old, first, -, -, length⟩ := starts_placeAll {} before
    rw [List.nil_append] at first
    rw [← first] at length
    have full : (placeAll {} before).2.starts.countP (fun s => s ≤ top before) = before.count none := by
      rw [← length]
      exact List.countP_eq_length.mpr fun s member => decide_eq_true (every s member)
    apply apart _ own
    rw [split, (shift_le_of_lt (between ++ some p :: after) (by omega)).1, all, shift, full, ← next]
    simp

end Renumber
