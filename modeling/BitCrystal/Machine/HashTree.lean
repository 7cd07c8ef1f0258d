import Mathlib.Data.List.Nodup
import Mathlib.Data.Nat.Bitwise
import Mathlib.Data.Nat.Log
import Mathlib.Tactic.Ring

/-! # Binary trees with a ragged right edge

A level is combined in pairs to the level above it; a last node without a partner is combined with
itself. When the operation is injective, the levels of a list without repetitions have none either,
and a list is determined by the root of its tree.
-/

namespace HashTree

variable {α : Type} {combine : α → α → α}

/-- The level above a level. -/
def level (combine : α → α → α) : List α → List α
  | [] => []
  | [a] => [combine a a]
  | a :: b :: rest => combine a b :: level combine rest

/-- The level at a height above the leaves. -/
def climb (combine : α → α → α) (l : List α) : ℕ → List α
  | 0 => l
  | height + 1 => level combine (climb combine l height)

/-- The number of nodes at a height above `n` leaves. -/
def width (n height : ℕ) : ℕ := (n + 2 ^ height - 1) / 2 ^ height

/-- The node at a position of the level at a height. -/
def node (combine : α → α → α) (l : List α) (height pos : ℕ) : Option α := (climb combine l height)[pos]?

/-- The single node at the least height at which there is one. -/
def root (combine : α → α → α) (l : List α) : Option α := node combine l (Nat.clog 2 l.length) 0

@[simp] theorem width_zero (n : ℕ) : width n 0 = n := by
  rw [width, pow_zero, Nat.add_sub_cancel, Nat.div_one]

theorem width_succ (n height : ℕ) : width n (height + 1) = (width n height + 1) / 2 := by
  have positive : 0 < 2 ^ height := Nat.pow_pos (by decide)
  have doubled : n + 2 ^ (height + 1) - 1 = n + 2 ^ height - 1 + 2 ^ height := by
    rw [pow_succ]
    omega
  rw [width, width, ← Nat.add_div_right _ positive, Nat.div_div_eq_div_mul, ← pow_succ, doubled]

variable {n height : ℕ} {l : List α} {pos : ℕ} {hash : α}

theorem width_le_one : width n height ≤ 1 ↔ n ≤ 2 ^ height := by
  have positive : 0 < 2 ^ height := Nat.pow_pos (by decide)
  rw [width, ← Nat.lt_succ_iff, Nat.div_lt_iff_lt_mul positive]
  omega

theorem width_pos (pos : 0 < n) : 0 < width n height := by
  have positive : 0 < 2 ^ height := Nat.pow_pos (by decide)
  exact Nat.div_pos (by omega) positive

theorem length_level (l : List α) : (level combine l).length = (l.length + 1) / 2 := by
  fun_induction level combine l with
  | case1 => simp
  | case2 => simp
  | case3 a b rest ih =>
    rw [List.length_cons, ih, List.length_cons, List.length_cons]
    omega

@[simp] theorem length_climb (l : List α) (height : ℕ) : (climb combine l height).length = width l.length height := by
  induction height with
  | zero => rw [width_zero, climb]
  | succ height ih => rw [climb, length_level, ih, width_succ]

/-! ## Nodes -/

theorem getElem?_level (l : List α) (pos : ℕ) :
    (level combine l)[pos]? = l[pos * 2]?.map fun left => combine left (l[pos * 2 + 1]?.getD left) := by
  fun_induction level combine l generalizing pos with
  | case1 => rfl
  | case2 a => cases pos <;> simp
  | case3 a b rest ih =>
    cases pos with
    | zero => rfl
    | succ pos =>
      rw [List.getElem?_cons_succ, ih, Nat.succ_mul]
      rfl

theorem node_zero (combine : α → α → α) (l : List α) (pos : ℕ) : node combine l 0 pos = l[pos]? := rfl

theorem node_succ (l : List α) (height pos : ℕ) : node combine l (height + 1) pos =
    (node combine l height (pos * 2)).map fun left =>
      combine left ((node combine l height (pos * 2 + 1)).getD left) := getElem?_level ..

theorem exists_node (combine : α → α → α) (inside : pos < width l.length height) :
    ∃ hash, node combine l height pos = some hash := by
  rw [← @length_climb _ combine] at inside
  exact ⟨_, List.getElem?_eq_getElem inside⟩

theorem node_eq_none (combine : α → α → α) (beyond : width l.length height ≤ pos) :
    node combine l height pos = none := by
  rw [node, List.getElem?_eq_none_iff, length_climb]
  exact beyond

theorem exists_root (combine : α → α → α) (nonempty : l ≠ []) : ∃ hash, root combine l = .some hash :=
  exists_node combine (width_pos (List.length_pos_iff.mpr nonempty))

/-- The level the root is on has no other node. -/
theorem climb_clog (top : root combine l = some hash) : climb combine l (Nat.clog 2 l.length) = [hash] := by
  have narrow : (climb combine l (Nat.clog 2 l.length)).length ≤ 1 := by
    rw [length_climb, width_le_one]
    exact Nat.le_pow_clog (by decide) _
  rw [root, node] at top
  match climb combine l (Nat.clog 2 l.length), narrow, top with
  | [], _, top => cases top
  | [_], _, rfl => rfl

/-- The other node of a pair; a last node without a partner is its own. -/
def partner (combine : α → α → α) (l : List α) (height pos : ℕ) : Option α :=
  node combine l height (min (pos ^^^ 1) (width l.length height - 1))

/-- Combine a node with the partners above it, from the lowest up. -/
def ascend (combine : α → α → α) : α → ℕ → List α → α
  | hash, _, [] => hash
  | hash, pos, other :: branch =>
    ascend combine (if pos % 2 = 1 then combine other hash else combine hash other) (pos / 2) branch

/-- A node and its partner make the node above them. -/
theorem node_above {l : List α} {height pos : ℕ} {hash other : α} (there : node combine l height pos = some hash)
    (beside : partner combine l height pos = some other) :
    node combine l (height + 1) (pos / 2) = some (if pos % 2 = 1 then combine other hash else combine hash other) := by
  have inside : pos < width l.length height := by
    rw [← length_climb]
    exact (List.getElem?_eq_some_iff.mp there).1
  rw [partner] at beside
  rcases Nat.mod_two_eq_zero_or_one pos with even | odd
  · rw [Nat.xor_one_of_even (Nat.even_iff.mpr even)] at beside
    have left : pos / 2 * 2 = pos := by omega
    rw [node_succ, left, there, Option.map_some, if_neg (by omega)]
    rcases Nat.lt_or_ge (pos + 1) (width l.length height) with paired | last
    · rw [min_eq_left (by omega)] at beside
      rw [beside, Option.getD_some]
    · rw [min_eq_right (by omega), show width l.length height - 1 = pos by omega, there] at beside
      rw [node_eq_none combine last, Option.getD_none, Option.some.inj beside]
  · rw [Nat.xor_one_of_odd (Nat.odd_iff.mpr odd), min_eq_left (by omega)] at beside
    have left : pos / 2 * 2 = pos - 1 := by omega
    have right : pos / 2 * 2 + 1 = pos := by omega
    rw [node_succ, right, left, beside, there, Option.map_some, Option.getD_some, if_pos odd]

/-- The combination is injective in the node when the operation is. -/
theorem ascend_inj (injective : Function.Injective2 combine) {first second : α} {branch : List α}
    (same : ascend combine first pos branch = ascend combine second pos branch) : first = second := by
  induction branch generalizing first second pos with
  | nil => exact same
  | cons other branch ih =>
    have next := ih same
    split_ifs at next
    · exact (injective next).2
    · exact (injective next).1

/-- The leaves below the node at a position of the level at a height. -/
def below {α : Type} (l : List α) (height pos : ℕ) : List α := (l.drop (pos * 2 ^ height)).take (2 ^ height)

theorem below_zero (l : List α) (pos : ℕ) : below l 0 pos = l[pos]?.toList := by
  rw [below, pow_zero, Nat.mul_one, List.take_one, List.head?_drop]

theorem below_succ (l : List α) (height pos : ℕ) :
    below l (height + 1) pos = below l height (pos * 2) ++ below l height (pos * 2 + 1) := by
  have left : pos * 2 ^ (height + 1) = pos * 2 * 2 ^ height := by ring
  have right : (pos * 2 + 1) * 2 ^ height = pos * 2 * 2 ^ height + 2 ^ height := by ring
  have both : 2 ^ (height + 1) = 2 ^ height + 2 ^ height := by ring
  rw [below, below, below, left, right, both, List.take_add, List.drop_drop]

theorem width_le : width n height ≤ pos ↔ n ≤ pos * 2 ^ height := by
  have positive : 0 < 2 ^ height := Nat.pow_pos (by decide)
  rw [width, ← Nat.lt_succ_iff, Nat.div_lt_iff_lt_mul positive, Nat.succ_mul]
  omega

theorem below_eq_nil (beyond : width l.length height ≤ pos) : below l height pos = [] := by
  rw [below, List.drop_eq_nil_of_le (width_le.mp beyond), List.take_nil]

theorem below_root (enough : l.length ≤ 2 ^ height) : below l height 0 = l := by
  rw [below, Nat.zero_mul, List.drop_zero, List.take_of_length_le enough]

theorem below_pos (inside : pos < width l.length height) : 0 < (below l height pos).length := by
  have positive : 0 < 2 ^ height := Nat.pow_pos (by decide)
  have first : pos * 2 ^ height < l.length := by
    rw [← not_le, ← width_le]
    exact not_le.mpr inside
  rw [below, List.length_take, List.length_drop]
  omega

theorem mem_level (member : hash ∈ level combine l) : ∃ a ∈ l, ∃ b ∈ l, hash = combine a b := by
  fun_induction level combine l with
  | case1 => cases member
  | case2 a =>
    obtain rfl := List.mem_singleton.mp member
    exact ⟨a, List.mem_singleton_self a, a, List.mem_singleton_self a, rfl⟩
  | case3 a b rest ih =>
    rcases List.mem_cons.mp member with rfl | later
    · exact ⟨a, by simp, b, by simp, rfl⟩
    · obtain ⟨c, left, d, right, same⟩ := ih later
      exact ⟨c, by simp [left], d, by simp [right], same⟩

theorem climb_add (l : List α) (first second : ℕ) :
    climb combine l (first + second) = climb combine (climb combine l first) second := by
  induction second with
  | zero => rfl
  | succ second ih => rw [← Nat.add_assoc, climb, ih, climb]

/-- A node is a leaf or made of two others. -/
theorem leaf_or_inner (there : node combine l height pos = some hash) : hash ∈ l ∨ ∃ a b, hash = combine a b := by
  cases height with
  | zero => exact .inl (List.mem_of_getElem? there)
  | succ height =>
    obtain ⟨a, -, b, -, same⟩ := mem_level (List.mem_of_getElem? there)
    exact .inr ⟨a, b, same⟩

section Injective

variable (injective : Function.Injective2 combine)
include injective

variable {l l' : List α}

theorem nodup_level (distinct : l.Nodup) : (level combine l).Nodup := by
  fun_induction level combine l with
  | case1 => exact .nil
  | case2 a => exact List.nodup_singleton _
  | case3 a b rest ih =>
    obtain ⟨fresh, -, others⟩ := by simpa only [List.nodup_cons] using distinct
    refine List.nodup_cons.mpr ⟨fun member => ?_, ih others⟩
    obtain ⟨c, left, _, _, same⟩ := mem_level member
    obtain rfl := (injective same).1
    exact fresh (List.mem_cons_of_mem _ left)

theorem nodup_climb (distinct : l.Nodup) (height : ℕ) : (climb combine l height).Nodup := by
  induction height with
  | zero => exact distinct
  | succ height ih => exact nodup_level injective ih

/-- The level above determines a level without repetitions. -/
theorem level_inj (distinct : l.Nodup) (distinct' : l'.Nodup)
    (same : level combine l = level combine l') : l = l' := by
  fun_induction level combine l generalizing l' with
  | case1 =>
    have empty := congrArg List.length same
    rw [length_level, List.length_nil] at empty
    exact (List.length_eq_zero_iff.mp (by omega)).symm
  | case2 a =>
    match l' with
    | [b] =>
      obtain ⟨rfl, -⟩ := injective (List.cons.inj same).1
      rfl
    | b :: c :: rest =>
      obtain ⟨rfl, rfl⟩ := injective (List.cons.inj same).1
      simp at distinct'
  | case3 a b rest ih =>
    match l' with
    | [c] =>
      obtain ⟨rfl, rfl⟩ := injective (List.cons.inj same).1
      simp at distinct
    | c :: d :: rest' =>
      obtain ⟨both, tail⟩ := List.cons.inj same
      obtain ⟨rfl, rfl⟩ := injective both
      rw [ih (List.nodup_cons.mp (List.nodup_cons.mp distinct).2).2
        (List.nodup_cons.mp (List.nodup_cons.mp distinct').2).2 tail]

theorem climb_inj (distinct : l.Nodup) (distinct' : l'.Nodup) {height : ℕ}
    (same : climb combine l height = climb combine l' height) : l = l' := by
  induction height with
  | zero => exact same
  | succ height ih =>
    exact ih (level_inj injective (nodup_climb injective distinct height) (nodup_climb injective distinct' height) same)

private theorem eq_of_root_of_le (distinct : l.Nodup) (distinct' : l'.Nodup) (nonempty : l ≠ [])
    (leaves : ∀ leaf ∈ l, ∀ a b, leaf ≠ combine a b) {hash : α} (top : root combine l = .some hash)
    (top' : root combine l' = .some hash) (lower : Nat.clog 2 l.length ≤ Nat.clog 2 l'.length) : l = l' := by
  obtain ⟨more, split⟩ := Nat.exists_eq_add_of_le' lower
  have tower := climb_clog top'
  rw [split, climb_add, ← climb_clog top] at tower
  have whole := climb_inj injective (nodup_climb injective distinct' more) distinct tower
  cases more with
  | zero => exact whole.symm
  | succ more =>
    obtain ⟨leaf, first⟩ := List.exists_mem_of_ne_nil l nonempty
    rw [← whole] at first
    obtain ⟨a, -, b, -, inner⟩ := mem_level first
    rw [whole] at first
    exact absurd inner (leaves leaf first a b)

/-- Two lists without repetitions are equal if their trees have the same root and no leaf is an inner
node. -/
theorem eq_of_root (distinct : l.Nodup) (distinct' : l'.Nodup) (nonempty : l ≠ []) (nonempty' : l' ≠ [])
    (leaves : ∀ leaf ∈ l, ∀ a b, leaf ≠ combine a b) (leaves' : ∀ leaf ∈ l', ∀ a b, leaf ≠ combine a b)
    (same : root combine l = root combine l') : l = l' := by
  obtain ⟨hash, top⟩ := exists_root combine nonempty
  have top' := same.symm.trans top
  rcases Nat.le_total (Nat.clog 2 l.length) (Nat.clog 2 l'.length) with lower | lower
  · exact eq_of_root_of_le injective distinct distinct' nonempty leaves top top' lower
  · exact (eq_of_root_of_le injective distinct' distinct nonempty' leaves' top' top lower).symm

/-- Equal nodes at the left edge are above equal first leaves, unless a leaf is an inner node. -/
theorem head_of_node {height height' : ℕ} {hash : α}
    (leaves : ∀ leaf ∈ l.head?, ∀ a b, leaf ≠ combine a b) (leaves' : ∀ leaf ∈ l'.head?, ∀ a b, leaf ≠ combine a b)
    (there : node combine l height 0 = some hash) (there' : node combine l' height' 0 = some hash) :
    l.head? = l'.head? := by
  induction height generalizing height' hash with
  | zero =>
    cases height' with
    | zero => rw [List.head?_eq_getElem?, List.head?_eq_getElem?, ← node_zero, ← node_zero, there, there']
    | succ height' =>
      obtain ⟨left, -, inner⟩ := Option.map_eq_some_iff.mp ((node_succ ..).symm.trans there')
      rw [node_zero, ← List.head?_eq_getElem?] at there
      exact absurd inner.symm (leaves hash there _ _)
  | succ height ih =>
    obtain ⟨left, below, inner⟩ := Option.map_eq_some_iff.mp ((node_succ ..).symm.trans there)
    cases height' with
    | zero =>
      rw [node_zero, ← List.head?_eq_getElem?] at there'
      exact absurd inner.symm (leaves' hash there' _ _)
    | succ height' =>
      obtain ⟨left', below', inner'⟩ := Option.map_eq_some_iff.mp ((node_succ ..).symm.trans there')
      have same := (injective (inner.trans inner'.symm)).1
      rw [← same] at below'
      exact ih below below'

end Injective

end HashTree
