import BitCrystal.Machine.Journal

/-! # Forests given by parent pointers

Every node has at most one parent, and heights grow by one from a parent to its child. The chain of
a node are the node and its ancestors. A path is a piece of a chain as a list. `Links` says that
pointers to children follow exactly one chain; rewriting them along two paths that leave the old and
the new chain at the same place makes them follow the new chain.
-/

namespace Forest

variable {α : Type*} {parent : α → Option α} {height : α → ℕ}

/-- `a` is `b` or one of its ancestors. -/
def Ancestor (parent : α → Option α) (a b : α) : Prop :=
  Relation.ReflTransGen (fun child above => parent child = some above) b a

/-- The nodes on the chain that ends in `top`, none without a top. -/
def OnChain (parent : α → Option α) (top : Option α) (a : α) : Prop := ∃ b ∈ top, Ancestor parent a b

/-- Heights grow by one along the edges. -/
def Graded (parent : α → Option α) (height : α → ℕ) : Prop :=
  ∀ child above, parent child = some above → height child = height above + 1

variable {a b c : α}

theorem Ancestor.refl (a : α) : Ancestor parent a a := Relation.ReflTransGen.refl

theorem Ancestor.trans (first : Ancestor parent a b) (second : Ancestor parent b c) : Ancestor parent a c :=
  Relation.ReflTransGen.trans second first

theorem Ancestor.of_parent (edge : parent b = some a) : Ancestor parent a b := Relation.ReflTransGen.single edge

/-- The ancestors of a node are the node and those of its parent. -/
theorem ancestor_iff : Ancestor parent a b ↔ a = b ∨ OnChain parent (parent b) a := by
  constructor
  · intro ancestor
    rcases Relation.ReflTransGen.cases_head ancestor with rfl | ⟨above, edge, rest⟩
    · exact .inl rfl
    · exact .inr ⟨above, edge, rest⟩
  · rintro (rfl | ⟨above, edge, rest⟩)
    · exact .refl a
    · exact rest.trans (.of_parent edge)

theorem onChain_some : OnChain parent (some b) a ↔ Ancestor parent a b := by simp [OnChain]

theorem not_onChain_none : ¬ OnChain parent none a := by simp [OnChain]

theorem OnChain.of_ancestor {top : Option α} (on : OnChain parent top b) (ancestor : Ancestor parent a b) :
    OnChain parent top a := by
  obtain ⟨last, found, rest⟩ := on
  exact ⟨last, found, ancestor.trans rest⟩

/-- In a list sorted by height a parent comes before its child. -/
theorem Graded.mem_of_sorted (graded : Graded parent height) {done rest : List α} (edge : parent b = some a)
    (sorted : (b :: rest).Pairwise fun x y => height x ≤ height y) (among : a ∈ done ∨ a ∈ b :: rest) : a ∈ done := by
  refine among.resolve_right fun later => ?_
  have lower := graded b a edge
  rcases List.mem_cons.mp later with rfl | later
  · omega
  · have above := (List.pairwise_cons.mp sorted).1 a later
    omega

/-- A new parent of `c` changes no chain that `c` is not on. -/
theorem ancestor_update [DecidableEq α] {above : Option α} (apart : ¬ Ancestor parent c b) :
    Ancestor (Function.update parent c above) a b ↔ Ancestor parent a b := by
  have elsewhere {x : α} (off : ¬ Ancestor parent c x) : Function.update parent c above x = parent x := by
    rw [Function.update_of_ne]
    rintro rfl
    exact off (.refl x)
  constructor
  · intro ancestor
    induction ancestor using Relation.ReflTransGen.head_induction_on with
    | refl => exact .refl _
    | head edge _ ih =>
      rw [elsewhere apart] at edge
      exact (ih fun on => apart (on.trans (.of_parent edge))).trans (.of_parent edge)
  · intro ancestor
    induction ancestor using Relation.ReflTransGen.head_induction_on with
    | refl => exact .refl _
    | head edge _ ih =>
      refine (ih fun on => apart (on.trans (.of_parent edge))).trans (.of_parent ?_)
      rwa [elsewhere apart]

namespace Graded

variable (graded : Graded parent height)
include graded

theorem height_le (ancestor : Ancestor parent a b) : height a ≤ height b := by
  induction ancestor using Relation.ReflTransGen.head_induction_on with
  | refl => exact Nat.le_refl _
  | head edge _ ih =>
    have := graded _ _ edge
    omega

theorem eq_of_height_le (ancestor : Ancestor parent a b) (high : height b ≤ height a) : a = b := by
  rcases ancestor_iff.mp ancestor with rfl | ⟨above, edge, rest⟩
  · rfl
  · have := graded _ _ edge
    have := graded.height_le rest
    omega

/-- A chain has at most one node of each height. -/
theorem eq_of_height (first : Ancestor parent a c) (second : Ancestor parent b c)
    (same : height a = height b) : a = b := by
  induction first using Relation.ReflTransGen.head_induction_on with
  | refl => exact (graded.eq_of_height_le second (Nat.le_of_eq same)).symm
  | head edge rest ih =>
    rcases ancestor_iff.mp second with rfl | ⟨above, link, further⟩
    · exact graded.eq_of_height_le (Ancestor.trans rest (.of_parent edge)) (Nat.le_of_eq same.symm)
    · rw [edge] at link
      cases link
      exact ih further

theorem onChain_eq {top : Option α} (first : OnChain parent top a) (second : OnChain parent top b)
    (same : height a = height b) : a = b := by
  obtain ⟨last, found, above⟩ := first
  obtain ⟨last', found', above'⟩ := second
  cases Option.some.inj (found.symm.trans found')
  exact graded.eq_of_height above above' same

end Graded

/-! ## Steps back -/

/-- The node a number of steps back. -/
def back (parent : α → Option α) : ℕ → Option α → Option α
  | 0, top => top
  | n + 1, top => back parent n (top.bind parent)

theorem back_none (n : ℕ) : back parent n none = none := by
  induction n with
  | zero => rfl
  | succ n ih => exact ih

theorem back_add (m n : ℕ) (top : Option α) : back parent (m + n) top = back parent n (back parent m top) := by
  induction m generalizing top with
  | zero => rw [Nat.zero_add, back]
  | succ m ih =>
    rw [Nat.succ_add, back, ih]
    rfl

theorem back_succ (n : ℕ) (top : Option α) : back parent (n + 1) top = (back parent n top).bind parent := back_add n 1 top

theorem ancestor_of_back {n : ℕ} (found : back parent n (some b) = some a) : Ancestor parent a b := by
  induction n generalizing b with
  | zero =>
    cases found
    exact .refl _
  | succ n ih =>
    cases edge : parent b with
    | none =>
      rw [back, Option.bind_some, edge, back_none] at found
      cases found
    | some above =>
      rw [back, Option.bind_some, edge] at found
      exact (ih found).trans (.of_parent edge)

theorem Graded.height_back (graded : Graded parent height) {n : ℕ} (found : back parent n (some b) = some a) :
    height a + n = height b := by
  induction n generalizing b with
  | zero =>
    cases found
    rfl
  | succ n ih =>
    cases edge : parent b with
    | none =>
      rw [back, Option.bind_some, edge, back_none] at found
      cases found
    | some above =>
      rw [back, Option.bind_some, edge] at found
      have lower := ih found
      have step := graded b above edge
      omega

theorem Graded.exists_back (graded : Graded parent height) (rooted : ∀ x, parent x = none → height x = 0) {n : ℕ}
    (low : n ≤ height b) : ∃ a, back parent n (some b) = some a := by
  induction n generalizing b with
  | zero => exact ⟨b, rfl⟩
  | succ n ih =>
    cases edge : parent b with
    | none =>
      have bottom := rooted b edge
      omega
    | some above =>
      have step := graded b above edge
      rw [back, Option.bind_some, edge]
      exact ih (by omega)

/-- A chain has a node of every height up to its end. -/
theorem Graded.exists_of_height_le (graded : Graded parent height) (rooted : ∀ x, parent x = none → height x = 0) {n : ℕ}
    (low : n ≤ height b) : ∃ a, Ancestor parent a b ∧ height a = n := by
  obtain ⟨a, found⟩ := graded.exists_back rooted (Nat.sub_le (height b) n)
  have steps := graded.height_back found
  exact ⟨a, ancestor_of_back found, by omega⟩

/-- The nodes from one place of a chain down to another one, which is left out. -/
inductive Path (parent : α → Option α) : Option α → List α → Option α → Prop
  | nil (top : Option α) : Path parent top [] top
  | cons {a : α} {path : List α} {bottom : Option α} :
      Path parent (parent a) path bottom → Path parent (some a) (a :: path) bottom

namespace Path

variable {top bottom : Option α} {path : List α}

/-- A path splits a chain. -/
theorem onChain_iff (run : Path parent top path bottom) :
    OnChain parent top a ↔ a ∈ path ∨ OnChain parent bottom a := by
  induction run with
  | nil top => simp
  | cons _ ih => rw [onChain_some, ancestor_iff, ih, List.mem_cons, or_assoc]

/-- The nodes of a path do not come again below it. -/
theorem not_onChain (graded : Graded parent height) (run : Path parent top path bottom) (member : a ∈ path) :
    ¬ OnChain parent bottom a := by
  rintro ⟨low, found, ancestor⟩
  have order := graded.height_le ancestor
  induction run with
  | nil top => simp at member
  | @cons b path bottom rest ih =>
    rcases List.mem_cons.mp member with rfl | later
    · have below : OnChain parent (parent a) low :=
        rest.onChain_iff.mpr (.inr ⟨low, found, .refl low⟩)
      obtain ⟨above, edge, further⟩ := below
      have := graded _ _ edge
      have := graded.height_le further
      omega
    · exact ih later found

/-- Above a node that is there every node of a path has a parent. -/
theorem parent_ne_none {low : α} (run : Path parent top path (some low)) (member : a ∈ path) : parent a ≠ none := by
  generalize there : some low = bottom at run
  induction run with
  | nil top => simp at member
  | @cons b path bottom rest ih =>
    rcases List.mem_cons.mp member with rfl | later
    · intro root
      rw [root] at rest
      cases rest
      cases there
    · exact ih later there

end Path

variable [DecidableEq α]

/-- The pointers follow the chain that ends in `top`. -/
def Links (parent next : α → Option α) (top : Option α) : Prop :=
  ∀ x y, next x = some y ↔ OnChain parent top y ∧ parent y = some x

/-- Set the pointers of the parents of one list to null and those of another one to the child. -/
def rewire (parent next : α → Option α) (disconnect connect : List α) (x : α) : Option α :=
  (Journal.latest parent (some x) connect).or
    (if (Journal.latest parent (some x) disconnect).isSome then none else next x)

private theorem mem_of_latest {x : Option α} {l : List α} {y : α} (found : Journal.latest parent x l = some y) :
    y ∈ l ∧ parent y = x := by
  have member := List.mem_of_getLast? found
  simpa using member

private theorem latest_isSome {x : Option α} {l : List α} {y : α} (member : y ∈ l) (edge : parent y = x) :
    (Journal.latest parent x l).isSome := by
  have inside : y ∈ l.filter fun y => parent y = x := by simp [member, edge]
  rw [Journal.latest, List.getLast?_isSome]
  exact List.ne_nil_of_mem inside

/-- Rewiring along the two branches makes the pointers follow the other chain. -/
theorem Links.rewire {next : α → Option α} {top top' fork : Option α} {disconnect connect : List α}
    (graded : Graded parent height) (links : Links parent next top) (down : Path parent top disconnect fork)
    (up : Path parent top' connect.reverse fork) :
    Links parent (Forest.rewire parent next disconnect connect) top' := by
  intro x y
  have connected {z : α} : z ∈ connect ↔ z ∈ connect.reverse := List.mem_reverse.symm
  cases latest : Journal.latest parent (some x) connect with
  | some z =>
    obtain ⟨member, edge⟩ := mem_of_latest latest
    have on : OnChain parent top' z := up.onChain_iff.mpr (.inl (connected.mp member))
    rw [Forest.rewire, latest, Option.some_or, Option.some.injEq]
    constructor
    · rintro rfl
      exact ⟨on, edge⟩
    · rintro ⟨other, link⟩
      have := graded _ _ edge
      have := graded _ _ link
      exact graded.onChain_eq on other (by omega)
  | none =>
    have notConnected {z : α} (edge : parent z = some x) : z ∉ connect := by
      intro member
      have := latest_isSome member edge
      rw [latest] at this
      contradiction
    -- Children of `x` on the new chain are below the fork, hence on the old chain.
    have below {z : α} (edge : parent z = some x) : OnChain parent top' z ↔ OnChain parent fork z := by
      rw [up.onChain_iff, ← connected]
      simp [notConnected edge]
    rw [Forest.rewire, latest, Option.none_or]
    split
    next dropped =>
      obtain ⟨z, found⟩ := Option.isSome_iff_exists.mp dropped
      obtain ⟨member, edge⟩ := mem_of_latest found
      constructor
      · rintro ⟨⟩
      · rintro ⟨on, link⟩
        have := graded _ _ edge
        have := graded _ _ link
        have same : z = y := graded.onChain_eq (down.onChain_iff.mpr (.inl member))
          (down.onChain_iff.mpr (.inr ((below link).mp on))) (by omega)
        exact absurd ((below link).mp on) (same ▸ down.not_onChain graded member)
    next kept =>
      rw [links x y]
      refine and_congr_left fun edge => ?_
      have notDropped : y ∉ disconnect := fun member => kept (latest_isSome member edge)
      rw [below edge, down.onChain_iff]
      simp [notDropped]

end Forest
