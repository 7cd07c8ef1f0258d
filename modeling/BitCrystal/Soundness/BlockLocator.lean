import BitCrystal.Soundness.MainChain

/-! # A locator finds the fork

`Set` samples the chain at depths that are one apart at first and then double, and `GetDistanceBack` counts the
same depths. The receiver finds the first sample on both chains, at most twice as far back as the fork.
-/

namespace BitCrystal

open Forest Node

namespace CBlockLocator

/-- How far back the block at a position is. -/
def depthAt (k : ℕ) : ℕ := if k ≤ 10 then k else 9 + 2 ^ (k - 10)

theorem depthAt_succ (k : ℕ) : depthAt (k + 1) = depthAt k + 2 ^ (k - 10) := by
  rw [depthAt, depthAt]
  rcases Nat.lt_trichotomy k 10 with few | rfl | many
  · have still : k - 10 = 0 := by omega
    rw [if_pos (by omega), if_pos few.le, still, pow_zero]
  · rfl
  · obtain ⟨more, rfl⟩ := Nat.exists_eq_add_of_lt many
    have shift : 10 + more + 1 + 1 - 10 = 10 + more + 1 - 10 + 1 := by omega
    rw [if_neg (by omega), if_neg (by omega), shift, pow_succ]
    omega

theorem depthAt_strictMono : StrictMono depthAt := by
  refine strictMono_nat_of_lt_succ fun k => ?_
  rw [depthAt_succ]
  exact Nat.lt_add_of_pos_right (Nat.two_pow_pos _)

/-- The step is doubled from the eleventh block on. -/
theorem nStep_succ (k : ℕ) : (if 10 < k + 1 then 2 ^ (k - 10) * 2 else 2 ^ (k - 10)) = 2 ^ (k + 1 - 10) := by
  split_ifs with many
  · have shift : k + 1 - 10 = k - 10 + 1 := by omega
    rw [shift, pow_succ]
  · have first : k - 10 = 0 := by omega
    have next : k + 1 - 10 = 0 := by omega
    rw [first, next]

/-- So is it in `GetDistanceBack`, which compares the distance. -/
theorem lt_depthAt_iff (k : ℕ) : 10 < depthAt k ↔ 10 < k := by
  have tenth : depthAt 10 = 10 := rfl
  rw [← tenth, depthAt_strictMono.lt_iff_lt, tenth]

theorem depthAt_le_double {k fork : ℕ} (before : depthAt k < fork) : depthAt (k + 1) ≤ 2 * fork := by
  rw [depthAt] at before ⊢
  split_ifs at before ⊢ with next this
  · omega
  · omega
  · have exactly : k = 10 := by omega
    subst exactly
    omega
  · have shift : k + 1 - 10 = k - 10 + 1 := by omega
    rw [shift, pow_succ]
    omega

/-- There are few samples. -/
theorem le_log2_of_depthAt {k height : ℕ} (within : depthAt k ≤ height) : k ≤ 10 + (height + 1).log2 := by
  rw [depthAt] at within
  split_ifs at within
  · omega
  · have power : k - 10 ≤ (height + 1).log2 := (Nat.le_log2 (Nat.succ_ne_zero _)).mpr (by omega)
    omega

section

variable {index : BlockMap} {genesis tip : BlockPtr}

theorem stepBack_eq (nStep : ℕ) (pindex : Option BlockPtr) : stepBack index nStep pindex = back (parentOf index) nStep pindex := by
  induction nStep generalizing pindex with
  | zero => cases pindex <;> rfl
  | succ nStep ih =>
    cases pindex with
    | none => exact (back_none _).symm
    | some pindex => exact ih _

/-- The loop ends and samples the chain. -/
theorem setLoop_samples (rooted : Rooted index genesis) {rounds k : ℕ} {top : Option BlockPtr}
    (indexed : ∀ b ∈ top, ∃ entry, index b = some entry) (enough : ∀ b ∈ top, heightOf index b < rounds) :
    ∃ vHave, setLoop index rounds k (2 ^ (k - 10)) top = .ok vHave ∧
      ∀ i, vHave[i]? = back (parentOf index) (depthAt (k + i) - depthAt k) top := by
  induction rounds generalizing k top with
  | zero =>
    cases top with
    | none => exact ⟨[], rfl, fun i => (back_none _).symm⟩
    | some b => exact absurd (enough b rfl) (Nat.not_lt_zero _)
  | succ rounds ih =>
    cases top with
    | none => exact ⟨[], rfl, fun i => (back_none _).symm⟩
    | some b =>
      obtain ⟨entry, found⟩ := indexed b rfl
      have far : 0 < 2 ^ (k - 10) := Nat.two_pow_pos _
      obtain ⟨vHave, rest, samples⟩ := @ih (k + 1) (back (parentOf index) (2 ^ (k - 10)) (some b))
        (fun a there => rooted.indexed_of_ancestor (ancestor_of_back there) ⟨entry, found⟩) fun a there => by
          have lower := rooted.graded.height_back there
          have bound := enough b rfl
          omega
      refine ⟨b :: vHave, ?_, fun i => ?_⟩
      · have hash : assertSome .undefined entry.phashBlock = .ok b := by rw [rooted.self b entry found]; rfl
        rw [setLoop, found, stepBack_eq, nStep_succ, rest]
        exact Check.bind_eq_ok.mpr ⟨entry, rfl, Check.bind_eq_ok.mpr ⟨b, hash, rfl⟩⟩
      · cases i with
        | zero =>
          rw [Nat.add_zero, Nat.sub_self]
          rfl
        | succ i =>
          have mono := depthAt_strictMono.monotone (show k + 1 ≤ k + 1 + i by omega)
          have step := depthAt_succ k
          have index : k + (i + 1) = k + 1 + i := by omega
          have depth : depthAt (k + 1 + i) - depthAt k = 2 ^ (k - 10) + (depthAt (k + 1 + i) - depthAt (k + 1)) := by omega
          rw [List.getElem?_cons_succ, samples, index, depth, back_add]

/-- `Set` succeeds and samples the chain of the block. -/
theorem set_samples (rooted : Rooted index genesis) (found : ∃ entry, index tip = some entry) :
    ∃ vHave, set index genesis (some tip) = .ok ⟨vHave ++ [genesis]⟩ ∧
      ∀ i, vHave[i]? = back (parentOf index) (depthAt i) (some tip) := by
  obtain ⟨entry, found⟩ := found
  have indexed : ∀ b ∈ some tip, ∃ entry, index b = some entry := by
    rintro b ⟨⟩
    exact ⟨entry, found⟩
  have enough : ∀ b ∈ some tip, heightOf index b < entry.nHeight + 1 := by
    rintro b ⟨⟩
    rw [heightOf, found]
    exact Nat.lt_succ_self _
  obtain ⟨vHave, ran, samples⟩ := @setLoop_samples index genesis rooted _ 0 _ indexed enough
  refine ⟨vHave, ?_, fun i => ?_⟩
  · rw [set, Option.bind_some, found]
    exact Check.bind_eq_ok.mpr ⟨vHave, ran, rfl⟩
  · rw [samples, Nat.zero_add]
    rfl

theorem height_genesis (rooted : Rooted index genesis) (found : ∃ entry, index tip = some entry) :
    heightOf index genesis = 0 := by
  obtain ⟨bottom, ancestor, height⟩ := rooted.graded.exists_of_height_le rooted.height_root (Nat.zero_le (heightOf index tip))
  obtain ⟨entry, there⟩ := rooted.indexed_of_ancestor ancestor found
  cases edge : entry.pprev with
  | none => exact (rooted.root bottom entry there edge).1 ▸ height
  | some above =>
    have link := (parentOf_of_some there).trans edge
    have step := rooted.graded bottom above link
    omega

/-- How many samples there are, and their heights. -/
theorem samples_bounds (rooted : Rooted index genesis) (found : ∃ entry, index tip = some entry) {vHave : List Uint256}
    (samples : ∀ i, vHave[i]? = back (parentOf index) (depthAt i) (some tip)) :
    (vHave ++ [genesis]).length ≤ 12 + (heightOf index tip + 1).log2 ∧
      (vHave ++ [genesis]).Pairwise fun a b => heightOf index b ≤ heightOf index a := by
  have depth {i : ℕ} (inside : i < vHave.length) : heightOf index vHave[i] + depthAt i = heightOf index tip := by
    apply rooted.graded.height_back
    rw [← samples, List.getElem?_eq_getElem]
  constructor
  · rw [List.length_append, List.length_singleton]
    rcases Nat.eq_zero_or_pos vHave.length with zero | positive
    · omega
    · have last := depth (show vHave.length - 1 < vHave.length by omega)
      have few := le_log2_of_depthAt (show depthAt (vHave.length - 1) ≤ heightOf index tip by omega)
      omega
  · refine List.pairwise_append.mpr ⟨List.pairwise_iff_getElem.mpr fun i j inside within before => ?_,
      List.pairwise_singleton .., fun a _ b last => ?_⟩
    · have higher := depth inside
      have lower := depth within
      have order := depthAt_strictMono before
      omega
    · rw [List.mem_singleton.mp last, height_genesis rooted found]
      exact Nat.zero_le _

end

section

variable {index : BlockMap} {genesis tip : BlockPtr} {node : Node} {fork : ℕ}

/-- The block `fork` steps back is in the main chain of the node and those above it are not. A hash is that of one
block, which names the block before it. -/
structure SharesUpTo (index : BlockMap) (node : Node) (tip : BlockPtr) (fork : ℕ) : Prop where
  agree : ∀ b entry entry', index b = some entry → node.mapBlockIndex b = some entry' → entry'.pprev = entry.pprev
  shared : ∃ b, back (parentOf index) fork (some tip) = some b ∧ node.isInMainChain b
  apart : ∀ k < fork, ∀ b, back (parentOf index) k (some tip) = some b → ¬ node.isInMainChain b

theorem has_iff (linked : Linked genesis node) (hash : Uint256) : has node hash = true ↔ node.isInMainChain hash := by
  rw [has, decide_eq_true_iff, and_iff_right_iff_imp, linked.isInMainChain_iff]
  rintro ⟨best, found, ancestor⟩
  obtain ⟨entry, there, -⟩ := linked.tip best found
  obtain ⟨lower, indexed⟩ := linked.tree.indexed_of_ancestor ancestor ⟨entry, there⟩
  rw [indexed]
  rfl

/-- The chains agree from the fork on. -/
theorem SharesUpTo.isInMainChain_iff (shares : SharesUpTo index node tip fork) (linked : Linked genesis node) {k : ℕ}
    {b : BlockPtr} (found : back (parentOf index) k (some tip) = some b) : node.isInMainChain b ↔ fork ≤ k := by
  constructor
  · intro main
    by_contra before
    exact shares.apart k (Nat.lt_of_not_le before) b found main
  · intro behind
    obtain ⟨more, rfl⟩ := Nat.exists_eq_add_of_le behind
    clear behind
    induction more generalizing b with
    | zero =>
      obtain ⟨last, there, main⟩ := shares.shared
      rw [Nat.add_zero, there] at found
      cases found
      exact main
    | succ more ih =>
      rw [← Nat.add_assoc, back_succ] at found
      obtain ⟨child, there, edge⟩ := Option.bind_eq_some_iff.mp found
      have main := ih there
      obtain ⟨entry, lies, prev⟩ := Option.bind_eq_some_iff.mp edge
      have indexed := (has_iff linked child).mpr main
      rw [has, decide_eq_true_iff] at indexed
      obtain ⟨entry', lies'⟩ := Option.isSome_iff_exists.mp indexed.1
      have link : parentOf node.mapBlockIndex child = some b := by
        rw [parentOf, lies', Option.bind_some, shares.agree child entry entry' lies lies', prev]
      rw [linked.isInMainChain_iff] at main ⊢
      exact main.of_ancestor (.of_parent link)

/-- `GetDistanceBack` counts the depths. -/
theorem distanceLoop_eq {vHave : List Uint256} {k i : ℕ} {b : Uint256} (found : vHave[i]? = some b)
    (first : ∀ j < i, ∀ hash, vHave[j]? = some hash → has node hash = false) (main : has node b = true) (rest : List Uint256) :
    distanceLoop node (depthAt k) (2 ^ (k - 10)) (vHave ++ rest) = depthAt (k + i) := by
  induction vHave generalizing k i with
  | nil => cases found
  | cons hash vHave ih =>
    rw [List.cons_append, distanceLoop]
    cases i with
    | zero =>
      cases found
      rw [if_pos main]
      rfl
    | succ i =>
      have miss := first 0 (Nat.succ_pos _) hash rfl
      have step : (if 10 < depthAt k + 2 ^ (k - 10) then 2 ^ (k - 10) * 2 else 2 ^ (k - 10)) = 2 ^ (k + 1 - 10) := by
        rw [← depthAt_succ, ← nStep_succ]
        exact if_congr (lt_depthAt_iff (k + 1)) rfl rfl
      have later := @ih (k + 1) i found fun j before other there => first (j + 1) (Nat.succ_lt_succ before) other there
      have position : k + 1 + i = k + (i + 1) := by omega
      rw [if_neg (by rw [miss]; exact Bool.false_ne_true), step, ← depthAt_succ, later, position]

end

/-- A locator has few hashes of falling heights with genesis at the end. The receiver finds the first sample on both
chains, at most twice as far back as the fork and with the distance counted right, or there is none and it finds
genesis; then the next sample, which is not so far back either, would be below genesis. -/
theorem getBlockIndex_finds_fork {index : BlockMap} {genesis tip : BlockPtr} {node : Node} {fork : ℕ}
    (rooted : Rooted index genesis) (found : ∃ entry, index tip = some entry) (linked : Linked genesis node)
    (shares : SharesUpTo index node tip fork) :
    ∃ locator, set index genesis (some tip) = .ok locator ∧
      locator.vHave.length ≤ 12 + (heightOf index tip + 1).log2 ∧
      locator.vHave.Pairwise (fun a b => heightOf index b ≤ heightOf index a) ∧
      locator.vHave.getLast? = some genesis ∧
      ((∃ i b, i + 1 < locator.vHave.length ∧ locator.vHave[i]? = some b ∧ locator.getBlockIndex node = some b ∧
          Ancestor (parentOf index) b tip ∧ node.isInMainChain b ∧
          heightOf index b + locator.getDistanceBack node = heightOf index tip ∧
          fork ≤ locator.getDistanceBack node ∧ locator.getDistanceBack node ≤ 2 * fork) ∨
        (∀ hash ∈ locator.vHave.dropLast, ¬ node.isInMainChain hash) ∧ locator.getBlockIndex node = some genesis ∧
          heightOf index tip < 2 * fork) := by
  obtain ⟨vHave, ran, samples⟩ := set_samples rooted found
  obtain ⟨few, falling⟩ := samples_bounds rooted found samples
  refine ⟨_, ran, few, falling, List.getLast?_concat .., ?_⟩
  have main {i : ℕ} {hash : Uint256} (there : vHave[i]? = some hash) : has node hash = true ↔ fork ≤ depthAt i := by
    rw [has_iff linked]
    exact shares.isInMainChain_iff linked ((samples i).symm.trans there)
  rw [getBlockIndex, List.find?_append]
  cases matched : vHave.find? (has node) with
  | none =>
    have missed := List.find?_eq_none.mp matched
    refine .inr ⟨fun hash member onMain => ?_, ?_, ?_⟩
    · rw [List.dropLast_concat] at member
      exact absurd ((has_iff linked hash).mpr onMain) (missed hash member)
    · obtain ⟨b, -, onMain⟩ := shares.shared
      obtain ⟨best, top, -⟩ := (linked.isInMainChain_iff b).mp onMain
      have origin := linked.started (by rw [top]; exact Option.some_ne_none best)
      rw [Option.none_or, List.find?_singleton, origin]
      split <;> rfl
    · by_contra high
      have first : vHave[0]? = some tip := samples 0
      have inside := (List.getElem?_eq_some_iff.mp first).1
      have lies : vHave[vHave.length - 1]? = some vHave[vHave.length - 1] := List.getElem?_eq_getElem (by omega)
      have behind : depthAt (vHave.length - 1) < fork :=
        not_le.mp fun le => missed _ (List.mem_of_getElem? lies) ((main lies).mpr le)
      have next := depthAt_le_double behind
      rw [Nat.sub_add_cancel inside] at next
      obtain ⟨b, there⟩ := rooted.graded.exists_back rooted.height_root (next.trans (not_lt.mp high))
      rw [← samples, List.getElem?_eq_none le_rfl] at there
      cases there
  | some b =>
    obtain ⟨onMain, i, inside, there, before⟩ := List.find?_eq_some_iff_getElem.mp matched
    have sample : vHave[i]? = some b := by rw [List.getElem?_eq_getElem inside, there]
    have sampled : back (parentOf index) (depthAt i) (some tip) = some b := (samples i).symm.trans sample
    have earlier : ∀ j < i, ∀ hash, vHave[j]? = some hash → has node hash = false := by
      intro j less hash lies
      have miss := before j less
      rw [List.getElem?_eq_getElem (less.trans inside), Option.some.injEq] at lies
      rwa [lies, Bool.not_eq_true'] at miss
    have distance : getDistanceBack ⟨vHave ++ [genesis]⟩ node = depthAt i := by
      have counted := @distanceLoop_eq node vHave 0 i b sample earlier onMain [genesis]
      rw [Nat.zero_add] at counted
      exact counted
    rw [distance]
    refine .inl ⟨i, b, ?_, ?_, rfl, ancestor_of_back sampled, (has_iff linked b).mp onMain,
      rooted.graded.height_back sampled, (main sample).mp onMain, ?_⟩
    · rw [List.length_append, List.length_singleton]
      omega
    · rw [List.getElem?_append_left inside]
      exact sample
    · cases i with
      | zero => exact Nat.zero_le _
      | succ i =>
        have lies : vHave[i]? = some vHave[i] := List.getElem?_eq_getElem (Nat.lt_of_succ_lt inside)
        have miss := earlier i (Nat.lt_succ_self i) _ lies
        have behind : ¬ fork ≤ depthAt i := fun le => Bool.false_ne_true (miss.symm.trans ((main lies).mpr le))
        exact depthAt_le_double (Nat.lt_of_not_le behind)

open TestNet

/-- A chain above genesis. -/
def chainOf (blocks : ℕ) : List (BlockPtr × CBlockIndex) :=
  (0, genesisEntry) :: (List.range blocks).map fun i => (i + 1, entry (i + 1) i (i + 1))

/-- The blocks of such a chain in order, with nothing but a coinbase. -/
def chainOps : ChainOps :=
  .real platform 10 { blockFile := fun hash => some (mine hash (hash - 1) [coinbase hash 0]), undoFile := fun _ => none }

def ahead : BlockMap := treeOf (chainOf 30)

def unconnected : Node where
  mapBlockIndex := treeOf (chainOf 18)
  pcoinsTip := { base := ⟨fun _ => none, none⟩ }

def behind : Node := (setBestChain chainOps (pure ()) 18 unconnected).2

/-- The sender has 30 blocks above genesis and the receiver the first 18 of them, between two samples. -/
theorem getBlockIndex_finds_fork_behind :
    ∃ locator, set ahead 0 (some 30) = .ok locator ∧ locator.vHave.length ≤ 16 ∧ locator.vHave.getLast? = some 0 ∧
      ∃ b, locator.getBlockIndex behind = some b ∧ behind.isInMainChain b ∧ 12 ≤ locator.getDistanceBack behind ∧
        locator.getDistanceBack behind ≤ 24 := by
  have rooted : Rooted ahead 0 := rooted_treeOf (by decide +kernel)
  have ran : (setBestChain chainOps (pure ()) 18 unconnected).1 = .ok () := by decide +kernel
  have start : Unstarted 0 unconnected :=
    ⟨rooted_treeOf (by decide +kernel), nextOf_treeOf (by decide +kernel), rfl, rfl, rfl, rfl, rfl⟩
  have run : ChainRun 0 behind :=
    .step (.start start) (.switched (ChainOps.real_sound ..) (StateAction.outcome_of_fst ran))
  have shares : SharesUpTo ahead behind 30 12 := by
    refine ⟨fun b entry entry' found found' => ?_, ⟨18, by decide +kernel, by decide +kernel⟩, fun k less b found => ?_⟩
    · have each : ∀ e ∈ chainOf 30, ∀ entry' ∈ behind.mapBlockIndex e.1, entry'.pprev = e.2.pprev := by decide +kernel
      have links := each (b, entry) (mem_of_treeOf found)
      dsimp only at links
      exact links entry' found'
    · have each : ∀ k < 12, ∀ b ∈ back (parentOf ahead) k (some 30), ¬ behind.isInMainChain b := by decide +kernel
      exact each k less b found
  have height : heightOf ahead 30 = 30 := by decide +kernel
  obtain ⟨locator, made, few, -, last, ⟨i, b, -, -, found, -, onMain, -, least, most⟩ | ⟨-, -, low⟩⟩ :=
    getBlockIndex_finds_fork rooted ⟨entry 30 29 30, by decide +kernel⟩ run.linked shares
  · rw [height] at few
    exact ⟨locator, made, few.trans (by decide), last, b, found, onMain, least, most⟩
  · omega

end CBlockLocator

end BitCrystal
