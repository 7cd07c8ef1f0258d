import BitCrystal.Machine.Forest
import BitCrystal.Model.BestChain

/-! # The block index as a forest

The walks of `SetBestChain` through `pprev` in terms of chains: the fork is the last common block,
the lists of blocks to disconnect and to connect are the paths down to it, and rewriting `pnext` is
rewiring along these paths.
-/

namespace BitCrystal

open Forest Check

namespace Node

def parentOf (index : BlockMap) (pindex : BlockPtr) : Option BlockPtr := (index pindex).bind CBlockIndex.pprev

def nextOf (index : BlockMap) (pindex : BlockPtr) : Option BlockPtr := (index pindex).bind CBlockIndex.pnext

def heightOf (index : BlockMap) (pindex : BlockPtr) : ℕ := (index pindex).elim 0 CBlockIndex.nHeight

section

variable {index : BlockMap} {pindex : BlockPtr} {entry : CBlockIndex} (found : index pindex = some entry)
include found

theorem parentOf_of_some : parentOf index pindex = entry.pprev := by rw [parentOf, found, Option.bind_some]

theorem nextOf_of_some : nextOf index pindex = entry.pnext := by rw [nextOf, found, Option.bind_some]

theorem heightOf_of_some : heightOf index pindex = entry.nHeight := by rw [heightOf, found, Option.elim_some]

end

/-- Entries know their hash, parents are indexed one level below, and the only root is genesis. -/
structure Rooted (index : BlockMap) (genesis : BlockPtr) : Prop where
  self : ∀ pindex entry, index pindex = some entry → entry.phashBlock = some pindex
  parent : ∀ pindex entry prev, index pindex = some entry → entry.pprev = some prev →
    ∃ above, index prev = some above ∧ entry.nHeight = above.nHeight + 1
  root : ∀ pindex entry, index pindex = some entry → entry.pprev = none → pindex = genesis ∧ entry.nHeight = 0

variable {index : BlockMap} {genesis : BlockPtr}

namespace Rooted

variable (rooted : Rooted index genesis)
include rooted

theorem graded : Graded (parentOf index) (heightOf index) := by
  intro child above edge
  obtain ⟨entry, found, prev⟩ := Option.bind_eq_some_iff.mp edge
  obtain ⟨top, there, height⟩ := rooted.parent child entry above found prev
  rw [heightOf, heightOf, found, there]
  exact height

theorem height_root (pindex : BlockPtr) (top : parentOf index pindex = none) : heightOf index pindex = 0 := by
  rw [heightOf]
  cases found : index pindex with
  | none => rfl
  | some entry =>
    rw [parentOf, found] at top
    exact (rooted.root pindex entry found top).2

/-- The blocks of the chain of an indexed block are indexed. -/
theorem indexed_of_ancestor {a b : BlockPtr} (ancestor : Ancestor (parentOf index) a b)
    (found : ∃ entry, index b = some entry) : ∃ entry, index a = some entry := by
  induction ancestor using Relation.ReflTransGen.head_induction_on with
  | refl => exact found
  | head edge _ ih =>
    obtain ⟨entry, found, prev⟩ := Option.bind_eq_some_iff.mp edge
    obtain ⟨above, there, -⟩ := rooted.parent _ entry _ found prev
    exact ih ⟨above, there⟩

end Rooted

variable {rounds : ℕ}

/-- The loop that lowers `plonger` loses no block at or below the height it stops at. -/
theorem descend_ok {nHeight : ℕ} {plonger low : BlockPtr} (walked : descend index nHeight rounds plonger = .ok low) :
    heightOf index low ≤ nHeight ∧ ∀ a, Ancestor (parentOf index) a plonger → heightOf index a ≤ nHeight →
      Ancestor (parentOf index) a low := by
  induction rounds generalizing plonger with
  | zero =>
    rw [descend] at walked
    obtain ⟨entry, found, walked⟩ := bind_eq_ok.mp walked
    have found := assertSome_eq_ok.mp found
    split at walked
    next low =>
      cases walked
      exact ⟨by rwa [heightOf, found], fun a ancestor _ => ancestor⟩
    next high => cases walked
  | succ rounds ih =>
    rw [descend] at walked
    obtain ⟨entry, found, walked⟩ := bind_eq_ok.mp walked
    have found := assertSome_eq_ok.mp found
    split at walked
    next low =>
      cases walked
      exact ⟨by rwa [heightOf, found], fun a ancestor _ => ancestor⟩
    next high =>
      obtain ⟨prev, edge, walked⟩ := bind_eq_ok.mp walked
      have edge := assertSome_eq_ok.mp edge
      obtain ⟨lower, kept⟩ := ih walked
      refine ⟨lower, fun a ancestor small => kept a ?_ small⟩
      rcases ancestor_iff.mp ancestor with rfl | ⟨above, link, rest⟩
      · rw [heightOf, found] at small
        exact absurd small high
      · rw [parentOf, found] at link
        cases link.symm.trans edge
        exact rest

/-- Every common block of the two chains is on the chain of the fork. -/
theorem findFork_ok (rooted : Rooted index genesis) {start fork : Option BlockPtr}
    {plonger : BlockPtr} (walked : findFork index rounds start plonger = .ok fork) {a : BlockPtr}
    (first : OnChain (parentOf index) start a) (second : Ancestor (parentOf index) a plonger) :
    OnChain (parentOf index) fork a := by
  induction rounds generalizing start plonger with
  | zero =>
    cases start with
    | none => exact absurd first not_onChain_none
    | some pfork =>
      rw [findFork] at walked
      split at walked
      · cases walked
        exact first
      · cases walked
  | succ rounds ih =>
    cases start with
    | none => exact absurd first not_onChain_none
    | some pfork =>
      rw [findFork] at walked
      split at walked
      · cases walked
        exact first
      next apart =>
        obtain ⟨top, found, walked⟩ := bind_eq_ok.mp walked
        have found := assertSome_eq_ok.mp found
        obtain ⟨longer, -, walked⟩ := bind_eq_ok.mp walked
        obtain ⟨low, lowered, walked⟩ := bind_eq_ok.mp walked
        obtain ⟨lower, kept⟩ := descend_ok lowered
        have height := heightOf_of_some found
        have onFork := onChain_some.mp first
        have below := kept a second (height ▸ rooted.graded.height_le onFork)
        split at walked
        · cases walked
          exact first
        next other =>
          obtain ⟨prev, edge, walked⟩ := bind_eq_ok.mp walked
          have edge := assertSome_eq_ok.mp edge
          refine ih walked ?_ below
          rcases ancestor_iff.mp onFork with rfl | ⟨above, link, rest⟩
          · exact absurd (rooted.graded.eq_of_height_le below (height ▸ lower)) other
          · rw [parentOf, found] at link
            cases link.symm.trans edge
            exact onChain_some.mpr rest

theorem pathTo_ok {fork : Option BlockPtr} {start : Option BlockPtr} {path : List BlockPtr}
    (walked : pathTo index fork rounds start = .ok path) : Path (parentOf index) start path fork := by
  induction rounds generalizing start path with
  | zero =>
    unfold pathTo at walked
    split at walked
    next same =>
      cases walked
      exact same ▸ .nil start
    next other => cases start <;> cases walked
  | succ rounds ih =>
    unfold pathTo at walked
    split at walked
    next same =>
      cases walked
      exact same ▸ .nil start
    next other =>
      cases start with
      | none => cases walked
      | some pindex =>
        obtain ⟨entry, found, walked⟩ := bind_eq_ok.mp walked
        have found := assertSome_eq_ok.mp found
        obtain ⟨rest, further, result⟩ := bind_eq_ok.mp walked
        cases result
        have edge := parentOf_of_some found
        exact .cons (edge ▸ ih further)

/-! ## The walks end -/

section Ends

variable (rooted : Rooted index genesis)
include rooted

theorem Rooted.eq_genesis {pindex : BlockPtr} (indexed : ∃ entry, index pindex = some entry)
    (low : heightOf index pindex = 0) : pindex = genesis := by
  obtain ⟨entry, found⟩ := indexed
  cases edge : entry.pprev with
  | none => exact (rooted.root pindex entry found edge).1
  | some prev =>
    have link := (parentOf_of_some found).trans edge
    have := rooted.graded pindex prev link
    omega

/-- Genesis is a root. -/
theorem Rooted.pprev_genesis {entry : CBlockIndex} (found : index genesis = some entry) : entry.pprev = none := by
  have low (n : ℕ) : ∀ pindex e, index pindex = some e → e.nHeight = n → entry.nHeight = 0 := by
    induction n with
    | zero =>
      intro pindex e there height
      have same : pindex = genesis := rooted.eq_genesis ⟨e, there⟩ (by rw [heightOf, there]; exact height)
      rw [same, found] at there
      cases there
      exact height
    | succ n ih =>
      intro pindex e there height
      cases edge : e.pprev with
      | none =>
        have := (rooted.root pindex e there edge).2
        omega
      | some prev =>
        obtain ⟨above, indexed, step⟩ := rooted.parent pindex e prev there edge
        exact ih prev above indexed (by omega)
  rw [Option.eq_none_iff_forall_ne_some]
  intro prev edge
  obtain ⟨above, -, step⟩ := rooted.parent genesis entry prev found edge
  have := low _ genesis entry found rfl
  omega

variable {rounds : ℕ}

theorem descend_returns {nHeight : ℕ} {plonger : BlockPtr} (indexed : ∃ entry, index plonger = some entry)
    (enough : heightOf index plonger ≤ nHeight + rounds) :
    ∃ low, descend index nHeight rounds plonger = .ok low ∧ Ancestor (parentOf index) low plonger := by
  obtain ⟨entry, found⟩ := indexed
  have height := heightOf_of_some found
  induction rounds generalizing plonger entry with
  | zero =>
    refine ⟨plonger, ?_, .refl _⟩
    rw [descend, found]
    exact if_pos (by omega)
  | succ rounds ih =>
    by_cases reached : entry.nHeight ≤ nHeight
    · refine ⟨plonger, ?_, .refl _⟩
      rw [descend, found]
      exact if_pos reached
    · have link := parentOf_of_some found
      cases edge : entry.pprev with
      | none =>
        have := rooted.height_root plonger (link.trans edge)
        omega
      | some prev =>
        have step := rooted.graded plonger prev (link.trans edge)
        obtain ⟨above, there, -⟩ := rooted.parent plonger entry prev found edge
        obtain ⟨low, walked, ancestor⟩ := ih (by omega) above there (heightOf_of_some there)
        refine ⟨low, ?_, ancestor.trans (.of_parent (link.trans edge))⟩
        rw [descend, found]
        apply (if_neg reached).trans
        rw [edge]
        exact walked

theorem findFork_returns {start plonger : BlockPtr} (started : ∃ entry, index start = some entry)
    (indexed : ∃ entry, index plonger = some entry) (enough : heightOf index start < rounds) :
    ∃ fork, findFork index rounds (some start) plonger = .ok (some fork) ∧
      Ancestor (parentOf index) fork start ∧ Ancestor (parentOf index) fork plonger := by
  induction rounds generalizing start plonger with
  | zero => omega
  | succ rounds ih =>
    by_cases met : start = plonger
    · exact ⟨start, by rw [findFork, if_pos met], .refl _, met ▸ .refl _⟩
    · obtain ⟨top, found⟩ := started
      obtain ⟨longer, there⟩ := indexed
      have height := heightOf_of_some found
      obtain ⟨low, walked, ancestor⟩ : ∃ low, descend index top.nHeight longer.nHeight plonger = .ok low ∧
          Ancestor (parentOf index) low plonger :=
        descend_returns rooted ⟨longer, there⟩ (by rw [heightOf, there]; exact Nat.le_add_left ..)
      have lower := (descend_ok walked).1
      have indexedLow := rooted.indexed_of_ancestor ancestor ⟨longer, there⟩
      have unfolded : findFork index (rounds + 1) (some start) plonger =
          if start = low then .ok (some start)
          else assertSome (.assertion "pfork != NULL") top.pprev >>= fun prev =>
            findFork index rounds (some prev) low := by
        rw [findFork, if_neg met, found, there]
        change (descend index top.nHeight longer.nHeight plonger >>= _) = _
        rw [walked]
        rfl
      rw [unfolded]
      by_cases same : start = low
      · exact ⟨start, if_pos same, .refl _, same ▸ ancestor⟩
      · rw [if_neg same]
        have link := parentOf_of_some found
        cases edge : top.pprev with
        | none =>
          have bottom := rooted.height_root start (link.trans edge)
          have genesisStart := rooted.eq_genesis ⟨top, found⟩ bottom
          exact absurd (genesisStart.trans (rooted.eq_genesis indexedLow (by omega)).symm) same
        | some prev =>
          have step := rooted.graded start prev (link.trans edge)
          obtain ⟨above, indexedPrev, -⟩ := rooted.parent start top prev found edge
          obtain ⟨fork, forked, first, second⟩ := ih ⟨above, indexedPrev⟩ indexedLow (by omega)
          exact ⟨fork, forked, first.trans (.of_parent (link.trans edge)), second.trans ancestor⟩

theorem pathTo_returns {fork : Option BlockPtr} {start : Option BlockPtr}
    (indexed : ∀ pindex ∈ start, ∃ entry, index pindex = some entry)
    (enough : ∀ pindex ∈ start, heightOf index pindex < rounds)
    (met : ∀ pindex ∈ fork, OnChain (parentOf index) start pindex) :
    ∃ path, pathTo index fork rounds start = .ok path := by
  induction rounds generalizing start with
  | zero =>
    cases start with
    | some pindex => exact absurd (enough pindex rfl) (Nat.not_lt_zero _)
    | none =>
      cases fork with
      | none => exact ⟨[], by unfold pathTo; exact if_pos rfl⟩
      | some pindex => exact absurd (met pindex rfl) not_onChain_none
  | succ rounds ih =>
    by_cases same : start = fork
    · exact ⟨[], by unfold pathTo; exact if_pos same⟩
    · cases start with
      | none =>
        cases fork with
        | none => exact absurd rfl same
        | some pindex => exact absurd (met pindex rfl) not_onChain_none
      | some pindex =>
        obtain ⟨entry, found⟩ := indexed pindex rfl
        have link := parentOf_of_some found
        obtain ⟨rest, walked⟩ : ∃ rest, pathTo index fork rounds entry.pprev = .ok rest := by
          refine ih (fun prev edge => ?_) (fun prev edge => ?_) fun target there => ?_
          · obtain ⟨above, indexedPrev, -⟩ := rooted.parent pindex entry prev found edge
            exact ⟨above, indexedPrev⟩
          · have := rooted.graded pindex prev (link.trans edge)
            have := enough pindex rfl
            omega
          · rcases ancestor_iff.mp (onChain_some.mp (met target there)) with rfl | below
            · exact absurd there.symm same
            · rwa [← link]
        refine ⟨pindex :: rest, ?_⟩
        unfold pathTo
        rw [if_neg same]
        change (assertSome .undefined (index pindex) >>= _) = _
        rw [found]
        change (pathTo index fork rounds entry.pprev >>= _) = _
        rw [walked]
        rfl

end Ends

/-- The two lists are the paths to the last common block. -/
structure Switch (index : BlockMap) (best : Option BlockPtr) (pindexNew : BlockPtr)
    (vDisconnect vConnect : List BlockPtr) (fork : Option BlockPtr) : Prop where
  down : Path (parentOf index) best vDisconnect fork
  up : Path (parentOf index) (some pindexNew) vConnect.reverse fork
  last : ∀ a, OnChain (parentOf index) best a → Ancestor (parentOf index) a pindexNew →
    OnChain (parentOf index) fork a

theorem findSwitch_ok (rooted : Rooted index genesis) {best : Option BlockPtr} {pindexNew : BlockPtr}
    {vDisconnect vConnect : List BlockPtr}
    (found : findSwitch index best pindexNew = .ok (vDisconnect, vConnect)) :
    ∃ fork, Switch index best pindexNew vDisconnect vConnect fork := by
  simp only [findSwitch, bind_eq_ok] at found
  obtain ⟨fork, forked, down, downPath, up, upPath, result⟩ := found
  cases result
  refine ⟨fork, pathTo_ok downPath, ?_, fun a first second => findFork_ok rooted forked first second⟩
  rw [List.reverse_reverse]
  exact pathTo_ok upPath

section

variable (rooted : Rooted index genesis)
include rooted

/-- Between indexed blocks the switch is found, and only without a best block is there no fork. -/
theorem findSwitch_returns {best : Option BlockPtr} {pindexNew : BlockPtr}
    (started : ∀ pindex ∈ best, ∃ entry, index pindex = some entry) (indexed : ∃ entry, index pindexNew = some entry) :
    ∃ vDisconnect vConnect fork, findSwitch index best pindexNew = .ok (vDisconnect, vConnect) ∧
      Switch index best pindexNew vDisconnect vConnect fork ∧ (fork = none → best = none) := by
  have above {pindex : BlockPtr} (there : ∃ entry, index pindex = some entry) :
      heightOf index pindex < rounds index (some pindex) := by
    obtain ⟨entry, found⟩ := there
    simp [heightOf, rounds, found]
  obtain ⟨fork, forked, first, second, nothing⟩ : ∃ fork, findFork index (rounds index best) best pindexNew = .ok fork ∧
      (∀ pindex ∈ fork, OnChain (parentOf index) best pindex) ∧
      (∀ pindex ∈ fork, OnChain (parentOf index) (some pindexNew) pindex) ∧ (fork = none → best = none) := by
    cases best with
    | none => exact ⟨none, by unfold findFork; rfl, nofun, nofun, fun _ => rfl⟩
    | some start =>
      obtain ⟨fork, forked, first, second⟩ :=
        findFork_returns rooted (started start rfl) indexed (above (started start rfl))
      refine ⟨some fork, forked, ?_, ?_, nofun⟩
      · rintro _ ⟨⟩
        exact onChain_some.mpr first
      · rintro _ ⟨⟩
        exact onChain_some.mpr second
  obtain ⟨down, downPath⟩ : ∃ path, pathTo index fork (rounds index best) best = .ok path := by
    refine pathTo_returns rooted started (fun pindex there => ?_) first
    cases there
    exact above (started pindex rfl)
  obtain ⟨up, upPath⟩ : ∃ path, pathTo index fork (rounds index (some pindexNew)) (some pindexNew) = .ok path := by
    refine pathTo_returns rooted (fun pindex there => ?_) (fun pindex there => ?_) second
    · cases there
      exact indexed
    · cases there
      exact above indexed
  refine ⟨down, up.reverse, fork, ?_, ⟨pathTo_ok downPath, ?_, fun a => findFork_ok rooted forked⟩, nothing⟩
  · rw [findSwitch, forked, ok_bind, downPath, ok_bind, upPath]
    rfl
  · rw [List.reverse_reverse]
    exact pathTo_ok upPath

end

namespace Switch

variable {best fork : Option BlockPtr} {pindexNew : BlockPtr} {vDisconnect vConnect : List BlockPtr}

/-- No block to connect is on the old chain. -/
theorem not_onChain (switch : Switch index best pindexNew vDisconnect vConnect fork)
    (rooted : Rooted index genesis) {pindex : BlockPtr} (member : pindex ∈ vConnect) :
    ¬ OnChain (parentOf index) best pindex := by
  intro old
  have above := List.mem_reverse.mpr member
  have new := onChain_some.mp (switch.up.onChain_iff.mpr (.inl above))
  exact switch.up.not_onChain rooted.graded above (switch.last pindex old new)

/-- Connecting ends at the new block, or the new block is the fork. -/
theorem getLast?_connect (switch : Switch index best pindexNew vDisconnect vConnect fork) :
    vConnect.getLast?.or fork = some pindexNew := by
  rw [← List.head?_reverse]
  have up := switch.up
  generalize vConnect.reverse = path at up
  cases up with
  | nil => rfl
  | cons _ => rfl

end Switch

theorem setNext_apply (index : BlockMap) (pindex : BlockPtr) (pnext : Option BlockPtr) (x : BlockPtr) :
    setNext index pindex pnext x =
      (index x).map fun entry => if parentOf index pindex = some x then { entry with pnext } else entry := by
  rw [setNext, ← parentOf]
  cases edge : parentOf index pindex with
  | none => simp
  | some prev =>
    by_cases same : x = prev
    · subst same
      simp
    · simp [same, Ne.symm same]

private theorem foldl_setNext (index : BlockMap) (l : List BlockPtr) (f : BlockPtr → Option BlockPtr) (x : BlockPtr) :
    l.foldl (fun index pindex => setNext index pindex (f pindex)) index x =
      (index x).map fun entry =>
        { entry with pnext := (Journal.latest (parentOf index) (some x) l).elim entry.pnext f } := by
  induction l using List.reverseRecOn generalizing x with
  | nil => simp
  | append_singleton l pindex ih =>
    have edge : parentOf (l.foldl (fun index pindex => setNext index pindex (f pindex)) index) pindex =
        parentOf index pindex := by
      rw [parentOf, parentOf, ih]
      cases index pindex <;> rfl
    rw [List.foldl_append, List.foldl_cons, List.foldl_nil, setNext_apply, ih, edge, Option.map_map,
      Journal.latest_append_singleton]
    split <;> simp [Function.comp_def]

/-- Only `pnext` changes, and as rewiring says. -/
theorem relink_apply (index : BlockMap) (vDisconnect vConnect : List BlockPtr) (x : BlockPtr) :
    relink index vDisconnect vConnect x = (index x).map fun entry =>
      { entry with pnext := rewire (parentOf index) (nextOf index) vDisconnect vConnect x } := by
  have edges : parentOf (vDisconnect.foldl (fun index pindex => setNext index pindex none) index) = parentOf index := by
    funext pindex
    rw [parentOf, parentOf, foldl_setNext index vDisconnect fun _ => none]
    cases index pindex <;> rfl
  rw [relink, foldl_setNext _ vConnect fun pindex => some pindex, edges, foldl_setNext index vDisconnect fun _ => none,
    Option.map_map]
  cases found : index x with
  | none => rfl
  | some entry =>
    simp only [Option.map_some, Function.comp_apply, rewire, nextOf, found, Option.bind_some]
    cases Journal.latest (parentOf index) (some x) vConnect <;>
      cases Journal.latest (parentOf index) (some x) vDisconnect <;> rfl

@[simp] theorem parentOf_relink (index : BlockMap) (vDisconnect vConnect : List BlockPtr) :
    parentOf (relink index vDisconnect vConnect) = parentOf index := by
  funext pindex
  rw [parentOf, parentOf, relink_apply]
  cases index pindex <;> rfl

theorem nextOf_relink (rooted : Rooted index genesis) (vDisconnect vConnect : List BlockPtr) :
    nextOf (relink index vDisconnect vConnect) =
      rewire (parentOf index) (nextOf index) vDisconnect vConnect := by
  funext x
  rw [nextOf, relink_apply]
  cases found : index x with
  | some entry => rfl
  | none =>
    have childless {l : List BlockPtr} : Journal.latest (parentOf index) (some x) l = none := by
      rw [Journal.latest, List.getLast?_eq_none_iff, List.filter_eq_nil_iff]
      intro child _
      rw [decide_eq_true_eq]
      intro edge
      obtain ⟨entry, there, prev⟩ := Option.bind_eq_some_iff.mp edge
      obtain ⟨above, indexed, -⟩ := rooted.parent child entry x there prev
      rw [found] at indexed
      contradiction
    rw [rewire, childless, childless, nextOf, found]
    rfl

end Node

end BitCrystal
