import BitCrystal.Proofs.AddressGroupings

/-! # The address groups are connected components

Every transaction yields groupings: the addresses that its inputs spend from with the change, and every address of
mine that it pays to by itself. The groups that the wallet reports are the components of these groupings, whatever
the order in which sets are gone through and wherever the allocator puts them, and no set stays on the heap.
-/

namespace BitCrystal

open Components Check

namespace CWallet

variable (crypto : Crypto) (wallet : CWallet)

/-- The input spends an output of mine with the address. -/
def SpendsOutput (txin : CTxIn) (address : CTxDestination) : Prop :=
  ∃ prev txout, wallet.mapWallet txin.prevout.hash = some prev ∧ prev.tx.vout[txin.prevout.n]? = some txout ∧
    wallet.isMine crypto txout ∧ extractDestination crypto txout.scriptPubKey = some address

def SpendsFrom (tx : CTransaction) (address : CTxDestination) : Prop :=
  ∃ txin ∈ tx.vin, wallet.SpendsOutput crypto txin address

/-- An address that change goes to. -/
def ChangesTo (tx : CTransaction) (address : CTxDestination) : Prop :=
  ∃ txout ∈ tx.vout, wallet.isChange crypto txout ∧ extractDestination crypto txout.scriptPubKey = some address

/-- A payment to an address of mine. -/
def PaysTo (tx : CTransaction) (address : CTxDestination) : Prop :=
  ∃ txout ∈ tx.vout, wallet.isMine crypto txout ∧ extractDestination crypto txout.scriptPubKey = some address

/-- Own input addresses with the change, and lone own outputs. -/
inductive IsGrouping (tx : CTransaction) (g : AddressSet) : Prop
  | inputs (own : ∃ address, wallet.SpendsFrom crypto tx address)
    (all : ∀ address, address ∈ g ↔ wallet.SpendsFrom crypto tx address ∨ wallet.ChangesTo crypto tx address)
  | lone (address : CTxDestination) (paid : wallet.PaysTo crypto tx address) (alone : g = {address})

variable {crypto wallet} {tx : CTransaction} {g : AddressSet}

theorem IsGrouping.nonempty (grouping : wallet.IsGrouping crypto tx g) : g.Nonempty := by
  cases grouping with
  | inputs own all =>
    obtain ⟨address, spent⟩ := own
    exact ⟨address, (all address).mpr (.inl spent)⟩
  | lone address paid alone =>
    rw [alone]
    exact Finset.singleton_nonempty address

theorem isMineTxIn_iff (txin : CTxIn) : wallet.isMineTxIn crypto txin ↔ ∃ prev txout,
    wallet.mapWallet txin.prevout.hash = some prev ∧ prev.tx.vout[txin.prevout.n]? = some txout ∧
      wallet.isMine crypto txout := by
  unfold isMineTxIn
  constructor
  · intro mine
    split at mine
    · cases mine
    · next prev known =>
      split at mine
      · cases mine
      · next txout output => exact ⟨prev, txout, known, output, mine⟩
  · rintro ⟨prev, txout, known, output, mine⟩
    simp only [known, output, mine]

variable (crypto wallet)

/-- An input that is mine has a transaction in the wallet and an output there. -/
theorem inputAddress_eq (txin : CTxIn) : ∃ found, wallet.inputAddress crypto txin = .ok found ∧
    ∀ address, found = some address ↔ wallet.SpendsOutput crypto txin address := by
  unfold inputAddress
  split
  · next other =>
    refine ⟨none, rfl, fun address => ⟨nofun, ?_⟩⟩
    rintro ⟨prev, txout, known, output, mine, -⟩
    exact absurd ((isMineTxIn_iff txin).mpr ⟨prev, txout, known, output, mine⟩) other
  · next mine =>
    obtain ⟨prev, txout, known, output, mine⟩ := (isMineTxIn_iff txin).mp (Decidable.of_not_not mine)
    refine ⟨extractDestination crypto txout.scriptPubKey, ?_, fun address => ⟨fun found => ?_, ?_⟩⟩
    · simp only [known, output, assertSome, ok_bind]
      rfl
    · exact ⟨prev, txout, known, output, mine, found⟩
    · rintro ⟨prev', txout', known', output', -, found⟩
      cases known.symm.trans known'
      cases output.symm.trans output'
      exact found

theorem inputAddresses_eq (vin : List CTxIn) : ∃ addresses, vin.mapM (wallet.inputAddress crypto) = .ok addresses ∧
    ∀ address, address ∈ addresses.reduceOption ↔ ∃ txin ∈ vin, wallet.SpendsOutput crypto txin address := by
  induction vin with
  | nil => exact ⟨[], rfl, by simp⟩
  | cons txin vin ih =>
    obtain ⟨found, first, spec⟩ := inputAddress_eq crypto wallet txin
    obtain ⟨addresses, rest, all⟩ := ih
    refine ⟨found :: addresses, ?_, fun address => ?_⟩
    · rw [List.mapM_cons, first, ok_bind, rest, ok_bind]
      rfl
    · rw [List.reduceOption_mem_iff, List.mem_cons, List.exists_mem_cons_iff, ← all, ← spec,
        List.reduceOption_mem_iff, eq_comm]

theorem mem_change (tx : CTransaction) (address : CTxDestination) :
    address ∈ (tx.vout.filter (wallet.isChange crypto)).filterMap
        (fun txout => extractDestination crypto txout.scriptPubKey) ↔ wallet.ChangesTo crypto tx address := by
  simp only [List.mem_filterMap, List.mem_filter, ChangesTo, and_assoc]

theorem mem_loneGroupings (tx : CTransaction) (g : AddressSet) :
    g ∈ wallet.loneGroupings crypto tx ↔ ∃ address, wallet.PaysTo crypto tx address ∧ g = {address} := by
  simp only [loneGroupings, List.mem_filterMap, List.mem_filter, PaysTo, Option.map_eq_some_iff]
  constructor
  · rintro ⟨txout, mine, address, found, rfl⟩
    exact ⟨address, ⟨txout, mine.1, mine.2, found⟩, rfl⟩
  · rintro ⟨address, ⟨txout, member, mine, found⟩, rfl⟩
    exact ⟨txout, ⟨member, mine⟩, address, found, rfl⟩

/-- The grouping is empty just when no own address is spent from. -/
theorem inputGrouping_eq (tx : CTransaction) : ∃ grouping, wallet.inputGrouping crypto tx = .ok grouping ∧
    (grouping ≠ ∅ ↔ ∃ address, wallet.SpendsFrom crypto tx address) ∧ (grouping ≠ ∅ →
      ∀ address, address ∈ grouping ↔ wallet.SpendsFrom crypto tx address ∨ wallet.ChangesTo crypto tx address) := by
  obtain ⟨addresses, ran, all⟩ := inputAddresses_eq crypto wallet tx.vin
  unfold inputGrouping
  rw [ran, ok_bind]
  refine ⟨_, rfl, ?_⟩
  rcases eq_or_ne addresses.reduceOption [] with nothing | something
  · have noSpends (address : CTxDestination) : ¬ wallet.SpendsFrom crypto tx address := by
      rw [SpendsFrom, ← all, nothing]
      exact List.not_mem_nil
    simp [nothing, noSpends]
  · obtain ⟨address, member⟩ := List.exists_mem_of_ne_nil _ something
    have mem (address : CTxDestination) : address ∈ addresses.reduceOption.toFinset ∪ ((tx.vout.filter
        (wallet.isChange crypto)).filterMap fun txout => extractDestination crypto txout.scriptPubKey).toFinset ↔
        wallet.SpendsFrom crypto tx address ∨ wallet.ChangesTo crypto tx address := by
      rw [Finset.mem_union, List.mem_toFinset, List.mem_toFinset, all, mem_change, SpendsFrom]
    rw [if_neg something]
    refine ⟨⟨fun _ => ⟨address, (all address).mp member⟩, fun _ => ?_⟩, fun _ => mem⟩
    exact Finset.ne_empty_of_mem ((mem address).mpr (.inl ((all address).mp member)))

private theorem mem_foldl_insert (gs : List AddressSet) (g : AddressSet) : ∀ groupings : Finset AddressSet,
    g ∈ gs.foldl (fun groupings grouping => insert grouping groupings) groupings ↔ g ∈ groupings ∨ g ∈ gs := by
  induction gs with
  | nil => simp
  | cons h gs ih =>
    intro groupings
    rw [List.foldl_cons, ih, Finset.mem_insert, List.mem_cons]
    tauto

theorem insertGroupings_eq (groupings : Finset AddressSet) (pcoin : CWalletTx) :
    ∃ next, wallet.insertGroupings crypto groupings pcoin = .ok next ∧
      ∀ g, g ∈ next ↔ g ∈ groupings ∨ wallet.IsGrouping crypto pcoin.tx g := by
  obtain ⟨grouping, ran, inhabited, all⟩ := inputGrouping_eq crypto wallet pcoin.tx
  have run : (if pcoin.tx.vin ≠ [] then wallet.inputGrouping crypto pcoin.tx else .ok ∅) = .ok grouping := by
    split
    · exact ran
    · next nonempty =>
      have empty : grouping = ∅ := by
        by_contra full
        obtain ⟨address, txin, member, -⟩ := inhabited.mp full
        rw [Decidable.of_not_not nonempty] at member
        cases member
      rw [empty]
  unfold insertGroupings
  rw [run, ok_bind]
  refine ⟨_, rfl, fun g => ?_⟩
  rw [mem_foldl_insert, mem_loneGroupings]
  constructor
  · rintro (member | ⟨address, paid, alone⟩)
    · split at member
      · next full =>
        rcases Finset.mem_insert.mp member with rfl | member
        · exact .inr (.inputs (inhabited.mp full) (all full))
        · exact .inl member
      · exact .inl member
    · exact .inr (.lone address paid alone)
  · rintro (member | ⟨own, exactly⟩ | ⟨address, paid, alone⟩)
    · left
      split
      · exact Finset.mem_insert_of_mem member
      · exact member
    · left
      have full := inhabited.mpr own
      have same : g = grouping := by
        ext address
        rw [exactly, all full]
      rw [if_pos full, same]
      exact Finset.mem_insert_self ..
    · exact .inr ⟨address, paid, alone⟩

end CWallet

namespace CWalletFile

open CWallet

variable (runtime : SetRuntime) (crypto : Crypto) (file : CWalletFile)

/-- The groupings of all transactions. -/
def groupings : Set AddressSet := {g | ∃ pcoin ∈ file.transactions, file.IsGrouping crypto pcoin.tx g}

private theorem insertAll_eq (pcoins : List CWalletTx) : ∀ groupings : Finset AddressSet,
    ∃ all, pcoins.foldlM (file.insertGroupings crypto) groupings = .ok all ∧
      ∀ g, g ∈ all ↔ g ∈ groupings ∨ ∃ pcoin ∈ pcoins, file.IsGrouping crypto pcoin.tx g := by
  induction pcoins with
  | nil => exact fun groupings => ⟨groupings, rfl, by simp⟩
  | cons pcoin pcoins ih =>
    intro groupings
    obtain ⟨next, inserted, one⟩ := insertGroupings_eq crypto file.toCWallet groupings pcoin
    obtain ⟨all, ran, rest⟩ := ih next
    refine ⟨all, ?_, fun g => ?_⟩
    · rw [List.foldlM_cons, inserted]
      exact ran
    · rw [rest, one, List.exists_mem_cons_iff, or_assoc]

/-- The groups are the components of the groupings, and every set on the heap has been deleted. -/
theorem getAddressGroupings_components : ∃ groups, file.getAddressGroupings runtime crypto = .ok (groups, ∅) ∧
    AreComponents (file.groupings crypto) groups := by
  obtain ⟨groupings, inserted, all⟩ := insertAll_eq crypto file file.transactions ∅
  have listed (g : AddressSet) : g ∈ runtime.groupings.toList groupings ↔ g ∈ file.groupings crypto := by
    rw [runtime.groupings.mem, all]
    simp [CWalletFile.groupings]
  obtain ⟨state, parts, merged, holds, components⟩ := GroupingState.holds_empty.addGroupings runtime
    (runtime.groupings.toList groupings) .empty fun g member => by
      obtain ⟨pcoin, -, grouping⟩ := (listed g).mp member
      exact grouping.nonempty
  obtain ⟨groups, heap, ran, collected, left⟩ := GroupingState.collect_all
    (runtime.pointers.toList state.uniqueGroupings) ∅ state.heap (runtime.pointers.nodup _)
    fun p member => (holds.live p).mp ((runtime.pointers.mem _ p).mp member)
  have clear : heap = ∅ := by
    have gone (p : ℕ) : p ∉ heap := by
      rw [left, runtime.pointers.mem, holds.live]
      tauto
    have empty := List.eq_nil_iff_forall_not_mem.mpr gone
    exact AList.ext (List.map_eq_nil_iff.mp empty)
  have same : groups = parts := by
    ext g
    rw [collected, holds.parts]
    constructor
    · rintro (member | ⟨p, -, held⟩)
      · exact absurd member (Finset.notMem_empty g)
      · exact ⟨p, held⟩
    · rintro ⟨p, held⟩
      refine .inr ⟨p, (runtime.pointers.mem _ p).mpr ((holds.live p).mpr (AList.lookup_isSome.mp ?_)), held⟩
      rw [held]
      rfl
  refine ⟨groups, ?_, ?_⟩
  · rw [getAddressGroupings, inserted, ok_bind, merged, ok_bind, ran, clear]
  · rw [same]
    convert components using 1
    ext g
    simp [listed]

end CWalletFile

end BitCrystal
