import BitCrystal.Proofs.AddrOperations

/-! # The address manager stays consistent

In a run from the empty manager the check of the tables finds nothing, as long as neither the ids nor the attempts of an
entry run out of numbers. In its states `SelectTried` finds the stalest of the entries it draws, but not its place.
-/

namespace BitCrystal

open Function Check

/-- A call of the address manager, with what chance and the clock contribute. -/
inductive AddrEvent
  | add (addr : CAddress) (source : CNetAddr) (nTimePenalty nAdjustedTime : ℤ) (draw : ℕ → ℕ)
  | good (addr : CService) (nTime : ℤ) (draw : ℕ → ℕ)
  | attempt (addr : CService) (nTime : ℤ)
  | connected (addr : CService) (nTime : ℤ)
  | select (fTried : Bool) (rounds : List CAddrMan.SelectRound)
  | getAddr (draw : ℕ → ℕ)

/-- The time of the call is positive. -/
def AddrEvent.Timely : AddrEvent → Prop
  | good _ nTime _ => 0 < nTime
  | attempt _ nTime => 0 < nTime
  | connected _ nTime => 0 < nTime
  | _ => True

namespace CAddrMan

variable (hash2 : List UInt8 → Uint256)

def step (s : CAddrMan) : AddrEvent → Check CAddrMan
  | .add addr source nTimePenalty nAdjustedTime draw => do
    let (_, s) ← s.add_ hash2 nAdjustedTime draw addr source nTimePenalty
    return s
  | .good addr nTime draw => s.good_ hash2 draw addr nTime
  | .attempt addr nTime => s.attempt_ addr nTime
  | .connected addr nTime => return s.connected_ addr nTime
  | .select fTried rounds => do
    let _ ← s.select_ fTried rounds
    return s
  | .getAddr draw => do
    let (_, s) ← s.getAddr_ draw
    return s

def run (s : CAddrMan) (events : List AddrEvent) : Check CAddrMan := events.foldlM (step hash2) s

/-- An id is left for a new entry, and a number for an attempt. -/
def HasRoom (s : CAddrMan) : AddrEvent → Prop
  | .add addr _ _ _ _ => addr.isRoutable = true → s.find addr.toCNetAddr = none → s.nIdCount ≠ INT_MAX
  | .attempt addr _ => ∀ n info, s.find addr.toCNetAddr = some (n, info) → info.toCService = addr →
      info.nAttempts ≠ INT_MAX
  | _ => True

/-- There is room for each call of a run in the state before it. -/
def Roomy (s : CAddrMan) : List AddrEvent → Prop
  | [] => True
  | event :: events => s.HasRoom event ∧ ∀ t, s.step hash2 event = .ok t → Roomy t events

/-- The tables and the indices tell the same. -/
structure Coherent (s : CAddrMan) : Prop where
  check : s.check_ = 0
  address : PartialInverse s.addresses s.mapAddr
  random : s.vRandom.Perm s.mapInfo.keys
  position : ∀ n info, s.mapInfo.find? n = some info → Standing s.vRandom n info
  tried : ∀ n info, s.mapInfo.find? n = some info → info.fInTried = true →
    s.triedContents.count n = 1 ∧ s.newContents.count n = 0 ∧ info.nRefCount = 0
  new : ∀ n info, s.mapInfo.find? n = some info → info.fInTried = false →
    s.triedContents.count n = 0 ∧ (s.newContents.count n : ℤ) = info.nRefCount ∧ 1 ≤ info.nRefCount
  triedSize : ∀ b, (s.vvTried b).length ≤ ADDRMAN_TRIED_BUCKET_SIZE
  newSize : ∀ b, (s.vvNew b).card ≤ ADDRMAN_NEW_BUCKET_SIZE
  nTried_eq : s.nTried = s.mapInfo.count (·.fInTried)
  nNew_eq : s.nNew = s.mapInfo.count fun info => !info.fInTried

variable {hash2} {s t : CAddrMan}

theorem Intact.coherent (intact : Intact hash2 none s) : s.Coherent := by
  have perm := intact.indexed.perm_keys
  have standing : ∀ n info, s.mapInfo.find? n = some info → Standing s.vRandom n info := fun n info found =>
    ⟨intact.indexed.nRandomPos n info found, intact.indexed.position_of_some found⟩
  have new (n : ℤ) : (s.newContents.count n : ℤ) = s.references n := intact.tabled.new n
  have tried (n : ℤ) : s.triedContents.count n = if s.isTried n then 1 else 0 := intact.tabled.tried n
  refine ⟨(check_eq_zero_iff s).mpr ⟨?_, intact.tabled.sound, standing, agree_of_known fun entry member => ?_,
    intact.tabled.nTried_eq, intact.tabled.nNew_eq, tried, new⟩, intact.indexed.address, perm, standing, ?_, ?_,
    intact.tabled.triedSize, intact.tabled.newSize, intact.tabled.nTried_eq, intact.tabled.nNew_eq⟩
  · rw [perm.length_eq, OrderedMap.length_keys, OrderedMap.size_eq_counts (·.fInTried), Nat.cast_add, intact.tabled.nTried_eq,
      intact.tabled.nNew_eq]
  · exact intact.indexed.mapAddr_of_some (OrderedMap.mem_entries.mp member)
  · intro n info found fInTried
    have zero := ((intact.tabled.sound n info found).tried fInTried).2
    refine ⟨by rw [tried, isTried_of_some found, fInTried, if_pos rfl], ?_, zero⟩
    have counted := new n
    rw [references_of_some found, zero] at counted
    exact Int.natCast_eq_zero.mp counted
  · intro n info found fInTried
    have positive := ((intact.tabled.sound n info found).new fInTried).1
    refine ⟨by rw [tried, isTried_of_some found, fInTried, if_neg Bool.false_ne_true], ?_, positive⟩
    rw [new, references_of_some found]

theorem Intact.empty (hash2 : List UInt8 → Uint256) (nKey : List UInt8) : Intact hash2 none { nKey } where
  indexed := .empty nKey 0 0
  tabled := {
    sound := nofun
    new := fun n => by
      have absent : n ∉ newContents { nKey } := fun member => by
        obtain ⟨b, inside⟩ := mem_newContents.mp member
        exact absurd inside (Finset.notMem_empty n)
      rw [Multiset.count_eq_zero.mpr absent]
      rfl
    tried := fun n => by
      have absent : n ∉ triedContents { nKey } := fun member => by
        obtain ⟨b, inside⟩ := mem_triedContents.mp member
        exact absurd inside List.not_mem_nil
      rw [Multiset.count_eq_zero.mpr absent]
      rfl
    newSize := fun _ => Nat.zero_le _
    triedSize := fun _ => Nat.zero_le _
    placed := fun _ _ member => absurd member List.not_mem_nil
    nTried_eq := rfl
    nNew_eq := rfl }

/-- A step that has room runs through and keeps the tables. -/
theorem Intact.step (intact : Intact hash2 none s) {event : AddrEvent} (timely : event.Timely)
    (room : s.HasRoom event) : ∃ t, s.step hash2 event = .ok t ∧ Intact hash2 none t := by
  cases event with
  | add addr source nTimePenalty nAdjustedTime draw =>
    obtain ⟨fNew, t, done, intact'⟩ : ∃ fNew t, s.add_ hash2 nAdjustedTime draw addr source nTimePenalty =
        .ok (fNew, t) ∧ Intact hash2 none t := by
      cases found : s.find addr.toCNetAddr with
      | some entry =>
        obtain ⟨t, done, intact'⟩ := intact.add_known found nAdjustedTime draw source nTimePenalty
        exact ⟨false, t, done, intact'⟩
      | none =>
        rcases Bool.eq_false_or_eq_true addr.isRoutable with routable | unroutable
        · obtain ⟨t, done, intact', -⟩ := intact.add_new routable found (room routable found) nAdjustedTime draw source
            nTimePenalty
          exact ⟨true, t, done, intact'⟩
        · exact ⟨false, s, add_unroutable unroutable, intact⟩
    exact ⟨t, bind_eq_ok.mpr ⟨_, done, rfl⟩, intact'⟩
  | good addr nTime draw => exact intact.good_ draw addr timely
  | attempt addr nTime => exact intact.attempt_ timely room
  | connected addr nTime => exact ⟨_, rfl, intact.connected_ addr nTime⟩
  | select fTried rounds =>
    obtain ⟨addr, done⟩ := intact.select_ fTried rounds
    exact ⟨s, bind_eq_ok.mpr ⟨addr, done, rfl⟩, intact⟩
  | getAddr draw =>
    obtain ⟨vAddr, t, done, intact'⟩ := intact.getAddr_ draw
    exact ⟨t, bind_eq_ok.mpr ⟨_, done, rfl⟩, intact'⟩

/-- A step without room fails. -/
theorem hasRoom_of_step {event : AddrEvent} (done : s.step hash2 event = .ok t) : s.HasRoom event := by
  cases event with
  | add addr source nTimePenalty nAdjustedTime draw =>
    intro routable missing full
    obtain ⟨_, done, _⟩ := bind_eq_ok.mp done
    rw [CAddrMan.add_, if_neg (not_not.mpr routable), missing] at done
    obtain ⟨_, done, _⟩ := bind_eq_ok.mp done
    obtain ⟨_, done, _⟩ := bind_eq_ok.mp done
    exact rejectIf_eq_ok.mp done full
  | attempt addr nTime =>
    intro n info found same full
    change s.attempt_ addr nTime = .ok t at done
    rw [CAddrMan.attempt_, found] at done
    dsimp only at done
    rw [if_neg (not_not.mpr same)] at done
    obtain ⟨_, done, _⟩ := bind_eq_ok.mp done
    exact rejectIf_eq_ok.mp done full
  | good | connected | select | getAddr => trivial

/-- A run that ends had room, and the tables are intact. -/
theorem Intact.run (intact : Intact hash2 none s) {events : List AddrEvent} (timely : ∀ event ∈ events, event.Timely)
    (done : s.run hash2 events = .ok t) : Intact hash2 none t ∧ s.Roomy hash2 events := by
  induction events generalizing s with
  | nil =>
    cases done
    exact ⟨intact, trivial⟩
  | cons event events ih =>
    obtain ⟨now, later⟩ := List.forall_mem_cons.mp timely
    obtain ⟨u, first, rest⟩ := bind_eq_ok.mp done
    have room := hasRoom_of_step first
    obtain ⟨v, second, between⟩ := intact.step now room
    obtain rfl := Except.ok.inj (first.symm.trans second)
    obtain ⟨intact', roomy⟩ := ih between later rest
    refine ⟨intact', room, fun w third => ?_⟩
    obtain rfl := Except.ok.inj (first.symm.trans third)
    exact roomy

/-- A run that has room ends. -/
theorem Intact.run_of_roomy (intact : Intact hash2 none s) {events : List AddrEvent}
    (timely : ∀ event ∈ events, event.Timely) (roomy : s.Roomy hash2 events) : ∃ t, s.run hash2 events = .ok t := by
  induction events generalizing s with
  | nil => exact ⟨s, rfl⟩
  | cons event events ih =>
    obtain ⟨now, later⟩ := List.forall_mem_cons.mp timely
    obtain ⟨room, rest⟩ := roomy
    obtain ⟨u, done, between⟩ := intact.step now room
    obtain ⟨t, last⟩ := ih between later (rest u done)
    exact ⟨t, bind_eq_ok.mpr ⟨u, done, last⟩⟩

/-- A run from the empty manager leads to a coherent state if and only if its numbers suffice. -/
theorem run_coherent_iff (hash2 : List UInt8 → Uint256) (nKey : List UInt8) (events : List AddrEvent)
    (timely : ∀ event ∈ events, event.Timely) :
    (∃ s, run hash2 { nKey } events = .ok s ∧ s.Coherent) ↔ Roomy hash2 { nKey } events := by
  have start := Intact.empty hash2 nKey
  constructor
  · rintro ⟨s, done, -⟩
    exact (start.run timely done).2
  · intro roomy
    obtain ⟨s, done⟩ := start.run_of_roomy timely roomy
    exact ⟨s, done, (start.run timely done).1.coherent⟩

/-- One of 2^31 addresses of one network. -/
def manyAddr (i : ℕ) : CAddress := { ip := ⟨0x2600 * 256 ^ 14 + i % 2 ^ 31, by omega⟩ }

theorem manyAddr_routable (i : ℕ) : (manyAddr i).isRoutable = true := by
  have ip : (manyAddr i).ip.val = 0x2600 * 256 ^ 14 + i % 2 ^ 31 := rfl
  have first : (manyAddr i).getByte 15 = 0x26 := by
    have byte : (0x2600 * 256 ^ 14 + i % 2 ^ 31) / 256 ^ 15 % 256 = 0x26 := by omega
    rw [CNetAddr.getByte, ip, byte]
    rfl
  have network : (0x2600 * 256 ^ 14 + i % 2 ^ 31) / 256 ^ 4 = 0x2600 * 256 ^ 10 := by omega
  have isIPv4 : (manyAddr i).isIPv4 = false := by
    rw [CNetAddr.isIPv4, CNetAddr.startsWith, ip, network]
    decide
  have shifted : (manyAddr i).startsWith 9 0xffff = false := by
    have prefix9 : (0x2600 * 256 ^ 14 + i % 2 ^ 31) / 256 ^ 7 = 0x2600 * 256 ^ 7 := by omega
    rw [CNetAddr.startsWith, ip, prefix9]
    decide
  have isRFC4862 : (manyAddr i).isRFC4862 = false := by
    have prefix8 : (0x2600 * 256 ^ 14 + i % 2 ^ 31) / 256 ^ 8 = 0x2600 * 256 ^ 6 := by omega
    rw [CNetAddr.isRFC4862, CNetAddr.startsWith, ip, prefix8]
    decide
  have whole (pch : ℕ) (small : pch < 2) : (manyAddr i).startsWith 16 pch = false := by
    apply decide_eq_false
    rw [ip]
    omega
  have isValid : (manyAddr i).isValid = true := by
    simp [CNetAddr.isValid, CNetAddr.isRFC3849, isIPv4, shifted, whole, first]
  have isRFC4193 : ¬ (0x26 &&& 0xfe : UInt8) = 0xfc := by decide
  simp [CNetAddr.isRoutable, isValid, isRFC4193, CNetAddr.isRFC1918, CNetAddr.isRFC3927, isRFC4862, CNetAddr.isRFC4193,
    CNetAddr.isRFC4843, CNetAddr.isLocal, isIPv4, whole, first]

theorem manyAddr_injective {i j : ℕ} (left : i < 2 ^ 31) (right : j < 2 ^ 31)
    (same : (manyAddr i).toCNetAddr = (manyAddr j).toCNetAddr) : i = j := by
  have ip : 0x2600 * 256 ^ 14 + i % 2 ^ 31 = 0x2600 * 256 ^ 14 + j % 2 ^ 31 :=
    congrArg (fun addr : CNetAddr => addr.ip.val) same
  omega

/-- Adding the addresses one after the other. -/
def manyAdds (n : ℕ) : List AddrEvent := (List.range n).map fun i => .add (manyAddr i) {} 0 0 fun _ => 0

/-- The next address is not known yet. -/
private theorem find_manyAddr {n : ℕ} (few : (n : ℤ) ≤ INT_MAX)
    (known : ∀ addr m, s.mapAddr addr = some m → ∃ i < n, addr = (manyAddr i).toCNetAddr) :
    s.find (manyAddr n).toCNetAddr = none := by
  have limit : INT_MAX = 2147483647 := rfl
  cases found : s.find (manyAddr n).toCNetAddr with
  | none => rfl
  | some entry =>
    obtain ⟨i, before, same⟩ := known _ _ (find_eq_some.mp found).1
    have twice := manyAddr_injective (by omega) (by omega) same
    omega

/-- As long as there are ids, each address gets one. -/
theorem run_manyAdds {n : ℕ} (few : (n : ℤ) ≤ INT_MAX) : ∃ s, run hash2 { nKey := [] } (manyAdds n) = .ok s ∧
    Intact hash2 none s ∧ s.nIdCount = n ∧
      ∀ addr m, s.mapAddr addr = some m → ∃ i < n, addr = (manyAddr i).toCNetAddr := by
  have limit : INT_MAX = 2147483647 := rfl
  induction n with
  | zero => exact ⟨{ nKey := [] }, rfl, Intact.empty hash2 [], rfl, nofun⟩
  | succ n ih =>
    obtain ⟨s, done, intact, count, known⟩ := ih (by omega)
    have missing := find_manyAddr (by omega) known
    obtain ⟨t, added, intact', narrower⟩ := intact.add_new (manyAddr_routable n) missing (by omega) 0 (fun _ => 0) {} 0
    refine ⟨t, ?_, intact', ?_, fun addr m entry => ?_⟩
    · rw [manyAdds, List.range_succ, List.map_append, run, List.foldlM_append]
      refine bind_eq_ok.mpr ⟨s, done, ?_⟩
      exact bind_eq_ok.mpr ⟨t, bind_eq_ok.mpr ⟨_, added, rfl⟩, rfl⟩
    · rw [narrower.nIdCount]
      change s.nIdCount + 1 = _
      rw [count]
      rfl
    · have before := narrower.mapAddr addr m entry
      change update s.mapAddr (manyAddr n).toCNetAddr (some s.nIdCount) addr = some m at before
      rcases eq_or_ne addr (manyAddr n).toCNetAddr with rfl | different
      · exact ⟨n, Nat.lt_succ_self n, rfl⟩
      · rw [update_of_ne different] at before
        obtain ⟨i, below, same⟩ := known addr m before
        exact ⟨i, Nat.lt_succ_of_lt below, same⟩

/-- The address after that finds no id. -/
theorem run_manyAdds_overflow {n : ℕ} (full : (n : ℤ) = INT_MAX) :
    run hash2 { nKey := [] } (manyAdds (n + 1)) = .error .overflow := by
  obtain ⟨s, done, intact, count, known⟩ := @run_manyAdds hash2 n full.le
  have missing := find_manyAddr full.le known
  have spent : rejectIf (s.nIdCount = INT_MAX) .overflow = .error .overflow := by
    rw [count]
    exact if_pos full
  have failed : s.add_ hash2 0 (fun _ => 0) (manyAddr n) {} 0 = .error .overflow := by
    rw [CAddrMan.add_, if_neg (not_not.mpr (manyAddr_routable n)), missing]
    dsimp only
    rw [create, spent]
    rfl
  rw [manyAdds, List.range_succ, List.map_append, run, List.foldlM_append]
  change (run hash2 { nKey := [] } (manyAdds n) >>= _) = _
  rw [done, ok_bind, List.map_singleton, List.foldlM_cons, step, failed]
  rfl

/-- With 2^31 addresses the counter of the ids overflows. -/
theorem run_coherent_fails : (∀ event ∈ manyAdds (2 ^ 31), event.Timely) ∧
    ¬ ∃ s, run (fun _ => 0) { nKey := [] } (manyAdds (2 ^ 31)) = .ok s ∧ s.Coherent := by
  constructor
  · intro event member
    obtain ⟨i, -, rfl⟩ := List.mem_map.mp member
    trivial
  · rintro ⟨s, done, -⟩
    have overflow := @run_manyAdds_overflow (fun _ => 0) 2147483647 rfl
    cases overflow.symm.trans done

/-- An entry is added, tried, found good and given out. -/
theorem run_coherent_first : ∃ s, run (fun _ => 0) { nKey := [] } [.add (manyAddr 7) {} 0 0 fun _ => 0,
    .good (manyAddr 7).toCService 5 fun _ => 0, .connected (manyAddr 7).toCService 6, .getAddr fun _ => 0] = .ok s ∧
      s.Coherent := by
  refine (run_coherent_iff (fun _ => 0) [] _ ?_).mpr ?_
  · exact List.forall_mem_cons.mpr ⟨trivial, List.forall_mem_cons.mpr ⟨show (0 : ℤ) < 5 by decide,
      List.forall_mem_cons.mpr ⟨show (0 : ℤ) < 6 by decide, List.forall_mem_singleton.mpr trivial⟩⟩⟩
  · have room : HasRoom { nKey := [] } (.add (manyAddr 7) {} 0 0 fun _ => 0) := fun _ _ =>
      show (0 : ℤ) ≠ INT_MAX by decide
    exact ⟨room, fun _ _ => ⟨trivial, fun _ _ => ⟨trivial, fun _ _ => ⟨trivial, fun _ _ => trivial⟩⟩⟩⟩

end CAddrMan

end BitCrystal

/-! ## Choosing which tried entry is evicted

`SelectTried` compares the right entries, but it returns the place the stalest of them was drawn from. The entry that
was exchanged with it is there in the end, unless the draw left the entry where it was.
-/

namespace BitCrystal.CAddrMan

open Function

variable {hash2 : List UInt8 → Uint256} {s : CAddrMan} {b : TriedBucket} {draw : ℕ → ℕ} {n : ℤ} {info : CAddrInfo}

/-- The entries of a tried bucket are known, and none is there twice. -/
structure KnownOnce (s : CAddrMan) (b : TriedBucket) : Prop where
  known : ∀ n ∈ s.vvTried b, 0 ≤ n ∧ ∃ info, s.mapInfo.find? n = some info
  nodup : (s.vvTried b).Nodup

theorem Intact.nodup_tried (intact : Intact hash2 none s) (b : TriedBucket) : (s.vvTried b).Nodup := by
  refine List.nodup_iff_count_le_one.mpr fun n => ?_
  have counted := intact.tabled.tried n
  have total := Buckets.count_contents (fun b => (s.vvTried b : Multiset ℤ)) n
  have single := Finset.single_le_sum (fun i _ => Nat.zero_le ((s.vvTried i : Multiset ℤ).count n)) (Finset.mem_univ b)
  have most : s.triedContents.count n ≤ 1 := by
    rw [owes_none, add_zero] at counted
    rw [counted]
    split <;> omega
  rw [← total, Multiset.coe_count] at single
  exact single.trans most

/-- So it is in every state the address manager reaches. -/
theorem Intact.knownOnce (intact : Intact hash2 none s) (b : TriedBucket) : KnownOnce s b where
  known n member := by
    obtain ⟨info, found, -⟩ := exists_of_isTried (intact.tabled.isTried_of_mem member)
    exact ⟨(intact.indexed.ids n info found).1, info, found⟩
  nodup := intact.nodup_tried b

/-- And in the state in which an entry is evicted for another one. -/
theorem Intact.knownOnce_lifted (intact : Intact hash2 none s) (found : s.mapInfo.find? n = some info)
    (fInTried : info.fInTried = false) (b : TriedBucket) : KnownOnce (s.lifted n) b where
  known k member := by
    obtain ⟨-, nonneg, other, -, entry, -⟩ := intact.tried_of_mem found fInTried member
    exact ⟨nonneg, other, entry⟩
  nodup := intact.nodup_tried b

/-- `SelectTried` permutes the bucket and returns the place of the stalest of the sampled entries, which are in front of
the bucket it leaves. -/
def SelectsStalest (s : CAddrMan) (b : TriedBucket) (draw : ℕ → ℕ) : Prop :=
  ∃ (p : ℕ) (ids : List ℤ), s.selectTried draw b = .ok ((p : ℤ), { s with vvTried := update s.vvTried b ids }) ∧
    ids.Perm (s.vvTried b) ∧ ∃ n, ids[p]? = some n ∧ n ∈ ids.take ADDRMAN_TRIED_ENTRIES_INSPECT_ON_EVICT ∧
      ∀ k ∈ ids.take ADDRMAN_TRIED_ENTRIES_INSPECT_ON_EVICT, (s.info n).nLastSuccess ≤ (s.info k).nLastSuccess

/-- The first of the stalest entries is drawn from where it belongs, or from the place of a later draw that finds an
entry as stale. -/
def StalestStays (s : CAddrMan) (b : TriedBucket) (draw : ℕ → ℕ) : Prop :=
  ∀ i n, Sampling.First (fun n => (s.info n).nLastSuccess) (drawPlace draw (s.vvTried b).length)
      ADDRMAN_TRIED_ENTRIES_INSPECT_ON_EVICT 0 (s.vvTried b) i n →
    drawPlace draw (s.vvTried b).length i = i ∨
      drawPlace draw (s.vvTried b).length i < ADDRMAN_TRIED_ENTRIES_INSPECT_ON_EVICT ∧
        ∃ k, (s.drawn draw b ADDRMAN_TRIED_ENTRIES_INSPECT_ON_EVICT 0)[drawPlace draw (s.vvTried b).length i]? = some k ∧
          (s.info k).nLastSuccess = (s.info n).nLastSuccess

theorem mem_take_of_getElem? {α : Type*} {l : List α} {i m : ℕ} {x : α} (found : l[i]? = some x) (before : i < m) :
    x ∈ l.take m :=
  List.mem_of_getElem? ((List.getElem?_take_of_lt before).trans found)

theorem lt_of_mem_take {α : Type*} {l : List α} (nodup : l.Nodup) {i m : ℕ} {x : α} (found : l[i]? = some x)
    (member : x ∈ l.take m) : i < m := by
  obtain ⟨j, there⟩ := List.mem_iff_getElem?.mp member
  have before : j < m := by
    have inside := (List.getElem?_eq_some_iff.mp there).1
    rw [List.length_take] at inside
    omega
  rw [List.getElem?_take_of_lt before] at there
  obtain ⟨inside, first⟩ := List.getElem?_eq_some_iff.mp found
  obtain ⟨inside', second⟩ := List.getElem?_eq_some_iff.mp there
  have same : i = j := nodup.getElem_inj_iff.mp (first.trans second.symm)
  exact same.trans_lt before

/-- The right place is returned exactly when the stalest entry stays where it was drawn from, or a tie helps. -/
theorem selectTried_stalest_iff (once : KnownOnce s b) (nonempty : s.vvTried b ≠ []) (draw : ℕ → ℕ) :
    SelectsStalest s b draw ↔ StalestStays s b draw := by
  obtain ⟨i, n, first, selected⟩ := selectTried_eq once.known nonempty draw
  have inside := drawPlace_lt first
  have perm : (s.drawn draw b ADDRMAN_TRIED_ENTRIES_INSPECT_ON_EVICT 0).Perm (s.vvTried b) := Sampling.shuffle_perm ..
  have here : (s.drawn draw b ADDRMAN_TRIED_ENTRIES_INSPECT_ON_EVICT 0)[i]? = some n := first.drawn
  have upper : i < ADDRMAN_TRIED_ENTRIES_INSPECT_ON_EVICT := first.upper.trans_eq (Nat.zero_add _)
  have least : ∀ k ∈ (s.drawn draw b ADDRMAN_TRIED_ENTRIES_INSPECT_ON_EVICT 0).take
      ADDRMAN_TRIED_ENTRIES_INSPECT_ON_EVICT, (s.info n).nLastSuccess ≤ (s.info k).nLastSuccess := by
    intro k member
    obtain ⟨j, there⟩ := List.mem_iff_getElem?.mp member
    have before : j < ADDRMAN_TRIED_ENTRIES_INSPECT_ON_EVICT := by
      have inside := (List.getElem?_eq_some_iff.mp there).1
      rw [List.length_take] at inside
      omega
    rw [List.getElem?_take_of_lt before] at there
    exact first.least j k (Nat.zero_le j) (by omega) there
  constructor
  · rintro ⟨p, ids, returned, -, m, found, sampled, stalest⟩ i' n' first'
    obtain ⟨rfl, rfl⟩ := first'.unique first
    obtain ⟨place, state⟩ := Prod.mk.inj (Except.ok.inj (selected.symm.trans returned))
    have place := Int.ofNat.inj place
    have bucket := congrFun (congrArg CAddrMan.vvTried state) b
    dsimp only at bucket
    rw [update_self, update_self] at bucket
    subst place bucket
    refine .inr ⟨lt_of_mem_take (perm.nodup_iff.mpr once.nodup) found sampled, m, found, ?_⟩
    apply le_antisymm
    · exact stalest _ (mem_take_of_getElem? here upper)
    · exact least m sampled
  · intro stays
    refine ⟨_, _, selected, perm, ?_⟩
    rcases stays i n first with same | ⟨before, k, found, tie⟩
    · rw [same]
      exact ⟨n, here, mem_take_of_getElem? here upper, least⟩
    · refine ⟨k, found, mem_take_of_getElem? found before, fun m member => ?_⟩
      rw [tie]
      exact least m member

def firstBucket : TriedBucket := ⟨0, by decide⟩

/-- Of the two entries of the first bucket the second one is stale. -/
def twoTried : CAddrMan :=
  { nKey := []
    mapInfo := (OrderedMap.insert ∅ 0 { nLastSuccess := 5 }).insert 1 { nLastSuccess := 3 }
    vvTried := update (fun _ => []) firstBucket [0, 1] }

theorem twoTried_knownOnce : KnownOnce twoTried firstBucket where
  known n member := by
    have member : n ∈ [0, 1] := member
    rcases List.mem_pair.mp member with rfl | rfl
    · exact ⟨le_rfl, _, rfl⟩
    · exact ⟨zero_le_one, _, rfl⟩
  nodup := by decide

/-- The first draw exchanges the entries, and the place of the stale one is the other entry's then. -/
theorem selectTried_not_stalest : ¬ SelectsStalest twoTried firstBucket fun _ => 1 := by
  rintro ⟨p, ids, returned, -, n, found, -, stalest⟩
  have run := @selectTriedLoop_eq twoTried (fun _ => 1) firstBucket ADDRMAN_TRIED_ENTRIES_INSPECT_ON_EVICT 0 none
    twoTried_knownOnce.known nofun
  obtain ⟨place, state⟩ := Prod.mk.inj (Except.ok.inj (run.symm.trans returned))
  have place : (1 : ℤ) = p := Eq.trans (by decide) place
  obtain rfl : 1 = p := Int.ofNat.inj place
  have bucket := congrFun (congrArg CAddrMan.vvTried state) firstBucket
  dsimp only at bucket
  rw [update_self, update_self] at bucket
  have bucket : [1, 0] = ids := Eq.trans (by decide) bucket
  subst bucket
  obtain rfl : 0 = n := Option.some.inj found
  exact absurd (stalest 1 (by decide)) (by decide)

/-- When every draw leaves the entry where it is, the stale one is found. -/
theorem selectTried_stalest_second : SelectsStalest twoTried firstBucket (fun _ => 0) := by
  have nonempty : twoTried.vvTried firstBucket ≠ [] := by decide
  refine (selectTried_stalest_iff twoTried_knownOnce nonempty fun _ => 0).mpr fun i n _ => .inl ?_
  rw [drawPlace, getRandInt, Nat.zero_mod, ite_self, Nat.zero_add]

end BitCrystal.CAddrMan
