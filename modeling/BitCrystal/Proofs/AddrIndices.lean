import BitCrystal.Proofs.AddrTables

/-! # The indices of the address manager

Addresses lead to entries and back, and so do positions in the random order. Entries only have ids that were given out,
so the counter bounds the number of entries.
-/

namespace BitCrystal

open Function Check OrderedMap

namespace CAddrMan

variable {s t : CAddrMan} {n k : ℤ} {info : CAddrInfo} {f : CAddrInfo → CAddrInfo} {i j : ℕ}

/-- The address of an entry. -/
def addresses (s : CAddrMan) (n : ℤ) : Option CNetAddr := (s.mapInfo.find? n).map (·.toCNetAddr)

/-- The position of an entry in the random order. -/
def positions (s : CAddrMan) (n : ℤ) : Option ℕ := (s.mapInfo.find? n).map (·.nRandomPos.toNat)

/-- The indices find the entries. -/
structure Indexed (s : CAddrMan) : Prop where
  ids : ∀ n info, s.mapInfo.find? n = some info → 0 ≤ n ∧ n < s.nIdCount
  nRandomPos : ∀ n info, s.mapInfo.find? n = some info → 0 ≤ info.nRandomPos
  address : PartialInverse s.addresses s.mapAddr
  position : PartialInverse s.positions fun i => s.vRandom[i]?
  few : (s.vRandom.length : ℤ) ≤ s.nIdCount
  nIdCount : s.nIdCount ≤ INT_MAX

theorem Indexed.empty (nKey : List UInt8) (nNew nTried : ℤ) : Indexed { nKey, nNew, nTried } where
  ids := nofun
  nRandomPos := nofun
  address _ _ := ⟨nofun, nofun⟩
  position _ _ := ⟨nofun, nofun⟩
  few := le_rfl
  nIdCount := show (0 : ℤ) ≤ INT_MAX by decide

/-- What the indices are about. -/
def spot (info : CAddrInfo) : CNetAddr × ℤ := (info.toCNetAddr, info.nRandomPos)

/-- The indices are the same, and so are the addresses and positions of the entries. -/
structure SameIndices (s t : CAddrMan) : Prop where
  entries : ∀ n, (t.mapInfo.find? n).map spot = (s.mapInfo.find? n).map spot
  nIdCount : t.nIdCount = s.nIdCount
  mapAddr : t.mapAddr = s.mapAddr
  vRandom : t.vRandom = s.vRandom

theorem SameIndices.trans {u : CAddrMan} (first : SameIndices s t) (second : SameIndices t u) : SameIndices s u where
  entries n := (second.entries n).trans (first.entries n)
  nIdCount := second.nIdCount.trans first.nIdCount
  mapAddr := second.mapAddr.trans first.mapAddr
  vRandom := second.vRandom.trans first.vRandom

theorem SameIndices.of_eq (mapInfo : t.mapInfo = s.mapInfo) (nIdCount : t.nIdCount = s.nIdCount)
    (mapAddr : t.mapAddr = s.mapAddr) (vRandom : t.vRandom = s.vRandom) : SameIndices s t :=
  ⟨fun n => by rw [mapInfo], nIdCount, mapAddr, vRandom⟩

theorem SameIndices.entered (entered : Entered s t n info) {old : CAddrInfo} (found : s.mapInfo.find? n = some old)
    (same : spot info = spot old) (nIdCount : t.nIdCount = s.nIdCount) (mapAddr : t.mapAddr = s.mapAddr)
    (vRandom : t.vRandom = s.vRandom) : SameIndices s t := by
  refine ⟨fun k => ?_, nIdCount, mapAddr, vRandom⟩
  rw [entered.find?]
  split
  next here => rw [here, found, Option.map_some, Option.map_some, same]
  next => rfl

theorem SameIndices.modify (found : s.mapInfo.find? n = some info) (same : spot (f info) = spot info) :
    SameIndices s (s.modifyInfo n f) := by
  refine SameIndices.entered (Entered.modifyInfo s n f) found ?_ rfl rfl rfl
  rw [info_of_some found, same]

theorem Indexed.congr (indexed : Indexed s) (same : SameIndices s t) : Indexed t := by
  have back {n : ℤ} {info : CAddrInfo} (found : t.mapInfo.find? n = some info) :
      ∃ old, s.mapInfo.find? n = some old ∧ spot old = spot info := by
    have entry := same.entries n
    rw [found, Option.map_some] at entry
    exact Option.map_eq_some_iff.mp entry.symm
  have addresses : t.addresses = s.addresses := by
    funext n
    have entry := congrArg (Option.map Prod.fst) (same.entries n)
    rw [Option.map_map, Option.map_map] at entry
    exact entry
  have positions : t.positions = s.positions := by
    funext n
    have entry := congrArg (Option.map fun place => place.2.toNat) (same.entries n)
    rw [Option.map_map, Option.map_map] at entry
    exact entry
  exact {
    ids := fun n info found => by
      obtain ⟨old, found, -⟩ := back found
      rw [same.nIdCount]
      exact indexed.ids n old found
    nRandomPos := fun n info found => by
      obtain ⟨old, found, place⟩ := back found
      have nonneg := indexed.nRandomPos n old found
      rwa [show old.nRandomPos = info.nRandomPos from congrArg Prod.snd place] at nonneg
    address := by
      rw [addresses, same.mapAddr]
      exact indexed.address
    position := by
      rw [positions, same.vRandom]
      exact indexed.position
    few := by
      rw [same.vRandom, same.nIdCount]
      exact indexed.few
    nIdCount := by
      rw [same.nIdCount]
      exact indexed.nIdCount }

/-! ## Looking up -/

theorem assertInfo_of_some (found : s.mapInfo.find? n = some info) : s.assertInfo n = .ok info := by
  rw [assertInfo, found]
  rfl

theorem addresses_of_some (found : s.mapInfo.find? n = some info) : s.addresses n = some info.toCNetAddr := by
  rw [addresses, found, Option.map_some]

theorem positions_of_some (found : s.mapInfo.find? n = some info) : s.positions n = some info.nRandomPos.toNat := by
  rw [positions, found, Option.map_some]

theorem find_eq_some {addr : CNetAddr} :
    s.find addr = some (n, info) ↔ s.mapAddr addr = some n ∧ s.mapInfo.find? n = some info := by
  rw [find]
  constructor
  · intro found
    obtain ⟨id, known, found⟩ := Option.bind_eq_some_iff.mp found
    obtain ⟨entry, found, same⟩ := Option.bind_eq_some_iff.mp found
    cases same
    exact ⟨known, found⟩
  · rintro ⟨known, found⟩
    rw [known, Option.bind_eq_bind, Option.bind_some, found]
    rfl

theorem Entered.addresses (entered : Entered s t n info) :
    t.addresses = update s.addresses n (some info.toCNetAddr) := by
  funext k
  rw [CAddrMan.addresses, entered.find?]
  rcases eq_or_ne k n with rfl | different
  · rw [update_self, if_pos rfl, Option.map_some]
  · rw [update_of_ne different, if_neg different, CAddrMan.addresses]

theorem Entered.positions (entered : Entered s t n info) :
    t.positions = update s.positions n (some info.nRandomPos.toNat) := by
  funext k
  rw [CAddrMan.positions, entered.find?]
  rcases eq_or_ne k n with rfl | different
  · rw [update_self, if_pos rfl, Option.map_some]
  · rw [update_of_ne different, if_neg different, CAddrMan.positions]

namespace Indexed

variable (indexed : Indexed s)
include indexed

theorem exists_of_mapAddr {addr : CNetAddr} (known : s.mapAddr addr = some n) :
    ∃ info, s.mapInfo.find? n = some info ∧ info.toCNetAddr = addr :=
  Option.map_eq_some_iff.mp ((indexed.address n addr).mpr known)

theorem mapAddr_of_some (found : s.mapInfo.find? n = some info) : s.mapAddr info.toCNetAddr = some n :=
  (indexed.address n _).mp (addresses_of_some found)

theorem mapAddr_of_find {addr : CNetAddr} (missing : s.find addr = none) : s.mapAddr addr = none := by
  cases known : s.mapAddr addr with
  | none => rfl
  | some n =>
    obtain ⟨info, found, -⟩ := indexed.exists_of_mapAddr known
    rw [find_eq_some.mpr ⟨known, found⟩] at missing
    cases missing

theorem exists_of_position (here : s.vRandom[i]? = some n) :
    ∃ info, s.mapInfo.find? n = some info ∧ info.nRandomPos.toNat = i :=
  Option.map_eq_some_iff.mp ((indexed.position n i).mpr here)

theorem position_of_some (found : s.mapInfo.find? n = some info) : s.vRandom[info.nRandomPos.toNat]? = some n :=
  (indexed.position n _).mp (positions_of_some found)

theorem nRandomPos_lt (found : s.mapInfo.find? n = some info) : info.nRandomPos.toNat < s.vRandom.length :=
  (List.getElem?_eq_some_iff.mp (indexed.position_of_some found)).1

theorem unsignedInt_eq {m : ℤ} (nonneg : 0 ≤ m) (small : m ≤ s.vRandom.length) : unsignedInt m = m.toNat := by
  have few := indexed.few
  have most := indexed.nIdCount
  have limit : INT_MAX = 2147483647 := rfl
  rw [unsignedInt, Int.emod_eq_of_lt nonneg (by omega)]

end Indexed

theorem Indexed.perm_keys (indexed : Indexed s) : s.vRandom.Perm s.mapInfo.keys := by
  have distinct : s.vRandom.Nodup := by
    rw [List.nodup_iff_getElem?_ne_getElem?]
    intro i j before inside same
    have here := List.getElem?_eq_getElem (before.trans inside)
    have apart := indexed.position.symm.unique here (same ▸ here)
    exact absurd apart before.ne
  rw [List.perm_ext_iff_of_nodup distinct s.mapInfo.nodup_keys]
  intro n
  rw [mem_keys, Option.isSome_iff_exists, List.mem_iff_getElem?]
  constructor
  · rintro ⟨i, here⟩
    obtain ⟨info, found, -⟩ := indexed.exists_of_position here
    exact ⟨info, found⟩
  · rintro ⟨info, found⟩
    exact ⟨_, indexed.position_of_some found⟩

/-- Two positions are exchanged. -/
structure Swapped (s t : CAddrMan) (i j : ℕ) : Prop where
  tables : SameTables s t
  mapAddr : t.mapAddr = s.mapAddr
  nIdCount : t.nIdCount = s.nIdCount
  length : t.vRandom.length = s.vRandom.length
  moved : t.vRandom[j]? = s.vRandom[i]?

theorem SameTables.refl (s : CAddrMan) : SameTables s s := ⟨fun _ => rfl, rfl, rfl, rfl, rfl, rfl⟩

theorem SameTables.trans {u : CAddrMan} (first : SameTables s t) (second : SameTables t u) : SameTables s u where
  entries n := (second.entries n).trans (first.entries n)
  nKey := second.nKey.trans first.nKey
  vvTried := second.vvTried.trans first.vvTried
  vvNew := second.vvNew.trans first.vvNew
  nTried := second.nTried.trans first.nTried
  nNew := second.nNew.trans first.nNew

/-- A new position of an entry. -/
theorem SameTables.reposition (found : s.mapInfo.find? n = some info) (place : ℤ) :
    SameTables s (s.modifyInfo n fun info => { info with nRandomPos := place }) := by
  refine ⟨fun k => ?_, rfl, rfl, rfl, rfl, rfl⟩
  rw [(Entered.modifyInfo s n _).find?, info_of_some found]
  split
  next here => rw [here, found, Option.map_some, Option.map_some, strip, strip]
  next => rfl

theorem Indexed.swapRandom (indexed : Indexed s) (left : i < s.vRandom.length) (right : j < s.vRandom.length) :
    ∃ t, s.swapRandom i j = .ok t ∧ Indexed t ∧ Swapped s t i j := by
  rcases eq_or_ne i j with rfl | different
  · exact ⟨s, if_pos rfl, indexed, SameTables.refl s, rfl, rfl, rfl, rfl⟩
  have here : s.vRandom[i]? = some s.vRandom[i] := List.getElem?_eq_getElem left
  have there : s.vRandom[j]? = some s.vRandom[j] := List.getElem?_eq_getElem right
  generalize s.vRandom[i] = n at here
  generalize s.vRandom[j] = k at there
  obtain ⟨first, found, placed⟩ := indexed.exists_of_position here
  obtain ⟨second, found', placed'⟩ := indexed.exists_of_position there
  have apart : n ≠ k := by
    rintro rfl
    obtain rfl := Option.some.inj (found.symm.trans found')
    exact different (placed.symm.trans placed')
  have entered := Entered.modifyInfo s n fun info => { info with nRandomPos := (j : ℤ) }
  rw [info_of_some found] at entered
  have tables := SameTables.reposition found (j : ℤ)
  have found'' := (entered.find?_of_ne apart.symm).trans found'
  generalize moved : s.modifyInfo n (fun info => { info with nRandomPos := (j : ℤ) }) = u at entered tables found''
  have entered' := Entered.modifyInfo u k fun info => { info with nRandomPos := (i : ℤ) }
  rw [info_of_some found''] at entered'
  have tables' := tables.trans (SameTables.reposition found'' (i : ℤ))
  generalize moved' : u.modifyInfo k (fun info => { info with nRandomPos := (i : ℤ) }) = v at entered' tables'
  have sameAddr : v.mapAddr = s.mapAddr := by rw [← moved', ← moved]; rfl
  have sameCount : v.nIdCount = s.nIdCount := by rw [← moved', ← moved]; rfl
  have sameRandom : v.vRandom = s.vRandom := by rw [← moved', ← moved]; rfl
  have inside : i < v.vRandom.length := sameRandom ▸ left
  have inside' : j < (v.vRandom.set i k).length := by
    rw [List.length_set, sameRandom]
    exact right
  refine ⟨{ v with vRandom := (v.vRandom.set i k).set j n }, ?_, ?_, ?_⟩
  · rw [CAddrMan.swapRandom, if_neg different, here, there, ← moved', ← moved]
    refine bind_eq_ok.mpr ⟨n, rfl, bind_eq_ok.mpr ⟨k, rfl, ?_⟩⟩
    exact bind_eq_ok.mpr ⟨first, assertInfo_of_some found, bind_eq_ok.mpr
      ⟨second, assertInfo_of_some found', rfl⟩⟩
  · have existing {m : ℤ} {info : CAddrInfo} (entry : v.mapInfo.find? m = some info) :
        (∃ old, s.mapInfo.find? m = some old) ∧ 0 ≤ info.nRandomPos := by
      rw [entered'.find?] at entry
      split at entry
      next same =>
        obtain rfl := Option.some.inj entry
        exact ⟨⟨second, same ▸ found'⟩, Int.natCast_nonneg i⟩
      next =>
        rw [entered.find?] at entry
        split at entry
        next same =>
          obtain rfl := Option.some.inj entry
          exact ⟨⟨first, same ▸ found⟩, Int.natCast_nonneg j⟩
        next => exact ⟨⟨info, entry⟩, indexed.nRandomPos m info entry⟩
    have addresses : v.addresses = s.addresses := by
      rw [entered'.addresses, entered.addresses]
      dsimp only
      rw [← addresses_of_some found, update_eq_self, ← addresses_of_some found', update_eq_self]
    have positions : v.positions = update (update s.positions n (some j)) k (some i) := by
      rw [entered'.positions, entered.positions]
      rfl
    exact {
      ids := fun m info entry => by
        obtain ⟨⟨old, entry⟩, -⟩ := existing entry
        change 0 ≤ m ∧ m < v.nIdCount
        rw [sameCount]
        exact indexed.ids m old entry
      nRandomPos := fun m info entry => (existing entry).2
      address := by
        change PartialInverse v.addresses v.mapAddr
        rw [addresses, sameAddr]
        exact indexed.address
      position := by
        change PartialInverse v.positions fun m => ((v.vRandom.set i k).set j n)[m]?
        rw [positions, PartialInverse.getElem?_set inside', PartialInverse.getElem?_set inside, sameRandom]
        refine indexed.position.swap ?_ ?_ apart
        · rw [positions_of_some found, placed]
        · rw [positions_of_some found', placed']
      few := by
        dsimp only
        rw [List.length_set, List.length_set, sameRandom, sameCount]
        exact indexed.few
      nIdCount := by
        dsimp only
        rw [sameCount]
        exact indexed.nIdCount }
  · refine ⟨⟨tables'.entries, tables'.nKey, tables'.vvTried, tables'.vvNew, tables'.nTried, tables'.nNew⟩, sameAddr,
      sameCount, ?_, ?_⟩
    · dsimp only
      rw [List.length_set, List.length_set, sameRandom]
    · dsimp only
      rw [List.getElem?_set_self inside', here]

/-- The state after `Create`. -/
def created (s : CAddrMan) (addr : CAddress) (addrSource : CNetAddr) : CAddrMan :=
  { s with
    nIdCount := s.nIdCount + 1
    mapInfo := s.mapInfo.insert s.nIdCount
      { CAddrInfo.ofAddress addr addrSource with nRandomPos := s.vRandom.length }
    mapAddr := update s.mapAddr addr.toCNetAddr (some s.nIdCount)
    vRandom := s.vRandom ++ [s.nIdCount] }

theorem create_eq {addr : CAddress} {addrSource : CNetAddr} (room : s.nIdCount ≠ INT_MAX) :
    s.create addr addrSource = .ok (s.nIdCount, s.created addr addrSource) :=
  bind_eq_ok.mpr ⟨(), rejectIf_eq_ok.mpr room, rfl⟩

theorem Entered.created (s : CAddrMan) (addr : CAddress) (addrSource : CNetAddr) :
    Entered s (s.created addr addrSource) s.nIdCount
      { CAddrInfo.ofAddress addr addrSource with nRandomPos := s.vRandom.length } := ⟨rfl, rfl⟩

theorem Indexed.find?_nIdCount (indexed : Indexed s) : s.mapInfo.find? s.nIdCount = none := by
  cases found : s.mapInfo.find? s.nIdCount with
  | none => rfl
  | some info => exact absurd (indexed.ids _ info found).2 (lt_irrefl _)

/-- A new entry is entered under the next id and at the end of the random order. -/
theorem Indexed.enter (indexed : Indexed s) (room : s.nIdCount ≠ INT_MAX) (entered : Entered s t s.nIdCount info)
    (last : info.nRandomPos = s.vRandom.length) (free : s.mapAddr info.toCNetAddr = none)
    (nIdCount : t.nIdCount = s.nIdCount + 1) (mapAddr : t.mapAddr = update s.mapAddr info.toCNetAddr (some s.nIdCount))
    (vRandom : t.vRandom = s.vRandom ++ [s.nIdCount]) : Indexed t := by
  have missing := indexed.find?_nIdCount
  have bounded := indexed.few
  have most := indexed.nIdCount
  exact {
    ids := fun n info found => by
      rw [nIdCount]
      rw [entered.find?] at found
      split at found
      next => omega
      next =>
        have bounds := indexed.ids n info found
        omega
    nRandomPos := fun n info found => by
      rw [entered.find?] at found
      split at found
      next =>
        obtain rfl := Option.some.inj found
        rw [last]
        exact Int.natCast_nonneg _
      next => exact indexed.nRandomPos n info found
    address := by
      rw [entered.addresses, mapAddr]
      refine indexed.address.insert ?_ free
      rw [CAddrMan.addresses, missing, Option.map_none]
    position := by
      rw [entered.positions, last, vRandom, PartialInverse.getElem?_push]
      refine indexed.position.insert ?_ (List.getElem?_eq_none le_rfl)
      rw [CAddrMan.positions, missing, Option.map_none]
    few := by
      rw [vRandom, nIdCount, List.length_append, List.length_singleton]
      omega
    nIdCount := by
      rw [nIdCount]
      omega }

theorem Indexed.created (indexed : Indexed s) (room : s.nIdCount ≠ INT_MAX) {addr : CAddress} (addrSource : CNetAddr)
    (free : s.mapAddr addr.toCNetAddr = none) : Indexed (s.created addr addrSource) :=
  indexed.enter room (Entered.created s addr addrSource) rfl free rfl rfl rfl

theorem dropReference_of_ne (found : s.mapInfo.find? n = some info) (more : info.nRefCount ≠ 1) :
    s.dropReference n = .ok (s.modifyInfo n fun info => { info with nRefCount := info.nRefCount - 1 }) := by
  have entered := Entered.modifyInfo s n fun info => { info with nRefCount := info.nRefCount - 1 }
  rw [info_of_some found] at entered
  rw [dropReference, info_of_some entered.find?_self]
  refine if_neg fun zero => more ?_
  dsimp only at zero
  omega

theorem find?_erase_none (mapInfo : OrderedMap ℤ CAddrInfo) (n : ℤ) {α : Type*} (g : CAddrInfo → α) :
    (fun k => ((mapInfo.erase n).find? k).map g) = update (fun k => (mapInfo.find? k).map g) n none := by
  funext k
  rw [find?_erase]
  rcases eq_or_ne k n with rfl | different
  · rw [update_self, if_pos rfl, Option.map_none]
  · rw [update_of_ne different, if_neg different]

/-- The state without the entry that comes last in the random order. -/
def popped (s : CAddrMan) (n : ℤ) : CAddrMan :=
  { s with
    vRandom := s.vRandom.dropLast
    mapAddr := update s.mapAddr (s.info n).toCNetAddr none
    mapInfo := s.mapInfo.erase n
    nNew := s.nNew - 1 }

theorem Indexed.popped (indexed : Indexed s) (found : s.mapInfo.find? n = some info)
    (last : s.vRandom[s.vRandom.length - 1]? = some n) : Indexed (s.popped n) := by
  have find? (k : ℤ) : (s.popped n).mapInfo.find? k = if k = n then none else s.mapInfo.find? k :=
    find?_erase
  have bounded := indexed.few
  exact {
    ids := fun k other found => by
      rw [find?] at found
      split at found
      next => cases found
      next => exact indexed.ids k other found
    nRandomPos := fun k other found => by
      rw [find?] at found
      split at found
      next => cases found
      next => exact indexed.nRandomPos k other found
    address := by
      change PartialInverse (fun k => ((s.mapInfo.erase n).find? k).map _) (update s.mapAddr (s.info n).toCNetAddr none)
      rw [find?_erase_none]
      apply indexed.address.erase
      rw [info_of_some found, addresses_of_some found]
    position := by
      change PartialInverse (fun k => ((s.mapInfo.erase n).find? k).map _) fun i => s.vRandom.dropLast[i]?
      rw [find?_erase_none, PartialInverse.getElem?_pop]
      exact indexed.position.erase ((indexed.position n _).mpr last)
    few := by
      change (s.vRandom.dropLast.length : ℤ) ≤ s.nIdCount
      rw [List.length_dropLast]
      omega
    nIdCount := indexed.nIdCount }

theorem Indexed.dropReference (indexed : Indexed s) (found : s.mapInfo.find? n = some info)
    (single : info.nRefCount = 1) : ∃ t, s.dropReference n = .ok t ∧ Indexed t ∧
      SameTables { s with mapInfo := s.mapInfo.erase n, nNew := s.nNew - 1 } t ∧ t.nIdCount = s.nIdCount ∧
      t.mapAddr = update s.mapAddr info.toCNetAddr none := by
  have entered := Entered.modifyInfo s n fun info => { info with nRefCount := info.nRefCount - 1 }
  rw [info_of_some found] at entered
  have indices := @SameIndices.modify s n info (fun info => { info with nRefCount := info.nRefCount - 1 }) found rfl
  generalize counted : s.modifyInfo n (fun info => { info with nRefCount := info.nRefCount - 1 }) = u at entered indices
  have indexed' := indexed.congr indices
  have found' := entered.find?_self
  have inside := indexed'.nRandomPos_lt found'
  have nonneg := indexed'.nRandomPos n _ found'
  dsimp only at inside nonneg
  have first := indexed'.unsignedInt_eq nonneg (by omega)
  have second : unsignedInt (u.vRandom.length - 1) = u.vRandom.length - 1 := by
    rw [indexed'.unsignedInt_eq (by omega) (by omega)]
    omega
  obtain ⟨v, swapped, indexed'', exchange⟩ :=
    indexed'.swapRandom inside (show u.vRandom.length - 1 < u.vRandom.length by omega)
  have entry := exchange.tables.entries n
  rw [found', Option.map_some] at entry
  obtain ⟨info', found'', stripped⟩ := Option.map_eq_some_iff.mp entry
  have address : info'.toCNetAddr = info.toCNetAddr := by
    have same := congrArg (fun other : CAddrInfo => other.toCNetAddr) stripped
    exact same
  have here := indexed'.position_of_some found'
  have last : v.vRandom[v.vRandom.length - 1]? = some n := by
    rw [exchange.length, exchange.moved]
    exact here
  have nonempty : v.vRandom ≠ [] := by
    rintro empty
    rw [empty] at last
    cases last
  refine ⟨v.popped n, ?_, indexed''.popped found'' last, ⟨fun k => ?_, ?_, ?_, ?_, ?_, ?_⟩, ?_, ?_⟩
  · rw [CAddrMan.dropReference, counted, info_of_some found']
    dsimp only
    rw [if_pos (by omega), first, second]
    exact bind_eq_ok.mpr ⟨v, swapped, bind_eq_ok.mpr ⟨(), rejectIf_eq_ok.mpr nonempty, rfl⟩⟩
  · change ((v.mapInfo.erase n).find? k).map strip = ((s.mapInfo.erase n).find? k).map strip
    rw [find?_erase, find?_erase]
    split
    next => rfl
    next different => rw [exchange.tables.entries k, entered.find?_of_ne different]
  · rw [CAddrMan.popped, exchange.tables.nKey, ← counted]
    rfl
  · rw [CAddrMan.popped, exchange.tables.vvTried, ← counted]
    rfl
  · rw [CAddrMan.popped, exchange.tables.vvNew, ← counted]
    rfl
  · rw [CAddrMan.popped, exchange.tables.nTried, ← counted]
    rfl
  · rw [CAddrMan.popped, exchange.tables.nNew, ← counted]
    rfl
  · rw [CAddrMan.popped, exchange.nIdCount, ← counted]
    rfl
  · rw [CAddrMan.popped, exchange.mapAddr, indices.mapAddr, info_of_some found'', address]

end CAddrMan

end BitCrystal
