import BitCrystal.Machine.Holdings
import BitCrystal.Model.KeyPool

/-! # Where the keys of the pool are

A key lies in the pool, with a reservation, or with the keys that have been kept. The calls put new keys
into the pool and move keys between these places, as long as no record is written at an index that a
reservation refers to.
-/

namespace BitCrystal

open KeyPoolWallet

/-- Up to a limit, no key is made twice, and keys are valid. -/
structure KeyMaker.Fresh (maker : KeyMaker) (limit : ℕ) : Prop where
  injective : ∀ m < limit, ∀ n < limit, maker.makeNewKey m = maker.makeNewKey n → m = n
  valid : ∀ n < limit, validPubKey (maker.makeNewKey n) = true

/-- The places of keys. -/
inductive KeyPlace (H : Type)
  | pool (nIndex : ℤ)
  | held (holder : H)
  | kept (n : ℕ)
deriving DecidableEq

namespace KeyPoolSystem

variable {H : Type} {crypto : Crypto} {maker : KeyMaker} {limit : ℕ} {system : KeyPoolSystem H}

def custody (system : KeyPoolSystem H) : Custody (KeyPlace H) valtype
  | .pool nIndex =>
    if nIndex ∈ system.wallet.setKeyPool then (system.wallet.pool nIndex).map CKeyPool.vchPubKey else none
  | .held holder =>
    if (system.holders holder).nIndex = -1 then none else some (system.holders holder).vchPubKey
  | .kept n => system.kept[n]?

/-- The record at an index can be handed out. -/
structure Usable (crypto : Crypto) (wallet : KeyPoolWallet) (nIndex : ℤ) (vchPubKey : valtype) : Prop where
  pos : 0 < nIndex
  record : (wallet.pool nIndex).map CKeyPool.vchPubKey = some vchPubKey
  valid : validPubKey vchPubKey = true
  have_key : wallet.keystore.haveKey (crypto.hash160 vchPubKey) = true

/-- Every key is at one place, the records of the pool and of the reservations are there, and the keys that
are made later are nowhere. -/
structure Sound (crypto : Crypto) (maker : KeyMaker) (limit : ℕ) (system : KeyPoolSystem H) : Prop where
  sole : system.custody.Sole
  filled : ∀ nIndex ∈ system.wallet.setKeyPool, ∃ vchPubKey, Usable crypto system.wallet nIndex vchPubKey
  held : ∀ holder, (system.holders holder).nIndex ≠ -1 →
    Usable crypto system.wallet (system.holders holder).nIndex (system.holders holder).vchPubKey
  ahead : ∀ place vchPubKey, system.custody place = some vchPubKey →
    ∀ n, system.wallet.nMade ≤ n → n < limit → maker.makeNewKey n ≠ vchPubKey

variable {nIndex : ℤ} {holder : H} {wallet : KeyPoolWallet}

theorem Usable.custody {vchPubKey : valtype} (usable : Usable crypto system.wallet nIndex vchPubKey)
    (member : nIndex ∈ system.wallet.setKeyPool) : system.custody (.pool nIndex) = some vchPubKey := by
  rw [KeyPoolSystem.custody, if_pos member, usable.record]

theorem custody_held (reserved : (system.holders holder).nIndex ≠ -1) :
    system.custody (.held holder) = some (system.holders holder).vchPubKey := by
  rw [KeyPoolSystem.custody, if_neg reserved]

/-- An index that is reserved is not in the set. -/
theorem Sound.apart (sound : Sound crypto maker limit system) (reserved : (system.holders holder).nIndex ≠ -1) :
    (system.holders holder).nIndex ∉ system.wallet.setKeyPool := by
  intro member
  have lies := (sound.held holder reserved).custody member
  cases sound.sole _ _ _ lies (custody_held reserved)

/-- Two reservations do not share an index. -/
theorem Sound.alone (sound : Sound crypto maker limit system) {other : H}
    (reserved : (system.holders holder).nIndex ≠ -1)
    (same : (system.holders other).nIndex = (system.holders holder).nIndex) : other = holder := by
  have left := (sound.held holder reserved).record
  have right := (sound.held other (same ▸ reserved)).record
  rw [same, left, Option.some.injEq] at right
  have lies := custody_held (same ▸ reserved : (system.holders other).nIndex ≠ -1)
  rw [← right] at lies
  cases sound.sole _ _ _ lies (custody_held reserved)
  rfl

theorem Usable.mono {after : KeyPoolWallet} {vchPubKey : valtype}
    (usable : Usable crypto wallet nIndex vchPubKey) (same : after.pool nIndex = wallet.pool nIndex)
    (keys : wallet.keystore.mapKeys ⊆ after.keystore.mapKeys) : Usable crypto after nIndex vchPubKey where
  pos := usable.pos
  record := same ▸ usable.record
  valid := usable.valid
  have_key := by
    have found := usable.have_key
    simp only [CKeyStore.haveKey, decide_eq_true_eq] at found ⊢
    exact keys found

/-- The record that a refill writes. -/
theorem usable_refill (fresh : maker.Fresh limit) (enough : wallet.nMade < limit) (pos : 0 < nIndex) :
    Usable crypto (wallet.refill crypto maker nIndex) nIndex (maker.makeNewKey wallet.nMade) where
  pos := pos
  record := by
    simp only [KeyPoolWallet.refill, KeyPoolWallet.writePool, Function.update_self, Option.map_some,
      nextKey]
  valid := fresh.valid _ enough
  have_key := by
    simp [KeyPoolWallet.refill, KeyPoolWallet.writePool, KeyPoolWallet.generateNewKey, CKeyStore.haveKey,
      CKeyStore.addKey]

theorem refill_pool_of_ne (wallet : KeyPoolWallet) {other : ℤ} (apart : other ≠ nIndex) :
    (wallet.refill crypto maker nIndex).pool other = wallet.pool other :=
  Function.update_of_ne apart _ _

theorem nMade_refill : (wallet.refill crypto maker nIndex).nMade = wallet.nMade + 1 :=
  rfl

theorem refill_keys (wallet : KeyPoolWallet) (nIndex : ℤ) :
    wallet.keystore.mapKeys ⊆ (wallet.refill crypto maker nIndex).keystore.mapKeys :=
  List.subset_cons_self _ _

/-- A new key may be written at an index that is not reserved. -/
theorem Sound.refill (sound : Sound crypto maker limit system) (fresh : maker.Fresh limit)
    (enough : system.wallet.nMade < limit) (pos : 0 < nIndex)
    (free : ∀ holder, (system.holders holder).nIndex ≠ nIndex) :
    Sound crypto maker limit { system with wallet := system.wallet.refill crypto maker nIndex } := by
  classical
  have custody : custody { system with wallet := system.wallet.refill crypto maker nIndex } =
      Function.update system.custody (.pool nIndex) (some (maker.makeNewKey system.wallet.nMade)) := by
    funext place
    cases place with
    | pool other =>
      rcases eq_or_ne other nIndex with rfl | apart
      · rw [Function.update_self]
        exact (usable_refill fresh enough pos).custody (Finset.mem_insert_self ..)
      · have place : KeyPlace.pool (H := H) other ≠ .pool nIndex := by simpa using apart
        rw [Function.update_of_ne place, KeyPoolSystem.custody, KeyPoolSystem.custody]
        simp only [refill_pool_of_ne _ apart]
        simp only [KeyPoolWallet.refill, Finset.mem_insert, apart, false_or]
    | held holder => rfl
    | kept n => rfl
  have new : ∀ place, system.custody place ≠ some (maker.makeNewKey system.wallet.nMade) :=
    fun place lies => sound.ahead place _ lies _ le_rfl enough rfl
  refine ⟨?_, ?_, ?_, ?_⟩
  · rw [custody]
    exact sound.sole.put new _
  · intro other member
    rcases eq_or_ne other nIndex with rfl | apart
    · exact ⟨_, usable_refill fresh enough pos⟩
    · obtain ⟨vchPubKey, usable⟩ := sound.filled other (Finset.mem_of_mem_insert_of_ne member apart)
      exact ⟨vchPubKey, usable.mono (refill_pool_of_ne _ apart) (refill_keys _ _)⟩
  · intro holder reserved
    exact (sound.held holder reserved).mono (refill_pool_of_ne _ (free holder)) (refill_keys _ _)
  · intro place vchPubKey lies n later inside same
    rw [custody] at lies
    rcases eq_or_ne place (.pool nIndex) with rfl | apart
    · rw [Function.update_self, Option.some.injEq] at lies
      have := fresh.injective n inside _ enough (same.trans lies.symm)
      simp only [KeyPoolWallet.refill, KeyPoolWallet.writePool, KeyPoolWallet.generateNewKey] at later
      omega
    · rw [Function.update_of_ne apart] at lies
      exact sound.ahead place _ lies n (Nat.le_of_succ_le later) inside same

theorem Sound.generateNewKey (sound : Sound crypto maker limit system) :
    Sound crypto maker limit { system with wallet := system.wallet.generateNewKey crypto maker } where
  sole := sound.sole
  filled nIndex member := by
    obtain ⟨vchPubKey, usable⟩ := sound.filled nIndex member
    exact ⟨vchPubKey, usable.mono rfl (List.subset_cons_self _ _)⟩
  held holder reserved := (sound.held holder reserved).mono rfl (List.subset_cons_self _ _)
  ahead place vchPubKey lies n later := sound.ahead place vchPubKey lies n (Nat.le_of_succ_le later)

end KeyPoolSystem

namespace KeyPoolWallet

variable {crypto : Crypto} {maker : KeyMaker} {wallet : KeyPoolWallet}

theorem lt_nEnd {nIndex : ℤ} (member : nIndex ∈ wallet.setKeyPool) : nIndex < wallet.nEnd := by
  obtain ⟨last, max⟩ := Finset.max_of_mem member
  have bound := Finset.le_max_of_eq member max
  rw [nEnd, max, WithBot.unbotD_coe]
  omega

theorem nEnd_le {bound : ℤ} (pos : 0 < bound) (below : ∀ nIndex ∈ wallet.setKeyPool, nIndex < bound) :
    wallet.nEnd ≤ bound := by
  rw [nEnd]
  cases max : wallet.setKeyPool.max with
  | bot => exact pos
  | coe last => exact below last (Finset.mem_of_max max)

theorem nEnd_refill (pos : 0 < wallet.nEnd) : (wallet.refill crypto maker wallet.nEnd).nEnd = wallet.nEnd + 1 := by
  apply le_antisymm
  · refine nEnd_le (by omega) fun nIndex member => ?_
    rcases Finset.mem_insert.mp member with rfl | member
    · omega
    · have := lt_nEnd member
      omega
  · have := (lt_nEnd (Finset.mem_insert_self ..) : wallet.nEnd < (wallet.refill crypto maker wallet.nEnd).nEnd)
    omega

end KeyPoolWallet

/-- So many indices from the first one on. -/
def indices (start : ℤ) (n : ℕ) : Finset ℤ := (Finset.range n).image fun i : ℕ => start + i

theorem mem_indices {start nIndex : ℤ} {n : ℕ} : nIndex ∈ indices start n ↔ start ≤ nIndex ∧ nIndex < start + n := by
  rw [indices, Finset.mem_image]
  constructor
  · rintro ⟨i, inside, rfl⟩
    rw [Finset.mem_range] at inside
    omega
  · intro inside
    exact ⟨(nIndex - start).toNat, Finset.mem_range.mpr (by omega), by omega⟩

namespace KeyPoolSystem

variable {H : Type} {crypto : Crypto} {maker : KeyMaker} {limit : ℕ} {system : KeyPoolSystem H}

theorem Sound.nEnd_pos (sound : Sound crypto maker limit system) : 0 < system.wallet.nEnd := by
  rcases system.wallet.setKeyPool.eq_empty_or_nonempty with empty | ⟨nIndex, member⟩
  · rw [KeyPoolWallet.nEnd, empty]
    exact Int.zero_lt_one
  · obtain ⟨vchPubKey, usable⟩ := sound.filled nIndex member
    exact usable.pos.trans (KeyPoolWallet.lt_nEnd member)

theorem Sound.topUpLoop (fresh : maker.Fresh limit) {target rounds : ℕ} (sound : Sound crypto maker limit system)
    (enough : system.wallet.nMade + rounds ≤ limit)
    (free : ∀ holder, (system.holders holder).nIndex ∉ indices system.wallet.nEnd rounds) :
    Sound crypto maker limit { system with wallet := system.wallet.topUpLoop crypto maker target rounds } := by
  induction rounds generalizing system with
  | zero => exact sound
  | succ rounds ih =>
    rw [topUpLoop]
    split_ifs
    · have refilled := sound.refill fresh (by omega) sound.nEnd_pos fun holder same =>
        free holder (mem_indices.mpr ⟨same.ge, by omega⟩)
      have left : (system.wallet.refill crypto maker system.wallet.nEnd).nMade + rounds ≤ limit := by
        rw [nMade_refill]
        omega
      refine ih refilled left fun holder member => free holder ?_
      rw [KeyPoolWallet.nEnd_refill sound.nEnd_pos] at member
      dsimp only at member
      obtain ⟨low, high⟩ := mem_indices.mp member
      exact mem_indices.mpr ⟨by omega, by omega⟩
    · exact sound

/-- How many keys `TopUpKeyPool` makes. -/
def missing (wallet : KeyPoolWallet) (locked : Bool) (keypool : ℤ) : ℕ :=
  if locked then 0 else targetSize keypool - wallet.setKeyPool.card

/-- The indices at which `TopUpKeyPool` writes. -/
def toppedUp (wallet : KeyPoolWallet) (locked : Bool) (keypool : ℤ) : Finset ℤ :=
  indices wallet.nEnd (missing wallet locked keypool)

theorem Sound.topUpKeyPool (sound : Sound crypto maker limit system) (fresh : maker.Fresh limit) {locked : Bool} {keypool : ℤ}
    (enough : system.wallet.nMade + missing system.wallet locked keypool ≤ limit)
    (free : ∀ holder, (system.holders holder).nIndex ∉ toppedUp system.wallet locked keypool) :
    Sound crypto maker limit { system with wallet := system.wallet.topUpKeyPool crypto maker locked keypool } := by
  cases locked with
  | true => exact sound
  | false => exact sound.topUpLoop fresh enough free

theorem Sound.erasePools (sound : Sound crypto maker limit system) :
    Sound crypto maker limit { system with wallet := system.wallet.erasePools } where
  sole := by
    refine sound.sole.mono fun place vchPubKey lies => ?_
    cases place with
    | pool nIndex => cases lies
    | held holder => exact lies
    | kept n => exact lies
  filled nIndex member := absurd member (Finset.notMem_empty _)
  held holder reserved :=
    (sound.held holder reserved).mono (if_neg (sound.apart reserved)) (List.Subset.refl _)
  ahead place vchPubKey lies := by
    cases place with
    | pool nIndex => cases lies
    | held holder => exact sound.ahead (.held holder) vchPubKey lies
    | kept n => exact sound.ahead (.kept n) vchPubKey lies

theorem Sound.newKeyPoolLoop (fresh : maker.Fresh limit) {rounds i : ℕ} (sound : Sound crypto maker limit system)
    (enough : system.wallet.nMade + rounds ≤ limit) (small : i + rounds < 2 ^ 31)
    (free : ∀ holder, (system.holders holder).nIndex ∉ indices (i + 1) rounds) :
    ∃ wallet, newKeyPoolLoop crypto maker rounds i system.wallet = (.ok (), wallet) ∧
      Sound crypto maker limit { system with wallet } := by
  induction rounds generalizing i system with
  | zero => exact ⟨system.wallet, rfl, sound⟩
  | succ rounds ih =>
    rw [newKeyPoolLoop, if_neg (by omega), StateAction.modify_bind]
    have refilled := sound.refill fresh (by omega) (by omega : (0 : ℤ) < i + 1) fun holder same =>
      free holder (mem_indices.mpr ⟨same.ge, by omega⟩)
    have left : (system.wallet.refill crypto maker (i + 1)).nMade + rounds ≤ limit := by
      rw [nMade_refill]
      omega
    refine ih refilled left (by omega) fun holder member => free holder ?_
    obtain ⟨low, high⟩ := mem_indices.mp member
    push_cast at low high ⊢
    exact mem_indices.mpr ⟨by omega, by omega⟩

variable [DecidableEq H]

/-- A key is moved, and the records stay with the pool and the reservations. -/
theorem Sound.moved {after : KeyPoolSystem H} (sound : Sound crypto maker limit system) (origin place : KeyPlace H)
    (custody : after.custody =
      Function.update (Function.update system.custody origin none) place (system.custody origin))
    (made : after.wallet.nMade = system.wallet.nMade)
    (filled : ∀ nIndex ∈ after.wallet.setKeyPool, ∃ vchPubKey, Usable crypto after.wallet nIndex vchPubKey)
    (held : ∀ holder, (after.holders holder).nIndex ≠ -1 →
      Usable crypto after.wallet (after.holders holder).nIndex (after.holders holder).vchPubKey) :
    Sound crypto maker limit after where
  sole := by
    rw [custody]
    exact sound.sole.move origin place
  filled := filled
  held := held
  ahead other vchPubKey lies n later := by
    rw [custody] at lies
    obtain ⟨before, lay⟩ := Custody.exists_of_move lies
    exact sound.ahead before vchPubKey lay n (made ▸ later)

/-- The system after a holder has taken an index of the set. -/
def take (system : KeyPoolSystem H) (holder : H) (nIndex : ℤ) (vchPubKey : valtype) : KeyPoolSystem H :=
  { system with
    wallet := { system.wallet with setKeyPool := system.wallet.setKeyPool.erase nIndex }
    holders := Function.update system.holders holder ⟨nIndex, vchPubKey⟩ }

theorem Sound.take (sound : Sound crypto maker limit system) {holder : H} {nIndex : ℤ} {vchPubKey : valtype}
    (member : nIndex ∈ system.wallet.setKeyPool) (usable : Usable crypto system.wallet nIndex vchPubKey) :
    Sound crypto maker limit (system.take holder nIndex vchPubKey) := by
  have pos := usable.pos
  refine sound.moved (.pool nIndex) (.held holder) ?_ rfl ?_ ?_
  · funext place
    rw [usable.custody member]
    cases place with
    | pool other =>
      rcases eq_or_ne other nIndex with rfl | apart
      · simp [custody, KeyPoolSystem.take]
      · simp [custody, KeyPoolSystem.take, apart]
    | held other =>
      rcases eq_or_ne other holder with rfl | apart
      · simp [custody, KeyPoolSystem.take]
        omega
      · simp [custody, KeyPoolSystem.take, apart]
    | kept n => rfl
  · intro other member
    obtain ⟨key, usable⟩ := sound.filled other (Finset.mem_of_mem_erase member)
    exact ⟨key, usable.mono rfl (List.Subset.refl _)⟩
  · intro other reserved
    rcases eq_or_ne other holder with rfl | apart
    · simp only [KeyPoolSystem.take, Function.update_self]
      exact usable.mono rfl (List.Subset.refl _)
    · simp only [KeyPoolSystem.take, Function.update_of_ne apart] at reserved ⊢
      exact (sound.held other reserved).mono rfl (List.Subset.refl _)

/-- A holder without a reservation may forget what it has. -/
theorem Sound.forget (sound : Sound crypto maker limit system) {holder : H} (free : (system.holders holder).nIndex = -1)
    {reservekey : CReserveKey} (empty : reservekey.nIndex = -1) :
    Sound crypto maker limit { system with holders := Function.update system.holders holder reservekey } := by
  have same : ∀ other, (Function.update system.holders holder reservekey other).nIndex ≠ -1 →
      Function.update system.holders holder reservekey other = system.holders other := by
    intro other reserved
    rcases eq_or_ne other holder with rfl | apart
    · rw [Function.update_self] at reserved
      exact absurd empty reserved
    · exact Function.update_of_ne apart _ _
  have custody : custody { system with holders := Function.update system.holders holder reservekey } =
      system.custody := by
    funext place
    cases place with
    | pool nIndex => rfl
    | held other =>
      rcases eq_or_ne other holder with rfl | apart
      · simp [KeyPoolSystem.custody, empty, free]
      · simp [KeyPoolSystem.custody, apart]
    | kept n => rfl
  refine ⟨custody ▸ sound.sole, sound.filled, fun other reserved => ?_, fun place vchPubKey lies => ?_⟩
  · have unchanged := same other reserved
    dsimp only at reserved ⊢
    rw [unchanged] at reserved ⊢
    exact sound.held other reserved
  · exact sound.ahead place vchPubKey (custody ▸ lies)

theorem Sound.giveBack (sound : Sound crypto maker limit system) (holder : H) :
    Sound crypto maker limit (system.giveBack holder) := by
  rcases eq_or_ne (system.holders holder).nIndex (-1) with free | reserved
  · have unchanged := sound.forget free (rfl : ({} : CReserveKey).nIndex = -1)
    rwa [KeyPoolSystem.giveBack, CReserveKey.returnKey, if_neg (not_not.mpr free)]
  · have usable := sound.held holder reserved
    rw [KeyPoolSystem.giveBack, CReserveKey.returnKey, if_pos reserved]
    refine sound.moved (.held holder) (.pool (system.holders holder).nIndex) ?_ rfl ?_ ?_
    · funext place
      rw [custody_held reserved]
      cases place with
      | pool other =>
        rcases eq_or_ne other (system.holders holder).nIndex with rfl | apart
        · simp [custody, returnKey, usable.record]
        · simp [custody, returnKey, apart]
      | held other =>
        rcases eq_or_ne other holder with rfl | apart
        · simp [custody]
        · simp [custody, apart]
      | kept n => simp [custody]
    · intro other member
      rcases Finset.mem_insert.mp member with rfl | member
      · exact ⟨_, usable.mono rfl (List.Subset.refl _)⟩
      · obtain ⟨key, usable⟩ := sound.filled other member
        exact ⟨key, usable.mono rfl (List.Subset.refl _)⟩
    · intro other reserved
      rcases eq_or_ne other holder with rfl | apart
      · dsimp only at reserved
        rw [Function.update_self] at reserved
        exact absurd rfl reserved
      · simp only [Function.update_of_ne apart] at reserved ⊢
        exact (sound.held other reserved).mono rfl (List.Subset.refl _)

theorem getElem?_concat_of_ne {α : Type} {list : List α} {last : α} {n : ℕ} (apart : n ≠ list.length) :
    (list ++ [last])[n]? = list[n]? := by
  rcases lt_or_gt_of_ne apart with inside | outside
  · exact List.getElem?_append_left inside
  · rw [List.getElem?_eq_none (by rw [List.length_append, List.length_singleton]; omega),
      List.getElem?_eq_none outside.le]

/-- A record may be erased when nothing refers to it. -/
theorem Usable.erasePool {wallet : KeyPoolWallet} {nIndex other : ℤ} {vchPubKey : valtype}
    (usable : Usable crypto wallet other vchPubKey) (apart : other ≠ nIndex) :
    Usable crypto (wallet.keepKey nIndex) other vchPubKey :=
  usable.mono (Function.update_of_ne apart _ _) (List.Subset.refl _)

theorem Sound.keep (sound : Sound crypto maker limit system) (holder : H) : Sound crypto maker limit (system.keep holder) := by
  rcases eq_or_ne (system.holders holder).nIndex (-1) with free | reserved
  · have unchanged := sound.forget free (rfl : ({} : CReserveKey).nIndex = -1)
    rwa [KeyPoolSystem.keep, CReserveKey.keepKey, if_neg (not_not.mpr free), if_neg (not_not.mpr free)]
  · rw [KeyPoolSystem.keep, CReserveKey.keepKey, if_pos reserved, if_pos reserved]
    refine sound.moved (.held holder) (.kept system.kept.length) ?_ rfl ?_ ?_
    · funext place
      rw [custody_held reserved]
      cases place with
      | pool other =>
        rcases eq_or_ne other (system.holders holder).nIndex with rfl | apart
        · simp [custody, keepKey, erasePool, sound.apart reserved]
        · simp [custody, keepKey, erasePool, apart]
      | held other =>
        rcases eq_or_ne other holder with rfl | apart
        · simp [custody]
        · simp [custody, apart]
      | kept n =>
        rcases eq_or_ne n system.kept.length with rfl | apart
        · simp [custody]
        · have place : KeyPlace.kept (H := H) n ≠ .kept system.kept.length := by simpa using apart
          have other : KeyPlace.kept n ≠ .held holder := nofun
          rw [Function.update_of_ne place, Function.update_of_ne other]
          exact getElem?_concat_of_ne apart
    · intro other member
      obtain ⟨key, usable⟩ := sound.filled other member
      exact ⟨key, usable.erasePool fun same => sound.apart reserved (same ▸ member)⟩
    · intro other taken
      rcases eq_or_ne other holder with rfl | apart
      · dsimp only at taken
        rw [Function.update_self] at taken
        exact absurd rfl taken
      · simp only [Function.update_of_ne apart] at taken ⊢
        exact (sound.held other taken).erasePool fun same => apart (sound.alone reserved same)

end KeyPoolSystem

end BitCrystal
