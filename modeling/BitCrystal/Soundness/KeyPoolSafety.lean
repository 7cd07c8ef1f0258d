import BitCrystal.Proofs.KeyPool
import BitCrystal.Soundness.SpentFlags

/-! # Keys are handed out once

A call that writes at no index that is reserved does not fail and keeps every key at one place. This holds
along every run of such calls.
-/

namespace BitCrystal

open StateAction Function

namespace KeyPoolWallet

variable {crypto : Crypto} {maker : KeyMaker} {wallet : KeyPoolWallet} {locked : Bool} {keypool : ℤ}

/-- The wallet without an index. -/
def eraseIndex (wallet : KeyPoolWallet) (nIndex : ℤ) : KeyPoolWallet :=
  { wallet with setKeyPool := wallet.setKeyPool.erase nIndex }

variable {topped : KeyPoolWallet}

/-- Reserving a key takes an index of the set, unless it is empty. -/
theorem reserveKeyFromKeyPool_cases (topUp : wallet.topUpKeyPool crypto maker locked keypool = topped)
    (filled : ∀ nIndex ∈ topped.setKeyPool, ∃ vchPubKey, KeyPoolSystem.Usable crypto topped nIndex vchPubKey) :
    reserveKeyFromKeyPool crypto maker locked keypool wallet = (.ok (-1, []), topped) ∨
      ∃ nIndex ∈ topped.setKeyPool, ∃ vchPubKey, KeyPoolSystem.Usable crypto topped nIndex vchPubKey ∧
        reserveKeyFromKeyPool crypto maker locked keypool wallet =
          (.ok (nIndex, vchPubKey), topped.eraseIndex nIndex) := by
  rw [reserveKeyFromKeyPool, modify_bind, get_bind, topUp]
  split_ifs with nonempty
  · obtain ⟨vchPubKey, usable⟩ := filled _ (Finset.min'_mem _ nonempty)
    obtain ⟨record, found, same⟩ := Option.map_eq_some_iff.mp usable.record
    refine .inr ⟨_, Finset.min'_mem _ nonempty, vchPubKey, usable, ?_⟩
    have held := usable.have_key
    have valid := usable.valid
    rw [← same] at held valid ⊢
    rw [modify_bind]
    simp only [found, held, valid, not_true, if_false]
    rfl
  · exact .inl rfl

/-- `GetKeyFromPool` gives a key of the pool, or one for which nothing is reserved. -/
theorem getKeyFromPool_cases {fAllowReuse : Bool} (topUp : wallet.topUpKeyPool crypto maker locked keypool = topped)
    (filled : ∀ nIndex ∈ topped.setKeyPool, ∃ vchPubKey, KeyPoolSystem.Usable crypto topped nIndex vchPubKey) :
    (∃ result after, getKeyFromPool crypto maker locked keypool fAllowReuse wallet = (.ok result, after) ∧
      (∀ key ∈ result, key.1 = -1) ∧ (after = topped ∨ after = topped.generateNewKey crypto maker)) ∨
      ∃ nIndex ∈ topped.setKeyPool, ∃ vchPubKey, KeyPoolSystem.Usable crypto topped nIndex vchPubKey ∧
        getKeyFromPool crypto maker locked keypool fAllowReuse wallet =
          (.ok (some (nIndex, vchPubKey)), (topped.eraseIndex nIndex).keepKey nIndex) := by
  rcases reserveKeyFromKeyPool_cases topUp filled with exhausted | ⟨nIndex, member, vchPubKey, usable, ran⟩
  · left
    rw [getKeyFromPool, bind_of_ok exhausted, get_bind, if_pos rfl]
    split_ifs
    · exact ⟨_, topped, rfl, by simp, .inl rfl⟩
    · exact ⟨_, topped, rfl, by simp, .inl rfl⟩
    · exact ⟨_, topped.generateNewKey crypto maker, rfl, by simp, .inr rfl⟩
  · right
    refine ⟨nIndex, member, vchPubKey, usable, ?_⟩
    have pos := usable.pos
    have reserved : nIndex ≠ -1 := by omega
    rw [getKeyFromPool, bind_of_ok ran, get_bind, if_neg reserved]
    rfl

theorem checked_eq {reservekey : CReserveKey} (valid : validPubKey reservekey.vchPubKey = true) :
    reservekey.checked wallet = (.ok (reservekey, some reservekey.vchPubKey), wallet) := by
  rw [CReserveKey.checked, if_pos valid]
  rfl

/-- A reservation that is empty takes a key of the pool, or stays empty. -/
theorem getReservedKey_cases {reservekey : CReserveKey} (unreserved : reservekey.nIndex = -1)
    (topUp : wallet.topUpKeyPool crypto maker locked keypool = topped)
    (filled : ∀ nIndex ∈ topped.setKeyPool, ∃ vchPubKey, KeyPoolSystem.Usable crypto topped nIndex vchPubKey) :
    (∃ after result, reservekey.getReservedKey crypto maker locked keypool wallet = (.ok (after, result), topped) ∧
      after.nIndex = -1) ∨
      ∃ nIndex ∈ topped.setKeyPool, ∃ vchPubKey, KeyPoolSystem.Usable crypto topped nIndex vchPubKey ∧
        reservekey.getReservedKey crypto maker locked keypool wallet =
          (.ok (⟨nIndex, vchPubKey⟩, some vchPubKey), topped.eraseIndex nIndex) := by
  rw [CReserveKey.getReservedKey, if_neg (not_not.mpr unreserved)]
  rcases reserveKeyFromKeyPool_cases topUp filled with exhausted | ⟨nIndex, member, vchPubKey, usable, ran⟩
  · left
    rw [bind_of_ok exhausted, get_bind, if_neg (not_not.mpr rfl)]
    split_ifs with default
    · exact ⟨_, _, checked_eq default, unreserved⟩
    · exact ⟨reservekey, Option.none, rfl, unreserved⟩
  · right
    have pos := usable.pos
    have reserved : nIndex ≠ -1 := by omega
    refine ⟨nIndex, member, vchPubKey, usable, ?_⟩
    rw [bind_of_ok ran, get_bind, if_pos reserved, checked_eq usable.valid]

theorem addReserveKey_eq {keypool : CKeyPool} (nonempty : wallet.setKeyPool.Nonempty) :
    addReserveKey keypool wallet = (.ok wallet.nEnd, { wallet.writePool wallet.nEnd keypool with
      setKeyPool := insert wallet.nEnd wallet.setKeyPool }) := by
  obtain ⟨last, max⟩ := Finset.max_of_nonempty nonempty
  have index : 1 + last = wallet.nEnd := by
    rw [nEnd, max, WithBot.unbotD_coe, add_comm]
  rw [addReserveKey, get_bind, max, ← index]
  rfl

end KeyPoolWallet

namespace KeyPoolSystem

variable {H : Type} [DecidableEq H] {crypto : Crypto} {maker : KeyMaker} {limit : ℕ} {system : KeyPoolSystem H}

/-- A key of the pool is given out for good. -/
theorem Sound.takeAndKeep (sound : Sound crypto maker limit system) {nIndex : ℤ} {vchPubKey : valtype}
    (member : nIndex ∈ system.wallet.setKeyPool) (usable : Usable crypto system.wallet nIndex vchPubKey) :
    Sound crypto maker limit { system with
      wallet := (system.wallet.eraseIndex nIndex).keepKey nIndex, kept := system.kept ++ [vchPubKey] } := by
  refine sound.moved (.pool nIndex) (.kept system.kept.length) ?_ rfl ?_ ?_
  · funext place
    rw [usable.custody member]
    cases place with
    | pool other =>
      rcases eq_or_ne other nIndex with rfl | apart
      · simp [custody, KeyPoolWallet.keepKey, KeyPoolWallet.erasePool, KeyPoolWallet.eraseIndex]
      · simp [custody, KeyPoolWallet.keepKey, KeyPoolWallet.erasePool, KeyPoolWallet.eraseIndex, apart]
    | held other => rfl
    | kept n =>
      rcases eq_or_ne n system.kept.length with rfl | apart
      · simp [custody]
      · have place : KeyPlace.kept (H := H) n ≠ .kept system.kept.length := by simpa using apart
        have other : KeyPlace.kept (H := H) n ≠ .pool nIndex := by simp
        rw [update_of_ne place, update_of_ne other]
        exact getElem?_concat_of_ne apart
  · intro other member
    obtain ⟨apart, member⟩ := Finset.mem_erase.mp member
    obtain ⟨key, usable⟩ := sound.filled other member
    exact ⟨key, usable.mono (update_of_ne apart _ _) (List.Subset.refl _)⟩
  · intro holder reserved
    have apart : (system.holders holder).nIndex ≠ nIndex := fun same => sound.apart reserved (same ▸ member)
    exact (sound.held holder reserved).mono (update_of_ne apart _ _) (List.Subset.refl _)

/-- The indices at which a call writes records. -/
def writes (system : KeyPoolSystem H) : KeyPoolCall H → Finset ℤ
  | .newKeyPool locked keypool => if locked then ∅ else indices 1 keypool.toNat
  | .topUpKeyPool locked keypool => toppedUp system.wallet locked keypool
  | .addReserveKey _ => {system.wallet.nEnd}
  | .getKeyFromPool locked keypool _ => toppedUp system.wallet locked keypool
  | .getReservedKey holder locked keypool =>
    if (system.holders holder).nIndex = -1 then toppedUp system.wallet locked keypool else ∅
  | .keepKey _ => ∅
  | .returnKey _ => ∅

/-- How many keys a call makes for the pool. -/
def makes (system : KeyPoolSystem H) : KeyPoolCall H → ℕ
  | .newKeyPool locked keypool => if locked then 0 else keypool.toNat
  | .topUpKeyPool locked keypool => missing system.wallet locked keypool
  | .addReserveKey _ => 0
  | .getKeyFromPool locked keypool _ => missing system.wallet locked keypool
  | .getReservedKey holder locked keypool =>
    if (system.holders holder).nIndex = -1 then missing system.wallet locked keypool else 0
  | .keepKey _ => 0
  | .returnKey _ => 0

/-- No record is written at an index that is reserved. Keys that are added belong to the wallet and are new, and
they are added to a pool that is not empty. -/
structure Safe (crypto : Crypto) (maker : KeyMaker) (limit : ℕ) (system : KeyPoolSystem H) (call : KeyPoolCall H) : Prop where
  free : ∀ holder, (system.holders holder).nIndex ∉ system.writes call
  enough : system.wallet.nMade + system.makes call ≤ limit
  small : ∀ keypool, call = .newKeyPool false keypool → keypool < 2 ^ 31
  added : ∀ keypool, call = .addReserveKey keypool → system.wallet.setKeyPool.Nonempty ∧
    validPubKey keypool.vchPubKey = true ∧
    system.wallet.keystore.haveKey (crypto.hash160 keypool.vchPubKey) = true ∧
    (∀ place, system.custody place ≠ some keypool.vchPubKey) ∧
    ∀ n, system.wallet.nMade ≤ n → n < limit → maker.makeNewKey n ≠ keypool.vchPubKey

omit [DecidableEq H] in
theorem after_eq {α : Type} {action : KeyPoolAction α} {next : α → KeyPoolWallet → KeyPoolSystem H} {result : α}
    {wallet : KeyPoolWallet} (ran : action system.wallet = (.ok result, wallet)) :
    system.after action next = .ok (next result wallet) := by
  rw [after, ran]
  rfl

theorem Sound.addReserveKey (sound : Sound crypto maker limit system) {keypool : CKeyPool}
    (safe : Safe crypto maker limit system (.addReserveKey keypool)) :
    Sound crypto maker limit { system with wallet := { system.wallet.writePool system.wallet.nEnd keypool with
      setKeyPool := insert system.wallet.nEnd system.wallet.setKeyPool } } := by
  obtain ⟨-, valid, have_key, new, later⟩ := safe.added keypool rfl
  have pos := sound.nEnd_pos
  have usable : Usable crypto { system.wallet.writePool system.wallet.nEnd keypool with
      setKeyPool := insert system.wallet.nEnd system.wallet.setKeyPool } system.wallet.nEnd keypool.vchPubKey :=
    ⟨pos, by simp [KeyPoolWallet.writePool], valid, have_key⟩
  have others : ∀ nIndex, nIndex ≠ system.wallet.nEnd →
      (system.wallet.writePool system.wallet.nEnd keypool).pool nIndex = system.wallet.pool nIndex :=
    fun nIndex apart => update_of_ne apart _ _
  have custody : custody { system with wallet := { system.wallet.writePool system.wallet.nEnd keypool with
      setKeyPool := insert system.wallet.nEnd system.wallet.setKeyPool } } =
      Function.update system.custody (.pool system.wallet.nEnd) (some keypool.vchPubKey) := by
    funext place
    cases place with
    | pool other =>
      rcases eq_or_ne other system.wallet.nEnd with rfl | apart
      · rw [update_self]
        exact usable.custody (Finset.mem_insert_self ..)
      · simp [KeyPoolSystem.custody, apart, others]
    | held holder => rfl
    | kept n => rfl
  refine ⟨?_, ?_, ?_, ?_⟩
  · rw [custody]
    exact sound.sole.put new _
  · intro other member
    rcases eq_or_ne other system.wallet.nEnd with rfl | apart
    · exact ⟨_, usable⟩
    · obtain ⟨vchPubKey, usable⟩ := sound.filled other (Finset.mem_of_mem_insert_of_ne member apart)
      exact ⟨vchPubKey, usable.mono (others other apart) (List.Subset.refl _)⟩
  · intro holder reserved
    have apart : (system.holders holder).nIndex ≠ system.wallet.nEnd := by simpa [writes] using safe.free holder
    exact (sound.held holder reserved).mono (others _ apart) (List.Subset.refl _)
  · intro place vchPubKey lies n made inside
    rw [custody] at lies
    rcases eq_or_ne place (.pool system.wallet.nEnd) with rfl | apart
    · rw [update_self, Option.some.injEq] at lies
      exact lies ▸ later n made inside
    · rw [update_of_ne apart] at lies
      exact sound.ahead place _ lies n made inside

private theorem kept_of_spare {result : Option (ℤ × valtype)} {kept : List valtype} (spare : ∀ key ∈ result, key.1 = -1) :
    kept ++ (result.toList.filter (·.1 ≠ -1)).map Prod.snd = kept := by
  cases result with
  | none => exact List.append_nil _
  | some key => simp [spare key rfl]

variable {locked : Bool} {keypool : ℤ}

theorem Sound.getKeyFromPool (sound : Sound crypto maker limit system) (fresh : maker.Fresh limit)
    {fAllowReuse : Bool} (enough : system.wallet.nMade + missing system.wallet locked keypool ≤ limit)
    (free : ∀ holder, (system.holders holder).nIndex ∉ toppedUp system.wallet locked keypool) :
    ∃ next, system.step crypto maker (.getKeyFromPool locked keypool fAllowReuse) = .ok next ∧
      Sound crypto maker limit next := by
  have topped := sound.topUpKeyPool fresh enough free
  rw [KeyPoolSystem.step]
  rcases KeyPoolWallet.getKeyFromPool_cases rfl topped.filled with
    ⟨result, after, ran, spare, rfl | rfl⟩ | ⟨nIndex, member, vchPubKey, usable, ran⟩
  · refine ⟨_, after_eq ran, ?_⟩
    rwa [kept_of_spare spare]
  · refine ⟨_, after_eq ran, ?_⟩
    rw [kept_of_spare spare]
    exact topped.generateNewKey
  · have pos := usable.pos
    have reserved : nIndex ≠ -1 := by omega
    refine ⟨_, after_eq ran, ?_⟩
    simpa [reserved] using topped.takeAndKeep member usable

theorem Sound.getReservedKey (sound : Sound crypto maker limit system) (fresh : maker.Fresh limit) {holder : H}
    (safe : Safe crypto maker limit system (.getReservedKey holder locked keypool)) :
    ∃ next, system.step crypto maker (.getReservedKey holder locked keypool) = .ok next ∧
      Sound crypto maker limit next := by
  rw [KeyPoolSystem.step]
  rcases ne_or_eq (system.holders holder).nIndex (-1) with reserved | unreserved
  · have ran : (system.holders holder).getReservedKey crypto maker locked keypool system.wallet =
        (.ok (system.holders holder, some (system.holders holder).vchPubKey), system.wallet) := by
      rw [CReserveKey.getReservedKey, if_pos reserved, KeyPoolWallet.checked_eq (sound.held holder reserved).valid]
    refine ⟨_, after_eq ran, ?_⟩
    rwa [update_eq_self]
  · have free := safe.free
    have enough := safe.enough
    simp only [writes, makes, if_pos unreserved] at free enough
    have topped := sound.topUpKeyPool fresh enough free
    rcases KeyPoolWallet.getReservedKey_cases unreserved rfl topped.filled with
      ⟨after, result, ran, empty⟩ | ⟨nIndex, member, vchPubKey, usable, ran⟩
    · exact ⟨_, after_eq ran, topped.forget unreserved empty⟩
    · exact ⟨_, after_eq ran, topped.take member usable⟩

theorem Sound.newKeyPool (sound : Sound crypto maker limit system) (fresh : maker.Fresh limit)
    (safe : Safe crypto maker limit system (.newKeyPool locked keypool)) :
    ∃ next, system.step crypto maker (.newKeyPool locked keypool) = .ok next ∧ Sound crypto maker limit next := by
  have erased := sound.erasePools
  rw [KeyPoolSystem.step]
  cases locked with
  | true => exact ⟨_, rfl, erased⟩
  | false =>
    have small := safe.small keypool rfl
    have enough : system.wallet.erasePools.nMade + keypool.toNat ≤ limit := safe.enough
    have free : ∀ holder, (system.holders holder).nIndex ∉ indices ((0 : ℕ) + 1) keypool.toNat := by
      intro holder member
      obtain ⟨low, high⟩ := mem_indices.mp member
      exact safe.free holder (mem_indices.mpr ⟨by omega, by omega⟩)
    obtain ⟨wallet, ran, refilled⟩ := erased.newKeyPoolLoop fresh enough (by omega : 0 + keypool.toNat < 2 ^ 31) free
    have done : KeyPoolWallet.newKeyPool crypto maker false keypool system.wallet = (.ok true, wallet) := by
      rw [KeyPoolWallet.newKeyPool, modify_bind, if_neg Bool.false_ne_true, bind_of_ok ran]
      rfl
    exact ⟨_, after_eq done, refilled⟩

theorem Sound.step (sound : Sound crypto maker limit system) (fresh : maker.Fresh limit) {call : KeyPoolCall H}
    (safe : Safe crypto maker limit system call) :
    ∃ next, system.step crypto maker call = .ok next ∧ Sound crypto maker limit next := by
  cases call with
  | newKeyPool locked keypool => exact sound.newKeyPool fresh safe
  | topUpKeyPool locked keypool => exact ⟨_, rfl, sound.topUpKeyPool fresh safe.enough safe.free⟩
  | addReserveKey keypool =>
    rw [KeyPoolSystem.step]
    exact ⟨_, after_eq (KeyPoolWallet.addReserveKey_eq (safe.added keypool rfl).1), sound.addReserveKey safe⟩
  | getKeyFromPool locked keypool fAllowReuse => exact sound.getKeyFromPool fresh safe.enough safe.free
  | getReservedKey holder locked keypool => exact sound.getReservedKey fresh safe
  | keepKey holder => exact ⟨_, rfl, sound.keep holder⟩
  | returnKey holder => exact ⟨_, rfl, sound.giveBack holder⟩

/-- Every call of a run is safe when it is made. -/
def AllSafe (crypto : Crypto) (maker : KeyMaker) (limit : ℕ) (system : KeyPoolSystem H) : List (KeyPoolCall H) → Prop
  | [] => True
  | call :: rest => Safe crypto maker limit system call ∧
    match system.step crypto maker call with
    | .error _ => True
    | .ok next => AllSafe crypto maker limit next rest

theorem Sound.run (fresh : maker.Fresh limit) (sound : Sound crypto maker limit system) {calls : List (KeyPoolCall H)}
    (safe : AllSafe crypto maker limit system calls) :
    ∃ after, system.run crypto maker calls = .ok after ∧ Sound crypto maker limit after := by
  induction calls generalizing system with
  | nil => exact ⟨system, rfl, sound⟩
  | cons call rest ih =>
    obtain ⟨next, ran, kept⟩ := sound.step fresh safe.1
    have later := safe.2
    rw [ran] at later
    obtain ⟨after, went, final⟩ := ih kept later
    refine ⟨after, ?_, final⟩
    rw [KeyPoolSystem.run, List.foldlM_cons, ran]
    exact went

/-- A wallet whose pool can be handed out, before anything is reserved. -/
structure Loaded (crypto : Crypto) (maker : KeyMaker) (limit : ℕ) (system : KeyPoolSystem H) : Prop where
  unreserved : ∀ holder, (system.holders holder).nIndex = -1
  kept : system.kept = []
  filled : ∀ nIndex ∈ system.wallet.setKeyPool, ∃ vchPubKey, Usable crypto system.wallet nIndex vchPubKey
  distinct : ∀ nIndex ∈ system.wallet.setKeyPool, ∀ other ∈ system.wallet.setKeyPool,
    (system.wallet.pool nIndex).map CKeyPool.vchPubKey = (system.wallet.pool other).map CKeyPool.vchPubKey →
      nIndex = other
  ahead : ∀ nIndex ∈ system.wallet.setKeyPool, ∀ keypool, system.wallet.pool nIndex = some keypool →
    ∀ n, system.wallet.nMade ≤ n → n < limit → maker.makeNewKey n ≠ keypool.vchPubKey

omit [DecidableEq H] in
theorem Loaded.sound (loaded : Loaded crypto maker limit system) : Sound crypto maker limit system := by
  have inPool : ∀ place vchPubKey, system.custody place = some vchPubKey → ∃ nIndex ∈ system.wallet.setKeyPool,
      place = .pool nIndex ∧ (system.wallet.pool nIndex).map CKeyPool.vchPubKey = some vchPubKey := by
    intro place vchPubKey lies
    cases place with
    | pool nIndex =>
      rw [custody] at lies
      split_ifs at lies with member
      exact ⟨nIndex, member, rfl, lies⟩
    | held holder =>
      rw [custody, if_pos (loaded.unreserved holder)] at lies
      cases lies
    | kept n =>
      rw [custody, loaded.kept] at lies
      cases lies
  refine ⟨?_, loaded.filled, fun holder reserved => absurd (loaded.unreserved holder) reserved, ?_⟩
  · intro place other vchPubKey left right
    obtain ⟨nIndex, member, rfl, record⟩ := inPool place vchPubKey left
    obtain ⟨further, listed, rfl, same⟩ := inPool other vchPubKey right
    rw [loaded.distinct nIndex member further listed (record.trans same.symm)]
  · intro place vchPubKey lies
    obtain ⟨nIndex, member, rfl, record⟩ := inPool place vchPubKey lies
    obtain ⟨keypool, found, rfl⟩ := Option.map_eq_some_iff.mp record
    exact loaded.ahead nIndex member keypool found

omit [DecidableEq H] in
theorem Sound.nodup_kept (sound : Sound crypto maker limit system) : system.kept.Nodup := by
  apply List.nodup_iff_getElem?_ne_getElem?.mpr
  intro i j below inside same
  have lies := List.getElem?_eq_getElem inside
  cases sound.sole (.kept i) (.kept j) _ (same.trans lies) lies
  exact lt_irrefl _ below

/-- A key that is returned is in the pool once. -/
theorem Sound.returned (sound : Sound crypto maker limit system) {holder : H}
    (reserved : (system.holders holder).nIndex ≠ -1) :
    ∃! nIndex, nIndex ∈ (system.giveBack holder).wallet.setKeyPool ∧
      ((system.giveBack holder).wallet.pool nIndex).map CKeyPool.vchPubKey =
        some (system.holders holder).vchPubKey := by
  have usable := sound.held holder reserved
  have wallet : (system.giveBack holder).wallet = system.wallet.returnKey (system.holders holder).nIndex :=
    if_pos reserved
  have lies : ∀ nIndex, nIndex ∈ (system.giveBack holder).wallet.setKeyPool →
      ((system.giveBack holder).wallet.pool nIndex).map CKeyPool.vchPubKey =
        some (system.holders holder).vchPubKey →
      (system.giveBack holder).custody (.pool nIndex) = some (system.holders holder).vchPubKey := by
    intro nIndex member record
    rw [custody, if_pos member, record]
  have member : (system.holders holder).nIndex ∈ (system.giveBack holder).wallet.setKeyPool := by
    rw [wallet]
    exact Finset.mem_insert_self ..
  have record : ((system.giveBack holder).wallet.pool (system.holders holder).nIndex).map CKeyPool.vchPubKey =
      some (system.holders holder).vchPubKey := by
    rw [wallet]
    exact usable.record
  refine ⟨_, ⟨member, record⟩, fun other found => ?_⟩
  cases (sound.giveBack holder).sole _ _ _ (lies other found.1 found.2) (lies _ member record)
  rfl

/-- A run of safe calls does not fail. No key is kept twice, the pool can be handed out, and a key that is
returned is in the pool once. -/
theorem keyPool_safe (fresh : maker.Fresh limit) (loaded : Loaded crypto maker limit system)
    {calls : List (KeyPoolCall H)} (safe : AllSafe crypto maker limit system calls) :
    ∃ after, system.run crypto maker calls = .ok after ∧ after.kept.Nodup ∧
      (∀ nIndex ∈ after.wallet.setKeyPool, ∃ keypool, after.wallet.pool nIndex = some keypool ∧
        after.wallet.keystore.haveKey (crypto.hash160 keypool.vchPubKey) = true) ∧
      ∀ holder, (after.holders holder).nIndex ≠ -1 →
        ∃ next, after.step crypto maker (.returnKey holder) = .ok next ∧
          ∃! nIndex, nIndex ∈ next.wallet.setKeyPool ∧
            (next.wallet.pool nIndex).map CKeyPool.vchPubKey = some (after.holders holder).vchPubKey := by
  obtain ⟨after, ran, sound⟩ := loaded.sound.run fresh safe
  refine ⟨after, ran, sound.nodup_kept, fun nIndex member => ?_, fun holder reserved => ?_⟩
  · obtain ⟨vchPubKey, usable⟩ := sound.filled nIndex member
    obtain ⟨keypool, found, rfl⟩ := Option.map_eq_some_iff.mp usable.record
    exact ⟨keypool, found, usable.have_key⟩
  · exact ⟨_, rfl, sound.returned reserved⟩

end KeyPoolSystem

namespace TestNet

/-- Keys that are filled with their number. -/
def keyMaker : KeyMaker where
  makeNewKey n := List.replicate 33 (UInt8.ofNat n)
  getTime n := n

/-- A new wallet and two users. -/
def newWallet : KeyPoolSystem Bool := {}

end TestNet

namespace KeyPoolSystem

open TestNet

/-- Both users hold index 1 when the pool is filled to one key: the second key is written over the first. After a
return it is reserved again, and both reservations are kept. If the record is erased instead, the index that was
returned cannot be read. -/
theorem key_given_twice :
    (newWallet.run digests keyMaker [.getReservedKey false false 0, .getReservedKey true false 0, .returnKey false,
        .getReservedKey false false 0, .keepKey true, .keepKey false]).toOption.map KeyPoolSystem.kept =
      some [List.replicate 33 1, List.replicate 33 1] ∧
    (newWallet.run digests keyMaker [.getReservedKey false false 0, .getReservedKey true false 0, .returnKey false,
        .keepKey true, .getReservedKey false false 0]).map KeyPoolSystem.kept =
      .error (.throws "ReserveKeyFromKeyPool() : read failed") := by
  constructor
  · decide
  · rfl

/-- With a pool of two keys one user returns its key and the other keeps it. -/
theorem keyPool_safe_twoUsers :
    ∃ after, newWallet.run digests keyMaker [.getReservedKey false false 1, .getReservedKey true false 1,
        .returnKey false, .keepKey true] = .ok after ∧
      after.kept = [List.replicate 33 1] ∧ after.kept.Nodup ∧
      ∀ nIndex ∈ after.wallet.setKeyPool, ∃ keypool, after.wallet.pool nIndex = some keypool ∧
        after.wallet.keystore.haveKey (digests.hash160 keypool.vchPubKey) = true := by
  have fresh : keyMaker.Fresh 256 := by
    refine ⟨fun m inside n within same => ?_, fun _ _ => rfl⟩
    have byte := congrArg UInt8.toNat ((List.replicate_right_inj (by decide)).mp same)
    rwa [UInt8.toNat_ofNat_of_lt' inside, UInt8.toNat_ofNat_of_lt' within] at byte
  have loaded : Loaded digests keyMaker 256 newWallet := ⟨fun _ => rfl, rfl, nofun, nofun, nofun⟩
  have safe : AllSafe digests keyMaker 256 newWallet
      [.getReservedKey false false 1, .getReservedKey true false 1, .returnKey false, .keepKey true] :=
    ⟨⟨by decide, by decide, nofun, nofun⟩, ⟨by decide, by decide, nofun, nofun⟩,
      ⟨by decide, by decide, nofun, nofun⟩, ⟨by decide, by decide, nofun, nofun⟩, trivial⟩
  obtain ⟨after, ran, distinct, filled, -⟩ := keyPool_safe fresh loaded safe
  have kept : (newWallet.run digests keyMaker [.getReservedKey false false 1, .getReservedKey true false 1,
      .returnKey false, .keepKey true]).toOption.map KeyPoolSystem.kept = some [List.replicate 33 1] := by
    decide
  rw [ran] at kept
  exact ⟨after, ran, Option.some.inj kept, distinct, filled⟩

end KeyPoolSystem

end BitCrystal
