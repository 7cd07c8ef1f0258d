import BitCrystal.Proofs.AddrCheck

/-! # What the operations of the address manager keep

The indices lead from an address and from a position to the entry and back. The buckets hold each id as often as its entry
says; in the middle of an operation one id may be owed to a bucket, because its entry counts a reference already.
-/

namespace BitCrystal

open Function Buckets OrderedMap

namespace CAddrMan

variable {s t : CAddrMan} {n k : ℤ} {info old : CAddrInfo} {f : CAddrInfo → CAddrInfo}

theorem info_of_some (found : s.mapInfo.find? n = some info) : s.info n = info := by
  rw [CAddrMan.info, found, Option.getD_some]

theorem references_of_some (found : s.mapInfo.find? n = some info) : s.references n = info.nRefCount := by
  rw [references, found]
  rfl

theorem isTried_of_some (found : s.mapInfo.find? n = some info) : s.isTried n = info.fInTried := by
  rw [isTried, found]
  rfl

theorem references_of_none (missing : s.mapInfo.find? n = none) : s.references n = 0 := by
  rw [references, missing]
  rfl

theorem isTried_of_none (missing : s.mapInfo.find? n = none) : s.isTried n = false := by
  rw [isTried, missing]
  rfl

theorem getTriedBucket_congr {other : CAddrInfo} (hash2 : List UInt8 → Uint256) (nKey : List UInt8)
    (service : info.toCService = other.toCService) :
    info.getTriedBucket hash2 nKey = other.getTriedBucket hash2 nKey := by
  simp only [CAddrInfo.getTriedBucket, service]

/-- One entry is set, and no other. -/
structure Entered (s t : CAddrMan) (n : ℤ) (info : CAddrInfo) : Prop where
  mapInfo : t.mapInfo = s.mapInfo.insert n info
  nKey : t.nKey = s.nKey

namespace Entered

theorem modifyInfo (s : CAddrMan) (n : ℤ) (f : CAddrInfo → CAddrInfo) :
    Entered s (s.modifyInfo n f) n (f (s.info n)) := ⟨rfl, rfl⟩

section

variable (entered : Entered s t n info)
include entered

theorem find? (k : ℤ) : t.mapInfo.find? k = if k = n then some info else s.mapInfo.find? k := by
  rw [entered.mapInfo, find?_insert]

theorem find?_self : t.mapInfo.find? n = some info := by
  rw [entered.find?, if_pos rfl]

theorem find?_of_ne (different : k ≠ n) : t.mapInfo.find? k = s.mapInfo.find? k := by
  rw [entered.find?, if_neg different]

theorem info_of_ne (different : k ≠ n) : t.info k = s.info k := by
  rw [CAddrMan.info, entered.find?_of_ne different, CAddrMan.info]

theorem references (k : ℤ) : t.references k = if k = n then info.nRefCount else s.references k := by
  rw [CAddrMan.references, entered.find?]
  split <;> rfl

theorem isTried (k : ℤ) : t.isTried k = if k = n then info.fInTried else s.isTried k := by
  rw [CAddrMan.isTried, entered.find?]
  split <;> rfl

theorem sound (all : ∀ k info, s.mapInfo.find? k = some info → info.Sound)
    (here : info.Sound) : ∀ k info, t.mapInfo.find? k = some info → info.Sound := by
  intro k other found
  rw [entered.find?] at found
  split at found
  next => exact Option.some.inj found ▸ here
  next => exact all k other found

theorem placed {hash2 : List UInt8 → Uint256} (service : info.toCService = (s.info n).toCService) {b : TriedBucket}
    (before : (s.info k).getTriedBucket hash2 s.nKey = b) : (t.info k).getTriedBucket hash2 t.nKey = b := by
  rw [entered.nKey]
  rcases eq_or_ne k n with rfl | different
  · rw [info_of_some entered.find?_self, getTriedBucket_congr hash2 s.nKey service, before]
  · rw [entered.info_of_ne different, before]

end

/-- The entry is set once more. -/
theorem again {u : CAddrMan} {other : CAddrInfo} (first : Entered s t n info) (second : Entered t u n other) :
    Entered s u n other where
  mapInfo := by
    refine ext_find? fun k => ?_
    rw [second.find?, first.find?, find?_insert]
    split <;> rfl
  nKey := second.nKey.trans first.nKey

theorem count_of_none (entered : Entered s t n info) (missing : s.mapInfo.find? n = none) (p : CAddrInfo → Bool) :
    t.mapInfo.count p = s.mapInfo.count p + if p info then 1 else 0 := by
  rw [entered.mapInfo, count_insert_of_none missing]

/-- The number of entries of a kind after an entry has changed. -/
theorem count_add (entered : Entered s t n info) {old : CAddrInfo} (found : s.mapInfo.find? n = some old)
    (p : CAddrInfo → Bool) :
    t.mapInfo.count p + (if p old then 1 else 0) = s.mapInfo.count p + if p info then 1 else 0 := by
  have erased := @OrderedMap.count_erase _ _ _ s.mapInfo n old p found
  rw [entered.mapInfo, count_insert, ← erased]
  exact Nat.add_right_comm ..

theorem count_of_same (entered : Entered s t n info) {old : CAddrInfo} (found : s.mapInfo.find? n = some old)
    (p : CAddrInfo → Bool) (same : p info = p old) : t.mapInfo.count p = s.mapInfo.count p := by
  have counted := entered.count_add found p
  rw [same] at counted
  exact Nat.add_right_cancel counted

end Entered

/-- An entry without its position. -/
def strip (info : CAddrInfo) : CAddrInfo := { info with nRandomPos := 0 }

theorem sound_strip : (strip info).Sound ↔ info.Sound :=
  ⟨fun ⟨tried, new, nLastTry, nLastSuccess⟩ => ⟨tried, new, nLastTry, nLastSuccess⟩,
    fun ⟨tried, new, nLastTry, nLastSuccess⟩ => ⟨tried, new, nLastTry, nLastSuccess⟩⟩

/-- How often an id is owed. -/
def owes (owed : Option ℤ) (n : ℤ) : ℕ := if owed = some n then 1 else 0

@[simp] theorem owes_none (n : ℤ) : owes none n = 0 := rfl

@[simp] theorem owes_self (n : ℤ) : owes (some n) n = 1 := if_pos rfl

theorem owes_of_ne (different : k ≠ n) : owes (some n) k = 0 := if_neg fun same => different (Option.some.inj same).symm

theorem owes_some (n k : ℤ) : owes (some n) k = if k = n then 1 else 0 := by
  rcases eq_or_ne k n with rfl | different
  · rw [owes_self, if_pos rfl]
  · rw [owes_of_ne different, if_neg different]

/-- The entries and the buckets fit together, up to one id that a new bucket and one that a tried bucket lacks. -/
structure Tabled (hash2 : List UInt8 → Uint256) (owedNew owedTried : Option ℤ) (s : CAddrMan) : Prop where
  sound : ∀ n info, s.mapInfo.find? n = some info → info.Sound
  new : ∀ n, ((s.newContents.count n + owes owedNew n : ℕ) : ℤ) = s.references n
  tried : ∀ n, s.triedContents.count n + owes owedTried n = if s.isTried n then 1 else 0
  newSize : ∀ b, (s.vvNew b).card ≤ ADDRMAN_NEW_BUCKET_SIZE
  triedSize : ∀ b, (s.vvTried b).length ≤ ADDRMAN_TRIED_BUCKET_SIZE
  placed : ∀ b, ∀ n ∈ s.vvTried b, (s.info n).getTriedBucket hash2 s.nKey = b
  nTried_eq : s.nTried = s.mapInfo.count (·.fInTried)
  nNew_eq : s.nNew = s.mapInfo.count fun info => !info.fInTried

variable {hash2 : List UInt8 → Uint256} {owedNew owedTried : Option ℤ}

/-- The tables are the same, and so are the entries up to their positions. -/
structure SameTables (s t : CAddrMan) : Prop where
  entries : ∀ n, (t.mapInfo.find? n).map strip = (s.mapInfo.find? n).map strip
  nKey : t.nKey = s.nKey
  vvTried : t.vvTried = s.vvTried
  vvNew : t.vvNew = s.vvNew
  nTried : t.nTried = s.nTried
  nNew : t.nNew = s.nNew

theorem Tabled.congr (tabled : Tabled hash2 owedNew owedTried s) (same : SameTables s t) :
    Tabled hash2 owedNew owedTried t := by
  have references (n : ℤ) : t.references n = s.references n := by
    have stripped (u : CAddrMan) : u.references n = (((u.mapInfo.find? n).map strip).map (·.nRefCount)).getD 0 := by
      rw [CAddrMan.references, Option.map_map]
      rfl
    rw [stripped, stripped, same.entries]
  have isTried (n : ℤ) : t.isTried n = s.isTried n := by
    have stripped (u : CAddrMan) : u.isTried n = ((u.mapInfo.find? n).map strip).any (·.fInTried) := by
      rw [CAddrMan.isTried, Option.any_map]
      rfl
    rw [stripped, stripped, same.entries]
  have bucket (n : ℤ) : (t.info n).getTriedBucket hash2 t.nKey = (s.info n).getTriedBucket hash2 s.nKey := by
    have stripped (u : CAddrMan) : (u.info n).getTriedBucket hash2 s.nKey =
        (((u.mapInfo.find? n).map strip).getD {}).getTriedBucket hash2 s.nKey := by
      rw [CAddrMan.info]
      cases u.mapInfo.find? n <;> rfl
    rw [same.nKey, stripped, stripped, same.entries]
  have newContents : t.newContents = s.newContents := by rw [CAddrMan.newContents, same.vvNew, CAddrMan.newContents]
  have triedContents : t.triedContents = s.triedContents := by
    rw [CAddrMan.triedContents, same.vvTried, CAddrMan.triedContents]
  exact {
    sound := fun n info found => by
      have back := same.entries n
      rw [found, Option.map_some] at back
      obtain ⟨old, found', stripped⟩ := Option.map_eq_some_iff.mp back.symm
      rw [← sound_strip, ← stripped, sound_strip]
      exact tabled.sound n old found'
    new := fun n => by rw [newContents, references, tabled.new]
    tried := fun n => by rw [triedContents, isTried, tabled.tried]
    newSize := fun b => by rw [same.vvNew]; exact tabled.newSize b
    triedSize := fun b => by rw [same.vvTried]; exact tabled.triedSize b
    placed := fun b n member => by
      rw [same.vvTried] at member
      rw [bucket]
      exact tabled.placed b n member
    nTried_eq := by
      rw [same.nTried, tabled.nTried_eq]
      exact congrArg Nat.cast (@OrderedMap.count_congr _ _ _ _ _ _ strip (·.fInTried) same.entries).symm
    nNew_eq := by
      rw [same.nNew, tabled.nNew_eq]
      exact congrArg Nat.cast (@OrderedMap.count_congr _ _ _ _ _ _ strip (fun info => !info.fInTried) same.entries).symm }

/-- The references to one entry change. -/
theorem Tabled.rereference {owed : Option ℤ} (tabled : Tabled hash2 owedNew owedTried s) (entered : Entered s t n info)
    (found : s.mapInfo.find? n = some old) (sound : info.Sound) (service : info.toCService = old.toCService)
    (fInTried : info.fInTried = old.fInTried) (vvTried : t.vvTried = s.vvTried) (nTried : t.nTried = s.nTried)
    (nNew : t.nNew = s.nNew) (newSize : ∀ b, (t.vvNew b).card ≤ ADDRMAN_NEW_BUCKET_SIZE)
    (new : ∀ k, ((t.newContents.count k + owes owed k : ℕ) : ℤ) = t.references k) :
    Tabled hash2 owed owedTried t where
  sound := entered.sound tabled.sound sound
  new := new
  tried k := by
    have isTried : t.isTried k = s.isTried k := by
      rw [entered.isTried, fInTried]
      split
      next same => rw [same, isTried_of_some found]
      next => rfl
    rw [triedContents, vvTried, isTried]
    exact tabled.tried k
  newSize := newSize
  triedSize b := by
    rw [vvTried]
    exact tabled.triedSize b
  placed b k member := by
    rw [vvTried] at member
    exact entered.placed (by rw [info_of_some found, service]) (tabled.placed b k member)
  nTried_eq := by
    rw [nTried, tabled.nTried_eq, entered.count_of_same found (·.fInTried) fInTried]
  nNew_eq := by
    rw [nNew, tabled.nNew_eq, entered.count_of_same found (fun info => !info.fInTried) (by rw [fInTried])]

/-- An entry is changed that keeps its place in the tables. -/
theorem Tabled.modify (tabled : Tabled hash2 owedNew owedTried s) (found : s.mapInfo.find? n = some info)
    (sound : (f info).Sound) (service : (f info).toCService = info.toCService)
    (nRefCount : (f info).nRefCount = info.nRefCount) (fInTried : (f info).fInTried = info.fInTried) :
    Tabled hash2 owedNew owedTried (s.modifyInfo n f) := by
  have entered := Entered.modifyInfo s n f
  rw [info_of_some found] at entered
  refine tabled.rereference entered found sound service fInTried rfl rfl rfl tabled.newSize fun k => ?_
  rw [entered.references, nRefCount]
  apply (tabled.new k).trans
  split
  next same => rw [same, references_of_some found]
  next => rfl

theorem exists_of_isTried (tried : s.isTried n = true) : ∃ info, s.mapInfo.find? n = some info ∧ info.fInTried = true := by
  rw [isTried] at tried
  cases found : s.mapInfo.find? n with
  | none =>
    rw [found] at tried
    cases tried
  | some info =>
    rw [found] at tried
    exact ⟨info, rfl, tried⟩

theorem Tabled.isTried_of_mem (tabled : Tabled hash2 owedNew owedTried s) {b : TriedBucket} (member : n ∈ s.vvTried b) :
    s.isTried n = true := by
  have inside : n ∈ s.triedContents := mem_triedContents.mpr ⟨b, member⟩
  have counted := tabled.tried n
  have positive := Multiset.count_pos.mpr inside
  by_contra new
  rw [if_neg new] at counted
  omega

variable {b : NewBucket}

theorem Tabled.new_of_mem (tabled : Tabled hash2 owedNew owedTried s) (member : n ∈ s.vvNew b) :
    ∃ info, s.mapInfo.find? n = some info ∧ info.fInTried = false := by
  have inside : n ∈ s.newContents := mem_newContents.mpr ⟨b, member⟩
  have counted := tabled.new n
  have positive := Multiset.count_pos.mpr inside
  cases found : s.mapInfo.find? n with
  | none =>
    rw [references_of_none found] at counted
    omega
  | some info =>
    rw [references_of_some found] at counted
    refine ⟨info, rfl, Bool.eq_false_iff.mpr fun tried => ?_⟩
    have zero := ((tabled.sound n info found).tried tried).2
    omega

/-! ## References to new entries -/

/-- A new entry with one reference, which no bucket has yet. -/
theorem Tabled.create (tabled : Tabled hash2 none none s) (missing : s.mapInfo.find? n = none) (sound : info.Sound)
    (fInTried : info.fInTried = false) (nRefCount : info.nRefCount = 1) (entered : Entered s t n info)
    (vvTried : t.vvTried = s.vvTried) (vvNew : t.vvNew = s.vvNew) (nTried : t.nTried = s.nTried)
    (nNew : t.nNew = s.nNew + 1) : Tabled hash2 (some n) none t where
  sound := entered.sound tabled.sound sound
  new k := by
    have before := tabled.new k
    rw [newContents, vvNew, entered.references]
    rcases eq_or_ne k n with rfl | different
    · rw [references_of_none missing] at before
      rw [if_pos rfl, owes_self, nRefCount]
      rw [owes_none] at before
      change ((s.newContents.count k + 1 : ℕ) : ℤ) = 1
      omega
    · rw [if_neg different, owes_of_ne different, ← before]
      rfl
  tried k := by
    rw [triedContents, vvTried, entered.isTried]
    apply (tabled.tried k).trans
    rcases eq_or_ne k n with rfl | different
    · rw [if_pos rfl, fInTried, isTried_of_none missing]
    · rw [if_neg different]
  newSize b := by rw [vvNew]; exact tabled.newSize b
  triedSize b := by rw [vvTried]; exact tabled.triedSize b
  placed b k member := by
    rw [vvTried] at member
    have different : k ≠ n := by
      rintro rfl
      have tried := tabled.isTried_of_mem member
      rw [isTried_of_none missing] at tried
      cases tried
    rw [entered.info_of_ne different, entered.nKey]
    exact tabled.placed b k member
  nTried_eq := by
    rw [nTried, tabled.nTried_eq, entered.count_of_none missing, fInTried]
    rfl
  nNew_eq := by
    rw [nNew, tabled.nNew_eq, entered.count_of_none missing, fInTried]
    rfl

/-- One more reference to a new entry, which no bucket has yet. -/
theorem Tabled.reference (tabled : Tabled hash2 none owedTried s) (found : s.mapInfo.find? n = some info)
    (fInTried : info.fInTried = false) (few : info.nRefCount ≠ ADDRMAN_NEW_BUCKETS_PER_ADDRESS) :
    Tabled hash2 (some n) owedTried (s.modifyInfo n fun info => { info with nRefCount := info.nRefCount + 1 }) := by
  have entered := Entered.modifyInfo s n fun info => { info with nRefCount := info.nRefCount + 1 }
  rw [info_of_some found] at entered
  have sound := tabled.sound n info found
  have bounds := sound.new fInTried
  refine tabled.rereference entered found ⟨fun tried => ?_, fun _ => ?_, sound.nLastTry, sound.nLastSuccess⟩ rfl rfl rfl
    rfl rfl tabled.newSize fun k => ?_
  · rw [fInTried] at tried
    cases tried
  · dsimp only
    omega
  · have counted := tabled.new k
    rw [owes_none, add_zero] at counted
    rw [entered.references]
    change ((s.newContents.count k + owes (some n) k : ℕ) : ℤ) = _
    rcases eq_or_ne k n with rfl | different
    · rw [references_of_some found] at counted
      rw [if_pos rfl, owes_self, Nat.cast_add, counted, Nat.cast_one]
    · rw [if_neg different, owes_of_ne different, add_zero, counted]

theorem vvNew_insertNew (s : CAddrMan) (b : NewBucket) (n : ℤ) :
    (s.insertNew b n).vvNew = update s.vvNew b (insert n (s.vvNew b)) := rfl

theorem vvNew_eraseNew (s : CAddrMan) (b : NewBucket) (n : ℤ) :
    (s.eraseNew b n).vvNew = update s.vvNew b ((s.vvNew b).erase n) := rfl

theorem newContents_insertNew (outside : n ∉ s.vvNew b) : (s.insertNew b n).newContents = n ::ₘ s.newContents := by
  have shape : (fun c => ((s.insertNew b n).vvNew c).val) =
      update (fun c => (s.vvNew c).val) b (n ::ₘ (s.vvNew b).val) := by
    funext c
    rcases eq_or_ne c b with rfl | different
    · rw [update_self, vvNew_insertNew, update_self, Finset.insert_val_of_notMem outside]
    · rw [update_of_ne different, vvNew_insertNew, update_of_ne different]
  rw [newContents, shape, contents_cons, newContents]

theorem newContents_eraseNew (inside : n ∈ s.vvNew b) : s.newContents = n ::ₘ (s.eraseNew b n).newContents := by
  have shape : (fun c => ((s.eraseNew b n).vvNew c).val) =
      update (fun c => (s.vvNew c).val) b ((s.vvNew b).val.erase n) := by
    funext c
    rcases eq_or_ne c b with rfl | different
    · rw [update_self, vvNew_eraseNew, update_self, Finset.erase_val]
    · rw [update_of_ne different, vvNew_eraseNew, update_of_ne different]
  rw [newContents, newContents, shape]
  exact contents_of_cons (Multiset.cons_erase inside).symm

theorem card_insertNew (newSize : ∀ c, (s.vvNew c).card ≤ ADDRMAN_NEW_BUCKET_SIZE)
    (room : (s.vvNew b).card < ADDRMAN_NEW_BUCKET_SIZE) (c : NewBucket) :
    ((s.insertNew b n).vvNew c).card ≤ ADDRMAN_NEW_BUCKET_SIZE := by
  rcases eq_or_ne c b with rfl | different
  · rw [vvNew_insertNew, update_self]
    exact (Finset.card_insert_le n _).trans room
  · rw [vvNew_insertNew, update_of_ne different]
    exact newSize c

theorem card_eraseNew (newSize : ∀ c, (s.vvNew c).card ≤ ADDRMAN_NEW_BUCKET_SIZE) (c : NewBucket) :
    ((s.eraseNew b n).vvNew c).card ≤ ADDRMAN_NEW_BUCKET_SIZE := by
  rcases eq_or_ne c b with rfl | different
  · rw [vvNew_eraseNew, update_self]
    exact (Finset.card_erase_le).trans (newSize c)
  · rw [vvNew_eraseNew, update_of_ne different]
    exact newSize c

/-- The id that is owed is put into a bucket. -/
theorem Tabled.insertNew (tabled : Tabled hash2 (some n) owedTried s) (outside : n ∉ s.vvNew b)
    (room : (s.vvNew b).card < ADDRMAN_NEW_BUCKET_SIZE) : Tabled hash2 none owedTried (s.insertNew b n) where
  sound := tabled.sound
  new k := by
    have counted := tabled.new k
    rw [newContents_insertNew outside, Multiset.count_cons, ← owes_some, owes_none, add_zero]
    exact counted
  tried := tabled.tried
  newSize := card_insertNew tabled.newSize room
  triedSize := tabled.triedSize
  placed := tabled.placed
  nTried_eq := tabled.nTried_eq
  nNew_eq := tabled.nNew_eq

/-- A bucket gives up an id whose entry stays, with a reference less. -/
theorem Tabled.unreference (tabled : Tabled hash2 owedNew owedTried s) (inside : n ∈ s.vvNew b)
    (found : s.mapInfo.find? n = some info) (more : info.nRefCount ≠ 1) : Tabled hash2 owedNew owedTried
      ((s.modifyInfo n fun info => { info with nRefCount := info.nRefCount - 1 }).eraseNew b n) := by
  have entered : Entered s ((s.modifyInfo n fun info => { info with nRefCount := info.nRefCount - 1 }).eraseNew b n) n
      { info with nRefCount := info.nRefCount - 1 } := by
    refine ⟨?_, rfl⟩
    rw [← info_of_some found]
    rfl
  obtain ⟨_, found', fInTried⟩ := tabled.new_of_mem inside
  obtain rfl := Option.some.inj (found.symm.trans found')
  have sound := tabled.sound n info found
  have bounds := sound.new fInTried
  refine tabled.rereference entered found ⟨fun tried => ?_, fun _ => ?_, sound.nLastTry, sound.nLastSuccess⟩ rfl rfl rfl
    rfl rfl (card_eraseNew tabled.newSize) fun k => ?_
  · rw [fInTried] at tried
    cases tried
  · dsimp only
    omega
  · have counted := tabled.new k
    have less : s.newContents = n ::ₘ
        ((s.modifyInfo n fun info => { info with nRefCount := info.nRefCount - 1 }).eraseNew b n).newContents :=
      newContents_eraseNew inside
    rw [less, Multiset.count_cons] at counted
    rw [entered.references]
    rcases eq_or_ne k n with rfl | different
    · rw [references_of_some found, if_pos rfl] at counted
      rw [if_pos rfl]
      dsimp only
      omega
    · rw [if_neg different] at counted
      rw [if_neg different, ← counted, add_zero]

/-- A bucket gives up an id together with its entry, which had no other reference. -/
theorem Tabled.forget (tabled : Tabled hash2 owedNew owedTried s) (inside : n ∈ s.vvNew b)
    (found : s.mapInfo.find? n = some info) (single : info.nRefCount = 1) (settled : owedNew ≠ some n) :
    Tabled hash2 owedNew owedTried
      (({ s with mapInfo := s.mapInfo.erase n, nNew := s.nNew - 1 } : CAddrMan).eraseNew b n) := by
  obtain ⟨_, found', fInTried⟩ := tabled.new_of_mem inside
  obtain rfl := Option.some.inj (found.symm.trans found')
  have find? (k : ℤ) : (s.mapInfo.erase n).find? k = if k = n then none else s.mapInfo.find? k :=
    find?_erase
  have less : s.newContents = n ::ₘ
      (({ s with mapInfo := s.mapInfo.erase n, nNew := s.nNew - 1 } : CAddrMan).eraseNew b n).newContents :=
    newContents_eraseNew inside
  exact {
    sound := fun k other found => by
      change (s.mapInfo.erase n).find? k = some other at found
      rw [find?] at found
      split at found
      next => cases found
      next => exact tabled.sound k other found
    new := fun k => by
      have counted := tabled.new k
      rw [less, Multiset.count_cons] at counted
      rw [CAddrMan.references]
      change _ = Option.getD (Option.map _ ((s.mapInfo.erase n).find? k)) 0
      rw [find?]
      rcases eq_or_ne k n with rfl | different
      · rw [references_of_some found, if_pos rfl] at counted
        rw [if_pos rfl, Option.map_none, Option.getD_none]
        omega
      · rw [if_neg different, add_zero] at counted
        rw [if_neg different, counted, CAddrMan.references]
    tried := fun k => by
      apply (tabled.tried k).trans
      rw [CAddrMan.isTried, CAddrMan.isTried]
      change _ = if Option.any _ ((s.mapInfo.erase n).find? k) = true then 1 else 0
      rw [find?]
      rcases eq_or_ne k n with rfl | different
      · rw [if_pos rfl, found, Option.any_some, fInTried, Option.any_none]
      · rw [if_neg different]
    newSize := card_eraseNew tabled.newSize
    triedSize := tabled.triedSize
    placed := fun c k member => by
      have different : k ≠ n := by
        rintro rfl
        have tried := tabled.isTried_of_mem member
        rw [isTried_of_some found, fInTried] at tried
        cases tried
      have same : (s.mapInfo.erase n).find? k = s.mapInfo.find? k := by rw [find?, if_neg different]
      refine Eq.trans ?_ (tabled.placed c k member)
      rw [CAddrMan.info, CAddrMan.info]
      exact congrArg (fun entry => CAddrInfo.getTriedBucket hash2 (Option.getD entry {}) s.nKey) same
    nTried_eq := by
      have counted := @OrderedMap.count_erase _ _ _ s.mapInfo n info (·.fInTried) found
      rw [fInTried, if_neg Bool.false_ne_true, add_zero] at counted
      exact tabled.nTried_eq.trans (congrArg Nat.cast counted.symm)
    nNew_eq := by
      have counted := @OrderedMap.count_erase _ _ _ s.mapInfo n info (fun info => !info.fInTried) found
      rw [fInTried, Bool.not_false, if_pos rfl] at counted
      have total := tabled.nNew_eq
      rw [← counted] at total
      change s.nNew - 1 = _
      rw [total, Nat.cast_add, Nat.cast_one, add_sub_cancel_right]
      rfl }

theorem isTried_of_new (found : s.mapInfo.find? n = some info) (fInTried : info.fInTried = false) :
    s.isTried n = false := by
  rw [isTried_of_some found, fInTried]

/-- A new entry becomes a tried one, which no bucket has yet. -/
theorem Tabled.promote (tabled : Tabled hash2 none none s) (found : s.mapInfo.find? n = some info)
    (fInTried : info.fInTried = false) (success : info.nLastSuccess ≠ 0)
    (entered : Entered s t n { info with nRefCount := 0, fInTried := true })
    (vvTried : t.vvTried = s.vvTried) (vvNew : t.vvNew = fun b => (s.vvNew b).erase n) (nTried : t.nTried = s.nTried + 1)
    (nNew : t.nNew = s.nNew - 1) : Tabled hash2 none (some n) t where
  sound := by
    have sound := tabled.sound n info found
    exact entered.sound tabled.sound ⟨fun _ => ⟨success, rfl⟩, nofun, sound.nLastTry, sound.nLastSuccess⟩
  new k := by
    have counted := tabled.new k
    rw [newContents] at counted
    rw [newContents, vvNew, count_contents_erase, entered.references]
    rcases eq_or_ne k n with rfl | different
    · rw [if_pos rfl, if_pos rfl]
      rfl
    · rw [if_neg different, if_neg different, counted]
  tried k := by
    have counted := tabled.tried k
    rw [triedContents, vvTried, entered.isTried]
    rcases eq_or_ne k n with rfl | different
    · rw [isTried_of_new found fInTried, owes_none, add_zero] at counted
      rw [if_pos rfl, owes_self, if_pos rfl]
      exact congrArg (· + 1) counted
    · rw [if_neg different, owes_of_ne different]
      exact counted
  newSize b := by
    rw [vvNew]
    exact Finset.card_erase_le.trans (tabled.newSize b)
  triedSize b := by
    rw [vvTried]
    exact tabled.triedSize b
  placed b k member := by
    rw [vvTried] at member
    exact entered.placed (by rw [info_of_some found]) (tabled.placed b k member)
  nTried_eq := by
    have counted := entered.count_add found (·.fInTried)
    rw [fInTried, if_neg Bool.false_ne_true, if_pos rfl, add_zero] at counted
    rw [nTried, tabled.nTried_eq, counted]
    rfl
  nNew_eq := by
    have counted := entered.count_add found fun info => !info.fInTried
    rw [fInTried, Bool.not_false, if_pos rfl, Bool.not_true, if_neg Bool.false_ne_true, add_zero] at counted
    rw [nNew, tabled.nNew_eq, ← counted, Nat.cast_add, Nat.cast_one, add_sub_cancel_right]

theorem triedContents_update {b : TriedBucket} {ids : List ℤ} (vvTried : t.vvTried = update s.vvTried b ids) :
    t.triedContents + (s.vvTried b : Multiset ℤ) = s.triedContents + (ids : Multiset ℤ) := by
  have shape : (fun c => (t.vvTried c : Multiset ℤ)) = update (fun c => (s.vvTried c : Multiset ℤ)) b ids := by
    funext c
    rw [vvTried]
    rcases eq_or_ne c b with rfl | different
    · rw [update_self, update_self]
    · rw [update_of_ne different, update_of_ne different]
  rw [triedContents, shape, triedContents]
  exact contents_update _ _ _

/-- The bucket of tried entries that is changed holds nothing else. -/
private theorem forall_update {b : TriedBucket} {ids : List ℤ} {p : TriedBucket → List ℤ → Prop}
    (before : ∀ c, p c (s.vvTried c)) (here : p b ids) (c : TriedBucket) : p c (update s.vvTried b ids c) := by
  rcases eq_or_ne c b with rfl | different
  · rw [update_self]
    exact here
  · rw [update_of_ne different]
    exact before c

/-- The tried id that is owed is put into its bucket. -/
theorem Tabled.push (tabled : Tabled hash2 owedNew (some n) s) {b : TriedBucket}
    (own : (s.info n).getTriedBucket hash2 s.nKey = b) (room : (s.vvTried b).length < ADDRMAN_TRIED_BUCKET_SIZE) :
    Tabled hash2 owedNew none { s with vvTried := update s.vvTried b (s.vvTried b ++ [n]) } where
  sound := tabled.sound
  new := tabled.new
  tried k := by
    have contents := @triedContents_update s { s with vvTried := update s.vvTried b (s.vvTried b ++ [n]) } b _ rfl
    rw [← Multiset.coe_add, ← add_assoc, add_right_comm] at contents
    rw [add_right_cancel contents, Multiset.count_add, owes_none, add_zero, Multiset.coe_singleton,
      Multiset.count_singleton, ← owes_some]
    exact tabled.tried k
  newSize := tabled.newSize
  triedSize c := by
    apply @forall_update s b _ (fun _ ids => ids.length ≤ ADDRMAN_TRIED_BUCKET_SIZE) tabled.triedSize
    rw [List.length_append]
    exact room
  placed c k member := by
    refine @forall_update s b _ (fun c ids => ∀ k ∈ ids, (s.info k).getTriedBucket hash2 s.nKey = c) tabled.placed
      (fun k member => ?_) c k member
    rcases List.mem_append.mp member with before | last
    · exact tabled.placed b k before
    · rw [List.mem_singleton.mp last, own]
  nTried_eq := tabled.nTried_eq
  nNew_eq := tabled.nNew_eq

/-- A bucket is shuffled. -/
theorem Tabled.shuffle (tabled : Tabled hash2 owedNew owedTried s) {b : TriedBucket} {ids : List ℤ}
    (perm : ids.Perm (s.vvTried b)) : Tabled hash2 owedNew owedTried { s with vvTried := update s.vvTried b ids } where
  sound := tabled.sound
  new := tabled.new
  tried k := by
    have contents := @triedContents_update s { s with vvTried := update s.vvTried b ids } b _ rfl
    rw [Multiset.coe_eq_coe.mpr perm] at contents
    rw [add_right_cancel contents]
    exact tabled.tried k
  newSize := tabled.newSize
  triedSize c := by
    apply @forall_update s b _ (fun _ ids => ids.length ≤ ADDRMAN_TRIED_BUCKET_SIZE) tabled.triedSize
    rw [perm.length_eq]
    exact tabled.triedSize b
  placed c k member :=
    @forall_update s b _ (fun c ids => ∀ k ∈ ids, (s.info k).getTriedBucket hash2 s.nKey = c) tabled.placed
      (fun k member => tabled.placed b k (perm.mem_iff.mp member)) c k member
  nTried_eq := tabled.nTried_eq
  nNew_eq := tabled.nNew_eq

private theorem coe_set {ids : List ℤ} {p : ℕ} (here : ids[p]? = some k) (n : ℤ) :
    (ids.set p n : Multiset ℤ) + {k} = ids + {n} := by
  obtain ⟨inside, rfl⟩ := List.getElem?_eq_some_iff.mp here
  rw [Multiset.coe_eq_coe.mpr (List.set_perm_cons_eraseIdx inside n),
    ← Multiset.coe_eq_coe.mpr (List.getElem_cons_eraseIdx_perm inside), ← Multiset.cons_coe, ← Multiset.cons_coe,
    ← Multiset.singleton_add, ← Multiset.singleton_add, add_right_comm, add_comm ({n} : Multiset ℤ),
    add_right_comm]

/-- The tried id that is owed takes the place of another, which becomes a new entry with one reference. -/
theorem Tabled.replace (tabled : Tabled hash2 none (some n) s) {b : TriedBucket} {p : ℕ}
    (own : (s.info n).getTriedBucket hash2 s.nKey = b) (here : (s.vvTried b)[p]? = some k)
    (found : s.mapInfo.find? k = some info) (entered : Entered s t k { info with fInTried := false, nRefCount := 1 })
    (vvTried : t.vvTried = update s.vvTried b ((s.vvTried b).set p n)) (vvNew : t.vvNew = s.vvNew)
    (nTried : t.nTried = s.nTried - 1) (nNew : t.nNew = s.nNew + 1) : Tabled hash2 (some k) none t := by
  have member : k ∈ s.vvTried b := List.mem_of_getElem? here
  have fInTried : info.fInTried = true := by
    rw [← isTried_of_some found]
    exact tabled.isTried_of_mem member
  have sound := tabled.sound k info found
  have few : 1 ≤ ADDRMAN_NEW_BUCKETS_PER_ADDRESS := by decide
  have contents : t.triedContents + {k} = s.triedContents + {n} := by
    have contents := triedContents_update vvTried
    have moved := coe_set here n
    apply @add_right_cancel _ _ _ _ (s.vvTried b : Multiset ℤ)
    rw [add_right_comm, contents, add_assoc, moved, add_right_comm, add_assoc]
  exact {
    sound := entered.sound tabled.sound ⟨nofun, fun _ => ⟨one_pos, few⟩, sound.nLastTry, sound.nLastSuccess⟩
    new := fun j => by
      have counted := tabled.new j
      rw [owes_none, add_zero] at counted
      rw [newContents, vvNew, entered.references]
      rcases eq_or_ne j k with rfl | different
      · rw [references_of_some found, (sound.tried fInTried).2] at counted
        rw [if_pos rfl, owes_self, Nat.cast_add]
        change (s.newContents.count j : ℤ) + 1 = 1
        rw [counted, zero_add]
      · rw [if_neg different, owes_of_ne different]
        exact counted
    tried := fun j => by
      have counted := tabled.tried j
      have moved := congrArg (Multiset.count j) contents
      rw [Multiset.count_add, Multiset.count_add, Multiset.count_singleton, Multiset.count_singleton] at moved
      rw [owes_some] at counted
      rw [entered.isTried, owes_none, add_zero]
      rcases eq_or_ne j k with rfl | different
      · rw [if_pos rfl] at moved
        rw [isTried_of_some found, fInTried, if_pos rfl] at counted
        rw [if_pos rfl, if_neg Bool.false_ne_true]
        omega
      · rw [if_neg different] at moved
        rw [if_neg different]
        omega
    newSize := fun c => by
      rw [vvNew]
      exact tabled.newSize c
    triedSize := fun c => by
      rw [vvTried]
      apply @forall_update s b _ (fun _ ids => ids.length ≤ ADDRMAN_TRIED_BUCKET_SIZE) tabled.triedSize
      rw [List.length_set]
      exact tabled.triedSize b
    placed := fun c j member => by
      rw [vvTried] at member
      apply entered.placed (by rw [info_of_some found])
      refine @forall_update s b _ (fun c ids => ∀ k ∈ ids, (s.info k).getTriedBucket hash2 s.nKey = c) tabled.placed
        (fun j member => ?_) c j member
      rcases List.mem_or_eq_of_mem_set member with before | rfl
      · exact tabled.placed b j before
      · exact own
    nTried_eq := by
      have counted := entered.count_add found (·.fInTried)
      rw [fInTried, if_pos rfl, if_neg Bool.false_ne_true, add_zero] at counted
      rw [nTried, tabled.nTried_eq, ← counted, Nat.cast_add, Nat.cast_one, add_sub_cancel_right]
    nNew_eq := by
      have counted := entered.count_add found fun info => !info.fInTried
      rw [fInTried, Bool.not_true, if_neg Bool.false_ne_true, Bool.not_false, if_pos rfl, add_zero] at counted
      rw [nNew, tabled.nNew_eq, counted, Nat.cast_add, Nat.cast_one] }

end CAddrMan

end BitCrystal
