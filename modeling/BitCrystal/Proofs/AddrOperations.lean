import BitCrystal.Machine.Sampling
import BitCrystal.Proofs.AddrIndices

/-! # The operations of the address manager

Each operation runs through when the indices and the tables are intact, and leaves them intact.
-/

namespace BitCrystal

open Function Check

theorem getRandInt_lt {nMax : ℕ} (positive : 0 < nMax) (draw : ℕ) : getRandInt nMax draw < nMax := by
  rw [getRandInt, if_neg positive.ne']
  exact Nat.mod_lt draw positive

namespace CAddrMan

variable {hash2 : List UInt8 → Uint256} {owed : Option ℤ} {s t : CAddrMan} {n : ℤ} {info : CAddrInfo}

/-- Indices and tables fit, up to one id that a new bucket lacks. -/
structure Intact (hash2 : List UInt8 → Uint256) (owed : Option ℤ) (s : CAddrMan) : Prop where
  indexed : Indexed s
  tabled : Tabled hash2 owed none s

/-- No address became known, and no id was given out. -/
structure Narrower (s t : CAddrMan) : Prop where
  nIdCount : t.nIdCount = s.nIdCount
  mapAddr : ∀ addr n, t.mapAddr addr = some n → s.mapAddr addr = some n

theorem Narrower.of_eq (nIdCount : t.nIdCount = s.nIdCount) (mapAddr : t.mapAddr = s.mapAddr) : Narrower s t :=
  ⟨nIdCount, fun _ _ known => mapAddr ▸ known⟩

theorem Narrower.trans {u : CAddrMan} (first : Narrower s t) (second : Narrower t u) : Narrower s u :=
  ⟨second.nIdCount.trans first.nIdCount, fun addr n known => first.mapAddr addr n (second.mapAddr addr n known)⟩

theorem subscript_of_some (found : s.mapInfo.find? n = some info) : s.subscript n = s := by
  rw [subscript, found]
  exact if_pos rfl

theorem findTerrible_eq_ok {nNow : ℤ} {ids : List ℤ} (all : ∀ n ∈ ids, ∃ info, s.mapInfo.find? n = some info) :
    ∃ found, findTerrible nNow s ids = .ok found ∧ ∀ n, found = some n → n ∈ ids := by
  induction ids with
  | nil => exact ⟨none, rfl, nofun⟩
  | cons n rest ih =>
    obtain ⟨⟨info, found⟩, all⟩ := List.forall_mem_cons.mp all
    obtain ⟨result, done, member⟩ := ih all
    rw [findTerrible, assertInfo_of_some found, ok_bind]
    split
    · exact ⟨some n, rfl, fun m same => Option.some.inj same ▸ List.mem_cons_self⟩
    · exact ⟨result, done, fun m same => List.mem_cons_of_mem n (member m same)⟩

/-- The oldest is among the ids, unless no position was met. -/
theorem findOldest_eq_ok {positions : List ℕ} {nI : ℕ} {nOldest : ℤ} {ids : List ℤ}
    (all : ∀ n ∈ ids, 0 ≤ n ∧ ∃ info, s.mapInfo.find? n = some info)
    (known : nOldest ≠ -1 → ∃ info, s.mapInfo.find? nOldest = some info) :
    ∃ m, findOldest positions nI nOldest ids s = .ok (m, s) ∧ (m = nOldest ∨ m ∈ ids) ∧
      (m = -1 → nOldest = -1 ∧ ∀ i ∈ positions, nI ≤ i → nI + ids.length ≤ i) := by
  induction ids generalizing nI nOldest with
  | nil => exact ⟨nOldest, rfl, Or.inl rfl, fun unset => ⟨unset, fun i _ here => here⟩⟩
  | cons n rest ih =>
    obtain ⟨⟨nonneg, info, found⟩, all⟩ := List.forall_mem_cons.mp all
    have fromHere {next : ℤ} (candidate : next = n ∨ next = nOldest ∧ nOldest ≠ -1)
        (entry : ∃ info, s.mapInfo.find? next = some info) :
        ∃ m, findOldest positions (nI + 1) next rest s = .ok (m, s) ∧ (m = nOldest ∨ m ∈ n :: rest) ∧
          (m = -1 → nOldest = -1 ∧ ∀ i ∈ positions, nI ≤ i → nI + (n :: rest).length ≤ i) := by
      obtain ⟨m, done, member, nothing⟩ := @ih (nI + 1) next all fun _ => entry
      refine ⟨m, done, ?_, fun unset => ?_⟩
      · rcases member with rfl | member
        · rcases candidate with rfl | ⟨same, -⟩
          · exact Or.inr List.mem_cons_self
          · exact Or.inl same
        · exact Or.inr (List.mem_cons_of_mem n member)
      · have empty := (nothing unset).1
        rcases candidate with rfl | ⟨same, different⟩
        · omega
        · exact absurd (same.symm.trans empty) different
    rw [findOldest]
    split
    next hit =>
      rcases eq_or_ne nOldest (-1) with unset | different
      · refine Exists.imp (fun m result => ?_) (fromHere (Or.inl rfl) ⟨info, found⟩)
        refine ⟨bind_eq_ok.mpr ⟨(), rejectIf_eq_ok.mpr fun both => both.1 unset, ?_⟩, result.2⟩
        rw [if_pos unset]
        exact result.1
      · obtain ⟨oldest, entry⟩ := known different
        have same : (s.subscript n).subscript nOldest = s := by
          rw [subscript_of_some found, subscript_of_some entry]
        have next : ∃ info, s.mapInfo.find? (if (s.info n).nTime < (s.info nOldest).nTime then n else nOldest) =
            some info := by
          split
          · exact ⟨info, found⟩
          · exact ⟨oldest, entry⟩
        have candidate : (if (s.info n).nTime < (s.info nOldest).nTime then n else nOldest) = n ∨
            (if (s.info n).nTime < (s.info nOldest).nTime then n else nOldest) = nOldest ∧ nOldest ≠ -1 := by
          split
          · exact Or.inl rfl
          · exact Or.inr ⟨rfl, different⟩
        refine Exists.imp (fun m result => ⟨?_, result.2⟩) (fromHere candidate next)
        refine bind_eq_ok.mpr ⟨(), rejectIf_eq_ok.mpr fun both => ?_, ?_⟩
        · rw [found] at both
          cases both.2
        · rw [if_neg different]
          dsimp only
          rw [same]
          exact result.1
    next missed =>
      obtain ⟨m, done, member, nothing⟩ := @ih (nI + 1) nOldest all known
      refine ⟨m, done, member.imp_right (List.mem_cons_of_mem n), fun unset => ?_⟩
      obtain ⟨empty, outside⟩ := nothing unset
      refine ⟨empty, fun i member here => ?_⟩
      have different : i ≠ nI := fun same => missed (same ▸ member)
      have behind := outside i member (by omega)
      rw [List.length_cons]
      omega

/-- One reference is dropped together with the place in a bucket. -/
theorem Intact.release (intact : Intact hash2 owed s) {b : NewBucket} (inside : n ∈ s.vvNew b) (settled : owed ≠ some n) :
    ∃ t, s.dropReference n = .ok t ∧ t.vvNew = s.vvNew ∧ Intact hash2 owed (t.eraseNew b n) ∧ Narrower s t := by
  obtain ⟨info, found, fInTried⟩ := intact.tabled.new_of_mem inside
  rcases eq_or_ne info.nRefCount 1 with single | more
  · obtain ⟨t, done, indexed, same, nIdCount, mapAddr⟩ := intact.indexed.dropReference found single
    have erased : SameTables (({ s with mapInfo := s.mapInfo.erase n, nNew := s.nNew - 1 } : CAddrMan).eraseNew b n)
        (t.eraseNew b n) := by
      refine ⟨same.entries, same.nKey, same.vvTried, ?_, same.nTried, same.nNew⟩
      rw [vvNew_eraseNew, same.vvNew]
      rfl
    refine ⟨t, done, same.vvNew, ⟨?_, (intact.tabled.forget inside found single settled).congr erased⟩, nIdCount, ?_⟩
    · exact indexed.congr (SameIndices.of_eq rfl rfl rfl rfl)
    · intro addr m known
      rw [mapAddr] at known
      rcases eq_or_ne addr info.toCNetAddr with rfl | different
      · rw [update_self] at known
        cases known
      · rwa [update_of_ne different] at known
  · refine ⟨_, dropReference_of_ne found more, rfl, ⟨?_, intact.tabled.unreference inside found more⟩,
      Narrower.of_eq rfl rfl⟩
    have counted := @SameIndices.modify s n info (fun info => { info with nRefCount := info.nRefCount - 1 }) found rfl
    exact intact.indexed.congr (counted.trans (SameIndices.of_eq rfl rfl rfl rfl))

theorem Intact.shrinkNew (intact : Intact hash2 owed s) {b : NewBucket} (nonempty : (s.vvNew b).Nonempty)
    (settled : ∀ n ∈ s.vvNew b, owed ≠ some n) (nNow : ℤ) (draw : ℕ → ℕ) :
    ∃ r t, s.shrinkNew nNow draw b = .ok (r, t) ∧ Intact hash2 owed t ∧ Narrower s t ∧
      ∃ n ∈ s.vvNew b, t.vvNew = update s.vvNew b ((s.vvNew b).erase n) := by
  have all : ∀ n ∈ (s.vvNew b).sort, n ∈ s.vvNew b := fun n member => (Finset.mem_sort _).mp member
  have entries : ∀ n ∈ (s.vvNew b).sort, ∃ info, s.mapInfo.find? n = some info := by
    intro n member
    obtain ⟨info, found, -⟩ := intact.tabled.new_of_mem (all n member)
    exact ⟨info, found⟩
  have released {n : ℤ} (inside : n ∈ s.vvNew b) : ∃ t, s.dropReference n = .ok t ∧
      Intact hash2 owed (t.eraseNew b n) ∧ Narrower s (t.eraseNew b n) ∧
        ∃ k ∈ s.vvNew b, (t.eraseNew b n).vvNew = update s.vvNew b ((s.vvNew b).erase k) := by
    obtain ⟨t, done, vvNew, intact', narrower⟩ := intact.release inside (settled n inside)
    refine ⟨t, done, intact', narrower.trans (Narrower.of_eq rfl rfl), n, inside, ?_⟩
    rw [vvNew_eraseNew, vvNew]
  obtain ⟨terrible, done, member⟩ := @findTerrible_eq_ok s nNow (s.vvNew b).sort entries
  cases terrible with
  | some n =>
    obtain ⟨t, dropped, result⟩ := released (all n (member n rfl))
    exact ⟨0, t.eraseNew b n, bind_eq_ok.mpr ⟨some n, done, bind_eq_ok.mpr ⟨t, dropped, rfl⟩⟩, result⟩
  | none =>
    have nonneg : ∀ n ∈ (s.vvNew b).sort, 0 ≤ n ∧ ∃ info, s.mapInfo.find? n = some info := by
      intro n member
      obtain ⟨info, found⟩ := entries n member
      exact ⟨(intact.indexed.ids n info found).1, info, found⟩
    obtain ⟨nOldest, chosen, source, nothing⟩ := @findOldest_eq_ok s
      ((List.range 4).map fun i => getRandInt (s.vvNew b).card (draw i)) 0 (-1) _ nonneg fun different =>
        absurd rfl different
    have inside : nOldest ∈ s.vvNew b := by
      rcases source with unset | inside
      · have card := Finset.card_pos.mpr nonempty
        have first := (nothing unset).2 _ (List.mem_map.mpr ⟨0, List.mem_range.mpr (by decide), rfl⟩) (Nat.zero_le _)
        rw [Finset.length_sort, zero_add] at first
        exact absurd (getRandInt_lt card (draw 0)) (not_lt.mpr first)
      · exact all nOldest inside
    obtain ⟨t, dropped, result⟩ := released inside
    obtain ⟨info, found⟩ := entries nOldest ((Finset.mem_sort _).mpr inside)
    refine ⟨1, t.eraseNew b nOldest, ?_, result⟩
    exact bind_eq_ok.mpr ⟨none, done, bind_eq_ok.mpr ⟨_, chosen, bind_eq_ok.mpr
      ⟨info, assertInfo_of_some found, bind_eq_ok.mpr ⟨t, dropped, rfl⟩⟩⟩⟩

theorem Intact.insertNew (intact : Intact hash2 (some n) s) {b : NewBucket} (outside : n ∉ s.vvNew b)
    (room : (s.vvNew b).card < ADDRMAN_NEW_BUCKET_SIZE) : Intact hash2 none (s.insertNew b n) where
  indexed := intact.indexed.congr (SameIndices.of_eq rfl rfl rfl rfl)
  tabled := intact.tabled.insertNew outside room

/-- The end of `addReference`: a full bucket is shrunk before the id is put into it. -/
theorem Intact.settle (intact : Intact hash2 (some n) s) {b : NewBucket} (outside : n ∉ s.vvNew b)
    (nNow : ℤ) (draw : ℕ → ℕ) : ∃ r t, (if (s.vvNew b).card = ADDRMAN_NEW_BUCKET_SIZE then s.shrinkNew nNow draw b
      else .ok (0, s)) = .ok (r, t) ∧ Intact hash2 none (t.insertNew b n) ∧ Narrower s t := by
  split
  next full =>
    have positive : 0 < (s.vvNew b).card := by
      rw [full]
      decide
    have settled : ∀ k ∈ s.vvNew b, some n ≠ some k := by
      rintro k inside ⟨⟩
      exact outside inside
    obtain ⟨r, t, done, intact', narrower, k, inside, vvNew⟩ :=
      intact.shrinkNew (Finset.card_pos.mp positive) settled nNow draw
    have bucket : t.vvNew b = (s.vvNew b).erase k := by rw [vvNew, update_self]
    refine ⟨r, t, done, intact'.insertNew ?_ ?_, narrower⟩
    · rw [bucket]
      exact fun inside => outside (Finset.mem_of_mem_erase inside)
    · rw [bucket, Finset.card_erase_of_mem inside, full]
      decide
  next room =>
    have few := intact.tabled.newSize b
    exact ⟨0, s, rfl, intact.insertNew outside (by omega), Narrower.of_eq rfl rfl⟩

/-- What follows once the reference is counted. -/
theorem addReference_eq_ok {nAdjustedTime : ℤ} {draw : ℕ → ℕ} {source : CNetAddr}
    (outside : n ∉ s.vvNew ((s.info n).getNewBucket hash2 s.nKey source))
    (intact : Intact hash2 (some n) (s.modifyInfo n fun info => { info with nRefCount := info.nRefCount + 1 })) :
    ∃ t, s.addReference hash2 nAdjustedTime draw source n = .ok t ∧ Intact hash2 none t ∧ Narrower s t := by
  obtain ⟨r, t, done, intact', narrower⟩ := intact.settle outside nAdjustedTime draw
  refine ⟨t.insertNew _ n, ?_, intact', ?_⟩
  · rw [addReference]
    dsimp only
    rw [if_neg outside]
    exact bind_eq_ok.mpr ⟨(r, t), done, rfl⟩
  · exact ⟨narrower.nIdCount, narrower.mapAddr⟩

variable {draw : ℕ → ℕ} {addr : CAddress} {b : TriedBucket} {nOrigin : NewBucket}

/-- An address that is not known gets an entry. -/
theorem Intact.add_new (intact : Intact hash2 none s) (routable : addr.isRoutable = true)
    (missing : s.find addr.toCNetAddr = none) (room : s.nIdCount ≠ INT_MAX) (nAdjustedTime : ℤ) (draw : ℕ → ℕ)
    (source : CNetAddr) (nTimePenalty : ℤ) :
    ∃ t, s.add_ hash2 nAdjustedTime draw addr source nTimePenalty = .ok (true, t) ∧ Intact hash2 none t ∧
      Narrower (s.created addr source) t := by
  have free := intact.indexed.mapAddr_of_find missing
  have unused := intact.indexed.find?_nIdCount
  have indexed := intact.indexed.created room source free
  have first := Entered.created s addr source
  let timing (info : CAddrInfo) : CAddrInfo := { info with nTime := penalized info.nTime nTimePenalty }
  let u : CAddrMan := { (s.created addr source).modifyInfo s.nIdCount timing with nNew := s.nNew + 1 }
  have timed : Entered (s.created addr source) u s.nIdCount (timing ((s.created addr source).info s.nIdCount)) :=
    ⟨rfl, rfl⟩
  rw [info_of_some first.find?_self] at timed
  have counted := Entered.modifyInfo u s.nIdCount fun info => { info with nRefCount := info.nRefCount + 1 }
  rw [info_of_some timed.find?_self] at counted
  have indices := SameIndices.entered timed first.find?_self rfl rfl rfl rfl
  have indices' := indices.trans (SameIndices.entered counted timed.find?_self rfl rfl rfl rfl)
  have few : 1 ≤ ADDRMAN_NEW_BUCKETS_PER_ADDRESS := by decide
  have tabled := intact.tabled.create unused ⟨fun tried => Bool.noConfusion tried, fun _ => ⟨one_pos, few⟩, le_rfl, le_rfl⟩ rfl rfl
    ((first.again timed).again counted) rfl rfl rfl rfl
  have outside : s.nIdCount ∉ u.vvNew ((u.info s.nIdCount).getNewBucket hash2 u.nKey source) := by
    intro inside
    obtain ⟨info, found, -⟩ := intact.tabled.new_of_mem inside
    rw [unused] at found
    cases found
  obtain ⟨t, done, intact', narrower⟩ := @addReference_eq_ok hash2 u s.nIdCount nAdjustedTime (fun i => draw (i + 1))
    source outside ⟨indexed.congr indices', tabled⟩
  refine ⟨t, ?_, intact', narrower.nIdCount, narrower.mapAddr⟩
  rw [CAddrMan.add_, if_neg (not_not.mpr routable), missing]
  exact bind_eq_ok.mpr ⟨_, create_eq room, bind_eq_ok.mpr ⟨t, done, rfl⟩⟩

theorem add_unroutable (unroutable : addr.isRoutable = false) {nAdjustedTime nTimePenalty : ℤ}
    {source : CNetAddr} : s.add_ hash2 nAdjustedTime draw addr source nTimePenalty = .ok (false, s) := by
  rw [CAddrMan.add_, if_pos (by rw [unroutable]; exact Bool.false_ne_true)]
  rfl

/-- An address that is known is updated, and perhaps put into one more bucket. -/
theorem Intact.add_known (intact : Intact hash2 none s)
    (found : s.find addr.toCNetAddr = some (n, info)) (nAdjustedTime : ℤ) (draw : ℕ → ℕ)
    (source : CNetAddr) (nTimePenalty : ℤ) :
    ∃ t, s.add_ hash2 nAdjustedTime draw addr source nTimePenalty = .ok (false, t) ∧ Intact hash2 none t := by
  rcases Bool.eq_false_or_eq_true addr.isRoutable with routable | unroutable
  · rw [CAddrMan.add_, if_neg (not_not.mpr routable), found]
    have entry := (find_eq_some.mp found).2
    dsimp only
    generalize (if addr.nTime ≠ 0 ∧ (info.nTime = 0 ∨ (info.nTime.toNat : ℤ) < addr.nTime.toNat -
      (if nAdjustedTime - (addr.nTime.toNat : ℤ) < 24 * 60 * 60 then 60 * 60 else 24 * 60 * 60) - nTimePenalty) then
        penalized addr.nTime nTimePenalty else info.nTime) = nTime
    have updated := Entered.modifyInfo s n fun info =>
      { info with nTime := nTime, nServices := info.nServices ||| addr.nServices }
    rw [info_of_some entry] at updated
    have sound := intact.tabled.sound n info entry
    have intact' : Intact hash2 none (s.modifyInfo n fun info =>
        { info with nTime := nTime, nServices := info.nServices ||| addr.nServices }) :=
      ⟨intact.indexed.congr (SameIndices.modify entry rfl), intact.tabled.modify entry
        ⟨sound.tried, sound.new, sound.nLastTry, sound.nLastSuccess⟩ rfl rfl rfl⟩
    generalize (s.modifyInfo n fun info =>
        { info with nTime := nTime, nServices := info.nServices ||| addr.nServices }) = u at updated intact'
    split
    · exact ⟨u, rfl, intact'⟩
    split
    · exact ⟨u, rfl, intact'⟩
    next new =>
    split
    · exact ⟨u, rfl, intact'⟩
    next few =>
    split
    · exact ⟨u, rfl, intact'⟩
    obtain ⟨t, done, result⟩ : ∃ t, u.addReference hash2 nAdjustedTime (fun i => draw (i + 1)) source n = .ok t ∧
        Intact hash2 none t := by
      by_cases inside : n ∈ u.vvNew ((u.info n).getNewBucket hash2 u.nKey source)
      · exact ⟨u, if_pos inside, intact'⟩
      · have indexed := intact'.indexed.congr (SameIndices.modify updated.find?_self
          (f := fun info => { info with nRefCount := info.nRefCount + 1 }) rfl)
        have tabled := intact'.tabled.reference updated.find?_self (Bool.eq_false_iff.mpr new) few
        obtain ⟨t, done, intact'', -⟩ := @addReference_eq_ok hash2 u n nAdjustedTime (fun i => draw (i + 1)) source
          inside ⟨indexed, tabled⟩
        exact ⟨t, done, intact''⟩
    exact ⟨t, bind_eq_ok.mpr ⟨t, done, rfl⟩, result⟩
  · exact ⟨s, add_unroutable unroutable, intact⟩

/-- Where the entry comes from that is drawn next in a bucket. -/
def drawPlace (draw : ℕ → ℕ) (length i : ℕ) : ℕ := getRandInt (length - i) (draw i) + i

theorem fair_drawPlace (draw : ℕ → ℕ) (length : ℕ) : Sampling.Fair (drawPlace draw length) length := by
  refine fun i => ⟨Nat.le_add_left .., fun inside => ?_⟩
  have bound := getRandInt_lt (show 0 < length - i by omega) (draw i)
  rw [drawPlace]
  omega

/-- A tried bucket after the draws. -/
def drawn (draw : ℕ → ℕ) (b : TriedBucket) (rounds i : ℕ) (s : CAddrMan) : List ℤ :=
  Sampling.shuffle (drawPlace draw (s.vvTried b).length) rounds i (s.vvTried b)

/-- What the loop remembers, as the source has it. -/
def remembered (best : Option (ℤ × ℕ)) : ℤ × ℤ := best.elim (-1, -1) fun b => (b.1, b.2)

theorem selectTriedLoop_eq {draw : ℕ → ℕ} {b : TriedBucket} {rounds i : ℕ} {best : Option (ℤ × ℕ)}
    (all : ∀ n ∈ s.vvTried b, 0 ≤ n ∧ ∃ info, s.mapInfo.find? n = some info)
    (known : ∀ e ∈ best, 0 ≤ e.1 ∧ ∃ info, s.mapInfo.find? e.1 = some info) :
    selectTriedLoop draw b rounds i (remembered best).1 (remembered best).2 s =
      .ok ((remembered (Sampling.pick (fun n => (s.info n).nLastSuccess) (drawPlace draw (s.vvTried b).length)
          rounds i best (s.vvTried b))).2,
        { s with vvTried := update s.vvTried b (s.drawn draw b rounds i) }) := by
  unfold drawn
  induction rounds generalizing i best s with
  | zero =>
    rw [Sampling.shuffle, update_eq_self]
    rfl
  | succ rounds ih =>
    have fair := fair_drawPlace draw (s.vvTried b).length i
    rw [selectTriedLoop, Sampling.pick]
    split
    next here =>
      have there := fair.2 here
      have temp := List.getElem?_eq_getElem there
      have first := List.getElem?_eq_getElem here
      obtain ⟨nonneg, info, found⟩ := all _ (List.getElem_mem there)
      generalize (s.vvTried b)[drawPlace draw (s.vvTried b).length i] = nTemp at temp nonneg found
      generalize (s.vvTried b)[i] = nFirst at first
      have swapped := Sampling.exchange_eq temp first
      have perm := Sampling.exchange_perm (s.vvTried b) (drawPlace draw (s.vvTried b).length i) i
      have shuffled : Sampling.shuffle (drawPlace draw (s.vvTried b).length) (rounds + 1) i (s.vvTried b) =
        Sampling.shuffle (drawPlace draw (s.vvTried b).length) rounds (i + 1)
          (Sampling.exchange (s.vvTried b) (drawPlace draw (s.vvTried b).length i) i) := rfl
      rw [shuffled, temp]
      change (assertSome .undefined (s.vvTried b)[drawPlace draw (s.vvTried b).length i]? >>= _) = _
      rw [temp, assertSome, ok_bind, first, assertSome, ok_bind]
      have place : getRandInt ((s.vvTried b).length - i) (draw i) + i = drawPlace draw (s.vvTried b).length i := rfl
      rw [place]
      dsimp only
      rw [← swapped]
      generalize Sampling.exchange (s.vvTried b) (drawPlace draw (s.vvTried b).length i) i = ids at perm
      -- the loop goes on with the shuffled bucket
      have bucket : update s.vvTried b ids b = ids := update_self ..
      have go {next : Option (ℤ × ℕ)} (entry : ∀ e ∈ next, 0 ≤ e.1 ∧ ∃ info, s.mapInfo.find? e.1 = some info) :=
        @ih { s with vvTried := update s.vvTried b ids } (i + 1) next
          (fun n member => by
            dsimp only at member
            rw [bucket] at member
            exact all n (perm.mem_iff.mp member)) entry
      dsimp only at go
      simp only [bucket, perm.length_eq, update_idem] at go
      have checked : (rejectIf ((remembered best).1 ≠ -1 ∧
          ((({ s with vvTried := update s.vvTried b ids } : CAddrMan).mapInfo.find? nTemp).isNone = true))
            (.assertion "mapInfo.count(nTemp) == 1") : Check Unit) = .ok () := by
        refine rejectIf_eq_ok.mpr fun both => ?_
        dsimp only at both
        rw [found] at both
        cases both.2
      rw [checked, ok_bind]
      have temp_known : ∀ e ∈ some (nTemp, drawPlace draw (s.vvTried b).length i),
          0 ≤ e.1 ∧ ∃ info, s.mapInfo.find? e.1 = some info := by
        rintro e ⟨⟩
        exact ⟨nonneg, info, found⟩
      cases best with
      | none => exact go temp_known
      | some oldest =>
        obtain ⟨nonneg', info', entry⟩ := known oldest rfl
        have present : (remembered (some oldest)).1 ≠ -1 := by
          change oldest.1 ≠ -1
          omega
        rw [if_neg present]
        rw [@subscript_of_some { s with vvTried := update s.vvTried b ids } _ _ found,
          @subscript_of_some { s with vvTried := update s.vvTried b ids } (remembered (some oldest)).1 _ entry]
        change (if (s.info nTemp).nLastSuccess < (s.info oldest.1).nLastSuccess then _ else _) = _
        rw [Option.all_some]
        by_cases less : (s.info nTemp).nLastSuccess < (s.info oldest.1).nLastSuccess
        · rw [if_pos less, if_pos (decide_eq_true less)]
          exact go temp_known
        · rw [if_neg less, if_neg fun holds => less (of_decide_eq_true holds)]
          exact go known
    next beyond =>
      have beyond := Nat.le_of_not_lt beyond
      have absent : (s.vvTried b)[drawPlace draw (s.vvTried b).length i]? = none :=
        List.getElem?_eq_none (beyond.trans fair.1)
      rw [absent, Sampling.shuffle_of_le (fair_drawPlace draw _) beyond, update_eq_self]
      rfl

/-- The first of the stalest entries is chosen. -/
theorem selectTried_eq (known : ∀ n ∈ s.vvTried b, 0 ≤ n ∧ ∃ info, s.mapInfo.find? n = some info)
    (nonempty : s.vvTried b ≠ []) (draw : ℕ → ℕ) :
    ∃ j n, Sampling.First (fun n => (s.info n).nLastSuccess) (drawPlace draw (s.vvTried b).length)
        ADDRMAN_TRIED_ENTRIES_INSPECT_ON_EVICT 0 (s.vvTried b) j n ∧
      s.selectTried draw b = .ok ((drawPlace draw (s.vvTried b).length j : ℤ),
        { s with vvTried := update s.vvTried b (s.drawn draw b ADDRMAN_TRIED_ENTRIES_INSPECT_ON_EVICT 0) }) := by
  have run := @selectTriedLoop_eq s draw b ADDRMAN_TRIED_ENTRIES_INSPECT_ON_EVICT 0 none known nofun
  obtain ⟨j, n, picked, first⟩ := @Sampling.exists_pick_eq _ _ (s.vvTried b) _ 0
    ADDRMAN_TRIED_ENTRIES_INSPECT_ON_EVICT _ (fun n => (s.info n).nLastSuccess) (fair_drawPlace draw _)
    (List.length_pos_of_ne_nil nonempty) (by decide)
  rw [picked] at run
  exact ⟨j, n, first, run⟩

/-- A chosen entry was drawn from inside of the bucket. -/
theorem drawPlace_lt {j : ℕ} {n : ℤ}
    (first : Sampling.First (fun n => (s.info n).nLastSuccess) (drawPlace draw (s.vvTried b).length)
      ADDRMAN_TRIED_ENTRIES_INSPECT_ON_EVICT 0 (s.vvTried b) j n) :
    j < (s.vvTried b).length ∧ drawPlace draw (s.vvTried b).length j < (s.vvTried b).length := by
  have inside := (List.getElem?_eq_some_iff.mp first.drawn).1
  rw [Sampling.length_shuffle] at inside
  exact ⟨inside, (fair_drawPlace draw _ j).2 inside⟩

/-! ## Promotion -/

/-- The state of `MakeTried` once the entry has left the new buckets. -/
def lifted (s : CAddrMan) (n : ℤ) : CAddrMan := { s.eraseAllNew n with nNew := s.nNew - 1 }

/-- All references of an entry are in buckets, so none is left. -/
theorem Intact.lifted (intact : Intact hash2 none s) (found : s.mapInfo.find? n = some info) :
    Entered s (s.lifted n) n { info with nRefCount := 0 } := by
  have counted := intact.tabled.new n
  rw [newContents, Buckets.count_contents_val, owes_none, add_zero, references_of_some found] at counted
  refine ⟨?_, rfl⟩
  change s.mapInfo.insert n { s.info n with nRefCount := (s.info n).nRefCount - _ } = _
  rw [info_of_some found, counted, sub_self]

/-- The state after `MakeTried`, except for the place in a tried bucket. -/
def promoted (s : CAddrMan) (n : ℤ) : CAddrMan :=
  ({ s.lifted n with nTried := s.nTried + 1 } : CAddrMan).modifyInfo n fun info => { info with fInTried := true }

theorem Intact.promoted (intact : Intact hash2 none s) (found : s.mapInfo.find? n = some info)
    (fInTried : info.fInTried = false) (success : info.nLastSuccess ≠ 0) :
    Tabled hash2 none (some n) (s.promoted n) ∧ SameIndices s (s.promoted n) := by
  have first := intact.lifted found
  have second : Entered (s.lifted n) (s.promoted n) n { (s.lifted n).info n with fInTried := true } := ⟨rfl, rfl⟩
  rw [info_of_some first.find?_self] at second
  have entered := first.again second
  exact ⟨intact.tabled.promote found fInTried success entered rfl rfl rfl rfl,
    SameIndices.entered entered found rfl rfl rfl rfl⟩

/-- A tried entry gives its place to a promoted one and goes back to a new bucket. -/
theorem Tabled.demote (tabled : Tabled hash2 none (some n) s) {b : TriedBucket} {c : NewBucket} {p : ℕ} {e : ℤ}
    (own : (s.info n).getTriedBucket hash2 s.nKey = b) (here : (s.vvTried b)[p]? = some e)
    (found : s.mapInfo.find? e = some info) (room : (s.vvNew c).card < ADDRMAN_NEW_BUCKET_SIZE) :
    Tabled hash2 none none (({ s.modifyInfo e fun info => { info with fInTried := false, nRefCount := 1 } with
      vvTried := update s.vvTried b ((s.vvTried b).set p n)
      nTried := s.nTried - 1
      nNew := s.nNew + 1 } : CAddrMan).insertNew c e) := by
  have entered : Entered s { s.modifyInfo e fun info => { info with fInTried := false, nRefCount := 1 } with
      vvTried := update s.vvTried b ((s.vvTried b).set p n)
      nTried := s.nTried - 1
      nNew := s.nNew + 1 } e { s.info e with fInTried := false, nRefCount := 1 } := ⟨rfl, rfl⟩
  rw [info_of_some found] at entered
  have replaced := tabled.replace own here found entered rfl rfl rfl rfl
  refine replaced.insertNew (fun inside => ?_) room
  obtain ⟨other, found', new⟩ := tabled.new_of_mem inside
  obtain rfl := Option.some.inj (found.symm.trans found')
  have tried := tabled.isTried_of_mem (List.mem_of_getElem? here)
  rw [isTried_of_some found, new] at tried
  cases tried

/-- The end of `MakeTried` when the tried bucket is full. -/
def evict (hash2 : List UInt8 → Uint256) (draw : ℕ → ℕ) (nId : ℤ) (nOrigin : NewBucket) (nKBucket : TriedBucket)
    (s : CAddrMan) : Check CAddrMan := do
  let (nPos, s) ← s.selectTried draw nKBucket
  let evicted ← assertSome .undefined ((s.vvTried nKBucket)[unsignedInt nPos]?)
  let infoOld ← s.assertInfo evicted
  let nUBucket := infoOld.getNewBucket hash2 s.nKey infoOld.source
  let s := s.modifyInfo evicted fun info => { info with fInTried := false, nRefCount := 1 }
  let s := s.insertNew (if (s.vvNew nUBucket).card < ADDRMAN_NEW_BUCKET_SIZE then nUBucket else nOrigin) evicted
  let s := { s with
    nNew := s.nNew + 1
    vvTried := update s.vvTried nKBucket ((s.vvTried nKBucket).set (unsignedInt nPos) nId) }
  return s.modifyInfo nId fun info => { info with fInTried := true }

theorem makeTried_eq (hash2 : List UInt8 → Uint256) (draw : ℕ → ℕ) (inside : n ∈ s.vvNew nOrigin)
    (zero : ((s.lifted n).info n).nRefCount = 0) (own : ((s.lifted n).info n).getTriedBucket hash2 s.nKey = b) :
    s.makeTried hash2 draw n nOrigin = if (s.vvTried b).length < ADDRMAN_TRIED_BUCKET_SIZE then
      .ok { s.promoted n with vvTried := update s.vvTried b (s.vvTried b ++ [n]) }
      else (s.lifted n).evict hash2 draw n nOrigin b := by
  subst own
  have first : (rejectIf (n ∉ s.vvNew nOrigin) (.assertion "vvNew[nOrigin].count(nId) == 1") : Check Unit) = .ok () :=
    rejectIf_eq_ok.mpr (not_not.mpr inside)
  have second : (rejectIf (((s.lifted n).info n).nRefCount ≠ 0) (.assertion "info.nRefCount == 0") : Check Unit) =
      .ok () := rejectIf_eq_ok.mpr (not_not.mpr zero)
  rw [makeTried, first, ok_bind]
  change (rejectIf (((s.lifted n).info n).nRefCount ≠ 0) _ >>= _) = _
  rw [second, ok_bind]
  rfl

/-- The tried entries are not touched when another one leaves the new buckets. -/
theorem Intact.tried_of_mem (intact : Intact hash2 none s) (found : s.mapInfo.find? n = some info)
    (fInTried : info.fInTried = false) {k : ℤ} (member : k ∈ s.vvTried b) :
    k ≠ n ∧ 0 ≤ k ∧ ∃ other, s.mapInfo.find? k = some other ∧ (s.lifted n).mapInfo.find? k = some other ∧
      (s.promoted n).mapInfo.find? k = some other := by
  obtain ⟨other, entry, tried⟩ := exists_of_isTried (intact.tabled.isTried_of_mem member)
  have different : k ≠ n := by
    rintro rfl
    obtain rfl := Option.some.inj (found.symm.trans entry)
    rw [fInTried] at tried
    cases tried
  have first := ((intact.lifted found).find?_of_ne different).trans entry
  have second : Entered (s.lifted n) (s.promoted n) n { (s.lifted n).info n with fInTried := true } := ⟨rfl, rfl⟩
  exact ⟨different, (intact.indexed.ids k other entry).1, other, entry, first, (second.find?_of_ne different).trans first⟩

theorem Intact.evict (intact : Intact hash2 none s) (found : s.mapInfo.find? n = some info)
    (fInTried : info.fInTried = false) (inside : n ∈ s.vvNew nOrigin)
    (tabled : Tabled hash2 none (some n) (s.promoted n))
    (own : ((s.promoted n).info n).getTriedBucket hash2 (s.promoted n).nKey = b)
    (full : ¬ (s.vvTried b).length < ADDRMAN_TRIED_BUCKET_SIZE) (draw : ℕ → ℕ) :
    ∃ t, (s.lifted n).evict hash2 draw n nOrigin b = .ok t ∧ Intact hash2 none t := by
  have size : ADDRMAN_TRIED_BUCKET_SIZE = 64 := rfl
  have most := intact.tabled.triedSize b
  have all : ∀ k ∈ (s.lifted n).vvTried b, 0 ≤ k ∧ ∃ other, (s.lifted n).mapInfo.find? k = some other := by
    intro k member
    obtain ⟨-, nonneg, other, -, entry, -⟩ := intact.tried_of_mem found fInTried member
    exact ⟨nonneg, other, entry⟩
  have nonempty : (s.lifted n).vvTried b ≠ [] := by
    apply List.ne_nil_of_length_pos
    change 0 < (s.vvTried b).length
    omega
  obtain ⟨j, k, first, selected⟩ := selectTried_eq all nonempty draw
  have below := (drawPlace_lt first).2
  have perm : ((s.lifted n).drawn draw b ADDRMAN_TRIED_ENTRIES_INSPECT_ON_EVICT 0).Perm (s.vvTried b) :=
    Sampling.shuffle_perm ..
  generalize (s.lifted n).drawn draw b ADDRMAN_TRIED_ENTRIES_INSPECT_ON_EVICT 0 = ids at selected perm
  generalize drawPlace draw ((s.lifted n).vvTried b).length j = p at selected below
  have length : ids.length = (s.vvTried b).length := perm.length_eq
  have below : p < ids.length := length.symm ▸ below
  have position : unsignedInt (p : ℤ) = p := by
    rw [unsignedInt]
    omega
  have here : ids[p]? = some ids[p] := List.getElem?_eq_getElem below
  have member : ids[p] ∈ s.vvTried b := perm.mem_iff.mp (List.getElem_mem below)
  generalize ids[p] = e at here member
  obtain ⟨different, -, infoOld, entry, entry', entry''⟩ := intact.tried_of_mem found fInTried member
  have room : ((s.lifted n).vvNew (if ((s.lifted n).vvNew (infoOld.getNewBucket hash2 s.nKey infoOld.source)).card <
      ADDRMAN_NEW_BUCKET_SIZE then infoOld.getNewBucket hash2 s.nKey infoOld.source else nOrigin)).card <
        ADDRMAN_NEW_BUCKET_SIZE := by
    split
    next room => exact room
    next => exact (Finset.card_erase_lt_of_mem inside).trans_le (intact.tabled.newSize nOrigin)
  generalize chosen : (if ((s.lifted n).vvNew (infoOld.getNewBucket hash2 s.nKey infoOld.source)).card <
    ADDRMAN_NEW_BUCKET_SIZE then infoOld.getNewBucket hash2 s.nKey infoOld.source else nOrigin) = c at room
  -- the order of the two changes of entries does not matter
  let demoting (info : CAddrInfo) : CAddrInfo := { info with fInTried := false, nRefCount := 1 }
  let u : CAddrMan := { s.lifted n with vvTried := update (s.lifted n).vvTried b ids }
  let v : CAddrMan := (u.modifyInfo e demoting).insertNew c e
  let w : CAddrMan := { v with nNew := v.nNew + 1, vvTried := update v.vvTried b ((v.vvTried b).set p n) }
  let t : CAddrMan := w.modifyInfo n fun info => { info with fInTried := true }
  have bucket : u.vvTried b = ids := update_self ..
  have run : (s.lifted n).evict hash2 draw n nOrigin b = .ok t := by
    refine bind_eq_ok.mpr ⟨((p : ℤ), u), selected, bind_eq_ok.mpr ⟨e, ?_, bind_eq_ok.mpr
      ⟨infoOld, assertInfo_of_some entry', ?_⟩⟩⟩
    · rw [position]
      apply assertSome_eq_ok.mpr
      rw [bucket]
      exact here
    · subst chosen
      rw [position]
      rfl
  have shuffled := tabled.shuffle perm
  have demoted := @Tabled.demote hash2 { s.promoted n with vvTried := update (s.promoted n).vvTried b ids } n infoOld
    shuffled b c p e own (by rw [← here]; exact congrArg (fun l : List ℤ => l[p]?) (update_self ..)) entry'' room
  have first : Entered (s.lifted n) v e (demoting ((s.lifted n).info e)) := ⟨rfl, rfl⟩
  have second : Entered v t n { v.info n with fInTried := true } := ⟨rfl, rfl⟩
  have promoting : Entered (s.lifted n) (s.promoted n) n { (s.lifted n).info n with fInTried := true } := ⟨rfl, rfl⟩
  rw [info_of_some entry'] at first
  have indexed : Indexed t := by
    have lifting := intact.lifted found
    have toLifted := SameIndices.entered lifting found rfl rfl rfl rfl
    have toDemoted := SameIndices.entered first entry' rfl rfl rfl rfl
    have here := (first.find?_of_ne different.symm).trans lifting.find?_self
    rw [info_of_some here] at second
    exact intact.indexed.congr ((toLifted.trans toDemoted).trans (SameIndices.entered second here rfl rfl rfl rfl))
  refine ⟨t, run, indexed, demoted.congr ⟨fun k => ?_, rfl, rfl, rfl, (add_sub_cancel_right s.nTried 1).symm, rfl⟩⟩
  have last : Entered (s.promoted n) (({ (s.promoted n).modifyInfo e demoting with
      vvTried := update (update (s.promoted n).vvTried b ids) b ((update (s.promoted n).vvTried b ids b).set p n)
      nTried := (s.promoted n).nTried - 1
      nNew := (s.promoted n).nNew + 1 } : CAddrMan).insertNew c e) e (demoting ((s.promoted n).info e)) := ⟨rfl, rfl⟩
  rw [info_of_some entry''] at last
  have same := last.find? k
  rw [promoting.find?] at same
  refine congrArg (Option.map strip) (Eq.trans ?_ same.symm)
  rw [second.find?, first.find?, first.info_of_ne different.symm]
  rcases eq_or_ne k n with rfl | other
  · rw [if_pos rfl, if_neg different.symm, if_pos rfl]
  · rw [if_neg other, if_neg other]

theorem Intact.makeTried (intact : Intact hash2 none s) (found : s.mapInfo.find? n = some info)
    (fInTried : info.fInTried = false) (success : info.nLastSuccess ≠ 0)
    (inside : n ∈ s.vvNew nOrigin) (draw : ℕ → ℕ) :
    ∃ t, s.makeTried hash2 draw n nOrigin = .ok t ∧ Intact hash2 none t := by
  have entered := intact.lifted found
  obtain ⟨tabled, indices⟩ := intact.promoted found fInTried success
  have zero : ((s.lifted n).info n).nRefCount = 0 := by
    rw [info_of_some entered.find?_self]
  obtain ⟨b, own⟩ : ∃ b, ((s.lifted n).info n).getTriedBucket hash2 s.nKey = b := ⟨_, rfl⟩
  have own' : ((s.promoted n).info n).getTriedBucket hash2 (s.promoted n).nKey = b := by
    have second : Entered (s.lifted n) (s.promoted n) n { (s.lifted n).info n with fInTried := true } := ⟨rfl, rfl⟩
    rw [info_of_some second.find?_self]
    exact own
  rw [makeTried_eq hash2 draw inside zero own]
  split
  next room =>
    refine ⟨_, rfl, ?_, tabled.push own' room⟩
    exact intact.indexed.congr (indices.trans (SameIndices.of_eq rfl rfl rfl rfl))
  next full => exact intact.evict found fInTried inside tabled own' full draw

/-- A change of an entry that the tables and the indices do not see. -/
theorem Intact.modify {f : CAddrInfo → CAddrInfo} (intact : Intact hash2 owed s) (found : s.mapInfo.find? n = some info)
    (sound : (f info).Sound) (service : (f info).toCService = info.toCService)
    (nRefCount : (f info).nRefCount = info.nRefCount) (fInTried : (f info).fInTried = info.fInTried)
    (nRandomPos : (f info).nRandomPos = info.nRandomPos) : Intact hash2 owed (s.modifyInfo n f) where
  indexed := intact.indexed.congr (SameIndices.modify found
    (Prod.ext (congrArg CService.toCNetAddr service) nRandomPos))
  tabled := intact.tabled.modify found sound service nRefCount fInTried

section

variable (intact : Intact hash2 none s)
include intact

theorem Intact.good_ (draw : ℕ → ℕ) (addr : CService) {nTime : ℤ} (positive : 0 < nTime) :
    ∃ t, s.good_ hash2 draw addr nTime = .ok t ∧ Intact hash2 none t := by
  rw [CAddrMan.good_]
  cases found : s.find addr.toCNetAddr with
  | none => exact ⟨s, rfl, intact⟩
  | some entry =>
    obtain ⟨n, info⟩ := entry
    have entry := (find_eq_some.mp found).2
    have sound := intact.tabled.sound n info entry
    dsimp only
    split
    · exact ⟨s, rfl, intact⟩
    have updated := Entered.modifyInfo s n fun info => { info with
      nLastSuccess := nTime, nLastTry := nTime, nTime := UInt32.ofNat (unsignedInt nTime), nAttempts := 0 }
    rw [info_of_some entry] at updated
    have intact' := intact.modify entry (f := fun info => { info with
      nLastSuccess := nTime, nLastTry := nTime, nTime := UInt32.ofNat (unsignedInt nTime), nAttempts := 0 })
      ⟨fun tried => ⟨positive.ne', (sound.tried tried).2⟩, sound.new, positive.le, positive.le⟩ rfl rfl rfl rfl
    generalize s.modifyInfo n (fun info => { info with
      nLastSuccess := nTime, nLastTry := nTime, nTime := UInt32.ofNat (unsignedInt nTime), nAttempts := 0 }) = u
      at updated intact'
    split
    · exact ⟨u, rfl, intact'⟩
    next new =>
    split
    · exact ⟨u, rfl, intact'⟩
    next nUBucket searched =>
    have member := List.find?_some searched
    have inside := of_decide_eq_true member
    exact intact'.makeTried updated.find?_self (Bool.eq_false_iff.mpr new) positive.ne' inside fun i => draw (i + 1)

theorem Intact.attempt_ {addr : CService} {nTime : ℤ} (positive : 0 < nTime)
    (room : ∀ n info, s.find addr.toCNetAddr = some (n, info) → info.toCService = addr → info.nAttempts ≠ INT_MAX) :
    ∃ t, s.attempt_ addr nTime = .ok t ∧ Intact hash2 none t := by
  rw [CAddrMan.attempt_]
  cases found : s.find addr.toCNetAddr with
  | none => exact ⟨s, rfl, intact⟩
  | some entry =>
    obtain ⟨n, info⟩ := entry
    have entry := (find_eq_some.mp found).2
    have sound := intact.tabled.sound n info entry
    dsimp only
    split
    · exact ⟨s, rfl, intact⟩
    next same =>
    refine ⟨_, bind_eq_ok.mpr ⟨(), rejectIf_eq_ok.mpr (room n info found (not_not.mp same)), rfl⟩, ?_⟩
    exact intact.modify entry ⟨sound.tried, sound.new, positive.le, sound.nLastSuccess⟩ rfl rfl rfl rfl

theorem Intact.connected_ (addr : CService) (nTime : ℤ) : Intact hash2 none (s.connected_ addr nTime) := by
  rw [CAddrMan.connected_]
  cases found : s.find addr.toCNetAddr with
  | none => exact intact
  | some entry =>
    obtain ⟨n, info⟩ := entry
    have entry := (find_eq_some.mp found).2
    have sound := intact.tabled.sound n info entry
    dsimp only
    split
    · exact intact
    split
    · exact intact.modify entry ⟨sound.tried, sound.new, sound.nLastTry, sound.nLastSuccess⟩ rfl rfl rfl rfl
    · exact intact

theorem Intact.select_ (fTried : Bool) (rounds : List SelectRound) : ∃ addr, s.select_ fTried rounds = .ok addr := by
  have known {draw : ℕ} : ∀ n ∈ s.selectBucket fTried draw, ∃ info, s.mapInfo.find? n = some info := by
    intro n member
    rw [selectBucket] at member
    split at member
    · obtain ⟨info, found, -⟩ := exists_of_isTried (intact.tabled.isTried_of_mem member)
      exact ⟨info, found⟩
    · obtain ⟨info, found, -⟩ := intact.tabled.new_of_mem ((Finset.mem_sort _).mp member)
      exact ⟨info, found⟩
  rw [CAddrMan.select_]
  split
  · exact ⟨_, rfl⟩
  induction rounds with
  | nil => exact ⟨none, rfl⟩
  | cons round rounds ih =>
    obtain ⟨addr, done⟩ := ih
    rw [selectLoop]
    split
    · exact ⟨addr, done⟩
    next nonzero =>
    have inside := getRandInt_lt (Nat.pos_of_ne_zero nonzero) round.position
    obtain ⟨info, found⟩ := known _ (List.getElem_mem inside)
    rw [List.getElem?_eq_getElem inside]
    refine Exists.imp (fun result done => bind_eq_ok.mpr ⟨_, rfl, bind_eq_ok.mpr
      ⟨info, assertInfo_of_some found, done⟩⟩) ?_
    split
    · exact ⟨_, rfl⟩
    · exact ⟨addr, done⟩

theorem Intact.getAddrLoop {rounds n : ℕ} (inside : n + rounds ≤ s.vRandom.length) :
    ∃ vAddr t, getAddrLoop draw rounds n s = .ok (vAddr, t) ∧ Intact hash2 none t := by
  induction rounds generalizing n s with
  | zero => exact ⟨[], s, rfl, intact⟩
  | succ rounds ih =>
    have offset := getRandInt_lt (show 0 < s.vRandom.length - n by omega) (draw n)
    obtain ⟨u, swapped, indexed, exchange⟩ := intact.indexed.swapRandom (i := n)
      (j := getRandInt (s.vRandom.length - n) (draw n) + n) (by omega) (by omega)
    have here : n < u.vRandom.length := by
      rw [exchange.length]
      omega
    obtain ⟨info, found, -⟩ := indexed.exists_of_position (List.getElem?_eq_getElem here)
    obtain ⟨vAddr, t, done, intact'⟩ := ih (s := u) (n := n + 1)
      ⟨indexed, intact.tabled.congr exchange.tables⟩ (by
      rw [exchange.length]
      omega)
    exact ⟨info.toCAddress :: vAddr, t, bind_eq_ok.mpr ⟨u, swapped, bind_eq_ok.mpr ⟨_,
      assertSome_eq_ok.mpr (List.getElem?_eq_getElem here), bind_eq_ok.mpr ⟨info, assertInfo_of_some found,
        bind_eq_ok.mpr ⟨_, done, rfl⟩⟩⟩⟩, intact'⟩

theorem Intact.getAddr_ (draw : ℕ → ℕ) : ∃ vAddr t, s.getAddr_ draw = .ok (vAddr, t) ∧ Intact hash2 none t := by
  apply intact.getAddrLoop
  have percent : ADDRMAN_GETADDR_MAX_PCT = 23 := rfl
  rw [percent]
  omega

end

end CAddrMan

end BitCrystal
