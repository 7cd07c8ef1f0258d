import BitCrystal.Proofs.ReorderTransactions

/-! # When reordering gives a total order

Only the entries of the account "" are looked at, and old positions are compared with new ones. If there are no other
entries and no position lies just above a place where an item was put in, then the positions after the call are all
different; if the positions have no gaps, then the second condition is necessary.
-/

namespace BitCrystal

open Renumber StateAction AList

namespace OrderBook

variable (cursor : Cursor)

/-- Every entry belongs to the account that is looked at. -/
def OneAccount (book : OrderBook) : Prop :=
  ∀ strAccount nEntryNo nOrderPos, book.position (.acentry strAccount nEntryNo) = some nOrderPos → strAccount = ""

/-- No position is given twice. -/
def Distinct (book : OrderBook) : Prop :=
  ∀ k k' nOrderPos, nOrderPos ≠ -1 → book.position k = some nOrderPos → book.position k' = some nOrderPos → k = k'

/-- Below a position there are all others. -/
def NoGaps (book : OrderBook) : Prop :=
  ∀ k nOrderPos, book.position k = some nOrderPos → ∀ q, 0 ≤ q → q < nOrderPos → ∃ k', book.position k' = some q

/-- All items have different positions below the next one, and those that had one stay in their order. -/
structure Reordered (before after : OrderBook) : Prop where
  items : ∀ k, (after.position k).isSome = (before.position k).isSome
  placed : ∀ k q, after.position k = some q → q ≠ -1 ∧ q < after.nOrderPosNext
  distinct : ∀ k k' q, after.position k = some q → after.position k' = some q → k = k'
  kept : ∀ k k' p p' q q', before.position k = some p → before.position k' = some p' → p ≠ -1 → p' ≠ -1 → p < p' →
    after.position k = some q → after.position k' = some q' → q < q'

/-- What the loop goes through. -/
def items (book : OrderBook) : List TxPair :=
  txByTime book.mapWallet ((cursor.toList book.walletdb.view).filterMap (acentryOf ""))

/-- The position that an item starts with. -/
def start (book : OrderBook) : TxPair → ℤ
  | .pwtx hash => (book.mapWallet.lookup hash).elim (-1) OrderedWalletTx.nOrderPos
  | .pacentry _ acentry => acentry.nOrderPos

/-- The positions by time, none for -1. -/
def positionsByTime (book : OrderBook) : List (Option ℤ) :=
  (book.items cursor).map fun item => placedAt (book.start item)

variable {cursor} {ok : ℕ → Bool} {book before after : OrderBook} {item : TxPair}

/-! ## The items -/

theorem acentryOf_eq_some {record : Sigma fun _ : WalletKey => WalletRecord} {nEntryNo : ℕ}
    {acentry : CAccountingEntry} :
    acentryOf "" record = some (nEntryNo, acentry) ↔ ∃ stored, record = ⟨.acentry "" nEntryNo, .acentry stored⟩ ∧
      acentry = { stored with strAccount := "" } := by
  unfold acentryOf
  split
  · next strAccount number stored =>
    by_cases own : strAccount = ""
    · subst own
      simp only [or_true, if_true, Option.some_inj, Prod.mk.injEq, Sigma.mk.injEq, WalletKey.acentry.injEq, true_and,
        heq_eq_eq, WalletRecord.acentry.injEq]
      constructor
      · rintro ⟨rfl, rfl⟩
        exact ⟨stored, ⟨rfl, rfl⟩, rfl⟩
      · rintro ⟨_, ⟨rfl, rfl⟩, rfl⟩
        exact ⟨rfl, rfl⟩
    · have other : ¬ ("" = "*" ∨ strAccount = "") := by simp [own]
      rw [if_neg other]
      constructor
      · nofun
      · rintro ⟨_, ⟨⟩, -⟩
        exact absurd rfl own
  · next other =>
    constructor
    · nofun
    · rintro ⟨stored, rfl, -⟩
      exact absurd rfl (other _ _ _)

theorem items_perm : (book.items cursor).Perm (book.mapWallet.entries.map (fun entry => .pwtx entry.1) ++
    ((cursor.toList book.walletdb.view).filterMap (acentryOf "")).map fun entry => .pacentry entry.1 entry.2) := by
  refine ((List.perm_insertionSort _ _).map _).trans (List.Perm.of_eq ?_)
  simp only [txItems, List.map_append, List.map_map]
  rfl

theorem mem_items : item ∈ book.items cursor ↔ (∃ hash, item = .pwtx hash ∧ hash ∈ book.mapWallet) ∨
    ∃ nEntryNo stored, item = .pacentry nEntryNo { stored with strAccount := "" } ∧
      book.walletdb.view.lookup (.acentry "" nEntryNo) = some (.acentry stored) := by
  rw [items_perm.mem_iff, List.mem_append, List.mem_map, List.mem_map]
  refine or_congr ⟨?_, ?_⟩ ⟨?_, ?_⟩
  · rintro ⟨entry, member, rfl⟩
    exact ⟨entry.1, rfl, mem_keys.mpr (List.mem_map.mpr ⟨entry, member, rfl⟩)⟩
  · rintro ⟨hash, rfl, member⟩
    obtain ⟨entry, listed, rfl⟩ := List.mem_map.mp (mem_keys.mp member)
    exact ⟨entry, listed, rfl⟩
  · rintro ⟨⟨nEntryNo, acentry⟩, member, rfl⟩
    obtain ⟨record, listed, found⟩ := List.mem_filterMap.mp member
    obtain ⟨stored, rfl, rfl⟩ := acentryOf_eq_some.mp found
    exact ⟨nEntryNo, stored, rfl, mem_lookup_iff.mpr ((cursor.perm _).mem_iff.mp listed)⟩
  · rintro ⟨nEntryNo, stored, rfl, held⟩
    refine ⟨(nEntryNo, { stored with strAccount := "" }), List.mem_filterMap.mpr ⟨_, ?_, acentryOf_eq_some.mpr
      ⟨stored, rfl, rfl⟩⟩, rfl⟩
    exact (cursor.perm _).mem_iff.mpr (mem_lookup_iff.mp held)

theorem keys_sublist (records : List (Sigma fun _ : WalletKey => WalletRecord)) :
    ((records.filterMap (acentryOf "")).map fun entry => WalletKey.acentry entry.2.strAccount entry.1).Sublist
      (records.map Sigma.fst) := by
  induction records with
  | nil => exact .slnil
  | cons record records ih =>
    cases found : acentryOf "" record with
    | none =>
      rw [List.filterMap_cons_none found]
      exact ih.cons _
    | some entry =>
      obtain ⟨stored, rfl, own⟩ := acentryOf_eq_some.mp found
      rw [List.filterMap_cons_some found, List.map_cons, List.map_cons, own]
      exact ih.cons_cons _

theorem nodup_keys : ((book.items cursor).map TxPair.key).Nodup := by
  rw [(items_perm.map TxPair.key).nodup_iff, List.map_append, List.map_map, List.map_map, List.nodup_append]
  refine ⟨?_, ?_, ?_⟩
  · have keys := book.mapWallet.keys_nodup.map (f := WalletKey.tx) fun _ _ => WalletKey.tx.inj
    rwa [AList.keys, List.keys, List.map_map] at keys
  · have keys : ((cursor.toList book.walletdb.view).map Sigma.fst).Nodup :=
      ((cursor.perm _).map _).nodup_iff.mpr book.walletdb.view.keys_nodup
    exact keys.sublist (keys_sublist _)
  · rintro k left k' right rfl
    obtain ⟨entry, -, rfl⟩ := List.mem_map.mp left
    obtain ⟨entry', -, same⟩ := List.mem_map.mp right
    cases same

theorem pointsTo_start (member : item ∈ book.items cursor) : book.PointsTo item (book.start item) := by
  rcases mem_items.mp member with ⟨hash, rfl, listed⟩ | ⟨nEntryNo, stored, rfl, held⟩
  · obtain ⟨wtx, held⟩ := Option.isSome_iff_exists.mp (lookup_isSome.mpr listed)
    refine ⟨?_, nofun⟩
    simp only [TxPair.key, position, start, held, Option.map_some, Option.elim_some]
  · refine ⟨?_, ?_⟩
    · simp only [TxPair.key, position, held, start]
    · rintro _ _ ⟨⟩
      rfl

/-- If there is one account only, then everything that has a position is an item. -/
theorem exists_item (cursor : Cursor) (one : book.OneAccount) {k : WalletKey} {p : ℤ} (holds : book.position k = some p) :
    ∃ item ∈ book.items cursor, item.key = k ∧ book.start item = p := by
  have found : ∃ item ∈ book.items cursor, item.key = k := by
    cases k with
    | tx hash =>
      obtain ⟨wtx, held, -⟩ := Option.map_eq_some_iff.mp holds
      exact ⟨.pwtx hash, mem_items.mpr (.inl ⟨hash, rfl, lookup_isSome.mp (by rw [held]; rfl)⟩), rfl⟩
    | acentry strAccount nEntryNo =>
      obtain rfl := one _ _ _ holds
      unfold position at holds
      dsimp only at holds
      split at holds
      · next stored held => exact ⟨_, mem_items.mpr (.inr ⟨nEntryNo, stored, rfl, held⟩), rfl⟩
      · cases holds
    | _ => cases holds
  obtain ⟨item, member, rfl⟩ := found
  exact ⟨item, member, rfl, Option.some.inj ((pointsTo_start member).1.symm.trans holds)⟩

theorem listAccountCreditDebit_eq {strAccount : String} {acentries : List (ℕ × CAccountingEntry)}
    (ran : listAccountCreditDebit ok cursor strAccount before = (.ok acentries, after)) :
    acentries = (cursor.toList before.walletdb.view).filterMap (acentryOf strAccount) ∧
      after = { before with walletdb := { before.walletdb with calls := before.walletdb.calls + 2 } } := by
  unfold listAccountCreditDebit at ran
  obtain ⟨fCursor, _, ⟨⟩, ran⟩ := bind_eq_ok.mp ran
  obtain ⟨-, -, ran⟩ := lift_bind_eq_ok.mp ran
  obtain ⟨fScanned, _, ⟨⟩, ran⟩ := bind_eq_ok.mp ran
  obtain ⟨-, -, ran⟩ := lift_bind_eq_ok.mp ran
  cases ran
  exact ⟨rfl, rfl⟩

/-- The call renumbers the items by time, and leaves the entries of other accounts. -/
theorem reorderTransactions_places (ran : reorderTransactions ok cursor before = (.ok .DB_LOAD_OK, after)) :
    let placed := placeAll {} (before.positionsByTime cursor)
    after.nOrderPosNext = placed.2.next ∧
      ((before.items cursor).map fun item => after.position item.key) = placed.1.map some ∧
        ∀ k ∉ (before.items cursor).map TxPair.key, after.position k = before.position k := by
  unfold reorderTransactions at ran
  obtain ⟨acentries, listed, ran', ran⟩ := bind_eq_ok.mp ran
  obtain ⟨rfl, rfl⟩ := listAccountCreditDebit_eq ran'
  rw [get_bind, modify_bind] at ran
  have points : List.Forall₂ before.PointsTo (before.items cursor) ((before.items cursor).map before.start) :=
    List.forall₂_map_right_iff.mpr (List.forall₂_same.mpr fun item => pointsTo_start)
  have placed := fun points => reorderLoop_places _ ((before.items cursor).map before.start) nodup_keys points ran
  rw [List.map_map] at placed
  exact placed points

private theorem of_forall₂_of_map {α β γ : Type} {r : α → β → Prop} {f : γ → α} {g : γ → Option β} {l : List γ}
    {l' : List β} (related : List.Forall₂ r (l.map f) l') (values : l.map g = l'.map some) :
    ∀ c ∈ l, ∃ b ∈ l', g c = some b ∧ r (f c) b := by
  induction l generalizing l' with
  | nil => exact fun c member => absurd member List.not_mem_nil
  | cons c l ih =>
    obtain ⟨b, l', first, rest, rfl⟩ := List.forall₂_cons_left_iff.mp related
    obtain ⟨value, values⟩ := List.cons.inj values
    intro d member
    rcases List.mem_cons.mp member with rfl | member
    · exact ⟨b, List.mem_cons_self, value, first⟩
    · obtain ⟨b, listed, both⟩ := ih rest values d member
      exact ⟨b, List.mem_cons_of_mem _ listed, both⟩

/-- An item that had a position gets it shifted by the places of all that had none. -/
theorem position_item (ran : reorderTransactions ok cursor before = (.ok .DB_LOAD_OK, after))
    (member : item ∈ before.items cursor) : ∃ q ∈ (placeAll {} (before.positionsByTime cursor)).1,
      after.position item.key = some q ∧ (before.start item ≠ -1 →
        q = shift (placeAll {} (before.positionsByTime cursor)).2.starts (before.start item)) := by
  obtain ⟨-, values, -⟩ := reorderTransactions_places ran
  obtain ⟨q, listed, value, shifted⟩ := of_forall₂_of_map (forall₂_placeAll {} (before.positionsByTime cursor)) values
    item member
  exact ⟨q, listed, value, fun ordered => shifted _ (placedAt_eq_some.mpr ⟨rfl, ordered⟩)⟩

/-- Every position after the call is one that was given to an item, if there is one account only. -/
theorem exists_item_after (ran : reorderTransactions ok cursor before = (.ok .DB_LOAD_OK, after))
    (one : before.OneAccount) {k : WalletKey} {q : ℤ} (holds : after.position k = some q) : ∃ item ∈ before.items cursor, item.key = k := by
  obtain ⟨-, -, others⟩ := reorderTransactions_places ran
  by_contra absent
  have outside : k ∉ (before.items cursor).map TxPair.key := by
    intro member
    obtain ⟨item, listed, same⟩ := List.mem_map.mp member
    exact absent ⟨item, listed, same⟩
  rw [others k outside] at holds
  obtain ⟨item, member, same, -⟩ := exists_item cursor one holds
  exact absent ⟨item, member, same⟩

private theorem reduceOption_placedAt (book : OrderBook) (items : List TxPair) :
    (items.map fun item => placedAt (book.start item)).reduceOption =
      (items.filter fun item => book.start item ≠ -1).map book.start := by
  induction items with
  | nil => rfl
  | cons item items ih =>
    rw [List.map_cons, placedAt, List.filter_cons]
    by_cases unordered : book.start item = -1
    · simpa [unordered] using ih
    · simpa [unordered] using ih

theorem nodup_positionsByTime (cursor : Cursor) (distinct : before.Distinct) : (before.positionsByTime cursor).reduceOption.Nodup := by
  rw [positionsByTime, reduceOption_placedAt]
  refine List.Nodup.map_on ?_ (nodup_keys.of_map.filter _)
  intro item left item' right same
  obtain ⟨member, ordered⟩ := List.mem_filter.mp left
  obtain ⟨member', -⟩ := List.mem_filter.mp right
  apply List.inj_on_of_nodup_map nodup_keys member member'
  apply distinct _ _ _ (of_decide_eq_true ordered) (pointsTo_start member).1
  rw [same]
  exact (pointsTo_start member').1

/-- With one account, the call orders everything just when it gives no position twice. -/
theorem reordered_iff_nodup (ran : reorderTransactions ok cursor before = (.ok .DB_LOAD_OK, after))
    (one : before.OneAccount) : Reordered before after ↔ (placeAll {} (before.positionsByTime cursor)).1.Nodup := by
  obtain ⟨next, values, others⟩ := reorderTransactions_places ran
  constructor
  · intro reordered
    have nodup : ((before.items cursor).map fun item => after.position item.key).Nodup := by
      refine List.Nodup.map_on (fun item member item' member' same => ?_) nodup_keys.of_map
      obtain ⟨q, -, holds, -⟩ := position_item ran member
      exact List.inj_on_of_nodup_map nodup_keys member member' (reordered.distinct _ _ q holds (same ▸ holds))
    rw [values] at nodup
    exact nodup.of_map
  · intro nodup
    have distinct := nodup.map (Option.some_injective ℤ)
    rw [← values] at distinct
    refine ⟨fun k => ?_, fun k q holds => ?_, fun k k' q holds holds' => ?_, ?_⟩
    · by_cases inside : k ∈ (before.items cursor).map TxPair.key
      · obtain ⟨item, member, rfl⟩ := List.mem_map.mp inside
        obtain ⟨q, -, holds, -⟩ := position_item ran member
        rw [holds, (pointsTo_start member).1]
        rfl
      · rw [others k inside]
    · obtain ⟨item, member, rfl⟩ := exists_item_after ran one holds
      obtain ⟨q', listed, holds', -⟩ := position_item ran member
      cases holds.symm.trans holds'
      refine ⟨?_, next ▸ (next_placeAll {} _).2 q listed⟩
      rintro rfl
      rcases nonneg_or_mem_placeAll listed with impossible | old
      · omega
      · obtain ⟨item', -, same⟩ := List.mem_map.mp old
        exact absurd rfl (placedAt_eq_some.mp same).2
    · obtain ⟨item, member, rfl⟩ := exists_item_after ran one holds
      obtain ⟨item', member', rfl⟩ := exists_item_after ran one holds'
      rw [List.inj_on_of_nodup_map distinct member member' (holds.trans holds'.symm)]
    · intro k k' p p' q q' old old' ordered ordered' less new new'
      obtain ⟨item, member, rfl, rfl⟩ := exists_item cursor one old
      obtain ⟨item', member', rfl, rfl⟩ := exists_item cursor one old'
      obtain ⟨r, -, holds, shifted⟩ := position_item ran member
      obtain ⟨r', -, holds', shifted'⟩ := position_item ran member'
      cases new.symm.trans holds
      cases new'.symm.trans holds'
      rw [shifted ordered, shifted' ordered']
      exact shift_lt_shift less

/-- The numbers stay clear, and there are no entries of other accounts: then the call gives a total order. An entry
of another account that has no position never gets one, and where positions have no gaps the numbers have to stay
clear. -/
theorem reorderTransactions_reordered (ok : ℕ → Bool) (cursor : Cursor) (before after : OrderBook)
    (distinct : before.Distinct) (ran : reorderTransactions ok cursor before = (.ok .DB_LOAD_OK, after)) :
    (before.OneAccount → Clear (before.positionsByTime cursor) → Reordered before after) ∧
      (Reordered before after → ∀ strAccount nEntryNo, strAccount ≠ "" →
        before.position (.acentry strAccount nEntryNo) ≠ some (-1)) ∧
      (before.OneAccount → before.NoGaps → Reordered before after → Clear (before.positionsByTime cursor)) := by
  have distinct := nodup_positionsByTime cursor distinct
  refine ⟨fun one clear => ?_, fun reordered strAccount nEntryNo other unordered => ?_,
    fun one noGaps reordered => ?_⟩
  · rw [reordered_iff_nodup ran one, nodup_placeAll_iff distinct]
    exact fun p => shift_notMem_of_clear clear
  · have outside : .acentry strAccount nEntryNo ∉ (before.items cursor).map TxPair.key := by
      intro member
      obtain ⟨item, listed, same⟩ := List.mem_map.mp member
      rcases mem_items.mp listed with ⟨hash, rfl, -⟩ | ⟨number, stored, rfl, -⟩
      · cases same
      · cases same
        exact other rfl
    obtain ⟨-, -, others⟩ := reorderTransactions_places ran
    exact (reordered.placed _ _ ((others _ outside).trans unordered)).1 rfl
  · rw [reordered_iff_nodup ran one, nodup_placeAll_iff distinct] at reordered
    refine clear_of_shift_notMem ?_ reordered
    intro p listed q large less
    obtain ⟨item, member, same⟩ := List.mem_map.mp listed
    have start := (placedAt_eq_some.mp same).1
    obtain ⟨k, holds⟩ := noGaps _ p (start ▸ (pointsTo_start member).1) q large less
    obtain ⟨item', member', -, same'⟩ := exists_item cursor one holds
    refine List.mem_map.mpr ⟨item', member', ?_⟩
    rw [same', placedAt_eq_some]
    omega

/-- The cursor of the model's own order. -/
def storedOrder : Cursor := ⟨entries, fun _ => .refl _⟩

/-- A wallet file without entries, and transactions that came in one after the other. -/
def received (positions : List ℤ) : OrderBook where
  walletdb := .new ∅
  mapWallet := ⟨positions.zipIdx.map fun entry => ⟨entry.2, ⟨entry.2, entry.1⟩⟩, by
    rw [List.NodupKeys, List.keys, List.map_map]
    exact (List.zipIdx_map_snd 0 positions).symm ▸ List.nodup_range' 1⟩
  nOrderPosNext := 0

/-- A file with one entry, of the account "a", and no transactions. -/
def foreignEntry : OrderBook where
  walletdb := .new (singleton (.acentry "a" 1) (.acentry { strAccount := "a" }))
  mapWallet := ∅
  nOrderPosNext := 0

theorem position_received {positions : List ℤ} {k : WalletKey} {p : ℤ}
    (holds : (received positions).position k = some p) : ∃ i, k = .tx i ∧ positions[i]? = some p := by
  cases k with
  | tx i =>
    obtain ⟨wtx, held, rfl⟩ := Option.map_eq_some_iff.mp holds
    obtain ⟨⟨nOrderPos, j⟩, member, same⟩ := List.mem_map.mp (mem_lookup_iff.mp held)
    cases same
    exact ⟨j, rfl, List.mem_zipIdx_iff_getElem?.mp member⟩
  | acentry strAccount nEntryNo => cases holds
  | _ => cases holds

theorem oneAccount_received (positions : List ℤ) : (received positions).OneAccount := nofun

/-- With at most one transaction that has a position, the positions are distinct. -/
theorem distinct_received (n : ℕ) : (received (List.replicate n (-1) ++ [0])).Distinct := by
  have last {i : ℕ} {p : ℤ} (ordered : p ≠ -1) (listed : (List.replicate n (-1) ++ [0])[i]? = some p) : i = n := by
    rcases lt_or_ge i n with before | after
    · rw [List.getElem?_append_left (by simpa using before), List.getElem?_replicate, if_pos before] at listed
      exact absurd (Option.some.inj listed).symm ordered
    · rw [List.getElem?_append_right (by simpa using after), List.length_replicate] at listed
      obtain ⟨bound, -⟩ := List.getElem?_eq_some_iff.mp listed
      rw [List.length_singleton] at bound
      omega
  intro k k' p ordered holds holds'
  obtain ⟨i, rfl, listed⟩ := position_received holds
  obtain ⟨j, rfl, listed'⟩ := position_received holds'
  rw [last ordered listed, last ordered listed']

private theorem clear_pair : Clear [none, some 0] := by
  intro before between p after split
  rcases before with _ | ⟨o, before⟩
  · have listed : some p ∈ [some (0 : ℤ)] := by
      rw [List.nil_append] at split
      rw [(List.cons.inj split).2]
      simp
    cases List.mem_singleton.mp listed
    exact .inr le_rfl
  · have listed : (none : Option ℤ) ∈ [some (0 : ℤ)] := by
      rw [List.cons_append] at split
      rw [(List.cons.inj split).2]
      simp
    cases List.mem_singleton.mp listed

/-- A transaction without a position before one that has the first position. -/
theorem reordered_received : Reordered (received [-1, 0])
    (reorderTransactions (fun _ => true) storedOrder (received [-1, 0])).2 :=
  (reorderTransactions_reordered (fun _ => true) storedOrder (received [-1, 0]) _ (distinct_received 1)
    (outcome_of_fst rfl)).1 (oneAccount_received _) clear_pair

/-- Two transactions without a position, and then one that has the first position, which gets the position of the
second one; and an entry of another account, which gets none. -/
theorem not_reordered : (received [-1, -1, 0]).Distinct ∧ foreignEntry.Distinct ∧
    (∃ after, reorderTransactions (fun _ => true) storedOrder (received [-1, -1, 0]) = (.ok .DB_LOAD_OK, after) ∧
      ¬ Reordered (received [-1, -1, 0]) after) ∧
    ∃ after, reorderTransactions (fun _ => true) storedOrder foreignEntry = (.ok .DB_LOAD_OK, after) ∧
      ¬ Reordered foreignEntry after := by
  refine ⟨distinct_received 2, ?_, ⟨_, rfl, fun reordered => ?_⟩, _, rfl, fun reordered => ?_⟩
  · intro k k' p ordered holds
    have own (k : WalletKey) : foreignEntry.position k = some p → p = -1 := by
      intro holds
      cases k with
      | tx hash => cases holds
      | acentry strAccount nEntryNo =>
        unfold position at holds
        dsimp only at holds
        split at holds
        · next acentry held =>
          cases List.mem_singleton.mp (mem_lookup_iff.mp held)
          exact (Option.some.inj holds).symm
        · cases holds
      | _ => cases holds
    exact absurd (own k holds) ordered
  · cases reordered.distinct (.tx 1) (.tx 2) 1 rfl rfl
  · exact (reordered.placed (.acentry "a" 1) (-1) rfl).1 rfl

end OrderBook

end BitCrystal
