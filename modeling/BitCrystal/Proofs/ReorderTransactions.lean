import BitCrystal.Machine.Renumber
import BitCrystal.Model.WalletFile

/-! # What reordering does to the positions

One round of the loop gives the item its new position and leaves the others, whatever is written. The positions of all
rounds are those of the abstract renumbering.
-/

namespace BitCrystal

open Renumber StateAction CWalletDB

/-- An item has a position when it is not -1. -/
def placedAt (nOrderPos : ℤ) : Option ℤ := if nOrderPos = -1 then none else some nOrderPos

theorem placedAt_eq_some {nOrderPos p : ℤ} : placedAt nOrderPos = some p ↔ nOrderPos = p ∧ p ≠ -1 := by
  unfold placedAt
  split
  · next unordered =>
    refine ⟨nofun, ?_⟩
    rintro ⟨rfl, ordered⟩
    exact absurd unordered ordered
  · next ordered =>
    rw [Option.some_inj]
    refine ⟨?_, And.left⟩
    rintro rfl
    exact ⟨rfl, ordered⟩

namespace TxPair

/-- The record of an item. -/
def key : TxPair → WalletKey
  | .pwtx hash => .tx hash
  | .pacentry nEntryNo acentry => .acentry acentry.strAccount nEntryNo

end TxPair

namespace OrderBook

/-- The positions of the transactions in memory and of the entries in the file. -/
def position (book : OrderBook) : WalletKey → Option ℤ
  | .tx hash => (book.mapWallet.lookup hash).map OrderedWalletTx.nOrderPos
  | .acentry strAccount nEntryNo =>
    match book.walletdb.view.lookup (.acentry strAccount nEntryNo) with
    | some (.acentry acentry) => some acentry.nOrderPos
    | _ => none
  | _ => none

/-- The item points to what has the position. -/
def PointsTo (book : OrderBook) (item : TxPair) (nOrderPos : ℤ) : Prop :=
  book.position item.key = some nOrderPos ∧ ∀ nEntryNo acentry, item = .pacentry nEntryNo acentry →
    acentry.nOrderPos = nOrderPos

/-- One position has been assigned. -/
def Assigns (k : WalletKey) (nOrderPos : ℤ) (book book' : OrderBook) : Prop :=
  ∀ k', book'.position k' = if k' = k then some nOrderPos else book.position k'

variable {ok : ℕ → Bool} {book book' : OrderBook} {item item' : TxPair} {items : List TxPair} {starts : List ℤ}
  {nOrderPos nNew : ℤ}

theorem nOrderPosOf_eq (points : book.PointsTo item nOrderPos) : nOrderPosOf item book = (.ok nOrderPos, book) := by
  obtain ⟨holds, own⟩ := points
  cases item with
  | pwtx hash =>
    obtain ⟨wtx, held, rfl⟩ := Option.map_eq_some_iff.mp holds
    rw [nOrderPosOf, get_bind, held]
    rfl
  | pacentry nEntryNo acentry =>
    rw [nOrderPosOf, own nEntryNo acentry rfl]
    rfl

theorem assigns_insert (book : OrderBook) (hash : ℕ) (wtx : OrderedWalletTx) :
    Assigns (.tx hash) wtx.nOrderPos book { book with mapWallet := book.mapWallet.insert hash wtx } := by
  intro k
  split
  · next same =>
    simp only [same, position, AList.lookup_insert, Option.map_some]
  · next other =>
    cases k with
    | tx hash' =>
      have apart : hash' ≠ hash := fun same => other (by rw [same])
      simp only [position, AList.lookup_insert_ne apart]
    | _ => rfl

theorem assign_eq (nNew : ℤ) (points : book.PointsTo item nOrderPos) : ∃ item' book',
    assign nNew item book = (.ok item', book') ∧ book'.nOrderPosNext = book.nOrderPosNext ∧ item'.key = item.key ∧
      ((∃ hash, item' = .pwtx hash ∧ Assigns item.key nNew book book') ∨
        ∃ nEntryNo acentry, item' = .pacentry nEntryNo acentry ∧ acentry.nOrderPos = nNew ∧ book' = book) := by
  cases item with
  | pwtx hash =>
    obtain ⟨wtx, held, -⟩ := Option.map_eq_some_iff.mp points.1
    refine ⟨.pwtx hash, { book with mapWallet := book.mapWallet.insert hash { wtx with nOrderPos := nNew } }, ?_, rfl,
      rfl, .inl ⟨hash, rfl, assigns_insert book hash { wtx with nOrderPos := nNew }⟩⟩
    rw [assign, get_bind, held]
    rfl
  | pacentry nEntryNo acentry => exact ⟨_, book, rfl, rfl, rfl, .inr ⟨nEntryNo, _, rfl, rfl, rfl⟩⟩

theorem position_writeTx {hash : ℕ} {wtx : OrderedWalletTx} {db : CWalletDB}
    (written : writeTx ok hash wtx book.walletdb = (true, db)) (k : WalletKey) :
    ({ book with walletdb := db } : OrderBook).position k = book.position k := by
  have view : db.view = book.walletdb.view.insert (.tx hash) (.tx wtx) := by
    have put := TxnStore.view_put (congrArg Prod.fst written)
    rwa [← writeTx, written] at put
  cases k with
  | acentry strAccount nEntryNo =>
    unfold position
    dsimp only
    rw [view, AList.lookup_insert_ne (by rintro ⟨⟩)]
  | _ => rfl

theorem assigns_writeEntry {nEntryNo : ℕ} {acentry : CAccountingEntry} {db : CWalletDB}
    (written : writeAccountingEntry ok nEntryNo acentry book.walletdb = (true, db)) :
    Assigns (.acentry acentry.strAccount nEntryNo) acentry.nOrderPos book { book with walletdb := db } := by
  have view : db.view = book.walletdb.view.insert (.acentry acentry.strAccount nEntryNo) (.acentry acentry) := by
    have put := TxnStore.view_put (congrArg Prod.fst written)
    rwa [← writeAccountingEntry, written] at put
  intro k
  split
  · next same =>
    rw [same]
    unfold position
    dsimp only
    rw [view, AList.lookup_insert]
  · next other =>
    cases k with
    | acentry strAccount number =>
      unfold position
      dsimp only
      rw [view, AList.lookup_insert_ne other]
    | _ => rfl

theorem write_pwtx {hash : ℕ} {fWritten : Bool} (wrote : write ok (.pwtx hash) book = (.ok fWritten, book'))
    (done : fWritten = true) :
    book'.nOrderPosNext = book.nOrderPosNext ∧ ∀ k, book'.position k = book.position k := by
  subst done
  rw [write, get_bind, lift_bind_eq_ok] at wrote
  obtain ⟨wtx, -, wrote⟩ := wrote
  rcases written : writeTx ok hash wtx book.walletdb with ⟨result, db⟩
  rw [onFile, written] at wrote
  cases wrote
  exact ⟨rfl, position_writeTx written⟩

theorem write_pacentry {nEntryNo : ℕ} {acentry : CAccountingEntry} {fWritten : Bool}
    (wrote : write ok (.pacentry nEntryNo acentry) book = (.ok fWritten, book')) (done : fWritten = true) :
    book'.nOrderPosNext = book.nOrderPosNext ∧
      Assigns (.acentry acentry.strAccount nEntryNo) acentry.nOrderPos book book' := by
  subst done
  rcases written : writeAccountingEntry ok nEntryNo acentry book.walletdb with ⟨result, db⟩
  rw [write, onFile, written] at wrote
  cases wrote
  exact ⟨rfl, assigns_writeEntry written⟩

/-- The item gets the next position. -/
theorem reorderLoop_unordered (points : book.PointsTo item (-1))
    (ran : reorderLoop ok (item :: items) starts book = (.ok .DB_LOAD_OK, book')) : ∃ next,
      reorderLoop ok items (starts ++ [book.nOrderPosNext]) next = (.ok .DB_LOAD_OK, book') ∧
        next.nOrderPosNext = book.nOrderPosNext + 1 ∧ Assigns item.key book.nOrderPosNext book next := by
  rw [reorderLoop, bind_of_ok (nOrderPosOf_eq points), get_bind, if_pos rfl, lift_bind_eq_ok] at ran
  obtain ⟨nOrderPosNext, fits, ran⟩ := ran
  obtain ⟨-, rfl⟩ := int64_eq_ok.mp fits
  rw [modify_bind] at ran
  have still : PointsTo { book with nOrderPosNext := book.nOrderPosNext + 1 } item (-1) := points
  obtain ⟨item', between, assigned, next, key, new⟩ := assign_eq book.nOrderPosNext still
  rw [bind_of_ok assigned] at ran
  rcases new with ⟨hash, rfl, assigns⟩ | ⟨nEntryNo, acentry, rfl, own, rfl⟩
  · exact ⟨between, ran, next, assigns⟩
  · obtain ⟨fWritten, after, wrote, rest⟩ := bind_eq_ok.mp ran
    split at rest
    · next done =>
      obtain ⟨same, assigns⟩ := write_pacentry wrote done
      refine ⟨after, rest, same, ?_⟩
      rw [own] at assigns
      rw [← key]
      exact assigns
    · cases rest

/-- The item is moved up by the places at or below its position. -/
theorem reorderLoop_ordered (points : book.PointsTo item nOrderPos) (ordered : nOrderPos ≠ -1)
    (ran : reorderLoop ok (item :: items) starts book = (.ok .DB_LOAD_OK, book')) : ∃ next,
      reorderLoop ok items starts next = (.ok .DB_LOAD_OK, book') ∧
        next.nOrderPosNext = max book.nOrderPosNext (shift starts nOrderPos + 1) ∧
          Assigns item.key (shift starts nOrderPos) book next := by
  rw [reorderLoop, bind_of_ok (nOrderPosOf_eq points), get_bind, if_neg ordered, lift_bind_eq_ok] at ran
  obtain ⟨nNew, fits, ran⟩ := ran
  obtain ⟨-, rfl⟩ := int64_eq_ok.mp fits
  obtain ⟨item', between, assigned, next, key, new⟩ := assign_eq (shift starts nOrderPos) points
  rw [shift] at assigned
  rw [bind_of_ok assigned, lift_bind_eq_ok] at ran
  obtain ⟨nAfter, fits, ran⟩ := ran
  obtain ⟨-, rfl⟩ := int64_eq_ok.mp fits
  rw [modify_bind, next] at ran
  split at ran
  · next stays =>
    refine ⟨_, ran, rfl, ?_⟩
    rcases new with ⟨hash, rfl, assigns⟩ | ⟨nEntryNo, acentry, rfl, own, rfl⟩
    · exact assigns
    · intro k
      split
      · next same =>
        rw [same, shift, stays, Nat.cast_zero, add_zero]
        exact points.1
      · rfl
  · obtain ⟨fWritten, after, wrote, rest⟩ := bind_eq_ok.mp ran
    split at rest
    · next done =>
      rcases new with ⟨hash, rfl, assigns⟩ | ⟨nEntryNo, acentry, rfl, own, rfl⟩
      · obtain ⟨same, positions⟩ := write_pwtx wrote done
        exact ⟨after, rest, same, fun k => (positions k).trans (assigns k)⟩
      · obtain ⟨same, assigns⟩ := write_pacentry wrote done
        refine ⟨after, rest, same, ?_⟩
        rw [own] at assigns
        rw [← key]
        exact assigns
    · cases rest

theorem reorderLoop_step (points : book.PointsTo item nOrderPos)
    (ran : reorderLoop ok (item :: items) starts book = (.ok .DB_LOAD_OK, book')) : ∃ next,
      let placed := place ⟨book.nOrderPosNext, starts⟩ (placedAt nOrderPos)
      reorderLoop ok items placed.2.starts next = (.ok .DB_LOAD_OK, book') ∧ next.nOrderPosNext = placed.2.next ∧
        Assigns item.key placed.1 book next := by
  unfold placedAt
  split
  · next unordered =>
    rw [unordered] at points
    exact reorderLoop_unordered points ran
  · next ordered => exact reorderLoop_ordered points ordered ran

theorem PointsTo.of_assigns {k : WalletKey} {next : OrderBook} (assigns : Assigns k nNew book next)
    (points : book.PointsTo item nOrderPos) (other : item.key ≠ k) : next.PointsTo item nOrderPos :=
  ⟨by rw [assigns, if_neg other, points.1], points.2⟩

/-- The loop renumbers the items, and leaves everything else. -/
theorem reorderLoop_places (items : List TxPair) : ∀ (positions : List ℤ) {starts : List ℤ} {book : OrderBook},
    (items.map TxPair.key).Nodup → List.Forall₂ book.PointsTo items positions →
      reorderLoop ok items starts book = (.ok .DB_LOAD_OK, book') →
        let placed := placeAll ⟨book.nOrderPosNext, starts⟩ (positions.map placedAt)
        book'.nOrderPosNext = placed.2.next ∧
          (items.map fun item => book'.position item.key) = placed.1.map some ∧
            ∀ k ∉ items.map TxPair.key, book'.position k = book.position k := by
  induction items with
  | nil =>
    intro positions starts book _ points ran
    cases points
    cases ran
    exact ⟨rfl, rfl, fun _ _ => rfl⟩
  | cons item items ih =>
    intro positions starts book nodup points ran
    cases points with
    | cons first rest =>
      rename_i nOrderPos positions
      obtain ⟨absent, nodup⟩ := List.nodup_cons.mp nodup
      obtain ⟨next, ran, moved, assigns⟩ := reorderLoop_step first ran
      have still : List.Forall₂ next.PointsTo items positions :=
        ((List.forall₂_and_left _ _).mpr
          ⟨fun other member same => absent (List.mem_map.mpr ⟨other, member, same⟩), rest⟩).imp
            fun _ _ ⟨differs, points⟩ => points.of_assigns assigns differs
      obtain ⟨last, placed, others⟩ := ih positions nodup still ran
      rw [moved] at last placed
      refine ⟨last, ?_, fun k outside => ?_⟩
      · rw [List.map_cons, placed, others _ absent, assigns, if_pos rfl]
        rfl
      · obtain ⟨differs, outside⟩ := not_or.mp (mt List.mem_cons.mpr outside)
        rw [others k outside, assigns, if_neg differs]

end OrderBook

end BitCrystal
