import BitCrystal.Model.ListTransactions
import BitCrystal.Soundness.SpentFlags

/-! # The pages of `listtransactions`

The loop stops at the entries of the newest items as soon as they are enough, or leaves the entries of all items. The
cut keeps inside of what is there and leaves a page of it. All of this depends on `int` sums and on the number of
entries being an `int`.
-/

namespace BitCrystal

open Check TestNet

theorem int32_of {n : ℤ} (bounds : InInt32 n) : int32 n = .ok n := if_pos bounds

theorem toInt_of_lt {n : ℕ} (bound : n < 2 ^ 31) : toInt n = n := Int.bmod_eq_of_le (by omega) (by omega)

theorem toInt_bounds (n : ℤ) : InInt32 (toInt n) :=
  ⟨Int.le_bmod (by decide), Int.bmod_lt (by decide)⟩

theorem toInt_le (n : ℕ) : toInt n ≤ n := by
  rw [toInt, Int.bmod_def]
  split_ifs <;> omega

/-- What is left behind a position that is no further than the number as an `int`. -/
theorem toInt_sub {n first : ℕ} (inside : (first : ℤ) ≤ toInt n) : toInt ((n : ℤ) - first) = toInt n - first := by
  have bounds := toInt_bounds n
  rw [toInt, Int.bmod_def] at inside bounds ⊢
  rw [toInt, Int.bmod_def]
  unfold InInt32 at bounds
  split_ifs at * <;> omega

namespace ActivityLog

section

variable {ret : List Object} {first last : ℕ}

theorem advance_inside (inside : first ≤ ret.length) : advance ret first = .ok first := by
  rw [advance, rejectIf, if_neg (by omega), Int.toNat_natCast]
  rfl

theorem advance_outside {n : ℤ} (negative : n < 0) : advance ret n = .error .undefined := by
  rw [advance, rejectIf, if_pos (.inl negative)]
  rfl

theorem erase_end (inside : last ≤ ret.length) : erase ret last ret.length = .ok (ret.take last) := by
  rw [erase]
  split_ifs with before
  · rw [rejectIf, if_neg (not_not.mpr ⟨inside, le_rfl⟩), List.drop_length, List.append_nil]
    rfl
  · rw [not_not.mp before, List.take_length]

theorem erase_begin (inside : first ≤ ret.length) : erase ret 0 first = .ok (ret.drop first) := by
  rw [erase]
  split_ifs with behind
  · rw [rejectIf, if_neg (not_not.mpr ⟨Nat.zero_le first, inside⟩), List.take_zero, List.nil_append]
    rfl
  · rw [← not_not.mp behind, List.drop_zero]

/-- The cut by the positions it finds. -/
theorem clip_between {nCount nFrom : ℤ} (skipped : (if nFrom > toInt ret.length then toInt ret.length else nFrom) = first)
    (fits : InInt32 (first + nCount))
    (counted : (if first + nCount > toInt ret.length then toInt (ret.length - first) else nCount) = (last : ℤ) - first)
    (ordered : first ≤ last) (inside : last ≤ ret.length) (bound : last < 2 ^ 31) :
    clip nCount nFrom ret = .ok ((ret.drop first).take (last - first)).reverse := by
  have sum : (first : ℤ) + (last - first) = last := by omega
  have fits' : InInt32 last := ⟨by omega, by omega⟩
  have kept : first ≤ (ret.take last).length := by
    rw [List.length_take]
    omega
  simp only [clip, skipped, int32_of fits, ok_bind, counted, sum, int32_of fits',
    advance_inside (ordered.trans inside), advance_inside inside, erase_end inside, erase_begin kept]
  rw [List.drop_take]
  rfl

end

section

variable {ret : List Object} {nCount nFrom : ℕ}

/-- There is all that is asked for. -/
theorem clip_enough (enough : ((nFrom + nCount : ℕ) : ℤ) ≤ toInt ret.length) :
    clip nCount nFrom ret = .ok ((ret.drop nFrom).take nCount).reverse := by
  have bounds := toInt_bounds ret.length
  have inside := toInt_le ret.length
  unfold InInt32 at bounds
  have clipped : clip nCount nFrom ret = .ok ((ret.drop nFrom).take (nFrom + nCount - nFrom)).reverse := by
    apply clip_between _ ⟨by omega, by omega⟩ _ (by omega) (by omega) (by omega)
    · rw [if_neg (by omega)]
    · rw [if_neg (by omega)]
      omega
  rwa [Nat.add_sub_cancel_left] at clipped

/-- There is less than what is asked for. -/
theorem clip_short {size : ℕ} (sized : toInt ret.length = size) (count : nCount < 2 ^ 31)
    (sum : nCount + nFrom < 2 ^ 31) (short : size < nCount + nFrom) :
    clip nCount nFrom ret = .ok ((ret.drop (min nFrom size)).take (size - min nFrom size)).reverse := by
  have inside := toInt_le ret.length
  have bounds := toInt_bounds ret.length
  unfold InInt32 at bounds
  rw [sized] at inside bounds
  have skipped : (if (nFrom : ℤ) > toInt ret.length then toInt ret.length else nFrom) = (min nFrom size : ℕ) := by
    rw [sized]
    split_ifs <;> omega
  have left : toInt ((ret.length : ℤ) - (min nFrom size : ℕ)) = size - (min nFrom size : ℕ) := by
    rw [toInt_sub (by omega), sized]
  apply clip_between skipped ⟨by omega, by omega⟩ _ (by omega) (by omega) (by omega)
  rw [left, sized]
  split_ifs <;> omega

theorem clip_outside (negative : toInt ret.length < 0) (count : nCount < 2 ^ 31) :
    clip nCount nFrom ret = .error .undefined := by
  have bounds := toInt_bounds ret.length
  unfold InInt32 at bounds
  simp only [clip, if_pos (show (nFrom : ℤ) > toInt ret.length by omega),
    int32_of (show InInt32 (toInt ret.length + nCount) from ⟨by omega, by omega⟩), ok_bind,
    advance_outside negative, error_bind]

end

section

variable {crypto : Crypto} {P : Platform} {node : Node} {fTestNet : Bool} {log : ActivityLog} {strAccount : String}
  {nCount nFrom : ℕ} {items : List ActivityItem}

/-- The loop stops behind the first items that give enough. -/
theorem listLoop_eq (fits : InInt32 ((nCount : ℤ) + nFrom)) {groups : List (List Object)}
    (listed : items.mapM (log.entriesOf crypto P node fTestNet strAccount) = .ok groups) (ret : List Object) :
    ∃ k ≤ groups.length,
      log.listLoop crypto P node fTestNet strAccount nCount nFrom items ret = .ok (ret ++ (groups.take k).flatten) ∧
      (0 < k ∧ (nCount : ℤ) + nFrom ≤ toInt (ret ++ (groups.take k).flatten).length ∨
        k = groups.length ∧ ∀ j, 0 < j → j ≤ groups.length →
          toInt (ret ++ (groups.take j).flatten).length < (nCount : ℤ) + nFrom) := by
  induction items generalizing groups ret with
  | nil =>
    rw [List.mapM_nil] at listed
    cases listed
    refine ⟨0, le_rfl, ?_, .inr ⟨rfl, fun j positive within => absurd within (not_le.mpr positive)⟩⟩
    rw [listLoop, List.take_nil, List.flatten_nil, List.append_nil]
  | cons item items ih =>
    rw [List.mapM_cons] at listed
    obtain ⟨entries, first, continued⟩ := bind_eq_ok.mp listed
    obtain ⟨rest, others, same⟩ := bind_eq_ok.mp continued
    cases same
    rw [listLoop, first, ok_bind, int32_of fits, ok_bind]
    by_cases enough : (nCount : ℤ) + nFrom ≤ toInt (ret ++ entries).length
    · refine ⟨1, by simp, ?_, .inl ⟨one_pos, ?_⟩⟩
      · rw [if_pos enough, List.take_succ_cons, List.take_zero, List.flatten_singleton]
        rfl
      · rwa [List.take_succ_cons, List.take_zero, List.flatten_singleton]
    · obtain ⟨k, le, looped, outcome⟩ := ih others (ret ++ entries)
      refine ⟨k + 1, Nat.succ_le_succ le, ?_, ?_⟩
      · rw [if_neg enough, looped, List.take_succ_cons, List.flatten_cons, List.append_assoc]
      · rw [List.take_succ_cons, List.flatten_cons, ← List.append_assoc]
        rcases outcome with ⟨positive, reached⟩ | ⟨rfl, short⟩
        · exact .inl ⟨k.succ_pos, reached⟩
        · refine .inr ⟨rfl, fun j positive inside => ?_⟩
          obtain ⟨j, rfl⟩ := Nat.exists_eq_succ_of_ne_zero positive.ne'
          rw [List.take_succ_cons, List.flatten_cons, ← List.append_assoc]
          rcases Nat.eq_zero_or_pos j with rfl | positive
          · rw [List.take_zero, List.flatten_nil, List.append_nil]
            exact not_le.mp enough
          · exact short j positive (Nat.le_of_succ_le_succ inside)

theorem listLoop_overflow (unfit : ¬InInt32 ((nCount : ℤ) + nFrom))
    {groups : List (List Object)} (listed : items.mapM (log.entriesOf crypto P node fTestNet strAccount) = .ok groups)
    (nonempty : groups ≠ []) (ret : List Object) :
    log.listLoop crypto P node fTestNet strAccount nCount nFrom items ret = .error .overflow := by
  cases items with
  | nil =>
    rw [List.mapM_nil] at listed
    cases listed
    exact absurd rfl nonempty
  | cons item items =>
    rw [List.mapM_cons] at listed
    obtain ⟨entries, first, -⟩ := bind_eq_ok.mp listed
    rw [listLoop, first, ok_bind, int32, if_neg unfit, error_bind]

theorem listLoop_nil
    (listed : items.mapM (log.entriesOf crypto P node fTestNet strAccount) = .ok []) (ret : List Object) :
    log.listLoop crypto P node fTestNet strAccount nCount nFrom items ret = .ok ret := by
  cases items with
  | nil => rfl
  | cons item items =>
    rw [List.mapM_cons] at listed
    obtain ⟨entries, -, continued⟩ := bind_eq_ok.mp listed
    obtain ⟨rest, -, same⟩ := bind_eq_ok.mp continued
    cases same

end

/-- The entries of some of the newest items are as many as an `int` as the page goes back. -/
def Enough (nCount nFrom : ℕ) (groups : List (List Object)) : Prop :=
  ∃ k, 0 < k ∧ k ≤ groups.length ∧ (nCount : ℤ) + nFrom ≤ toInt (groups.take k).flatten.length

/-- There are no items; or the sum is an `int` and so is the number of entries, unless the newest items give enough or
nothing is asked for. -/
def Pageable (nCount nFrom : ℕ) (groups : List (List Object)) : Prop :=
  groups = [] ∨ nCount + nFrom < 2 ^ 31 ∧
    (groups.flatten.length < 2 ^ 31 ∨ Enough nCount nFrom groups ∨ nCount = 0 ∧ 0 ≤ toInt groups.flatten.length)

/-- The page of a list. -/
def page (nCount nFrom : ℕ) (entries : List Object) : List Object := ((entries.drop nFrom).take nCount).reverse

variable {nCount nFrom : ℕ}

theorem page_of_prefix {newest entries : List Object} (newer : newest <+: entries)
    (enough : nFrom + nCount ≤ newest.length) : page nCount nFrom newest = page nCount nFrom entries := by
  obtain ⟨older, rfl⟩ := newer
  rw [page, page, List.drop_append_of_le_length (by omega), List.take_append_of_le_length]
  rw [List.length_drop]
  omega

theorem flatten_take_front (groups : List (List Object)) (k : ℕ) : (groups.take k).flatten <+: groups.flatten :=
  ⟨(groups.drop k).flatten, by rw [← List.flatten_append, List.take_append_drop]⟩

/-- The cut of all entries when they are not enough. -/
theorem clip_all {entries : List Object} (count : nCount < 2 ^ 31) (sum : nCount + nFrom < 2 ^ 31)
    (short : toInt entries.length < (nCount : ℤ) + nFrom) :
    clip nCount nFrom entries = .ok (page nCount nFrom entries) ↔
      entries.length < 2 ^ 31 ∨ nCount = 0 ∧ 0 ≤ toInt entries.length := by
  rcases lt_or_ge (toInt entries.length) 0 with negative | nonneg
  · rw [clip_outside negative count]
    refine ⟨nofun, ?_⟩
    rintro (bound | ⟨-, nonneg⟩)
    · rw [toInt_of_lt bound] at negative
      omega
    · omega
  · obtain ⟨size, sized⟩ := Int.eq_ofNat_of_zero_le nonneg
    have inside := toInt_le entries.length
    rw [clip_short sized count sum (by omega), Except.ok.injEq, page, List.reverse_inj]
    rw [sized] at nonneg inside short ⊢
    constructor
    · intro same
      have lengths := congrArg List.length same
      rw [List.length_take, List.length_drop, List.length_take, List.length_drop] at lengths
      omega
    · rintro (bound | ⟨rfl, -⟩)
      · have whole : entries.length = size := by
          rw [toInt_of_lt bound] at sized
          exact_mod_cast sized
        rcases le_total nFrom size with before | behind
        · rw [min_eq_left before, List.take_of_length_le (by rw [List.length_drop]; omega),
            List.take_of_length_le (by rw [List.length_drop]; omega)]
        · rw [min_eq_right behind, List.drop_of_length_le (by omega), List.drop_of_length_le (by omega), List.take_nil,
            List.take_nil]
      · rw [min_eq_right (by omega), Nat.sub_self, List.take_zero, List.take_zero]

theorem clip_nil (count : nCount < 2 ^ 31) : clip nCount nFrom [] = .ok (page nCount nFrom []) := by
  have zero : toInt (([] : List Object).length : ℤ) = 0 := rfl
  have skipped : (if (nFrom : ℤ) > toInt (([] : List Object).length : ℤ) then toInt (([] : List Object).length : ℤ)
      else nFrom) = (0 : ℕ) := by
    rw [zero]
    split_ifs <;> omega
  have counted : (if ((0 : ℕ) : ℤ) + nCount > toInt (([] : List Object).length : ℤ) then
      toInt ((([] : List Object).length : ℤ) - (0 : ℕ)) else nCount) = ((0 : ℕ) : ℤ) - (0 : ℕ) := by
    rw [zero]
    split_ifs
    · rfl
    · omega
  have clipped := clip_between skipped ⟨by omega, by omega⟩ counted le_rfl le_rfl (by decide)
  rw [clipped, page, List.drop_nil, List.drop_nil, List.take_nil, List.take_nil]

/-- The page that is asked for is what is left, if and only if the sums and sizes are numbers of type `int`. -/
theorem listtransactions_pages (crypto : Crypto) (P : Platform) (node : Node) (fTestNet : Bool) (log : ActivityLog)
    (strAccount : String) {nCount nFrom : ℕ} (count : nCount < 2 ^ 31) (skip : nFrom < 2 ^ 31)
    {groups : List (List Object)} (listed : (log.orderedTxItems strAccount).reverse.mapM
      (log.entriesOf crypto P node fTestNet strAccount) = .ok groups) :
    log.listtransactions crypto P node fTestNet [.str strAccount, .int nCount, .int nFrom] =
      .ok (page nCount nFrom groups.flatten) ↔ Pageable nCount nFrom groups := by
  have run : log.listtransactions crypto P node fTestNet [.str strAccount, .int nCount, .int nFrom] =
      log.listLoop crypto P node fTestNet strAccount nCount nFrom (log.orderedTxItems strAccount).reverse [] >>=
        clip nCount nFrom := by
    have counted : Value.getInt (.int nCount) = .ok (nCount : ℤ) := by rw [Value.getInt, toInt_of_lt count]
    have skipped : Value.getInt (.int nFrom) = .ok (nFrom : ℤ) := by rw [Value.getInt, toInt_of_lt skip]
    have noCount : rejectIf ((nCount : ℤ) < 0) (.throws "Negative count") = .ok () := if_neg (by omega)
    have noFrom : rejectIf ((nFrom : ℤ) < 0) (.throws "Negative from") = .ok () := if_neg (by omega)
    simp only [listtransactions, List.length_cons, List.length_nil, List.getElem?_cons_zero, List.getElem?_cons_succ,
      Option.map_some, Option.getD_some, counted, skipped, Value.getStr, ok_bind, noCount, noFrom]
    rfl
  rw [run, Pageable]
  by_cases empty : groups = []
  · rw [empty] at listed
    rw [listLoop_nil listed, ok_bind, empty, List.flatten_nil, clip_nil count]
    exact ⟨fun _ => .inl rfl, fun _ => rfl⟩
  · by_cases sum : nCount + nFrom < 2 ^ 31
    · have fits : InInt32 ((nCount : ℤ) + nFrom) := ⟨by omega, by omega⟩
      obtain ⟨k, le, looped, outcome⟩ := listLoop_eq fits listed []
      rw [List.nil_append] at looped outcome
      rw [looped, ok_bind]
      rcases outcome with ⟨positive, reached⟩ | ⟨rfl, short⟩
      · have inside := toInt_le (groups.take k).flatten.length
        rw [clip_enough (by omega), ← page, page_of_prefix (flatten_take_front groups k) (by omega)]
        exact ⟨fun _ => .inr ⟨sum, .inr (.inl ⟨k, positive, le, reached⟩)⟩, fun _ => rfl⟩
      · have all := short groups.length (List.length_pos_iff.mpr empty) le_rfl
        rw [List.nil_append, List.take_length] at all
        rw [List.take_length, clip_all count sum all]
        constructor
        · rintro (bound | nothing)
          · exact .inr ⟨sum, .inl bound⟩
          · exact .inr ⟨sum, .inr (.inr nothing)⟩
        · rintro (no | ⟨-, bound | ⟨j, positive, inside, reached⟩ | nothing⟩)
          · exact absurd no empty
          · exact .inl bound
          · exact absurd reached (not_le.mpr (short j positive inside))
          · exact .inr nothing
    · rw [listLoop_overflow (fun fits => sum (by have := fits.2; omega)) listed empty, error_bind]
      constructor
      · intro same
        cases same
      · rintro (no | ⟨sum', -⟩)
        · exact absurd no empty
        · exact absurd sum' sum

end ActivityLog

namespace TestNet

/-- Three transfers between accounts, the last one the newest. -/
def moves : ActivityLog where
  acentries := [{ strAccount := "a", nOrderPos := 0 }, { strAccount := "b", nOrderPos := 1 },
    { strAccount := "a", nOrderPos := 2 }]
  sorted := .nil
  complete _ := ⟨nofun, fun present => absurd rfl present⟩

/-- Their entries, the newest first. -/
def movesEntries : List (List Object) :=
  moves.acentries.reverse.map (ActivityLog.acentryToJSON "*")

end TestNet

theorem ActivityLog.listtransactions_pages_moves :
    moves.listtransactions digests platform started false [.str "*", .int (1 : ℕ), .int (1 : ℕ)] =
      .ok (page 1 1 movesEntries.flatten) := by
  have listed : (moves.orderedTxItems "*").reverse.mapM (moves.entriesOf digests platform started false "*") =
      .ok movesEntries := rfl
  exact (ActivityLog.listtransactions_pages digests platform started false moves "*" (by decide) (by decide)
    listed).mpr (.inr ⟨by decide, .inl (by decide)⟩)

/-- Two of the three entries are asked for. -/
theorem ActivityLog.listtransactions_overflow :
    moves.listtransactions digests platform started false [.str "*", .int 2147483647, .int 1] = .error .overflow ∧
    (page 2147483647 1 movesEntries.flatten).length = 2 :=
  ⟨rfl, rfl⟩

end BitCrystal
