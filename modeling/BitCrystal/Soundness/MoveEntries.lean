import BitCrystal.Model.WalletFile

/-! # The two entries of a move

The results of the writes inside of the transaction are dropped. A move keeps the sum of the entries unless one of
the two entries is written, the other is not, and the transaction is committed.
-/

namespace BitCrystal

open StateAction AList TxnStore

/-- The sum of the accounting entries of the file. -/
def accountingWeight : WalletKey → WalletRecord → ℤ
  | .acentry _ _, .acentry acentry => acentry.nCreditDebit
  | _, _ => 0

/-- The number of an entry that is stored is not above the counter, and the counters do not run over. -/
structure NumberedBook extends AccountBook where
  numbered : ∀ strAccount n, WalletKey.acentry strAccount n ∈ walletdb.file → n ≤ nAccountingEntryNumber
  numbers : nAccountingEntryNumber + 2 < 2 ^ 64
  positions : InInt64 nOrderPosNext ∧ InInt64 (nOrderPosNext + 2)

/-- What is asked for, and when. -/
structure MoveRequest where
  strFrom : String
  strTo : String
  nAmount : ℤ
  nNow : ℤ
  strComment : String

namespace MoveRequest

def debit (request : MoveRequest) (nOrderPos : ℤ) : CAccountingEntry where
  strAccount := request.strFrom
  nCreditDebit := -request.nAmount
  nTime := request.nNow
  strOtherAccount := request.strTo
  strComment := request.strComment
  nOrderPos := nOrderPos

def credit (request : MoveRequest) (nOrderPos : ℤ) : CAccountingEntry where
  strAccount := request.strTo
  nCreditDebit := request.nAmount
  nTime := request.nNow
  strOtherAccount := request.strFrom
  strComment := request.strComment
  nOrderPos := nOrderPos

end MoveRequest

namespace AccountBook

variable {ok : ℕ → Bool} {file records : WalletRecords} {n nNumber : ℕ} {nOrderPos : ℤ}

/-- The records after an entry, with the calls from a number on. -/
def enter (ok : ℕ → Bool) (n : ℕ) (acentry : CAccountingEntry) (nNumber : ℕ) (records : WalletRecords) : WalletRecords :=
  let records := if ok n then records.insert .orderposnext (.orderposnext (acentry.nOrderPos + 1)) else records
  if ok (n + 1) then records.insert (.acentry acentry.strAccount nNumber) (.acentry acentry) else records

theorem lookup_enter {acentry : CAccountingEntry} (strAccount : String) (m : ℕ) :
    (enter ok n acentry nNumber records).lookup (.acentry strAccount m) =
      if ok (n + 1) ∧ strAccount = acentry.strAccount ∧ m = nNumber then some (.acentry acentry)
      else records.lookup (.acentry strAccount m) := by
  have position : (if ok n then records.insert .orderposnext (.orderposnext (acentry.nOrderPos + 1))
      else records).lookup (.acentry strAccount m) = records.lookup (.acentry strAccount m) := by
    split
    · exact lookup_insert_ne nofun
    · rfl
  unfold enter
  dsimp only
  generalize (if ok n then records.insert .orderposnext (.orderposnext (acentry.nOrderPos + 1))
    else records) = between at position ⊢
  split
  next good =>
    split
    next same =>
      obtain ⟨-, rfl, rfl⟩ := same
      exact lookup_insert _
    next other =>
      have apart : WalletKey.acentry strAccount m ≠ .acentry acentry.strAccount nNumber := by
        rintro ⟨⟩
        exact other ⟨good, rfl, rfl⟩
      rw [lookup_insert_ne apart, position]
  next bad =>
    rw [if_neg fun both => bad both.1, position]

theorem total_enter {acentry : CAccountingEntry} (fresh : .acentry acentry.strAccount nNumber ∉ records) :
    total accountingWeight (enter ok n acentry nNumber records) =
      (if ok (n + 1) then acentry.nCreditDebit else 0) + total accountingWeight records := by
  unfold enter
  dsimp only
  have position : total accountingWeight (if ok n then
      records.insert .orderposnext (.orderposnext (acentry.nOrderPos + 1)) else records) =
        total accountingWeight records := by
    split
    · exact total_insert_of_weightless _ fun _ => rfl
    · rfl
  have still : .acentry acentry.strAccount nNumber ∉ if ok n then
      records.insert .orderposnext (.orderposnext (acentry.nOrderPos + 1)) else records := by
    split
    · rw [mem_insert]
      rintro (⟨⟨⟩⟩ | member)
      exact fresh member
    · exact fresh
  split
  · rw [total_insert_of_notMem _ still, position]
    rfl
  · rw [position, zero_add]

theorem incOrderPosNext_active (bound : InInt64 (nOrderPos + 1)) :
    incOrderPosNext ok ⟨⟨file, some records, n⟩, nOrderPos, nNumber⟩ = (.ok nOrderPos,
      ⟨⟨file, some (if ok n then records.insert .orderposnext (.orderposnext (nOrderPos + 1)) else records), n + 1⟩,
        nOrderPos + 1, nNumber⟩) := by
  have counted : int64 (nOrderPos + 1) = .ok (nOrderPos + 1) := if_pos bound
  simp only [incOrderPosNext, bind, StateAction.get, StateAction.lift, counted, StateAction.modify, onDB,
    CWalletDB.writeOrderPosNext, put_active]
  rfl

theorem moveEntry_active {strAccount strOtherAccount strComment : String} {nCreditDebit nTime : ℤ}
    (bound : InInt64 (nOrderPos + 1)) (number : nNumber + 1 < 2 ^ 64) :
    moveEntry ok strAccount nCreditDebit nTime strOtherAccount strComment
        ⟨⟨file, some records, n⟩, nOrderPos, nNumber⟩ = (.ok (), ⟨⟨file, some (enter ok n
          { strAccount, nCreditDebit, nTime, strOtherAccount, strComment, nOrderPos } (nNumber + 1) records), n + 2⟩,
        nOrderPos + 1, nNumber + 1⟩) := by
  rw [moveEntry, bind_of_ok (incOrderPosNext_active bound)]
  simp only [writeAccountingEntry, bind, StateAction.get, StateAction.modify, onDB, CWalletDB.writeAccountingEntry,
    put_active, Nat.mod_eq_of_lt number]
  rfl

/-! ## The command -/

/-- The records that the transaction ends with. -/
def entered (ok : ℕ → Bool) (book : AccountBook) (request : MoveRequest) : WalletRecords :=
  enter ok 3 (request.credit (book.nOrderPosNext + 1)) (book.nAccountingEntryNumber + 2)
    (enter ok 1 (request.debit book.nOrderPosNext) (book.nAccountingEntryNumber + 1) book.walletdb.file)

/-- `movecmd` for a request. -/
def move (ok : ℕ → Bool) (book : AccountBook) (request : MoveRequest) : Check Bool × AccountBook :=
  book.movecmd ok request.strFrom request.strTo request.nAmount request.nNow request.strComment

/-- Without a transaction nothing is done. -/
theorem moveThrough_failed {strFrom strTo strComment : String} {nAmount nNow : ℤ} (begun : ok 0 = false) :
    moveThrough ok strFrom strTo nAmount nNow strComment ⟨.new file, nOrderPos, nNumber⟩ =
      (.error (.throws "database error"), ⟨⟨file, none, 1⟩, nOrderPos, nNumber⟩) := by
  have first : onDB (begin ok) ⟨.new file, nOrderPos, nNumber⟩ =
      (.ok false, ⟨⟨file, none, 1⟩, nOrderPos, nNumber⟩) := by
    rw [onDB, new, begin_of_failed begun]
  rw [moveThrough, bind_of_ok first]
  rfl

/-- Inside of the transaction all calls are made, and the last one decides. -/
theorem moveThrough_begun {strFrom strTo strComment : String} {nAmount nNow : ℤ} (begun : ok 0 = true)
    (first : InInt64 (nOrderPos + 1)) (second : InInt64 (nOrderPos + 1 + 1)) (numbers : nNumber + 2 < 2 ^ 64) :
    moveThrough ok strFrom strTo nAmount nNow strComment ⟨.new file, nOrderPos, nNumber⟩ =
      (if ok 5 then .ok true else .error (.throws "database error"),
        ⟨⟨if ok 5 then entered ok ⟨.new file, nOrderPos, nNumber⟩ ⟨strFrom, strTo, nAmount, nNow, strComment⟩ else file,
          none, 6⟩, nOrderPos + 1 + 1, nNumber + 1 + 1⟩) := by
  have start : onDB (begin ok) ⟨.new file, nOrderPos, nNumber⟩ =
      (.ok true, ⟨⟨file, some file, 1⟩, nOrderPos, nNumber⟩) := by
    rw [onDB, new, begin_of_ok begun]
  rw [moveThrough, bind_of_ok start]
  dsimp only
  rw [if_neg (not_not.mpr rfl), bind_of_ok (moveEntry_active first (by omega)),
    bind_of_ok (moveEntry_active second (by omega))]
  simp only [onDB, bind, commit_active]
  cases ok 5 <;> rfl

/-- The command succeeds if the transaction begins and is committed; else the file is left as it is. -/
theorem move_spec (ok : ℕ → Bool) (book : NumberedBook) (request : MoveRequest) :
    (book.move ok request).1 = (if ok 0 ∧ ok 5 then .ok true else .error (.throws "database error")) ∧
    (book.move ok request).2.walletdb.file =
      (if ok 0 ∧ ok 5 then entered ok book.toAccountBook request else book.walletdb.file) ∧
    (book.move ok request).2.nAccountingEntryNumber =
      if ok 0 then book.nAccountingEntryNumber + 2 else book.nAccountingEntryNumber := by
  obtain ⟨⟨⟨file, active, calls⟩, nOrderPos, nNumber⟩, -, numbers, low, high⟩ := book
  dsimp only at numbers low high
  have first : InInt64 (nOrderPos + 1) := ⟨by have := low.1; omega, by have := high.2; omega⟩
  have second : InInt64 (nOrderPos + 1 + 1) := by rwa [add_assoc]
  rw [move, movecmd]
  dsimp only
  cases begun : ok 0 with
  | false =>
    rw [moveThrough_failed begun]
    exact ⟨rfl, rfl, rfl⟩
  | true =>
    rw [moveThrough_begun begun first second numbers]
    cases ok 5 <;> exact ⟨rfl, rfl, rfl⟩

/-- Both entries are stored and the command succeeds, or the entries are what they were. -/
def Atomic (ok : ℕ → Bool) (book : AccountBook) (request : MoveRequest) : Prop :=
  ((book.move ok request).1 = .ok true ∧
    (book.move ok request).2.walletdb.file.lookup (.acentry request.strFrom (book.nAccountingEntryNumber + 1)) =
      some (.acentry (request.debit book.nOrderPosNext)) ∧
    (book.move ok request).2.walletdb.file.lookup (.acentry request.strTo (book.nAccountingEntryNumber + 2)) =
      some (.acentry (request.credit (book.nOrderPosNext + 1)))) ∨
  ∀ strAccount n, (book.move ok request).2.walletdb.file.lookup (.acentry strAccount n) =
    book.walletdb.file.lookup (.acentry strAccount n)

/-- The next two numbers are not in use. -/
theorem fresh (book : NumberedBook) (strAccount : String) {n : ℕ} (later : book.nAccountingEntryNumber < n) :
    WalletKey.acentry strAccount n ∉ book.walletdb.file := by
  intro member
  have bound := book.numbered strAccount n member
  omega

theorem lookup_entered (ok : ℕ → Bool) (book : AccountBook) (request : MoveRequest) (strAccount : String) (n : ℕ) :
    (entered ok book request).lookup (.acentry strAccount n) =
      if ok 4 ∧ strAccount = request.strTo ∧ n = book.nAccountingEntryNumber + 2 then
        some (.acentry (request.credit (book.nOrderPosNext + 1)))
      else if ok 2 ∧ strAccount = request.strFrom ∧ n = book.nAccountingEntryNumber + 1 then
        some (.acentry (request.debit book.nOrderPosNext))
      else book.walletdb.file.lookup (.acentry strAccount n) := by
  rw [entered, lookup_enter, lookup_enter]
  rfl

theorem total_entered (ok : ℕ → Bool) (book : NumberedBook) (request : MoveRequest) :
    total accountingWeight (entered ok book.toAccountBook request) =
      (if ok 4 then request.nAmount else 0) + ((if ok 2 then -request.nAmount else 0) +
        total accountingWeight book.walletdb.file) := by
  have debit : WalletKey.acentry request.strFrom (book.nAccountingEntryNumber + 1) ∉ book.walletdb.file :=
    fresh book _ (by omega)
  have credit : WalletKey.acentry request.strTo (book.nAccountingEntryNumber + 2) ∉
      enter ok 1 (request.debit book.nOrderPosNext) (book.nAccountingEntryNumber + 1) book.walletdb.file := by
    rw [← lookup_eq_none, lookup_enter, if_neg (by omega), lookup_eq_none]
    exact fresh book _ (by omega)
  rw [entered, total_enter credit, total_enter debit]
  rfl

/-- A move is atomic and keeps the sum of the entries if and only if it is not committed or both entries are written
or none. -/
theorem move_atomic_iff (ok : ℕ → Bool) (book : NumberedBook) (request : MoveRequest) :
    (Atomic ok book.toAccountBook request ∧ total accountingWeight (book.move ok request).2.walletdb.file =
        total accountingWeight book.walletdb.file) ↔ ok 0 = false ∨ ok 5 = false ∨ ok 2 = ok 4 := by
  obtain ⟨result, file, -⟩ := move_spec ok book request
  have debitFresh := lookup_eq_none.mpr (fresh book request.strFrom (Nat.lt_succ_self _))
  have creditFresh := lookup_eq_none.mpr (fresh book request.strTo (Nat.lt_add_of_pos_right (by decide : 0 < 2)))
  unfold Atomic
  by_cases committed : ok 0 = true ∧ ok 5 = true
  · rw [if_pos committed] at result file
    rw [file, result, total_entered]
    rw [committed.1, committed.2]
    simp only [Bool.true_eq_false, false_or, lookup_entered]
    cases debit : ok 2 with
    | false =>
      cases credit : ok 4 with
      | false =>
        refine iff_of_true ⟨.inr fun strAccount n => ?_, by simp⟩ rfl
        simp
      | true =>
        refine iff_of_false ?_ nofun
        rintro ⟨⟨-, stored, -⟩ | same, -⟩
        · simp [debitFresh] at stored
        · have changed := same request.strTo (book.nAccountingEntryNumber + 2)
          simp [creditFresh] at changed
    | true =>
      cases credit : ok 4 with
      | false =>
        refine iff_of_false ?_ nofun
        rintro ⟨⟨-, -, stored⟩ | same, -⟩
        · simp [creditFresh] at stored
        · have changed := same request.strFrom (book.nAccountingEntryNumber + 1)
          simp [debitFresh] at changed
      | true => exact iff_of_true ⟨.inl ⟨trivial, by simp, by simp⟩, by simp⟩ rfl
  · rw [if_neg committed] at file
    rw [file]
    have failed : ok 0 = false ∨ ok 5 = false ∨ ok 2 = ok 4 := by
      rcases Bool.eq_false_or_eq_true (ok 0) with first | first
      · rcases Bool.eq_false_or_eq_true (ok 5) with last | last
        · exact absurd ⟨first, last⟩ committed
        · exact .inr (.inl last)
      · exact .inl first
    exact iff_of_true ⟨.inr fun _ _ => rfl, rfl⟩ failed

variable {book : AccountBook}

/-- The counters leave room for so many moves. -/
structure Roomy (rounds : ℕ) (book : AccountBook) : Prop where
  numbered : ∀ strAccount n, WalletKey.acentry strAccount n ∈ book.walletdb.file → n ≤ book.nAccountingEntryNumber
  numbers : book.nAccountingEntryNumber + 2 * rounds < 2 ^ 64
  low : -2 ^ 63 ≤ book.nOrderPosNext
  high : book.nOrderPosNext + 2 * rounds < 2 ^ 63

/-- The entries are still there. -/
def Keeps (before after : WalletRecords) : Prop :=
  ∀ strAccount n r, before.lookup (.acentry strAccount n) = some r → after.lookup (.acentry strAccount n) = some r

/-- This is so whatever fails. -/
theorem Roomy.step {rounds : ℕ} (roomy : Roomy (rounds + 1) book) (ok : ℕ → Bool) (request : MoveRequest) :
    Roomy rounds (book.move ok request).2 ∧ Keeps book.walletdb.file (book.move ok request).2.walletdb.file := by
  obtain ⟨numbered, numbers, low, high⟩ := roomy
  have bounded (strAccount : String) (n : ℕ) (member : WalletKey.acentry strAccount n ∈ entered ok book request) :
      n ≤ book.nAccountingEntryNumber + 2 := by
    by_contra above
    rw [← lookup_isSome, lookup_entered, if_neg (by omega), if_neg (by omega), lookup_isSome] at member
    exact above ((numbered _ _ member).trans (by omega))
  have kept : Keeps book.walletdb.file (entered ok book request) := by
    intro strAccount n r found
    have below := numbered strAccount n (lookup_isSome.mp (found ▸ rfl))
    rw [lookup_entered, if_neg (by omega), if_neg (by omega), found]
  rw [move, movecmd]
  cases begun : ok 0 with
  | false =>
    rw [moveThrough_failed begun]
    exact ⟨⟨numbered, by dsimp only; omega, low, by dsimp only; omega⟩, fun _ _ _ found => found⟩
  | true =>
    rw [moveThrough_begun begun ⟨by omega, by omega⟩ ⟨by omega, by omega⟩ (by omega)]
    refine ⟨⟨?_, by dsimp only; omega, by dsimp only; omega, by dsimp only; omega⟩, ?_⟩
    · cases ok 5 with
      | false => exact fun strAccount n member => (numbered strAccount n member).trans (by dsimp only; omega)
      | true => exact bounded
    · cases ok 5 with
      | false => exact fun _ _ _ found => found
      | true => exact kept

/-- Moves one after the other, each with the failures of its calls. -/
def moves (book : AccountBook) (calls : List ((ℕ → Bool) × MoveRequest)) : AccountBook :=
  calls.foldl (fun book call => (book.move call.1 call.2).2) book

/-- No run of moves overwrites an entry or runs into a number that is in use. -/
theorem moves_keep (calls : List ((ℕ → Bool) × MoveRequest)) (roomy : Roomy calls.length book) :
    Roomy 0 (book.moves calls) ∧ Keeps book.walletdb.file (book.moves calls).walletdb.file := by
  induction calls generalizing book with
  | nil => exact ⟨roomy, fun _ _ _ found => found⟩
  | cons call calls ih =>
    obtain ⟨roomy', step⟩ := roomy.step call.1 call.2
    obtain ⟨ended, kept⟩ := ih roomy'
    exact ⟨ended, fun _ _ _ found => kept _ _ _ (step _ _ _ found)⟩

end AccountBook

namespace TestNet

/-- A wallet without entries. -/
def newBook : NumberedBook where
  walletdb := .new ∅
  nOrderPosNext := 0
  nAccountingEntryNumber := 0
  numbered _ _ member := absurd member (notMem_empty _)
  numbers := by decide
  positions := by decide

/-- Five coins from one account to another. -/
def fiveCoins : MoveRequest := ⟨"savings", "spending", 500000, 1500000000, ""⟩

end TestNet

open TestNet in
/-- The credit entry is not written: the command succeeds, and five coins are gone. -/
theorem AccountBook.move_loses : (newBook.move (fun n => n ≠ 4) fiveCoins).1 = .ok true ∧
    total accountingWeight newBook.walletdb.file = 0 ∧
    total accountingWeight (newBook.move (fun n => n ≠ 4) fiveCoins).2.walletdb.file = -500000 ∧
    ¬ Atomic (fun n => n ≠ 4) newBook.toAccountBook fiveCoins := by
  refine ⟨by decide, by decide, by decide, ?_⟩
  rintro (⟨-, -, stored⟩ | same)
  · exact absurd stored (by decide)
  · exact absurd (same "savings" 1) (by decide)

open TestNet in
/-- A book with one entry. -/
def AccountBook.used : AccountBook where
  walletdb := .new ((∅ : WalletRecords).insert (.acentry "spending" 1) (.acentry (fiveCoins.credit 0)))
  nOrderPosNext := 1
  nAccountingEntryNumber := 1

open TestNet in
/-- A move that loses its credit, and another one: the entry is still there. -/
theorem AccountBook.moves_keep_used :
    let after := used.moves [(fun n => n ≠ 4, fiveCoins), (fun _ => true, fiveCoins)]
    Roomy 0 after ∧ Keeps used.walletdb.file after.walletdb.file ∧
      after.walletdb.file.lookup (.acentry "spending" 1) = some (.acentry (fiveCoins.credit 0)) := by
  have numbered : ∀ strAccount n, WalletKey.acentry strAccount n ∈ used.walletdb.file → n ≤ used.nAccountingEntryNumber := by
    intro strAccount n member
    rcases mem_insert _ |>.mp member with same | nothing
    · cases same
      exact le_rfl
    · exact absurd nothing (notMem_empty _)
  obtain ⟨roomy, kept⟩ := moves_keep [(fun n => n ≠ 4, fiveCoins), (fun _ => true, fiveCoins)]
    ⟨numbered, by decide, by decide, by decide⟩
  exact ⟨roomy, kept, kept _ _ _ (lookup_insert _)⟩

end BitCrystal
