import BitCrystal.Model.TestNet
import BitCrystal.Model.WalletRecords
import BitCrystal.Proofs.TxCodec

/-! # Reading back the records of a wallet

Numbers and maps come first, then whole records.
-/

/-! ## Numbers, maps and merkle transactions in wallet records

A number written as text is read back, and so is a map, whose entries come in the order of their keys. A merkle
transaction is read back up to a comment that its version does not have.
-/

namespace BitCrystal

open LittleEndian Reader OrderedMap Decimal

namespace WalletRecords

theorem isspace_of_isDigit {c : UInt8} (digit : isDigit c = true) : isspace c = false := by
  obtain ⟨low, high⟩ := isDigit_iff.mp digit
  simp only [isspace, decide_eq_false_iff_not, UInt8.le_iff_toNat_le, ← UInt8.toNat_inj]
  change ¬(c.toNat = 32 ∨ 9 ≤ c.toNat ∧ c.toNat ≤ 13)
  omega

theorem ne_of_isDigit {c other : UInt8} (digit : isDigit c = true) (apart : isDigit other = false) : c ≠ other := by
  rintro rfl
  rw [digit] at apart
  cases apart

theorem magnitude_write (n : ℕ) : Decimal.value ((write n).takeWhile isdigit) = n := by
  have digits : (write n).takeWhile isdigit = write n :=
    List.takeWhile_eq_self_iff.mpr (isDigit_write n)
  rw [digits, value_write]

theorem cString_eq {str : valtype} (nonzero : ∀ c ∈ str, c ≠ 0) : cString str = str :=
  List.takeWhile_eq_self_iff.mpr fun c member => bne_iff_ne.mpr (nonzero c member)

theorem atoi64_write {n : ℕ} (bound : n < 2 ^ 63) : atoi64 (write n) = n := by
  have digits := isDigit_write n
  have value := magnitude_write n
  have whole : cString (write n) = write n :=
    cString_eq fun c member => ne_of_isDigit (digits c member) rfl
  obtain ⟨c, rest, written⟩ := List.exists_cons_of_ne_nil (write_ne_nil n)
  have first : isDigit c = true := digits c (by rw [written]; exact List.mem_cons_self)
  rw [atoi64, whole, written, List.dropWhile_cons_of_neg (by rw [isspace_of_isDigit first]; exact Bool.false_ne_true)]
  rw [written] at value
  split
  next same => exact absurd (List.cons.inj same).1 (ne_of_isDigit first rfl)
  next same => exact absurd (List.cons.inj same).1 (ne_of_isDigit first rfl)
  next =>
    change min ((Decimal.value ((c :: rest).takeWhile isdigit) : ℕ) : ℤ) (2 ^ 63 - 1) = n
    rw [value]
    omega

theorem atoi64_minus {n : ℕ} (bound : n ≤ 2 ^ 63) : atoi64 (minusChar :: write n) = -n := by
  have whole : cString (minusChar :: write n) = minusChar :: write n := by
    apply cString_eq
    intro c member
    rcases List.mem_cons.mp member with rfl | member
    · decide
    · exact ne_of_isDigit (isDigit_write n c member) rfl
  have text : (minusChar :: write n).dropWhile isspace = minusChar :: write n :=
    List.dropWhile_cons_of_neg (by decide)
  rw [atoi64, whole, text]
  change max (-((Decimal.value ((write n).takeWhile isdigit) : ℕ) : ℤ)) (-2 ^ 63) = -n
  rw [magnitude_write]
  omega

/-- Every number of type `int64` is read back. -/
theorem atoi64_i64tostr {n : ℤ} (bounds : InInt64 n) : atoi64 (i64tostr n) = n := by
  obtain ⟨low, high⟩ := bounds
  rw [i64tostr]
  split
  next negative => rw [atoi64_minus (by omega)]; omega
  next nonneg => rw [atoi64_write (by omega)]; omega

theorem length_i64tostr {n : ℤ} (bounds : InInt64 n) : (i64tostr n).length ≤ 20 := by
  obtain ⟨low, high⟩ := bounds
  have digits : (write n.natAbs).length ≤ 18 + 1 := length_write_le (by omega)
  rw [i64tostr]
  split
  · rw [List.length_cons]
    omega
  · omega

theorem readOrderPos_writeOrderPos {nOrderPos : ℤ} {mapValue : mapValue_t} (bounds : InInt64 nOrderPos)
    (free : mapValue.find? nKey = none) : readOrderPos (writeOrderPos nOrderPos mapValue) = nOrderPos := by
  rw [readOrderPos, writeOrderPos]
  split_ifs with unset
  · rw [free, unset]
  · rw [find?_insert_self]
    exact atoi64_i64tostr bounds

theorem find?_writeOrderPos {nOrderPos : ℤ} {mapValue : mapValue_t} {key : valtype} (other : key ≠ nKey) :
    (writeOrderPos nOrderPos mapValue).find? key = mapValue.find? key := by
  rw [writeOrderPos]
  split_ifs
  · rfl
  · rw [find?_insert, if_neg other]

variable {nMaxSize : ℕ}

/-- The sizes of both parts of a pair. -/
def Within (limit : ℕ) (item : valtype × valtype) : Prop := item.1.length ≤ limit ∧ item.2.length ≤ limit

instance (limit : ℕ) (item : valtype × valtype) : Decidable (Within limit item) := inferInstanceAs (Decidable (_ ∧ _))

theorem readsIff_pair {item : valtype × valtype} (fit : Within (2 ^ 64 - 1) item) :
    (readPair nMaxSize).ReadsIff (writePair item) item (Within nMaxSize item) := by
  obtain ⟨first, second⟩ := fit
  exact (readsIff_vector (by omega)).bind ((readsIff_vector (by omega)).map fun second => (item.1, second))

theorem readsIff_pairs {items : List (valtype × valtype)} (size : items.length < 2 ^ 64)
    (fit : ∀ item ∈ items, Within (2 ^ 64 - 1) item) :
    (readObjects nMaxSize (readPair nMaxSize)).ReadsIff (writeObjects writePair items) items
      (items.length ≤ nMaxSize ∧ ∀ item ∈ items, Within nMaxSize item) :=
  readsIff_objects size fun item member => readsIff_pair (fit item member)

theorem readsIff_map {mapValue : mapValue_t} (size : mapValue.size < 2 ^ 64)
    (fit : ∀ item ∈ mapValue.entries, Within (2 ^ 64 - 1) item) :
    (readMap nMaxSize).ReadsIff (writeMap mapValue) mapValue
      (mapValue.size ≤ nMaxSize ∧ ∀ item ∈ mapValue.entries, Within nMaxSize item) := by
  have mapped := (@readsIff_pairs nMaxSize _ size fit).map fun items => items.foldl insertNew ∅
  rwa [foldl_insertNew] at mapped

theorem reads_char (c : UInt8) : readChar.Reads [c] c := fun _ => rfl

end WalletRecords

namespace CMerkleTx

variable {nMaxSize : ℕ}

/-- The fields are values of the C++ types. -/
structure Representable (wtx : CMerkleTx) : Prop where
  tx : wtx.tx.Representable
  hashBlock : wtx.hashBlock < 2 ^ 256
  branchSize : wtx.vMerkleBranch.length < 2 ^ 64
  vMerkleBranch : ∀ hash ∈ wtx.vMerkleBranch, hash < 2 ^ 256
  nIndex : -2 ^ 31 ≤ wtx.nIndex ∧ wtx.nIndex < 2 ^ 31

/-- No vector is longer than the reader allows. -/
def Readable (nMaxSize : ℕ) (wtx : CMerkleTx) : Prop :=
  wtx.tx.Readable nMaxSize ∧ wtx.vMerkleBranch.length ≤ nMaxSize

/-- What is kept on disk: the comment belongs to a transaction from its version on. -/
def persistent (wtx : CMerkleTx) : CMerkleTx := { wtx with tx := CTransaction.readInto fresh.tx wtx.tx }

theorem readsIff {wtx : CMerkleTx} (fit : wtx.Representable) :
    (CMerkleTx.unserialize nMaxSize fresh).ReadsIff wtx.serialize wtx.persistent (wtx.Readable nMaxSize) := by
  have branch := @readsIff_objects nMaxSize _ (encode 32) (read 32) _ wtx.vMerkleBranch fit.branchSize fun hash member =>
    (@reads 32 hash (fit.vMerkleBranch hash member)).iff_true
  have index := @reads_int 4 wtx.nIndex (by have := fit.nIndex; omega) (by have := fit.nIndex; omega)
  have whole : (CMerkleTx.unserialize nMaxSize fresh).ReadsIff _ _ _ :=
    (CTransaction.readsIff fit.tx).bind ((@reads 32 _ fit.hashBlock).iff_true.bind (branch.bind (index.iff_true.map
      fun nIndex => CMerkleTx.mk (CTransaction.readInto fresh.tx wtx.tx) wtx.hashBlock wtx.vMerkleBranch nIndex)))
  exact whole.congr (by simp [Readable])

end CMerkleTx

/-! ## Reading back the records of a wallet

Accounting entries and wallet transactions are given back, and left as they are, if no comment has a NUL, no entry
uses the key of its position, and no string or vector is longer than the reader allows.
-/

namespace WalletRecords

namespace CAccountingEntry

variable {entry old : CAccountingEntry} {nVersion : ℤ} {nMaxSize : ℕ}

/-- What is put behind the comment of an entry. -/
def tail (entry : CAccountingEntry) : List UInt8 := extra (writeOrderPos entry.nOrderPos entry.mapValue) entry._ssExtra

/-- The fields are values of the C++ types, and the comment that is written is a string. -/
structure Representable (entry : CAccountingEntry) : Prop where
  nCreditDebit : InInt64 entry.nCreditDebit
  nTime : InInt64 entry.nTime
  nOrderPos : InInt64 entry.nOrderPos
  otherAccount : entry.strOtherAccount.length < 2 ^ 64
  comment : (entry.strComment ++ entry.tail).length < 2 ^ 64

theorem takeWhile_extra (mapValue : mapValue_t) (_ssExtra : List UInt8) :
    (extra mapValue _ssExtra).takeWhile (fun c => c != 0) = [] ∧
      (extra mapValue _ssExtra).dropWhile (fun c => c != 0) = extra mapValue _ssExtra := by
  rw [extra]
  split_ifs <;> exact ⟨rfl, rfl⟩

theorem all_nonzero {str : valtype} (separated : 0 ∉ str) : ∀ c ∈ str, (c != 0) = true := by
  intro c member
  rw [bne_iff_ne]
  rintro rfl
  exact separated member

theorem takeWhile_comment {str : valtype} (separated : 0 ∉ str) (mapValue : mapValue_t) (_ssExtra : List UInt8) :
    (str ++ extra mapValue _ssExtra).takeWhile (fun c => c != 0) = str := by
  rw [List.takeWhile_append_of_pos (all_nonzero separated), (takeWhile_extra ..).1, List.append_nil]

theorem dropWhile_comment {str : valtype} (separated : 0 ∉ str) (mapValue : mapValue_t) (_ssExtra : List UInt8) :
    (str ++ extra mapValue _ssExtra).dropWhile (fun c => c != 0) = extra mapValue _ssExtra := by
  rw [List.dropWhile_append_of_pos (all_nonzero separated), (takeWhile_extra ..).2]

theorem erase_writeOrderPos {nOrderPos : ℤ} {mapValue : mapValue_t} (free : mapValue.find? nKey = none) :
    (writeOrderPos nOrderPos mapValue).erase nKey = mapValue := by
  apply ext_find?
  intro key
  rw [find?_erase]
  split_ifs with same
  · rw [same, free]
  · exact find?_writeOrderPos same

/-- The temporary edits are undone. -/
theorem serialize_unchanged :
    (entry.serialize nVersion).2 = entry ↔ 0 ∉ entry.strComment ∧ entry.mapValue.find? nKey = none := by
  constructor
  · intro same
    have comment : (entry.strComment ++ entry.tail).takeWhile (fun c => c != 0) = entry.strComment :=
      congrArg strComment same
    have erased : (writeOrderPos entry.nOrderPos entry.mapValue).erase nKey = entry.mapValue := congrArg mapValue same
    constructor
    · intro separator
      rw [← comment] at separator
      exact absurd (List.mem_takeWhile_imp separator) (by decide)
    · rw [← erased, find?_erase, if_pos rfl]
  · rintro ⟨separated, free⟩
    rw [serialize, takeWhile_comment separated, erase_writeOrderPos free]

theorem length_pair_lt (item : valtype × valtype) : item.1.length + item.2.length < (writePair item).length := by
  have marked : 0 < (writeCompactSize item.1.length).length := by
    rw [writeCompactSize]
    split_ifs <;> simp
  rw [writePair, writeVector, writeVector]
  simp only [List.length_append]
  omega

theorem length_le_pairs (items : List (valtype × valtype)) : items.length ≤ (items.flatMap writePair).length := by
  induction items with
  | nil => exact Nat.zero_le _
  | cons item items ih =>
    have longer := length_pair_lt item
    rw [List.length_cons, List.flatMap_cons, List.length_append]
    omega

/-- What is written of a map is longer than the map and all of its strings. -/
theorem within_of_length {mapValue : mapValue_t} {limit : ℕ} (bound : (writeMap mapValue).length ≤ limit) :
    mapValue.size ≤ limit ∧ ∀ item ∈ mapValue.entries, Within limit item := by
  rw [writeMap, writeObjects, List.length_append] at bound
  have size := length_le_pairs mapValue.entries
  refine ⟨by rw [OrderedMap.size]; omega, fun item member => ?_⟩
  have longer := length_pair_lt item
  have inside := (List.sublist_flatten_of_mem (List.mem_map_of_mem (f := writePair) member)).length_le
  rw [← List.flatMap_def] at inside
  exact ⟨by omega, by omega⟩

theorem readExtra_tail (separated : 0 ∉ entry.strComment) (fit : entry.Representable)
    (short : (entry.strComment ++ entry.tail).length ≤ nMaxSize) :
    readExtra nMaxSize {} (entry.strComment ++ entry.tail) =
      some (writeOrderPos entry.nOrderPos entry.mapValue, entry._ssExtra) := by
  have bound := fit.comment
  rw [readExtra, tail, dropWhile_comment separated]
  rw [tail] at short bound
  rw [extra] at short bound ⊢
  split_ifs at short bound ⊢ with nothing
  · have empty : writeOrderPos entry.nOrderPos entry.mapValue = ∅ :=
      ext_find? (size_eq_zero.mp nothing.1)
    rw [empty, nothing.2]
  · rw [List.length_append, List.length_cons, List.length_append] at short bound
    obtain ⟨size, fits⟩ := @within_of_length (writeOrderPos entry.nOrderPos entry.mapValue) nMaxSize (by omega)
    obtain ⟨size', fits'⟩ := @within_of_length (writeOrderPos entry.nOrderPos entry.mapValue) (2 ^ 64 - 1) (by omega)
    exact (readsIff_map (by omega) fits').reads ⟨size, fits⟩ entry._ssExtra

/-- The comment and what follows it, which set the last fields of the entry. -/
theorem readsIff_comment (separated : 0 ∉ entry.strComment) (fit : entry.Representable) {before after : CAccountingEntry}
    (fields : before.setExtra (entry.strComment ++ entry.tail)
      (writeOrderPos entry.nOrderPos entry.mapValue, entry._ssExtra) = after) :
    (do
      let strComment ← readVector nMaxSize
      match readExtra nMaxSize {} strComment with
      | none => failure
      | some ss => return before.setExtra strComment ss : Reader CAccountingEntry).ReadsIff
        (writeVector (entry.strComment ++ entry.tail) ++ []) after ((entry.strComment ++ entry.tail).length ≤ nMaxSize) := by
  refine (readsIff_vector fit.comment).bind_reads fun short => ?_
  rw [readExtra_tail separated fit short, ← fields]
  exact reads_pure _

theorem readsIff (separated : 0 ∉ entry.strComment) (free : entry.mapValue.find? nKey = none)
    (fit : entry.Representable) (version : -2 ^ 31 ≤ nVersion ∧ nVersion < 2 ^ 31) :
    (unserialize nMaxSize {}).ReadsIff (entry.serialize nVersion).1 { entry with strAccount := [], nEntryNo := 0 }
      (entry.strOtherAccount.length ≤ nMaxSize ∧ (entry.strComment ++ entry.tail).length ≤ nMaxSize) := by
  have head := @reads_int 4 nVersion (by omega) (by omega)
  have credit := @reads_int 8 entry.nCreditDebit (by have := fit.nCreditDebit; unfold InInt64 at this; omega)
    (by have := fit.nCreditDebit; unfold InInt64 at this; omega)
  have time := @reads_int 8 entry.nTime (by have := fit.nTime; unfold InInt64 at this; omega)
    (by have := fit.nTime; unfold InInt64 at this; omega)
  let before : CAccountingEntry :=
    { nCreditDebit := entry.nCreditDebit, nTime := entry.nTime, strOtherAccount := entry.strOtherAccount }
  have fields : setExtra before (entry.strComment ++ entry.tail)
      (writeOrderPos entry.nOrderPos entry.mapValue, entry._ssExtra) =
      { entry with strAccount := [], nEntryNo := 0 } := by
    rw [setExtra, tail, takeWhile_comment separated, erase_writeOrderPos free,
      readOrderPos_writeOrderPos fit.nOrderPos free]
  have comment := @readsIff_comment entry nMaxSize separated fit before _ fields
  have whole : (unserialize nMaxSize {}).ReadsIff _ _ _ :=
    head.iff_true.bind (credit.iff_true.bind (time.iff_true.bind ((readsIff_vector fit.otherAccount).bind comment)))
  rw [List.append_nil] at whole
  exact whole.congr (by simp)

/-- Writing leaves the entry, and reading into a fresh object gives all that is not part of the key. -/
def Persists (nVersion : ℤ) (entry : CAccountingEntry) : Prop :=
  (entry.serialize nVersion).2 = entry ∧
    (unserialize MAX_SIZE {}).parse (entry.serialize nVersion).1 = some { entry with strAccount := [], nEntryNo := 0 }

/-- There is no NUL in the comment and no entry under the key of the position, and no string is too long. -/
def Fits (entry : CAccountingEntry) : Prop :=
  0 ∉ entry.strComment ∧ entry.mapValue.find? nKey = none ∧
    entry.strOtherAccount.length ≤ MAX_SIZE ∧ (entry.strComment ++ entry.tail).length ≤ MAX_SIZE

instance (entry : CAccountingEntry) : Decidable entry.Fits := inferInstanceAs (Decidable (_ ∧ _ ∧ _ ∧ _))

theorem persists_iff (fit : entry.Representable) (version : -2 ^ 31 ≤ nVersion ∧ nVersion < 2 ^ 31) :
    entry.Persists nVersion ↔ entry.Fits := by
  rw [Persists, Fits, serialize_unchanged, and_assoc]
  refine and_congr_right fun separated => and_congr_right fun free => ?_
  exact (readsIff separated free fit version).parse_iff

end CAccountingEntry

namespace CWalletTx

variable {wtx : CWalletTx} {nMaxSize : ℕ}

/-- No entry uses a key of a field. -/
def Free (mapValue : mapValue_t) : Prop := ∀ key ∈ reservedKeys, mapValue.find? key = none

/-- The value of the flags. -/
def spentText (vfSpent : List Bool) : valtype := vfSpent.map fun f => if f then 49 else 48

theorem spentText_read (vfSpent : List Bool) : (spentText vfSpent).map (fun c => c != 48) = vfSpent := by
  rw [spentText, List.map_map]
  conv_rhs => rw [← List.map_id vfSpent]
  apply List.map_congr_left
  rintro (_ | _) - <;> rfl

/-- The map with the fields that are always written. -/
def textMap (wtx : CWalletTx) : mapValue_t :=
  (wtx.mapValue.insert fromaccountKey wtx.strFromAccount).insert spentKey (spentText wtx.vfSpent)

theorem fullMap_eq : wtx.fullMap = if wtx.nTimeSmart ≠ 0 then
    (writeOrderPos wtx.nOrderPos wtx.textMap).insert timesmartKey (write wtx.nTimeSmart)
    else writeOrderPos wtx.nOrderPos wtx.textMap := rfl

theorem find?_textMap (key : valtype) : wtx.textMap.find? key = if key = spentKey then some (spentText wtx.vfSpent)
    else if key = fromaccountKey then some wtx.strFromAccount else wtx.mapValue.find? key := by
  rw [textMap, find?_insert, find?_insert]
  split_ifs <;> rfl

theorem missing_textMap {key : valtype} (missing : wtx.mapValue.find? key = none)
    (apart : key ≠ spentKey ∧ key ≠ fromaccountKey) : wtx.textMap.find? key = none := by
  rw [find?_textMap, if_neg apart.1, if_neg apart.2, missing]

theorem noPos (free : Free wtx.mapValue) : wtx.textMap.find? nKey = none :=
  missing_textMap (free nKey (by decide)) (by decide)

theorem noTime (free : Free wtx.mapValue) : (writeOrderPos wtx.nOrderPos wtx.textMap).find? timesmartKey = none := by
  rw [find?_writeOrderPos (by decide)]
  exact missing_textMap (free timesmartKey (by decide)) (by decide)

theorem find?_fullMap {key : valtype} (other : key ≠ timesmartKey) :
    wtx.fullMap.find? key = (writeOrderPos wtx.nOrderPos wtx.textMap).find? key := by
  rw [fullMap_eq]
  split_ifs
  · rw [find?_insert, if_neg other]
  · rfl

theorem nOrderPos_fullMap (free : Free wtx.mapValue) (bounds : InInt64 wtx.nOrderPos) :
    readOrderPos wtx.fullMap = wtx.nOrderPos := by
  rw [readOrderPos, find?_fullMap (by decide)]
  exact readOrderPos_writeOrderPos bounds (noPos free)

theorem fromaccount_fullMap : wtx.fullMap.find? fromaccountKey = some wtx.strFromAccount := by
  rw [find?_fullMap (by decide), find?_writeOrderPos (by decide), find?_textMap, if_neg (by decide), if_pos rfl]

theorem spent_fullMap : wtx.fullMap.find? spentKey = some (spentText wtx.vfSpent) := by
  rw [find?_fullMap (by decide), find?_writeOrderPos (by decide), find?_textMap, if_pos rfl]

theorem timesmart_fullMap (free : Free wtx.mapValue) : wtx.fullMap.find? timesmartKey =
    if wtx.nTimeSmart ≠ 0 then some (write wtx.nTimeSmart) else none := by
  rw [fullMap_eq]
  split_ifs
  · exact find?_insert_self
  · exact noTime free

theorem readTimeSmart_fullMap (free : Free wtx.mapValue) (smart : wtx.nTimeSmart < 2 ^ 32) :
    readTimeSmart wtx.fullMap = wtx.nTimeSmart := by
  rw [readTimeSmart, timesmart_fullMap free]
  split_ifs with stamped
  · change (atoi64 (write wtx.nTimeSmart) % 2 ^ 32).toNat = wtx.nTimeSmart
    rw [atoi64_write (by omega)]
    omega
  · exact (not_not.mp stamped).symm

/-- The temporary entries are erased. -/
theorem eraseReserved_fullMap (free : Free wtx.mapValue) : eraseReserved wtx.fullMap = wtx.mapValue := by
  apply ext_find?
  intro key
  rw [eraseReserved, find?_foldl_erase]
  split_ifs with reserved
  · exact (free key reserved).symm
  · have other : ∀ k ∈ reservedKeys, key ≠ k := fun k member same => reserved (same ▸ member)
    rw [find?_fullMap (other _ (by decide)), find?_writeOrderPos (other _ (by decide)), find?_textMap,
      if_neg (other _ (by decide)), if_neg (other _ (by decide))]

/-- The number of entries that are written. -/
theorem size_fullMap (free : Free wtx.mapValue) : wtx.fullMap.size =
    wtx.mapValue.size + 2 + (if wtx.nOrderPos = -1 then 0 else 1) + (if wtx.nTimeSmart ≠ 0 then 1 else 0) := by
  have text : wtx.textMap.size = wtx.mapValue.size + 2 := by
    rw [textMap, size_insert_of_none, size_insert_of_none (free _ (by decide))]
    rw [find?_insert, if_neg (by decide), free spentKey (by decide)]
  have pos : (writeOrderPos wtx.nOrderPos wtx.textMap).size =
      wtx.textMap.size + if wtx.nOrderPos = -1 then 0 else 1 := by
    rw [writeOrderPos]
    split_ifs
    · rfl
    · exact size_insert_of_none (noPos free)
  rw [fullMap_eq, ← text, ← pos]
  split_ifs
  · exact size_insert_of_none (noTime free)
  · rfl

/-- A limit on all strings of the map that is written. -/
theorem within_fullMap (free : Free wtx.mapValue) {limit : ℕ} (enough : 20 ≤ limit) (bounds : InInt64 wtx.nOrderPos)
    (time : wtx.nTimeSmart < 2 ^ 32) : (∀ item ∈ wtx.fullMap.entries, Within limit item) ↔
      (∀ item ∈ wtx.mapValue.entries, Within limit item) ∧ wtx.strFromAccount.length ≤ limit ∧
        wtx.vfSpent.length ≤ limit := by
  have keys : ∀ key ∈ reservedKeys, key.length ≤ 20 := by decide
  have text : (∀ item ∈ wtx.textMap.entries, Within limit item) ↔ (∀ item ∈ wtx.mapValue.entries, Within limit item) ∧
      wtx.strFromAccount.length ≤ limit ∧ wtx.vfSpent.length ≤ limit := by
    have noSpent : (wtx.mapValue.insert fromaccountKey wtx.strFromAccount).find? spentKey = none := by
      rw [find?_insert, if_neg (by decide), free spentKey (by decide)]
    rw [textMap, forall_insert noSpent, forall_insert (free fromaccountKey (by decide)), Within,
      Within, spentText, List.length_map]
    have first := keys fromaccountKey (by decide)
    have second := keys spentKey (by decide)
    constructor
    · rintro ⟨⟨-, spent⟩, ⟨-, account⟩, all⟩
      exact ⟨all, account, spent⟩
    · rintro ⟨all, account, spent⟩
      exact ⟨⟨second.trans enough, spent⟩, ⟨first.trans enough, account⟩, all⟩
  have pos : (∀ item ∈ (writeOrderPos wtx.nOrderPos wtx.textMap).entries, Within limit item) ↔
      ∀ item ∈ wtx.textMap.entries, Within limit item := by
    rw [writeOrderPos]
    split_ifs
    · rfl
    · have key := keys nKey (by decide)
      have value := length_i64tostr bounds
      rw [forall_insert (noPos free)]
      exact and_iff_right ⟨key.trans enough, value.trans enough⟩
  rw [← text, ← pos, fullMap_eq]
  split_ifs
  · have key := keys timesmartKey (by decide)
    have value : (write wtx.nTimeSmart).length ≤ 9 + 1 := length_write_le (by omega)
    rw [forall_insert (noTime free)]
    exact and_iff_right ⟨key.trans enough, value.trans (le_trans (by decide) enough)⟩
  · rfl

/-- The fields are values of the C++ types, and so is the map that is written. -/
structure Representable (wtx : CWalletTx) : Prop where
  merkle : wtx.toCMerkleTx.Representable
  prevSize : wtx.vtxPrev.length < 2 ^ 64
  vtxPrev : ∀ prev ∈ wtx.vtxPrev, prev.Representable
  mapSize : wtx.fullMap.size < 2 ^ 64
  mapValue : ∀ item ∈ wtx.mapValue.entries, Within (2 ^ 64 - 1) item
  orderSize : wtx.vOrderForm.length < 2 ^ 64
  vOrderForm : ∀ item ∈ wtx.vOrderForm, Within (2 ^ 64 - 1) item
  isTxTime : wtx.fTimeReceivedIsTxTime < 2 ^ 32
  received : wtx.nTimeReceived < 2 ^ 32
  smart : wtx.nTimeSmart < 2 ^ 32
  account : wtx.strFromAccount.length < 2 ^ 64
  spent : wtx.vfSpent.length < 2 ^ 64
  nOrderPos : InInt64 wtx.nOrderPos

/-- What is kept on disk. -/
def persistent (wtx : CWalletTx) : CWalletTx :=
  { wtx with toCMerkleTx := wtx.toCMerkleTx.persistent, vtxPrev := wtx.vtxPrev.map CMerkleTx.persistent }

/-- What has been read before the fields are taken out of the map. -/
def asRead (wtx : CWalletTx) : CWalletTx where
  toCMerkleTx := wtx.toCMerkleTx.persistent
  vtxPrev := wtx.vtxPrev.map CMerkleTx.persistent
  mapValue := wtx.fullMap
  vOrderForm := wtx.vOrderForm
  fTimeReceivedIsTxTime := wtx.fTimeReceivedIsTxTime
  nTimeReceived := wtx.nTimeReceived
  fFromMe := wtx.fFromMe

theorem takeFields_asRead (free : Free wtx.mapValue) (smart : wtx.nTimeSmart < 2 ^ 32) (bounds : InInt64 wtx.nOrderPos)
    (fSpent : UInt8) : takeFields wtx.asRead fSpent = wtx.persistent := by
  rw [takeFields, asRead]
  simp only [readTimeSmart_fullMap free smart, fromaccount_fullMap, spent_fullMap, nOrderPos_fullMap free bounds,
    eraseReserved_fullMap free, spentText_read, Option.getD_some]
  rfl

theorem readsIff (free : Free wtx.mapValue) (fit : wtx.Representable) :
    (unserialize nMaxSize fresh).ReadsIff wtx.serialize.1 wtx.persistent
      (wtx.toCMerkleTx.Readable nMaxSize ∧
        (wtx.vtxPrev.length ≤ nMaxSize ∧ ∀ prev ∈ wtx.vtxPrev, prev.Readable nMaxSize) ∧
        (wtx.fullMap.size ≤ nMaxSize ∧ ∀ item ∈ wtx.fullMap.entries, Within nMaxSize item) ∧
        wtx.vOrderForm.length ≤ nMaxSize ∧ ∀ item ∈ wtx.vOrderForm, Within nMaxSize item) := by
  have items : ∀ item ∈ wtx.fullMap.entries, Within (2 ^ 64 - 1) item :=
    (within_fullMap free (by decide) fit.nOrderPos fit.smart).mpr ⟨fit.mapValue, Nat.le_pred_of_lt fit.account,
      Nat.le_pred_of_lt fit.spent⟩
  have merkle := @CMerkleTx.readsIff nMaxSize _ fit.merkle
  have prev := @readsIff_objects_map nMaxSize _ _ _ _ _ _ fit.prevSize fun prev member =>
    @CMerkleTx.readsIff nMaxSize _ (fit.vtxPrev prev member)
  have map := @readsIff_map nMaxSize _ fit.mapSize items
  have order := @readsIff_pairs nMaxSize _ fit.orderSize fit.vOrderForm
  have isTxTime := (@reads 4 _ fit.isTxTime).iff_true
  have received := (@reads 4 _ fit.received).iff_true
  have fromMe := (reads_char wtx.fFromMe).iff_true
  have spent := (reads_char (if wtx.vfSpent.any id then 1 else 0)).iff_true.map (takeFields wtx.asRead)
  have whole : (unserialize nMaxSize fresh).ReadsIff _ _ _ :=
    merkle.bind (prev.bind (map.bind (order.bind (isTxTime.bind (received.bind (fromMe.bind spent))))))
  rw [takeFields_asRead free fit.smart fit.nOrderPos] at whole
  exact whole.congr (by simp)

/-- Writing leaves the transaction, and reading into a fresh object gives what is kept. -/
def Persists (wtx : CWalletTx) : Prop :=
  wtx.serialize.2 = wtx ∧ (unserialize MAX_SIZE fresh).parse wtx.serialize.1 = some wtx.persistent

/-- No vector and no string is too long, and the map is not with the fields that are written as its entries. -/
def Fits (wtx : CWalletTx) : Prop :=
  wtx.toCMerkleTx.Readable MAX_SIZE ∧
    (wtx.vtxPrev.length ≤ MAX_SIZE ∧ ∀ prev ∈ wtx.vtxPrev, prev.Readable MAX_SIZE) ∧
    wtx.mapValue.size + 2 + (if wtx.nOrderPos = -1 then 0 else 1) + (if wtx.nTimeSmart ≠ 0 then 1 else 0) ≤ MAX_SIZE ∧
    (∀ item ∈ wtx.mapValue.entries, Within MAX_SIZE item) ∧
    wtx.strFromAccount.length ≤ MAX_SIZE ∧ wtx.vfSpent.length ≤ MAX_SIZE ∧
    wtx.vOrderForm.length ≤ MAX_SIZE ∧ ∀ item ∈ wtx.vOrderForm, Within MAX_SIZE item

theorem persists_iff (free : Free wtx.mapValue) (fit : wtx.Representable) : wtx.Persists ↔ wtx.Fits := by
  have unchanged : wtx.serialize.2 = wtx := by rw [serialize, eraseReserved_fullMap free]
  rw [Persists, (readsIff free fit).parse_iff, within_fullMap free (by decide) fit.nOrderPos fit.smart,
    size_fullMap free, Fits]
  simp only [unchanged, true_and, and_assoc]

end CWalletTx

/-- An accounting entry is given back if and only if nothing in it is taken for a separator or a field and it is short
enough; a wallet transaction without reserved keys if and only if it is short enough. -/
theorem records_persist {nVersion : ℤ} (version : -2 ^ 31 ≤ nVersion ∧ nVersion < 2 ^ 31) {entry : CAccountingEntry}
    (entryFit : entry.Representable) {wtx : CWalletTx} (free : CWalletTx.Free wtx.mapValue)
    (wtxFit : wtx.Representable) : (entry.Persists nVersion ↔ entry.Fits) ∧ (wtx.Persists ↔ wtx.Fits) :=
  ⟨CAccountingEntry.persists_iff entryFit version, CWalletTx.persists_iff free wtxFit⟩

end WalletRecords

namespace TestNet

open WalletRecords

/-- A transfer with a position in the order of transactions. -/
def transfer : WalletRecords.CAccountingEntry where
  nCreditDebit := -500
  nTime := 1400000000
  strOtherAccount := ascii ['b', 'o', 'b']
  strComment := ascii ['r', 'e', 'n', 't']
  nOrderPos := 7

/-- The same with a NUL in its comment. -/
def separated : WalletRecords.CAccountingEntry := { transfer with strComment := ascii ['r'] ++ 0 :: ascii ['t'] }

def labelled : WalletRecords.CWalletTx where
  tx := upper
  mapValue := (∅ : mapValue_t).insert (ascii ['t', 'o']) (ascii ['b', 'o', 'b'])
  nTimeReceived := 1400000000
  nTimeSmart := 1399999999
  strFromAccount := ascii ['a']
  vfSpent := [true, false]
  nOrderPos := 8

end TestNet

namespace WalletRecords

open TestNet

theorem records_persist_transfer : transfer.Persists 1 ∧ labelled.Persists := by
  have entry : transfer.Representable := ⟨by decide, by decide, by decide, by decide, by decide⟩
  have merkle : labelled.toCMerkleTx.Representable := ⟨by decide, by decide, by decide, nofun, by decide⟩
  have wtx : labelled.Representable := ⟨merkle, by decide, nofun, by decide, by decide, by decide, nofun, by decide,
    by decide, by decide, by decide, by decide, by decide⟩
  have free : CWalletTx.Free labelled.mapValue := by
    unfold CWalletTx.Free
    decide
  obtain ⟨entries, transactions⟩ := records_persist (by decide : -2 ^ 31 ≤ (1 : ℤ) ∧ (1 : ℤ) < 2 ^ 31) entry free wtx
  exact ⟨entries.mpr (by decide), transactions.mpr ⟨⟨by decide, by decide⟩, ⟨by decide, nofun⟩, by decide, by decide,
    by decide, by decide, by decide, nofun⟩⟩

/-- The comment is cut when it is written, and what is behind the NUL is read as a map. -/
theorem comment_cut : (separated.serialize 1).2.strComment = ascii ['r'] ∧
    (CAccountingEntry.unserialize MAX_SIZE {}).parse (separated.serialize 1).1 = none := by
  constructor <;> decide +kernel

end WalletRecords

end BitCrystal
