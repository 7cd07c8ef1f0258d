import BitCrystal.Model.OrphanTxs
import BitCrystal.Model.TestNet
import BitCrystal.Proofs.TxCodec

/-! # Transactions and their bytes

What identifies a transaction, and when the bytes of a message that are kept are those of its transaction.
-/

/-! ## The identity of a transaction

Equality, the txid and the format agree except on the comment: `operator==` does not compare it, and
reading a transaction whose version has no comment leaves the one of the object in place.
-/

namespace BitCrystal.CTransaction

open TestNet

/-- Equality tells two transactions apart as their serializations and txids do, and the first one is
read back into an object as it was written. -/
@[mk_iff identity_iff_fields]
structure Identity (P : Platform) (a b old : CTransaction) : Prop where
  equal : a.eq b ↔ a.serialize = b.serialize
  hash : a.eq b ↔ a.getHash P = b.getHash P
  read : ∃ c, (unserialize MAX_SIZE old).Reads a.serialize c ∧ c.serialized = a.serialized ∧
    c.getHash P = a.getHash P ∧ (c.nVersion < TXCOMMENT_VERSION → c.strTxComment = [])

/-- The transactions have a comment and differ in nothing else. -/
def DifferInComment (a b : CTransaction) : Prop :=
  TXCOMMENT_VERSION ≤ a.nVersion ∧ b = { a with strTxComment := b.strTxComment } ∧ a.strTxComment ≠ b.strTxComment

instance (a b : CTransaction) : Decidable (a.DifferInComment b) := inferInstanceAs (Decidable (_ ∧ _ ∧ _))

theorem serialized_eq_iff {a b : CTransaction} : a.serialized = b.serialized ↔ a.eq b ∧ ¬ a.DifferInComment b := by
  obtain ⟨nVersion, vin, vout, nLockTime, strTxComment⟩ := a
  obtain ⟨nVersion', vin', vout', nLockTime', strTxComment'⟩ := b
  simp only [serialized, eq, DifferInComment, SerializedTx.mk.injEq, mk.injEq]
  constructor
  · rintro ⟨rfl, rfl, rfl, rfl, comment⟩
    refine ⟨⟨rfl, rfl, rfl, rfl⟩, ?_⟩
    rintro ⟨written, -, other⟩
    rw [if_pos written, if_pos written] at comment
    exact other (Option.some.inj comment)
  · rintro ⟨⟨rfl, rfl, rfl, rfl⟩, alike⟩
    refine ⟨rfl, rfl, rfl, rfl, ?_⟩
    split
    next written =>
      by_contra other
      exact alike ⟨written, ⟨rfl, rfl, rfl, rfl, trivial⟩, fun same => other (congrArg some same)⟩
    next => rfl

/-- The object is read as it was written, with a fresh comment if it has none of its own. -/
theorem read_iff {P : Platform} {a : CTransaction} (old : CTransaction) (fit : a.Representable) :
    (∃ c, (unserialize MAX_SIZE old).Reads a.serialize c ∧ c.serialized = a.serialized ∧
      c.getHash P = a.getHash P ∧ (c.nVersion < TXCOMMENT_VERSION → c.strTxComment = [])) ↔
    (TXCOMMENT_VERSION ≤ a.nVersion ∨ old.strTxComment = []) ∧ a.Readable MAX_SIZE := by
  constructor
  · rintro ⟨c, reads, -, -, fresh⟩
    have readable := (readsIff fit).fits_of_reads reads
    obtain rfl : c = readInto old a :=
      (reads.unique ((readsIff fit).reads readable) (rfl : a.serialize ++ [] = a.serialize ++ [])).1
    refine ⟨?_, readable⟩
    rcases le_or_gt TXCOMMENT_VERSION a.nVersion with written | absent
    · exact .inl written
    · have comment := fresh absent
      rw [readInto, if_neg absent.not_ge] at comment
      exact .inr comment
  · rintro ⟨fresh, readable⟩
    refine ⟨readInto old a, (readsIff fit).reads readable, serialized_readInto old a, ?_, fun absent => ?_⟩
    · rw [getHash, getHash, serialized_readInto]
    · have left : ¬ TXCOMMENT_VERSION ≤ a.nVersion := absent.not_ge
      exact (if_neg left).trans (fresh.resolve_left left)

/-- Identity holds exactly when the transactions do not differ in the comment alone, a comment that is
not written is not in the object before either, and the vectors are not too long for the reader. -/
theorem identity_iff {P : Platform} (free : P.CollisionFree) {a b : CTransaction} (old : CTransaction)
    (fitA : a.Representable) (fitB : b.Representable) :
    Identity P a b old ↔ ¬ a.DifferInComment b ∧ (TXCOMMENT_VERSION ≤ a.nVersion ∨ old.strTxComment = []) ∧
      a.Readable MAX_SIZE := by
  have sameHash : a.getHash P = b.getHash P ↔ a.serialized = b.serialized :=
    ⟨free.injective a b, fun same => congrArg P.hashTx same⟩
  rw [identity_iff_fields, serialize_eq_iff fitA fitB, sameHash, read_iff old fitA, serialized_eq_iff]
  constructor
  · rintro ⟨equal, -, readable⟩
    refine ⟨fun ⟨written, same, other⟩ => ?_, readable⟩
    have alike : a.eq b := by
      rw [same]
      exact ⟨rfl, rfl, rfl, rfl⟩
    exact (equal.mp alike).2 ⟨written, same, other⟩
  · rintro ⟨alike, readable⟩
    exact ⟨⟨fun same => ⟨same, alike⟩, And.left⟩, ⟨fun same => ⟨same, alike⟩, And.left⟩, readable⟩

/-- A version two transaction with a comment. -/
def greeting (strTxComment : List UInt8) : CTransaction :=
  { TestNet.spending 2 [⟨7, 0⟩] [400000] with nVersion := 2, strTxComment }

theorem identity_iff_greeting :
    Identity (numbered []) (greeting [0x61]) (spending 3 [⟨7, 0⟩] [400000]) (greeting [0x62]) :=
  (identity_iff (collisionFree_numbered (by decide) (by decide)) _ (by decide) (by decide)).mpr (by decide)

/-- Two transactions that differ in the comment alone are equal, and one without a comment is read back
with the comment of another. -/
theorem not_identity_comment :
    (numbered []).CollisionFree ∧ (greeting [0x61]).Representable ∧ (greeting [0x62]).Representable ∧
      ¬ Identity (numbered []) (greeting [0x61]) (greeting [0x62]) (greeting []) ∧
      ¬ Identity (numbered []) (spending 2 [⟨7, 0⟩] [400000]) (spending 2 [⟨7, 0⟩] [400000]) (greeting [0x61]) := by
  refine ⟨collisionFree_numbered (by decide) (by decide), by decide, by decide, fun identity => ?_, fun identity => ?_⟩
  · have different : (greeting [0x61]).serialize ≠ (greeting [0x62]).serialize := by decide
    exact different (identity.equal.mp (by decide))
  · have fresh := ((read_iff (greeting [0x61]) (by decide)).mp identity.read).1
    revert fresh
    decide

end BitCrystal.CTransaction

/-! ## Truncated transaction messages

The bytes of a `tx` message that are kept are as many as the transaction takes when it is written. They are parsed
again if the sender has written it the same way; a size in a wider field than it needs loses the end.
-/

namespace BitCrystal

open CTransaction LittleEndian

theorem length_writeCompactSize (nSize : ℕ) : (writeCompactSize nSize).length = getSizeOfCompactSize nSize := by
  unfold writeCompactSize getSizeOfCompactSize
  split_ifs <;> simp

theorem length_writeVector (bytes : List UInt8) : (writeVector bytes).length = vectorSize bytes := by
  rw [writeVector, List.length_append, length_writeCompactSize, vectorSize]

theorem length_writeObjects {α : Type} {serialize : α → List UInt8} {size : α → ℕ}
    (each : ∀ x, (serialize x).length = size x) (v : List α) :
    (writeObjects serialize v).length = getSizeOfCompactSize v.length + (v.map size).sum := by
  rw [writeObjects, List.length_append, length_writeCompactSize, List.length_flatMap]
  congr 2
  exact List.map_congr_left fun x _ => each x

namespace CTransaction

/-- `GetSerializeSize` is the number of bytes `Serialize` writes. -/
theorem length_serialize (tx : CTransaction) : tx.serialize.length = tx.getSerializeSize := by
  have inputs : ∀ txin : CTxIn, txin.serialize.length = txin.getSerializeSize := by
    intro txin
    simp only [CTxIn.serialize, COutPoint.serialize, CTxIn.getSerializeSize, List.length_append,
      length_encode, length_writeVector]
    omega
  have outputs : ∀ txout : CTxOut, txout.serializePlain.length = txout.getSerializeSize := by
    intro txout
    simp only [CTxOut.serializePlain, CTxOut.getSerializeSize, List.length_append, length_encodeInt,
      length_writeVector]
  simp only [serialize, getSerializeSize, List.length_append, length_encodeInt,
    length_encode, length_writeObjects inputs, length_writeObjects outputs]
  split
  · rw [length_writeVector]
    omega
  · rw [List.length_nil]
    omega

end CTransaction

namespace OrphanTxs

variable {tx : CTransaction} {vMsg bytes rest : List UInt8}

/-- A stream that a transaction is read from begins with its bytes. -/
theorem ofStream_split (parsed : ofStream vMsg = some tx) : ∃ bytes rest, vMsg = bytes ++ rest ∧
    (CTransaction.unserialize MAX_SIZE { vin := [], vout := [] }).Reads bytes tx ∧ Recodes tx.serialize bytes := by
  obtain ⟨⟨value, rest⟩, read, rfl⟩ := Option.map_eq_some_iff.mp parsed
  obtain ⟨bytes, split, reads, recodes⟩ := takes _ _ _ _ _ read
  exact ⟨bytes, rest, split, reads, recodes⟩

/-- What is read from the front of the stream is the same transaction, and all of its bytes are there. -/
theorem ofStream_take {n : ℕ} {kept : CTransaction}
    (reads : (CTransaction.unserialize MAX_SIZE { vin := [], vout := [] }).Reads bytes tx) :
    ofStream ((bytes ++ rest).take n) = some kept ↔ bytes.length ≤ n ∧ kept = tx := by
  constructor
  · intro parsed
    obtain ⟨first, behind, split, again, -⟩ := ofStream_split parsed
    have whole : bytes ++ rest = first ++ (behind ++ (bytes ++ rest).drop n) := by
      rw [← List.append_assoc, ← split, List.take_append_drop]
    obtain ⟨rfl, left⟩ := reads.unique again whole
    have same : bytes = first := List.append_cancel_right (whole.trans (congrArg (first ++ ·) left.symm))
    have short := congrArg List.length split
    rw [List.length_take, List.length_append, List.length_append, ← same] at short
    exact ⟨by omega, Eq.refl _⟩
  · rintro ⟨enough, rfl⟩
    have front : (bytes ++ rest).take n = bytes ++ rest.take (n - bytes.length) := by
      rw [List.take_append, List.take_of_length_le enough]
    have read := reads (rest.take (n - bytes.length))
    rw [ofStream, Reader.parse, front, read]
    rfl

/-- The message that is kept is parsed to a transaction with the same hash. -/
def KeepsHash (P : Platform) (tx : CTransaction) (vMsg : List UInt8) : Prop :=
  ∃ kept, ofStream (truncateMessage tx vMsg) = some kept ∧ kept.getHash P = tx.getHash P

/-- The message keeps its transaction if and only if it is not cut, or begins with the bytes that are written. -/
theorem keepsHash_iff (P : Platform) (tx : CTransaction) (vMsg : List UInt8)
    (parsed : ofStream vMsg = some tx) : KeepsHash P tx vMsg ↔
      vMsg.length % 2 ^ 32 ≤ tx.serialize.length % 2 ^ 32 ∨ tx.serialize.length < 2 ^ 32 ∧ tx.serialize <+: vMsg := by
  rw [KeepsHash, truncateMessage, ← CTransaction.length_serialize]
  split
  next cut =>
    obtain ⟨bytes, rest, rfl, reads, recodes⟩ := ofStream_split parsed
    have size := recodes.length_le
    constructor
    · rintro ⟨kept, again, -⟩
      obtain ⟨enough, -⟩ := (ofStream_take reads).mp again
      right
      rcases recodes with same | ⟨longer, -⟩
      · rw [same] at enough ⊢
        exact ⟨by omega, List.prefix_append ..⟩
      · omega
    · rintro (uncut | ⟨small, inside⟩)
      · omega
      · have same : tx.serialize = bytes := by
          rcases recodes with same | ⟨longer, differs⟩
          · exact same
          · exact absurd (List.prefix_of_prefix_length_le inside (List.prefix_append ..) size) differs
        refine ⟨tx, (ofStream_take reads).mpr ⟨?_, rfl⟩, rfl⟩
        rw [Nat.mod_eq_of_lt small, same]
  next uncut =>
    constructor
    · intro _
      exact .inl (not_lt.mp uncut)
    · intro _
      exact ⟨tx, parsed, rfl⟩

/-- The sizes of a message below 2^32 bytes are what they are. -/
theorem truncateMessage_eq (parsed : ofStream vMsg = some tx) (small : vMsg.length < 2 ^ 32) :
    truncateMessage tx vMsg = truncate tx vMsg := by
  obtain ⟨bytes, rest, rfl, -, recodes⟩ := ofStream_split parsed
  have size := recodes.length_le
  have inside := @List.length_append _ bytes rest
  rw [truncateMessage, truncate, ← CTransaction.length_serialize, Nat.mod_eq_of_lt small, Nat.mod_eq_of_lt (by omega)]

end OrphanTxs

namespace TestNet

/-- The number of inputs of the transaction in a field of two bytes. -/
def overlong : List UInt8 :=
  encodeInt 4 upper.nVersion ++ (253 :: 1 :: 0 :: (upper.vin.flatMap CTxIn.serialize ++
    (writeObjects CTxOut.serializePlain upper.vout ++ encode 4 upper.nLockTime)))

end TestNet

open TestNet

namespace OrphanTxs

/-- What is written is kept, and what follows it is cut. -/
theorem keepsHash_upper : KeepsHash platform upper (upper.serialize ++ [0]) := by
  have reads := (@CTransaction.readsIff MAX_SIZE { vin := [], vout := [] } upper (by decide)).reads (by decide)
  have parsed : ofStream (upper.serialize ++ [0]) = some upper := congrArg (Option.map Prod.fst) (reads [0])
  exact (keepsHash_iff platform upper (upper.serialize ++ [0]) parsed).mpr (.inr ⟨by decide, List.prefix_append ..⟩)

/-- The longer form is two bytes longer, and the last two are cut. -/
theorem not_keepsHash_overlong : ofStream overlong = some upper ∧ ¬ KeepsHash platform upper overlong := by
  have parsed : ofStream overlong = some upper := by decide +kernel
  refine ⟨parsed, ?_⟩
  rintro ⟨kept, again, -⟩
  have cut : ofStream (truncateMessage upper overlong) = none := by decide
  rw [cut] at again
  cases again

end OrphanTxs

end BitCrystal
