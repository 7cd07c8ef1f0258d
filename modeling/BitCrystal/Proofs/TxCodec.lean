import BitCrystal.Model.TxCodec

/-! # Reading back a transaction

Every part of a transaction is read back if its vectors are within the limit and rejected otherwise.
With the limit out of reach this makes the format injective.
-/

namespace BitCrystal

open LittleEndian Reader

variable {nMaxSize : ℕ}

private theorem readsIff_limit (n : ℕ) :
    (if nMaxSize < n then failure else pure n : Reader ℕ).ReadsIff [] n (n ≤ nMaxSize) where
  reads fits := by
    rw [if_neg (Nat.not_lt.mpr fits)]
    exact reads_pure n
  fails beyond rest := by
    rw [if_pos (Nat.lt_of_not_le beyond)]
    rfl

variable {chSize n : ℕ} {bytes : List UInt8}

private theorem readsIff_size {first second : List UInt8} (head : (read 1).Reads first chSize)
    (tail : (if chSize < 253 then pure chSize
      else if chSize = 253 then read 2 else if chSize = 254 then read 4 else read 8 : Reader ℕ).Reads second n) :
    (readCompactSize nMaxSize).ReadsIff (first ++ second) n (n ≤ nMaxSize) := by
  have whole : (readCompactSize nMaxSize).ReadsIff (first ++ (second ++ [])) n (True ∧ True ∧ n ≤ nMaxSize) :=
    head.iff_true.bind (tail.iff_true.bind (readsIff_limit n))
  rw [List.append_nil] at whole
  exact whole.congr (by simp)

theorem readsIff_compactSize (bound : n < 2 ^ 64) :
    (readCompactSize nMaxSize).ReadsIff (writeCompactSize n) n (n ≤ nMaxSize) := by
  have marker {chSize : ℕ} (small : chSize < 256) : (read 1).Reads (encode 1 chSize) chSize := reads small
  rw [writeCompactSize]
  split
  next small =>
    rw [← List.append_nil (encode 1 n)]
    exact readsIff_size (marker (by omega)) (by rw [if_pos small]; exact reads_pure n)
  split
  next small => exact readsIff_size (marker (by decide : 253 < 256)) (reads (by omega))
  split
  next small => exact readsIff_size (marker (by decide : 254 < 256)) (reads (by unfold UINT_MAX at small; omega))
  next => exact readsIff_size (marker (by decide : 255 < 256)) (reads bound)

theorem readsIff_vector {l : List UInt8} (bound : l.length < 2 ^ 64) :
    (readVector nMaxSize).ReadsIff (writeVector l) l (l.length ≤ nMaxSize) :=
  ((readsIff_compactSize bound).bind (reads_bytes rfl).iff_true).congr (by simp)

theorem readsIff_objects {α : Type} {serialize : α → List UInt8} {unserialize : Reader α} {fits : α → Prop} {v : List α}
    (bound : v.length < 2 ^ 64) (each : ∀ x ∈ v, unserialize.ReadsIff (serialize x) x (fits x)) :
    (readObjects nMaxSize unserialize).ReadsIff (writeObjects serialize v) v
      (v.length ≤ nMaxSize ∧ ∀ x ∈ v, fits x) :=
  (readsIff_compactSize bound).bind (readsIff_many each)

theorem readsIff_objects_map {α : Type} {serialize : α → List UInt8} {unserialize : Reader α} {f : α → α}
    {fits : α → Prop} {v : List α} (bound : v.length < 2 ^ 64)
    (each : ∀ x ∈ v, unserialize.ReadsIff (serialize x) (f x) (fits x)) :
    (readObjects nMaxSize unserialize).ReadsIff (writeObjects serialize v) (v.map f)
      (v.length ≤ nMaxSize ∧ ∀ x ∈ v, fits x) :=
  (readsIff_compactSize bound).bind (readsIff_many_map each)

theorem COutPoint.reads {out : COutPoint} (hash : out.hash < 2 ^ 256) (n : out.n < 2 ^ 32) :
    COutPoint.unserialize.Reads out.serialize out :=
  (@LittleEndian.reads 32 _ hash).bind ((@LittleEndian.reads 4 _ n).map fun n => COutPoint.mk out.hash n)

theorem CTxIn.readsIff (nMaxSize : ℕ) {txin : CTxIn} (fit : txin.Representable) :
    (CTxIn.unserialize nMaxSize).ReadsIff txin.serialize txin (txin.scriptSig.length ≤ nMaxSize) := by
  obtain ⟨hash, n, script, sequence⟩ := fit
  have last := (@LittleEndian.reads 4 _ sequence).iff_true.map fun nSequence =>
    (⟨txin.prevout, txin.scriptSig, nSequence⟩ : CTxIn)
  have whole : (CTxIn.unserialize nMaxSize).ReadsIff _ _ _ :=
    (COutPoint.reads hash n).iff_true.bind ((readsIff_vector script).bind last)
  exact whole.congr (by simp)

theorem CTxOut.readsIff (nMaxSize : ℕ) {txout : CTxOut} (fit : txout.Representable) :
    (CTxOut.unserializePlain nMaxSize).ReadsIff txout.serializePlain txout (txout.scriptPubKey.length ≤ nMaxSize) := by
  obtain ⟨⟨low, high⟩, script⟩ := fit
  have last := (@readsIff_vector nMaxSize _ script).map fun scriptPubKey =>
    (⟨txout.nValue, scriptPubKey⟩ : CTxOut)
  have whole : (CTxOut.unserializePlain nMaxSize).ReadsIff _ _ _ :=
    (@reads_int 8 _ (by omega) (by omega)).iff_true.bind last
  exact whole.congr (by simp)

namespace CTransaction

/-- The object after a transaction has been read into it. -/
def readInto (old tx : CTransaction) : CTransaction where
  nVersion := tx.nVersion
  vin := tx.vin
  vout := tx.vout
  nLockTime := tx.nLockTime
  strTxComment := if TXCOMMENT_VERSION ≤ tx.nVersion then tx.strTxComment else old.strTxComment

theorem readsIff {old tx : CTransaction} (fit : tx.Representable) :
    (CTransaction.unserialize nMaxSize old).ReadsIff tx.serialize (readInto old tx) (tx.Readable nMaxSize) := by
  have version := @reads_int 4 tx.nVersion (by have := fit.nVersion; omega) (by have := fit.nVersion; omega)
  have comment : (if TXCOMMENT_VERSION ≤ tx.nVersion then readVector nMaxSize else pure old.strTxComment).ReadsIff
      (if TXCOMMENT_VERSION ≤ tx.nVersion then writeVector tx.strTxComment else [])
      (if TXCOMMENT_VERSION ≤ tx.nVersion then tx.strTxComment else old.strTxComment)
      (TXCOMMENT_VERSION ≤ tx.nVersion → tx.strTxComment.length ≤ nMaxSize) := by
    split
    next written => exact (readsIff_vector fit.comment).congr (by simp [written])
    next absent => exact (reads_pure _).iff_true.congr (by simp [absent])
  have inputs := @readsIff_objects nMaxSize _ _ _ _ _ fit.vinSize fun txin member =>
    CTxIn.readsIff nMaxSize (fit.vin txin member)
  have outputs := @readsIff_objects nMaxSize _ _ _ _ _ fit.voutSize fun txout member =>
    CTxOut.readsIff nMaxSize (fit.vout txout member)
  have whole : (CTransaction.unserialize nMaxSize old).ReadsIff _ _ _ :=
    version.iff_true.bind (inputs.bind (outputs.bind ((@LittleEndian.reads 4 _ fit.nLockTime).iff_true.bind
      (comment.map fun strTxComment => CTransaction.mk tx.nVersion tx.vin tx.vout tx.nLockTime strTxComment))))
  apply whole.congr
  rw [readable_iff]
  simp [and_assoc]

@[simp] theorem serialized_readInto (old tx : CTransaction) : (readInto old tx).serialized = tx.serialized := by
  simp only [serialized, readInto]
  split <;> rfl

variable {a b : CTransaction}

theorem serialize_congr (same : a.serialized = b.serialized) : a.serialize = b.serialize := by
  simp only [serialized, SerializedTx.mk.injEq] at same
  obtain ⟨version, inputs, outputs, time, comment⟩ := same
  rw [serialize, serialize, version, inputs, outputs, time]
  split
  next written =>
    rw [version, if_pos written, if_pos written] at comment
    rw [Option.some.inj comment]
  next => rfl

/-- The format is injective, also in front of other bytes. -/
theorem serialized_of_serialize (fitA : a.Representable) (fitB : b.Representable)
    {after behind : List UInt8} (same : a.serialize ++ after = b.serialize ++ behind) :
    a.serialized = b.serialized ∧ after = behind := by
  have reads {tx : CTransaction} (fit : tx.Representable) :
      (CTransaction.unserialize (2 ^ 64) a).Reads tx.serialize (readInto a tx) := by
    refine (readsIff fit).reads ⟨fit.vinSize.le, fun txin member => ?_, fit.voutSize.le, fun txout member => ?_, ?_⟩
    · exact (fit.vin txin member).2.2.1.le
    · exact (fit.vout txout member).2.le
    · exact fun _ => fit.comment.le
  obtain ⟨read, left⟩ := (reads fitA).unique (reads fitB) same
  have fields := congrArg serialized read
  rw [serialized_readInto, serialized_readInto] at fields
  exact ⟨fields, left⟩

theorem serialize_eq_iff (fitA : a.Representable) (fitB : b.Representable) :
    a.serialize = b.serialize ↔ a.serialized = b.serialized := by
  constructor
  · intro same
    exact (serialized_of_serialize fitA fitB (congrArg (· ++ []) same)).1
  · exact serialize_congr

end CTransaction

/-! ## What is read

A size may be read from a longer form than the one that is written.
-/

/-- The bytes are the encoding, or they are more and do not begin with it. -/
def Recodes (encoding bytes : List UInt8) : Prop :=
  encoding = bytes ∨ encoding.length < bytes.length ∧ ¬ encoding <+: bytes

theorem Recodes.rfl : Recodes bytes bytes := .inl (Eq.refl bytes)

theorem Recodes.length_le {encoding : List UInt8} (recodes : Recodes encoding bytes) :
    encoding.length ≤ bytes.length := by
  rcases recodes with same | longer
  · exact (congrArg List.length same).le
  · exact longer.1.le

theorem Recodes.append {encoding encoding' bytes' : List UInt8} (first : Recodes encoding bytes)
    (second : Recodes encoding' bytes') : Recodes (encoding ++ encoding') (bytes ++ bytes') := by
  have more := first.length_le
  have more' := second.length_le
  unfold Recodes
  rw [List.length_append, List.length_append]
  rcases first with rfl | ⟨longer, differs⟩
  · rcases second with rfl | ⟨longer, differs⟩
    · exact .inl (Eq.refl _)
    · exact .inr ⟨by omega, fun inside => differs ((List.prefix_append_right_inj _).mp inside)⟩
  · refine .inr ⟨by omega, fun inside => differs ?_⟩
    have front := (List.prefix_append encoding encoding').trans inside
    exact List.prefix_of_prefix_length_le front (List.prefix_append ..) more

theorem recodes_flatMap {α : Type} {encode : α → List UInt8} {values : List α} {parts : List (List UInt8)}
    (each : List.Forall₂ (fun value part => Recodes (encode value) part) values parts) :
    Recodes (values.flatMap encode) parts.flatten := by
  induction each with
  | nil => exact .rfl
  | cons first _ ih =>
    rw [List.flatMap_cons, List.flatten_cons]
    exact first.append ih

/-- A size that stands in a wider field than it needs takes more bytes. -/
private theorem recodes_compactSize {width : ℕ} (forms : (chSize, width) ∈ [(253, 2), (254, 4), (255, 8)])
    (bound : n < 256 ^ width) : Recodes (writeCompactSize n) (encode 1 chSize ++ encode width n) := by
  have limit : UINT_MAX = 4294967295 := Eq.refl _
  have direct {chSize : ℕ} {field : List UInt8} (small : n < 253) (marker : 253 ≤ chSize ∧ chSize < 256)
      (positive : 0 < field.length) : Recodes (encode 1 n) (encode 1 chSize ++ field) := by
    refine .inr ⟨by simpa using positive, fun inside => ?_⟩
    have first := congrArg UInt8.toNat (List.cons_prefix_cons.mp inside).1
    rw [UInt8.toNat_ofNat', UInt8.toNat_ofNat'] at first
    omega
  simp only [List.mem_cons, Prod.mk.injEq, List.not_mem_nil, or_false] at forms
  unfold writeCompactSize
  rcases forms with ⟨rfl, rfl⟩ | ⟨rfl, rfl⟩ | ⟨rfl, rfl⟩
  · split
    next small => exact direct small (by decide) (by simp)
    · rw [if_pos (by omega)]
      exact .inl (Eq.refl _)
  · split
    next small => exact direct small (by decide) (by simp)
    split
    · exact .inr ⟨by simp, fun inside => absurd (List.cons_prefix_cons.mp inside).1 (by decide)⟩
    · rw [if_pos (by omega)]
      exact .inl (Eq.refl _)
  · split
    next small => exact direct small (by decide) (by simp)
    split
    · exact .inr ⟨by simp, fun inside => absurd (List.cons_prefix_cons.mp inside).1 (by decide)⟩
    split
    · exact .inr ⟨by simp, fun inside => absurd (List.cons_prefix_cons.mp inside).1 (by decide)⟩
    · exact .inl (Eq.refl _)

private theorem takes_field {width : ℕ} (forms : (chSize, width) ∈ [(253, 2), (254, 4), (255, 8)]) :
    (read width).Takes fun n bytes => Recodes (writeCompactSize n) (encode 1 chSize ++ bytes) := by
  apply (takes_read width).imp
  rintro n bytes ⟨rfl, bound⟩
  exact recodes_compactSize forms bound

theorem takes_compactSize (nMaxSize : ℕ) : (readCompactSize nMaxSize).Takes fun n bytes => Recodes (writeCompactSize n) bytes := by
  have limit (n : ℕ) (first second : List UInt8) (recodes : Recodes (writeCompactSize n) (first ++ second)) :
      (if nMaxSize < n then failure else pure n : Reader ℕ).Takes fun n third =>
        Recodes (writeCompactSize n) (first ++ (second ++ third)) := by
    split
    · exact takes_failure
    · exact takes_pure (by rwa [List.append_nil])
  refine (takes_read 1).bind fun chSize first ⟨marker, small⟩ => ?_
  subst marker
  by_cases direct : chSize < 253
  · rw [if_pos direct]
    refine (takes_pure (P := fun n second => Recodes (writeCompactSize n) (encode 1 chSize ++ second)) ?_).bind
      fun n second => limit n _ second
    rw [writeCompactSize, if_pos direct, List.append_nil]
    exact .rfl
  · rw [if_neg direct]
    split
    next two => exact (takes_field (by simp [two])).bind fun n second => limit n _ second
    split
    next four => exact (takes_field (by simp [four])).bind fun n second => limit n _ second
    next =>
      have eight : chSize = 255 := by omega
      exact (takes_field (by simp [eight])).bind fun n second => limit n _ second

theorem takes_vector (nMaxSize : ℕ) : (readVector nMaxSize).Takes fun l bytes => Recodes (writeVector l) bytes := by
  refine (takes_compactSize nMaxSize).bind fun n size recodes => (takes_bytes n).imp ?_
  rintro l bytes ⟨rfl, rfl⟩
  exact recodes.append .rfl

theorem takes_objects {α : Type} {serialize : α → List UInt8} {unserialize : Reader α}
    (each : unserialize.Takes fun value bytes => Recodes (serialize value) bytes) (nMaxSize : ℕ) :
    (readObjects nMaxSize unserialize).Takes fun v bytes => Recodes (writeObjects serialize v) bytes := by
  refine (takes_compactSize nMaxSize).bind fun n size recodes => (takes_many each n).imp ?_
  rintro v bytes ⟨rfl, parts, rfl, related⟩
  exact recodes.append (recodes_flatMap related)

theorem COutPoint.takes : COutPoint.unserialize.Takes fun out bytes => out.serialize = bytes := by
  refine (takes_read 32).bind fun hash first ⟨encoded, _⟩ => (takes_read 4).map (COutPoint.mk hash) ?_
  rintro n second ⟨rfl, -⟩
  rw [← encoded]
  rfl

theorem CTxIn.takes (nMaxSize : ℕ) : (CTxIn.unserialize nMaxSize).Takes fun txin bytes => Recodes txin.serialize bytes := by
  refine COutPoint.takes.bind fun prevout first same => (takes_vector nMaxSize).bind fun scriptSig second recodes =>
    (takes_read 4).map (CTxIn.mk prevout scriptSig) ?_
  rintro nSequence third ⟨rfl, -⟩
  subst same
  exact .append .rfl (.append recodes .rfl)

theorem CTxOut.takes (nMaxSize : ℕ) :
    (CTxOut.unserializePlain nMaxSize).Takes fun txout bytes => Recodes txout.serializePlain bytes := by
  refine (takes_readInt 8).bind fun nValue first same => (takes_vector nMaxSize).map (CTxOut.mk nValue) ?_
  rintro scriptPubKey second recodes
  subst same
  exact .append .rfl recodes

/-- The bytes of a transaction are those that are written, or they are more. -/
theorem CTransaction.takes (nMaxSize : ℕ) (old : CTransaction) :
    (CTransaction.unserialize nMaxSize old).Takes fun tx bytes => Recodes tx.serialize bytes := by
  refine (takes_readInt 4).bind fun nVersion first version =>
    (takes_objects (CTxIn.takes nMaxSize) nMaxSize).bind fun vin second inputs =>
    (takes_objects (CTxOut.takes nMaxSize) nMaxSize).bind fun vout third outputs =>
    (takes_read 4).bind fun nLockTime fourth ⟨time, _⟩ => ?_
  subst version time
  by_cases written : TXCOMMENT_VERSION ≤ nVersion
  · rw [if_pos written]
    apply (takes_vector nMaxSize).map (CTransaction.mk nVersion vin vout nLockTime)
    intro strTxComment fifth recodes
    rw [serialize, if_pos written]
    exact .append .rfl (inputs.append (outputs.append (.append .rfl recodes)))
  · rw [if_neg written]
    apply takes_pure
    rw [serialize, if_neg written]
    exact .append .rfl (inputs.append (outputs.append (.append .rfl .rfl)))

end BitCrystal
