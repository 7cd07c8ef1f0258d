import BitCrystal.Model.Signature
import BitCrystal.Model.TestNet
import BitCrystal.Proofs.TxCodec

/-! # What a signature commits to

Two transactions have the same signature hash exactly when they agree on the fields the hash type
commits to. The scripts of the inputs are not among them.
-/

namespace BitCrystal

variable {nHashType : BitVec 32} {nIn : ℕ} {scriptCode : CScript}

/-- The other inputs can be updated at will. -/
def OpenSequences (nHashType : BitVec 32) : Prop :=
  nHashType &&& 0x1f = SIGHASH_NONE ∨ nHashType &&& 0x1f = SIGHASH_SINGLE

instance (nHashType : BitVec 32) : Decidable (OpenSequences nHashType) := inferInstanceAs (Decidable (_ ∨ _))

def AnyoneCanPay (nHashType : BitVec 32) : Prop := nHashType &&& SIGHASH_ANYONECANPAY ≠ 0

instance (nHashType : BitVec 32) : Decidable (AnyoneCanPay nHashType) := inferInstanceAs (Decidable (¬ _))

/-- Two transactions agree on everything the hash type commits to. -/
@[mk_iff]
structure CommitsAlike (nHashType : BitVec 32) (nIn : ℕ) (a b : CTransaction) : Prop where
  nVersion : a.nVersion = b.nVersion
  nLockTime : a.nLockTime = b.nLockTime
  comment : CTransaction.TXCOMMENT_VERSION ≤ a.nVersion → a.strTxComment = b.strTxComment
  prevout : a.prevouts[nIn]? = b.prevouts[nIn]?
  sequence : a.vin[nIn]?.map CTxIn.nSequence = b.vin[nIn]?.map CTxIn.nSequence
  otherPrevouts : ¬ AnyoneCanPay nHashType → a.prevouts = b.prevouts
  otherSequences : ¬ AnyoneCanPay nHashType → ¬ OpenSequences nHashType →
    a.vin.map CTxIn.nSequence = b.vin.map CTxIn.nSequence
  outputs : ¬ OpenSequences nHashType → a.vout = b.vout
  output : nHashType &&& 0x1f = SIGHASH_SINGLE → a.vout[nIn]? = b.vout[nIn]?

/-- An input of the copy before the others are cut off. -/
def blank (nIn : ℕ) (scriptCode : CScript) (fUpdate : Prop) [Decidable fUpdate] (i : ℕ) (txin : CTxIn) : CTxIn where
  prevout := txin.prevout
  scriptSig := if i = nIn then scriptCode else []
  nSequence := if fUpdate ∧ i ≠ nIn then 0 else txin.nSequence

theorem blank_congr {p q : Prop} [Decidable p] [Decidable q] (same : p ↔ q) :
    blank nIn scriptCode p = blank nIn scriptCode q := by
  funext i txin
  simp [blank, same]

theorem blankScripts_eq (vin : List CTxIn) : blankScripts vin nIn scriptCode = vin.mapIdx (blank nIn scriptCode False) := rfl

theorem blankSequences_eq (vin : List CTxIn) :
    blankSequences (blankScripts vin nIn scriptCode) nIn = vin.mapIdx (blank nIn scriptCode True) := by
  rw [blankSequences, blankScripts, List.mapIdx_mapIdx]
  congr 1
  funext i txin
  simp only [blank, Function.comp]
  split_ifs <;> simp_all

theorem map_blank_eq_iff {fUpdate : Prop} [Decidable fUpdate] {i : ℕ} {a b : Option CTxIn} :
    a.map (blank nIn scriptCode fUpdate i) = b.map (blank nIn scriptCode fUpdate i) ↔
      a.map CTxIn.prevout = b.map CTxIn.prevout ∧
        ((fUpdate → i = nIn) → a.map CTxIn.nSequence = b.map CTxIn.nSequence) := by
  cases a <;> cases b
  all_goals simp [blank]
  grind

theorem mapIdx_blank_eq_iff {fUpdate : Prop} [Decidable fUpdate] {a b : List CTxIn} :
    a.mapIdx (blank nIn scriptCode fUpdate) = b.mapIdx (blank nIn scriptCode fUpdate) ↔
      a.map CTxIn.prevout = b.map CTxIn.prevout ∧ a[nIn]?.map CTxIn.nSequence = b[nIn]?.map CTxIn.nSequence ∧
        (¬ fUpdate → a.map CTxIn.nSequence = b.map CTxIn.nSequence) := by
  simp only [List.ext_getElem?_iff, List.getElem?_mapIdx, List.getElem?_map, map_blank_eq_iff]
  constructor
  · intro same
    exact ⟨fun i => (same i).1, (same nIn).2 fun _ => rfl, fun kept i => (same i).2 fun blanked => absurd blanked kept⟩
  · rintro ⟨prevouts, sequence, others⟩ i
    refine ⟨prevouts i, fun only => ?_⟩
    by_cases blanked : fUpdate
    · rwa [only blanked]
    · exact others blanked i

theorem getElem?_blankOutputs (vout : List CTxOut) (nOut j : ℕ) :
    (blankOutputs vout nOut)[j]? =
      if j < nOut then vout[j]?.map fun _ => .null else if j = nOut then vout[j]? else none := by
  rw [blankOutputs, List.getElem?_mapIdx, List.getElem?_take]
  split_ifs <;> first | omega | simp_all

theorem blankOutputs_eq_iff {a b : List CTxOut} (inA : nIn < a.length) (inB : nIn < b.length) :
    blankOutputs a nIn = blankOutputs b nIn ↔ a[nIn]? = b[nIn]? := by
  simp only [List.ext_getElem?_iff, getElem?_blankOutputs]
  constructor
  · intro same
    have last := same nIn
    rwa [if_neg (lt_irrefl nIn), if_pos rfl, if_neg (lt_irrefl nIn), if_pos rfl] at last
  · intro same j
    split
    next before => rw [List.getElem?_eq_getElem (by omega), List.getElem?_eq_getElem (by omega)]; rfl
    next =>
      split
      next here => rw [here, same]
      next => rfl

/-- The parts of the copy that is hashed. -/
structure Copied (scriptCode : CScript) (nHashType : BitVec 32) (nIn : ℕ) (tx copy : CTransaction) : Prop where
  inside : nIn < tx.vin.length
  single : nHashType &&& 0x1f = SIGHASH_SINGLE → nIn < tx.vout.length
  rest : copy = { tx with vin := copy.vin, vout := copy.vout }
  vin : copy.vin =
    let vin := tx.vin.mapIdx (blank nIn (scriptCode.findAndDelete [OP_CODESEPARATOR]) (OpenSequences nHashType))
    if AnyoneCanPay nHashType then vin[nIn]?.toList else vin
  vout : copy.vout =
    if nHashType &&& 0x1f = SIGHASH_NONE then []
    else if nHashType &&& 0x1f = SIGHASH_SINGLE then blankOutputs tx.vout nIn else tx.vout

theorem copied_of_signedCopy {tx copy : CTransaction} (found : signedCopy scriptCode tx nIn nHashType = some copy) :
    Copied scriptCode nHashType nIn tx copy := by
  rw [signedCopy] at found
  split at found
  · cases found
  next inside =>
    obtain ⟨⟨vin, vout⟩, blanked, rfl⟩ := Option.map_eq_some_iff.mp found
    rw [blankByType, blankSequences_eq, blankScripts_eq] at blanked
    split at blanked
    next isNone =>
      cases blanked
      have other : nHashType &&& 0x1f ≠ SIGHASH_SINGLE := by rw [isNone]; decide
      refine ⟨Nat.lt_of_not_le inside, fun isSingle => absurd isSingle other, rfl, ?_, (if_pos isNone).symm⟩
      have update : OpenSequences nHashType := .inl isNone
      rw [blank_congr (iff_of_true update trivial)]
      rfl
    next notNone =>
      split at blanked
      next isSingle =>
        split at blanked
        · cases blanked
        next there =>
          cases blanked
          refine ⟨Nat.lt_of_not_le inside, fun _ => Nat.lt_of_not_le there, rfl, ?_, ?_⟩
          · have update : OpenSequences nHashType := .inr isSingle
            rw [blank_congr (iff_of_true update trivial)]
            rfl
          · rw [if_neg notNone, if_pos isSingle]
      next notSingle =>
        cases blanked
        refine ⟨Nat.lt_of_not_le inside, fun isSingle => absurd isSingle notSingle, rfl, ?_, ?_⟩
        · have kept : ¬ OpenSequences nHashType := fun update => update.elim notNone notSingle
          rw [blank_congr (iff_of_false kept not_false)]
          rfl
        · rw [if_neg notNone, if_neg notSingle]

private theorem toList_inj {α : Type} {a b : Option α} : a.toList = b.toList ↔ a = b := by
  cases a <;> cases b <;> simp

namespace Copied

variable {tx copy other copy' : CTransaction}

theorem representable (copied : Copied scriptCode nHashType nIn tx copy) (fit : tx.Representable)
    (script : scriptCode.length < 2 ^ 64) : copy.Representable := by
  have short := (CScript.length_findAndDelete scriptCode [OP_CODESEPARATOR]).trans_lt script
  have blanked (i : ℕ) {txin : CTxIn} (fit : txin.Representable) :
      (blank nIn (scriptCode.findAndDelete [OP_CODESEPARATOR]) (OpenSequences nHashType) i txin).Representable := by
    refine ⟨fit.1, fit.2.1, ?_, ?_⟩
    · simp only [blank]
      split
      · exact short
      · decide
    · simp only [blank]
      split
      · decide
      · exact fit.2.2.2
  have all : ∀ txin ∈ tx.vin.mapIdx (blank nIn (scriptCode.findAndDelete [OP_CODESEPARATOR]) (OpenSequences nHashType)),
      txin.Representable := by
    intro txin member
    obtain ⟨i, there, rfl⟩ := List.mem_mapIdx.mp member
    exact blanked i (fit.vin _ (List.getElem_mem there))
  have inputs : copy.vin.length ≤ tx.vin.length ∧ ∀ txin ∈ copy.vin, txin.Representable := by
    have inside := copied.inside
    rw [copied.vin]
    split
    · refine ⟨?_, fun txin member => all txin (List.mem_of_getElem? (Option.mem_toList.mp member))⟩
      exact Option.length_toList_le.trans (Nat.one_le_of_lt inside)
    · exact ⟨(List.length_mapIdx ..).le, all⟩
  have outputs : copy.vout.length ≤ tx.vout.length ∧ ∀ txout ∈ copy.vout, txout.Representable := by
    rw [copied.vout]
    split
    · exact ⟨Nat.zero_le _, fun _ => nofun⟩
    split
    · refine ⟨?_, fun txout member => ?_⟩
      · rw [blankOutputs, List.length_mapIdx, List.length_take]
        exact min_le_right ..
      · obtain ⟨i, there, rfl⟩ := List.mem_mapIdx.mp member
        split
        · decide
        · exact fit.vout _ (List.mem_of_mem_take (List.getElem_mem there))
    · exact ⟨le_rfl, fit.vout⟩
  rw [copied.rest]
  exact ⟨fit.nVersion, inputs.1.trans_lt fit.vinSize, inputs.2, outputs.1.trans_lt fit.voutSize, outputs.2,
    fit.nLockTime, fit.comment⟩

/-- The copies are written alike exactly when the transactions agree on what the hash type commits to. -/
theorem serialized_eq_iff (copied : Copied scriptCode nHashType nIn tx copy)
    (copied' : Copied scriptCode nHashType nIn other copy') :
    copy.serialized = copy'.serialized ↔ CommitsAlike nHashType nIn tx other := by
  have comments : copy.serialized = copy'.serialized ↔ tx.nVersion = other.nVersion ∧ copy.vin = copy'.vin ∧
      copy.vout = copy'.vout ∧ tx.nLockTime = other.nLockTime ∧
      (CTransaction.TXCOMMENT_VERSION ≤ tx.nVersion → tx.strTxComment = other.strTxComment) := by
    rw [copied.rest, copied'.rest]
    simp only [CTransaction.serialized, SerializedTx.mk.injEq]
    grind
  have inputs : copy.vin = copy'.vin ↔ tx.prevouts[nIn]? = other.prevouts[nIn]? ∧
      tx.vin[nIn]?.map CTxIn.nSequence = other.vin[nIn]?.map CTxIn.nSequence ∧
      (¬ AnyoneCanPay nHashType → tx.prevouts = other.prevouts ∧ (¬ OpenSequences nHashType →
        tx.vin.map CTxIn.nSequence = other.vin.map CTxIn.nSequence)) := by
    rw [copied.vin, copied'.vin]
    by_cases alone : AnyoneCanPay nHashType
    · simp only [alone, if_true, toList_inj, List.getElem?_mapIdx, map_blank_eq_iff, CTransaction.prevouts,
        List.getElem?_map]
      simp
    · simp only [alone, if_false, mapIdx_blank_eq_iff, not_false_eq_true, true_implies, CTransaction.prevouts]
      constructor
      · rintro ⟨prevouts, sequence, sequences⟩
        exact ⟨by rw [prevouts], sequence, prevouts, sequences⟩
      · rintro ⟨-, sequence, prevouts, sequences⟩
        exact ⟨prevouts, sequence, sequences⟩
  have outputs : copy.vout = copy'.vout ↔ (¬ OpenSequences nHashType → tx.vout = other.vout) ∧
      (nHashType &&& 0x1f = SIGHASH_SINGLE → tx.vout[nIn]? = other.vout[nIn]?) := by
    rw [copied.vout, copied'.vout, OpenSequences]
    split
    next isNone =>
      have notSingle : nHashType &&& 0x1f ≠ SIGHASH_SINGLE := by rw [isNone]; decide
      exact ⟨fun _ => ⟨fun kept => absurd (.inl isNone) kept, fun isSingle => absurd isSingle notSingle⟩, fun _ => rfl⟩
    next notNone =>
      split
      next isSingle =>
        rw [blankOutputs_eq_iff (copied.single isSingle) (copied'.single isSingle)]
        exact ⟨fun same => ⟨fun kept => absurd (.inr isSingle) kept, fun _ => same⟩, fun both => both.2 isSingle⟩
      next notSingle =>
        constructor
        · exact fun same => ⟨fun _ => same, fun isSingle => absurd isSingle notSingle⟩
        · exact fun both => both.1 fun update => update.elim notNone notSingle
  rw [comments, inputs, outputs, commitsAlike_iff]
  constructor
  · rintro ⟨version, ⟨prevout, sequence, others⟩, ⟨all, output⟩, time, comment⟩
    exact ⟨version, time, comment, prevout, sequence, fun more => (others more).1, fun more => (others more).2, all, output⟩
  · rintro ⟨version, time, comment, prevout, sequence, prevouts, sequences, all, output⟩
    exact ⟨version, ⟨prevout, sequence, fun more => ⟨prevouts more, sequences more⟩⟩, ⟨all, output⟩, time, comment⟩

end Copied

/-- Two transactions have the same signature hash exactly when they agree on everything the hash type
commits to. -/
theorem signatureHash_eq_iff {hash : List UInt8 → Uint256} (injective : Function.Injective hash)
    {a b : CTransaction} (fitA : a.Representable) (fitB : b.Representable) (script : scriptCode.length < 2 ^ 64)
    (definedA : signatureHash hash scriptCode a nIn nHashType ≠ 1)
    (definedB : signatureHash hash scriptCode b nIn nHashType ≠ 1) :
    signatureHash hash scriptCode a nIn nHashType = signatureHash hash scriptCode b nIn nHashType ↔
      CommitsAlike nHashType nIn a b := by
  unfold signatureHash at definedA definedB ⊢
  split at definedA
  · exact absurd rfl definedA
  next copyA foundA =>
    split at definedB
    · exact absurd rfl definedB
    next copyB foundB =>
      have copiedA := copied_of_signedCopy foundA
      have copiedB := copied_of_signedCopy foundB
      rw [← copiedA.serialized_eq_iff copiedB]
      constructor
      · intro same
        have fitA := copiedA.representable fitA script
        have fitB := copiedB.representable fitB script
        exact (CTransaction.serialized_of_serialize fitA fitB (injective same)).1
      · intro same
        exact congrArg (fun bytes => hash (bytes ++ _)) (CTransaction.serialize_congr same)

/-- The number with these digits, from one to 256 each, and two more. -/
def TestNet.hashBytes : List UInt8 → Uint256
  | [] => 2
  | byte :: bytes => byte.toNat + 1 + 256 * (hashBytes bytes - 2) + 2

theorem TestNet.two_le_hashBytes (bytes : List UInt8) : 2 ≤ hashBytes bytes := by
  cases bytes with
  | nil => exact le_rfl
  | cons byte bytes => exact Nat.le_add_left ..

theorem TestNet.hashBytes_injective : Function.Injective hashBytes := by
  intro a b same
  induction a generalizing b with
  | nil =>
    cases b with
    | nil => rfl
    | cons byte b =>
      have different : (2 : ℕ) = byte.toNat + 1 + 256 * (hashBytes b - 2) + 2 := same
      omega
  | cons byte a ih =>
    cases b with
    | nil =>
      have different : byte.toNat + 1 + 256 * (hashBytes a - 2) + 2 = (2 : ℕ) := same
      omega
    | cons byte' b =>
      have digits : byte.toNat + 1 + 256 * (hashBytes a - 2) + 2 = byte'.toNat + 1 + 256 * (hashBytes b - 2) + 2 := same
      have small := byte.toNat_lt
      have small' := byte'.toNat_lt
      have low := two_le_hashBytes a
      have low' := two_le_hashBytes b
      have rest : hashBytes a = hashBytes b := by
        unfold Uint256 at *
        omega
      have first : byte.toNat = byte'.toNat := by omega
      rw [UInt8.toNat_inj.mp first, ih rest]

open TestNet in
/-- A transaction with another signature in its input. -/
theorem signatureHash_eq_iff_scriptSig :
    let a := spending 2 [⟨7, 0⟩] [400000]
    let b := { a with vin := [{ prevout := ⟨7, 0⟩, scriptSig := [0x51] }] }
    signatureHash hashBytes [OP_CHECKSIG] a 0 SIGHASH_ALL = signatureHash hashBytes [OP_CHECKSIG] b 0 SIGHASH_ALL := by
  intro a b
  have alike : CommitsAlike SIGHASH_ALL 0 a b := by constructor <;> decide
  refine (signatureHash_eq_iff hashBytes_injective (by decide) (by decide) (by decide) ?_ ?_).mpr alike
  · exact Nat.ne_of_gt (two_le_hashBytes _)
  · exact Nat.ne_of_gt (two_le_hashBytes _)

end BitCrystal
