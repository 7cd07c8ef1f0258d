import BitCrystal.Model.Signature

/-! # Strict DER signatures

The checks of `IsCanonicalSignature` accept exactly the sequences of two shortest nonnegative integers, followed by a
hash type. Every byte they read lies inside the vector, as each length byte is compared before it is used.
-/

namespace BitCrystal

open Check

/-- The bytes of an integer that is not negative and has no superfluous zero in front. -/
def DerInteger : valtype → Prop
  | [] => False
  | [high] => high < 0x80
  | high :: next :: _ => high < 0x80 ∧ (high = 0 → 0x80 ≤ next)

/-- One of the three hash types, also with `SIGHASH_ANYONECANPAY`. -/
def DefinedHashType (nHashType : UInt8) : Prop :=
  ∃ base ∈ ([1, 2, 3] : List UInt8), nHashType = base ∨ nHashType = base + 0x80

/-- `30 len 02 lenR R 02 lenS S hashtype`. -/
def StrictDer (vchSig : valtype) : Prop :=
  ∃ R S nHashType, vchSig = 0x30 :: UInt8.ofNat (R.length + S.length + 4) ::
      (0x02 :: UInt8.ofNat R.length :: R ++ (0x02 :: UInt8.ofNat S.length :: S ++ [nHashType])) ∧
    R.length + S.length + 7 ≤ 73 ∧ DerInteger R ∧ DerInteger S ∧ DefinedHashType nHashType

set_option maxRecDepth 4000 in
private theorem high_bit (k : Fin 256) : UInt8.ofNat k &&& 0x80 = 0 ↔ UInt8.ofNat k < 0x80 := by
  revert k
  decide

theorem and_0x80_eq_zero (b : UInt8) : b &&& 0x80 = 0 ↔ b < 0x80 := by
  have all := high_bit ⟨b.toNat, b.toNat_lt⟩
  rwa [UInt8.ofNat_toNat] at all

set_option maxRecDepth 4000 in
private theorem hash_type (k : Fin 256) : ¬ ((UInt8.ofNat k &&& ~~~0x80) < 1 ∨ (UInt8.ofNat k &&& ~~~0x80) > 3) ↔
    DefinedHashType (UInt8.ofNat k) := by
  simp only [DefinedHashType, List.mem_cons, List.not_mem_nil, or_false, exists_eq_or_imp, exists_eq_left]
  revert k
  decide

theorem definedHashType_iff (b : UInt8) : ¬ ((b &&& ~~~0x80) < 1 ∨ (b &&& ~~~0x80) > 3) ↔ DefinedHashType b := by
  have all := hash_type ⟨b.toNat, b.toNat_lt⟩
  rwa [UInt8.ofNat_toNat] at all

variable {i : ℕ} {vchSig : valtype}

theorem byteAt_eq_ok {vch : valtype} {b : UInt8} : byteAt vch i = .ok b ↔ vch[i]? = some b :=
  assertSome_eq_ok

theorem byteAt_ne_undefined {vch : valtype} (inside : i < vch.length) : byteAt vch i ≠ .error .undefined := by
  rw [byteAt, List.getElem?_eq_getElem inside]
  nofun

section Integer

variable {name : String} {vchSig : valtype} {start nLen : ℕ}

theorem canonicalInteger_ne_undefined (inside : start + nLen < vchSig.length) :
    canonicalInteger name vchSig start nLen ≠ .error .undefined := by
  unfold canonicalInteger
  refine bind_ne_error (byteAt_ne_undefined (by omega)) fun mark _ => ?_
  apply rejectIf_bind_ne_error (by simp)
  refine bind_ne_error (rejectIf_ne_error (by simp)) fun _ nonempty => ?_
  rw [rejectIf_eq_ok] at nonempty
  refine bind_ne_error (byteAt_ne_undefined (by omega)) fun high _ => ?_
  apply rejectIf_bind_ne_error (by simp)
  split
  · refine bind_ne_error (byteAt_ne_undefined (by omega)) fun next _ => ?_
    exact rejectIf_ne_error (by simp)
  · nofun

/-- The checks on R and S. -/
theorem canonicalInteger_eq_ok (inside : start + nLen < vchSig.length) :
    canonicalInteger name vchSig start nLen = .ok () ↔
      vchSig[start - 2]? = some 0x02 ∧ DerInteger ((vchSig.drop start).take nLen) := by
  have at0 : vchSig[start]? = (vchSig.drop start)[0]? := by rw [List.getElem?_drop, Nat.add_zero]
  have at1 : vchSig[start + 1]? = (vchSig.drop start)[1]? := by rw [List.getElem?_drop]
  have size : (vchSig.drop start).length = vchSig.length - start := List.length_drop
  unfold canonicalInteger
  simp only [bind_eq_ok, byteAt_eq_ok, rejectIf_eq_ok, ne_eq, not_not, and_0x80_eq_zero, at0]
  generalize vchSig.drop start = bytes at at1 size ⊢
  rcases bytes with _ | ⟨high, bytes⟩
  · rw [List.length_nil] at size
    omega
  rcases nLen with _ | _ | nLen
  · simp [DerInteger]
  · simp [DerInteger]
  rcases bytes with _ | ⟨next, bytes⟩
  · rw [List.length_singleton] at size
    omega
  by_cases zero : high = 0
  · simp [DerInteger, zero, bind_eq_ok, byteAt_eq_ok, at1]
  · simp [DerInteger, zero]

end Integer

/-- What the checks establish, byte by byte. -/
structure CanonicalBytes (vchSig : valtype) (nLenR nLenS : ℕ) : Prop where
  short : vchSig.length ≤ 73
  size : nLenR + nLenS + 7 = vchSig.length
  hashType : ∃ nHashType, vchSig[vchSig.length - 1]? = some nHashType ∧ DefinedHashType nHashType
  sequence : vchSig[0]? = some 0x30
  total : ∃ len, vchSig[1]? = some len ∧ len.toNat = vchSig.length - 3
  lenR : ∃ len, vchSig[3]? = some len ∧ len.toNat = nLenR
  lenS : ∃ len, vchSig[5 + nLenR]? = some len ∧ len.toNat = nLenS
  markR : vchSig[2]? = some 0x02
  markS : vchSig[4 + nLenR]? = some 0x02
  R : DerInteger ((vchSig.drop 4).take nLenR)
  S : DerInteger ((vchSig.drop (6 + nLenR)).take nLenS)

theorem isCanonicalSignature_ne_undefined (vchSig : valtype) : isCanonicalSignature vchSig ≠ .error .undefined := by
  unfold isCanonicalSignature
  refine bind_ne_error (rejectIf_ne_error (by simp)) fun _ long => ?_
  refine bind_ne_error (rejectIf_ne_error (by simp)) fun _ short => ?_
  rw [rejectIf_eq_ok] at long short
  refine bind_ne_error (byteAt_ne_undefined (by omega)) fun last _ => ?_
  apply rejectIf_bind_ne_error (by simp)
  refine bind_ne_error (byteAt_ne_undefined (by omega)) fun sequence _ => ?_
  apply rejectIf_bind_ne_error (by simp)
  refine bind_ne_error (byteAt_ne_undefined (by omega)) fun total _ => ?_
  apply rejectIf_bind_ne_error (by simp)
  refine bind_ne_error (byteAt_ne_undefined (by omega)) fun lenR _ => ?_
  refine bind_ne_error (rejectIf_ne_error (by simp)) fun _ placed => ?_
  rw [rejectIf_eq_ok] at placed
  refine bind_ne_error (byteAt_ne_undefined (by omega)) fun lenS _ => ?_
  refine bind_ne_error (rejectIf_ne_error (by simp)) fun _ sum => ?_
  rw [rejectIf_eq_ok] at sum
  apply bind_ne_error
  · apply canonicalInteger_ne_undefined
    omega
  · intro _ _
    apply canonicalInteger_ne_undefined
    omega

theorem isCanonicalSignature_eq_ok :
    isCanonicalSignature vchSig = .ok () ↔ ∃ nLenR nLenS, CanonicalBytes vchSig nLenR nLenS := by
  unfold isCanonicalSignature
  simp only [bind_eq_ok, byteAt_eq_ok, rejectIf_eq_ok, definedHashType_iff, ne_eq, not_not]
  constructor
  · rintro ⟨_, long, _, short, last, at_last, _, hashType, _, at0, _, rfl, len, at1, _, total, lenR, at3, _, placed,
      lenS, at5, _, sum, ⟨⟩, okR, okS⟩
    rw [canonicalInteger_eq_ok (by omega)] at okR okS
    exact ⟨lenR.toNat, lenS.toNat, {
      short := by omega
      size := sum
      hashType := ⟨last, at_last, hashType⟩
      sequence := at0
      total := ⟨len, at1, total⟩
      lenR := ⟨lenR, at3, rfl⟩
      lenS := ⟨lenS, at5, rfl⟩
      markR := okR.1
      markS := by rw [show 4 + lenR.toNat = 6 + lenR.toNat - 2 by omega]; exact okS.1
      R := okR.2
      S := okS.2 }⟩
  · rintro ⟨_, _, canonical⟩
    obtain ⟨short, size, ⟨last, at_last, hashType⟩, sequence, ⟨len, at1, total⟩, ⟨lenR, at3, rfl⟩, ⟨lenS, at5, rfl⟩,
      markR, markS, R, S⟩ := canonical
    have someR : 0 < lenR.toNat := by
      rcases Nat.eq_zero_or_pos lenR.toNat with zero | positive
      · rw [zero] at R
        exact absurd R (by simp [DerInteger])
      · exact positive
    have someS : 0 < lenS.toNat := by
      rcases Nat.eq_zero_or_pos lenS.toNat with zero | positive
      · rw [zero] at S
        exact absurd S (by simp [DerInteger])
      · exact positive
    refine ⟨(), by omega, (), by omega, last, at_last, (), hashType, 0x30, sequence, (), rfl, len, at1, (), total, lenR,
      at3, (), by omega, lenS, at5, (), size, (), ?_, ?_⟩
    · exact (canonicalInteger_eq_ok (by omega)).mpr ⟨markR, R⟩
    · apply (canonicalInteger_eq_ok (by omega)).mpr
      rw [show 6 + lenR.toNat - 2 = 4 + lenR.toNat by omega]
      exact ⟨markS, S⟩

private theorem getElem?_append_add {α : Type*} (l m : List α) (i : ℕ) : (l ++ m)[l.length + i]? = m[i]? := by
  rw [List.getElem?_append_right (Nat.le_add_right ..), Nat.add_sub_cancel_left]

private theorem eq_cons_of_getElem? {α : Type*} {l : List α} {a : α} (found : l[i]? = some a) :
    l.drop i = a :: l.drop (i + 1) := by
  obtain ⟨inside, rfl⟩ := List.getElem?_eq_some_iff.mp found
  exact List.drop_eq_getElem_cons inside

/-- The grammar written out has these bytes. -/
theorem canonicalBytes_of_strictDer (strict : StrictDer vchSig) :
    ∃ nLenR nLenS, CanonicalBytes vchSig nLenR nLenS := by
  obtain ⟨R, S, nHashType, rfl, short, derR, derS, hashType⟩ := strict
  have head (i : ℕ) (a b c d : UInt8) (rest : valtype) : (a :: b :: c :: d :: rest)[4 + i]? = rest[i]? := by
    rw [Nat.add_comm]
    rfl
  have tail (i : ℕ) (a b : UInt8) (rest : valtype) : (a :: b :: rest)[2 + i]? = rest[i]? := by
    rw [Nat.add_comm]
    rfl
  have toNat (n : ℕ) (small : n ≤ 73) : (UInt8.ofNat n).toNat = n := by
    rw [UInt8.toNat_ofNat']
    omega
  refine ⟨R.length, S.length, ?_⟩
  simp only [List.cons_append]
  generalize size : R.length + S.length + 4 = nLen
  have length : ((0x30 : UInt8) :: UInt8.ofNat nLen :: 0x02 :: UInt8.ofNat R.length ::
      (R ++ 0x02 :: UInt8.ofNat S.length :: (S ++ [nHashType]))).length = R.length + S.length + 7 := by
    simp only [List.length_cons, List.length_append, List.length_nil]
    omega
  exact {
    short := by omega
    size := length.symm
    hashType := by
      refine ⟨nHashType, ?_, hashType⟩
      rw [length, show R.length + S.length + 7 - 1 = 4 + (R.length + (2 + (S.length + 0))) by omega, head,
        getElem?_append_add, tail, getElem?_append_add]
      rfl
    sequence := rfl
    total := ⟨_, rfl, by rw [length, toNat _ (by omega)]; omega⟩
    lenR := ⟨_, rfl, toNat _ (by omega)⟩
    lenS := by
      refine ⟨UInt8.ofNat S.length, ?_, toNat _ (by omega)⟩
      rw [show 5 + R.length = 4 + (R.length + 1) by omega, head, getElem?_append_add]
      rfl
    markR := rfl
    markS := by
      rw [show 4 + R.length = 4 + (R.length + 0) by omega, head, getElem?_append_add]
      rfl
    R := by
      simpa only [List.drop_succ_cons, List.drop_zero, List.take_left] using derR
    S := by
      rw [show 6 + R.length = R.length + 1 + 1 + 1 + 1 + 1 + 1 by omega]
      simp only [List.drop_succ_cons]
      rw [List.drop_append, List.drop_eq_nil_of_le (by omega), show R.length + 1 + 1 - R.length = 2 by omega]
      simpa only [List.nil_append, List.drop_succ_cons, List.drop_zero, List.take_left] using derS }

/-- The bytes are the grammar written out. -/
theorem strictDer_of_canonicalBytes {nLenR nLenS : ℕ}
    (canonical : CanonicalBytes vchSig nLenR nLenS) : StrictDer vchSig := by
  obtain ⟨short, size, ⟨last, at_last, hashType⟩, sequence, ⟨len, at1, total⟩, ⟨lenR, at3, rfl⟩, ⟨lenS, at5, rfl⟩,
    markR, markS, derR, derS⟩ := canonical
  have sizeR : ((vchSig.drop 4).take lenR.toNat).length = lenR.toNat := by
    rw [List.length_take, List.length_drop]
    omega
  have sizeS : ((vchSig.drop (6 + lenR.toNat)).take lenS.toNat).length = lenS.toNat := by
    rw [List.length_take, List.length_drop]
    omega
  refine ⟨_, _, last, ?_, by omega, derR, derS, hashType⟩
  have total : UInt8.ofNat (lenR.toNat + lenS.toNat + 4) = len := by
    rw [show lenR.toNat + lenS.toNat + 4 = len.toNat by omega, UInt8.ofNat_toNat]
  have behindS : vchSig.drop (6 + lenR.toNat + lenS.toNat) = [last] := by
    rw [show vchSig.length - 1 = 6 + lenR.toNat + lenS.toNat by omega] at at_last
    rw [eq_cons_of_getElem? at_last, List.drop_eq_nil_of_le (by omega)]
  have restS := (List.take_append_drop lenS.toNat (vchSig.drop (6 + lenR.toNat))).symm
  rw [List.drop_drop, behindS] at restS
  have behindR : vchSig.drop (4 + lenR.toNat) =
      0x02 :: lenS :: (vchSig.drop (6 + lenR.toNat)).take lenS.toNat ++ [last] := by
    rw [eq_cons_of_getElem? markS, show 4 + lenR.toNat + 1 = 5 + lenR.toNat by omega, eq_cons_of_getElem? at5,
      show 5 + lenR.toNat + 1 = 6 + lenR.toNat by omega]
    exact congrArg (fun rest => 0x02 :: lenS :: rest) restS
  rw [sizeR, sizeS, total, UInt8.ofNat_toNat, UInt8.ofNat_toNat, ← behindR, ← List.drop_drop, List.cons_append,
    List.cons_append, List.take_append_drop, ← eq_cons_of_getElem? at3, ← eq_cons_of_getElem? markR,
    ← eq_cons_of_getElem? at1, ← eq_cons_of_getElem? sequence, List.drop_zero]

/-- Exactly the strict encodings are accepted, and no byte behind the end is read. -/
theorem isCanonicalSignature_iff (vchSig : valtype) :
    (isCanonicalSignature vchSig = .ok () ↔ StrictDer vchSig) ∧ isCanonicalSignature vchSig ≠ .error .undefined := by
  refine ⟨?_, isCanonicalSignature_ne_undefined vchSig⟩
  rw [isCanonicalSignature_eq_ok]
  exact ⟨fun ⟨_, _, canonical⟩ => strictDer_of_canonicalBytes canonical, canonicalBytes_of_strictDer⟩

end BitCrystal
