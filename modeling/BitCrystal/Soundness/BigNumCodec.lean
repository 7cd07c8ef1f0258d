import BitCrystal.Model.BigNumCodec
import BitCrystal.Soundness.BaseUint

/-! # The conversions of `CBigNum` agree

The bytes that a setter writes hold the number it is given, so that OpenSSL reads this number from them. `setvch` puts
back what `getvch` has taken off.
-/

namespace BitCrystal

open LittleEndian

namespace base_uint

theorem decode_toBytes (pn : List (BitVec 32)) : decode (toBytes pn) = Limbs.value pn := by
  induction pn with
  | nil => rfl
  | cons p pn ih =>
    change decode (encode 4 p.toNat ++ toBytes pn) = _
    rw [decode_append, decode_encode p.isLt, length_encode, ih, Limbs.value_cons]
    rfl

theorem value_ofBytes {WIDTH : ℕ} {bytes : List UInt8} (length : bytes.length = 4 * WIDTH) :
    Limbs.value (ofBytes WIDTH bytes) = decode bytes := by
  induction WIDTH generalizing bytes with
  | zero =>
    obtain rfl := List.length_eq_zero_iff.mp length
    rfl
  | succ WIDTH ih =>
    have four : (bytes.take 4).length = 4 := List.length_take_of_le (by omega)
    have whole := decode_append (bytes.take 4) (bytes.drop 4)
    have low := decode_lt (bytes.take 4)
    rw [List.take_append_drop, four] at whole
    rw [four] at low
    rw [ofBytes, Limbs.value_cons, ih (by rw [List.length_drop]; omega), whole, BitVec.toNat_ofNat]
    exact congrArg (· + _) (Nat.mod_eq_of_lt low)

end base_uint

namespace BIGNUM

open Mpi

variable {ssl : OpenSSL} (this : BIGNUM)

theorem sizeBytes_eq {length : ℕ} (small : length < 256 ^ 4) :
    sizeBytes (UInt32.ofNat length) = (encode 4 length).reverse := by
  have number : (UInt32.ofNat length).toNat = length := UInt32.toNat_ofNat_of_lt' small
  simp only [sizeBytes, encode, List.reverse_cons, List.reverse_nil, List.nil_append, List.cons_append, List.cons.injEq,
    and_true]
  refine ⟨?_, ?_, ?_, ?_⟩ <;> apply UInt8.toNat_inj.mp <;>
    simp [number, Nat.shiftRight_eq_div_pow, Nat.div_div_eq_div_mul, Nat.and_two_pow_sub_one_eq_mod _ 8]

variable {bytes : List UInt8}

theorem read_eq (follows : ssl.FollowsMpi) {b : BIGNUM} (small : bytes.length < 256 ^ 4)
    (represents : Represents bytes b.toInt) : this.read ssl bytes = b := by
  have found := follows.mpi2bn _ b ⟨bytes, small, rfl, represents⟩
  rw [read, sizeBytes_eq small, found, Option.getD_some]

theorem length_highBytes (rounds : ℕ) (n : UInt64) : (highBytes rounds n).length = rounds := by
  induction rounds generalizing n with
  | zero => rfl
  | succ rounds ih => rw [highBytes, List.length_cons, ih]

theorem value_highBytes {rounds : ℕ} (n : UInt64) (room : rounds ≤ 8) :
    value (highBytes rounds n) = n.toNat / 256 ^ (8 - rounds) := by
  have bound := n.toNat_lt
  induction rounds generalizing n with
  | zero => exact (Nat.div_eq_of_lt bound).symm
  | succ rounds ih =>
    have first : ((n >>> 56) &&& 0xff).toUInt8.toNat = n.toNat / 256 ^ 7 := by
      simp [Nat.shiftRight_eq_div_pow, Nat.and_two_pow_sub_one_eq_mod _ 8]
      omega
    have rest : (n <<< 8).toNat = n.toNat % 256 ^ 7 * 256 := by
      simp [Nat.shiftLeft_eq]
      omega
    have split : 256 ^ 7 = 256 ^ rounds * 256 ^ (7 - rounds) := by
      rw [← pow_add]
      congr 1
      omega
    have places : 8 - rounds = 7 - rounds + 1 := by omega
    have fewer : 8 - (rounds + 1) = 7 - rounds := by omega
    have positive : 0 < 256 ^ (7 - rounds) := Nat.pow_pos (by decide)
    rw [highBytes, value_cons, length_highBytes, ih (n <<< 8) (by omega) (n <<< 8).toNat_lt, first, rest, places,
      pow_succ 256 (7 - rounds), Nat.mul_div_mul_right _ _ (by decide), fewer]
    calc
      n.toNat / 256 ^ 7 * 256 ^ rounds + n.toNat % 256 ^ 7 / 256 ^ (7 - rounds)
          = (n.toNat % 256 ^ 7 + n.toNat / 256 ^ 7 * 256 ^ rounds * 256 ^ (7 - rounds)) / 256 ^ (7 - rounds) := by
        rw [Nat.add_mul_div_right _ _ positive, Nat.add_comm]
      _ = n.toNat / 256 ^ (7 - rounds) := by
        rw [Nat.mul_assoc, ← split, Nat.mul_comm, Nat.mod_add_div]

theorem skipZeroes_false (fNegative : Bool) (bytes : List UInt8) : skipZeroes fNegative false bytes = bytes := by
  induction bytes with
  | nil => rfl
  | cons c rest ih => rw [skipZeroes, ih]

theorem length_skipZeroes_le (fNegative fLeadingZeroes : Bool) (bytes : List UInt8) :
    (skipZeroes fNegative fLeadingZeroes bytes).length ≤ bytes.length + 1 := by
  fun_induction skipZeroes fNegative fLeadingZeroes bytes with
  | case1 => exact Nat.zero_le _
  | case2 rest ih => exact ih.trans (Nat.le_succ _)
  | case3 c rest _ _ ih => simp [skipZeroes_false]
  | case4 c rest _ _ _ ih => simp [skipZeroes_false]
  | case5 c rest _ _ _ ih => simp [skipZeroes_false]
  | case6 c rest ih => exact Nat.succ_le_succ ih

/-- The bytes written hold the number with its sign. -/
theorem represents_skipZeroes {fNegative : Bool} (nonzero : fNegative = true → value bytes ≠ 0) :
    Represents (skipZeroes fNegative true bytes) (if fNegative then -(value bytes : ℤ) else value bytes) := by
  induction bytes with
  | nil =>
    cases fNegative with
    | false => exact represents_nil.mpr rfl
    | true => exact absurd rfl (nonzero rfl)
  | cons c rest ih =>
    have zeroFirst (bytes : List UInt8) : value (0 :: bytes) = value bytes := by
      rw [value_cons, UInt8.toNat_zero, Nat.zero_mul, Nat.zero_add]
    rw [skipZeroes]
    by_cases zero : c = 0
    · rw [if_pos zero]
      rw [zero, zeroFirst] at nonzero ⊢
      exact ih nonzero
    rw [if_neg zero]
    by_cases high : c &&& 0x80 ≠ 0
    · -- The sign has a byte of its own.
      rw [← zeroFirst] at nonzero
      have represents := represents_cons (show (0 : UInt8) < 0x80 by decide) nonzero
      rw [if_pos high, skipZeroes_false]
      rwa [zeroFirst] at represents
    · have low : c < 0x80 := by
        have all : ∀ k < 256, UInt8.ofNat k &&& 0x80 = 0 → UInt8.ofNat k < 0x80 := by decide +kernel
        have this := all c.toNat c.toNat_lt
        rw [UInt8.ofNat_toNat] at this
        exact this (not_not.mp high)
      have represents := represents_cons low nonzero
      rw [if_neg high, skipZeroes_false]
      cases fNegative <;> exact represents

/-- The number of a machine integer. -/
def ofInt (n : ℤ) (small : n.natAbs < 2 ^ 256) : BIGNUM where
  toInt := n
  num_bits := by
    rcases Nat.eq_zero_or_pos n.natAbs with zero | positive
    · rw [zero]
      decide
    · have := (Nat.log2_lt positive.ne').mpr small
      omega

theorem magnitude_eq (sn : Int64) : ∃ n, magnitude sn = .ok n ∧ n.toNat = sn.toInt.natAbs := by
  have low := sn.le_toInt
  have high := sn.toInt_lt
  by_cases negative : sn < 0
  · have below : sn.toInt < 0 := Int64.lt_iff_toInt_lt.mp negative
    have successor : int64 (sn.toInt + 1) = .ok (sn.toInt + 1) := int64_eq_ok.mpr ⟨⟨by omega, by omega⟩, rfl⟩
    have negated : int64 (-(sn.toInt + 1)) = .ok (-(sn.toInt + 1)) := int64_eq_ok.mpr ⟨⟨by omega, by omega⟩, rfl⟩
    refine ⟨UInt64.ofInt (-(sn.toInt + 1)) + 1, ?_, ?_⟩
    · rw [magnitude, if_pos negative, successor, Check.ok_bind, negated, Check.ok_bind]
      rfl
    · have converted : (UInt64.ofInt (-(sn.toInt + 1))).toNat = (-(sn.toInt + 1) % 2 ^ 64).toNat := by
        rw [UInt64.ofInt, UInt64.toNat_ofNat', Nat.mod_eq_of_lt (by omega)]
      rw [UInt64.toNat_add, converted]
      change (_ + 1) % _ = _
      omega
  · have above : 0 ≤ sn := Int64.not_lt.mp negative
    refine ⟨sn.toUInt64, if_neg negative, ?_⟩
    rw [Int64.toNat_toUInt64_of_le above, Int64.toInt_eq_toNatClampNeg above, Int.natAbs_natCast]

/-- Bytes that hold no more than 256 bits are read as their number. -/
theorem toInt_read (follows : ssl.FollowsMpi) (fNegative : Bool) (short : bytes.length ≤ 32)
    (nonzero : fNegative = true → value bytes ≠ 0) : (this.read ssl (skipZeroes fNegative true bytes)).toInt =
      if fNegative then -(value bytes : ℤ) else value bytes := by
  have bound : value bytes < 2 ^ 256 :=
    (value_lt bytes).trans_le (Nat.pow_le_pow_right (by decide : 0 < 256) short)
  have small : (if fNegative then -(value bytes : ℤ) else value bytes).natAbs < 2 ^ 256 := by
    split_ifs
    · rwa [Int.natAbs_neg, Int.natAbs_natCast]
    · rwa [Int.natAbs_natCast]
  have length := length_skipZeroes_le fNegative true bytes
  have found : this.read ssl (skipZeroes fNegative true bytes) = ofInt _ small :=
    read_eq this follows (by omega) (represents_skipZeroes nonzero)
  rw [found]
  rfl

theorem setint64_eq (follows : ssl.FollowsMpi) (sn : Int64) :
    ∃ n, this.setint64 ssl sn = .ok n ∧ n.toInt = sn.toInt := by
  obtain ⟨n, found, same⟩ := magnitude_eq sn
  have number : value (highBytes 8 n) = n.toNat := (value_highBytes n le_rfl).trans (Nat.div_one _)
  refine ⟨_, by rw [setint64, found, Check.ok_bind]; rfl, ?_⟩
  rw [toInt_read this follows _ (by rw [length_highBytes]; decide), number, same]
  · simp only [decide_eq_true_eq, Int64.lt_iff_toInt_lt]
    change (if sn.toInt < 0 then _ else _) = _
    split_ifs <;> omega
  · intro negative
    have below : sn.toInt < 0 := Int64.lt_iff_toInt_lt.mp (of_decide_eq_true negative)
    omega

theorem toInt_setuint64 (follows : ssl.FollowsMpi) (n : UInt64) : (this.setuint64 ssl n).toInt = n.toNat := by
  have number : value (highBytes 8 n) = n.toNat := (value_highBytes n le_rfl).trans (Nat.div_one _)
  rw [setuint64, toInt_read this follows false (by rw [length_highBytes]; decide) nofun, number]
  rfl

theorem toInt_setuint256 (follows : ssl.FollowsMpi) (n : base_uint 8) : (this.setuint256 ssl n).toInt = n.value := by
  have short : (base_uint.toBytes n.pn).reverse.length ≤ 32 := by
    rw [List.length_reverse, base_uint.length_toBytes, n.length_pn]
  rw [setuint256, toInt_read this follows false short nofun, value, List.reverse_reverse, base_uint.decode_toBytes]
  rfl

theorem length_copyLoop (room : ℕ) (bytes : List UInt8) : (copyLoop room bytes).length = room := by
  fun_induction copyLoop room bytes with
  | case1 => rfl
  | case2 room => exact List.length_replicate
  | case3 c rest room ih => rw [List.length_cons, ih]

theorem decode_copyLoop (room : ℕ) (bytes : List UInt8) :
    decode (copyLoop room bytes) = decode bytes % 256 ^ room := by
  rw [← decode_take]
  fun_induction copyLoop room bytes with
  | case1 bytes => rw [List.take_zero]
  | case2 room => rw [decode_replicate_zero, List.take_nil, decode]
  | case3 c rest room ih => rw [List.take_succ_cons, decode, decode, ih]

/-- `vch[4] &= 0x7f` takes the sign off. -/
theorem value_clear (c : UInt8) (bytes : List UInt8) :
    value ((c &&& 0x7f) :: bytes) = value (c :: bytes) % 2 ^ (8 * (c :: bytes).length - 1) := by
  have low : (c &&& 0x7f).toNat = c.toNat % 128 := by
    rw [UInt8.toNat_and]
    exact Nat.and_two_pow_sub_one_eq_mod _ 7
  have width : 8 * (c :: bytes).length - 1 = 8 * bytes.length + 7 := by
    rw [List.length_cons]
    omega
  have rest := value_lt bytes
  have positive : 0 < 256 ^ bytes.length := Nat.pow_pos (by decide)
  have number : value (c :: bytes) % 256 ^ bytes.length = value bytes := by
    rw [value_cons, Nat.mul_comm, Nat.mul_add_mod, Nat.mod_eq_of_lt rest]
  have first : value (c :: bytes) / 256 ^ bytes.length = c.toNat := by
    rw [value_cons, Nat.mul_comm, Nat.mul_add_div positive, Nat.div_eq_of_lt rest, Nat.add_zero]
  rw [width, pow_add, pow_mul]
  change _ = _ % (256 ^ bytes.length * 128)
  rw [Nat.mod_mul, number, first, value_cons, low]
  ring

theorem value_getuint256 (follows : ssl.FollowsMpi) (b : BIGNUM) :
    (b.getuint256 ssl).value = b.toInt.natAbs % 2 ^ 256 := by
  obtain ⟨bytes, small, written, represents⟩ := follows.bn2mpi b
  have four : (encode 4 bytes.length).reverse.length = 4 := by rw [List.length_reverse, length_encode]
  -- The bytes behind the length, without the sign.
  have number : value ((if 4 < (ssl.BN_bn2mpi b).length then (ssl.BN_bn2mpi b).modify 4 fun c => c &&& 0x7f
      else ssl.BN_bn2mpi b).drop 4) = b.toInt.natAbs := by
    rw [represents.natAbs, written, List.length_append, four]
    cases bytes with
    | nil => rfl
    | cons c rest =>
      rw [if_pos (by simp), List.drop_modify_of_ge _ _ _ _ (by decide), List.drop_left' four]
      exact value_clear c rest
  have long : ¬ (ssl.BN_bn2mpi b).length < 4 := by
    rw [written, List.length_append, four]
    omega
  change Limbs.value (base_uint.ofBytes 8 _) = _
  dsimp only
  rw [if_neg long, base_uint.value_ofBytes (length_copyLoop ..), decode_copyLoop]
  exact congrArg (· % _) number

theorem represents_getvch (follows : ssl.FollowsMpi) (b : BIGNUM) :
    (b.getvch ssl).length < 256 ^ 4 ∧ Represents (b.getvch ssl).reverse b.toInt := by
  obtain ⟨bytes, small, written, represents⟩ := follows.bn2mpi b
  have four : (encode 4 bytes.length).reverse.length = 4 := by rw [List.length_reverse, length_encode]
  have rest : b.getvch ssl = bytes.reverse := by
    rw [getvch, written, List.drop_left' four, List.length_append, four]
    split_ifs with empty
    · obtain rfl := List.length_eq_zero_iff.mp (show bytes.length = 0 by omega)
      rfl
    · rfl
  rw [rest, List.length_reverse, List.reverse_reverse]
  exact ⟨small, represents⟩

theorem setvch_eq (follows : ssl.FollowsMpi) {vch : valtype} {b : BIGNUM} (small : vch.length < 256 ^ 4)
    (represents : Represents vch.reverse b.toInt) : this.setvch ssl vch = b := by
  refine read_eq this follows ?_ represents
  rwa [List.length_reverse]

theorem setvch_getvch (follows : ssl.FollowsMpi) (b : BIGNUM) : this.setvch ssl (b.getvch ssl) = b :=
  have ⟨small, represents⟩ := represents_getvch follows b
  this.setvch_eq follows small represents

/-- What the methods do to two numbers. -/
structure Agree (ssl : OpenSSL) (this b : BIGNUM) : Prop where
  setint64 : ∀ sn : Int64, ∃ n, this.setint64 ssl sn = .ok n ∧ n.toInt = sn.toInt
  setuint64 : ∀ n : UInt64, (this.setuint64 ssl n).toInt = n.toNat
  setuint256 : ∀ n : base_uint 8, (this.setuint256 ssl n).toInt = n.value
  getuint256 : (b.getuint256 ssl).value = b.toInt.natAbs % 2 ^ 256
  setvch_getvch : this.setvch ssl (b.getvch ssl) = b

/-- With functions of OpenSSL that follow the MPI format, no conversion changes the number. -/
theorem conversions_agree (follows : ssl.FollowsMpi) (this b : BIGNUM) : Agree ssl this b where
  setint64 := this.setint64_eq follows
  setuint64 := this.toInt_setuint64 follows
  setuint256 := this.toInt_setuint256 follows
  getuint256 := value_getuint256 follows b
  setvch_getvch := this.setvch_getvch follows b

end BIGNUM

namespace OpenSSL

open Mpi

/-- The functions of OpenSSL, with the bytes that stand on the script stack. -/
def mpi : OpenSSL where
  BN_bn2mpi b := (encode 4 (CBigNum.getvch b.toInt).length).reverse ++ (CBigNum.getvch b.toInt).reverse
  BN_mpi2bn mpi :=
    let n := CBigNum.setvch (mpi.drop 4).reverse
    if fits : mpi.take 4 = (encode 4 (mpi.drop 4).length).reverse ∧ n.natAbs.log2 + 1 < 2 ^ 31 then some ⟨n, fits.2⟩
    else none

theorem followsMpi_mpi : OpenSSL.mpi.FollowsMpi where
  bn2mpi b := by
    have bits := b.num_bits
    refine ⟨(CBigNum.getvch b.toInt).reverse, ?_, by rw [List.length_reverse]; rfl, CBigNum.represents_getvch _⟩
    rw [List.length_reverse, CBigNum.getvch]
    by_cases zero : b.toInt = 0
    · rw [if_pos zero]
      decide
    · rw [if_neg zero, length_encode, CBigNum.width]
      omega
  mpi2bn mpi b encodes := by
    obtain ⟨bytes, small, rfl, represents⟩ := encodes
    have four : (encode 4 bytes.length).reverse.length = 4 := by rw [List.length_reverse, length_encode]
    have number : CBigNum.setvch bytes.reverse = b.toInt :=
      CBigNum.setvch_of_represents (by rwa [List.reverse_reverse])
    simp only [OpenSSL.mpi, List.take_left' four, List.drop_left' four, number, true_and, dif_pos b.num_bits]

end OpenSSL

namespace BIGNUM

/-- The most negative `int64` and a number of two bytes. -/
theorem conversions_agree_mpi :
    let zero := ofInt 0 (by decide)
    let b := ofInt (-255) (by decide)
    (∃ n, zero.setint64 .mpi .minValue = .ok n ∧ n.toInt = -2 ^ 63) ∧ (b.getuint256 .mpi).value = 255 ∧
      zero.setvch .mpi (b.getvch .mpi) = b :=
  have agree := conversions_agree OpenSSL.followsMpi_mpi (ofInt 0 (by decide)) (ofInt (-255) (by decide))
  ⟨agree.setint64 .minValue, agree.getuint256, agree.setvch_getvch⟩

end BIGNUM

end BitCrystal
