import BitCrystal.Model.BaseUint

/-! # Conversions of `CBigNum`

A `CBigNum` is a `BIGNUM` of OpenSSL, which reads and writes the MPI format. The setters make this format by hand from
the bytes of a machine integer, the most significant first.
-/

namespace BitCrystal

/-- The number of bits is an `int`. -/
structure BIGNUM where
  toInt : ℤ
  num_bits : toInt.natAbs.log2 + 1 < 2 ^ 31

/-- What is used of OpenSSL. `BN_mpi2bn` returns `NULL` for bytes that are not in the format. -/
structure OpenSSL where
  BN_bn2mpi : BIGNUM → List UInt8
  BN_mpi2bn : List UInt8 → Option BIGNUM

/-- Its functions follow the MPI format. -/
structure OpenSSL.FollowsMpi (ssl : OpenSSL) : Prop where
  bn2mpi : ∀ b, Mpi.Encodes (ssl.BN_bn2mpi b) b.toInt
  mpi2bn : ∀ mpi b, Mpi.Encodes mpi b.toInt → ssl.BN_mpi2bn mpi = some b

namespace BIGNUM

/-- `pch[0]` to `pch[3]`. -/
def sizeBytes (nSize : UInt32) : List UInt8 :=
  [((nSize >>> 24) &&& 0xff).toUInt8, ((nSize >>> 16) &&& 0xff).toUInt8, ((nSize >>> 8) &&& 0xff).toUInt8,
    (nSize &&& 0xff).toUInt8]

/-- The bytes `c` of some rounds of the loop over a `uint64`. -/
def highBytes : ℕ → UInt64 → List UInt8
  | 0, _ => []
  | rounds + 1, n => ((n >>> 56) &&& 0xff).toUInt8 :: highBytes rounds (n <<< 8)

/-- What the loop of a setter writes for the bytes `c`, once `fLeadingZeroes` is the given one. -/
def skipZeroes (fNegative : Bool) : Bool → List UInt8 → List UInt8
  | _, [] => []
  | true, c :: rest =>
    if c = 0 then skipZeroes fNegative true rest
    else if c &&& 0x80 ≠ 0 then (if fNegative then 0x80 else 0) :: c :: skipZeroes fNegative false rest
    else if fNegative then (c ||| 0x80) :: skipZeroes fNegative false rest
    else c :: skipZeroes fNegative false rest
  | false, c :: rest => c :: skipZeroes fNegative false rest

/-- The loop of `getuint256`, from the last byte down, into so many bytes of a zero. -/
def copyLoop : ℕ → List UInt8 → List UInt8
  | 0, _ => []
  | room, [] => List.replicate room 0
  | room + 1, c :: rest => c :: copyLoop room rest

variable (ssl : OpenSSL) (this : BIGNUM)

/-- `BN_mpi2bn` of some bytes behind their number, whose failure is not noticed. -/
def read (bytes : List UInt8) : BIGNUM :=
  (ssl.BN_mpi2bn (sizeBytes (UInt32.ofNat bytes.length) ++ bytes)).getD this

/-- The magnitude `n` in `setint64`. -/
def magnitude (sn : Int64) : Check UInt64 :=
  if sn < 0 then do
    -- The minimum cannot be negated, but its successor can.
    let successor ← int64 (sn.toInt + 1)
    let n ← int64 (-successor)
    return UInt64.ofInt n + 1
  else .ok sn.toUInt64

def setint64 (sn : Int64) : Check BIGNUM := do
  let n ← magnitude sn
  return this.read ssl (skipZeroes (sn < 0) true (highBytes 8 n))

def setuint64 (n : UInt64) : BIGNUM := this.read ssl (skipZeroes false true (highBytes 8 n))

def setuint256 (n : base_uint 8) : BIGNUM := this.read ssl (skipZeroes false true (base_uint.toBytes n.pn).reverse)

def getuint256 : base_uint 8 :=
  let vch := ssl.BN_bn2mpi this
  let bytes :=
    if vch.length < 4 then List.replicate 32 0
    else
      let vch := if 4 < vch.length then vch.modify 4 fun c => c &&& 0x7f else vch
      copyLoop 32 (vch.drop 4).reverse
  ⟨base_uint.ofBytes 8 bytes, base_uint.length_ofBytes ..⟩

def setvch (vch : valtype) : BIGNUM := this.read ssl vch.reverse

def getvch : valtype :=
  let vch := ssl.BN_bn2mpi this
  if vch.length ≤ 4 then [] else (vch.drop 4).reverse

end BIGNUM

end BitCrystal
