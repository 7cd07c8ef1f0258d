import BitCrystal.Model.SecurityCodec

/-! # Bytes as text

Byte strings are written as text in the bases 58, 32 and 64.
-/

namespace BitCrystal

/-! ## Base 58

The bytes are one big number, converted digit by digit; leading zero bytes are leading ones of the text and are counted
apart from it, in an `int` when decoding. Texts are byte strings; the end of a C string is a NUL. The hash is an
argument.
-/

/-- The digits, and capital and small letters without `0`, `I`, `O` and `l`. -/
def pszBase58 : List UInt8 :=
  ([49, 50, 51, 52, 53, 54, 55, 56, 57] : List UInt8) ++
  [65, 66, 67, 68, 69, 70, 71, 72, 74, 75, 76, 77, 78, 80, 81, 82, 83, 84, 85, 86, 87, 88, 89, 90] ++
  [97, 98, 99, 100, 101, 102, 103, 104, 105, 106, 107, 109, 110, 111, 112, 113, 114, 115, 116, 117, 118, 119, 120, 121,
    122]

/-- The loop of `EncodeBase58`, the lowest digit first; the number takes no more rounds than it counts. -/
def base58Digits : ℕ → ℤ → List UInt8
  | 0, _ => []
  | rounds + 1, bn => if bn > 0 then pszBase58.getD (bn % 58).toNat 0 :: base58Digits rounds (bn / 58) else []

def encodeBase58 (v : valtype) : List UInt8 :=
  -- the zero at the end makes the number positive
  let bn := CBigNum.setvch (v.reverse ++ [0])
  let str := base58Digits bn.toNat bn ++ (v.takeWhile fun byte => byte == 0).map fun _ => pszBase58.getD 0 0
  str.reverse

/-- The loop of `DecodeBase58`. Only white space may follow the digits. -/
def decodeBase58Digits : List UInt8 → ℤ → Option ℤ
  | [], bn => some bn
  | c :: p, bn =>
    match pszBase58.idxOf? c with
    | none => if (c :: p).dropWhile isspace = [] then some bn else none
    | some bnChar => decodeBase58Digits p (bn * 58 + bnChar)

/-- Without the byte that is there for the sign only. -/
def trimSign (vchTmp : valtype) : valtype :=
  match vchTmp.reverse with
  | sign :: top :: _ => if sign = 0 ∧ 0x80 ≤ top then vchTmp.dropLast else vchTmp
  | _ => vchTmp

/-- `str.c_str()`, which ends at a NUL. -/
def cString (str : List UInt8) : List UInt8 := str.takeWhile fun c => c != 0

def decodeBase58 (str : List UInt8) : Check (Option valtype) :=
  let psz := (cString str).dropWhile isspace
  match decodeBase58Digits psz 0 with
  | none => .ok none
  | some bn => do
    let vchTmp := trimSign (CBigNum.getvch bn)
    let nLeadingZeros := (psz.takeWhile fun c => c == pszBase58.getD 0 0).length
    rejectIf (2 ^ 31 ≤ nLeadingZeros) .overflow
    return some (List.replicate nLeadingZeros 0 ++ vchTmp.reverse)

section

variable (hash2 : valtype → Uint256)

/-- The first four bytes of the hash in memory. -/
def checksum (vch : valtype) : valtype := (LittleEndian.encode 32 (hash2 vch)).take 4

theorem length_checksum (v : valtype) : (checksum hash2 v).length = 4 := by
  rw [checksum, List.length_take, LittleEndian.length_encode]
  rfl

def encodeBase58Check (vchIn : valtype) : List UInt8 := encodeBase58 (vchIn ++ checksum hash2 vchIn)

def decodeBase58Check (str : List UInt8) : Check (Option valtype) := do
  match ← decodeBase58 str with
  | none => return none
  | some vchRet =>
    if vchRet.length < 4 then return none
    let vch := vchRet.take (vchRet.length - 4)
    return if checksum hash2 vch = vchRet.drop (vchRet.length - 4) then some vch else none

end

/-! ## Base 32, and the validity of encoded texts

`DecodeBase64` and `DecodeBase32` stop at the first character that is no digit. What they say about the validity of the
text depends on how many bits are left then and on the characters that follow; a text ends with a NUL.
-/

/-- `p[i]`. -/
def charAt (p : List UInt8) (i : ℕ) : UInt8 := p.getD i 0

/-- The test of an unfinished group: bits are left, there are fewer `=` than required, or a digit comes behind them. -/
def misPadded (table : UInt8 → Option ℕ) (required left : ℕ) (p : List UInt8) : Bool :=
  left ≠ 0 || (List.range required).any (fun i => charAt p i ≠ 61) || (table (charAt p required)).isSome

/-- The switch over the last mode. -/
def base64Invalid : DecodeMode → List UInt8 → Bool
  | .none, _ => false
  | .six _, _ => true
  | .four left, p => misPadded decode64_table 2 left p
  | .two left, p => misPadded decode64_table 1 left p

/-- `DecodeBase64` with `pfInvalid`. -/
def decodeBase64Checked (p : List UInt8) : List UInt8 × Bool :=
  let run := decodeBase64Run .none p
  (run.1, base64Invalid run.2.1 run.2.2)

/-- `pbase32`. -/
def pbase32 (n : ℕ) : UInt8 := UInt8.ofNat (if n < 26 then 97 + n else 50 + (n - 26))

/-- `decode32_table`, `none` where it has -1. -/
def decode32_table (c : UInt8) : Option ℕ :=
  if 50 ≤ c ∧ c ≤ 55 then some (c.toNat - 50 + 26)
  else if 65 ≤ c ∧ c ≤ 90 then some (c.toNat - 65)
  else if 97 ≤ c ∧ c ≤ 122 then some (c.toNat - 97)
  else none

/-- The bits that are left of the bytes read so far. -/
inductive EncodeMode32 where
  | none
  | three (left : ℕ)
  | one (left : ℕ)
  | four (left : ℕ)
  | two (left : ℕ)

/-- `nPadding`. -/
def nPadding : EncodeMode32 → ℕ
  | .none => 0
  | .three _ => 6
  | .one _ => 4
  | .four _ => 3
  | .two _ => 1

def encodeBase32Loop : EncodeMode32 → List UInt8 → List UInt8
  | .none, [] => []
  | .three left, [] => pbase32 left :: List.replicate (nPadding (.three left)) 61
  | .one left, [] => pbase32 left :: List.replicate (nPadding (.one left)) 61
  | .four left, [] => pbase32 left :: List.replicate (nPadding (.four left)) 61
  | .two left, [] => pbase32 left :: List.replicate (nPadding (.two left)) 61
  | .none, enc :: pch => pbase32 (enc.toNat >>> 3) :: encodeBase32Loop (.three ((enc.toNat &&& 7) <<< 2)) pch
  | .three left, enc :: pch =>
    pbase32 (left ||| enc.toNat >>> 6) :: pbase32 (enc.toNat >>> 1 &&& 31) ::
      encodeBase32Loop (.one ((enc.toNat &&& 1) <<< 4)) pch
  | .one left, enc :: pch =>
    pbase32 (left ||| enc.toNat >>> 4) :: encodeBase32Loop (.four ((enc.toNat &&& 15) <<< 1)) pch
  | .four left, enc :: pch =>
    pbase32 (left ||| enc.toNat >>> 7) :: pbase32 (enc.toNat >>> 2 &&& 31) ::
      encodeBase32Loop (.two ((enc.toNat &&& 3) <<< 3)) pch
  | .two left, enc :: pch =>
    pbase32 (left ||| enc.toNat >>> 5) :: pbase32 (enc.toNat &&& 31) :: encodeBase32Loop .none pch

/-- `EncodeBase32`. -/
def encodeBase32 (pch : List UInt8) : List UInt8 := encodeBase32Loop .none pch

/-- The bits that are kept of the characters read so far. -/
inductive DecodeMode32 where
  | none
  | five (left : ℕ)
  | two (left : ℕ)
  | seven (left : ℕ)
  | four (left : ℕ)
  | one (left : ℕ)
  | six (left : ℕ)
  | three (left : ℕ)

/-- The loop of `DecodeBase32`: the bytes, the mode it ends in and what it has not read. -/
def decodeBase32Run : DecodeMode32 → List UInt8 → List UInt8 × DecodeMode32 × List UInt8
  | mode, [] => ([], mode, [])
  | mode, p :: rest =>
    match decode32_table p with
    | .none => ([], mode, p :: rest)
    | some dec =>
      match mode with
      | .none => decodeBase32Run (.five dec) rest
      | .five left => (decodeBase32Run (.two (dec &&& 3)) rest).map (UInt8.ofNat (left <<< 3 ||| dec >>> 2) :: ·) id
      | .two left => decodeBase32Run (.seven (left <<< 5 ||| dec)) rest
      | .seven left => (decodeBase32Run (.four (dec &&& 15)) rest).map (UInt8.ofNat (left <<< 1 ||| dec >>> 4) :: ·) id
      | .four left => (decodeBase32Run (.one (dec &&& 1)) rest).map (UInt8.ofNat (left <<< 4 ||| dec >>> 1) :: ·) id
      | .one left => decodeBase32Run (.six (left <<< 5 ||| dec)) rest
      | .six left => (decodeBase32Run (.three (dec &&& 7)) rest).map (UInt8.ofNat (left <<< 2 ||| dec >>> 3) :: ·) id
      | .three left => (decodeBase32Run .none rest).map (UInt8.ofNat (left <<< 5 ||| dec) :: ·) id

/-- The switch over the last mode. -/
def base32Invalid : DecodeMode32 → List UInt8 → Bool
  | .none, _ => false
  | .five _, _ | .seven _, _ | .six _, _ => true
  | .two left, p => misPadded decode32_table 6 left p
  | .four left, p => misPadded decode32_table 4 left p
  | .one left, p => misPadded decode32_table 3 left p
  | .three left, p => misPadded decode32_table 1 left p

/-- `DecodeBase32` with `pfInvalid`. -/
def decodeBase32Checked (p : List UInt8) : List UInt8 × Bool :=
  let run := decodeBase32Run .none p
  (run.1, base32Invalid run.2.1 run.2.2)

end BitCrystal
