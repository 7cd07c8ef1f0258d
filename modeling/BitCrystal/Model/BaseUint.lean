import BitCrystal.Machine.Limbs
import BitCrystal.Model.BaseTexts

/-! # `base_uint`

An unsigned number of `WIDTH` words of 32 bits, the lowest first, with the operators as loops over the words. Memory is
little-endian. The forms that take a `uint64` write two words, so there they are two at least.
-/

namespace BitCrystal

/-- `base_uint<32 * WIDTH>`. -/
structure base_uint (WIDTH : ℕ) where
  pn : List (BitVec 32)
  length_pn : pn.length = WIDTH

namespace base_uint

variable {WIDTH w : ℕ}

/-- The number that the words stand for. -/
def value (a : base_uint WIDTH) : ℕ := Limbs.value a.pn

/-! ## Sums and differences -/

/-- The loop of `operator+=`, behind the words that are done. -/
def addLoop : List (BitVec 32) → List (BitVec 32) → BitVec 64 → List (BitVec 32)
  | p :: pn, q :: bpn, carry =>
    let n := carry + p.setWidth 64 + q.setWidth 64
    (n &&& 0xffffffff).setWidth 32 :: addLoop pn bpn (n >>> 32)
  | pn, _, _ => pn

@[simp] theorem length_addLoop (pn bpn : List (BitVec 32)) (carry : BitVec 64) :
    (addLoop pn bpn carry).length = pn.length := by
  induction pn generalizing bpn carry with
  | nil => rfl
  | cons p pn ih =>
    cases bpn with
    | nil => rfl
    | cons q bpn => exact congrArg Nat.succ (ih bpn _)

/-- `operator+=`. -/
def add (a b : base_uint WIDTH) : base_uint WIDTH := ⟨addLoop a.pn b.pn 0, (length_addLoop ..).trans a.length_pn⟩

/-- The loop of `operator++`, which goes on as long as a word has become zero. -/
def incLoop : List (BitVec 32) → List (BitVec 32)
  | [] => []
  | p :: pn => if p + 1 = 0 then (p + 1) :: incLoop pn else (p + 1) :: pn

@[simp] theorem length_incLoop (pn : List (BitVec 32)) : (incLoop pn).length = pn.length := by
  fun_induction incLoop pn with
  | case1 => rfl
  | case2 p pn _ ih => exact congrArg Nat.succ ih
  | case3 p pn _ => rfl

/-- `operator++`. -/
def preIncrement (a : base_uint WIDTH) : base_uint WIDTH := ⟨incLoop a.pn, (length_incLoop _).trans a.length_pn⟩

/-- `operator++(int)`: what it returns, and the number it leaves. -/
def postIncrement (a : base_uint WIDTH) : base_uint WIDTH × base_uint WIDTH := (a, a.preIncrement)

/-- The loop of `operator--`, which goes on as long as a word has become the highest. -/
def decLoop : List (BitVec 32) → List (BitVec 32)
  | [] => []
  | p :: pn => if p - 1 = -1 then (p - 1) :: decLoop pn else (p - 1) :: pn

@[simp] theorem length_decLoop (pn : List (BitVec 32)) : (decLoop pn).length = pn.length := by
  fun_induction decLoop pn with
  | case1 => rfl
  | case2 p pn _ ih => exact congrArg Nat.succ ih
  | case3 p pn _ => rfl

/-- `operator--`. -/
def preDecrement (a : base_uint WIDTH) : base_uint WIDTH := ⟨decLoop a.pn, (length_decLoop _).trans a.length_pn⟩

/-- `operator--(int)`. -/
def postDecrement (a : base_uint WIDTH) : base_uint WIDTH × base_uint WIDTH := (a, a.preDecrement)

/-- `operator~`. -/
def not (a : base_uint WIDTH) : base_uint WIDTH := ⟨a.pn.map fun p => ~~~p, (List.length_map _).trans a.length_pn⟩

/-- `operator-()`. -/
def neg (a : base_uint WIDTH) : base_uint WIDTH := a.not.preIncrement

/-- `operator-=`. -/
def sub (a b : base_uint WIDTH) : base_uint WIDTH := a.add b.neg

/-- `pn[j] |= x`. -/
def orAt (pn : List (BitVec 32)) (j : ℕ) (x : BitVec 32) : List (BitVec 32) := pn.modify j fun p => p ||| x

/-- The words after some rounds of the loop of `operator<<=`. -/
def shlLoop (a : List (BitVec 32)) (k shift : ℕ) : ℕ → List (BitVec 32)
  | 0 => List.replicate a.length 0
  | i + 1 =>
    let pn := shlLoop a k shift i
    let pn := if i + k + 1 < a.length ∧ shift ≠ 0 then orAt pn (i + k + 1) (a.getD i 0 >>> (32 - shift)) else pn
    if i + k < a.length then orAt pn (i + k) (a.getD i 0 <<< shift) else pn

@[simp] theorem length_shlLoop (a : List (BitVec 32)) (k shift rounds : ℕ) :
    (shlLoop a k shift rounds).length = a.length := by
  induction rounds with
  | zero => exact List.length_replicate
  | succ i ih =>
    rw [shlLoop]
    split_ifs <;> simp [orAt, ih]

/-- `operator<<=`. -/
def shl (a : base_uint WIDTH) (shift : ℕ) : base_uint WIDTH :=
  ⟨shlLoop a.pn (shift / 32) (shift % 32) WIDTH, (length_shlLoop ..).trans a.length_pn⟩

/-- The words after some rounds of the loop of `operator>>=`. -/
def shrLoop (a : List (BitVec 32)) (k shift : ℕ) : ℕ → List (BitVec 32)
  | 0 => List.replicate a.length 0
  | i + 1 =>
    let pn := shrLoop a k shift i
    let pn := if k + 1 ≤ i ∧ shift ≠ 0 then orAt pn (i - k - 1) (a.getD i 0 <<< (32 - shift)) else pn
    if k ≤ i then orAt pn (i - k) (a.getD i 0 >>> shift) else pn

@[simp] theorem length_shrLoop (a : List (BitVec 32)) (k shift rounds : ℕ) :
    (shrLoop a k shift rounds).length = a.length := by
  induction rounds with
  | zero => exact List.length_replicate
  | succ i ih =>
    rw [shrLoop]
    split_ifs <;> simp [orAt, ih]

/-- `operator>>=`. -/
def shr (a : base_uint WIDTH) (shift : ℕ) : base_uint WIDTH :=
  ⟨shrLoop a.pn (shift / 32) (shift % 32) WIDTH, (length_shrLoop ..).trans a.length_pn⟩

/-- A comparison goes down the words from the highest, until two of them differ. -/
def compareLoop (below above equal : Bool) : List (BitVec 32) → List (BitVec 32) → Bool
  | p :: pn, q :: bpn => if p < q then below else if q < p then above else compareLoop below above equal pn bpn
  | _, _ => equal

/-- `operator<`. -/
def lt (a b : base_uint WIDTH) : Bool := compareLoop true false false a.pn.reverse b.pn.reverse

/-- `operator<=`. -/
def le (a b : base_uint WIDTH) : Bool := compareLoop true false true a.pn.reverse b.pn.reverse

/-- `operator>`. -/
def gt (a b : base_uint WIDTH) : Bool := compareLoop false true false a.pn.reverse b.pn.reverse

/-- `operator>=`. -/
def ge (a b : base_uint WIDTH) : Bool := compareLoop false true true a.pn.reverse b.pn.reverse

def eqLoop : List (BitVec 32) → List (BitVec 32) → Bool
  | p :: pn, q :: bpn => if p ≠ q then false else eqLoop pn bpn
  | _, _ => true

/-- `operator==`. -/
def eq (a b : base_uint WIDTH) : Bool := eqLoop a.pn b.pn

/-- `operator!=`. -/
def ne (a b : base_uint WIDTH) : Bool := !a.eq b

/-! ## The forms for `uint64` -/

def lowWord (b : BitVec 64) : BitVec 32 := b.setWidth 32

def highWord (b : BitVec 64) : BitVec 32 := (b >>> 32).setWidth 32

/-- `operator=(uint64)`. -/
def ofUInt64 (b : BitVec 64) : base_uint (w + 2) := ⟨lowWord b :: highWord b :: List.replicate w 0, by simp⟩

/-- The two lowest words are changed by those of the argument. -/
def assignWords (f : BitVec 32 → BitVec 32 → BitVec 32) (a : base_uint (w + 2)) (b : BitVec 64) : base_uint (w + 2) :=
  ⟨(a.pn.modify 0 fun p => f p (lowWord b)).modify 1 fun p => f p (highWord b), by simp [a.length_pn]⟩

/-- `operator^=(uint64)`. -/
def xorUInt64 (a : base_uint (w + 2)) (b : BitVec 64) : base_uint (w + 2) := assignWords (fun p q => p ^^^ q) a b

/-- `operator|=(uint64)`. -/
def orUInt64 (a : base_uint (w + 2)) (b : BitVec 64) : base_uint (w + 2) := assignWords (fun p q => p ||| q) a b

/-- `operator+=(uint64)`. -/
def addUInt64 (a : base_uint (w + 2)) (b64 : BitVec 64) : base_uint (w + 2) := a.add (ofUInt64 b64)

/-- `operator-=(uint64)`. -/
def subUInt64 (a : base_uint (w + 2)) (b64 : BitVec 64) : base_uint (w + 2) := a.add (ofUInt64 b64).neg

/-- `operator==(uint64)`. -/
def eqUInt64 (a : base_uint (w + 2)) (b : BitVec 64) : Bool :=
  if a.pn.getD 0 0 ≠ lowWord b then false
  else if a.pn.getD 1 0 ≠ highWord b then false
  else (a.pn.drop 2).all fun p => p = 0

/-- `operator!=(uint64)`. -/
def neUInt64 (a : base_uint (w + 2)) (b : BitVec 64) : Bool := !a.eqUInt64 b

/-- `(unsigned char*)pn`. -/
def toBytes (pn : List (BitVec 32)) : List UInt8 := pn.flatMap fun p => LittleEndian.encode 4 p.toNat

/-- The words in some bytes of memory. -/
def ofBytes : ℕ → List UInt8 → List (BitVec 32)
  | 0, _ => []
  | WIDTH + 1, bytes => BitVec.ofNat 32 (LittleEndian.decode (bytes.take 4)) :: ofBytes WIDTH (bytes.drop 4)

@[simp] theorem length_ofBytes (WIDTH : ℕ) (bytes : List UInt8) : (ofBytes WIDTH bytes).length = WIDTH := by
  induction WIDTH generalizing bytes with
  | zero => rfl
  | succ WIDTH ih => exact congrArg Nat.succ (ih _)

/-- A digit of `%x`. -/
def hexDigit (n : ℕ) : UInt8 := UInt8.ofNat (if n < 10 then 48 + n else 87 + n)

def getHex (a : base_uint WIDTH) : List UInt8 :=
  (toBytes a.pn).reverse.flatMap fun byte => [hexDigit (byte.toNat / 16), hexDigit (byte.toNat % 16)]

/-- The table, which has zeros for the characters that are no digits. -/
def phexdigit (c : UInt8) : UInt8 :=
  if 48 ≤ c ∧ c ≤ 57 then c - 48
  else if 65 ≤ c ∧ c ≤ 70 then c - 55
  else if 97 ≤ c ∧ c ≤ 102 then c - 87
  else 0

/-- The bytes that the digits fill, of which the last comes first. -/
def setHexLoop : List UInt8 → ℕ → List UInt8
  | _, 0 => []
  | [], room => List.replicate room 0
  | [low], room + 1 => phexdigit low :: List.replicate room 0
  | low :: high :: digits, room + 1 => (phexdigit low ||| phexdigit high <<< 4) :: setHexLoop digits room

/-- Without `0x`. -/
def skipBase : List UInt8 → List UInt8
  | zero :: x :: psz => if zero = 48 ∧ (x = 120 ∨ x = 88) then psz else zero :: x :: psz
  | psz => psz

def setHex (str : List UInt8) : base_uint WIDTH :=
  let psz := skipBase ((cString str).dropWhile isspace)
  let digits := psz.takeWhile fun c => phexdigit c != 0 || c == 48
  ⟨ofBytes WIDTH (setHexLoop digits.reverse (WIDTH * 4)), length_ofBytes ..⟩

end base_uint

end BitCrystal
