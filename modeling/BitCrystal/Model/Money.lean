import BitCrystal.Machine.Numerals
import BitCrystal.Model.Transaction

/-! # Amounts as text

`FormatMoney` prints an amount in coins and `ParseMoney` reads one. Strings are the bytes of their characters; a C
string ends before the first zero byte. The character classes are those of the C locale. `BitcoinUnits` does the same for
the user interface, in the unit that is chosen there; the strings of Qt are of 16-bit characters.
-/

namespace BitCrystal

def CENT : ℤ := COIN / 100

def isspace (c : UInt8) : Bool := c = 32 ∨ 9 ≤ c ∧ c ≤ 13

def isdigit (c : UInt8) : Bool := Decimal.isDigit c

@[match_pattern] def pointChar : UInt8 := 46
@[match_pattern] def plusChar : UInt8 := 43
@[match_pattern] def minusChar : UInt8 := 45

/-- The loop that trims zeros, on the reversed string. It ends before the string does, as a digit has to stand two
places before a zero it takes. -/
def trimLoop : List UInt8 → List UInt8
  | last :: before :: digit :: rest =>
    if last = 48 ∧ isdigit digit then trimLoop (before :: digit :: rest) else last :: before :: digit :: rest
  | str => str

/-- `FormatMoney`. -/
def formatMoney (n : ℤ) (fPlus : Bool) : List UInt8 :=
  let n_abs := if 0 < n then n else -n
  let quotient := n_abs.tdiv COIN
  let remainder := n_abs.tmod COIN
  let str := Decimal.write quotient.toNat ++ pointChar :: Decimal.pad 8 remainder.toNat
  -- Right-trim excess zeros before the decimal point.
  let str := (trimLoop str.reverse).reverse
  if n < 0 then minusChar :: str else if fPlus ∧ 0 < n then plusChar :: str else str

/-- `atoi64` of a string of digits. -/
def atoi64 (str : List UInt8) : ℤ := min (Decimal.value str) (2 ^ 63 - 1)

/-- The digits behind the point and what follows them. -/
def parseUnits : List UInt8 → ℤ → ℤ → ℤ × List UInt8
  | [], _, nUnits => (nUnits, [])
  | c :: p, nMult, nUnits =>
    if isdigit c ∧ 0 < nMult then parseUnits p (nMult.tdiv 10) (nUnits + nMult * (c.toNat - 48 : ℕ)) else (nUnits, c :: p)

/-- The first loop of `ParseMoney`: the integer part, the units behind the point and what follows. -/
def parseWhole : List UInt8 → List UInt8 → Option (List UInt8 × ℤ × List UInt8)
  | [], strWhole => some (strWhole, 0, [])
  | c :: p, strWhole =>
    if c = pointChar then
      let (nUnits, p) := parseUnits p (CENT * 10) 0
      some (strWhole, nUnits, p)
    else if isspace c then some (strWhole, 0, c :: p)
    else if ¬ isdigit c then none
    else parseWhole p (strWhole ++ [c])

/-- `ParseMoney(const char*)` on the characters before the end of the string. -/
def parseMoneyChars (pszIn : List UInt8) : Option ℤ :=
  match parseWhole (pszIn.dropWhile isspace) [] with
  | none => none
  | some (strWhole, nUnits, p) =>
    if p.any fun c => !isspace c then none
    -- guard against 63 bit overflow
    else if 10 < strWhole.length then none
    else if nUnits < 0 ∨ COIN < nUnits then none
    else
      let nWhole := atoi64 strWhole
      some (nWhole * COIN + nUnits)

/-- `ParseMoney(const string&)`. -/
def parseMoney (str : List UInt8) : Option ℤ := parseMoneyChars (str.takeWhile fun c => c ≠ 0)

/-! ## Strings of the user interface -/

abbrev QString := List UInt16

namespace QString

def point : UInt16 := 46
def zero : UInt16 := 48

/-- The separators of Unicode that take one word, and the control characters that count as spaces. -/
def isSpace (c : UInt16) : Bool :=
  9 ≤ c ∧ c ≤ 13 ∨ c = 0x20 ∨ c = 0x85 ∨ c = 0xa0 ∨ c = 0x1680 ∨ 0x2000 ≤ c ∧ c ≤ 0x200a ∨ c = 0x2028 ∨ c = 0x2029 ∨
    c = 0x202f ∨ c = 0x205f ∨ c = 0x3000

def isDigit (c : UInt16) : Bool := 48 ≤ c ∧ c ≤ 57

/-- `QString::number`. -/
def number (n : ℕ) : QString := (Decimal.write n).map UInt8.toUInt16

def rightJustified (str : QString) (width : ℕ) (fill : UInt16) : QString :=
  List.replicate (width - str.length) fill ++ str

def leftJustified (str : QString) (width : ℕ) (fill : UInt16) : QString :=
  str ++ List.replicate (width - str.length) fill

/-- The number of a string of digits. -/
def value (digits : QString) : ℕ := Decimal.value (digits.map UInt16.toUInt8)

/-- The string without the white space around it. -/
def trimmed (str : QString) : QString := ((str.dropWhile isSpace).reverse.dropWhile isSpace).reverse

/-- Digits that are worth a `qint64`. -/
def readDigits (digits : QString) (number : ℤ) : Option ℤ :=
  if digits ≠ [] ∧ digits.all isDigit ∧ -2 ^ 63 ≤ number ∧ number < 2 ^ 63 then some number else none

/-- `toLongLong`, with the value for which `ok` is set. -/
def toLongLong (str : QString) : Option ℤ :=
  match trimmed str with
  | [] => none
  | c :: digits =>
    if c = 45 then readDigits digits (-value digits)
    else if c = 43 then readDigits digits (value digits)
    else readDigits (c :: digits) (value (c :: digits))

end QString

/-- `BitcoinUnits::Unit`. Other values of the `int` are refused everywhere. -/
inductive BitcoinUnit
  | BTCRY
  | cBTCRY
  | mBTCRY
deriving DecidableEq

namespace BitcoinUnits

open QString

def factor : BitcoinUnit → ℤ
  | .BTCRY => 100000
  | .cBTCRY => 1000
  | .mBTCRY => 100

def decimals : BitcoinUnit → ℕ
  | .BTCRY => 5
  | .cBTCRY => 3
  | .mBTCRY => 2

/-- The loop that trims zeros behind the second place, on the reversed string. -/
def chopZeros : QString → QString
  | last :: second :: first :: rest => if last = zero then chopZeros (second :: first :: rest)
    else last :: second :: first :: rest
  | remainder_str => remainder_str

def format (unit : BitcoinUnit) (n : ℤ) (fPlus : Bool) : QString :=
  let coin := factor unit
  let num_decimals := decimals unit
  let n_abs := if 0 < n then n else -n
  let quotient := n_abs.tdiv coin
  let remainder := n_abs.tmod coin
  let quotient_str := number quotient.toNat
  let remainder_str := rightJustified (number remainder.toNat) num_decimals zero
  let remainder_str := (chopZeros remainder_str.reverse).reverse
  let quotient_str := if n < 0 then 45 :: quotient_str else if fPlus ∧ 0 < n then 43 :: quotient_str else quotient_str
  quotient_str ++ [point] ++ remainder_str

/-- The result, and `*val_out`. -/
def parse (unit : BitcoinUnit) (value : QString) (val_out : ℤ) : Bool × ℤ :=
  if value = [] then (false, val_out)
  else
    let num_decimals := decimals unit
    let parts := value.splitOn point
    if 2 < parts.length then (false, val_out)
    else
      let whole := parts.getD 0 []
      let decimals := parts.getD 1 []
      if num_decimals < decimals.length then (false, val_out)
      else
        let str := whole ++ leftJustified decimals num_decimals zero
        -- Longer numbers will exceed 63 bits.
        if 18 < str.length then (false, val_out)
        else
          match toLongLong str with
          | some retvalue => (true, retvalue)
          | none => (false, 0)

end BitcoinUnits

end BitCrystal
