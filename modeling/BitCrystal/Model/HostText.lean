import BitCrystal.Model.BaseTexts

/-! # Texts of hosts

`WildcardMatch` compares the text of an address with a mask, and `SplitHostPort` takes a port off the text of a host. C
strings are the bytes from a pointer on, so that a read behind the last of them is undefined; `long` has 64 bits.
-/

namespace BitCrystal

@[match_pattern] def starChar : UInt8 := 42
@[match_pattern] def questionChar : UInt8 := 63

def wildcardMatch (psz mask : List UInt8) : Check Bool :=
  match mask with
  | [] => .error .undefined
  | m :: mask' =>
    if m = 0 then do
      let c ← assertSome .undefined psz.head?
      return c = 0
    else if m = starChar then do
      if ← wildcardMatch psz mask' then
        return true
      match psz with
      | [] => .error .undefined
      | c :: psz' => if c = 0 then return false else wildcardMatch psz' (m :: mask')
    else
      match psz with
      | [] => .error .undefined
      | c :: psz' =>
        if m = questionChar then
          if c = 0 then return false else wildcardMatch psz' mask'
        else if c ≠ m then return false
        else wildcardMatch psz' mask'
termination_by psz.length + mask.length

@[match_pattern] def colonChar : UInt8 := 58
def openBracket : UInt8 := 91
def closeBracket : UInt8 := 93

/-- The digits and what `endp` points to. Where there are no digits that is the string itself. -/
def readLong (str digits : List UInt8) (number : ℕ → ℤ) : ℤ × List UInt8 :=
  if digits.takeWhile isdigit = [] then (0, str)
  else (number (Decimal.value (digits.takeWhile isdigit)), digits.dropWhile isdigit)

/-- `strtol` behind the white space. -/
def strtolFrom (str : List UInt8) : List UInt8 → ℤ × List UInt8
  | minusChar :: digits => readLong str digits fun magnitude => max (-magnitude) (-2 ^ 63)
  | plusChar :: digits => readLong str digits fun magnitude => min magnitude (2 ^ 63 - 1)
  | digits => readLong str digits fun magnitude => min magnitude (2 ^ 63 - 1)

/-- `strtol` to the base ten on the characters of a C string: the number, and the characters from `endp` on. -/
def strtol (str : List UInt8) : ℤ × List UInt8 := strtolFrom str (str.dropWhile isspace)

/-- `find_last_of` one character, up to a position; `none` is `npos`. -/
def findLastOf (str : List UInt8) (c : UInt8) (pos : Option ℕ) : Option ℕ :=
  let searched := pos.elim str fun pos => str.take (pos + 1)
  (searched.reverse.idxOf? c).map fun i => searched.length - 1 - i

/-- `pos - 1`, which is `npos` for zero. -/
def positionBefore : ℕ → Option ℕ
  | 0 => none
  | pos + 1 => some pos

/-- `portOut` and `hostOut`. -/
def splitHostPort (text : List UInt8) (portOut : ℤ) : ℤ × List UInt8 :=
  let (portOut, text) :=
    match findLastOf text colonChar none with
    | none => (portOut, text)
    | some colon =>
      let fBracketed : Bool := text[0]? = some openBracket ∧ text[colon - 1]? = some closeBracket
      let fMultiColon := (findLastOf text colonChar (positionBefore colon)).isSome
      if colon = 0 ∨ fBracketed ∨ ¬ fMultiColon then
        let (number, endp) := strtol (cString (text.drop (colon + 1)))
        let n := number.bmod (2 ^ 32)
        if endp = [] ∧ 0 ≤ n then
          (if 0 < n ∧ n < 0x10000 then n else portOut, text.take colon)
        else (portOut, text)
      else (portOut, text)
  if text[0]? = some openBracket ∧ text[text.length - 1]? = some closeBracket then
    (portOut, (text.drop 1).take (text.length - 2))
  else (portOut, text)

end BitCrystal
