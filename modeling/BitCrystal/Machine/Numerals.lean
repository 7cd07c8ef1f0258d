import Mathlib.Data.List.TakeWhile
import Mathlib.Data.Nat.Digits.Lemmas

/-! # Numerals

A number and its texts of digits: in base 10, in another base with its leading zeros, without redundancy, with the
bits of its digits in other groups, and with zeros in place of the last digits.
-/

/-! ## Decimal numerals

Numbers as strings of ASCII digits, the highest digit first. A numeral is determined by its value only up to leading
zeros, so facts about written numbers go through the value.
-/

namespace Decimal

def isDigit (c : UInt8) : Bool := 48 ≤ c && c ≤ 57

/-- The last digit of a number. -/
def digit (n : ℕ) : UInt8 := UInt8.ofNat (48 + n % 10)

/-- The number a string of digits stands for. -/
def value (text : List UInt8) : ℕ := text.foldl (fun n c => 10 * n + (c.toNat - 48)) 0

/-- At most one digit more than `rounds`. -/
def writeLoop : ℕ → ℕ → List UInt8
  | 0, n => [digit n]
  | rounds + 1, n => if n < 10 then [digit n] else writeLoop rounds (n / 10) ++ [digit n]

/-- The number without leading zeros. -/
def write (n : ℕ) : List UInt8 := writeLoop n n

/-- At least `width` digits. -/
def pad (width n : ℕ) : List UInt8 := List.replicate (width - (write n).length) 48 ++ write n

theorem isDigit_iff {c : UInt8} : isDigit c = true ↔ 48 ≤ c.toNat ∧ c.toNat ≤ 57 := by
  rw [isDigit, Bool.and_eq_true, decide_eq_true_eq, decide_eq_true_eq, UInt8.le_iff_toNat_le, UInt8.le_iff_toNat_le]
  rfl

theorem toNat_digit (n : ℕ) : (digit n).toNat = 48 + n % 10 := by
  rw [digit, UInt8.toNat_ofNat_of_lt' (show 48 + n % 10 < 256 by omega)]

theorem isDigit_digit (n : ℕ) : isDigit (digit n) = true := by
  rw [isDigit_iff, toNat_digit]
  omega

@[simp] theorem value_nil : value [] = 0 := rfl

theorem value_append (text tail : List UInt8) : value (text ++ tail) = value text * 10 ^ tail.length + value tail := by
  have shift (start : ℕ) (tail : List UInt8) : tail.foldl (fun n c => 10 * n + (c.toNat - 48)) start =
      start * 10 ^ tail.length + value tail := by
    unfold value
    induction tail generalizing start with
    | nil => simp
    | cons c tail ih =>
      rw [List.foldl_cons, List.foldl_cons, ih, ih (10 * 0 + _), List.length_cons, pow_succ]
      ring
  rw [value, List.foldl_append]
  exact shift _ tail

theorem value_singleton_digit (n : ℕ) : value [digit n] = n % 10 := by
  change 10 * 0 + ((digit n).toNat - 48) = n % 10
  rw [toNat_digit]
  omega

theorem value_cons (c : UInt8) (text : List UInt8) :
    value (c :: text) = (c.toNat - 48) * 10 ^ text.length + value text := by
  rw [← List.singleton_append, value_append]
  congr 2
  exact Nat.zero_add _

theorem value_replicate (count : ℕ) : value (List.replicate count 48) = 0 := by
  induction count with
  | zero => rfl
  | succ count ih => rw [List.replicate_succ, value_cons, ih]; exact Nat.zero_mul _

theorem value_lt {text : List UInt8} (digits : ∀ c ∈ text, isDigit c = true) : value text < 10 ^ text.length := by
  induction text with
  | nil => decide
  | cons c text ih =>
    have first := isDigit_iff.mp (digits c List.mem_cons_self)
    have rest := ih fun d member => digits d (List.mem_cons_of_mem _ member)
    rw [value_cons, List.length_cons, pow_succ]
    calc
      (c.toNat - 48) * 10 ^ text.length + value text < (c.toNat - 48 + 1) * 10 ^ text.length := by
        rw [Nat.add_mul, Nat.one_mul]
        exact Nat.add_lt_add_left rest _
      _ ≤ 10 * 10 ^ text.length := Nat.mul_le_mul_right _ (by omega)
      _ = 10 ^ text.length * 10 := Nat.mul_comm ..

private theorem writeLoop_spec {rounds n : ℕ} (bound : n < 10 ^ (rounds + 1)) :
    value (writeLoop rounds n) = n ∧ (∀ c ∈ writeLoop rounds n, isDigit c = true) ∧ writeLoop rounds n ≠ [] := by
  induction rounds generalizing n with
  | zero =>
    refine ⟨?_, ?_, nofun⟩
    · rw [writeLoop, value_singleton_digit]
      omega
    · rw [writeLoop, List.forall_mem_singleton]
      exact isDigit_digit n
  | succ rounds ih =>
    rw [writeLoop]
    split
    next small =>
      refine ⟨?_, ?_, nofun⟩
      · rw [value_singleton_digit]
        omega
      · rw [List.forall_mem_singleton]
        exact isDigit_digit n
    next large =>
      obtain ⟨whole, digits, -⟩ := ih (show n / 10 < 10 ^ (rounds + 1) by rw [pow_succ] at bound; omega)
      refine ⟨?_, ?_, by simp⟩
      · rw [value_append, whole, value_singleton_digit, List.length_singleton]
        omega
      · intro c member
        rcases List.mem_append.mp member with member | member
        · exact digits c member
        · obtain rfl := List.mem_singleton.mp member
          exact isDigit_digit n

private theorem lt_pow (n : ℕ) : n < 10 ^ (n + 1) :=
  (Nat.lt_pow_self (by decide)).trans_le (Nat.pow_le_pow_right (by decide) (Nat.le_succ n))

@[simp] theorem value_write (n : ℕ) : value (write n) = n := (writeLoop_spec (lt_pow n)).1

theorem isDigit_write (n : ℕ) : ∀ c ∈ write n, isDigit c = true := (writeLoop_spec (lt_pow n)).2.1

theorem write_ne_nil (n : ℕ) : write n ≠ [] := (writeLoop_spec (lt_pow n)).2.2

/-- A number takes no more digits than its bound has zeros. -/
theorem length_write_le {n width : ℕ} (bound : n < 10 ^ (width + 1)) : (write n).length ≤ width + 1 := by
  have loop (rounds n width : ℕ) (bound : n < 10 ^ (width + 1)) : (writeLoop rounds n).length ≤ width + 1 := by
    induction rounds generalizing n width with
    | zero => exact Nat.le_add_left ..
    | succ rounds ih =>
      rw [writeLoop]
      split
      next small => exact Nat.le_add_left ..
      next large =>
        cases width with
        | zero => omega
        | succ width =>
          have rest := ih (n / 10) width (by rw [pow_succ] at bound; omega)
          rw [List.length_append, List.length_singleton]
          omega
  exact loop n n width bound

@[simp] theorem value_pad (width n : ℕ) : value (pad width n) = n := by
  rw [pad, value_append, value_replicate, Nat.zero_mul, Nat.zero_add, value_write]

theorem length_pad {n width : ℕ} (bound : n < 10 ^ (width + 1)) : (pad (width + 1) n).length = width + 1 := by
  have fits := length_write_le bound
  rw [pad, List.length_append, List.length_replicate]
  omega

end Decimal

/-! ## Numerals

A number and its texts of digits: in another base with its leading zeros, without redundancy, with the bits of its
digits in other groups, and with zeros in place of the last digits.
-/

/-! ### Writing a number in another base

A text of digits, the highest first, is transcribed to another base by carrying over its leading zeros one by one and
the number behind them as a whole. Nothing is lost: transcribing back gives the text again.
-/

namespace Positional

variable {a b : ℕ}

/-- The number of a text of digits. -/
def number (b : ℕ) (text : List ℕ) : ℕ := Nat.ofDigits b text.reverse

def leadingZeros (text : List ℕ) : ℕ := (text.takeWhile fun digit => digit == 0).length

def transcribe (a b : ℕ) (text : List ℕ) : List ℕ :=
  List.replicate (leadingZeros text) 0 ++ (Nat.digits b (number a text)).reverse

theorem number_eq_foldl (text : List ℕ) : number b text = text.foldl (fun n digit => digit + b * n) 0 := by
  rw [number, Nat.ofDigits_eq_foldr, List.foldr_reverse]
  rfl

theorem number_zeros (n : ℕ) (text : List ℕ) : number b (List.replicate n 0 ++ text) = number b text := by
  rw [number, List.reverse_append, List.reverse_replicate, Nat.ofDigits_append_replicate_zero, number]

/-- The leading zeros of a text, and what comes behind them. -/
theorem split_zeros (text : List ℕ) : ∃ rest, text = List.replicate (leadingZeros text) 0 ++ rest ∧
    ∀ nonempty : rest.reverse ≠ [], rest.reverse.getLast nonempty ≠ 0 := by
  refine ⟨text.dropWhile fun digit => digit == 0, ?_, ?_⟩
  · have zeros : text.takeWhile (fun digit => digit == 0) = List.replicate (leadingZeros text) 0 := by
      apply List.eq_replicate_of_mem
      intro digit member
      exact beq_iff_eq.mp (List.mem_takeWhile_imp (p := fun digit => digit == 0) member)
    rw [← zeros, List.takeWhile_append_dropWhile]
  · intro nonempty
    rw [List.getLast_reverse, ← beq_eq_false_iff_ne]
    exact List.head_dropWhile_not (fun digit : ℕ => digit == 0) (by simpa using nonempty)

theorem leadingZeros_eq {n : ℕ} {rest : List ℕ} (start : ∀ digit ∈ rest.head?, digit ≠ 0) :
    leadingZeros (List.replicate n 0 ++ rest) = n := by
  have empty : rest.takeWhile (fun digit => digit == 0) = [] := by
    cases rest with
    | nil => rfl
    | cons digit rest => exact List.takeWhile_cons_of_neg (by simpa using start digit rfl)
  rw [leadingZeros, List.takeWhile_append_of_pos (by simp), empty, List.append_nil, List.length_replicate]

theorem transcribe_self {text : List ℕ} (base : 1 < b) (small : ∀ digit ∈ text, digit < b) :
    transcribe b b text = text := by
  obtain ⟨rest, same, last⟩ := split_zeros text
  have digits : Nat.digits b (number b rest) = rest.reverse := by
    refine Nat.digits_ofDigits b base _ (fun digit member => small digit ?_) last
    rw [same]
    exact List.mem_append_right _ (List.mem_reverse.mp member)
  have value : number b text = number b rest := by
    rw [same, number_zeros]
  rw [transcribe, value, digits, List.reverse_reverse]
  exact same.symm

theorem number_transcribe (text : List ℕ) : number b (transcribe a b text) = number a text := by
  rw [transcribe, number_zeros, number, List.reverse_reverse, Nat.ofDigits_digits]

theorem leadingZeros_transcribe (text : List ℕ) : leadingZeros (transcribe a b text) = leadingZeros text := by
  refine leadingZeros_eq fun digit first => ?_
  rw [List.head?_reverse] at first
  obtain ⟨nonempty, rfl⟩ := List.mem_getLast?_eq_getLast first
  exact Nat.getLast_digit_ne_zero b (Nat.digits_ne_nil_iff_ne_zero.mp nonempty)

theorem transcribe_transcribe {text : List ℕ} (base : 1 < a) (small : ∀ digit ∈ text, digit < a) :
    transcribe b a (transcribe a b text) = text := by
  rw [transcribe, leadingZeros_transcribe, number_transcribe]
  exact transcribe_self base small

theorem transcribe_lt {text : List ℕ} (base : 1 < b) : ∀ digit ∈ transcribe a b text, digit < b := by
  intro digit member
  rcases List.mem_append.mp member with member | member
  · rw [List.eq_of_mem_replicate member]
    exact Nat.zero_lt_of_lt base
  · exact Nat.digits_lt_base base (List.mem_reverse.mp member)

end Positional

/-! ### Numerals without redundancy

Positional numerals whose digits count one more than they show, the lowest first. Unlike with plain digits, no number
has two numerals: a leading zero is worth something.
-/

namespace BijectiveNumeral

variable {b : ℕ}

/-- The value of a numeral on top of a number. -/
def value (b top : ℕ) (digits : List ℕ) : ℕ := digits.foldr (fun digit higher => digit + 1 + b * higher) top

@[simp] theorem value_nil (top : ℕ) : value b top [] = top := rfl

@[simp] theorem value_cons (top digit : ℕ) (digits : List ℕ) :
    value b top (digit :: digits) = digit + 1 + b * value b top digits := rfl

theorem value_append (top : ℕ) (low high : List ℕ) : value b top (low ++ high) = value b (value b top high) low :=
  List.foldr_append

theorem value_modEq {m top other : ℕ} (same : top ≡ other [MOD m]) (digits : List ℕ) :
    value b top digits ≡ value b other digits [MOD m] := by
  induction digits with
  | nil => exact same
  | cons digit digits ih => exact (ih.mul_left b).add_left (digit + 1)

/-- A digit and what is above it are determined by their number. -/
theorem split_unique {d e v w : ℕ} (small : d < b) (small' : e < b) (same : d + b * v = e + b * w) : d = e ∧ v = w := by
  have digit := congrArg (· % b) same
  simp only [Nat.add_mul_mod_self_left, Nat.mod_eq_of_lt small, Nat.mod_eq_of_lt small'] at digit
  subst digit
  exact ⟨rfl, Nat.eq_of_mul_eq_mul_left (Nat.zero_lt_of_lt small) (Nat.add_left_cancel same)⟩

theorem value_unique {left right : List ℕ} (small : ∀ digit ∈ left, digit < b) (small' : ∀ digit ∈ right, digit < b)
    (same : value b 0 left = value b 0 right) : left = right := by
  induction left generalizing right with
  | nil =>
    cases right with
    | nil => rfl
    | cons digit right =>
      rw [value_nil, value_cons] at same
      omega
  | cons digit left ih =>
    cases right with
    | nil =>
      rw [value_nil, value_cons] at same
      omega
    | cons other right =>
      rw [List.forall_mem_cons] at small small'
      obtain ⟨rfl, higher⟩ := split_unique small.1 small'.1 (v := value b 0 left) (w := value b 0 right) (by
        simp only [value_cons] at same
        omega)
      rw [ih small.2 small'.2 higher]

end BijectiveNumeral

/-! ### Bits in groups

The bits of a sequence of digits are read as digits of another width, the highest bit first. At every moment some bits
are left that do not fill a digit yet. Taking a digit in and giving one out both keep the relation, whatever the widths
are, and at the end it determines what has been given out.
-/

namespace BitGroups

/-- The number that digits of this width make up, the highest first. -/
def value (width : ℕ) (digits : List ℕ) : ℕ := Nat.ofDigits (2 ^ width) digits.reverse

theorem value_concat (width : ℕ) (digits : List ℕ) (digit : ℕ) :
    value width (digits ++ [digit]) = value width digits * 2 ^ width + digit := by
  rw [value, List.reverse_concat, Nat.ofDigits_cons, Nat.add_comm, Nat.mul_comm]
  rfl

/-- Digits are determined by their number and their value. -/
theorem value_inj {width : ℕ} (wide : 0 < width) {digits others : List ℕ} (length : digits.length = others.length)
    (small : ∀ digit ∈ digits, digit < 2 ^ width) (small' : ∀ digit ∈ others, digit < 2 ^ width)
    (same : value width digits = value width others) : digits = others := by
  refine List.reverse_inj.mp (Nat.ofDigits_inj_of_len_eq (Nat.one_lt_two_pow wide.ne') ?_ ?_ ?_ same)
  · rw [List.length_reverse, List.length_reverse, length]
  · exact fun digit member => small digit (List.mem_reverse.mp member)
  · exact fun digit member => small' digit (List.mem_reverse.mp member)

/-- The bits of the digits taken in are those of the digits given out, and some that are left. -/
structure Regrouped (w v : ℕ) (input output : List ℕ) (bits left : ℕ) : Prop where
  count : w * input.length = v * output.length + bits
  value : value w input = value v output * 2 ^ bits + left
  small : left < 2 ^ bits
  digits : ∀ digit ∈ output, digit < 2 ^ v

variable {w v : ℕ} {input output output' : List ℕ} {bits bits' left left' digit : ℕ}

namespace Regrouped

theorem nil (w v : ℕ) : Regrouped w v [] [] 0 0 := ⟨rfl, rfl, Nat.one_pos, nofun⟩

theorem push (grouped : Regrouped w v input output bits left) (small : digit < 2 ^ w) :
    Regrouped w v (input ++ [digit]) output (bits + w) (left * 2 ^ w + digit) where
  count := by
    rw [List.length_append, List.length_singleton, Nat.mul_add, Nat.mul_one, grouped.count, Nat.add_assoc]
  value := by
    rw [value_concat, grouped.value, pow_add]
    ring
  small := by
    have bound := grouped.small
    calc
      left * 2 ^ w + digit < (left + 1) * 2 ^ w := by
        rw [Nat.add_mul, Nat.one_mul]
        exact Nat.add_lt_add_left small _
      _ ≤ 2 ^ bits * 2 ^ w := Nat.mul_le_mul_right _ bound
      _ = 2 ^ (bits + w) := (pow_add ..).symm
  digits := grouped.digits

theorem pop (grouped : Regrouped w v input output (bits + v) left) :
    Regrouped w v input (output ++ [left / 2 ^ bits]) bits (left % 2 ^ bits) where
  count := by
    rw [List.length_append, List.length_singleton, Nat.mul_add, Nat.mul_one, grouped.count]
    omega
  value := by
    have split := Nat.div_add_mod left (2 ^ bits)
    rw [value_concat, grouped.value, pow_add]
    calc
      BitGroups.value v output * (2 ^ bits * 2 ^ v) + left =
          BitGroups.value v output * (2 ^ bits * 2 ^ v) + (2 ^ bits * (left / 2 ^ bits) + left % 2 ^ bits) := by rw [split]
      _ = _ := by ring
  small := Nat.mod_lt _ (Nat.two_pow_pos bits)
  digits := by
    intro other member
    rcases List.mem_append.mp member with member | member
    · exact grouped.digits other member
    · rw [List.mem_singleton.mp member]
      apply Nat.div_lt_of_lt_mul
      rw [← pow_add]
      exact grouped.small

section

variable (grouped : Regrouped w v input output bits left)
include grouped

/-- A digit is taken in, and what is left is filled up with its high bits. -/
theorem feed {rest : ℕ} (small : digit < 2 ^ w)
    (enough : bits + w = rest + v) (fits : rest ≤ w) : Regrouped w v (input ++ [digit])
      (output ++ [left * 2 ^ (w - rest) + digit / 2 ^ rest]) rest (digit % 2 ^ rest) := by
  have split : left * 2 ^ w + digit = digit + left * 2 ^ (w - rest) * 2 ^ rest := by
    rw [Nat.mul_assoc, ← pow_add, Nat.sub_add_cancel fits, Nat.add_comm]
  have pushed := grouped.push small
  rw [enough, split] at pushed
  have popped := pushed.pop
  rwa [Nat.add_mul_div_right _ _ (Nat.two_pow_pos rest), Nat.add_mul_mod_self_right, Nat.add_comm] at popped

/-- A digit that fills two. -/
theorem feed_two {rest : ℕ} (small : digit < 2 ^ w)
    (enough : bits + w = rest + v + v) (fits : rest + v ≤ w) : Regrouped w v (input ++ [digit])
      (output ++ [left * 2 ^ (w - (rest + v)) + digit / 2 ^ (rest + v), digit / 2 ^ rest % 2 ^ v]) rest
      (digit % 2 ^ rest) := by
  have popped := (grouped.feed small enough fits).pop
  rwa [List.append_assoc, pow_add, Nat.mod_mul_right_div_self, Nat.mod_mul_right_mod, ← pow_add] at popped

/-- What has been given out is determined when no full digit is left. -/
theorem unique (wide : 0 < v)
    (again : Regrouped w v input output' bits' left') (partly : bits < v) (partly' : bits' < v) :
    output = output' ∧ bits = bits' ∧ left = left' := by
  have count : v * output.length + bits = v * output'.length + bits' := by rw [← grouped.count, again.count]
  have length : output.length = output'.length := by
    have quotient := congrArg (· / v) count
    simpa [Nat.mul_add_div wide, Nat.div_eq_of_lt partly, Nat.div_eq_of_lt partly'] using quotient
  obtain rfl : bits = bits' := by
    rw [length] at count
    exact Nat.add_left_cancel count
  have value : left + 2 ^ bits * BitGroups.value v output = left' + 2 ^ bits * BitGroups.value v output' := by
    have same := grouped.value.symm.trans again.value
    rw [Nat.mul_comm _ (2 ^ bits), Nat.mul_comm _ (2 ^ bits)] at same
    omega
  have rest := congrArg (· % 2 ^ bits) value
  simp only [Nat.add_mul_mod_self_left, Nat.mod_eq_of_lt grouped.small, Nat.mod_eq_of_lt again.small] at rest
  subst rest
  have front := Nat.eq_of_mul_eq_mul_left (Nat.two_pow_pos bits) (Nat.add_left_cancel value)
  exact ⟨value_inj wide length grouped.digits again.digits front, rfl, rfl⟩

/-- The digits given out, and one more for bits that are left, hold the digits taken in and zeros behind them. -/
theorem flip (digits : ∀ digit ∈ input, digit < 2 ^ w) (partly : bits ≤ v) :
    Regrouped v w (output ++ [left * 2 ^ (v - bits)]) input (v - bits) 0 where
  count := by
    rw [List.length_append, List.length_singleton, Nat.mul_add, Nat.mul_one, grouped.count]
    omega
  value := by
    have split : 2 ^ v = 2 ^ bits * 2 ^ (v - bits) := by rw [← pow_add, Nat.add_sub_cancel' partly]
    rw [value_concat, grouped.value, split]
    ring
  small := Nat.two_pow_pos _
  digits := digits

end

theorem flip_whole (grouped : Regrouped w v input output 0 0) (digits : ∀ digit ∈ input, digit < 2 ^ w) :
    Regrouped v w output input 0 0 where
  count := by rw [grouped.count]; rfl
  value := by rw [grouped.value, pow_zero]; ring
  small := Nat.one_pos
  digits := digits

end Regrouped

end BitGroups

/-! ### Numbers that are scaled

A number with few digits before some zeros. A number with more digits is cut off where the digits left are
still too many by one step less, and this gives the greatest scaled number below it.
-/

namespace Scaled

variable {base step x e : ℕ}

/-- A mantissa below `base * step` and an exponent. -/
def Fits (base step n : ℕ) : Prop := ∃ m e, m < base * step ∧ n = m * base ^ e

/-- The number without its last `e` digits. -/
def truncate (base e x : ℕ) : ℕ := x / base ^ e * base ^ e

/-- One digit less would not be enough. -/
def Tight (base step e x : ℕ) : Prop := e = 0 ∨ base * step ≤ x / base ^ (e - 1)

theorem truncate_le : truncate base e x ≤ x := Nat.div_mul_le_self ..

theorem lt_truncate_add (positive : 0 < base) : x < truncate base e x + base ^ e := by
  have split := Nat.div_add_mod' x (base ^ e)
  have small := Nat.mod_lt x (Nat.pow_pos (n := e) positive)
  rw [truncate]
  omega

theorem fits_truncate (small : x / base ^ e < base * step) : Fits base step (truncate base e x) :=
  ⟨x / base ^ e, e, small, rfl⟩

/-- At least `step` is left. -/
theorem step_le_truncate (positive : 0 < base) (nonzero : e ≠ 0) (tight : base * step ≤ x / base ^ (e - 1)) :
    step * base ^ e ≤ truncate base e x := by
  obtain ⟨digits, rfl⟩ := Nat.exists_eq_succ_of_ne_zero nonzero
  have left : step ≤ x / base ^ (digits + 1) := by
    rw [pow_succ, ← Nat.div_div_eq_div_mul, Nat.le_div_iff_mul_le positive, mul_comm]
    exact tight
  exact Nat.mul_le_mul_right _ left

/-- Cutting off is rounding down. -/
theorem isGreatest_truncate (positive : 0 < base) (small : x / base ^ e < base * step) (tight : Tight base step e x) :
    IsGreatest {n | Fits base step n ∧ n ≤ x} (truncate base e x) := by
  refine ⟨⟨fits_truncate small, truncate_le⟩, ?_⟩
  rintro n ⟨⟨m, zeros, fits, rfl⟩, below⟩
  rcases Nat.lt_or_ge zeros e with few | many
  · have tight := tight.resolve_left (by omega)
    calc
      m * base ^ zeros ≤ base * step * base ^ (e - 1) :=
        Nat.mul_le_mul fits.le (Nat.pow_le_pow_right positive (by omega))
      _ = step * base ^ (e - 1 + 1) := by ring
      _ = step * base ^ e := by rw [Nat.sub_add_cancel (by omega)]
      _ ≤ truncate base e x := step_le_truncate positive (by omega) tight
  · obtain ⟨more, rfl⟩ := Nat.exists_eq_add_of_le many
    have factor : m * base ^ (e + more) = m * base ^ more * base ^ e := by ring
    rw [factor] at below ⊢
    exact Nat.mul_le_mul_right _ ((Nat.le_div_iff_mul_le (Nat.pow_pos positive)).mpr below)

/-- The part that is cut off is at most one in `step`. -/
theorem le_truncate_mul (positive : 0 < base) (tight : Tight base step e x) :
    x * step ≤ truncate base e x * (step + 1) := by
  rcases tight with rfl | tight
  · rw [truncate, pow_zero, Nat.div_one, mul_one]
    exact Nat.mul_le_mul_left _ (Nat.le_succ _)
  · rcases Nat.eq_zero_or_pos e with rfl | pos
    · rw [truncate, pow_zero, Nat.div_one, mul_one]
      exact Nat.mul_le_mul_left _ (Nat.le_succ _)
    · have least := step_le_truncate positive pos.ne' tight
      calc
        x * step ≤ (truncate base e x + base ^ e) * step := Nat.mul_le_mul_right _ (lt_truncate_add positive).le
        _ = truncate base e x * step + step * base ^ e := by ring
        _ ≤ truncate base e x * step + truncate base e x := Nat.add_le_add_left least _
        _ = truncate base e x * (step + 1) := by ring

theorem truncate_pos (least : 0 < x) (positive : 0 < base) (stepped : 0 < step) (tight : Tight base step e x) :
    0 < truncate base e x := by
  have bound := le_truncate_mul positive tight
  have room : 0 < x * step := Nat.mul_pos least stepped
  exact Nat.pos_of_mul_pos_right (room.trans_le bound)

end Scaled
