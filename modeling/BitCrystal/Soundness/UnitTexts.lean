import BitCrystal.Model.Money

/-! # Amounts of the user interface

`BitcoinUnits::parse` puts the digits in front of the point and those behind it together and converts what comes out, so
white space and signs are judged in the text put together and not where they stood. What it accepts is compared with the
grammar of an amount. The text that `format` gives is in the grammar.
-/

namespace BitCrystal

namespace BitcoinUnits

open QString

/-- A sign, if there is one, and the factor it stands for. -/
inductive Sign : QString → ℤ → Prop
  | none : Sign [] 1
  | plus : Sign [43] 1
  | minus : Sign [45] (-1)

/-- The text in front of the point and the text behind it. -/
inductive Splits : QString → QString → QString → Prop
  | one {whole : QString} : point ∉ whole → Splits whole whole []
  | two {whole fraction : QString} : point ∉ whole → point ∉ fraction → Splits (whole ++ point :: fraction) whole fraction

/-- The digits behind the point, filled with zeros. -/
def scaled (unit : BitcoinUnit) (whole fraction : QString) : QString :=
  whole ++ leftJustified fraction (decimals unit) zero

/-- An optional sign, digits, and a point with no more digits than the unit has, of 18 characters when scaled. -/
def Denotes (unit : BitcoinUnit) (text : QString) (n : ℤ) : Prop :=
  ∃ sign factor digits fraction, Splits text (sign ++ digits) fraction ∧ Sign sign factor ∧ digits ≠ [] ∧
    (∀ c ∈ digits, isDigit c) ∧ (∀ c ∈ fraction, isDigit c) ∧ fraction.length ≤ decimals unit ∧
    (sign ++ digits).length + decimals unit ≤ 18 ∧
    n = factor * (value digits * BitcoinUnits.factor unit + value fraction * 10 ^ (decimals unit - fraction.length))

/-- What is accepted denotes the value that is returned, and what denotes one is accepted. -/
def Exact (unit : BitcoinUnit) (text : QString) : Prop :=
  ∀ n val_out, parse unit text val_out = (true, n) ↔ Denotes unit text n

/-- Digits with a sign, between white space. -/
structure Numeral (str before sign digits after : QString) (factor : ℤ) : Prop where
  whole : str = before ++ (sign ++ digits ++ after)
  before : ∀ c ∈ before, isSpace c
  after : ∀ c ∈ after, isSpace c
  sign : Sign sign factor
  filled : digits ≠ []
  digits : ∀ c ∈ digits, isDigit c

/-- The text put together is a number, and there is white space around it, or no digit in front of the point. -/
def Stray (unit : BitcoinUnit) (text : QString) : Prop :=
  text ≠ [] ∧ ∃ whole fraction before sign digits after factor, Splits text whole fraction ∧
    fraction.length ≤ decimals unit ∧ whole.length + decimals unit ≤ 18 ∧
    Numeral (scaled unit whole fraction) before sign digits after factor ∧
    (before ≠ [] ∨ after ≠ [] ∨ ∀ c ∈ whole, ¬ isDigit c)

variable {unit : BitcoinUnit} {text whole fraction str before sign digits after : QString} {n factor : ℤ}

/-! ## Characters -/

theorem isDigit_iff {c : UInt16} : isDigit c = true ↔ 48 ≤ c.toNat ∧ c.toNat ≤ 57 := by
  rw [isDigit, decide_eq_true_eq, UInt16.le_iff_toNat_le, UInt16.le_iff_toNat_le]
  rfl

theorem isDigit_toUInt8 {c : UInt16} (digit : isDigit c) : Decimal.isDigit c.toUInt8 = true := by
  have range := isDigit_iff.mp digit
  rw [Decimal.isDigit_iff, UInt16.toNat_toUInt8]
  omega

theorem isDigit_toUInt16 {c : UInt8} (digit : Decimal.isDigit c = true) : isDigit c.toUInt16 = true := by
  rw [isDigit_iff, UInt8.toNat_toUInt16]
  exact Decimal.isDigit_iff.mp digit

/-- Neither digits nor signs are white space, and no sign is a digit. -/
theorem not_isSpace_of_isDigit {c : UInt16} (digit : isDigit c) : isSpace c = false := by
  have range := isDigit_iff.mp digit
  obtain ⟨n, bound, rfl⟩ : ∃ n < 58, c = UInt16.ofNat n := ⟨c.toNat, by omega, UInt16.ofNat_toNat.symm⟩
  rw [UInt16.toNat_ofNat', Nat.mod_eq_of_lt (by omega)] at range
  have all : ∀ n < 58, 48 ≤ n → isSpace (UInt16.ofNat n) = false := by decide
  exact all n bound range.1

theorem Sign.cases_eq (form : Sign sign factor) : sign = [] ∧ factor = 1 ∨
    ∃ c, sign = [c] ∧ isSpace c = false ∧ isDigit c = false ∧ c ≠ point ∧ (c = 43 ∧ factor = 1 ∨ c = 45 ∧ factor = -1) := by
  cases form with
  | none => exact .inl ⟨rfl, rfl⟩
  | plus => exact .inr ⟨43, rfl, by decide, by decide, by decide, .inl ⟨rfl, rfl⟩⟩
  | minus => exact .inr ⟨45, rfl, by decide, by decide, by decide, .inr ⟨rfl, rfl⟩⟩

theorem point_notMem (all : ∀ c ∈ digits, isDigit c) : point ∉ digits := fun member => by
  have digit := all point member
  exact absurd digit (by decide)

theorem value_append (l m : QString) : value (l ++ m) = value l * 10 ^ m.length + value m := by
  rw [value, List.map_append, Decimal.value_append, List.length_map]
  rfl

theorem value_zeros (count : ℕ) : value (List.replicate count zero) = 0 := by
  rw [value, List.map_replicate]
  exact Decimal.value_replicate count

theorem value_lt (all : ∀ c ∈ digits, isDigit c) : value digits < 10 ^ digits.length := by
  have bound := @Decimal.value_lt (digits.map UInt16.toUInt8) fun c member => by
    obtain ⟨d, there, rfl⟩ := List.mem_map.mp member
    exact isDigit_toUInt8 (all d there)
  rwa [List.length_map] at bound

theorem trimmed_eq {core : QString} (spaces : ∀ c ∈ before, isSpace c) (spaces' : ∀ c ∈ after, isSpace c)
    (proper : ∀ c ∈ core, isSpace c = false) (nonempty : core ≠ []) : trimmed (before ++ (core ++ after)) = core := by
  have stays {l m : QString} (proper : ∀ c ∈ l, isSpace c = false) (nonempty : l ≠ []) :
      (l ++ m).dropWhile isSpace = l ++ m := by
    cases l with
    | nil => exact absurd rfl nonempty
    | cons c l =>
      apply List.dropWhile_cons_of_neg
      rw [proper c List.mem_cons_self]
      exact Bool.false_ne_true
  rw [trimmed, List.dropWhile_append_of_pos spaces, stays proper nonempty, List.reverse_append,
    List.dropWhile_append_of_pos fun c member => spaces' c (List.mem_reverse.mp member)]
  have last := stays (l := core.reverse) (m := []) (fun c member => proper c (List.mem_reverse.mp member))
    (fun empty => nonempty (List.reverse_eq_nil_iff.mp empty))
  rw [List.append_nil] at last
  rw [last, List.reverse_reverse]

theorem exists_trimmed (str : QString) : ∃ before after, str = before ++ (trimmed str ++ after) ∧
    (∀ c ∈ before, isSpace c) ∧ (∀ c ∈ after, isSpace c) := by
  have front := List.takeWhile_append_dropWhile (p := isSpace) (l := str)
  have back := List.takeWhile_append_dropWhile (p := isSpace) (l := (str.dropWhile isSpace).reverse)
  refine ⟨str.takeWhile isSpace, ((str.dropWhile isSpace).reverse.takeWhile isSpace).reverse, ?_, ?_, ?_⟩
  · rw [trimmed, ← List.reverse_append, back, List.reverse_reverse, front]
  · exact fun c member => List.mem_takeWhile_imp member
  · exact fun c member => List.mem_takeWhile_imp (List.mem_reverse.mp member)

theorem readDigits_eq_some {number : ℤ} : readDigits digits number = some n ↔
    digits ≠ [] ∧ (∀ c ∈ digits, isDigit c) ∧ (-2 ^ 63 ≤ number ∧ number < 2 ^ 63) ∧ number = n := by
  simp only [readDigits, List.all_eq_true]
  split
  next holds => exact ⟨fun same => ⟨holds.1, holds.2.1, holds.2.2, Option.some.inj same⟩, fun all => congrArg some all.2.2.2⟩
  next fails => exact ⟨nofun, fun all => absurd ⟨all.1, all.2.1, all.2.2.1⟩ fails⟩

theorem Numeral.proper (numeral : Numeral str before sign digits after factor) :
    ∀ c ∈ sign ++ digits, isSpace c = false := by
  intro c member
  rcases List.mem_append.mp member with inSign | inDigits
  · rcases numeral.sign.cases_eq with ⟨rfl, -⟩ | ⟨d, rfl, proper, -⟩
    · cases inSign
    · rwa [List.mem_singleton.mp inSign]
  · exact not_isSpace_of_isDigit (numeral.digits c inDigits)

theorem Numeral.toLongLong_eq (numeral : Numeral str before sign digits after factor) (short : digits.length ≤ 18) :
    toLongLong str = some (factor * (value digits : ℤ)) := by
  have core : trimmed str = sign ++ digits := by
    rw [numeral.whole]
    exact trimmed_eq numeral.before numeral.after numeral.proper fun empty =>
      numeral.filled (List.append_eq_nil_iff.mp empty).2
  have bound := (value_lt numeral.digits).trans_le (Nat.pow_le_pow_right (by decide) short)
  unfold toLongLong
  rw [core]
  rcases numeral.sign with _ | _ | _
  · cases shape : digits with
    | nil => exact absurd shape numeral.filled
    | cons c rest =>
      have digit := numeral.digits c (shape ▸ List.mem_cons_self)
      have minus : c ≠ 45 := fun sign => absurd (sign ▸ digit) (by decide)
      have plus : c ≠ 43 := fun sign => absurd (sign ▸ digit) (by decide)
      rw [List.nil_append]
      simp only [if_neg minus, if_neg plus, ← shape, Int.one_mul]
      exact readDigits_eq_some.mpr ⟨numeral.filled, numeral.digits, by omega, rfl⟩
  · rw [Int.one_mul]
    change readDigits digits (value digits) = _
    exact readDigits_eq_some.mpr ⟨numeral.filled, numeral.digits, by omega, rfl⟩
  · rw [Int.neg_mul, Int.one_mul]
    change readDigits digits (-value digits) = _
    exact readDigits_eq_some.mpr ⟨numeral.filled, numeral.digits, by omega, rfl⟩

theorem numeral_of_toLongLong (read : toLongLong str = some n) :
    ∃ before sign digits after factor, Numeral str before sign digits after factor ∧ n = factor * (value digits : ℤ) := by
  obtain ⟨before, after, whole, spaces, spaces'⟩ := exists_trimmed str
  unfold toLongLong at read
  cases core : trimmed str with
  | nil =>
    rw [core] at read
    cases read
  | cons c rest =>
    rw [core] at read whole
    simp only at read
    split_ifs at read with minus plus
    · obtain ⟨nonempty, all, -, rfl⟩ := readDigits_eq_some.mp read
      subst minus
      exact ⟨before, [45], rest, after, -1, ⟨whole, spaces, spaces', .minus, nonempty, all⟩, by ring⟩
    · obtain ⟨nonempty, all, -, rfl⟩ := readDigits_eq_some.mp read
      subst plus
      exact ⟨before, [43], rest, after, 1, ⟨whole, spaces, spaces', .plus, nonempty, all⟩, by ring⟩
    · obtain ⟨nonempty, all, -, rfl⟩ := readDigits_eq_some.mp read
      exact ⟨before, [], c :: rest, after, 1, ⟨whole, spaces, spaces', .none, nonempty, all⟩, by ring⟩

theorem Splits.splitOn_eq (splits : Splits text whole fraction) :
    text.splitOn point = [whole] ∧ fraction = [] ∨ text.splitOn point = [whole, fraction] := by
  cases splits with
  | one not => exact .inl ⟨List.splitOn_eq_singleton not, rfl⟩
  | two not not' =>
    refine .inr ?_
    rw [List.splitOn_append_cons_self, List.splitOn_eq_singleton not, List.splitOn_eq_singleton not']
    rfl

/-- A text is split in one way only. -/
theorem Splits.unique {whole' fraction' : QString} (splits : Splits text whole fraction)
    (splits' : Splits text whole' fraction') : whole = whole' ∧ fraction = fraction' := by
  rcases splits.splitOn_eq with ⟨parts, rfl⟩ | parts <;> rcases splits'.splitOn_eq with ⟨parts', rfl⟩ | parts' <;>
    rw [parts] at parts' <;> cases parts' <;> exact ⟨rfl, rfl⟩

theorem Splits.ne_nil (splits : Splits text whole fraction) (nonempty : whole ≠ []) : text ≠ [] := by
  cases splits with
  | one => exact nonempty
  | two => simp

/-- A text with one point at most splits. -/
theorem exists_splits (few : ¬ 2 < (text.splitOn point).length) :
    Splits text ((text.splitOn point).getD 0 []) ((text.splitOn point).getD 1 []) := by
  by_cases member : point ∈ text
  · obtain ⟨whole, rest, rfl, first⟩ := List.eq_append_cons_of_mem member
    rw [List.splitOn_append_cons_self, List.splitOn_eq_singleton first] at few ⊢
    by_cases again : point ∈ rest
    · obtain ⟨second, last, rfl, other⟩ := List.eq_append_cons_of_mem again
      rw [List.splitOn_append_cons_self, List.splitOn_eq_singleton other] at few
      have more := List.length_pos_of_ne_nil (List.splitOn_ne_nil point last)
      rw [List.length_append, List.length_append] at few
      exact absurd (by simp; omega) few
    · rw [List.splitOn_eq_singleton again]
      exact .two first again
  · rw [List.splitOn_eq_singleton member]
    exact .one member

theorem length_scaled (few : fraction.length ≤ decimals unit) :
    (scaled unit whole fraction).length = whole.length + decimals unit := by
  rw [scaled, leftJustified, List.length_append, List.length_append, List.length_replicate]
  omega

theorem parse_eq_true {val_out : ℤ} : parse unit text val_out = (true, n) ↔
    text ≠ [] ∧ ∃ whole fraction, Splits text whole fraction ∧ fraction.length ≤ decimals unit ∧
      whole.length + decimals unit ≤ 18 ∧ toLongLong (scaled unit whole fraction) = some n := by
  constructor
  · intro parsed
    dsimp only [parse] at parsed
    split_ifs at parsed with empty many long wide
    · cases parsed
    · cases parsed
    · cases parsed
    · cases parsed
    · have few := not_lt.mp long
      refine ⟨empty, _, _, exists_splits many, few, ?_, ?_⟩
      · rw [← length_scaled few]
        exact not_lt.mp wide
      · split at parsed
        next retvalue read =>
          obtain ⟨-, rfl⟩ := Prod.mk.inj parsed
          exact read
        next => cases parsed
  · rintro ⟨nonempty, whole, fraction, splits, few, short, read⟩
    have width : (scaled unit whole fraction).length = whole.length + decimals unit := length_scaled few
    have parts : ¬ 2 < (text.splitOn point).length ∧ (text.splitOn point).getD 0 [] = whole ∧
        (text.splitOn point).getD 1 [] = fraction := by
      rcases splits.splitOn_eq with ⟨parts, rfl⟩ | parts <;> rw [parts] <;> exact ⟨by simp, rfl, rfl⟩
    unfold scaled at width read
    unfold parse
    simp only [if_neg nonempty, if_neg parts.1, parts.2.1, parts.2.2, if_neg (not_lt.mpr few), width,
      if_neg (not_lt.mpr short), read]

theorem factor_eq (unit : BitcoinUnit) : BitcoinUnits.factor unit = 10 ^ decimals unit := by
  cases unit <;> rfl

theorem isDigit_zero : isDigit zero := by decide

/-- A text of the grammar, put together, is a number without white space around it. -/
theorem numeral_scaled (form : Sign sign factor) (nonempty : digits ≠ []) (all : ∀ c ∈ digits, isDigit c)
    (all' : ∀ c ∈ fraction, isDigit c) : Numeral (scaled unit (sign ++ digits) fraction) [] sign
      (digits ++ leftJustified fraction (decimals unit) zero) [] factor where
  whole := by
    rw [scaled, List.nil_append, List.append_nil, List.append_assoc]
  before := nofun
  after := nofun
  sign := form
  filled := fun empty => nonempty (List.append_eq_nil_iff.mp empty).1
  digits := by
    intro c member
    rcases List.mem_append.mp member with inDigits | inFraction
    · exact all c inDigits
    · rcases List.mem_append.mp inFraction with inFraction | inZeros
      · exact all' c inFraction
      · rw [(List.mem_replicate.mp inZeros).2]
        exact isDigit_zero

theorem value_scaled (few : fraction.length ≤ decimals unit) :
    (value (digits ++ leftJustified fraction (decimals unit) zero) : ℤ) =
      value digits * BitcoinUnits.factor unit + value fraction * 10 ^ (decimals unit - fraction.length) := by
  have length : (leftJustified fraction (decimals unit) zero).length = decimals unit := by
    rw [leftJustified, List.length_append, List.length_replicate]
    omega
  rw [value_append, length, leftJustified, value_append, value_zeros, List.length_replicate, factor_eq, Nat.add_zero]
  push_cast
  rfl

theorem parse_of_denotes {val_out : ℤ} (denotes : Denotes unit text n) : parse unit text val_out = (true, n) := by
  obtain ⟨sign, factor, digits, fraction, splits, form, nonempty, all, all', few, short, rfl⟩ := denotes
  have numeral : Numeral (scaled unit (sign ++ digits) fraction) [] sign
      (digits ++ leftJustified fraction (decimals unit) zero) [] factor := numeral_scaled form nonempty all all'
  have length : (scaled unit (sign ++ digits) fraction).length = (sign ++ digits).length + decimals unit :=
    length_scaled few
  have narrow : (digits ++ leftJustified fraction (decimals unit) zero).length ≤ 18 := by
    rw [numeral.whole, List.nil_append, List.append_nil, List.length_append] at length
    omega
  have nonempty' := splits.ne_nil fun empty => nonempty (List.append_eq_nil_iff.mp empty).2
  refine parse_eq_true.mpr ⟨nonempty', sign ++ digits, fraction, splits, few, short, ?_⟩
  rw [numeral.toLongLong_eq narrow, value_scaled few]

/-- A text that is read as a number is of the grammar, if there is no white space around the number and a digit in front
of the point. -/
theorem denotes_of_numeral (splits : Splits text whole fraction) (few : fraction.length ≤ decimals unit)
    (short : whole.length + decimals unit ≤ 18) (numeral : Numeral (scaled unit whole fraction) [] sign digits [] factor)
    (digit : ∃ c ∈ whole, isDigit c) : Denotes unit text (factor * (value digits : ℤ)) := by
  have together : whole ++ leftJustified fraction (decimals unit) zero = sign ++ digits := by
    have equal := numeral.whole
    rwa [scaled, List.nil_append, List.append_nil] at equal
  obtain ⟨c, inWhole, digit⟩ := digit
  have parts : ∃ front, front ≠ [] ∧ whole = sign ++ front ∧
      digits = front ++ leftJustified fraction (decimals unit) zero := by
    rcases numeral.sign.cases_eq with ⟨rfl, -⟩ | ⟨d, rfl, -, noDigit, -⟩
    · exact ⟨whole, List.ne_nil_of_mem inWhole, rfl, together.symm⟩
    · cases whole with
      | nil => cases inWhole
      | cons first front =>
        obtain ⟨rfl, rest⟩ := List.cons.inj together
        refine ⟨front, ?_, rfl, rest.symm⟩
        rintro rfl
        rw [List.mem_singleton.mp inWhole, noDigit] at digit
        cases digit
  obtain ⟨front, nonempty, rfl, rfl⟩ := parts
  have all : ∀ c ∈ front, isDigit c := fun c member => numeral.digits c (List.mem_append_left _ member)
  have all' : ∀ c ∈ fraction, isDigit c := fun c member =>
    numeral.digits c (List.mem_append_right _ (List.mem_append_left _ member))
  exact ⟨sign, factor, front, fraction, splits, numeral.sign, nonempty, all, all', few, short, by rw [value_scaled few]⟩

/-- A stray text is accepted and denotes nothing. -/
theorem Stray.not_exact (stray : Stray unit text) : ¬ Exact unit text := by
  obtain ⟨nonempty, whole, fraction, before, sign, digits, after, factor, splits, few, short, numeral, off⟩ := stray
  have narrow : digits.length ≤ 18 := by
    have width : (scaled unit whole fraction).length = whole.length + decimals unit := length_scaled few
    rw [numeral.whole] at width
    simp only [List.length_append] at width
    omega
  have accepted : parse unit text 0 = (true, factor * (value digits : ℤ)) :=
    parse_eq_true.mpr ⟨nonempty, whole, fraction, splits, few, short, numeral.toLongLong_eq narrow⟩
  intro isExact
  obtain ⟨sign', factor', digits', fraction', splits', form, nonempty', all, all', -⟩ := (isExact _ 0).mp accepted
  obtain ⟨rfl, rfl⟩ := splits.unique splits'
  have plain : Numeral (scaled unit (sign' ++ digits') fraction) [] sign'
      (digits' ++ leftJustified fraction (decimals unit) zero) [] factor' := numeral_scaled form nonempty' all all'
  have proper : ∀ c ∈ scaled unit (sign' ++ digits') fraction, isSpace c = false := by
    intro c member
    rw [plain.whole, List.nil_append, List.append_nil] at member
    exact plain.proper c member
  rw [numeral.whole] at proper
  rcases off with front | back | noDigit
  · obtain ⟨c, rest, rfl⟩ := List.exists_cons_of_ne_nil front
    have space := numeral.before c List.mem_cons_self
    rw [proper c (List.mem_append_left _ List.mem_cons_self)] at space
    cases space
  · obtain ⟨c, rest, rfl⟩ := List.exists_cons_of_ne_nil back
    have space := numeral.after c List.mem_cons_self
    rw [proper c (List.mem_append_right _ (List.mem_append_right _ List.mem_cons_self))] at space
    cases space
  · obtain ⟨c, rest, rfl⟩ := List.exists_cons_of_ne_nil nonempty'
    exact noDigit c (List.mem_append_right _ List.mem_cons_self) (all c List.mem_cons_self)

theorem exact_of_not_stray (fair : ¬ Stray unit text) : Exact unit text := by
  intro n val_out
  refine ⟨fun parsed => ?_, parse_of_denotes⟩
  obtain ⟨nonempty, whole, fraction, splits, few, short, read⟩ := parse_eq_true.mp parsed
  obtain ⟨before, sign, digits, after, factor, numeral, rfl⟩ := numeral_of_toLongLong read
  have off : ¬ (before ≠ [] ∨ after ≠ [] ∨ ∀ c ∈ whole, ¬ isDigit c) := fun off =>
    fair ⟨nonempty, whole, fraction, before, sign, digits, after, factor, splits, few, short, numeral, off⟩
  simp only [not_or, not_not, not_forall, ne_eq] at off
  obtain ⟨rfl, rfl, c, member, digit⟩ := off
  exact denotes_of_numeral splits few short numeral ⟨c, member, digit⟩

/-- Zeros are taken from the end, and filled in again when the text is read. -/
theorem chopZeros_spec (remainder_str : QString) : ∃ zeros,
    remainder_str = List.replicate zeros zero ++ chopZeros remainder_str := by
  fun_induction chopZeros remainder_str with
  | case1 second first rest ih =>
    obtain ⟨zeros, same⟩ := ih
    refine ⟨zeros + 1, ?_⟩
    rw [List.replicate_succ, List.cons_append, ← same]
  | case2 => exact ⟨0, rfl⟩
  | case3 => exact ⟨0, rfl⟩

theorem number_digits (n : ℕ) : (∀ c ∈ number n, isDigit c) ∧ value (number n) = n ∧ number n ≠ [] := by
  refine ⟨?_, ?_, fun empty => Decimal.write_ne_nil n (List.map_eq_nil_iff.mp empty)⟩
  · intro c member
    obtain ⟨d, there, rfl⟩ := List.mem_map.mp member
    exact isDigit_toUInt16 (Decimal.isDigit_write n d there)
  · rw [value, number, List.map_map]
    have same : (UInt16.toUInt8 ∘ UInt8.toUInt16) = id := funext fun c => UInt8.toUInt8_toUInt16 c
    rw [same, List.map_id, Decimal.value_write]

theorem length_number_le {m width : ℕ} (bound : m < 10 ^ (width + 1)) : (number m).length ≤ width + 1 := by
  rw [number, List.length_map]
  exact Decimal.length_write_le bound

/-- The digits that are printed behind the point. -/
def printed (unit : BitcoinUnit) (remainder : ℕ) : QString :=
  (chopZeros (rightJustified (number remainder) (decimals unit) zero).reverse).reverse

theorem format_eq (unit : BitcoinUnit) (n : ℤ) (fPlus : Bool) : ∃ sign factor, Sign sign factor ∧ n = factor * n.natAbs ∧
    format unit n fPlus = sign ++ number (n.natAbs / 10 ^ decimals unit) ++
      point :: printed unit (n.natAbs % 10 ^ decimals unit) := by
  have abs : (if 0 < n then n else -n) = (n.natAbs : ℤ) := by split_ifs <;> omega
  have power : BitcoinUnits.factor unit = ((10 ^ decimals unit : ℕ) : ℤ) := by
    rw [factor_eq]
    push_cast
    rfl
  have quotient : ((n.natAbs : ℤ).tdiv (BitcoinUnits.factor unit)).toNat = n.natAbs / 10 ^ decimals unit := by
    rw [power]
    rfl
  have remainder : ((n.natAbs : ℤ).tmod (BitcoinUnits.factor unit)).toNat = n.natAbs % 10 ^ decimals unit := by
    rw [power]
    rfl
  simp only [format, abs, quotient, remainder, printed, List.append_assoc, List.singleton_append]
  split_ifs with negative plus
  · exact ⟨[45], -1, .minus, by omega, rfl⟩
  · exact ⟨[43], 1, .plus, by omega, rfl⟩
  · exact ⟨[], 1, .none, by omega, rfl⟩

/-- Without the zeros the digits are worth the remainder in its place. -/
theorem printed_spec {remainder : ℕ} (bound : remainder < 10 ^ decimals unit) :
    (∀ c ∈ printed unit remainder, isDigit c) ∧ (printed unit remainder).length ≤ decimals unit ∧
      value (printed unit remainder) * 10 ^ (decimals unit - (printed unit remainder).length) = remainder := by
  obtain ⟨places, width⟩ : ∃ places, decimals unit = places + 1 := by cases unit <;> exact ⟨_, rfl⟩
  obtain ⟨digits, worth, -⟩ := number_digits remainder
  have fits : (number remainder).length ≤ decimals unit := by
    rw [width]
    exact length_number_le (width ▸ bound)
  obtain ⟨zeros, chopped⟩ := chopZeros_spec (rightJustified (number remainder) (decimals unit) zero).reverse
  have whole : rightJustified (number remainder) (decimals unit) zero =
      printed unit remainder ++ List.replicate zeros zero := by
    rw [printed, ← List.reverse_replicate, ← List.reverse_append, ← chopped, List.reverse_reverse]
  have length : (printed unit remainder).length + zeros = decimals unit := by
    have same := congrArg List.length whole
    rw [rightJustified, List.length_append, List.length_append, List.length_replicate, List.length_replicate] at same
    omega
  refine ⟨fun c member => ?_, by omega, ?_⟩
  · have inside : c ∈ rightJustified (number remainder) (decimals unit) zero := whole ▸ List.mem_append_left _ member
    rcases List.mem_append.mp inside with padding | digit
    · rw [(List.mem_replicate.mp padding).2]
      exact isDigit_zero
    · exact digits c digit
  · have same := congrArg value whole
    rw [rightJustified, value_append, value_append, value_zeros, value_zeros, worth, List.length_replicate] at same
    rw [show decimals unit - (printed unit remainder).length = zeros by omega]
    omega

theorem denotes_format (unit : BitcoinUnit) {n : ℤ} (bound : |n| < 10 ^ 17) (fPlus : Bool) :
    Denotes unit (format unit n fPlus) n := by
  obtain ⟨sign, factor, form, total, text⟩ := format_eq unit n fPlus
  have small : n.natAbs < 10 ^ 17 := by
    rw [Int.abs_eq_natAbs] at bound
    exact_mod_cast bound
  obtain ⟨digits, worth, nonempty⟩ := number_digits (n.natAbs / 10 ^ decimals unit)
  obtain ⟨digits', few, worth'⟩ := @printed_spec unit _ (Nat.mod_lt n.natAbs (Nat.pow_pos (by decide)))
  have narrow : (number (n.natAbs / 10 ^ decimals unit)).length + decimals unit ≤ 17 := by
    have below : n.natAbs / 10 ^ decimals unit < 10 ^ (16 - decimals unit + 1) := by
      apply Nat.div_lt_of_lt_mul
      calc
        n.natAbs < 10 ^ 17 := small
        _ = 10 ^ decimals unit * 10 ^ (16 - decimals unit + 1) := by cases unit <;> rfl
    have length := length_number_le below
    have places : decimals unit ≤ 5 := by cases unit <;> decide
    omega
  have signless : point ∉ sign := by
    rcases form.cases_eq with ⟨rfl, -⟩ | ⟨c, rfl, -, -, other, -⟩
    · exact List.not_mem_nil
    · exact fun member => other (List.mem_singleton.mp member).symm
  have short : sign.length ≤ 1 := by
    rcases form.cases_eq with ⟨rfl, -⟩ | ⟨c, rfl, -⟩
    · exact Nat.zero_le 1
    · exact le_rfl
  have splits : Splits (format unit n fPlus) (sign ++ number (n.natAbs / 10 ^ decimals unit))
      (printed unit (n.natAbs % 10 ^ decimals unit)) := by
    rw [text]
    refine .two (fun member => ?_) (point_notMem digits')
    rcases List.mem_append.mp member with inSign | inDigits
    · exact signless inSign
    · exact point_notMem digits inDigits
  refine ⟨sign, factor, _, _, splits, form, nonempty, digits, digits', few, ?_, ?_⟩
  · rw [List.length_append]
    omega
  · have parts : (n.natAbs : ℤ) = (n.natAbs / 10 ^ decimals unit : ℕ) * 10 ^ decimals unit +
        (n.natAbs % 10 ^ decimals unit : ℕ) := by
      have division := Nat.div_add_mod' n.natAbs (10 ^ decimals unit)
      exact_mod_cast division.symm
    rw [worth, factor_eq]
    conv_lhs => rw [total, parts, ← worth']
    push_cast
    rfl

/-- What `parse` accepts is an amount exactly where the text is not stray, and every formatted amount is read back. -/
theorem parse_exact_iff (unit : BitcoinUnit) (text : QString) :
    (Exact unit text ↔ ¬ Stray unit text) ∧
    ∀ (n : ℤ) (fPlus : Bool) (val_out : ℤ), |n| < 10 ^ 17 → parse unit (format unit n fPlus) val_out = (true, n) :=
  ⟨⟨fun isExact stray => stray.not_exact isExact, exact_of_not_stray⟩,
    fun _ fPlus _ bound => parse_of_denotes (denotes_format unit bound fPlus)⟩

/-- `1.5000` with a space behind it. -/
def spaced : QString := [49, 46, 53, 48, 48, 48, 32]

/-- The text is read as 0.15, and it is none of the grammar. -/
theorem parse_spaced : parse .BTCRY spaced 0 = (true, 15000) ∧ ¬ Exact .BTCRY spaced := by
  have splits : Splits ([49] ++ point :: [53, 48, 48, 48, 32]) [49] [53, 48, 48, 48, 32] :=
    .two (by decide) (by decide)
  have numeral : Numeral (scaled .BTCRY [49] [53, 48, 48, 48, 32]) [] [] [49, 53, 48, 48, 48] [32] 1 :=
    ⟨rfl, nofun, List.all_eq_true.mp rfl, .none, by decide, List.all_eq_true.mp rfl⟩
  have stray : Stray .BTCRY spaced :=
    ⟨by decide, _, _, _, _, _, _, _, splits, by decide, by decide, numeral, .inr (.inl (by decide))⟩
  exact ⟨by decide, stray.not_exact⟩

end BitcoinUnits

end BitCrystal
