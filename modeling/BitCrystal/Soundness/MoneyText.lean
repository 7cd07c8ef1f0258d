import BitCrystal.Model.Money

/-! # Amounts as text

What `ParseMoney` accepts is described by a grammar, and what `FormatMoney` prints determines the amount. The fraction is
printed with eight digits but read with as many as a coin has, so the two are inverse on whole coins.
-/

namespace BitCrystal

open Decimal

/-- The decimal digits of a coin. -/
def coinDigits : ℕ := 5

/-- A point, digits behind it and the units they are worth, or nothing. -/
inductive MoneyFraction : List UInt8 → ℕ → Prop
  | none : MoneyFraction [] 0
  | digits {text : List UInt8} (all : ∀ c ∈ text, isdigit c = true) (few : text.length ≤ coinDigits) :
      MoneyFraction (pointChar :: text) (value text * 10 ^ (coinDigits - text.length))

/-- A decimal number between spaces, with at most ten digits in front of the point. -/
def MoneyText (text : List UInt8) (n : ℤ) : Prop :=
  ∃ before whole fraction after units, (∀ c ∈ before, isspace c = true) ∧ (∀ c ∈ whole, isdigit c = true) ∧
    whole.length ≤ 10 ∧ MoneyFraction fraction units ∧ (∀ c ∈ after, isspace c = true) ∧
    text = before ++ (whole ++ (fraction ++ after)) ∧ n = value whole * COIN + units

/-! ## Reading digits -/

variable {c : UInt8} {text after whole fraction : List UInt8} {n : ℤ}

theorem isspace_iff : isspace c = true ↔ c.toNat = 32 ∨ 9 ≤ c.toNat ∧ c.toNat ≤ 13 := by
  rw [isspace, decide_eq_true_eq, ← UInt8.toNat_inj, UInt8.le_iff_toNat_le, UInt8.le_iff_toNat_le]
  rfl

theorem isdigit_iff : isdigit c = true ↔ 48 ≤ c.toNat ∧ c.toNat ≤ 57 := isDigit_iff

private theorem not_digit_of_space (space : isspace c = true) : ¬ isdigit c = true := by
  rw [isspace_iff] at space
  rw [isdigit_iff]
  omega

private theorem not_space_of_digit (digit : isdigit c = true) : ¬ isspace c = true :=
  fun space => not_digit_of_space space digit

private theorem ne_point_of_digit (digit : isdigit c = true) : c ≠ pointChar := by
  rintro rfl
  exact absurd digit (by decide)

private theorem ne_point_of_space (space : isspace c = true) : c ≠ pointChar := by
  rintro rfl
  exact absurd space (by decide)

/-- What a digit is worth when `places` places are left, itself included. -/
private def mult (places : ℕ) : ℤ := ((10 ^ places / 10 : ℕ) : ℤ)

private theorem mult_zero : ¬ 0 < mult 0 := by decide

private theorem mult_succ (places : ℕ) : mult (places + 1) = (10 ^ places : ℕ) := by
  rw [mult, pow_succ, Nat.mul_div_cancel _ (by decide)]

private theorem mult_succ_pos (places : ℕ) : 0 < mult (places + 1) := by
  rw [mult_succ]
  exact_mod_cast Nat.pow_pos (by decide)

private theorem mult_succ_tdiv (places : ℕ) : (mult (places + 1)).tdiv 10 = mult places := by
  rw [mult_succ, mult]
  rfl

/-- The digits behind the point, as far as there are places. -/
theorem parseUnits_digits {text rest : List UInt8} {places : ℕ} {nUnits : ℤ} (all : ∀ c ∈ text, isdigit c = true)
    (few : text.length ≤ places) (stop : ∀ c ∈ rest.head?, ¬ isdigit c = true) :
    parseUnits (text ++ rest) (mult places) nUnits =
      (nUnits + (value text * 10 ^ (places - text.length) : ℕ), rest) := by
  induction text generalizing places nUnits with
  | nil =>
    cases rest with
    | nil => simp [parseUnits]
    | cons c rest =>
      have other := stop c rfl
      rw [List.nil_append, parseUnits, if_neg (fun both => other both.1)]
      simp
  | cons c text ih =>
    obtain ⟨left, rfl⟩ : ∃ left, places = left + 1 := ⟨places - 1, by rw [List.length_cons] at few; omega⟩
    have first := all c List.mem_cons_self
    rw [List.length_cons] at few
    rw [List.cons_append, parseUnits, if_pos ⟨first, mult_succ_pos left⟩, mult_succ_tdiv, mult_succ,
      ih (fun d member => all d (List.mem_cons_of_mem _ member)) (by omega), Prod.mk.injEq]
    refine ⟨?_, rfl⟩
    have split : left = (left - text.length) + text.length := by omega
    rw [value_cons, List.length_cons, show left + 1 - (text.length + 1) = left - text.length by omega, Nat.add_mul]
    push_cast
    conv_lhs => rw [split, pow_add]
    rw [Nat.add_sub_cancel]
    ring

/-- Only digits are taken, and no more than there are places. -/
theorem digits_of_parseUnits {rest : List UInt8} {places : ℕ} {nUnits result : ℤ}
    (parsed : parseUnits text (mult places) nUnits = (result, rest)) :
    ∃ digits, (∀ c ∈ digits, isdigit c = true) ∧ digits.length ≤ places ∧ text = digits ++ rest := by
  induction text generalizing places nUnits with
  | nil =>
    obtain ⟨-, rfl⟩ := Prod.mk.inj parsed
    exact ⟨[], nofun, Nat.zero_le _, rfl⟩
  | cons c text ih =>
    rw [parseUnits] at parsed
    split at parsed
    next taken =>
      cases places with
      | zero => exact absurd taken.2 mult_zero
      | succ places =>
        rw [mult_succ_tdiv] at parsed
        obtain ⟨digits, all, few, rfl⟩ := ih parsed
        exact ⟨c :: digits, List.forall_mem_cons.mpr ⟨taken.1, all⟩, Nat.succ_le_succ few, rfl⟩
    next =>
      obtain ⟨-, rfl⟩ := Prod.mk.inj parsed
      exact ⟨[], nofun, Nat.zero_le _, rfl⟩

private theorem head_not_digit (spaces : ∀ c ∈ after, isspace c = true) : ∀ c ∈ after.head?, ¬ isdigit c = true := by
  intro c member
  exact not_digit_of_space (spaces c (List.mem_of_mem_head? member))

theorem parseWhole_digits {whole fraction after strWhole : List UInt8} {units : ℕ}
    (all : ∀ c ∈ whole, isdigit c = true) (shape : MoneyFraction fraction units) (spaces : ∀ c ∈ after, isspace c = true) :
    parseWhole (whole ++ (fraction ++ after)) strWhole = some (strWhole ++ whole, (units : ℤ), after) := by
  induction whole generalizing strWhole with
  | nil =>
    rw [List.nil_append, List.append_nil]
    cases shape with
    | none =>
      cases after with
      | nil => rfl
      | cons c after =>
        have space := spaces c List.mem_cons_self
        rw [List.nil_append, parseWhole, if_neg (ne_point_of_space space), if_pos space]
        rfl
    | @digits text digits few =>
      have units := @parseUnits_digits _ _ _ 0 digits few (head_not_digit spaces)
      have scale : mult coinDigits = CENT * 10 := rfl
      rw [List.cons_append, parseWhole, if_pos rfl, ← scale, units]
      simp
  | cons c whole ih =>
    have first := all c List.mem_cons_self
    rw [List.cons_append, parseWhole, if_neg (ne_point_of_digit first), if_neg (not_space_of_digit first),
      if_neg (not_not.mpr first), ih fun d member => all d (List.mem_cons_of_mem _ member)]
    rw [List.append_assoc, List.singleton_append]

theorem digits_of_parseWhole {p strWhole : List UInt8} {nUnits : ℤ}
    (parsed : parseWhole p strWhole = some (whole, nUnits, after)) (spaces : ∀ c ∈ after, isspace c = true) :
    ∃ digits fraction units, (∀ c ∈ digits, isdigit c = true) ∧ MoneyFraction fraction units ∧
      p = digits ++ (fraction ++ after) := by
  induction p generalizing strWhole with
  | nil =>
    obtain ⟨-, -, rfl⟩ : strWhole = whole ∧ 0 = nUnits ∧ [] = after := by simpa [parseWhole] using parsed
    exact ⟨[], [], 0, nofun, .none, rfl⟩
  | cons c p ih =>
    rw [parseWhole] at parsed
    split at parsed
    next point =>
      subst point
      have scale : mult coinDigits = CENT * 10 := rfl
      rw [← scale] at parsed
      rcases units : parseUnits p (mult coinDigits) 0 with ⟨result, rest⟩
      rw [units] at parsed
      obtain ⟨-, -, rfl⟩ : strWhole = whole ∧ result = nUnits ∧ rest = after := by simpa using parsed
      obtain ⟨digits, all, few, rfl⟩ := digits_of_parseUnits units
      exact ⟨[], _, _, nofun, .digits all few, rfl⟩
    split at parsed
    next space =>
      obtain ⟨-, -, rfl⟩ : strWhole = whole ∧ 0 = nUnits ∧ c :: p = after := by simpa using parsed
      exact ⟨[], [], 0, nofun, .none, rfl⟩
    split at parsed
    · cases parsed
    next digit =>
      obtain ⟨digits, fraction, units, all, shape, rfl⟩ := ih parsed
      exact ⟨c :: digits, fraction, units, List.forall_mem_cons.mpr ⟨not_not.mp digit, all⟩, shape, rfl⟩

theorem MoneyFraction.units_lt {units : ℕ} (shape : MoneyFraction fraction units) : units < 10 ^ coinDigits := by
  cases shape with
  | none => decide
  | @digits text all few =>
    calc
      value text * 10 ^ (coinDigits - text.length) < 10 ^ text.length * 10 ^ (coinDigits - text.length) :=
        Nat.mul_lt_mul_of_pos_right (value_lt all) (Nat.pow_pos (by decide))
      _ = 10 ^ coinDigits := by rw [← pow_add, Nat.add_sub_cancel' few]

/-- The spaces in front are skipped; where nothing else is there, those behind are skipped with them. -/
private theorem skip_spaces {before : List UInt8} {units : ℕ}
    (spaces : ∀ c ∈ before, isspace c = true) (all : ∀ c ∈ whole, isdigit c = true) (shape : MoneyFraction fraction units)
    (behind : ∀ c ∈ after, isspace c = true) : ∃ after', (∀ c ∈ after', isspace c = true) ∧
      (before ++ (whole ++ (fraction ++ after))).dropWhile isspace = whole ++ (fraction ++ after') := by
  rw [List.dropWhile_append_of_pos spaces]
  cases whole with
  | cons c whole =>
    refine ⟨after, behind, ?_⟩
    rw [List.cons_append, List.dropWhile_cons_of_neg (not_space_of_digit (all c List.mem_cons_self))]
  | nil =>
    cases shape with
    | none => exact ⟨[], nofun, List.dropWhile_eq_nil_iff.mpr behind⟩
    | digits => exact ⟨after, behind, List.dropWhile_cons_of_neg (by decide)⟩

/-- A number is read as its integer part times the coin and the scaled fraction. -/
theorem parseMoneyChars_of_moneyText (written : MoneyText text n) : parseMoneyChars text = some n := by
  obtain ⟨before, whole, fraction, after, units, spaces, all, few, shape, behind, rfl, rfl⟩ := written
  obtain ⟨after', behind', skipped⟩ := skip_spaces spaces all shape behind
  have small := shape.units_lt
  have digits : value whole < 10 ^ 10 := (value_lt all).trans_le (Nat.pow_le_pow_right (by decide) few)
  have padded : ¬ (after'.any fun c => !isspace c) = true := by
    rw [List.any_eq_true]
    rintro ⟨c, member, other⟩
    rw [behind' c member] at other
    cases other
  have bounds : ¬ ((units : ℤ) < 0 ∨ COIN < units) := by
    rw [COIN]
    rw [coinDigits] at small
    omega
  have worth : atoi64 whole = value whole := by
    rw [atoi64]
    omega
  rw [parseMoneyChars, skipped, parseWhole_digits all shape behind']
  dsimp only
  rw [if_neg padded, List.nil_append, if_neg few.not_gt, if_neg bounds, worth]

theorem moneyText_of_parseMoneyChars (parsed : parseMoneyChars text = some n) : MoneyText text n := by
  rcases found : parseWhole (text.dropWhile isspace) [] with _ | ⟨strWhole, nUnits, after⟩
  · rw [parseMoneyChars, found] at parsed
    cases parsed
  have accepted := parsed
  rw [parseMoneyChars, found] at accepted
  dsimp only at accepted
  split at accepted
  · cases accepted
  next padded =>
    have behind : ∀ c ∈ after, isspace c = true := by
      intro c member
      by_contra other
      exact padded (List.any_eq_true.mpr ⟨c, member, by simpa using other⟩)
    obtain ⟨digits, fraction, units, all, shape, rest⟩ := digits_of_parseWhole found behind
    have read := @parseWhole_digits digits fraction after [] units all shape behind
    rw [← rest, found] at read
    obtain ⟨rfl, rfl, -⟩ : strWhole = digits ∧ nUnits = units ∧ after = after := by simpa using read
    split at accepted
    · cases accepted
    next few =>
      have written : MoneyText text (value strWhole * COIN + units) :=
        ⟨text.takeWhile isspace, strWhole, fraction, after, units, fun c member => List.mem_takeWhile_imp member, all,
          not_lt.mp few, shape, behind, by rw [← rest, List.takeWhile_append_dropWhile], rfl⟩
      obtain rfl := Option.some.inj ((parseMoneyChars_of_moneyText written).symm.trans parsed)
      exact written

/-! ## Printed amounts -/

/-- Only zeros are trimmed. -/
theorem trimLoop_spec (str : List UInt8) : ∃ nTrim, List.replicate nTrim 48 ++ trimLoop str = str := by
  induction str with
  | nil => exact ⟨0, rfl⟩
  | cons last str ih =>
    match str with
    | [] => exact ⟨0, rfl⟩
    | [_] => exact ⟨0, rfl⟩
    | before :: digit :: rest =>
      rw [trimLoop]
      split
      next zero =>
        obtain ⟨nTrim, trimmed⟩ := ih
        refine ⟨nTrim + 1, ?_⟩
        rw [List.replicate_succ, List.cons_append, trimmed, zero.1]
      next => exact ⟨0, rfl⟩

/-- The digits of an amount without its sign: those in front of the point and those left behind it. -/
theorem trimmed_digits (q r : ℕ) : ∃ fraction nTrim,
    (trimLoop (write q ++ pointChar :: pad 8 r).reverse).reverse = write q ++ pointChar :: fraction ∧
      pad 8 r = fraction ++ List.replicate nTrim 48 := by
  obtain ⟨nTrim, trimmed⟩ := trimLoop_spec (write q ++ pointChar :: pad 8 r).reverse
  have whole := congrArg List.reverse trimmed
  rw [List.reverse_append, List.reverse_reverse, List.reverse_replicate] at whole
  generalize (trimLoop (write q ++ pointChar :: pad 8 r).reverse).reverse = str at whole ⊢
  have point {zeros : ℕ} : pointChar ∉ List.replicate zeros (48 : UInt8) := by
    intro member
    exact absurd (List.eq_of_mem_replicate member) (by decide)
  rcases List.append_eq_append_iff.mp whole with ⟨more, -, zeros⟩ | ⟨more, front, tail⟩
  · refine absurd ?_ (@point nTrim)
    rw [zeros]
    exact List.mem_append_right _ List.mem_cons_self
  · cases more with
    | nil =>
      refine absurd ?_ (@point nTrim)
      rw [List.nil_append] at tail
      rw [← tail]
      exact List.mem_cons_self
    | cons c fraction =>
      obtain ⟨rfl, padded⟩ := List.cons.inj tail
      exact ⟨fraction, nTrim, front, padded⟩

/-- The sign in front of the digits. -/
def moneySign (n : ℤ) (fPlus : Bool) : List UInt8 :=
  if n < 0 then [minusChar] else if fPlus ∧ 0 < n then [plusChar] else []

theorem formatMoney_eq (n : ℤ) (fPlus : Bool) : ∃ fraction nTrim,
    formatMoney n fPlus = moneySign n fPlus ++ (write (n.natAbs / 100000) ++ pointChar :: fraction) ∧
      pad 8 (n.natAbs % 100000) = fraction ++ List.replicate nTrim 48 := by
  obtain ⟨fraction, nTrim, digits, padded⟩ := trimmed_digits (n.natAbs / 100000) (n.natAbs % 100000)
  refine ⟨fraction, nTrim, ?_, padded⟩
  have magnitude : (if 0 < n then n else -n) = (n.natAbs : ℤ) := by split <;> omega
  have quotient : ((n.natAbs : ℤ).tdiv COIN).toNat = n.natAbs / 100000 := rfl
  have remainder : ((n.natAbs : ℤ).tmod COIN).toNat = n.natAbs % 100000 := rfl
  rw [formatMoney, moneySign, magnitude, quotient, remainder, digits]
  split
  · rfl
  · split <;> rfl

/-- The text in front of the point and the one behind it. -/
private theorem split_point {whole' fraction' : List UInt8} (all : ∀ c ∈ whole, isDigit c = true)
    (all' : ∀ c ∈ whole', isDigit c = true) (same : whole ++ pointChar :: fraction = whole' ++ pointChar :: fraction') :
    whole = whole' ∧ fraction = fraction' := by
  induction whole generalizing whole' with
  | nil =>
    cases whole' with
    | nil => exact ⟨rfl, (List.cons.inj same).2⟩
    | cons c whole' =>
      have first := all' c List.mem_cons_self
      rw [← (List.cons.inj same).1] at first
      exact absurd first (by decide)
  | cons c whole ih =>
    cases whole' with
    | nil =>
      have first := all c List.mem_cons_self
      rw [(List.cons.inj same).1] at first
      exact absurd first (by decide)
    | cons c' whole' =>
      rw [List.cons_append, List.cons_append, List.cons.injEq] at same
      obtain ⟨rfl, rest⟩ := same
      obtain ⟨rfl, rfl⟩ := ih (fun d member => all d (List.mem_cons_of_mem _ member))
        (fun d member => all' d (List.mem_cons_of_mem _ member)) rest
      exact ⟨rfl, rfl⟩

/-- The digits left determine the remainder, as eight of them were printed. -/
private theorem remainder_eq {r r' nTrim nTrim' : ℕ} (small : r < 10 ^ 8) (small' : r' < 10 ^ 8)
    (padded : pad 8 r = fraction ++ List.replicate nTrim 48) (padded' : pad 8 r' = fraction ++ List.replicate nTrim' 48) :
    r = r' := by
  have length := congrArg List.length padded
  have length' := congrArg List.length padded'
  rw [length_pad small, List.length_append, List.length_replicate] at length
  rw [length_pad small', List.length_append, List.length_replicate] at length'
  obtain rfl : nTrim = nTrim' := by omega
  rw [← value_pad 8 r, padded, ← padded', value_pad]

private theorem moneySign_cases (n : ℤ) (fPlus : Bool) :
    n < 0 ∧ moneySign n fPlus = [minusChar] ∨ ¬ n < 0 ∧ (moneySign n fPlus = [plusChar] ∨ moneySign n fPlus = []) := by
  unfold moneySign
  split
  next negative => exact .inl ⟨negative, rfl⟩
  next plain =>
    refine .inr ⟨plain, ?_⟩
    split
    · exact .inl rfl
    · exact .inr rfl

/-- The sign is the only character in front of the first digit. -/
private theorem split_sign {m : ℤ} {fPlus : Bool} {c' : UInt8} {text' : List UInt8} (digit : isDigit c = true)
    (digit' : isDigit c' = true) (same : moneySign n fPlus ++ c :: text = moneySign m fPlus ++ c' :: text') :
    (n < 0 ↔ m < 0) ∧ c :: text = c' :: text' := by
  have notSign {d : UInt8} (digit : isDigit d = true) : d ≠ minusChar ∧ d ≠ plusChar := by
    refine ⟨?_, ?_⟩ <;> rintro rfl <;> exact absurd digit (by decide)
  have signs : minusChar ≠ plusChar := by decide
  rcases moneySign_cases n fPlus with ⟨negative, sign⟩ | ⟨plain, sign | sign⟩ <;>
    rcases moneySign_cases m fPlus with ⟨negative', sign'⟩ | ⟨plain', sign' | sign'⟩ <;>
    rw [sign, sign'] at same
  · exact ⟨iff_of_true negative negative', (List.cons.inj same).2⟩
  · exact absurd (List.cons.inj same).1 signs
  · exact absurd (List.cons.inj same).1.symm (notSign digit').1
  · exact absurd (List.cons.inj same).1.symm signs
  · exact ⟨iff_of_false plain plain', (List.cons.inj same).2⟩
  · exact absurd (List.cons.inj same).1.symm (notSign digit').2
  · exact absurd (List.cons.inj same).1 (notSign digit).1
  · exact absurd (List.cons.inj same).1 (notSign digit).2
  · exact ⟨iff_of_false plain plain', same⟩

/-- What is printed determines the amount. -/
theorem formatMoney_injective (fPlus : Bool) : Function.Injective fun n => formatMoney n fPlus := by
  intro n m same
  obtain ⟨fraction, nTrim, text, padded⟩ := formatMoney_eq n fPlus
  obtain ⟨fraction', nTrim', text', padded'⟩ := formatMoney_eq m fPlus
  have same : formatMoney n fPlus = formatMoney m fPlus := same
  rw [text, text'] at same
  obtain ⟨c, whole, first⟩ := List.exists_cons_of_ne_nil (write_ne_nil (n.natAbs / 100000))
  obtain ⟨c', whole', first'⟩ := List.exists_cons_of_ne_nil (write_ne_nil (m.natAbs / 100000))
  have digits := isDigit_write (n.natAbs / 100000)
  have digits' := isDigit_write (m.natAbs / 100000)
  have sign := split_sign (digits c (by rw [first]; exact List.mem_cons_self))
    (digits' c' (by rw [first']; exact List.mem_cons_self)) (by rw [first, first'] at same; exact same)
  have texts : write (n.natAbs / 100000) ++ pointChar :: fraction = write (m.natAbs / 100000) ++ pointChar :: fraction' := by
    rw [first, first']
    exact sign.2
  obtain ⟨whole, rfl⟩ := split_point digits digits' texts
  have quotient := congrArg value whole
  rw [value_write, value_write] at quotient
  have remainder := remainder_eq (by omega) (by omega) padded padded'
  omega

/-- Whole coins are printed with two zeros behind the point. -/
theorem formatMoney_coins (q : ℕ) : formatMoney (q * COIN) false = write q ++ [pointChar, 48, 48] := by
  have nonneg : ¬ (q : ℤ) * COIN < 0 := by
    rw [COIN]
    omega
  have magnitude : (if 0 < (q : ℤ) * COIN then (q : ℤ) * COIN else -(q * COIN)) = ((q * 100000 : ℕ) : ℤ) := by
    rw [COIN]
    split <;> omega
  have quotient : (((q * 100000 : ℕ) : ℤ).tdiv COIN).toNat = q := Nat.mul_div_cancel q (by decide)
  have remainder : (((q * 100000 : ℕ) : ℤ).tmod COIN).toNat = 0 := Nat.mul_mod_left q 100000
  have zeros : pad 8 0 = [48, 48, 48, 48, 48, 48, 48, 48] := rfl
  have digit : isdigit 48 = true := rfl
  have noDigit : isdigit pointChar = false := rfl
  rw [formatMoney, magnitude, quotient, remainder, zeros]
  rw [if_neg nonneg, if_neg (by simp), List.reverse_append]
  simp [trimLoop, digit, noDigit]

theorem parseMoney_iff {str : List UInt8} : parseMoney str = some n ↔ MoneyText (str.takeWhile fun c => c ≠ 0) n :=
  ⟨moneyText_of_parseMoneyChars, parseMoneyChars_of_moneyText⟩

/-- The sum of the whole coins and the units stays within `int64`. -/
theorem MoneyText.bounds (written : MoneyText text n) : 0 ≤ n ∧ n < 10 ^ 15 := by
  obtain ⟨before, whole, fraction, after, units, -, all, few, shape, -, -, rfl⟩ := written
  have small := shape.units_lt
  have digits : value whole < 10 ^ 10 := (value_lt all).trans_le (Nat.pow_le_pow_right (by decide) few)
  rw [coinDigits] at small
  rw [COIN]
  omega

/-- Whole coins are read as they are printed. -/
theorem parseMoney_formatMoney_coins {q : ℕ} (bound : q < 10 ^ 10) :
    parseMoney (formatMoney (q * COIN) false) = some (q * COIN) := by
  have nonzero : ∀ c ∈ write q ++ [pointChar, 48, 48], decide (c ≠ 0) = true := by
    intro c member
    rw [decide_eq_true_eq]
    rintro rfl
    rcases List.mem_append.mp member with digit | rest
    · exact absurd (isDigit_write q 0 digit) (by decide)
    · exact absurd rest (by decide)
  rw [parseMoney_iff, formatMoney_coins, List.takeWhile_eq_self_iff.mpr nonzero]
  refine ⟨[], write q, [pointChar, 48, 48], [], 0, nofun, isDigit_write q, length_write_le bound, ?_, nofun, ?_, ?_⟩
  · exact @MoneyFraction.digits [48, 48] (List.all_eq_true.mp rfl) (by decide)
  · rw [List.nil_append, List.append_nil]
  · rw [value_write]
    simp

/-- Printed and read amounts. -/
theorem money_text_laws :
    (∀ n : ℤ, 0 ≤ n → n ≤ MAX_MONEY → COIN ∣ n → parseMoney (formatMoney n false) = some n) ∧
    (∀ fPlus, Set.InjOn (fun n => formatMoney n fPlus) {n | -MAX_MONEY ≤ n ∧ n ≤ MAX_MONEY}) ∧
    ∀ str n, (parseMoney str = some n ↔ MoneyText (str.takeWhile fun c => c ≠ 0) n) ∧
      (parseMoney str = some n → InInt64 n) := by
  refine ⟨?_, ?_, ?_⟩
  · intro n nonneg most whole
    obtain ⟨q, rfl⟩ := whole
    rw [COIN] at nonneg
    rw [MAX_MONEY, COIN] at most
    obtain ⟨coins, rfl⟩ := Int.eq_ofNat_of_zero_le (show 0 ≤ q by omega)
    rw [mul_comm]
    exact parseMoney_formatMoney_coins (by omega)
  · exact fun fPlus => (formatMoney_injective fPlus).injOn
  · intro str n
    refine ⟨parseMoney_iff, fun parsed => ?_⟩
    obtain ⟨nonneg, small⟩ := (parseMoney_iff.mp parsed).bounds
    rw [InInt64]
    omega

/-- Three coins, and a padded string with a fraction. -/
theorem money_text_laws_at :
    parseMoney (formatMoney 300000 false) = some 300000 ∧ parseMoney [32, 49, 46, 53, 32] = some 150000 ∧
      InInt64 150000 := by
  have read : parseMoney [32, 49, 46, 53, 32] = some 150000 := (money_text_laws.2.2 _ _).1.mpr
    ⟨[32], [49], [46, 53], [32], 50000, List.all_eq_true.mp rfl, List.all_eq_true.mp rfl, by decide,
      @MoneyFraction.digits [53] (List.all_eq_true.mp rfl) (by decide), List.all_eq_true.mp rfl, by decide, by decide⟩
  exact ⟨money_text_laws.1 300000 (by decide) (by decide) ⟨3, rfl⟩, read, (money_text_laws.2.2 _ _).2 read⟩

/-- The smallest amount is printed with eight digits and not read back, and eleven digits are not read at all. -/
theorem money_text_fails :
    ¬ ((∀ n : ℤ, 0 ≤ n → n ≤ MAX_MONEY → parseMoney (formatMoney n false) = some n) ∨
      parseMoney (write 12345678901) = some (12345678901 * COIN)) := by
  have smallest : parseMoney (formatMoney 1 false) = none := by decide
  have eleven : parseMoney (write 12345678901) = none := by decide
  rintro (always | read)
  · have one := always 1 (by decide) (by decide)
    rw [smallest] at one
    cases one
  · rw [eleven] at read
    cases read

end BitCrystal
