import BitCrystal.Model.BaseUint

/-! # `base_uint` computes modulo a power of two

Sums, differences and comparisons are read off the words one by one; shifts bit by bit, as a word of the result takes the
bits of two words. What `GetHex` writes fills the memory again that it came from.
-/

namespace BitCrystal

open LittleEndian

namespace base_uint

open Limbs

variable {WIDTH w : ℕ} {pn bpn : List (BitVec 32)}

theorem value_lt (a : base_uint WIDTH) : a.value < 2 ^ (32 * WIDTH) := by
  have bound := Limbs.value_lt a.pn
  rwa [a.length_pn] at bound

theorem ext_pn {a b : base_uint WIDTH} (same : a.pn = b.pn) : a = b := by
  obtain ⟨pn, length⟩ := a
  obtain rfl : pn = b.pn := same
  rfl

theorem ext_value {a b : base_uint WIDTH} (same : a.value = b.value) : a = b :=
  ext_pn (value_inj (a.length_pn.trans b.length_pn.symm) same)

theorem value_addLoop (length : pn.length = bpn.length) {carry : BitVec 64} (bit : carry.toNat ≤ 1) :
    Limbs.value (addLoop pn bpn carry) = (Limbs.value pn + Limbs.value bpn + carry.toNat) % 2 ^ (32 * pn.length) := by
  induction pn generalizing bpn carry with
  | nil => exact (Nat.mod_one _).symm
  | cons p pn ih =>
    cases bpn with
    | nil => cases length
    | cons q bpn =>
      have boundp := p.isLt
      have boundq := q.isLt
      have sum : (carry + p.setWidth 64 + q.setWidth 64).toNat = carry.toNat + p.toNat + q.toNat := by
        rw [BitVec.toNat_add, BitVec.toNat_add, BitVec.toNat_setWidth, BitVec.toNat_setWidth]
        omega
      have low : ((carry + p.setWidth 64 + q.setWidth 64) &&& 0xffffffff).setWidth 32 =
          BitVec.ofNat 32 (carry.toNat + p.toNat + q.toNat) := by
        apply BitVec.eq_of_toNat_eq
        rw [BitVec.toNat_setWidth, BitVec.toNat_and, sum, BitVec.toNat_ofNat]
        change (_ &&& (2 ^ 32 - 1)) % 2 ^ 32 = _
        rw [Nat.and_two_pow_sub_one_eq_mod, Nat.mod_mod]
      have high : ((carry + p.setWidth 64 + q.setWidth 64) >>> 32).toNat =
          (carry.toNat + p.toNat + q.toNat) / 2 ^ 32 := by
        rw [BitVec.toNat_ushiftRight, sum, Nat.shiftRight_eq_div_pow]
      rw [addLoop, low, value_cons, BitVec.toNat_ofNat, ih (Nat.succ.inj length) (by rw [high]; omega), high,
        pow_length_cons]
      calc
        _ = (carry.toNat + p.toNat + q.toNat + 2 ^ 32 * (Limbs.value pn + Limbs.value bpn)) %
            (2 ^ 32 * 2 ^ (32 * pn.length)) := by
          rw [mod_limb, Nat.add_comm (Limbs.value pn + Limbs.value bpn)]
        _ = _ := by
          rw [value_cons, value_cons]
          congr 1
          ring

theorem value_incLoop (pn : List (BitVec 32)) :
    Limbs.value (incLoop pn) = (Limbs.value pn + 1) % 2 ^ (32 * pn.length) := by
  induction pn with
  | nil => rfl
  | cons p pn ih =>
    have bound := p.isLt
    have rest := Limbs.value_lt pn
    have successor : (p + 1).toNat = (p.toNat + 1) % 2 ^ 32 := BitVec.toNat_add ..
    have step : Limbs.value (p :: pn) + 1 = p.toNat + 1 + 2 ^ 32 * Limbs.value pn := by
      rw [value_cons]
      ring
    rw [step, pow_length_cons, mod_limb, incLoop]
    split
    next zero =>
      have full : (p.toNat + 1) / 2 ^ 32 = 1 := by
        have wraps : (p + 1).toNat = 0 := by rw [zero]; rfl
        omega
      rw [value_cons, ih, successor, full, Nat.add_comm 1]
    next nonzero =>
      have room : (p.toNat + 1) / 2 ^ 32 = 0 := by
        by_contra wraps
        apply nonzero
        apply BitVec.eq_of_toNat_eq
        rw [successor]
        change _ = 0
        omega
      rw [value_cons, successor, room, Nat.zero_add, Nat.mod_eq_of_lt rest]

theorem value_decLoop (pn : List (BitVec 32)) :
    Limbs.value (decLoop pn) = (Limbs.value pn + (2 ^ (32 * pn.length) - 1)) % 2 ^ (32 * pn.length) := by
  induction pn with
  | nil => rfl
  | cons p pn ih =>
    have bound := p.isLt
    have rest := Limbs.value_lt pn
    have pos := Nat.two_pow_pos (32 * pn.length)
    have predecessor : (p - 1).toNat = (2 ^ 32 - 1 + p.toNat) % 2 ^ 32 := BitVec.toNat_sub ..
    have step : Limbs.value (p :: pn) + (2 ^ 32 * 2 ^ (32 * pn.length) - 1) =
        (2 ^ 32 - 1 + p.toNat) + 2 ^ 32 * (Limbs.value pn + (2 ^ (32 * pn.length) - 1)) := by
      rw [value_cons]
      omega
    rw [pow_length_cons, step, mod_limb, decLoop]
    split
    next highest =>
      have zero : p.toNat = 0 := by
        have top : (p - 1).toNat = 2 ^ 32 - 1 := by rw [highest]; rfl
        omega
      have borrow : (2 ^ 32 - 1 + p.toNat) / 2 ^ 32 = 0 := by omega
      rw [value_cons, ih, predecessor, borrow, Nat.zero_add]
    next other =>
      have nonzero : p.toNat ≠ 0 := by
        intro zero
        apply other
        apply BitVec.eq_of_toNat_eq
        rw [predecessor, zero]
        rfl
      have whole : (2 ^ 32 - 1 + p.toNat) / 2 ^ 32 = 1 := by omega
      have around : 1 + (Limbs.value pn + (2 ^ (32 * pn.length) - 1)) = Limbs.value pn + 2 ^ (32 * pn.length) := by omega
      rw [value_cons, predecessor, whole, around, Nat.add_mod_right, Nat.mod_eq_of_lt rest]

variable (a b : base_uint WIDTH)

theorem value_add : (a.add b).value = (a.value + b.value) % 2 ^ (32 * WIDTH) := by
  have sum := @value_addLoop _ _ (a.length_pn.trans b.length_pn.symm) 0 (by decide)
  rwa [a.length_pn] at sum

theorem value_preIncrement : a.preIncrement.value = (a.value + 1) % 2 ^ (32 * WIDTH) := by
  have successor := value_incLoop a.pn
  rwa [a.length_pn] at successor

theorem value_preDecrement : a.preDecrement.value = (a.value + (2 ^ (32 * WIDTH) - 1)) % 2 ^ (32 * WIDTH) := by
  have predecessor := value_decLoop a.pn
  rwa [a.length_pn] at predecessor

theorem value_neg : a.neg.value = (2 ^ (32 * WIDTH) - a.value) % 2 ^ (32 * WIDTH) := by
  have inverted : a.not.value + a.value + 1 = 2 ^ (32 * WIDTH) := by
    have whole := value_not a.pn
    rwa [a.length_pn] at whole
  rw [neg, value_preIncrement, ← inverted]
  congr 1
  omega

theorem getD_orAt (pn : List (BitVec 32)) (i : ℕ) (x : BitVec 32) {j : ℕ} (inside : j < pn.length) :
    (orAt pn i x).getD j 0 = if i = j then pn.getD j 0 ||| x else pn.getD j 0 := by
  rw [orAt, List.getD_eq_getElem _ _ (by simpa using inside), List.getD_eq_getElem _ _ inside, List.getElem_modify]

theorem getD_orAt_if (pn : List (BitVec 32)) (i : ℕ) (x : BitVec 32) (p : Prop) [Decidable p] {j : ℕ}
    (inside : j < pn.length) :
    (if p then orAt pn i x else pn).getD j 0 = pn.getD j 0 ||| if p ∧ i = j then x else 0 := by
  by_cases holds : p
  · rw [if_pos holds, getD_orAt pn i x inside]
    by_cases same : i = j
    · rw [if_pos same, if_pos ⟨holds, same⟩]
    · rw [if_neg same, if_neg (fun both => same both.2)]
      exact BitVec.or_zero.symm
  · rw [if_neg holds, if_neg (fun both => holds both.1)]
    exact BitVec.or_zero.symm

/-- What is there after some rounds, and what the next one adds. -/
theorem or_ite {p q r : Prop} [Decidable p] [Decidable q] [Decidable r] {x y : BitVec 32} (either : r ↔ p ∨ q)
    (same : q → y = x) : (if p then x else 0) ||| (if q then y else 0) = if r then x else 0 := by
  by_cases now : q
  · rw [if_pos now, same now, if_pos (either.mpr (.inr now))]
    split_ifs
    · exact BitVec.or_self
    · exact BitVec.zero_or
  · have kept : p ↔ r := by rw [either, or_iff_left now]
    simp only [if_neg now, kept]
    exact BitVec.or_zero

/-- A word of the result has the high bits of one word and the low bits of the next. -/
theorem getD_shlLoop (a : List (BitVec 32)) (k shift rounds : ℕ) {j : ℕ} (inside : j < a.length) :
    (shlLoop a k shift rounds).getD j 0 =
      (if k + 1 ≤ j ∧ j < k + 1 + rounds ∧ shift ≠ 0 then a.getD (j - k - 1) 0 >>> (32 - shift) else 0) |||
      (if k ≤ j ∧ j < k + rounds then a.getD (j - k) 0 <<< shift else 0) := by
  induction rounds with
  | zero =>
    rw [shlLoop, if_neg (by omega), if_neg (by omega), List.getD_replicate _ inside]
    rfl
  | succ i ih =>
    have step : (shlLoop a k shift (i + 1)).getD j 0 = (shlLoop a k shift i).getD j 0 |||
        (if (i + k + 1 < a.length ∧ shift ≠ 0) ∧ i + k + 1 = j then a.getD i 0 >>> (32 - shift) else 0) |||
        (if i + k < a.length ∧ i + k = j then a.getD i 0 <<< shift else 0) := by
      rw [shlLoop, getD_orAt_if, getD_orAt_if]
      · rwa [length_shlLoop]
      · split_ifs <;> simpa [orAt] using inside
    have low : k + 1 ≤ j ∧ j < k + 1 + (i + 1) ∧ shift ≠ 0 ↔ (k + 1 ≤ j ∧ j < k + 1 + i ∧ shift ≠ 0) ∨
        (i + k + 1 < a.length ∧ shift ≠ 0) ∧ i + k + 1 = j := by omega
    have high : k ≤ j ∧ j < k + (i + 1) ↔ (k ≤ j ∧ j < k + i) ∨ i + k < a.length ∧ i + k = j := by omega
    have lows := or_ite (x := a.getD (j - k - 1) 0 >>> (32 - shift)) (y := a.getD i 0 >>> (32 - shift)) low fun here => by
      rw [show j - k - 1 = i by omega]
    have highs := or_ite (x := a.getD (j - k) 0 <<< shift) (y := a.getD i 0 <<< shift) high fun here => by
      rw [show j - k = i by omega]
    rw [step, ih, ← lows, ← highs]
    ac_rfl

theorem getD_shrLoop (a : List (BitVec 32)) (k shift rounds : ℕ) {j : ℕ} (inside : j < a.length) :
    (shrLoop a k shift rounds).getD j 0 =
      (if j + k + 1 < rounds ∧ shift ≠ 0 then a.getD (j + k + 1) 0 <<< (32 - shift) else 0) |||
      (if j + k < rounds then a.getD (j + k) 0 >>> shift else 0) := by
  induction rounds with
  | zero =>
    rw [shrLoop, if_neg (by omega), if_neg (by omega), List.getD_replicate _ inside]
    rfl
  | succ i ih =>
    have step : (shrLoop a k shift (i + 1)).getD j 0 = (shrLoop a k shift i).getD j 0 |||
        (if (k + 1 ≤ i ∧ shift ≠ 0) ∧ i - k - 1 = j then a.getD i 0 <<< (32 - shift) else 0) |||
        (if k ≤ i ∧ i - k = j then a.getD i 0 >>> shift else 0) := by
      rw [shrLoop, getD_orAt_if, getD_orAt_if]
      · rwa [length_shrLoop]
      · split_ifs <;> simpa [orAt] using inside
    have high : j + k + 1 < i + 1 ∧ shift ≠ 0 ↔ (j + k + 1 < i ∧ shift ≠ 0) ∨
        (k + 1 ≤ i ∧ shift ≠ 0) ∧ i - k - 1 = j := by omega
    have low : j + k < i + 1 ↔ j + k < i ∨ k ≤ i ∧ i - k = j := by omega
    have highs := or_ite (x := a.getD (j + k + 1) 0 <<< (32 - shift)) (y := a.getD i 0 <<< (32 - shift)) high fun here => by
      rw [show j + k + 1 = i by omega]
    have lows := or_ite (x := a.getD (j + k) 0 >>> shift) (y := a.getD i 0 >>> shift) low fun here => by
      rw [show j + k = i by omega]
    rw [step, ih, ← highs, ← lows]
    ac_rfl

/-- A bit of a word, if there is the word. -/
theorem getLsbD_ite (p : Prop) [Decidable p] (x : BitVec 32) (i : ℕ) :
    (if p then x else 0).getLsbD i = (decide p && x.getLsbD i) := by
  by_cases there : p
  · rw [if_pos there, decide_eq_true there, Bool.true_and]
  · rw [if_neg there, decide_eq_false there, Bool.false_and]
    exact BitVec.getLsbD_zero

theorem value_shl (a : base_uint WIDTH) (shift : ℕ) : (a.shl shift).value = a.value * 2 ^ shift % 2 ^ (32 * WIDTH) := by
  have pos : 0 < 2 ^ (32 * WIDTH) := Nat.two_pow_pos _
  apply eq_of_testBit (value_lt _) (Nat.mod_lt _ pos)
  intro n below
  have inside : n / 32 < a.pn.length := by
    rw [a.length_pn]
    omega
  rw [Nat.testBit_mod_two_pow, decide_eq_true below, Bool.true_and, Nat.testBit_mul_two_pow]
  change (Limbs.value (shlLoop a.pn (shift / 32) (shift % 32) WIDTH)).testBit n = (_ && (Limbs.value a.pn).testBit _)
  rw [testBit_value _ (by decide), testBit_value _ (by decide), getD_shlLoop _ _ _ _ inside, BitVec.getLsbD_or,
    getLsbD_ite, getLsbD_ite, BitVec.getLsbD_ushiftRight, BitVec.getLsbD_shiftLeft]
  by_cases above : shift % 32 ≤ n % 32
  · -- The bit is one of the lower word.
    have clear : ∀ x : BitVec 32, x.getLsbD (32 - shift % 32 + n % 32) = false := fun x =>
      BitVec.getLsbD_of_ge x _ (by omega)
    by_cases reached : shift / 32 ≤ n / 32
    · have word : (n - shift) / 32 = n / 32 - shift / 32 := by omega
      have bit : (n - shift) % 32 = n % 32 - shift % 32 := by omega
      rw [clear, Bool.and_false, Bool.false_or, word, bit, decide_eq_true (by omega), decide_eq_true (by omega),
        decide_eq_false (p := n % 32 < shift % 32) (by omega), decide_eq_true (by omega)]
      rfl
    · rw [clear, Bool.and_false, Bool.false_or, decide_eq_false (by omega), decide_eq_false (p := shift ≤ n) (by omega),
        Bool.false_and, Bool.false_and]
  · -- The bit has crossed into the word from the one below.
    by_cases reached : shift / 32 + 1 ≤ n / 32
    · have word : (n - shift) / 32 = n / 32 - shift / 32 - 1 := by omega
      have bit : (n - shift) % 32 = 32 - shift % 32 + n % 32 := by omega
      rw [word, bit, decide_eq_true (p := n % 32 < shift % 32) (by omega), Bool.not_true, Bool.and_false,
        Bool.false_and, Bool.and_false, Bool.or_false, decide_eq_true (by omega), decide_eq_true (by omega)]
    · rw [decide_eq_true (p := n % 32 < shift % 32) (by omega), Bool.not_true, Bool.and_false,
        Bool.false_and, Bool.and_false, Bool.or_false, decide_eq_false (by omega), decide_eq_false (by omega)]
      rfl

/-- Above the highest word there are no bits. -/
theorem getLsbD_getD (a : base_uint WIDTH) (i t : ℕ) :
    (decide (i < WIDTH) && (a.pn.getD i 0).getLsbD t) = (a.pn.getD i 0).getLsbD t := by
  by_cases inside : i < WIDTH
  · rw [decide_eq_true inside, Bool.true_and]
  · rw [decide_eq_false inside, Bool.false_and, List.getD_eq_default _ _ (by rw [a.length_pn]; omega)]
    exact BitVec.getLsbD_zero.symm

theorem value_shr (a : base_uint WIDTH) (shift : ℕ) : (a.shr shift).value = a.value / 2 ^ shift := by
  apply eq_of_testBit (value_lt _) ((Nat.div_le_self ..).trans_lt (value_lt a))
  intro n below
  have inside : n / 32 < a.pn.length := by
    rw [a.length_pn]
    omega
  rw [Nat.testBit_div_two_pow]
  change (Limbs.value (shrLoop a.pn (shift / 32) (shift % 32) WIDTH)).testBit n = (Limbs.value a.pn).testBit _
  rw [testBit_value _ (by decide), testBit_value _ (by decide), getD_shrLoop _ _ _ _ inside, BitVec.getLsbD_or,
    getLsbD_ite, getLsbD_ite, BitVec.getLsbD_ushiftRight, BitVec.getLsbD_shiftLeft]
  by_cases low : shift % 32 + n % 32 < 32
  · have word : (n + shift) / 32 = n / 32 + shift / 32 := by omega
    have bit : (n + shift) % 32 = shift % 32 + n % 32 := by omega
    rw [getLsbD_getD, word, bit, decide_eq_true (p := n % 32 < 32 - shift % 32) (by omega), Bool.not_true,
      Bool.and_false, Bool.false_and, Bool.and_false, Bool.false_or]
  · -- The bit has crossed into the word from the one above.
    have word : (n + shift) / 32 = n / 32 + shift / 32 + 1 := by omega
    have bit : (n + shift) % 32 = n % 32 - (32 - shift % 32) := by omega
    have shifted : shift % 32 ≠ 0 := by omega
    rw [BitVec.getLsbD_of_ge _ (shift % 32 + n % 32) (by omega), Bool.and_false, Bool.or_false, word, bit,
      decide_eq_true (p := n % 32 < 32) (by omega), decide_eq_false (p := n % 32 < 32 - shift % 32) (by omega)]
    simp only [shifted, ne_eq, not_false_eq_true, and_true, Bool.not_false, Bool.true_and]
    exact getLsbD_getD ..

/-! ## Comparisons -/

theorem compareLoop_reverse (below above equal : Bool) (length : pn.length = bpn.length) :
    compareLoop below above equal pn.reverse bpn.reverse =
      if Limbs.value pn < Limbs.value bpn then below else if Limbs.value bpn < Limbs.value pn then above else equal := by
  induction pn using List.reverseRecOn generalizing bpn with
  | nil =>
    obtain rfl := List.length_eq_zero_iff.mp length.symm
    rfl
  | append_singleton pn p ih =>
    rcases List.eq_nil_or_concat bpn with rfl | ⟨bpn, q, rfl⟩
    · simp at length
    · have same : pn.length = bpn.length := by simpa using length
      rw [List.concat_eq_append, List.reverse_append, List.reverse_append, List.reverse_singleton,
        List.reverse_singleton, List.singleton_append, List.singleton_append, compareLoop, ih same]
      by_cases less : p < q
      · rw [if_pos less, if_pos (value_lt_of_last_lt same less)]
      by_cases greater : q < p
      · have above := value_lt_of_last_lt same.symm greater
        rw [if_neg less, if_pos greater, if_neg above.asymm, if_pos above]
      · obtain rfl : p = q := BitVec.le_antisymm (BitVec.not_lt.mp greater) (BitVec.not_lt.mp less)
        rw [if_neg less, if_neg greater]
        simp only [value_lt_iff_of_last same, value_lt_iff_of_last same.symm]

theorem eqLoop_eq (length : pn.length = bpn.length) : eqLoop pn bpn = decide (pn = bpn) := by
  induction pn generalizing bpn with
  | nil =>
    obtain rfl := List.length_eq_zero_iff.mp length.symm
    rfl
  | cons p pn ih =>
    cases bpn with
    | nil => cases length
    | cons q bpn =>
      rw [eqLoop, ih (Nat.succ.inj length)]
      by_cases same : p = q
      · simp [same]
      · simp [same]

variable (a b : base_uint WIDTH)

theorem compare_eq (below above equal : Bool) : compareLoop below above equal a.pn.reverse b.pn.reverse =
    if a.value < b.value then below else if b.value < a.value then above else equal :=
  compareLoop_reverse below above equal (a.length_pn.trans b.length_pn.symm)

theorem lt_eq : a.lt b = decide (a.value < b.value) := by
  rw [lt, compare_eq]
  split_ifs with below above
  · exact (decide_eq_true below).symm
  · exact (decide_eq_false below).symm
  · exact (decide_eq_false below).symm

theorem le_eq : a.le b = decide (a.value ≤ b.value) := by
  rw [le, compare_eq]
  split_ifs with below above
  · exact (decide_eq_true below.le).symm
  · exact (decide_eq_false above.not_ge).symm
  · exact (decide_eq_true (not_lt.mp above)).symm

theorem gt_eq : a.gt b = decide (b.value < a.value) := by
  rw [gt, compare_eq]
  split_ifs with below above
  · exact (decide_eq_false below.asymm).symm
  · exact (decide_eq_true above).symm
  · exact (decide_eq_false above).symm

theorem ge_eq : a.ge b = decide (b.value ≤ a.value) := by
  rw [ge, compare_eq]
  split_ifs with below above
  · exact (decide_eq_false below.not_ge).symm
  · exact (decide_eq_true above.le).symm
  · exact (decide_eq_true (not_lt.mp below)).symm

theorem eq_eq : a.eq b = decide (a.value = b.value) := by
  rw [eq, eqLoop_eq (a.length_pn.trans b.length_pn.symm)]
  exact decide_eq_decide.mpr ⟨fun same => congrArg Limbs.value same, value_inj (a.length_pn.trans b.length_pn.symm)⟩

theorem words_value (u : BitVec 64) : (lowWord u).toNat + 2 ^ 32 * ((highWord u).toNat + 2 ^ 32 * 0) = u.toNat := by
  have bound := u.isLt
  rw [lowWord, highWord, BitVec.toNat_setWidth, BitVec.toNat_setWidth, BitVec.toNat_ushiftRight,
    Nat.shiftRight_eq_div_pow]
  omega

theorem value_ofUInt64 (u : BitVec 64) : (ofUInt64 u : base_uint (w + 2)).value = u.toNat := by
  have zeros : Limbs.value (List.replicate w (0 : BitVec 32)) = 0 := value_zero w
  rw [value, ofUInt64, value_cons, value_cons, zeros, words_value]

/-- The two lowest words and the others. -/
theorem exists_words (a : base_uint (w + 2)) : ∃ p q rest, a.pn = p :: q :: rest ∧ rest.length = w := by
  obtain ⟨pn, length⟩ := a
  match pn, length with
  | p :: q :: rest, length => exact ⟨p, q, rest, rfl, Nat.succ.inj (Nat.succ.inj length)⟩

theorem pn_assignWords (f : BitVec 32 → BitVec 32 → BitVec 32) (a : base_uint (w + 2)) (u : BitVec 64)
    {p q : BitVec 32} {rest : List (BitVec 32)} (words : a.pn = p :: q :: rest) :
    (assignWords f a u).pn = f p (lowWord u) :: f q (highWord u) :: rest := by
  change ((a.pn.modify 0 fun p => f p (lowWord u)).modify 1 fun p => f p (highWord u)) = _
  rw [words]
  rfl

theorem value_xorUInt64 (a : base_uint (w + 2)) (u : BitVec 64) : (a.xorUInt64 u).value = a.value ^^^ u.toNat := by
  obtain ⟨p, q, rest, words, -⟩ := exists_words a
  rw [value, value, xorUInt64, pn_assignWords _ a u words, words, ← words_value u]
  simp only [value_cons, BitVec.toNat_xor]
  rw [xor_limb p.isLt (lowWord u).isLt, xor_limb q.isLt (highWord u).isLt, Nat.xor_zero]

theorem value_orUInt64 (a : base_uint (w + 2)) (u : BitVec 64) : (a.orUInt64 u).value = a.value ||| u.toNat := by
  obtain ⟨p, q, rest, words, -⟩ := exists_words a
  rw [value, value, orUInt64, pn_assignWords _ a u words, words, ← words_value u]
  simp only [value_cons, BitVec.toNat_or]
  rw [or_limb p.isLt (lowWord u).isLt, or_limb q.isLt (highWord u).isLt, Nat.or_zero]

theorem eqUInt64_eq (a : base_uint (w + 2)) (u : BitVec 64) : a.eqUInt64 u = decide (a.value = u.toNat) := by
  have same : a.eqUInt64 u = decide (a.pn = (ofUInt64 u : base_uint (w + 2)).pn) := by
    obtain ⟨p, q, rest, words, length⟩ := exists_words a
    have zeros : (rest.all fun p => decide (p = 0)) = decide (rest = List.replicate w 0) := by
      apply Bool.eq_iff_iff.mpr
      rw [List.all_eq_true, decide_eq_true_eq, List.eq_replicate_iff, and_iff_right length]
      simp only [decide_eq_true_eq]
    rw [eqUInt64, ofUInt64, words]
    simp only [List.getD_cons_zero, List.getD_cons_succ, List.drop_succ_cons, List.drop_zero, zeros, List.cons.injEq]
    split_ifs with low high
    · simp [low]
    · simp [high]
    · simp [not_not.mp low, not_not.mp high]
  rw [same]
  apply decide_eq_decide.mpr
  rw [← value_ofUInt64 (w := w) u]
  exact ⟨fun words => congrArg Limbs.value words, fun values => congrArg pn (ext_value values)⟩

/-! ## Hex -/

theorem phexdigit_hexDigit {n : ℕ} (bound : n < 16) : phexdigit (hexDigit n) = UInt8.ofNat n := by
  revert n
  decide

/-- A digit is no space, no end of the string and no `x`. -/
theorem hexDigit_proper {n : ℕ} (bound : n < 16) : hexDigit n ≠ 0 ∧ isspace (hexDigit n) = false ∧
    (phexdigit (hexDigit n) != 0 || hexDigit n == 48) = true ∧ hexDigit n ≠ 120 ∧ hexDigit n ≠ 88 := by
  revert n
  decide

theorem nibbles (byte : UInt8) :
    phexdigit (hexDigit (byte.toNat % 16)) ||| phexdigit (hexDigit (byte.toNat / 16)) <<< 4 = byte := by
  have all : ∀ n < 256, UInt8.ofNat (n % 16) ||| UInt8.ofNat (n / 16) <<< 4 = UInt8.ofNat n := by decide +kernel
  have bound := byte.toNat_lt
  rw [phexdigit_hexDigit (Nat.mod_lt _ (by decide)), phexdigit_hexDigit (by omega), all _ bound, UInt8.ofNat_toNat]

/-- The digits of some bytes, from the last one back. -/
def digits (bytes : List UInt8) : List UInt8 :=
  bytes.flatMap fun byte => [hexDigit (byte.toNat % 16), hexDigit (byte.toNat / 16)]

theorem setHexLoop_digits (bytes : List UInt8) : setHexLoop (digits bytes) bytes.length = bytes := by
  induction bytes with
  | nil => rfl
  | cons byte bytes ih =>
    change (_ ||| _) :: setHexLoop (digits bytes) bytes.length = _
    rw [ih, nibbles]

theorem reverse_getHex (a : base_uint WIDTH) : a.getHex.reverse = digits (toBytes a.pn) := by
  rw [getHex, List.reverse_flatMap, List.reverse_reverse]
  rfl

theorem exists_hexDigit {a : base_uint WIDTH} {c : UInt8} (member : c ∈ a.getHex) : ∃ n < 16, c = hexDigit n := by
  obtain ⟨byte, -, digit⟩ := List.mem_flatMap.mp member
  have bound := byte.toNat_lt
  rcases List.mem_pair.mp digit with rfl | rfl
  · exact ⟨_, by omega, rfl⟩
  · exact ⟨_, by omega, rfl⟩

/-- `SetHex` takes all of the text for digits. -/
theorem skipBase_getHex (a : base_uint WIDTH) :
    skipBase ((cString a.getHex).dropWhile isspace) = a.getHex ∧
      a.getHex.takeWhile (fun c => phexdigit c != 0 || c == 48) = a.getHex := by
  have proper : ∀ c ∈ a.getHex, c ≠ 0 ∧ isspace c = false ∧ (phexdigit c != 0 || c == 48) = true ∧ c ≠ 120 ∧ c ≠ 88 := by
    intro c member
    obtain ⟨n, bound, rfl⟩ := exists_hexDigit member
    exact hexDigit_proper bound
  have whole : cString a.getHex = a.getHex :=
    List.takeWhile_eq_self_iff.mpr fun c member => bne_iff_ne.mpr (proper c member).1
  refine ⟨?_, List.takeWhile_eq_self_iff.mpr fun c member => (proper c member).2.2.1⟩
  rw [whole]
  cases text : a.getHex with
  | nil => rfl
  | cons c psz =>
    rw [text] at proper
    have unspaced : ¬ isspace c := by
      rw [(proper c List.mem_cons_self).2.1]
      exact Bool.false_ne_true
    rw [List.dropWhile_cons_of_neg unspaced]
    cases psz with
    | nil => rfl
    | cons x psz =>
      have digit := proper x (List.mem_cons_of_mem _ List.mem_cons_self)
      exact if_neg fun base => base.2.elim digit.2.2.2.1 digit.2.2.2.2

theorem length_toBytes (pn : List (BitVec 32)) : (toBytes pn).length = pn.length * 4 := by
  induction pn with
  | nil => rfl
  | cons p pn ih =>
    change (encode 4 p.toNat ++ toBytes pn).length = _
    rw [List.length_append, length_encode, ih, List.length_cons]
    omega

theorem ofBytes_toBytes (pn : List (BitVec 32)) : ofBytes pn.length (toBytes pn) = pn := by
  induction pn with
  | nil => rfl
  | cons p pn ih =>
    have word : toBytes (p :: pn) = encode 4 p.toNat ++ toBytes pn := rfl
    have length := length_encode 4 p.toNat
    rw [List.length_cons, ofBytes, word, List.take_left' length, List.drop_left' length, ih,
      decode_encode p.isLt, BitVec.ofNat_toNat, BitVec.setWidth_eq]

theorem setHex_getHex (a : base_uint WIDTH) : setHex a.getHex = a := by
  obtain ⟨skipped, all⟩ := skipBase_getHex a
  have bytes : (toBytes a.pn).length = WIDTH * 4 := (length_toBytes a.pn).trans (congrArg (· * 4) a.length_pn)
  have memory : setHexLoop a.getHex.reverse (WIDTH * 4) = toBytes a.pn := by
    rw [reverse_getHex, ← bytes]
    exact setHexLoop_digits _
  have words : ofBytes WIDTH (toBytes a.pn) = a.pn := by
    have same := ofBytes_toBytes a.pn
    rwa [a.length_pn] at same
  apply ext_pn
  change ofBytes WIDTH (setHexLoop
    ((skipBase ((cString a.getHex).dropWhile isspace)).takeWhile fun c => phexdigit c != 0 || c == 48).reverse _) = a.pn
  rw [skipped, all, memory, words]

/-- What the operators compute on two numbers, a shift and a `uint64`, with the integers modulo a power of two. -/
structure Arithmetic (a b : base_uint (w + 2)) (shift : ℕ) (u : BitVec 64) : Prop where
  add : ((a.add b).value : ℤ) = (a.value + b.value) % 2 ^ (32 * (w + 2))
  sub : ((a.sub b).value : ℤ) = (a.value - b.value) % 2 ^ (32 * (w + 2))
  neg : (a.neg.value : ℤ) = -a.value % 2 ^ (32 * (w + 2))
  preIncrement : (a.preIncrement.value : ℤ) = (a.value + 1) % 2 ^ (32 * (w + 2))
  postIncrement : a.postIncrement = (a, a.preIncrement)
  preDecrement : (a.preDecrement.value : ℤ) = (a.value - 1) % 2 ^ (32 * (w + 2))
  postDecrement : a.postDecrement = (a, a.preDecrement)
  shl : ((a.shl shift).value : ℤ) = a.value * 2 ^ shift % 2 ^ (32 * (w + 2))
  shr : ((a.shr shift).value : ℤ) = a.value / 2 ^ shift
  lt : a.lt b = decide (a.value < b.value)
  le : a.le b = decide (a.value ≤ b.value)
  gt : a.gt b = decide (a.value > b.value)
  ge : a.ge b = decide (a.value ≥ b.value)
  eq : a.eq b = decide (a.value = b.value)
  ne : a.ne b = decide (a.value ≠ b.value)
  ofUInt64 : (ofUInt64 u : base_uint (w + 2)).value = u.toNat
  xorUInt64 : (a.xorUInt64 u).value = a.value ^^^ u.toNat
  orUInt64 : (a.orUInt64 u).value = a.value ||| u.toNat
  addUInt64 : ((a.addUInt64 u).value : ℤ) = (a.value + u.toNat) % 2 ^ (32 * (w + 2))
  subUInt64 : ((a.subUInt64 u).value : ℤ) = (a.value - u.toNat) % 2 ^ (32 * (w + 2))
  eqUInt64 : a.eqUInt64 u = decide (a.value = u.toNat)
  neUInt64 : a.neUInt64 u = decide (a.value ≠ u.toNat)
  /-- The numbers are those modulo the power of two. -/
  value_lt : a.value < 2 ^ (32 * (w + 2))
  setHex_getHex : setHex a.getHex = a

section

variable (a b : base_uint WIDTH)

theorem cast_add : ((a.add b).value : ℤ) = (a.value + b.value) % 2 ^ (32 * WIDTH) := by
  rw [value_add]
  push_cast
  rfl

theorem cast_neg : (a.neg.value : ℤ) = -a.value % 2 ^ (32 * WIDTH) := by
  have bound := value_lt a
  rw [value_neg, Int.natCast_mod, Nat.cast_sub bound.le, Nat.cast_pow]
  exact Int.sub_emod_left _ _

theorem cast_add_neg : ((a.add b.neg).value : ℤ) = (a.value - b.value) % 2 ^ (32 * WIDTH) := by
  rw [cast_add, cast_neg, Int.add_emod_emod, sub_eq_add_neg]

theorem cast_preDecrement : (a.preDecrement.value : ℤ) = (a.value - 1) % 2 ^ (32 * WIDTH) := by
  have pos : 1 ≤ 2 ^ (32 * WIDTH) := Nat.two_pow_pos _
  have around : (a.value : ℤ) + (2 ^ (32 * WIDTH) - 1) = a.value - 1 + 2 ^ (32 * WIDTH) := by ring
  rw [value_preDecrement, Int.natCast_mod, Nat.cast_add, Nat.cast_sub pos, Nat.cast_pow]
  change ((a.value : ℤ) + (2 ^ (32 * WIDTH) - 1)) % 2 ^ (32 * WIDTH) = _
  rw [around, Int.add_emod_right]

end

/-- The loops over the words are arithmetic modulo the power of two, and what is written in hex is read back. -/
theorem arithmetic (a b : base_uint (w + 2)) (shift : ℕ) (u : BitVec 64) : Arithmetic a b shift u where
  add := cast_add a b
  sub := cast_add_neg a b
  neg := cast_neg a
  preIncrement := by
    rw [value_preIncrement]
    push_cast
    rfl
  postIncrement := rfl
  preDecrement := cast_preDecrement a
  postDecrement := rfl
  shl := by
    rw [value_shl]
    push_cast
    rfl
  shr := by
    rw [value_shr]
    push_cast
    rfl
  lt := lt_eq a b
  le := le_eq a b
  gt := gt_eq a b
  ge := ge_eq a b
  eq := eq_eq a b
  ne := by rw [ne, eq_eq, decide_not]
  ofUInt64 := value_ofUInt64 u
  xorUInt64 := value_xorUInt64 a u
  orUInt64 := value_orUInt64 a u
  addUInt64 := by rw [addUInt64, cast_add, value_ofUInt64]
  subUInt64 := by rw [subUInt64, cast_add_neg, value_ofUInt64]
  eqUInt64 := eqUInt64_eq a u
  neUInt64 := by rw [neUInt64, eqUInt64_eq, decide_not]
  value_lt := value_lt a
  setHex_getHex := setHex_getHex a

end base_uint

end BitCrystal
