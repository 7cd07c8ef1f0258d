import BitCrystal.Model.BaseTexts
import BitCrystal.Proofs.SecurityCodec

/-! # What the base 64 and base 32 loops do with bits

Each loop is a regrouping of bits: its mode says how many are left, and each case of its switch takes a digit in and
gives out the digits that are full.
-/

namespace BitCrystal

open BitGroups

/-- The digits at the start of a text, up to the first character that is none, and their values. -/
structure Scanned (table : UInt8 → Option ℕ) (text body : List UInt8) (values : List ℕ) (rest : List UInt8) : Prop where
  text_eq : text = body ++ rest
  values : body.map table = values.map some
  stop : table (charAt rest 0) = none

theorem Scanned.cons {table : UInt8 → Option ℕ} {text body rest : List UInt8} {values : List ℕ} {p : UInt8} {dec : ℕ}
    (scanned : Scanned table text body values rest) (found : table p = some dec) :
    Scanned table (p :: text) (p :: body) (dec :: values) rest where
  text_eq := congrArg (p :: ·) scanned.text_eq
  values := by rw [List.map_cons, List.map_cons, found, scanned.values]
  stop := scanned.stop

variable {text rest : List UInt8} {values : List ℕ} {width n : ℕ}

theorem Scanned.length {table : UInt8 → Option ℕ} {body : List UInt8}
    (scanned : Scanned table text body values rest) : body.length = values.length := by
  have same := congrArg List.length scanned.values
  rwa [List.length_map, List.length_map] at same

/-- A text is scanned in one way. -/
theorem Scanned.unique {table : UInt8 → Option ℕ} {body body' rest' : List UInt8} {values' : List ℕ}
    (scanned : Scanned table text body values rest) (again : Scanned table text body' values' rest') :
    body = body' ∧ values = values' ∧ rest = rest' := by
  induction body generalizing text body' values values' with
  | nil =>
    obtain rfl : values = [] := List.length_eq_zero_iff.mp (scanned.length).symm
    cases body' with
    | nil =>
      obtain rfl : values' = [] := List.length_eq_zero_iff.mp (again.length).symm
      exact ⟨rfl, rfl, scanned.text_eq.symm.trans again.text_eq⟩
    | cons p body' =>
      have stop := scanned.stop
      rw [← List.nil_append rest, ← scanned.text_eq, again.text_eq] at stop
      have digit := again.values
      cases values' with
      | nil => cases digit
      | cons dec values' => cases stop.symm.trans (List.cons.inj digit).1
  | cons p body ih =>
    cases values with
    | nil => cases scanned.values
    | cons dec values =>
      obtain ⟨found, others⟩ := List.cons.inj scanned.values
      cases body' with
      | nil =>
        have stop := again.stop
        rw [← List.nil_append rest', ← again.text_eq, scanned.text_eq] at stop
        cases stop.symm.trans found
      | cons p' body' =>
        cases values' with
        | nil => cases again.values
        | cons dec' values' =>
          obtain ⟨found', others'⟩ := List.cons.inj again.values
          obtain ⟨rfl, texts⟩ := List.cons.inj (scanned.text_eq.symm.trans again.text_eq)
          obtain rfl : dec = dec' := Option.some.inj (found.symm.trans found')
          obtain ⟨rfl, rfl, rfl⟩ := ih ⟨rfl, others, scanned.stop⟩ ⟨texts, others', again.stop⟩
          exact ⟨rfl, rfl, rfl⟩

/-- Low bits of a byte made up of two parts. -/
theorem toNat_joined {high low : ℕ} (fits : low < 2 ^ width) (small : high * 2 ^ width + low < 256) :
    (UInt8.ofNat (high <<< width ||| low)).toNat = high * 2 ^ width + low := by
  rw [join_bits high fits, UInt8.toNat_ofNat_of_lt' small]

theorem or_low (high : ℕ) {low : ℕ} (fits : low < 2 ^ width) : high * 2 ^ width ||| low = high * 2 ^ width + low := by
  rw [← join_bits high fits, Nat.shiftLeft_eq]

theorem low_shift (n low width : ℕ) : (n &&& 2 ^ low - 1) <<< width = n % 2 ^ low * 2 ^ width := by
  rw [Nat.shiftLeft_eq, Nat.and_two_pow_sub_one_eq_mod]

theorem charAt_replicate {i : ℕ} (inside : i < n) (rest : List UInt8) :
    charAt (List.replicate n 61 ++ rest) i = 61 := by
  simp [charAt, List.getD, List.getElem?_append, inside]

theorem charAt_behind (n : ℕ) (rest : List UInt8) : charAt (List.replicate n 61 ++ rest) n = charAt rest 0 := by
  simp [charAt, List.getD, List.getElem?_append]

theorem replicate_of_charAt (pads : ∀ i < n, charAt rest i = 61) : rest = List.replicate n 61 ++ rest.drop n := by
  induction n generalizing rest with
  | zero => rfl
  | succ n ih =>
    cases rest with
    | nil => cases pads 0 (Nat.succ_pos n)
    | cons p rest =>
      obtain rfl : p = 61 := pads 0 (Nat.succ_pos n)
      exact congrArg ((61 : UInt8) :: ·) (ih fun i inside => pads (i + 1) (Nat.succ_lt_succ inside))

/-- How many `=` a group with so many characters requires. -/
def required (group n : ℕ) : ℕ := (group - n % group) % group

/-- A text is the characters of digits, padded; the digits hold the bytes with zeros behind them. -/
structure Encodes (char : ℕ → UInt8) (width group : ℕ) (bytes values : List ℕ) (text : List UInt8) (digits : List ℕ) :
    Prop where
  text_eq : text = digits.map char ++ List.replicate (required group (values ++ digits).length) 61
  small : ∀ digit ∈ digits, digit < 2 ^ width
  grouped : ∃ bits < width, Regrouped width 8 (values ++ digits) bytes bits 0

theorem Encodes.append {char : ℕ → UInt8} {group : ℕ} {bytes given digits : List ℕ}
    (encodes : Encodes char width group bytes (values ++ given) text digits) (small : ∀ digit ∈ given, digit < 2 ^ width) :
    Encodes char width group bytes values (given.map char ++ text) (given ++ digits) where
  text_eq := by rw [encodes.text_eq, List.map_append, List.append_assoc, List.append_assoc]
  small digit member := (List.mem_append.mp member).elim (small digit) (encodes.small digit)
  grouped := by
    rw [← List.append_assoc]
    exact encodes.grouped

/-- The last digit is filled up with zeros. -/
theorem encodes_last {char : ℕ → UInt8} {width group bits left last padding : ℕ} {bytes values : List ℕ}
    (grouped : Regrouped 8 width bytes values bits left) (shifted : last = left * 2 ^ (width - bits))
    (digits : ∀ digit ∈ bytes, digit < 2 ^ 8) (left_over : 0 < bits ∧ bits < width)
    (pads : ∀ n m, 8 * n = width * m + bits → required group (m + 1) = padding) :
    ∃ given, Encodes char width group bytes values (char last :: List.replicate padding 61) given := by
  have bound := grouped.small
  subst shifted
  refine ⟨[left * 2 ^ (width - bits)], ?_, ?_, width - bits, by omega, grouped.flip digits left_over.2.le⟩
  · rw [List.length_append, List.length_singleton, pads _ _ grouped.count]
    rfl
  · rw [List.forall_mem_singleton]
    calc
      left * 2 ^ (width - bits) < 2 ^ bits * 2 ^ (width - bits) :=
        Nat.mul_lt_mul_of_pos_right bound (Nat.two_pow_pos _)
      _ = 2 ^ width := by rw [← pow_add, Nat.add_sub_cancel' left_over.2.le]

theorem encodes_whole {char : ℕ → UInt8} {group left : ℕ} {bytes : List ℕ} (wide : 0 < width)
    (grouped : Regrouped 8 width bytes values 0 left) (digits : ∀ digit ∈ bytes, digit < 2 ^ 8)
    (full : ∀ n m, 8 * n = width * m → required group m = 0) :
    ∃ given, Encodes char width group bytes values [] given := by
  obtain rfl : left = 0 := Nat.lt_one_iff.mp grouped.small
  refine ⟨[], ?_, nofun, 0, wide, ?_⟩
  · rw [List.append_nil, full _ _ grouped.count]
    rfl
  · rw [List.append_nil]
    exact grouped.flip_whole digits

section

variable {width group bits left rest : ℕ} {input output : List ℕ} {enc : UInt8}

/-- The bits of a byte that come behind those that are left. -/
theorem feed_or (grouped : Regrouped 8 width input output bits left) (enough : bits + 8 = rest + width) (fits : rest ≤ 8) :
    Regrouped 8 width (input ++ [enc.toNat]) (output ++ [left * 2 ^ (8 - rest) ||| enc.toNat >>> rest]) rest
      (enc.toNat % 2 ^ rest) := by
  have high : enc.toNat / 2 ^ rest < 2 ^ (8 - rest) := by
    rw [Nat.div_lt_iff_lt_mul (Nat.two_pow_pos rest), ← pow_add, Nat.sub_add_cancel fits]
    exact enc.toNat_lt
  rw [Nat.shiftRight_eq_div_pow, or_low _ high]
  exact grouped.feed enc.toNat_lt enough fits

theorem feed_two_or (grouped : Regrouped 8 width input output bits left) (enough : bits + 8 = rest + width + width)
    (fits : rest + width ≤ 8) : Regrouped 8 width (input ++ [enc.toNat])
      (output ++ [left * 2 ^ (8 - (rest + width)) ||| enc.toNat >>> (rest + width), enc.toNat >>> rest &&& 2 ^ width - 1])
      rest (enc.toNat % 2 ^ rest) := by
  have high : enc.toNat / 2 ^ (rest + width) < 2 ^ (8 - (rest + width)) := by
    rw [Nat.div_lt_iff_lt_mul (Nat.two_pow_pos _), ← pow_add, Nat.sub_add_cancel fits]
    exact enc.toNat_lt
  rw [Nat.shiftRight_eq_div_pow, Nat.shiftRight_eq_div_pow, or_low _ high, Nat.and_two_pow_sub_one_eq_mod]
  exact grouped.feed_two enc.toNat_lt enough fits

end

section

variable {Mode : Type} {width group : ℕ} {bits left : Mode → ℕ}

/-- An encoding loop with modes; the bits that are left are kept as the high bits of a digit. -/
theorem encodes_of_steps {char : ℕ → UInt8} {loop : Mode → List UInt8 → List UInt8}
    (finish : ∀ mode {input output : List ℕ} {rest : ℕ}, Regrouped 8 width input output (bits mode) rest →
      left mode = rest * 2 ^ (width - bits mode) → (∀ byte ∈ input, byte < 2 ^ 8) →
        ∃ digits, Encodes char width group input output (loop mode []) digits)
    (step : ∀ mode (enc : UInt8) {input output : List ℕ} {rest : ℕ}, Regrouped 8 width input output (bits mode) rest →
      left mode = rest * 2 ^ (width - bits mode) → ∃ mode' given rest',
        Regrouped 8 width (input ++ [enc.toNat]) (output ++ given) (bits mode') rest' ∧
          left mode' = rest' * 2 ^ (width - bits mode') ∧
            ∀ pch, loop mode (enc :: pch) = given.map char ++ loop mode' pch)
    {mode : Mode} {input output : List ℕ} {rest : ℕ} (pch : List UInt8)
    (grouped : Regrouped 8 width input output (bits mode) rest) (shifted : left mode = rest * 2 ^ (width - bits mode))
    (bytes : ∀ byte ∈ input, byte < 2 ^ 8) :
    ∃ digits, Encodes char width group (input ++ pch.map UInt8.toNat) output (loop mode pch) digits := by
  induction pch generalizing mode input output rest with
  | nil =>
    rw [List.map_nil, List.append_nil]
    exact finish mode grouped shifted bytes
  | cons enc pch ih =>
    obtain ⟨mode', given, rest', grouped', shifted', run⟩ := step mode enc grouped shifted
    obtain ⟨digits, encodes⟩ := ih grouped' shifted' (by simpa [or_imp, forall_and] using ⟨bytes, enc.toNat_lt⟩)
    rw [run, List.map_cons]
    rw [List.append_assoc] at encodes
    exact ⟨_, encodes.append fun digit member => grouped'.digits digit (List.mem_append_right _ member)⟩

/-- A decoding loop with modes. -/
theorem decodes_of_steps {table : UInt8 → Option ℕ} {loop : Mode → List UInt8 → List UInt8 × Mode × List UInt8}
    (nil : ∀ mode, loop mode [] = ([], mode, [])) (nul : table 0 = none)
    (stop : ∀ mode p rest, table p = none → loop mode (p :: rest) = ([], mode, p :: rest))
    (step : ∀ mode dec {input output : List ℕ}, dec < 2 ^ width → Regrouped width 8 input output (bits mode) (left mode) →
      ∃ mode' bytes, Regrouped width 8 (input ++ [dec]) (output ++ bytes.map UInt8.toNat) (bits mode') (left mode') ∧
        ∀ p rest, table p = some dec → loop mode (p :: rest) = (loop mode' rest).map (bytes ++ ·) id)
    (small : ∀ c dec, table c = some dec → dec < 2 ^ width) {mode : Mode} {input output : List ℕ} (text : List UInt8)
    (grouped : Regrouped width 8 input output (bits mode) (left mode)) : ∃ body values,
      Scanned table text body values (loop mode text).2.2 ∧
      Regrouped width 8 (input ++ values) (output ++ (loop mode text).1.map UInt8.toNat) (bits (loop mode text).2.1)
        (left (loop mode text).2.1) := by
  induction text generalizing mode input output with
  | nil => exact ⟨[], [], ⟨by rw [nil]; rfl, rfl, by rw [nil]; exact nul⟩, by simpa [nil] using grouped⟩
  | cons p text ih =>
    cases found : table p with
    | none =>
      rw [stop mode p text found]
      exact ⟨[], [], ⟨rfl, rfl, found⟩, by simpa using grouped⟩
    | some dec =>
      obtain ⟨mode', bytes, grouped', run⟩ := step mode dec (small p dec found) grouped
      obtain ⟨body, values, scanned, regrouped⟩ := ih grouped'
      rw [run p text found]
      refine ⟨p :: body, dec :: values, scanned.cons found, ?_⟩
      rwa [List.append_assoc, List.append_assoc, ← List.map_append] at regrouped

end

namespace EncodeMode

def bits : EncodeMode → ℕ
  | .none => 0
  | .two _ => 2
  | .four _ => 4

def left : EncodeMode → ℕ
  | .none => 0
  | .two left | .four left => left

end EncodeMode

theorem encodeBase64_encodes (pch : List UInt8) :
    ∃ digits, Encodes pbase64 6 4 (pch.map UInt8.toNat) [] (encodeBase64 pch) digits := by
  refine @encodes_of_steps _ 6 4 EncodeMode.bits EncodeMode.left _ _ ?_ ?_ .none [] [] 0 pch (.nil 8 6) rfl nofun
  · intro mode input output rest grouped shifted bytes
    cases mode with
    | none => exact encodes_whole (by decide) grouped bytes fun n m count => by unfold required; omega
    | two pending =>
      exact @encodes_last _ 6 4 2 rest _ 2 _ _ grouped shifted bytes (by decide) fun n m count => by unfold required; omega
    | four pending =>
      exact @encodes_last _ 6 4 4 rest _ 1 _ _ grouped shifted bytes (by decide) fun n m count => by unfold required; omega
  · intro mode enc input output rest grouped shifted
    cases mode with
    | none =>
      obtain rfl : rest = 0 := Nat.lt_one_iff.mp grouped.small
      have fed := @feed_or 6 0 0 2 _ _ enc grouped rfl (by decide)
      rw [Nat.zero_mul, Nat.zero_or] at fed
      exact ⟨.two ((enc.toNat &&& 3) <<< 4), _, _, fed, low_shift _ 2 4, fun _ => rfl⟩
    | two pending =>
      obtain rfl : pending = rest * 2 ^ (6 - 2) := shifted
      have fed := @feed_or 6 2 rest 4 _ _ enc grouped rfl (by decide)
      exact ⟨.four ((enc.toNat &&& 15) <<< 2), _, _, fed, low_shift _ 4 2, fun _ => rfl⟩
    | four pending =>
      obtain rfl : pending = rest * 2 ^ (6 - 4) := shifted
      have fed := @feed_two_or 6 4 rest 0 _ _ enc grouped rfl (by decide)
      rw [Nat.pow_zero, Nat.mod_one] at fed
      exact ⟨.none, _, _, fed, rfl, fun _ => rfl⟩

namespace DecodeMode

def bits : DecodeMode → ℕ
  | .none => 0
  | .six _ => 6
  | .four _ => 4
  | .two _ => 2

def left : DecodeMode → ℕ
  | .none => 0
  | .six left | .four left | .two left => left

theorem bits_lt (mode : DecodeMode) : mode.bits < 8 := by
  cases mode <;> simp [bits]

end DecodeMode

section

variable {width bits left rest dec : ℕ} {input output : List ℕ}

/-- The bits that are left and the high ones of a digit fill a byte. -/
theorem feed_byte (grouped : Regrouped width 8 input output bits left) (small : dec < 2 ^ width)
    (enough : bits + width = rest + 8) (fits : rest ≤ width) : Regrouped width 8 (input ++ [dec])
      (output ++ [UInt8.ofNat (left <<< (width - rest) ||| dec >>> rest)].map UInt8.toNat) rest (dec &&& 2 ^ rest - 1) := by
  have bound := grouped.small
  have high : dec / 2 ^ rest < 2 ^ (width - rest) := by
    rwa [Nat.div_lt_iff_lt_mul (Nat.two_pow_pos rest), ← pow_add, Nat.sub_add_cancel fits]
  have joined : left * 2 ^ (width - rest) + dec / 2 ^ rest < 256 := by
    calc
      left * 2 ^ (width - rest) + dec / 2 ^ rest < (left + 1) * 2 ^ (width - rest) := by
        rw [Nat.succ_mul]
        exact Nat.add_lt_add_left high _
      _ ≤ 2 ^ bits * 2 ^ (width - rest) := Nat.mul_le_mul_right _ bound
      _ = 256 := by
        rw [← pow_add, (by omega : bits + (width - rest) = 8)]
        rfl
  rw [Nat.shiftRight_eq_div_pow, List.map_singleton, toNat_joined high joined, Nat.and_two_pow_sub_one_eq_mod]
  exact grouped.feed small enough fits

/-- The bits of a digit behind those that are left, when they do not fill a byte. -/
theorem push_byte (grouped : Regrouped width 8 input output bits left) (small : dec < 2 ^ width) :
    Regrouped width 8 (input ++ [dec]) (output ++ ([] : List UInt8).map UInt8.toNat) (bits + width)
      (left <<< width ||| dec) := by
  rw [join_bits _ small, List.map_nil, List.append_nil]
  exact grouped.push small

end

theorem decodeBase64Run_groups (text : List UInt8) : ∃ body values,
    Scanned decode64_table text body values (decodeBase64Run .none text).2.2 ∧
    Regrouped 6 8 values ((decodeBase64Run .none text).1.map UInt8.toNat) (decodeBase64Run .none text).2.1.bits
      (decodeBase64Run .none text).2.1.left := by
  refine @decodes_of_steps _ 6 DecodeMode.bits DecodeMode.left _ decodeBase64Run (fun _ => rfl) rfl ?_ ?_
    (fun _ _ => decode64_table_lt) .none [] [] text (.nil 6 8)
  · intro mode p rest found
    rw [decodeBase64Run, found]
  · intro mode dec input output small grouped
    cases mode with
    | none =>
      have fed := @push_byte 6 0 0 _ _ _ grouped small
      rw [Nat.zero_shiftLeft, Nat.zero_or] at fed
      exact ⟨.six dec, [], fed, fun p rest found => by rw [decodeBase64Run, found]; rfl⟩
    | six left =>
      have fed := @feed_byte 6 6 left 4 _ _ _ grouped small rfl (by decide)
      exact ⟨.four (dec &&& 15), _, fed, fun p rest found => by rw [decodeBase64Run, found]; rfl⟩
    | four left =>
      have fed := @feed_byte 6 4 left 2 _ _ _ grouped small rfl (by decide)
      exact ⟨.two (dec &&& 3), _, fed, fun p rest found => by rw [decodeBase64Run, found]; rfl⟩
    | two left =>
      have fed := @feed_byte 6 2 left 0 _ _ _ grouped small rfl (by decide)
      rw [Nat.pow_zero, Nat.and_zero] at fed
      exact ⟨.none, _, fed, fun p rest found => by rw [decodeBase64Run, found]; rfl⟩

set_option maxRecDepth 4000 in
theorem decode32_table_lt {c : UInt8} (found : decode32_table c = some n) : n < 2 ^ 5 := by
  have each : ∀ k : Fin 256, ∀ n ∈ decode32_table (UInt8.ofNat k), n < 2 ^ 5 := by decide
  have this := each ⟨c.toNat, c.toNat_lt⟩ n
  rw [UInt8.ofNat_toNat] at this
  exact this found

namespace EncodeMode32

def bits : EncodeMode32 → ℕ
  | .none => 0
  | .three _ => 3
  | .one _ => 1
  | .four _ => 4
  | .two _ => 2

def left : EncodeMode32 → ℕ
  | .none => 0
  | .three left | .one left | .four left | .two left => left

end EncodeMode32

theorem encodeBase32_encodes (pch : List UInt8) :
    ∃ digits, Encodes pbase32 5 8 (pch.map UInt8.toNat) [] (encodeBase32 pch) digits := by
  refine @encodes_of_steps _ 5 8 EncodeMode32.bits EncodeMode32.left _ _ ?_ ?_ .none [] [] 0 pch (.nil 8 5) rfl nofun
  · intro mode input output rest grouped shifted bytes
    cases mode with
    | none => exact encodes_whole (by decide) grouped bytes fun n m count => by unfold required; omega
    | three pending =>
      exact @encodes_last _ 5 8 3 rest _ 6 _ _ grouped shifted bytes (by decide) fun n m count => by unfold required; omega
    | one pending =>
      exact @encodes_last _ 5 8 1 rest _ 4 _ _ grouped shifted bytes (by decide) fun n m count => by unfold required; omega
    | four pending =>
      exact @encodes_last _ 5 8 4 rest _ 3 _ _ grouped shifted bytes (by decide) fun n m count => by unfold required; omega
    | two pending =>
      exact @encodes_last _ 5 8 2 rest _ 1 _ _ grouped shifted bytes (by decide) fun n m count => by unfold required; omega
  · intro mode enc input output rest grouped shifted
    cases mode with
    | none =>
      obtain rfl : rest = 0 := Nat.lt_one_iff.mp grouped.small
      have fed := @feed_or 5 0 0 3 _ _ enc grouped rfl (by decide)
      rw [Nat.zero_mul, Nat.zero_or] at fed
      exact ⟨.three ((enc.toNat &&& 7) <<< 2), _, _, fed, low_shift _ 3 2, fun _ => rfl⟩
    | three pending =>
      obtain rfl : pending = rest * 2 ^ (5 - 3) := shifted
      have fed := @feed_two_or 5 3 rest 1 _ _ enc grouped rfl (by decide)
      exact ⟨.one ((enc.toNat &&& 1) <<< 4), _, _, fed, low_shift _ 1 4, fun _ => rfl⟩
    | one pending =>
      obtain rfl : pending = rest * 2 ^ (5 - 1) := shifted
      have fed := @feed_or 5 1 rest 4 _ _ enc grouped rfl (by decide)
      exact ⟨.four ((enc.toNat &&& 15) <<< 1), _, _, fed, low_shift _ 4 1, fun _ => rfl⟩
    | four pending =>
      obtain rfl : pending = rest * 2 ^ (5 - 4) := shifted
      have fed := @feed_two_or 5 4 rest 2 _ _ enc grouped rfl (by decide)
      exact ⟨.two ((enc.toNat &&& 3) <<< 3), _, _, fed, low_shift _ 2 3, fun _ => rfl⟩
    | two pending =>
      obtain rfl : pending = rest * 2 ^ (5 - 2) := shifted
      have fed := @feed_two_or 5 2 rest 0 _ _ enc grouped rfl (by decide)
      rw [Nat.pow_zero, Nat.mod_one] at fed
      exact ⟨.none, _, _, fed, rfl, fun _ => rfl⟩

namespace DecodeMode32

def bits : DecodeMode32 → ℕ
  | .none => 0
  | .five _ => 5
  | .two _ => 2
  | .seven _ => 7
  | .four _ => 4
  | .one _ => 1
  | .six _ => 6
  | .three _ => 3

def left : DecodeMode32 → ℕ
  | .none => 0
  | .five left | .two left | .seven left | .four left | .one left | .six left | .three left => left

theorem bits_lt (mode : DecodeMode32) : mode.bits < 8 := by
  cases mode <;> simp [bits]

end DecodeMode32

theorem decodeBase32Run_groups (text : List UInt8) : ∃ body values,
    Scanned decode32_table text body values (decodeBase32Run .none text).2.2 ∧
    Regrouped 5 8 values ((decodeBase32Run .none text).1.map UInt8.toNat) (decodeBase32Run .none text).2.1.bits
      (decodeBase32Run .none text).2.1.left := by
  refine @decodes_of_steps _ 5 DecodeMode32.bits DecodeMode32.left _ decodeBase32Run (fun _ => rfl) rfl ?_ ?_
    (fun _ _ => decode32_table_lt) .none [] [] text (.nil 5 8)
  · intro mode p rest found
    rw [decodeBase32Run, found]
  · intro mode dec input output small grouped
    cases mode with
    | none =>
      have fed := @push_byte 5 0 0 _ _ _ grouped small
      rw [Nat.zero_shiftLeft, Nat.zero_or] at fed
      exact ⟨.five dec, [], fed, fun p rest found => by rw [decodeBase32Run, found]; rfl⟩
    | five left =>
      have fed := @feed_byte 5 5 left 2 _ _ _ grouped small rfl (by decide)
      exact ⟨.two (dec &&& 3), _, fed, fun p rest found => by rw [decodeBase32Run, found]; rfl⟩
    | two left => exact ⟨.seven (left <<< 5 ||| dec), [], push_byte grouped small, fun p rest found => by
        rw [decodeBase32Run, found]; rfl⟩
    | seven left =>
      have fed := @feed_byte 5 7 left 4 _ _ _ grouped small rfl (by decide)
      exact ⟨.four (dec &&& 15), _, fed, fun p rest found => by rw [decodeBase32Run, found]; rfl⟩
    | four left =>
      have fed := @feed_byte 5 4 left 1 _ _ _ grouped small rfl (by decide)
      exact ⟨.one (dec &&& 1), _, fed, fun p rest found => by rw [decodeBase32Run, found]; rfl⟩
    | one left => exact ⟨.six (left <<< 5 ||| dec), [], push_byte grouped small, fun p rest found => by
        rw [decodeBase32Run, found]; rfl⟩
    | six left =>
      have fed := @feed_byte 5 6 left 3 _ _ _ grouped small rfl (by decide)
      exact ⟨.three (dec &&& 7), _, fed, fun p rest found => by rw [decodeBase32Run, found]; rfl⟩
    | three left =>
      have fed := @feed_byte 5 3 left 0 _ _ _ grouped small rfl (by decide)
      rw [Nat.pow_zero, Nat.and_zero] at fed
      exact ⟨.none, _, fed, fun p rest found => by rw [decodeBase32Run, found]; rfl⟩

end BitCrystal
