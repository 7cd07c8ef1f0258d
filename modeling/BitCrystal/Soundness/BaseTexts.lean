import BitCrystal.Proofs.Base32

/-! # Encoded texts and their validity

Decoding gives back what has been encoded. A text is reported valid just when it starts with a padded encoding behind
which no digit follows: what comes after that is not looked at.
-/

namespace BitCrystal

open BitGroups

/-- Base 64 or base 32. -/
structure BaseCode where
  char : ℕ → UInt8
  table : UInt8 → Option ℕ
  width : ℕ
  group : ℕ
  encode : List UInt8 → List UInt8
  decode : List UInt8 → List UInt8 × Bool

def base64 : BaseCode where
  char := pbase64
  table := decode64_table
  width := 6
  group := 4
  encode := encodeBase64
  decode := decodeBase64Checked

def base32 : BaseCode where
  char := pbase32
  table := decode32_table
  width := 5
  group := 8
  encode := encodeBase32
  decode := decodeBase32Checked

namespace BaseCode

variable {code : BaseCode}

/-- Digits that end in the middle of a byte by less than a digit, with zeros there. -/
structure Closed (code : BaseCode) (body : List UInt8) (values : List ℕ) : Prop where
  digits : body.map code.table = values.map some
  few : code.width * body.length % 8 < code.width
  zeros : value code.width values % 2 ^ (code.width * body.length % 8) = 0

/-- The grammar: digits of the alphabet, followed by the required number of `=` and nothing else. -/
def Padded (code : BaseCode) (text : List UInt8) : Prop :=
  ∃ body values, code.Closed body values ∧ text = body ++ List.replicate (required code.group body.length) 61

/-- What the text has to go on with after `n` digits that leave so many bits. -/
def Closing (code : BaseCode) (n bits left : ℕ) (rest : List UInt8) : Prop :=
  bits < code.width ∧ left = 0 ∧ (∀ i < required code.group n, charAt rest i = 61) ∧
    code.table (charAt rest (required code.group n)) = none

/-- What the loops and the last switch of an implementation do. -/
structure Sound (code : BaseCode) : Prop where
  wide : 0 < code.width
  narrow : code.width ≤ 8
  table_char : ∀ n < 2 ^ code.width, code.table (code.char n) = some n
  table_pad : code.table 61 = none
  table_nul : code.table 0 = none
  encodes : ∀ bytes, ∃ digits,
    Encodes code.char code.width code.group (bytes.map UInt8.toNat) [] (code.encode bytes) digits
  decodes : ∀ text, ∃ body values rest bits left, Scanned code.table text body values rest ∧
    Regrouped code.width 8 values ((code.decode text).1.map UInt8.toNat) bits left ∧ bits < 8 ∧
    ((code.decode text).2 = false ↔ code.Closing body.length bits left rest)

theorem misPadded_eq_false {table : UInt8 → Option ℕ} {count left : ℕ} {p : List UInt8} :
    misPadded table count left p = false ↔
      left = 0 ∧ (∀ i < count, charAt p i = 61) ∧ table (charAt p count) = none := by
  simp [misPadded, and_assoc]

variable {n : ℕ} {rest : List UInt8}

theorem closing_whole (wide : 0 < code.width) (full : required code.group n = 0)
    (stop : code.table (charAt rest 0) = none) : code.Closing n 0 0 rest := by
  rw [Closing, full]
  exact ⟨wide, rfl, nofun, stop⟩

theorem closing_of_required {n bits left count : ℕ} {rest : List UInt8} (few : bits < code.width)
    (pads : required code.group n = count) : misPadded code.table count left rest = false ↔
      code.Closing n bits left rest := by
  rw [Closing, pads, misPadded_eq_false]
  exact (and_iff_right few).symm

theorem base64Invalid_eq_false {mode : DecodeMode} {m : ℕ} (count : 6 * n = 8 * m + mode.bits)
    (stop : decode64_table (charAt rest 0) = none) :
    base64Invalid mode rest = false ↔ base64.Closing n mode.bits mode.left rest := by
  cases mode with
  | none =>
    have count : 6 * n = 8 * m + 0 := count
    have full : required 4 n = 0 := by
      unfold required
      omega
    exact iff_of_true rfl (closing_whole (by decide) full stop)
  | six left => exact iff_of_false nofun fun closing => absurd closing.1 (by change ¬ 6 < 6; decide)
  | four left =>
    have count : 6 * n = 8 * m + 4 := count
    exact @closing_of_required base64 n 4 left 2 rest (by decide) (show required 4 n = 2 by unfold required; omega)
  | two left =>
    have count : 6 * n = 8 * m + 2 := count
    exact @closing_of_required base64 n 2 left 1 rest (by decide) (show required 4 n = 1 by unfold required; omega)

theorem base32Invalid_eq_false {mode : DecodeMode32} {m : ℕ} (count : 5 * n = 8 * m + mode.bits)
    (stop : decode32_table (charAt rest 0) = none) :
    base32Invalid mode rest = false ↔ base32.Closing n mode.bits mode.left rest := by
  cases mode with
  | none =>
    have count : 5 * n = 8 * m + 0 := count
    have full : required 8 n = 0 := by
      unfold required
      omega
    exact iff_of_true rfl (closing_whole (by decide) full stop)
  | five left => exact iff_of_false nofun fun closing => absurd closing.1 (by change ¬ 5 < 5; decide)
  | two left =>
    have count : 5 * n = 8 * m + 2 := count
    exact @closing_of_required base32 n 2 left 6 rest (by decide) (show required 8 n = 6 by unfold required; omega)
  | seven left => exact iff_of_false nofun fun closing => absurd closing.1 (by change ¬ 7 < 5; decide)
  | four left =>
    have count : 5 * n = 8 * m + 4 := count
    exact @closing_of_required base32 n 4 left 4 rest (by decide) (show required 8 n = 4 by unfold required; omega)
  | one left =>
    have count : 5 * n = 8 * m + 1 := count
    exact @closing_of_required base32 n 1 left 3 rest (by decide) (show required 8 n = 3 by unfold required; omega)
  | six left => exact iff_of_false nofun fun closing => absurd closing.1 (by change ¬ 6 < 5; decide)
  | three left =>
    have count : 5 * n = 8 * m + 3 := count
    exact @closing_of_required base32 n 3 left 1 rest (by decide) (show required 8 n = 1 by unfold required; omega)

/-- The end of the run and the verdict of the last switch. -/
theorem decodes_of_run {text bytes : List UInt8} {bits left : ℕ} {invalid : Bool}
    (run : ∃ body values, Scanned code.table text body values rest ∧
      Regrouped code.width 8 values (bytes.map UInt8.toNat) bits left) (partly : bits < 8)
    (verdict : ∀ {n m}, code.width * n = 8 * m + bits → code.table (charAt rest 0) = none →
      (invalid = false ↔ code.Closing n bits left rest)) : ∃ body values rest bits left,
        Scanned code.table text body values rest ∧ Regrouped code.width 8 values (bytes.map UInt8.toNat) bits left ∧
          bits < 8 ∧ (invalid = false ↔ code.Closing body.length bits left rest) := by
  obtain ⟨body, values, scanned, grouped⟩ := run
  have count := grouped.count
  rw [← scanned.length] at count
  exact ⟨body, values, rest, bits, left, scanned, grouped, partly, verdict count scanned.stop⟩

theorem base64_sound : base64.Sound where
  wide := by decide
  narrow := by decide
  table_char := by decide
  table_pad := rfl
  table_nul := rfl
  encodes := encodeBase64_encodes
  decodes text := decodes_of_run (decodeBase64Run_groups text) (DecodeMode.bits_lt _) base64Invalid_eq_false

theorem base32_sound : base32.Sound where
  wide := by decide
  narrow := by decide
  table_char := by decide
  table_pad := rfl
  table_nul := rfl
  encodes := encodeBase32_encodes
  decodes text := decodes_of_run (decodeBase32Run_groups text) (DecodeMode32.bits_lt _) base32Invalid_eq_false

namespace Sound

variable (sound : code.Sound)
include sound

/-- Padding and what follows it stop the scan. -/
theorem stops {n : ℕ} {rest : List UInt8} (stop : code.table (charAt rest 0) = none) :
    code.table (charAt (List.replicate n 61 ++ rest) 0) = none := by
  cases n with
  | zero => exact stop
  | succ n => exact sound.table_pad

theorem decode_encode (v : List UInt8) : code.decode (code.encode v) = (v, false) := by
  obtain ⟨digits, encodes⟩ := sound.encodes v
  obtain ⟨body, values, rest, bits, left, scanned, grouped, partly, valid⟩ := sound.decodes (code.encode v)
  have written : Scanned code.table (code.encode v) (digits.map code.char) digits
      (List.replicate (required code.group digits.length) 61 ++ []) := by
    refine ⟨encodes.text_eq.trans (by rw [List.append_nil]; rfl), ?_, sound.stops sound.table_nul⟩
    rw [List.map_map]
    exact List.map_congr_left fun digit member => sound.table_char digit (encodes.small digit member)
  obtain ⟨rfl, rfl, rfl⟩ := scanned.unique written
  obtain ⟨bits', few, regrouped⟩ := encodes.grouped
  obtain ⟨same, rfl, rfl⟩ := grouped.unique (by decide) regrouped partly (few.trans_le sound.narrow)
  refine Prod.ext (List.map_inj_right (fun _ _ => UInt8.toNat_inj.mp) |>.mp same) (valid.mpr ⟨few, rfl, ?_, ?_⟩)
  · rw [List.length_map]
    exact fun i inside => charAt_replicate inside []
  · rw [List.length_map, charAt_behind]
    exact sound.table_nul

/-- A text is valid just when it is a padded encoding up to where no digit follows. -/
theorem valid_iff (text : List UInt8) : (code.decode text).2 = false ↔
    ∃ front rest, text = front ++ rest ∧ code.Padded front ∧ code.table (charAt rest 0) = none := by
  obtain ⟨body, values, rest, bits, left, scanned, grouped, partly, valid⟩ := sound.decodes text
  have leftover : code.width * body.length % 8 = bits := by
    rw [scanned.length, grouped.count, Nat.mul_add_mod, Nat.mod_eq_of_lt partly]
  have remainder : value code.width values % 2 ^ bits = left := by
    rw [grouped.value, Nat.add_comm, Nat.add_mul_mod_self_right, Nat.mod_eq_of_lt grouped.small]
  rw [valid]
  constructor
  · rintro ⟨few, rfl, pads, stop⟩
    have split := replicate_of_charAt pads
    refine ⟨body ++ List.replicate (required code.group body.length) 61, rest.drop (required code.group body.length),
      ?_, ⟨body, values, ⟨scanned.values, ?_, ?_⟩, rfl⟩, ?_⟩
    · rw [List.append_assoc, ← split]
      exact scanned.text_eq
    · rwa [leftover]
    · rwa [leftover]
    · rwa [split, charAt_behind] at stop
  · rintro ⟨front, tail, rfl, ⟨body', values', closed, rfl⟩, stop⟩
    have other : Scanned code.table _ body' values' (List.replicate (required code.group body'.length) 61 ++ tail) :=
      ⟨List.append_assoc .., closed.digits, sound.stops stop⟩
    obtain ⟨rfl, rfl, rfl⟩ := scanned.unique other
    refine ⟨leftover ▸ closed.few, ?_, fun i inside => charAt_replicate inside tail, ?_⟩
    · rw [← remainder, ← leftover]
      exact closed.zeros
    · rwa [charAt_behind]

end Sound

/-- Both codes give back what has been encoded, and report a text valid just when it starts with a padded encoding
and no digit follows. -/
theorem baseTexts_laws :
    (∀ v, decodeBase64Checked (encodeBase64 v) = (v, false)) ∧
    (∀ v, decodeBase32Checked (encodeBase32 v) = (v, false)) ∧
    (∀ t, (decodeBase64Checked t).2 = false ↔
      ∃ front rest, t = front ++ rest ∧ base64.Padded front ∧ decode64_table (charAt rest 0) = none) ∧
    ∀ t, (decodeBase32Checked t).2 = false ↔
      ∃ front rest, t = front ++ rest ∧ base32.Padded front ∧ decode32_table (charAt rest 0) = none :=
  ⟨base64_sound.decode_encode, base32_sound.decode_encode, base64_sound.valid_iff, base32_sound.valid_iff⟩

/-- A text that begins with no digit at all is valid. -/
theorem not_padded_valid : (decodeBase64Checked [61]).2 = false ∧ ¬ base64.Padded [61] := by
  refine ⟨rfl, ?_⟩
  rintro ⟨body, values, closed, same⟩
  cases body with
  | nil => cases same
  | cons p body =>
    obtain ⟨rfl, -⟩ := List.cons.inj same
    cases values with
    | nil => cases closed.digits
    | cons dec values => cases (List.cons.inj closed.digits).1

end BaseCode

end BitCrystal
