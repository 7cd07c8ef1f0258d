import Mathlib.Data.List.Basic
import Mathlib.Algebra.Order.Ring.Int

/-! # Byte readers

A reader takes a value from the front of a byte stream or fails when the stream is malformed or too
short. A byte string is the encoding of a value for a reader when the reader takes exactly these
bytes and returns the value, whatever follows. Encodings of parts concatenate to an encoding of the
whole, which is the only fact about concrete formats a round trip needs.
-/

/-- A value read from the front of a byte stream, and what is left of the stream. -/
abbrev Reader (α : Type) := StateT (List UInt8) Option α

namespace Reader

variable {α β : Type}

/-- The reader takes exactly these bytes and returns this value, whatever follows. -/
def Reads (reader : Reader α) (bytes : List UInt8) (value : α) : Prop :=
  ∀ rest, reader.run (bytes ++ rest) = some (value, rest)

/-- The value of a stream that holds one encoding and nothing else. -/
def parse (reader : Reader α) (bytes : List UInt8) : Option α := (reader.run bytes).map Prod.fst

/-- Read a given number of bytes. -/
def bytes (n : ℕ) : Reader (List UInt8) := fun stream =>
  if n ≤ stream.length then some (stream.take n, stream.drop n) else none

variable {reader : Reader α} {next : α → Reader β} {first second : List UInt8} {result : β}
  {P : α → List UInt8 → Prop} {fits : Prop}

theorem Reads.parse {bytes : List UInt8} {value : α} (reads : reader.Reads bytes value) :
    reader.parse bytes = some value := by
  have whole := reads []
  rw [List.append_nil] at whole
  rw [Reader.parse, whole, Option.map_some]

theorem reads_pure (value : α) : Reads (pure value) [] value := fun _ => rfl

/-- Encodings of two parts concatenate. -/
theorem Reads.bind {value : α} (head : reader.Reads first value) (tail : (next value).Reads second result) :
    (reader >>= next).Reads (first ++ second) result := by
  intro rest
  rw [StateT.run_bind, List.append_assoc, head]
  exact tail rest

theorem Reads.last {value : α}
    (head : reader.Reads first value) (tail : (next value).Reads [] result) : (reader >>= next).Reads first result := by
  have both := head.bind tail
  rwa [List.append_nil] at both

theorem Reads.map {value : α} (head : reader.Reads first value)
    (f : α → β) : (do let value ← reader; pure (f value)).Reads first (f value) :=
  head.last (reads_pure (f value))

/-- A part that is left out gives the value it has then. -/
theorem Reads.optional {bytes : List UInt8} {value absent : α} (present : Prop) [Decidable present]
    (reads : reader.Reads bytes value) : (if present then reader else pure absent).Reads
      (if present then bytes else []) (if present then value else absent) := by
  split_ifs
  · exact reads
  · exact reads_pure absent

theorem reads_bytes {n : ℕ} {l : List UInt8} (length : l.length = n) : (bytes n).Reads l l := by
  subst length
  intro rest
  have enough : l.length ≤ (l ++ rest).length := by
    rw [List.length_append]
    exact Nat.le_add_right _ _
  simp only [bytes, StateT.run, if_pos enough, List.take_left', List.drop_left']

/-- What follows an encoding is determined, and so is the value. -/
theorem Reads.unique {value other : α}
    (left : reader.Reads first value) (right : reader.Reads second other) {after behind : List UInt8}
    (same : first ++ after = second ++ behind) : value = other ∧ after = behind := by
  have read := left after
  rw [same, right behind] at read
  cases read
  exact ⟨rfl, rfl⟩

/-- Whatever the reader returns has the property. -/
def Ensures (reader : Reader α) (P : α → Prop) : Prop :=
  ∀ stream value rest, reader.run stream = some (value, rest) → P value

theorem ensures_true (reader : Reader α) : reader.Ensures fun _ => True := fun _ _ _ _ => trivial

theorem ensures_pure {P : α → Prop} {value : α} (holds : P value) : (pure value : Reader α).Ensures P := by
  intro stream other rest read
  cases read
  exact holds

theorem ensures_failure {P : α → Prop} : (failure : Reader α).Ensures P := fun _ _ _ read => by cases read

theorem Ensures.bind {P : α → Prop} {Q : β → Prop} (head : reader.Ensures P)
    (tail : ∀ value, P value → (next value).Ensures Q) : (reader >>= next).Ensures Q := by
  intro stream result rest read
  rw [StateT.run_bind] at read
  obtain ⟨⟨value, between⟩, first, second⟩ := Option.bind_eq_some_iff.mp read
  exact tail value (head _ _ _ first) _ _ _ second

theorem Reads.satisfies {bytes : List UInt8} {value : α} {P : α → Prop}
    (reads : reader.Reads bytes value) (ensures : reader.Ensures P) : P value := ensures _ _ _ (reads [])

/-- What the reader takes from a stream gives the value whatever follows, and is related to the value. -/
def Takes (reader : Reader α) (P : α → List UInt8 → Prop) : Prop :=
  ∀ stream value rest, reader.run stream = some (value, rest) →
    ∃ bytes, stream = bytes ++ rest ∧ reader.Reads bytes value ∧ P value bytes

theorem takes_pure {value : α} (holds : P value []) : (pure value : Reader α).Takes P := by
  intro stream other rest read
  cases read
  exact ⟨[], rfl, reads_pure value, holds⟩

theorem takes_failure : (failure : Reader α).Takes P := fun _ _ _ read => by cases read

/-- What two parts take is concatenated. -/
theorem Takes.bind {Q : β → List UInt8 → Prop} (head : reader.Takes P) (tail : ∀ value first, P value first →
      (next value).Takes fun result second => Q result (first ++ second)) : (reader >>= next).Takes Q := by
  intro stream result rest read
  rw [StateT.run_bind] at read
  obtain ⟨⟨value, between⟩, front, back⟩ := Option.bind_eq_some_iff.mp read
  obtain ⟨first, rfl, reads, related⟩ := head _ _ _ front
  obtain ⟨second, rfl, more, both⟩ := tail value first related _ _ _ back
  exact ⟨first ++ second, (List.append_assoc ..).symm, reads.bind more, both⟩

theorem Takes.imp {Q : α → List UInt8 → Prop} (takes : reader.Takes P)
    (weaker : ∀ value bytes, P value bytes → Q value bytes) : reader.Takes Q := by
  intro stream value rest read
  obtain ⟨bytes, split, reads, related⟩ := takes _ _ _ read
  exact ⟨bytes, split, reads, weaker _ _ related⟩

theorem Takes.map {Q : β → List UInt8 → Prop} (takes : reader.Takes P)
    (f : α → β) (related : ∀ value bytes, P value bytes → Q (f value) bytes) :
    (do let value ← reader; pure (f value)).Takes Q := by
  refine takes.bind fun value first holds => takes_pure ?_
  rw [List.append_nil]
  exact related value first holds

theorem takes_bytes (n : ℕ) : (bytes n).Takes fun value taken => value = taken ∧ taken.length = n := by
  intro stream value rest read
  simp only [bytes, StateT.run] at read
  split at read
  next enough =>
    cases read
    have length : (stream.take n).length = n := by
      rw [List.length_take]
      omega
    exact ⟨stream.take n, (List.take_append_drop ..).symm, reads_bytes length, rfl, length⟩
  next => cases read

/-- The reader takes these bytes if a condition holds, and rejects them otherwise. -/
structure ReadsIff (reader : Reader α) (bytes : List UInt8) (value : α) (fits : Prop) : Prop where
  reads : fits → reader.Reads bytes value
  fails : ¬ fits → ∀ rest, reader.run (bytes ++ rest) = none

theorem ReadsIff.fits_of_reads {bytes : List UInt8} {value other : α}
    (both : reader.ReadsIff bytes value fits) (reads : reader.Reads bytes other) : fits := by
  by_contra beyond
  have read := reads []
  rw [both.fails beyond] at read
  contradiction

theorem ReadsIff.congr {bytes : List UInt8} {value : α} {fits' : Prop}
    (both : reader.ReadsIff bytes value fits) (same : fits ↔ fits') : reader.ReadsIff bytes value fits' where
  reads holds := both.reads (same.mpr holds)
  fails beyond := both.fails fun holds => beyond (same.mp holds)

theorem Reads.iff_true {bytes : List UInt8} {value : α} (reads : reader.Reads bytes value) :
    reader.ReadsIff bytes value True := ⟨fun _ => reads, fun beyond => absurd trivial beyond⟩

theorem ReadsIff.bind {value : α} {more : Prop} (head : reader.ReadsIff first value fits)
    (tail : (next value).ReadsIff second result more) :
    (reader >>= next).ReadsIff (first ++ second) result (fits ∧ more) where
  reads holds := (head.reads holds.1).bind (tail.reads holds.2)
  fails beyond rest := by
    rw [StateT.run_bind, List.append_assoc]
    by_cases holds : fits
    · rw [head.reads holds]
      exact tail.fails (fun more => beyond ⟨holds, more⟩) rest
    · rw [head.fails holds]
      rfl

/-- What follows a part with a limit needs to be read within the limit only. -/
theorem ReadsIff.bind_reads {value : α} (head : reader.ReadsIff first value fits)
    (tail : fits → (next value).Reads second result) : (reader >>= next).ReadsIff (first ++ second) result fits where
  reads holds := (head.reads holds).bind (tail holds)
  fails beyond rest := by
    rw [StateT.run_bind, List.append_assoc, head.fails beyond]
    rfl

theorem ReadsIff.parse_iff {bytes : List UInt8} {value : α}
    (both : reader.ReadsIff bytes value fits) : reader.parse bytes = some value ↔ fits := by
  refine ⟨fun parsed => ?_, fun holds => (both.reads holds).parse⟩
  by_contra beyond
  have failed := both.fails beyond []
  rw [List.append_nil] at failed
  rw [Reader.parse, failed] at parsed
  cases parsed

theorem ReadsIff.map {value : α} (head : reader.ReadsIff first value fits) (f : α → β) :
    (do let value ← reader; pure (f value)).ReadsIff first (f value) fits where
  reads holds := (head.reads holds).map f
  fails beyond rest := by
    rw [StateT.run_bind, head.fails beyond]
    rfl

/-- Read a given number of values. -/
def many (reader : Reader α) : ℕ → Reader (List α)
  | 0 => pure []
  | n + 1 => do
    let value ← reader
    let values ← many reader n
    return value :: values

/-- Values of which the reader gives what is left after encoding. -/
theorem readsIff_many_map {reader : Reader β} {encode : α → List UInt8} {f : α → β} {fits : α → Prop} {values : List α}
    (each : ∀ value ∈ values, reader.ReadsIff (encode value) (f value) (fits value)) :
    (many reader values.length).ReadsIff (values.flatMap encode) (values.map f) (∀ value ∈ values, fits value) := by
  induction values with
  | nil => exact (reads_pure []).iff_true.congr (by simp)
  | cons value values ih =>
    have tail := ih fun other member => each other (List.mem_cons_of_mem _ member)
    have both : (many reader (values.length + 1)).ReadsIff _ _ _ :=
      (each value (List.mem_cons_self ..)).bind (tail.map fun values => f value :: values)
    exact both.congr (by simp)

theorem readsIff_many {encode : α → List UInt8} {fits : α → Prop} {values : List α}
    (each : ∀ value ∈ values, reader.ReadsIff (encode value) value (fits value)) :
    (many reader values.length).ReadsIff (values.flatMap encode) values (∀ value ∈ values, fits value) := by
  have mapped := readsIff_many_map each
  rwa [List.map_id'] at mapped

/-- Values that are related to what their reader takes one by one. -/
theorem takes_many (takes : reader.Takes P) (n : ℕ) :
    (many reader n).Takes fun values taken => values.length = n ∧ ∃ parts, taken = parts.flatten ∧ List.Forall₂ P values parts := by
  induction n with
  | zero => exact takes_pure ⟨rfl, [], rfl, .nil⟩
  | succ n ih =>
    refine takes.bind fun value first related => ih.map (value :: ·) ?_
    rintro values second ⟨length, parts, rfl, each⟩
    exact ⟨congrArg (· + 1) length, first :: parts, rfl, .cons related each⟩

end Reader

/-! ## Integers of fixed width

The lowest byte comes first; a signed integer is written as its remainder modulo the range of the
type.
-/

namespace LittleEndian

def encode : ℕ → ℕ → List UInt8
  | 0, _ => []
  | width + 1, n => UInt8.ofNat (n % 256) :: encode width (n / 256)

def decode : List UInt8 → ℕ
  | [] => 0
  | byte :: bytes => byte.toNat + 256 * decode bytes

@[simp] theorem length_encode (width n : ℕ) : (encode width n).length = width := by
  induction width generalizing n with
  | zero => rfl
  | succ width ih => rw [encode, List.length_cons, ih]

theorem decode_encode {width n : ℕ} (bound : n < 256 ^ width) : decode (encode width n) = n := by
  induction width generalizing n with
  | zero =>
    rw [pow_zero] at bound
    rw [encode, decode]
    omega
  | succ width ih =>
    rw [pow_succ] at bound
    have byte : (UInt8.ofNat (n % 256)).toNat = n % 256 := by
      rw [UInt8.toNat_ofNat']
      omega
    rw [encode, decode, ih (by omega), byte]
    omega

theorem encode_decode (bytes : List UInt8) : encode bytes.length (decode bytes) = bytes := by
  induction bytes with
  | nil => rfl
  | cons byte bytes ih =>
    have low : (byte.toNat + 256 * decode bytes) % 256 = byte.toNat := by
      have bound := byte.toNat_lt
      omega
    have high : (byte.toNat + 256 * decode bytes) / 256 = decode bytes := by
      omega
    rw [decode, List.length_cons, encode, low, high, ih, UInt8.ofNat_toNat]

theorem decode_lt (bytes : List UInt8) : decode bytes < 256 ^ bytes.length := by
  induction bytes with
  | nil => decide
  | cons byte bytes ih =>
    have bound := byte.toNat_lt
    rw [decode, List.length_cons, pow_succ]
    omega

def read (width : ℕ) : Reader ℕ := do
  let bytes ← Reader.bytes width
  return decode bytes

theorem reads {width n : ℕ} (bound : n < 256 ^ width) : (read width).Reads (encode width n) n := by
  have taken := (Reader.reads_bytes (length_encode width n)).map decode
  rwa [decode_encode bound] at taken

theorem takes_read (width : ℕ) : (read width).Takes fun n bytes => encode width n = bytes ∧ n < 256 ^ width := by
  apply (Reader.takes_bytes width).map decode
  rintro value bytes ⟨rfl, rfl⟩
  exact ⟨encode_decode value, decode_lt value⟩

def encodeInt (width : ℕ) (n : ℤ) : List UInt8 := encode width (n % (256 ^ width : ℕ)).toNat

def readInt (width : ℕ) : Reader ℤ := do
  let n ← read width
  return (n : ℤ).bmod (256 ^ width)

@[simp] theorem length_encodeInt (width : ℕ) (n : ℤ) : (encodeInt width n).length = width := length_encode ..

theorem reads_int {width : ℕ} {n : ℤ} (low : -(256 ^ width : ℕ) ≤ n * 2) (high : n * 2 < (256 ^ width : ℕ)) :
    (readInt width).Reads (encodeInt width n) n := by
  have bound : (n % (256 ^ width : ℕ)).toNat < 256 ^ width := by omega
  have value : (((n % (256 ^ width : ℕ)).toNat : ℕ) : ℤ).bmod (256 ^ width) = n := by
    rw [Int.toNat_of_nonneg (by omega), Int.emod_bmod, Int.bmod_eq_of_le_mul_two low high]
  have taken := (reads bound).map fun n : ℕ => (n : ℤ).bmod (256 ^ width)
  rwa [value] at taken

theorem takes_readInt (width : ℕ) : (readInt width).Takes fun n bytes => encodeInt width n = bytes := by
  apply (takes_read width).map (fun n : ℕ => (n : ℤ).bmod (256 ^ width))
  rintro n bytes ⟨encoded, bound⟩
  have same : ((n : ℤ).bmod (256 ^ width) % (256 ^ width : ℕ)).toNat = n := by
    rw [Int.bmod_emod, Int.emod_eq_of_lt (by omega) (by exact_mod_cast bound), Int.toNat_natCast]
  rw [encodeInt, same, encoded]

end LittleEndian
