import Mathlib.Order.Iterate

open Function

/-! # Base 64

Three bytes are written as four digits of six bits, and the last group is padded. The text is read back up to the
first character that is no digit; what is left of a group gives the bytes it has in full. So the start of a text shows the
start of the bytes, whatever follows.
-/

/-- The digits of a base 64 text and the character it is padded with. -/
structure Base64 where
  digit : ℕ → UInt8
  value : UInt8 → Option ℕ
  pad : UInt8
  value_digit : ∀ n < 64, value (digit n) = some n
  digit_value : ∀ c n, value c = some n → n < 64 ∧ digit n = c
  value_pad : value pad = none

namespace Base64

variable (code : Base64)

def encode : List UInt8 → List UInt8
  | a :: b :: c :: rest =>
    code.digit (a.toNat / 4) :: code.digit (a.toNat % 4 * 16 + b.toNat / 16) ::
      code.digit (b.toNat % 16 * 4 + c.toNat / 64) :: code.digit (c.toNat % 64) :: encode rest
  | [a, b] =>
    [code.digit (a.toNat / 4), code.digit (a.toNat % 4 * 16 + b.toNat / 16), code.digit (b.toNat % 16 * 4), code.pad]
  | [a] => [code.digit (a.toNat / 4), code.digit (a.toNat % 4 * 16), code.pad, code.pad]
  | [] => []

/-- The values of the digits a text starts with. -/
def values : List UInt8 → List ℕ
  | [] => []
  | c :: text =>
    match code.value c with
    | none => []
    | some n => n :: values text

/-- The bytes that values of six bits make up. -/
def bytes : List ℕ → List UInt8
  | w :: x :: y :: z :: rest =>
    UInt8.ofNat (w * 4 + x / 16) :: UInt8.ofNat (x % 16 * 16 + y / 4) :: UInt8.ofNat (y % 4 * 64 + z) :: bytes rest
  | [w, x, y] => [UInt8.ofNat (w * 4 + x / 16), UInt8.ofNat (x % 16 * 16 + y / 4)]
  | [w, x] => [UInt8.ofNat (w * 4 + x / 16)]
  | _ => []

def decode (text : List UInt8) : List UInt8 := bytes (code.values text)

variable {code}

theorem values_cons {c : UInt8} {n : ℕ} (found : code.value c = some n) (text : List UInt8) :
    code.values (c :: text) = n :: code.values text := by
  rw [values, found]

variable {n : ℕ} {digits : List ℕ} {j : ℕ} {data : List UInt8} {k : ℕ} {text : List UInt8}

theorem values_digit (small : n < 64) (text : List UInt8) :
    code.values (code.digit n :: text) = n :: code.values text := values_cons (code.value_digit n small) text

theorem values_stop {c : UInt8} (found : code.value c = none) (text : List UInt8) : code.values (c :: text) = [] := by
  rw [values, found]

theorem values_pad (text : List UInt8) : code.values (code.pad :: text) = [] := values_stop code.value_pad text

theorem values_digits (small : ∀ n ∈ digits, n < 64) (text : List UInt8) :
    code.values (digits.map code.digit ++ text) = digits ++ code.values text := by
  induction digits with
  | nil => rfl
  | cons n digits ih =>
    obtain ⟨first, small⟩ := List.forall_mem_cons.mp small
    rw [List.map_cons, List.cons_append, values_digit first, ih small, List.cons_append]

private theorem ofNat_eq {a : UInt8} (same : n = a.toNat) : UInt8.ofNat n = a := by
  rw [same, UInt8.ofNat_toNat]

theorem decode_encode (data : List UInt8) : code.decode (code.encode data) = data := by
  unfold decode
  induction data using encode.induct with
  | case1 a b c rest ih =>
    have := a.toNat_lt
    have := b.toNat_lt
    have := c.toNat_lt
    rw [encode, values_digit (by omega), values_digit (by omega), values_digit (by omega), values_digit (by omega), bytes,
      ih, ofNat_eq (a := a) (by omega), ofNat_eq (a := b) (by omega), ofNat_eq (a := c) (by omega)]
  | case2 a b =>
    have := a.toNat_lt
    have := b.toNat_lt
    rw [encode, values_digit (by omega), values_digit (by omega), values_digit (by omega), values_pad, bytes,
      ofNat_eq (a := a) (by omega), ofNat_eq (a := b) (by omega)]
  | case3 a =>
    have := a.toNat_lt
    rw [encode, values_digit (by omega), values_digit (by omega), values_pad, bytes, ofNat_eq (a := a) (by omega)]
  | case4 => rfl

/-- A text is its digits and some padding. -/
theorem encode_eq_digits (data : List UInt8) : ∃ (digits : List ℕ) (j : ℕ),
    code.encode data = digits.map code.digit ++ List.replicate j code.pad ∧ (∀ n ∈ digits, n < 64) ∧
      digits.length = (4 * data.length + 2) / 3 := by
  induction data using encode.induct with
  | case1 a b c rest ih =>
    have := a.toNat_lt
    have := b.toNat_lt
    have := c.toNat_lt
    obtain ⟨digits, j, same, small, length⟩ := ih
    refine ⟨a.toNat / 4 :: (a.toNat % 4 * 16 + b.toNat / 16) :: (b.toNat % 16 * 4 + c.toNat / 64) :: c.toNat % 64 :: digits,
      j, ?_, ?_, ?_⟩
    · rw [encode, same]
      rfl
    · simp only [List.forall_mem_cons]
      exact ⟨by omega, by omega, by omega, by omega, small⟩
    · simp only [List.length_cons, length]
      omega
  | case2 a b =>
    have := a.toNat_lt
    have := b.toNat_lt
    refine ⟨[a.toNat / 4, a.toNat % 4 * 16 + b.toNat / 16, b.toNat % 16 * 4], 1, rfl, ?_, by simp⟩
    simp only [List.forall_mem_cons]
    exact ⟨by omega, by omega, by omega, nofun⟩
  | case3 a =>
    have := a.toNat_lt
    refine ⟨[a.toNat / 4, a.toNat % 4 * 16], 2, rfl, ?_, by simp⟩
    simp only [List.forall_mem_cons]
    exact ⟨by omega, by omega, nofun⟩
  | case4 => exact ⟨[], 0, rfl, nofun, rfl⟩

/-- The values of a text are its digits. -/
theorem values_encode (small : ∀ n ∈ digits, n < 64) :
    code.values (digits.map code.digit ++ List.replicate j code.pad) = digits := by
  have empty : code.values (List.replicate j code.pad) = [] := by
    cases j with
    | zero => rfl
    | succ j => exact values_pad _
  rw [values_digits small, empty, List.append_nil]

/-- The digits of a text are read back to the bytes. -/
theorem exists_digits (data : List UInt8) : ∃ (digits : List ℕ) (j : ℕ),
    code.encode data = digits.map code.digit ++ List.replicate j code.pad ∧ (∀ n ∈ digits, n < 64) ∧
      digits.length = (4 * data.length + 2) / 3 ∧ code.values (code.encode data) = digits ∧ bytes digits = data := by
  obtain ⟨digits, j, written, small, length⟩ := @encode_eq_digits code data
  have values : code.values (code.encode data) = digits := by rw [written, values_encode small]
  refine ⟨digits, j, written, small, length, values, ?_⟩
  rw [← values]
  exact decode_encode data

theorem mem_encode {c : UInt8} (member : c ∈ code.encode data) : (∃ n < 64, c = code.digit n) ∨ c = code.pad := by
  obtain ⟨digits, j, written, small, -⟩ := @encode_eq_digits code data
  rw [written, List.mem_append, List.mem_map] at member
  rcases member with ⟨n, inside, rfl⟩ | padding
  · exact .inl ⟨n, small n inside, rfl⟩
  · exact .inr (List.eq_of_mem_replicate padding)

/-- The length of the text for so many bytes. -/
def size (n : ℕ) : ℕ := 4 * ((n + 2) / 3)

theorem length_encode (data : List UInt8) : (code.encode data).length = size data.length := by
  unfold size
  induction data using encode.induct with
  | case1 a b c rest ih =>
    simp only [encode, List.length_cons, ih]
    omega
  | case2 a b => simp only [encode, List.length_cons, List.length_nil, Nat.reduceAdd, Nat.reduceDiv, Nat.reduceMul]
  | case3 a => simp only [encode, List.length_cons, List.length_nil, Nat.reduceAdd, Nat.reduceDiv, Nat.reduceMul]
  | case4 => rfl

theorem le_size (n : ℕ) : n ≤ size n := by
  unfold size
  omega

theorem length_iterate_encode (data : List UInt8) (j : ℕ) : (code.encode^[j] data).length = size^[j] data.length :=
  Function.Semiconj.iterate_right length_encode j data

theorem decode_iterate_encode (data : List UInt8) (j : ℕ) : code.decode^[j] (code.encode^[j] data) = data :=
  Function.LeftInverse.iterate decode_encode j data

theorem length_values_le (text : List UInt8) : (code.values text).length ≤ text.length := by
  induction text with
  | nil => exact Nat.le_refl 0
  | cons c text ih =>
    rw [values]
    split
    · exact Nat.zero_le _
    · exact Nat.succ_le_succ ih

theorem length_bytes (values : List ℕ) : (bytes values).length = 3 * values.length / 4 := by
  induction values using bytes.induct with
  | case1 w x y z rest ih =>
    simp only [bytes, List.length_cons]
    omega
  | case2 w x y => simp [bytes]
  | case3 w x => simp [bytes]
  | case4 values others one two =>
    rcases values with _ | ⟨w, _ | ⟨x, _ | ⟨y, _ | ⟨z, rest⟩⟩⟩⟩
    · rfl
    · simp [bytes]
    · exact absurd rfl (two w x)
    · exact absurd rfl (one w x y)
    · exact absurd rfl (others w x y z rest)

/-- A text has at most three bytes for four characters. -/
theorem length_decode_le (text : List UInt8) : (code.decode text).length ≤ text.length := by
  have digits := @length_values_le code text
  rw [decode, length_bytes]
  omega

/-! ## What the start of a text shows -/

variable {α : Type}

/-- The first entries are the same, and so is the end if it is reached. -/
def Shows (k : ℕ) (l l' : List α) : Prop := l.take k <+: l' ∧ (l.length < k → l' = l)

theorem Shows.refl (k : ℕ) (l : List α) : Shows k l l := ⟨List.take_prefix .., fun _ => rfl⟩

theorem shows_zero (l l' : List α) : Shows 0 l l' := ⟨List.nil_prefix, fun negative => absurd negative (Nat.not_lt_zero _)⟩

theorem Shows.cons {k : ℕ} {l l' : List α} (shows : Shows k l l') (a : α) : Shows (k + 1) (a :: l) (a :: l') :=
  ⟨List.cons_prefix_cons.mpr ⟨rfl, shows.1⟩, fun less => congrArg _ (shows.2 (Nat.lt_of_succ_lt_succ less))⟩

theorem Shows.of_cons {a : α} {l l' : List α} (shows : Shows (k + 1) (a :: l) l') :
    ∃ rest, l' = a :: rest ∧ Shows k l rest := by
  obtain ⟨⟨after, rfl⟩, ends⟩ := shows
  exact ⟨_, rfl, List.prefix_append .., fun less => List.tail_eq_of_cons_eq (ends (Nat.succ_lt_succ less))⟩

theorem shows_filter {l : List α} {keep : α → Bool} (kept : ∀ a ∈ l.take k, keep a = true) :
    Shows k l (l.filter keep) := by
  constructor
  · conv_rhs => rw [← List.take_append_drop k l, List.filter_append, List.filter_eq_self.mpr kept]
    exact List.prefix_append ..
  · intro less
    rw [List.take_of_length_le less.le] at kept
    exact List.filter_eq_self.mpr kept

theorem Shows.values {text' : List UInt8} (shows : Shows k text text') :
    Shows k (code.values text) (code.values text') := by
  induction text generalizing k text' with
  | nil =>
    cases k with
    | zero => exact shows_zero ..
    | succ k =>
      rw [shows.2 (Nat.succ_pos k)]
      exact .refl ..
  | cons c text ih =>
    cases k with
    | zero => exact shows_zero ..
    | succ k =>
      obtain ⟨rest, rfl, more⟩ := shows.of_cons
      cases found : code.value c with
      | none =>
        rw [values_stop found, values_stop found]
        exact .refl ..
      | some n =>
        rw [values_cons found, values_cons found]
        exact (ih more).cons n

theorem bytes_prefix (digits more : List ℕ) : bytes digits <+: bytes (digits ++ more) := by
  induction digits using bytes.induct with
  | case1 w x y z rest ih =>
    obtain ⟨after, same⟩ := ih
    exact ⟨after, by rw [bytes, List.cons_append, List.cons_append, List.cons_append, same]; rfl⟩
  | case2 w x y =>
    cases more with
    | nil => exact List.prefix_rfl
    | cons z more => exact List.prefix_append [_, _] _
  | case3 w x =>
    rcases more with _ | ⟨y, _ | ⟨z, more⟩⟩
    · exact List.prefix_rfl
    · exact List.prefix_append [_] _
    · exact List.prefix_append [_] _
  | case4 digits others one two =>
    rw [bytes]
    · exact List.nil_prefix
    all_goals assumption

/-- Four digits show three bytes. -/
theorem Shows.bytes {digits' : List ℕ} (shows : Shows j digits digits')
    (enough : 4 * k ≤ 3 * j ∨ digits.length < j) : Shows k (bytes digits) (bytes digits') := by
  by_cases whole : digits.length < j
  · rw [shows.2 whole]
    exact .refl ..
  obtain ⟨more, same⟩ := shows.1
  have start := bytes_prefix (digits.take j) (digits.drop j)
  have start' := bytes_prefix (digits.take j) more
  rw [List.take_append_drop] at start
  rw [same] at start'
  have count := length_bytes (digits.take j)
  have total := length_bytes digits
  rw [List.length_take] at count
  refine ⟨?_, fun less => by omega⟩
  have taken : (Base64.bytes digits).take k = (Base64.bytes (digits.take j)).take k := by
    obtain ⟨rest, whole⟩ := start
    rw [← whole, List.take_append_of_le_length (by omega)]
  rw [taken]
  exact (List.take_prefix ..).trans start'

/-- The digits that bytes show in full. -/
def sextets : List UInt8 → List ℕ
  | a :: b :: c :: rest =>
    a.toNat / 4 :: (a.toNat % 4 * 16 + b.toNat / 16) :: (b.toNat % 16 * 4 + c.toNat / 64) :: c.toNat % 64 :: sextets rest
  | [a, b] => [a.toNat / 4, a.toNat % 4 * 16 + b.toNat / 16]
  | [a] => [a.toNat / 4]
  | [] => []

theorem length_sextets (data : List UInt8) : (sextets data).length = 4 * data.length / 3 := by
  induction data using sextets.induct with
  | case1 a b c rest ih =>
    simp only [sextets, List.length_cons]
    omega
  | case2 a b => simp [sextets]
  | case3 a => simp [sextets]
  | case4 => rfl

theorem sextets_prefix (data more : List UInt8) : sextets data <+: sextets (data ++ more) := by
  induction data using sextets.induct with
  | case1 a b c rest ih =>
    obtain ⟨after, same⟩ := ih
    exact ⟨after, by rw [sextets, List.cons_append, List.cons_append, List.cons_append, List.cons_append, same]; rfl⟩
  | case2 a b =>
    cases more with
    | nil => exact List.prefix_rfl
    | cons c more => exact List.prefix_append [_, _] _
  | case3 a =>
    rcases more with _ | ⟨b, _ | ⟨c, more⟩⟩
    · exact List.prefix_rfl
    · exact List.prefix_append [_] _
    · exact List.prefix_append [_] _
  | case4 => exact List.nil_prefix

private theorem toNat_ofNat : (UInt8.ofNat n).toNat = n % 256 := UInt8.toNat_ofNat'

theorem sextets_bytes (small : ∀ n ∈ digits, n < 64) : sextets (bytes digits) <+: digits := by
  induction digits using bytes.induct with
  | case1 w x y z rest ih =>
    simp only [List.forall_mem_cons] at small
    obtain ⟨w64, x64, y64, z64, small⟩ := small
    rw [bytes, sextets]
    simp only [toNat_ofNat, List.cons_prefix_cons]
    exact ⟨by omega, by omega, by omega, by omega, ih small⟩
  | case2 w x y =>
    simp only [List.forall_mem_cons] at small
    rw [bytes, sextets]
    simp only [toNat_ofNat, List.cons_prefix_cons]
    exact ⟨by omega, by omega, List.nil_prefix⟩
  | case3 w x =>
    simp only [List.forall_mem_cons] at small
    rw [bytes, sextets]
    simp only [toNat_ofNat, List.cons_prefix_cons]
    exact ⟨by omega, List.nil_prefix⟩
  | case4 digits others one two =>
    rw [bytes]
    · exact List.nil_prefix
    all_goals assumption

/-- Three bytes show four digits. -/
theorem prefix_of_bytes {digits' : List ℕ} (small : ∀ n ∈ digits, n < 64) (small' : ∀ n ∈ digits', n < 64)
    (inside : k ≤ (bytes digits).length) (same : (bytes digits).take k <+: bytes digits') :
    digits.take (4 * k / 3) <+: digits' := by
  have shown : sextets ((bytes digits).take k) <+: digits := by
    have start := sextets_prefix ((bytes digits).take k) ((bytes digits).drop k)
    rw [List.take_append_drop] at start
    exact start.trans (sextets_bytes small)
  have whole : sextets ((bytes digits).take k) = digits.take (4 * k / 3) := by
    rw [List.prefix_iff_eq_take.mp shown, length_sextets, List.length_take, Nat.min_eq_left inside]
  obtain ⟨more, same⟩ := same
  have start := sextets_prefix ((bytes digits).take k) more
  rw [same, whole] at start
  exact start.trans (sextets_bytes small')

theorem values_lt (text : List UInt8) : ∀ n ∈ code.values text, n < 64 := by
  induction text with
  | nil => exact nofun
  | cons c text ih =>
    cases found : code.value c with
    | none =>
      rw [values_stop found]
      exact nofun
    | some n =>
      rw [values_cons found, List.forall_mem_cons]
      exact ⟨(code.digit_value c n found).1, ih⟩

/-- The values a text starts with, in its digits. -/
theorem digits_start (text : List UInt8) : (code.values text).map code.digit <+: text := by
  induction text with
  | nil => exact List.prefix_rfl
  | cons c text ih =>
    cases found : code.value c with
    | none =>
      rw [values_stop found]
      exact List.nil_prefix
    | some n =>
      rw [values_cons found, List.map_cons, List.cons_prefix_cons]
      exact ⟨(code.digit_value c n found).2, ih⟩

/-- What is read of the start of a text shows its start. -/
theorem prefix_of_decode (inside : k ≤ data.length)
    (same : data.take k <+: code.decode text) : (code.encode data).take (4 * k / 3) <+: text := by
  obtain ⟨digits, j, written, small, length, -, read⟩ := @exists_digits code data
  rw [decode] at same
  have shown := prefix_of_bytes small (values_lt text) (read.symm ▸ inside) (read.symm ▸ same)
  rw [written, List.take_append_of_le_length (by rw [List.length_map]; omega), ← List.map_take]
  exact (shown.map code.digit).trans (digits_start text)

/-- How much of a text shows the first `k` of `m` bytes, or all of them and their end. -/
def needed (m k : ℕ) : ℕ := min ((4 * k + 2) / 3) ((4 * m + 2) / 3 + 1)

theorem Shows.decode (shows : Shows (needed data.length k) (code.values (code.encode data)) (code.values text)) :
    Shows k data (code.decode text) := by
  obtain ⟨digits, -, -, -, length, values, read⟩ := @exists_digits code data
  rw [values] at shows
  have shown := shows.bytes (k := k) (by unfold needed; omega)
  rwa [read] at shown

/-- The length of a text and how much of it shows what is needed of the bytes. -/
def layer (part : ℕ × ℕ) : ℕ × ℕ := (size part.1, needed part.1 part.2)

theorem layer_fst (part : ℕ × ℕ) (j : ℕ) : (layer^[j] part).1 = size^[j] part.1 := by
  have same : Function.Semiconj Prod.fst layer size := fun _ => rfl
  exact same.iterate_right j part

/-- A text that was encoded more than once. -/
theorem Shows.decode_iterate
    (shows : Shows (layer^[j] (data.length, k)).2 (code.encode^[j] data) text) : Shows k data (code.decode^[j] text) := by
  induction j generalizing text with
  | zero => exact shows
  | succ j ih =>
    rw [iterate_succ_apply', iterate_succ_apply', layer, layer_fst, ← length_iterate_encode] at shows
    rw [iterate_succ_apply]
    exact ih shows.values.decode

/-- How much of a text so many of its bytes fix. -/
def fixed (k : ℕ) : ℕ := 4 * k / 3

theorem fixed_iterate_le {m : ℕ} (inside : k ≤ m) (j : ℕ) : fixed^[j] k ≤ size^[j] m := by
  have grows : Monotone fixed := fun _ _ le => Nat.div_le_div_right (Nat.mul_le_mul_left 4 le)
  have less : fixed ≤ size := by
    intro n
    show 4 * n / 3 ≤ 4 * ((n + 2) / 3)
    omega
  exact (grows.iterate j inside).trans (grows.iterate_le_of_le less j m)

theorem prefix_of_decode_iterate (inside : k ≤ data.length)
    (same : data.take k <+: code.decode^[j] text) : (code.encode^[j] data).take (fixed^[j] k) <+: text := by
  induction j generalizing text with
  | zero => exact same
  | succ j ih =>
    rw [iterate_succ_apply] at same
    have bound : fixed^[j] k ≤ (code.encode^[j] data).length := by
      rw [length_iterate_encode]
      exact fixed_iterate_le inside j
    rw [iterate_succ_apply', iterate_succ_apply']
    exact prefix_of_decode bound (ih same)

end Base64
