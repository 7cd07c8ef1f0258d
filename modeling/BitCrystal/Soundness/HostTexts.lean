import BitCrystal.Machine.Glob
import BitCrystal.Model.HostText

/-! # Texts of hosts

The mask of an address decides by a language, and the port of a host is what stands behind its last colon.
-/

/-! ## `WildcardMatch` decides the language of the mask

The strings end in a NUL with any memory behind it, or none. The induction is on the mask, and on the string where a
star stands.
-/

namespace BitCrystal

open Decimal

namespace WildcardMatch

open Glob

def token (m : UInt8) : Token UInt8 :=
  if m = starChar then .star else if m = questionChar then .one else .letter m

variable {m c : UInt8} {mask after psz : List UInt8}

theorem wildcardMatch_end (psz after : List UInt8) :
    wildcardMatch psz (0 :: after) = (assertSome .undefined psz.head?).map fun c => decide (c = 0) := by
  rw [wildcardMatch.eq_def]
  cases psz <;> rfl

theorem wildcardMatch_star_end :
    wildcardMatch (0 :: psz) (starChar :: mask) =
      (do if ← wildcardMatch (0 :: psz) mask then return true else return false) := by
  rw [wildcardMatch, if_neg (by decide), if_pos rfl]
  rfl

theorem wildcardMatch_star_cons (text : c ≠ 0) : wildcardMatch (c :: psz) (starChar :: mask) =
      (do if ← wildcardMatch (c :: psz) mask then return true else wildcardMatch psz (starChar :: mask)) := by
  rw [wildcardMatch, if_neg (by decide), if_pos rfl]
  simp only [if_neg text]

/-- The end of the string is no character that anything else stands for. -/
theorem wildcardMatch_stop (pattern : m ≠ 0) (fixed : m ≠ starChar) :
    wildcardMatch (0 :: psz) (m :: mask) = .ok false := by
  rw [wildcardMatch, if_neg pattern, if_neg fixed, if_pos rfl, if_pos pattern.symm]
  exact ite_self _

theorem wildcardMatch_question (text : c ≠ 0) :
    wildcardMatch (c :: psz) (questionChar :: mask) = wildcardMatch psz mask := by
  rw [wildcardMatch, if_neg (by decide), if_neg (by decide), if_pos rfl, if_neg text]

theorem wildcardMatch_letter (pattern : m ≠ 0) (fixed : m ≠ starChar) (letter : m ≠ questionChar) :
    wildcardMatch (c :: psz) (m :: mask) = if c ≠ m then .ok false else wildcardMatch psz mask := by
  rw [wildcardMatch, if_neg pattern, if_neg fixed, if_neg letter]
  rfl

/-- The function returns, and what it returns is the membership. -/
def Decides (result : Check Bool) (member : Prop) : Prop := ∃ b, result = .ok b ∧ (b = true ↔ member)

variable {p : Prop}

theorem Decides.of_iff {result : Check Bool} {q : Prop} (decides : Decides result p) (same : p ↔ q) :
    Decides result q := by
  obtain ⟨b, returned, iff⟩ := decides
  exact ⟨b, returned, iff.trans same⟩

theorem decides_false (not : ¬ p) : Decides (.ok false) p :=
  ⟨false, rfl, ⟨nofun, fun holds => absurd holds not⟩⟩

theorem Decides.or {first second : Check Bool} {q : Prop} (here : Decides first p) (later : Decides second q) :
    Decides (do if ← first then return true else second) (p ∨ q) := by
  obtain ⟨b, rfl, iff⟩ := here
  cases b with
  | true => exact ⟨true, rfl, ⟨fun _ => .inl (iff.mp rfl), fun _ => rfl⟩⟩
  | false =>
    have missed : ¬ p := fun holds => Bool.false_ne_true (iff.mpr holds)
    obtain ⟨b, rfl, iff'⟩ := later
    exact ⟨b, rfl, iff'.trans (or_iff_right missed).symm⟩

private theorem decides_star {mask' : List UInt8} {pattern : List (Token UInt8)} (behind : List UInt8)
    (rest : ∀ str : List UInt8, 0 ∉ str → Decides (wildcardMatch (str ++ 0 :: behind) mask') (str ∈ language pattern))
    (str : List UInt8) (text : 0 ∉ str) :
    Decides (wildcardMatch (str ++ 0 :: behind) (starChar :: mask')) (str ∈ language (.star :: pattern)) := by
  induction str with
  | nil =>
    rw [List.nil_append, wildcardMatch_star_end]
    have here := (rest [] text).or (decides_false id)
    apply here.of_iff
    rw [or_false, nil_mem_star]
  | cons c str ih =>
    obtain ⟨first, others⟩ := List.ne_and_not_mem_of_not_mem_cons text
    rw [List.cons_append, wildcardMatch_star_cons (Ne.symm first)]
    have either := (rest (c :: str) text).or (ih others)
    apply either.of_iff
    rw [cons_mem_star]

private theorem decides_mask (behind after : List UInt8) {mask : List UInt8} (pattern : 0 ∉ mask) {str : List UInt8}
    (text : 0 ∉ str) :
    Decides (wildcardMatch (str ++ 0 :: behind) (mask ++ 0 :: after)) (str ∈ language (mask.map token)) := by
  induction mask generalizing str with
  | nil =>
    rw [List.nil_append, wildcardMatch_end, List.map_nil]
    cases str with
    | nil => exact ⟨true, rfl, by rw [mem_nil]; exact ⟨fun _ => rfl, fun _ => rfl⟩⟩
    | cons c str =>
      have first : c ≠ 0 := fun zero => text (zero ▸ List.mem_cons_self)
      refine ⟨decide (c = 0), rfl, ?_⟩
      rw [decide_eq_true_eq, mem_nil]
      exact ⟨fun zero => absurd zero first, fun empty => by cases empty⟩
  | cons m mask ih =>
    obtain ⟨proper, others⟩ := List.ne_and_not_mem_of_not_mem_cons pattern
    rw [List.cons_append, List.map_cons]
    by_cases star : m = starChar
    · subst star
      exact decides_star behind (fun str text => ih others text) str text
    by_cases question : m = questionChar
    · subst question
      cases str with
      | nil =>
        rw [List.nil_append, wildcardMatch_stop (by decide) (by decide)]
        exact decides_false nil_notMem_one
      | cons c str =>
        obtain ⟨first, short⟩ := List.ne_and_not_mem_of_not_mem_cons text
        rw [List.cons_append, wildcardMatch_question (Ne.symm first)]
        exact (ih others short).of_iff cons_mem_one.symm
    · have letter : token m = .letter m := by rw [token, if_neg star, if_neg question]
      rw [letter]
      cases str with
      | nil =>
        rw [List.nil_append, wildcardMatch_stop (Ne.symm proper) star]
        exact decides_false nil_notMem_letter
      | cons c str =>
        obtain ⟨-, short⟩ := List.ne_and_not_mem_of_not_mem_cons text
        rw [List.cons_append, wildcardMatch_letter (Ne.symm proper) star question]
        split_ifs with differs
        · exact decides_false fun member => differs (cons_mem_letter.mp member).1
        · apply (ih others short).of_iff
          rw [cons_mem_letter, and_iff_right (not_not.mp differs)]

end WildcardMatch

open WildcardMatch in
/-- On every string and mask, `WildcardMatch` returns, without a read behind their ends, whether the mask matches. -/
theorem wildcardMatch_iff {str mask : List UInt8} (behind after : List UInt8) (text : 0 ∉ str) (pattern : 0 ∉ mask) :
    ∃ matched, wildcardMatch (str ++ 0 :: behind) (mask ++ 0 :: after) = .ok matched ∧
      (matched = true ↔ str ∈ Glob.language (mask.map token)) :=
  decides_mask behind after pattern text

open WildcardMatch in
/-- `a*b?` on `aabbc`, where the star has to take the first `b`. -/
theorem wildcardMatch_star : ∃ matched,
    wildcardMatch [97, 97, 98, 98, 99, 0] [97, starChar, 98, questionChar, 0] = .ok matched ∧
      (matched = true ↔ [97, 97, 98, 98, 99] ∈ Glob.language ([97, starChar, 98, questionChar].map token)) :=
  @wildcardMatch_iff [97, 97, 98, 98, 99] [97, starChar, 98, questionChar] [] [] (by decide) (by decide)

/-! ## `SplitHostPort` takes the port off a text

The separator, the number behind it and the host in front of it are looked at apart. `strtol` skips white space and
takes a sign, and what it returns is cut to an `int`, so there are texts that are no port and are read as one.
-/

namespace SplitHostPort

/-- A text in brackets. -/
def Enclosed (front : List UInt8) : Prop := ∃ inner, front = openBracket :: (inner ++ [closeBracket])

/-- The last colon of the text separates two parts. -/
structure Separated (text front after : List UInt8) : Prop where
  whole : text = front ++ colonChar :: after
  last : colonChar ∉ after
  separates : colonChar ∉ front ∨ front = [] ∨ Enclosed front

/-- Nothing but decimal digits, of a value that a port has. -/
structure IsPort (after : List UInt8) (p : ℕ) : Prop where
  digits : ∀ c ∈ after, isdigit c
  value : Decimal.value after = p
  pos : 1 ≤ p
  bound : p ≤ 65535

/-- The port is what stands behind the separator, and is left alone where there is none. -/
def SetsPort (text : List UInt8) : Prop :=
  ∀ portOut : ℤ,
    (∀ front after p, Separated text front after → IsPort after p → (splitHostPort text portOut).1 = p) ∧
    ((¬ ∃ front after p, Separated text front after ∧ IsPort after p) → (splitHostPort text portOut).1 = portOut)

/-- White space, a sign and digits. -/
inductive Signed : List UInt8 → ℤ → Prop
  | digits {digits : List UInt8} : digits ≠ [] → (∀ c ∈ digits, isdigit c) → Signed digits (Decimal.value digits)
  | plus {digits : List UInt8} : digits ≠ [] → (∀ c ∈ digits, isdigit c) →
      Signed (plusChar :: digits) (Decimal.value digits)
  | minus {digits : List UInt8} : digits ≠ [] → (∀ c ∈ digits, isdigit c) →
      Signed (minusChar :: digits) (-Decimal.value digits)
  | blank {c : UInt8} {text : List UInt8} {v : ℤ} : isspace c → Signed text v → Signed (c :: text) v

/-- A number of the type `long` whose last 32 bits are a port. -/
def CutsToPort (v : ℤ) : Prop := -2 ^ 63 ≤ v ∧ v < 2 ^ 63 ∧ 1 ≤ v % 2 ^ 32 ∧ v % 2 ^ 32 ≤ 65535

/-- What stands behind the separator is no port, and is read as one. -/
def Misread (text : List UInt8) : Prop :=
  ∃ front after v, Separated text front after ∧ Signed after v ∧ CutsToPort v ∧ ¬ IsPort after v.toNat

variable {text front after : List UInt8} {portOut v : ℤ}

/-- The bounds of the type `long`. -/
def clamp (v : ℤ) : ℤ := max (min v (2 ^ 63 - 1)) (-2 ^ 63)

/-- The port in a number is the same with and without the bounds. -/
theorem clamp_bmod_pos : 0 < (clamp v).bmod (2 ^ 32) ∧ (clamp v).bmod (2 ^ 32) < 0x10000 ↔ CutsToPort v := by
  unfold clamp CutsToPort
  rw [Int.bmod_def]
  split_ifs <;> omega

theorem clamp_bmod_eq (cuts : CutsToPort v) : (clamp v).bmod (2 ^ 32) = v % 2 ^ 32 := by
  unfold CutsToPort at cuts
  unfold clamp
  rw [Int.bmod_def]
  split_ifs <;> omega

variable {c : UInt8} {digits : List UInt8} {p : ℕ} {host : List UInt8}

theorem isspace_of_isdigit (digit : isdigit c) : ¬ isspace c := by
  have range := isDigit_iff.mp digit
  rw [isspace, decide_eq_true_eq, not_or, not_and_or]
  refine ⟨fun space => ?_, .inr fun tab => ?_⟩
  · subst space
    exact absurd range.1 (by decide)
  · have small := UInt8.le_iff_toNat_le.mp tab
    exact absurd (range.1.trans small) (by decide)

theorem ne_sign_of_isdigit (digit : isdigit c) : c ≠ minusChar ∧ c ≠ plusChar :=
  ⟨fun minus => absurd (minus ▸ digit) (by decide), fun plus => absurd (plus ▸ digit) (by decide)⟩

theorem readLong_digits (str : List UInt8) (nonempty : digits ≠ []) (all : ∀ c ∈ digits, isdigit c)
    (number : ℕ → ℤ) : readLong str digits number = (number (Decimal.value digits), []) := by
  rw [readLong, List.takeWhile_eq_self_iff.mpr all, if_neg nonempty, List.dropWhile_eq_nil_iff.mpr all]

theorem readLong_end {str : List UInt8} {number : ℕ → ℤ} (ends : (readLong str digits number).2 = []) :
    str = [] ∨ digits ≠ [] ∧ ∀ c ∈ digits, isdigit c := by
  unfold readLong at ends
  split at ends
  next nothing => exact .inl ends
  next something =>
    refine .inr ⟨fun empty => something (by rw [empty]; rfl), ?_⟩
    exact List.dropWhile_eq_nil_iff.mp ends

theorem strtolFrom_digits (str : List UInt8) (nonempty : digits ≠ []) (all : ∀ c ∈ digits, isdigit c) :
    strtolFrom str digits = readLong str digits fun magnitude => min magnitude (2 ^ 63 - 1) := by
  cases digits with
  | nil => exact absurd rfl nonempty
  | cons c digits =>
    have sign := ne_sign_of_isdigit (all c List.mem_cons_self)
    exact strtolFrom.eq_3 _ _ (fun _ minus => sign.1 (List.cons.inj minus).1) fun _ plus => sign.2 (List.cons.inj plus).1

theorem strtolFrom_plus (str digits : List UInt8) :
    strtolFrom str (plusChar :: digits) = readLong str digits fun magnitude => min magnitude (2 ^ 63 - 1) :=
  strtolFrom.eq_2 ..

theorem strtolFrom_minus (str digits : List UInt8) :
    strtolFrom str (minusChar :: digits) = readLong str digits fun magnitude => max (-magnitude) (-2 ^ 63) :=
  strtolFrom.eq_1 ..

theorem strtolFrom_signed (str : List UInt8) (signed : Signed text v) :
    strtolFrom str (text.dropWhile isspace) = (clamp v, []) := by
  induction signed with
  | @digits digits nonempty all =>
    have unspaced : digits.dropWhile isspace = digits := by
      cases digits with
      | nil => rfl
      | cons c digits => exact List.dropWhile_cons_of_neg (isspace_of_isdigit (all c List.mem_cons_self))
    rw [unspaced, strtolFrom_digits str nonempty all, readLong_digits str nonempty all]
    congr 1
    unfold clamp
    omega
  | @plus digits nonempty all =>
    rw [List.dropWhile_cons_of_neg (by decide), strtolFrom_plus, readLong_digits str nonempty all]
    congr 1
    unfold clamp
    omega
  | @minus digits nonempty all =>
    rw [List.dropWhile_cons_of_neg (by decide), strtolFrom_minus, readLong_digits str nonempty all]
    congr 1
    unfold clamp
    omega
  | blank space _ ih => rwa [List.dropWhile_cons_of_pos space]

theorem signed_of_dropWhile (signed : Signed (text.dropWhile isspace) v) : Signed text v := by
  induction text with
  | nil => exact signed
  | cons c text ih =>
    by_cases space : isspace c
    · rw [List.dropWhile_cons_of_pos space] at signed
      exact .blank space (ih signed)
    · rwa [List.dropWhile_cons_of_neg space] at signed

/-- All of the text is read when it is empty or has this form. -/
theorem signed_of_strtol (ends : (strtol text).2 = []) : text = [] ∨ ∃ v, Signed text v := by
  have form : text = [] ∨ ∃ v, Signed (text.dropWhile isspace) v := by
    unfold strtol at ends
    generalize text.dropWhile isspace = skipped at ends
    unfold strtolFrom at ends
    split at ends
    next digits =>
      rcases readLong_end ends with empty | ⟨nonempty, all⟩
      · exact .inl empty
      · exact .inr ⟨_, .minus nonempty all⟩
    next digits =>
      rcases readLong_end ends with empty | ⟨nonempty, all⟩
      · exact .inl empty
      · exact .inr ⟨_, .plus nonempty all⟩
    next =>
      rcases readLong_end ends with empty | ⟨nonempty, all⟩
      · exact .inl empty
      · exact .inr ⟨_, .digits nonempty all⟩
  rcases form with empty | ⟨v, signed⟩
  · exact .inl empty
  · exact .inr ⟨v, signed_of_dropWhile signed⟩

theorem strtol_signed (signed : Signed text v) : strtol text = (clamp v, []) := strtolFrom_signed text signed

theorem findLastOf_none (not : colonChar ∉ text) : findLastOf text colonChar none = none := by
  rw [findLastOf, Option.elim_none, Option.map_eq_none_iff, List.idxOf?_eq_none_iff, List.mem_reverse]
  exact not

theorem findLastOf_last (front : List UInt8) (last : colonChar ∉ after) :
    findLastOf (front ++ colonChar :: after) colonChar none = some front.length := by
  have reversed : (front ++ colonChar :: after).reverse = after.reverse ++ colonChar :: front.reverse := by simp
  have place : (after.reverse ++ colonChar :: front.reverse).idxOf? colonChar = some after.length := by
    rw [List.idxOf?, List.findIdx?_append, List.findIdx?_eq_none_iff.mpr]
    · simp [List.findIdx?_cons]
    · intro c member
      exact beq_false_of_ne fun same => last (List.mem_reverse.mp (same ▸ member))
  rw [findLastOf, Option.elim_none, reversed, place]
  simp

/-- A search in front of the separator, unless the separator comes first. -/
theorem findLastOf_before (front after : List UInt8) (nonempty : front ≠ []) :
    (findLastOf (front ++ colonChar :: after) colonChar (positionBefore front.length)).isSome ↔ colonChar ∈ front := by
  obtain ⟨n, length⟩ := Nat.exists_eq_succ_of_ne_zero (fun zero => nonempty (List.length_eq_zero_iff.mp zero))
  rw [length, positionBefore, findLastOf, Option.elim_some, ← Nat.succ_eq_add_one, ← length, List.take_left,
    Option.isSome_map, List.isSome_idxOf?, List.mem_reverse]

theorem enclosed_iff : Enclosed text ↔ text[0]? = some openBracket ∧ text[text.length - 1]? = some closeBracket := by
  constructor
  · rintro ⟨inner, rfl⟩
    simp
  · rintro ⟨first, last⟩
    rw [← List.getLast?_eq_getElem?] at last
    obtain ⟨init, rfl⟩ := List.getLast?_eq_some_iff.mp last
    cases init with
    | nil => exact absurd first (by decide)
    | cons c inner =>
      obtain rfl : c = openBracket := Option.some.inj first
      exact ⟨inner, rfl⟩

instance (text : List UInt8) : Decidable (Enclosed text) := decidable_of_iff' _ enclosed_iff

/-- The port behind a separator. -/
def portOf (after : List UInt8) (portOut : ℤ) : ℤ :=
  let n := (strtol after).1.bmod (2 ^ 32)
  if (strtol after).2 = [] ∧ 0 < n ∧ n < 0x10000 then n else portOut

/-- The host of a text without its port. -/
def hostOf (text : List UInt8) : List UInt8 := if Enclosed text then (text.drop 1).take (text.length - 2) else text

/-- What is done to the host comes after the port. -/
theorem splitHostPort_none (not : colonChar ∉ text) : splitHostPort text portOut = (portOut, hostOf text) := by
  rw [splitHostPort, findLastOf_none not]
  simp only [← enclosed_iff, hostOf]
  split_ifs <;> rfl

/-- The test of the code is for a separator. -/
theorem separates_iff (front after : List UInt8) :
    (front.length = 0 ∨ ((front ++ colonChar :: after)[0]? = some openBracket ∧
        (front ++ colonChar :: after)[front.length - 1]? = some closeBracket) ∨
      ¬ (findLastOf (front ++ colonChar :: after) colonChar (positionBefore front.length)).isSome) ↔
    colonChar ∉ front ∨ front = [] ∨ Enclosed front := by
  cases front with
  | nil => simp
  | cons c front =>
    rw [findLastOf_before (c :: front) after (List.cons_ne_nil c front), enclosed_iff,
      List.getElem?_append_left (by simp), List.getElem?_append_left (by simp)]
    tauto

theorem splitHostPort_last (last : colonChar ∉ after) (unseparated : ¬ (colonChar ∉ front ∨ front = [] ∨ Enclosed front)) :
    (splitHostPort (front ++ colonChar :: after) portOut).1 = portOut := by
  rw [splitHostPort, findLastOf_last front last]
  simp only [decide_eq_true_eq, separates_iff, if_neg unseparated]
  split_ifs <;> rfl

theorem cString_drop (front : List UInt8) (ends : 0 ∉ after) :
    cString ((front ++ colonChar :: after).drop (front.length + 1)) = after := by
  have rest : (front ++ colonChar :: after).drop (front.length + 1) = after := by simp
  rw [rest, cString, List.takeWhile_eq_self_iff]
  exact fun c member => bne_iff_ne.mpr fun zero => ends (zero ▸ member)

theorem splitHostPort_separated (separated : Separated text front after) (ends : 0 ∉ after) :
    (splitHostPort text portOut).1 = portOf after portOut := by
  obtain ⟨rfl, last, separates⟩ := separated
  rw [splitHostPort, findLastOf_last front last]
  simp only [decide_eq_true_eq, separates_iff, if_pos separates, cString_drop front ends, portOf]
  by_cases read : (strtol after).2 = []
  · simp only [read, true_and]
    split_ifs <;> first | rfl | omega
  · simp only [read, false_and, if_false]
    split_ifs <;> rfl

theorem splitHostPort_host (separated : Separated text front after) (ends : 0 ∉ after)
    (port : (strtol after).2 = [] ∧ 0 ≤ (strtol after).1.bmod (2 ^ 32)) :
    (splitHostPort text portOut).2 = hostOf front := by
  obtain ⟨rfl, last, separates⟩ := separated
  rw [splitHostPort, findLastOf_last front last]
  simp only [decide_eq_true_eq, separates_iff, if_pos separates, cString_drop front ends, if_pos port,
    List.take_left, ← enclosed_iff, hostOf]
  split_ifs <;> rfl

/-- A text is separated in one way only. -/
theorem Separated.unique {front' after' : List UInt8} (separated : Separated text front after)
    (separated' : Separated text front' after') : front = front' ∧ after = after' := by
  have same : front ++ colonChar :: after = front' ++ colonChar :: after' := separated.whole ▸ separated'.whole
  have length : front.length = front'.length := by
    apply Option.some.inj
    rw [← findLastOf_last front separated.last, ← findLastOf_last front' separated'.last, same]
  obtain ⟨equal, rest⟩ := List.append_inj same length
  exact ⟨equal, (List.cons.inj rest).2⟩

theorem IsPort.ne_nil (port : IsPort after p) : after ≠ [] := by
  rintro rfl
  have zero := port.value
  have pos := port.pos
  rw [value_nil] at zero
  omega

/-- A text with a sign has one value. -/
theorem Signed.unique {v' : ℤ} (signed : Signed text v) (signed' : Signed text v') : clamp v = clamp v' :=
  congrArg Prod.fst ((strtol_signed signed).symm.trans (strtol_signed signed'))

theorem portOf_signed (signed : Signed after v) :
    portOf after portOut = if 0 < (clamp v).bmod (2 ^ 32) ∧ (clamp v).bmod (2 ^ 32) < 0x10000
      then (clamp v).bmod (2 ^ 32) else portOut := by
  rw [portOf, strtol_signed signed]
  simp only [true_and]

theorem portOf_cuts (signed : Signed after v) (cuts : CutsToPort v) : portOf after portOut = v % 2 ^ 32 := by
  rw [portOf_signed signed, if_pos (clamp_bmod_pos.mpr cuts), clamp_bmod_eq cuts]

/-- Where the port is set, it is out of a signed number. -/
theorem portOf_eq (after : List UInt8) (portOut : ℤ) :
    portOf after portOut = portOut ∨ ∃ v, Signed after v ∧ CutsToPort v := by
  by_cases read : (strtol after).2 = [] ∧ 0 < (strtol after).1.bmod (2 ^ 32) ∧ (strtol after).1.bmod (2 ^ 32) < 0x10000
  · rcases signed_of_strtol read.1 with rfl | ⟨v, signed⟩
    · exact absurd read.2.1 (by decide)
    · have range := read.2
      rw [strtol_signed signed] at range
      exact .inr ⟨v, signed, clamp_bmod_pos.mp range⟩
  · exact .inl (if_neg read)

theorem IsPort.signed (port : IsPort after p) : Signed after p := by
  have signed := Signed.digits port.ne_nil port.digits
  rwa [port.value] at signed

theorem IsPort.cuts (port : IsPort after p) : CutsToPort p := by
  have pos := port.pos
  have bound := port.bound
  unfold CutsToPort
  omega

theorem IsPort.portOf_eq (port : IsPort after p) : portOf after portOut = p := by
  have pos := port.pos
  have bound := port.bound
  rw [portOf_cuts port.signed port.cuts]
  omega

theorem Signed.unique_of_cuts {v' : ℤ} (signed : Signed text v) (signed' : Signed text v') (cuts : CutsToPort v)
    (cuts' : CutsToPort v') : v = v' := by
  have same := signed.unique signed'
  unfold CutsToPort at cuts cuts'
  unfold clamp at same
  omega

theorem exists_last (member : colonChar ∈ text) : ∃ front after, text = front ++ colonChar :: after ∧ colonChar ∉ after := by
  obtain ⟨reversed, front, whole, first⟩ := List.eq_append_cons_of_mem (List.mem_reverse.mpr member)
  refine ⟨front.reverse, reversed.reverse, ?_, fun behind => first (List.mem_reverse.mp behind)⟩
  rw [← List.reverse_reverse text, whole]
  simp

theorem Separated.ends (separated : Separated text front after) (ends : 0 ∉ text) : 0 ∉ after := by
  intro member
  rw [separated.whole] at ends
  exact ends (List.mem_append_right _ (List.mem_cons_of_mem _ member))

/-- A port that was not there before shows that something was read as one. -/
theorem Misread.not_setsPort (misread : Misread text) (ends : 0 ∉ text) : ¬ SetsPort text := by
  obtain ⟨front, after, v, separated, signed, cuts, wrong⟩ := misread
  intro sets
  obtain ⟨-, kept⟩ := sets 0
  have zero := kept fun ⟨front', after', p, separated', port⟩ => by
    obtain ⟨-, rfl⟩ := separated.unique separated'
    obtain rfl := signed.unique_of_cuts port.signed cuts port.cuts
    exact wrong port
  rw [splitHostPort_separated separated (separated.ends ends), portOf_cuts signed cuts] at zero
  unfold CutsToPort at cuts
  omega

/-- What is put into the port is a port when nothing is misread. -/
theorem setsPort_of_not_misread (fair : ¬ Misread text) (ends : 0 ∉ text) : SetsPort text := by
  intro portOut
  constructor
  · intro front after p separated port
    rw [splitHostPort_separated separated (separated.ends ends), port.portOf_eq]
  · intro portless
    by_cases member : colonChar ∈ text
    · obtain ⟨front, after, whole, last⟩ := exists_last member
      by_cases separates : colonChar ∉ front ∨ front = [] ∨ Enclosed front
      · have separated : Separated text front after := ⟨whole, last, separates⟩
        rw [splitHostPort_separated separated (separated.ends ends)]
        rcases portOf_eq after portOut with kept | ⟨v, signed, cuts⟩
        · exact kept
        · have port : IsPort after v.toNat := not_not.mp fun wrong =>
            fair ⟨front, after, v, separated, signed, cuts, wrong⟩
          exact absurd ⟨front, after, v.toNat, separated, port⟩ portless
      · rw [whole]
        exact splitHostPort_last last separates
    · rw [splitHostPort_none member]

theorem setsPort_iff (ends : 0 ∉ text) : SetsPort text ↔ ¬ Misread text :=
  ⟨fun sets misread => misread.not_setsPort ends sets, fun fair => setsPort_of_not_misread fair ends⟩

/-- The text of a host, and the host itself: without colons and brackets, or anything in brackets. -/
inductive HostText : List UInt8 → List UInt8 → Prop
  | plain {host : List UInt8} : (∀ c ∈ host, c ≠ colonChar ∧ c ≠ openBracket ∧ c ≠ closeBracket) → HostText host host
  | bracketed (inner : List UInt8) : HostText (openBracket :: (inner ++ [closeBracket])) inner

theorem HostText.separates (form : HostText text host) : colonChar ∉ text ∨ text = [] ∨ Enclosed text := by
  cases form with
  | plain plain => exact .inl fun member => (plain colonChar member).1 rfl
  | bracketed => exact .inr (.inr ⟨_, rfl⟩)

theorem HostText.hostOf_eq (form : HostText text host) : hostOf text = host := by
  cases form with
  | plain plain =>
    apply if_neg
    rintro ⟨inner, rfl⟩
    exact (plain openBracket List.mem_cons_self).2.1 rfl
  | bracketed =>
    rw [hostOf, if_pos ⟨_, rfl⟩]
    simp

theorem isPort_write (pos : 1 ≤ p) (bound : p ≤ 65535) : IsPort (write p) p :=
  ⟨isDigit_write p, value_write p, pos, bound⟩

theorem notMem_digits (all : ∀ c ∈ digits, isdigit c) (other : ¬ isdigit c) :
    c ∉ digits := fun member => other (all c member)

theorem splitHostPort_write (form : HostText text host) (pos : 1 ≤ p) (bound : p ≤ 65535) :
    splitHostPort (text ++ colonChar :: write p) portOut = (↑p, host) := by
  have port := isPort_write pos bound
  have separated : Separated (text ++ colonChar :: write p) text (write p) :=
    ⟨rfl, notMem_digits port.digits (by decide), form.separates⟩
  have ends : 0 ∉ write p := notMem_digits port.digits (by decide)
  have read : (strtol (write p)).2 = [] ∧ 0 ≤ (strtol (write p)).1.bmod (2 ^ 32) := by
    rw [strtol_signed port.signed]
    exact ⟨rfl, (clamp_bmod_pos.mpr port.cuts).1.le⟩
  apply Prod.ext
  · rw [splitHostPort_separated separated ends, port.portOf_eq]
  · rw [splitHostPort_host separated ends read, form.hostOf_eq]

end SplitHostPort

open SplitHostPort in
/-- `SplitHostPort` sets the port as it should exactly on the texts where nothing is misread. A host with a port is
always split into the two. -/
theorem splitHostPort_iff {text : List UInt8} (ends : 0 ∉ text) : (SetsPort text ↔ ¬ Misread text) ∧
    ∀ (front host : List UInt8) (p : ℕ) (portOut : ℤ), HostText front host → 1 ≤ p → p ≤ 65535 →
      splitHostPort (front ++ colonChar :: write p) portOut = (↑p, host) :=
  ⟨setsPort_iff ends, fun _ _ _ _ form pos bound => splitHostPort_write form pos bound⟩

open SplitHostPort in
/-- The port 80 behind a host of one letter. -/
theorem splitHostPort_http : (SetsPort [97, colonChar, 56, 48] ↔ ¬ Misread [97, colonChar, 56, 48]) ∧
    ∀ (front host : List UInt8) (p : ℕ) (portOut : ℤ), HostText front host → 1 ≤ p → p ≤ 65535 →
      splitHostPort (front ++ colonChar :: write p) portOut = (↑p, host) :=
  @splitHostPort_iff [97, colonChar, 56, 48] (by decide)

/-- The number 4294967376 is 80 behind 2^32. -/
def farPort : List UInt8 := [52, 50, 57, 52, 57, 54, 55, 51, 55, 54]

open SplitHostPort in
/-- The host `h` with that number is given the port 80. -/
theorem splitHostPort_farPort : (splitHostPort (104 :: colonChar :: farPort) (-1)).1 = 80 ∧
    ¬ SetsPort (104 :: colonChar :: farPort) := by
  have given : (splitHostPort (104 :: colonChar :: farPort) (-1)).1 = 80 := by decide
  refine ⟨given, fun sets => ?_⟩
  have separated : Separated (104 :: colonChar :: farPort) [104] farPort :=
    ⟨rfl, by decide, .inl (by decide)⟩
  have kept := (sets (-1)).2 fun ⟨front, after, p, separated', port⟩ => by
    obtain ⟨-, rfl⟩ := separated.unique separated'
    have far : Decimal.value farPort = 4294967376 := by decide
    have value := port.value
    have bound := port.bound
    omega
  rw [given] at kept
  exact absurd kept (by decide)

end BitCrystal
