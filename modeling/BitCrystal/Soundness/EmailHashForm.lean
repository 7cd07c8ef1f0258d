import BitCrystal.Soundness.SecurityRoundTrip

/-! # The hash form of a mail

The words are found again in what the mail codec gives back: each starts with at least six zeros, no word has as many
further back, and a mail text has at most three in a row, because the stream leaves the top bit of each byte clear.
There is no word for `+` and for `/`, and these are dropped. What is before them shows the mail if it carries all of its
bytes and their end.
-/

namespace BitCrystal

open Base64 MarkedWords

def hashChars : List UInt8 := hashWords.map Prod.fst

/-- The word that is replaced by a character. -/
def replacedWord (c : UInt8) : List UInt8 :=
  match hashWords.lookup c with
  | some hash => hashText hash
  | none => []

/-- The characters with a case in the `switch`. -/
def HasWord (c : UInt8) : Bool := c ∈ hashChars ∧ c ≠ 44

/-- What the table says of each word and of each pair of words. -/
private theorem hashTable_facts :
    hashWords.all (fun entry => decide (hashWords.lookup entry.1 = some entry.2)) = true ∧ hashChars.Nodup ∧
    hashChars.all (fun c => let word := replacedWord c
      decide (word.length = 64) && decide (6 ≤ lead 48 word) && decide (4 ≤ (body 48 word).length) &&
        ((body 48 word).tails.all fun s => decide (s = []) || decide (s = [48]) ||
          decide (body 48 s ≠ [] ∧ lead 48 s < 6)) &&
        (hashChars.all fun c' => decide (c = c') ||
          decide ((body 48 word).take 4 ≠ (body 48 (replacedWord c')).take 4))) = true ∧
    HasWord standard.pad = false ∧ ∀ n : Fin 62, HasWord (standard.digit n) = true := by
  decide +kernel

private theorem word_facts {c : UInt8} (known : c ∈ hashChars) : let word := replacedWord c
    word.length = 64 ∧ 6 ≤ lead 48 word ∧ 4 ≤ (body 48 word).length ∧
      (∀ s, s <:+ body 48 word → (s = [] ∨ s = [48]) ∨ body 48 s ≠ [] ∧ lead 48 s < 6) ∧
      ∀ c' ∈ hashChars, c = c' ∨ (body 48 word).take 4 ≠ (body 48 (replacedWord c')).take 4 := by
  have facts := List.all_eq_true.mp hashTable_facts.2.2.1 c known
  simp only [Bool.and_eq_true, decide_eq_true_eq] at facts
  obtain ⟨⟨⟨⟨long, marks⟩, more⟩, inner⟩, apart⟩ := facts
  refine ⟨long, marks, more, fun s behind => ?_, fun c' known' => ?_⟩
  · have each := List.all_eq_true.mp inner s ((List.mem_tails s _).mpr behind)
    simpa only [Bool.or_eq_true, decide_eq_true_eq] using each
  · have each := List.all_eq_true.mp apart c' known'
    simpa only [Bool.or_eq_true, decide_eq_true_eq] using each

theorem hashCode : Code 48 replacedWord hashChars 6 1 where
  least_le c known := (word_facts known).2.1
  some c known := by
    have more := (word_facts known).2.2.1
    exact List.ne_nil_of_length_pos (by omega)
  inner c known s behind nonempty := by
    rcases (word_facts known).2.2.2.1 s behind with (empty | one) | more
    · exact absurd empty nonempty
    · exact .inl ⟨1, le_rfl, one⟩
    · exact .inr more
  apart c known c' known' different rest at' := by
    obtain ⟨tail, same⟩ := at'
    have firsts := congrArg (List.take 4) same
    rw [List.take_append_of_le_length (word_facts known).2.2.1,
      List.take_append_of_le_length (word_facts known').2.2.1] at firsts
    exact ((word_facts known).2.2.2.2 c' known').resolve_left different firsts

theorem replaceHashes_eq (s : List UInt8) :
    replaceHashes s = hashChars.foldl (fun s c => replaceAll (replacedWord c) [c] 0 s) s := by
  rw [replaceHashes, hashChars, List.foldl_map]
  apply List.foldl_ext
  intro decode2 entry member
  have found := of_decide_eq_true (List.all_eq_true.mp hashTable_facts.1 entry member)
  rw [str_replace, replacedWord, found]

theorem flatMap_hashWord (ret : List UInt8) : ret.flatMap hashWord = (ret.filter HasWord).flatMap replacedWord := by
  induction ret with
  | nil => rfl
  | cons c ret ih =>
    rw [List.flatMap_cons, ih, List.filter_cons]
    split
    next has =>
      have comma := (of_decide_eq_true has).2
      rw [List.flatMap_cons, hashWord, if_neg comma]
      rfl
    next wordless =>
      have empty : hashWord c = [] := by
        rw [hashWord]
        split
        next => rfl
        next comma =>
          have unknown : c ∉ hashChars := fun known => wordless (decide_eq_true ⟨known, comma⟩)
          rw [List.lookup_eq_none_iff.mpr]
          intro entry member
          rw [bne_iff_ne]
          rintro rfl
          exact unknown (List.mem_map_of_mem member)
      rw [empty, List.nil_append]

theorem length_flatMap_hashWord (ret : List UInt8) :
    (ret.flatMap hashWord).length = 64 * (ret.filter HasWord).length := by
  rw [flatMap_hashWord]
  induction ret with
  | nil => rfl
  | cons c ret ih =>
    rw [List.filter_cons]
    split
    next has =>
      have long := (word_facts (of_decide_eq_true has).1).1
      rw [List.flatMap_cons, List.length_append, List.length_cons]
      omega
    next => exact ih

theorem hasWord_digit {n : ℕ} (small : n < 62) : HasWord (standard.digit n) = true := hashTable_facts.2.2.2.2 ⟨n, small⟩

/-- The replacements give back the characters that have a word. -/
theorem replaceHashes_hashWord {ret : List UInt8}
    (runs : ∀ s, s <:+ ret.filter HasWord → lead 48 s + 1 < 6) :
    replaceHashes (ret.flatMap hashWord) = ret.filter HasWord := by
  rw [replaceHashes_eq, flatMap_hashWord]
  apply hashCode.foldl_replaceAll_text runs (fun _ known => known) hashTable_facts.2.1
  intro c member
  have has : HasWord c = true := List.of_mem_filter member
  exact (of_decide_eq_true has).1

/-! ## Mail texts -/

/-- A character that is no zero, and three or less before a text that does not start with one. -/
private theorem runs_group {w : UInt8} {group rest : List UInt8} (first : w ≠ 48) (few : group.length ≤ 3)
    (start : lead 48 rest = 0) (runs : ∀ s, s <:+ rest → lead 48 s ≤ 3) :
    lead 48 (w :: (group ++ rest)) = 0 ∧ ∀ s, s <:+ w :: (group ++ rest) → lead 48 s ≤ 3 := by
  have inner : lead 48 (group ++ rest) ≤ group.length ∧ ∀ s, s <:+ group ++ rest → lead 48 s ≤ 3 := by
    induction group with
    | nil => exact ⟨start.le, runs⟩
    | cons c group ih =>
      rw [List.length_cons] at few
      obtain ⟨here, behind⟩ := ih (by omega)
      have one := @lead_cons_le _ _ 48 c (group ++ rest)
      rw [List.cons_append]
      refine ⟨by rw [List.length_cons]; omega, fun s suffix => ?_⟩
      rcases List.suffix_cons_iff.mp suffix with rfl | suffix
      · omega
      · exact behind s suffix
  have zero : lead 48 (w :: (group ++ rest)) = 0 := if_neg first
  refine ⟨zero, fun s suffix => ?_⟩
  rcases List.suffix_cons_iff.mp suffix with rfl | suffix
  · omega
  · exact inner.2 s suffix

/-- The first digit of four has a word and is no zero if the top bit of its byte is clear. -/
private theorem runs_quad {a : UInt8} (low : a < 128) (x y z : UInt8) {rest : List UInt8}
    (start : lead 48 (rest.filter HasWord) = 0) (runs : ∀ s, s <:+ rest.filter HasWord → lead 48 s ≤ 3) :
    let text := (standard.digit (a.toNat / 4) :: x :: y :: z :: rest).filter HasWord
    lead 48 text = 0 ∧ ∀ s, s <:+ text → lead 48 s ≤ 3 := by
  have each : ∀ n : Fin 32, pbase64 n ≠ 48 := by decide
  have small : a.toNat < 128 := low
  intro text
  have same : text = standard.digit (a.toNat / 4) :: ([x, y, z].filter HasWord ++ rest.filter HasWord) := by
    rw [← List.filter_append]
    exact List.filter_cons_of_pos (hasWord_digit (by omega))
  rw [same]
  exact runs_group (each ⟨a.toNat / 4, by omega⟩) (List.length_filter_le ..) start runs

/-- A mail text has at most three zeros in a row, also where characters are dropped. -/
theorem runs_encode {data : List UInt8} (low : ∀ a ∈ data, a < 128) :
    let text := (standard.encode data).filter HasWord
    lead 48 text = 0 ∧ ∀ s, s <:+ text → lead 48 s ≤ 3 := by
  have ends : ∀ s, s <:+ ([] : List UInt8) → lead 48 s ≤ 3 := by
    intro s behind
    rw [List.suffix_nil.mp behind]
    exact Nat.zero_le 3
  induction data using Base64.encode.induct with
  | case1 a b c rest ih =>
    simp only [List.forall_mem_cons] at low
    obtain ⟨start, runs⟩ := ih low.2.2.2
    exact runs_quad low.1 _ _ _ start runs
  | case2 a b => exact runs_quad (low a (List.mem_cons_self ..)) _ _ _ rfl ends
  | case3 a => exact runs_quad (low a (List.mem_cons_self ..)) _ _ _ rfl ends
  | case4 => exact ⟨rfl, ends⟩

theorem standard_lt {data : List UInt8} {c : UInt8} (member : c ∈ standard.encode data) : c < 128 := by
  have each : ∀ n : Fin 64, pbase64 n < 128 := by decide
  rcases mem_encode member with ⟨n, small, rfl⟩ | rfl
  · exact each ⟨n, small⟩
  · decide

variable {keystream : ℕ → UInt8}

theorem masked_lt (seven : ∀ i, keystream i < 128) {text : List UInt8} (low : ∀ a ∈ text, a < 128) :
    ∀ a ∈ masked keystream text, a < 128 := by
  intro a member
  obtain ⟨i, inside, rfl⟩ := List.mem_mapIdx.mp member
  have before := low _ (List.getElem_mem inside)
  have key := seven i
  rw [UInt8.lt_iff_toNat_lt] at before key ⊢
  rw [UInt8.toNat_xor]
  exact @Nat.xor_lt_two_pow _ _ 7 before key

/-- What comes back is read from the characters of the mail text that have a word. -/
theorem decodeDataSecurityEmailHash_encodeDataSecurityEmailHash (seven : ∀ i, keystream i < 128) {y ret : List UInt8}
    (encoded : encodeDataSecurityEmail keystream y = .ok ret) (fits : size^[5] y.length ≤ arraySpace)
    (fitsWords : size^[5] (ret.flatMap hashWord).length ≤ arraySpace) :
    (encodeDataSecurityEmailHash keystream y >>= decodeDataSecurityEmailHash keystream) =
      decodeDataSecurityEmail keystream (ret.filter HasWord) := by
  have text := encodeDataSecurityEmail_eq keystream (fits.trans_lt (by decide : arraySpace < 2 ^ 31))
  have same := Except.ok.inj (encoded.symm.trans text)
  have low : ∀ a ∈ masked keystream (standard.encode^[5] y), a < 128 := masked_lt seven fun a member =>
    @standard_lt (standard.encode^[4] y) a member
  have runs : ∀ s, s <:+ ret.filter HasWord → lead 48 s + 1 < 6 := by
    intro s behind
    rw [same] at behind
    have bound := (runs_encode low).2 s behind
    omega
  have index : ret.length < 2 ^ 31 := by
    rw [same, Base64.length_encode, length_masked, length_iterate_encode]
    exact size_lt_of_fits fits
  have mail := encodeDataSecurityEmail_roundTrips keystream fitsWords
  have written : encodeDataSecurityEmailHash keystream y = encodeDataSecurityEmail keystream (ret.flatMap hashWord) := by
    rw [encodeDataSecurityEmailHash, encoded]
    change (do checkIndex ret.length; _) = _
    rw [checkIndex_of_lt index]
    rfl
  have read : decodeDataSecurityEmailHash keystream = fun z => decodeDataSecurityEmail keystream z >>= fun decode2 =>
      decodeDataSecurityEmail keystream (replaceHashes decode2) := rfl
  rw [RoundTrips] at mail
  rw [written, read, ← bind_assoc, mail, Check.ok_bind, replaceHashes_hashWord runs]

/-- The characters that are dropped and are no padding stand at `k` or behind. -/
def DroppedFrom (k : ℕ) (ret : List UInt8) : Prop := ∀ p, ret[p]? = some 43 ∨ ret[p]? = some 47 → k ≤ p

/-- The digits that are dropped are those for `+` and `/`. -/
theorem shows_dropped {data : List UInt8} {k : ℕ} (dropped : DroppedFrom k (standard.encode data)) :
    Shows k (standard.values (standard.encode data)) (standard.values ((standard.encode data).filter HasWord)) := by
  obtain ⟨digits, j, written, small, -, values, -⟩ := @exists_digits standard data
  have filtered : (standard.encode data).filter HasWord =
      (digits.filter fun n => HasWord (standard.digit n)).map standard.digit ++ [] := by
    rw [written, List.filter_append, List.filter_map, List.filter_replicate_of_neg]
    · rfl
    · rw [hashTable_facts.2.2.2.1]
      exact Bool.false_ne_true
  rw [values, filtered, values_digits fun n inside => small n (List.mem_of_mem_filter inside)]
  change Shows k digits (digits.filter _ ++ [])
  rw [List.append_nil]
  apply shows_filter
  intro n inside
  apply hasWord_digit
  by_contra large
  obtain ⟨p, less, found⟩ := List.mem_take_iff_getElem.mp inside
  have last := small n (List.mem_of_mem_take inside)
  have here : (standard.encode data)[p]? = some (standard.digit n) := by
    rw [written, List.getElem?_append_left (by rw [List.length_map]; omega), List.getElem?_map,
      List.getElem?_eq_getElem (by omega), found]
    rfl
  have behind : k ≤ p := by
    apply dropped
    rcases (by omega : n = 62 ∨ n = 63) with rfl | rfl
    · exact .inl here
    · exact .inr here
  omega

/-- A text that shows its digits up to there has nothing dropped before. -/
theorem droppedFrom_of_prefix {ret : List UInt8} {k : ℕ} (start : ret.take k <+: ret.filter HasWord) : DroppedFrom k ret := by
  intro p plain
  by_contra before
  have known {c : UInt8} (found : ret[p]? = some c) : HasWord c = true := by
    obtain ⟨inside, rfl⟩ := List.getElem?_eq_some_iff.mp found
    exact List.of_mem_filter (start.subset (List.mem_take_iff_getElem.mpr ⟨p, by omega, rfl⟩))
  rcases plain with plus | slash
  · exact absurd (known plus) (by decide)
  · exact absurd (known slash) (by decide)

/-- How many characters of its text carry a mail of `n` bytes and its end. -/
def carried (n : ℕ) : ℕ := (layer^[6] (n, n + 1)).2

/-- A mail comes back if all that is dropped is behind what carries it, and only if all that is dropped is behind what its
bytes fix. -/
theorem encodeDataSecurityEmailHash_roundTrips (seven : ∀ i, keystream i < 128) {y ret : List UInt8}
    (encoded : encodeDataSecurityEmail keystream y = .ok ret) (fits : size^[5] y.length ≤ arraySpace)
    (fitsWords : size^[5] (ret.flatMap hashWord).length ≤ arraySpace) :
    let back := RoundTrips (encodeDataSecurityEmailHash keystream) (decodeDataSecurityEmailHash keystream) y
    (DroppedFrom (carried y.length) ret → back) ∧ (back → DroppedFrom (fixed^[6] y.length) ret) := by
  have text := encodeDataSecurityEmail_eq keystream (fits.trans_lt (by decide : arraySpace < 2 ^ 31))
  have same := Except.ok.inj (encoded.symm.trans text)
  have index : (ret.filter HasWord).length < 2 ^ 31 := by
    apply (List.length_filter_le ..).trans_lt
    rw [same, Base64.length_encode, length_masked, length_iterate_encode]
    exact size_lt_of_fits fits
  intro back
  have iff : back ↔ standard.decode^[5] (masked keystream (standard.decode (ret.filter HasWord))) = y := by
    change _ = _ ↔ _
    rw [decodeDataSecurityEmailHash_encodeDataSecurityEmailHash seven encoded fits fitsWords,
      decodeDataSecurityEmail_eq keystream index, Except.ok.injEq]
  have length : (masked keystream (standard.encode^[5] y)).length = size^[5] y.length := by
    rw [length_masked, length_iterate_encode]
  rw [iff]
  constructor
  · rw [same]
    intro dropped
    have outer := shows_dropped dropped
    rw [carried, Function.iterate_succ_apply', layer, layer_fst, ← length] at outer
    have inner := shows_masked keystream outer.decode
    rw [masked_masked] at inner
    exact inner.decode_iterate.2 (Nat.lt_succ_self _)
  · intro whole
    have start : y.take y.length <+: standard.decode^[5] (masked keystream (standard.decode (ret.filter HasWord))) := by
      rw [whole]
      exact List.take_prefix ..
    have outer := prefix_masked keystream (prefix_of_decode_iterate le_rfl start)
    rw [← take_masked, masked_masked] at outer
    have bound : fixed^[5] y.length ≤ (masked keystream (standard.encode^[5] y)).length := by
      rw [length]
      exact fixed_iterate_le le_rfl 5
    have shown := prefix_of_decode bound outer
    rw [← same] at shown
    exact droppedFrom_of_prefix shown

/-- The text of the mail `<`: its `/` is dropped, and comes after the 15 characters that carry the mail. -/
private def shortText : List UInt8 :=
  [68, 68, 90, 111, 80, 88, 65, 117, 90, 51, 89, 104, 65, 108, 120, 50, 77, 49, 74, 53, 73, 87, 99, 103, 89, 107, 53, 47,
    102, 108, 111, 54]

theorem encodeDataSecurityEmailHash_roundTrips_short :
    47 ∈ shortText ∧ encodeDataSecurityEmail get_encoded_table_my [60] = .ok shortText ∧
      RoundTrips (encodeDataSecurityEmailHash get_encoded_table_my)
        (decodeDataSecurityEmailHash get_encoded_table_my) [60] := by
  have encoded : encodeDataSecurityEmail get_encoded_table_my [60] = .ok shortText := by decide +kernel
  have dropped : DroppedFrom (carried 1) shortText := by
    have each : ∀ p < 15, ¬ (shortText[p]? = some 43 ∨ shortText[p]? = some 47) := by decide
    intro p plain
    exact not_lt.mp fun before => each p before plain
  refine ⟨by decide, encoded, ?_⟩
  apply (encodeDataSecurityEmailHash_roundTrips get_encoded_table_my_lt encoded (by decide) ?_).1 dropped
  rw [length_flatMap_hashWord]
  decide

/-- The mail `send 100 BTCRYST`. -/
private def longMail : List UInt8 := [115, 101, 110, 100, 32, 49, 48, 48, 32, 66, 84, 67, 82, 89, 83, 84]

/-- Its text, with a `/` as character 67. -/
private def longText : List UInt8 :=
  [68, 68, 70, 87, 66, 85, 73, 117, 89, 72, 119, 53, 68, 70, 82, 121, 77, 49, 66, 98, 65, 109, 81, 110, 97, 107, 100, 108,
    72, 106, 53, 119, 65, 72, 85, 69, 89, 81, 86, 82, 88, 87, 86, 71, 66, 71, 108, 100, 89, 120, 86, 120, 78, 48, 99, 72,
    89, 106, 104, 83, 81, 84, 49, 57, 78, 83, 108, 47, 82, 48, 52, 111, 100, 51, 48, 111, 70, 48, 86, 107, 72, 87, 120, 105,
    78, 85, 108, 89, 89, 70, 52, 105, 99, 108, 104, 53, 88, 81, 57, 108, 81, 69, 85, 75, 82, 83, 99, 61]

/-- Of `send 100 BTCRYST` only `send 100 BT` comes back. -/
theorem encodeDataSecurityEmailHash_loses :
    (encodeDataSecurityEmailHash get_encoded_table_my longMail >>= decodeDataSecurityEmailHash get_encoded_table_my) =
        .ok [115, 101, 110, 100, 32, 49, 48, 48, 32, 66, 84] ∧
      ¬ RoundTrips (encodeDataSecurityEmailHash get_encoded_table_my)
        (decodeDataSecurityEmailHash get_encoded_table_my) longMail := by
  have encoded : encodeDataSecurityEmail get_encoded_table_my longMail = .ok longText := by decide +kernel
  have fits : size^[5] (longText.flatMap hashWord).length ≤ arraySpace := by
    rw [length_flatMap_hashWord]
    decide +kernel
  have back := decodeDataSecurityEmailHash_encodeDataSecurityEmailHash get_encoded_table_my_lt encoded (by decide) fits
  have cut : decodeDataSecurityEmail get_encoded_table_my (longText.filter HasWord) =
      .ok [115, 101, 110, 100, 32, 49, 48, 48, 32, 66, 84] := by decide +kernel
  refine ⟨back.trans cut, fun whole => ?_⟩
  rw [RoundTrips, back, cut] at whole
  exact absurd (Except.ok.inj whole) (by decide)

end BitCrystal
