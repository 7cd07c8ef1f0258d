import BitCrystal.Model.Handshake

/-! # How long the network time follows the peers

The filter holds an odd number of values for the last time when it has taken 199 of them, one of which is its own zero.
From then on the offset stays what it is, while the window moves on. As long as half of those values are still held, the
offset lies where the values lie.
-/

namespace BitCrystal

open OrderStatistic Check

/-- The last 200 of the values. -/
def window (values : List ℤ) : List ℤ := values.drop (values.length - 200)

/-- The values that the filter had at the last update when it has taken `n`. -/
def updated (n : ℕ) : ℕ := min 199 (n - 1 + n % 2)

/-- A median of 70 minutes and more moves nothing. -/
def limited (nMedian : ℤ) : ℤ := if |nMedian| < 70 * 60 then nMedian else 0

/-- The middle of an odd number of values. -/
def middle (values : List ℤ) : ℤ := (values.insertionSort (· ≤ ·)).getD (values.length / 2) 0

def offsetOf (values : List ℤ) : ℤ :=
  if updated values.length < 5 then 0 else limited (middle (values.take (updated values.length)))

theorem length_window (values : List ℤ) : (window values).length = min values.length 200 := by
  rw [window, List.length_drop]
  omega

variable {values : List ℤ}

theorem window_of_le (few : values.length ≤ 200) : window values = values := by
  rw [window, Nat.sub_eq_zero_of_le few, List.drop_zero]

theorem window_input {filter : CMedianFilter} (size : filter.nSize = 200)
    (held : filter.vValues = window values) (value : ℤ) : (filter.input value).vValues = window (values ++ [value]) := by
  simp only [CMedianFilter.input, held, size, length_window]
  unfold window
  rw [List.length_append, List.length_singleton]
  split
  next full =>
    have next : values.length - 200 + 1 = values.length + 1 - 200 := by omega
    rw [List.drop_drop, next, List.drop_append_of_le_length (by omega)]
  next room =>
    have zero : values.length + 1 - 200 = 0 ∧ values.length - 200 = 0 := by omega
    rw [zero.1, zero.2, List.drop_zero, List.drop_zero]

/-- Without an update the offset comes from the same values. -/
theorem offsetOf_kept (value : ℤ)
    (kept : ¬(5 ≤ (window (values ++ [value])).length ∧ (window (values ++ [value])).length % 2 = 1)) :
    offsetOf (values ++ [value]) = offsetOf values := by
  have length : (values ++ [value]).length = values.length + 1 := by simp
  rw [length_window, length] at kept
  unfold offsetOf
  rw [length]
  rcases Nat.lt_or_ge (updated (values.length + 1)) 5 with early | late
  · have before : updated values.length < 5 := by
      unfold updated at *
      omega
    rw [if_pos early, if_pos before]
  · have same : updated (values.length + 1) = updated values.length := by
      unfold updated at *
      omega
    have inside : updated values.length ≤ values.length := by
      unfold updated
      omega
    rw [same, List.take_append_of_le_length inside]

/-- An update is made with all values that have been taken. -/
theorem offsetOf_updated (enough : 5 ≤ (window values).length) (odd : (window values).length % 2 = 1) :
    window values = values ∧ offsetOf values = limited (middle values) := by
  rw [length_window] at enough odd
  have whole : updated values.length = values.length := by
    unfold updated
    omega
  refine ⟨window_of_le (by omega), ?_⟩
  rw [offsetOf, whole, if_neg (by omega), List.take_length]

/-! ## A call -/

theorem median_odd {filter : CMedianFilter} (odd : filter.size % 2 = 1) :
    filter.median = .ok (middle filter.vValues) := by
  have nonzero : ¬filter.size = 0 := by omega
  rw [CMedianFilter.median, rejectIf, if_neg nonzero, ok_bind, if_pos odd]
  rfl

theorem mem_of_middle (values : List ℤ) (positive : 0 < values.length) :
    nth values (values.length / 2) = .some (middle values) := by
  have inside : values.length / 2 < (values.insertionSort (· ≤ ·)).length := by
    rw [List.length_insertionSort]
    omega
  rw [nth, middle, List.getD_eq_getElem?_getD, List.getElem?_eq_getElem inside, Option.getD_some]

theorem abs64_eq_ok {n : ℤ} (bound : -2 ^ 63 < n) : abs64 n = .ok |n| := by
  unfold abs64
  split
  next natural => rw [abs_of_nonneg natural]
  next negative =>
    rw [abs_of_neg (not_le.mp negative), int64_eq_ok]
    exact ⟨⟨by omega, by omega⟩, rfl⟩

namespace TimeState

variable {CNetAddr : Type}

theorem exists_matchAny (values : List ℤ) (range : ∀ v ∈ values, -2 ^ 63 < v) :
    ∃ fMatch, matchAny values = .ok fMatch := by
  induction values with
  | nil => exact ⟨false, rfl⟩
  | cons nOffset rest ih =>
    rw [List.forall_mem_cons] at range
    obtain ⟨fMatch, rest⟩ := ih range.2
    rw [matchAny, rest, abs64_eq_ok range.1]
    split
    · exact ⟨_, rfl⟩
    · exact ⟨_, rfl⟩

variable {s : TimeState CNetAddr}

/-- The warning concerns the texts only. -/
theorem exists_warn (range : ∀ v ∈ s.vTimeOffsets.vValues, -2 ^ 63 < v) :
    ∃ s', s.warn = .ok s' ∧ s'.vTimeOffsets = s.vTimeOffsets ∧ s'.nTimeOffset = s.nTimeOffset ∧
      s'.setKnown = s.setKnown := by
  obtain ⟨fMatch, found⟩ := exists_matchAny s.vTimeOffsets.sorted fun v member =>
    range v ((List.perm_insertionSort (· ≤ ·) _).mem_iff.mp member)
  unfold warn
  split
  · exact ⟨s, rfl, rfl, rfl, rfl⟩
  · rw [found, ok_bind]
    split
    · exact ⟨s, rfl, rfl, rfl, rfl⟩
    · exact ⟨_, rfl, rfl, rfl, rfl⟩

/-- The state after so many values have been taken, the zero of the filter first. -/
structure Reached (values : List ℤ) (s : TimeState CNetAddr) : Prop where
  size : s.vTimeOffsets.nSize = 200
  held : s.vTimeOffsets.vValues = window values
  offset : s.nTimeOffset = offsetOf values
  count : values.length = s.setKnown.card + 1
  range : ∀ v ∈ values, -2 ^ 63 < v

theorem reached_start : Reached [0] ({} : TimeState CNetAddr) where
  size := rfl
  held := rfl
  offset := rfl
  count := rfl
  range v member := by
    rw [List.mem_singleton.mp member]
    decide

variable [DecidableEq CNetAddr]

theorem addTimeData_known {ip : CNetAddr} {nTime getTime : ℤ}
    (bound : InInt64 (nTime - getTime)) (known : ip ∈ s.setKnown) : s.addTimeData ip nTime getTime = .ok s := by
  rw [addTimeData, int64, if_pos bound, ok_bind, if_pos known]
  rfl

/-- A new address adds its sample. -/
theorem addTimeData_new {ip : CNetAddr} {nTime getTime : ℤ} {values : List ℤ}
    (reached : Reached values s) (bound : InInt64 (nTime - getTime)) (lowest : nTime - getTime ≠ -2 ^ 63)
    (fresh : ip ∉ s.setKnown) : ∃ s', s.addTimeData ip nTime getTime = .ok s' ∧
      Reached (values ++ [nTime - getTime]) s' ∧ s'.setKnown = insert ip s.setKnown := by
  have held := window_input reached.size reached.held (nTime - getTime)
  have count : (values ++ [nTime - getTime]).length = (insert ip s.setKnown).card + 1 := by
    rw [List.length_append, List.length_singleton, Finset.card_insert_of_notMem fresh, reached.count]
  have range : ∀ v ∈ values ++ [nTime - getTime], -2 ^ 63 < v := by
    intro v member
    rcases List.mem_append.mp member with member | member
    · exact reached.range v member
    · rw [List.mem_singleton.mp member]
      exact lt_of_le_of_ne bound.1 lowest.symm
  rw [addTimeData, int64, if_pos bound, ok_bind, if_neg fresh]
  have size : (s.vTimeOffsets.input (nTime - getTime)).size = (window (values ++ [nTime - getTime])).length :=
    congrArg List.length held
  simp only [size]
  split
  next update =>
    obtain ⟨whole, offset⟩ := offsetOf_updated update.1 update.2
    have median := median_odd (size.symm ▸ update.2)
    rw [held, whole] at median
    have found := mem_of_nth (mem_of_middle (values ++ [nTime - getTime]) (by simp))
    rw [median, ok_bind, abs64_eq_ok (range _ found), ok_bind]
    split
    next near =>
      refine ⟨_, rfl, ⟨reached.size, held, ?_, count, range⟩, rfl⟩
      rw [offset, limited, if_pos near]
    next far =>
      obtain ⟨s', warned, filter, zero, known⟩ := exists_warn (s := { s with
        setKnown := insert ip s.setKnown, vTimeOffsets := s.vTimeOffsets.input (nTime - getTime), nTimeOffset := 0 })
        (by rw [held, whole]; exact range)
      refine ⟨s', warned, ⟨?_, ?_, ?_, ?_, range⟩, known⟩
      · rw [filter]
        exact reached.size
      · rw [filter]
        exact held
      · rw [zero, offset, limited, if_neg far]
      · rw [known]
        exact count
  next kept =>
    exact ⟨_, rfl, ⟨reached.size, held, reached.offset.trans (offsetOf_kept _ kept).symm, count, range⟩, rfl⟩

end TimeState

namespace TimeData

variable {CNetAddr : Type} (call : TimeData CNetAddr)

def sample : ℤ := call.nTime - call.getTime

/-- The sample is an `int64` that has a magnitude. -/
def InRange : Prop := -2 ^ 63 < call.sample ∧ call.sample < 2 ^ 63

instance : Decidable call.InRange := inferInstanceAs (Decidable (_ ∧ _))

theorem InRange.inInt64 {call : TimeData CNetAddr} (bound : call.InRange) : InInt64 (call.nTime - call.getTime) :=
  ⟨bound.1.le, bound.2⟩

end TimeData

variable {CNetAddr : Type} [DecidableEq CNetAddr]

/-- Every run returns, and has taken as many values as there are addresses, those of the calls if each has its own. -/
theorem addTimeDataRun_reached {calls : List (TimeData CNetAddr)} (range : ∀ call ∈ calls, call.InRange) :
    ∃ s values, addTimeDataRun calls = .ok s ∧ s.Reached values ∧ s.setKnown = (calls.map (·.ip)).toFinset ∧
      ((calls.map (·.ip)).Nodup → values = 0 :: calls.map (·.sample)) := by
  induction calls using List.reverseRecOn with
  | nil => exact ⟨{}, [0], rfl, TimeState.reached_start, rfl, fun _ => rfl⟩
  | append_singleton calls call ih =>
    rw [List.forall_mem_append, List.forall_mem_singleton] at range
    obtain ⟨s, values, run, reached, known, taken⟩ := ih range.1
    have next : addTimeDataRun (calls ++ [call]) = s.addTimeData call.ip call.nTime call.getTime := by
      rw [addTimeDataRun, List.foldlM_append]
      change addTimeDataRun calls >>= _ = _
      rw [run, ok_bind]
      simp only [List.foldlM_cons, List.foldlM_nil, bind_pure]
    have addresses : ((calls ++ [call]).map (·.ip)).toFinset = insert call.ip s.setKnown := by
      rw [known]
      ext ip
      simp
    rw [next, addresses]
    by_cases fresh : call.ip ∈ s.setKnown
    · refine ⟨s, values, TimeState.addTimeData_known range.2.inInt64 fresh, reached, ?_, fun distinct => ?_⟩
      · rw [Finset.insert_eq_of_mem fresh]
      · rw [known, List.mem_toFinset] at fresh
        rw [List.map_append, List.nodup_append] at distinct
        exact absurd rfl (distinct.2.2 _ fresh _ (List.mem_singleton_self _))
    · obtain ⟨s', added, reached, known'⟩ := TimeState.addTimeData_new reached range.2.inInt64 range.2.1.ne' fresh
      refine ⟨s', _, added, reached, known', fun distinct => ?_⟩
      rw [List.map_append] at distinct
      rw [taken (List.nodup_append.mp distinct).1, List.map_append]
      rfl

/-- With five values that lie in an interval within 70 minutes the offset lies there. -/
def TimeState.Follows {CNetAddr : Type} (s : TimeState CNetAddr) : Prop :=
  5 ≤ s.vTimeOffsets.size → ∀ a b, -(70 * 60) < a → b < 70 * 60 → (∀ v ∈ s.vTimeOffsets.vValues, a ≤ v ∧ v ≤ b) →
    a ≤ s.nTimeOffset ∧ s.nTimeOffset ≤ b

/-- Few of the first values are outside when those that are still held lie in the interval. -/
theorem countP_first {outside : ℤ → Bool} (held : ∀ v ∈ window values, outside v = false) (n : ℕ) :
    (values.take n).countP outside ≤ values.length - 200 := by
  have rest : (window values).countP outside = 0 := by
    apply List.countP_eq_zero.mpr
    intro v member
    rw [held v member]
    exact Bool.false_ne_true
  calc
    (values.take n).countP outside ≤ values.countP outside := (List.take_sublist n values).countP_le
    _ = (values.take (values.length - 200)).countP outside + (window values).countP outside := by
      rw [window, ← List.countP_append, List.take_append_drop]
    _ = (values.take (values.length - 200)).countP outside := by
      rw [rest, Nat.add_zero]
    _ ≤ values.length - 200 := List.countP_le_length.trans (List.length_take_le ..)

theorem TimeState.Reached.follows {CNetAddr : Type} {s : TimeState CNetAddr}
    (reached : s.Reached values) (few : values.length < 300) : s.Follows := by
  intro enough a b low high held
  rw [CMedianFilter.size, reached.held, length_window] at enough
  rw [reached.held] at held
  have length : (values.take (updated values.length)).length = updated values.length := by
    rw [List.length_take]
    unfold updated
    omega
  have late : ¬updated values.length < 5 := by
    unfold updated
    omega
  have found := mem_of_middle (values.take (updated values.length)) (by omega)
  rw [length] at found
  have lower : a ≤ middle (values.take (updated values.length)) := by
    refine le_of_countP_le found ((countP_first (fun v member => ?_) _).trans ?_)
    · exact decide_eq_false (not_lt.mpr (held v member).1)
    · unfold updated
      omega
  have upper : middle (values.take (updated values.length)) ≤ b := by
    apply ge_of_countP_lt found
    have bound : (values.take (updated values.length)).countP (b < ·) ≤ values.length - 200 :=
      countP_first (fun v member => decide_eq_false (not_lt.mpr (held v member).2)) _
    rw [length]
    unfold updated at *
    omega
  have near : |middle (values.take (updated values.length))| < 70 * 60 := abs_lt.mpr ⟨by omega, by omega⟩
  rw [reached.offset, offsetOf, if_neg late, limited, if_pos near]
  exact ⟨lower, upper⟩

/-- Peers whose clocks agree with ours, and then peers whose clocks are ten seconds ahead. -/
def changingPeers {CNetAddr : Type} (ips : List CNetAddr) : List (TimeData CNetAddr) :=
  (ips.take 99).map (fun ip => ⟨ip, 0, 0⟩) ++ (ips.drop 99).map fun ip => ⟨ip, 10, 0⟩

theorem samples_changing {CNetAddr : Type} {ips : List CNetAddr} (many : 299 ≤ ips.length) :
    0 :: (changingPeers ips).map (·.sample) = List.replicate 100 0 ++ List.replicate (ips.length - 99) 10 := by
  have first : (ips.take 99).map (fun _ => (0 : ℤ)) = List.replicate 99 0 := by
    rw [List.map_const', List.length_take_of_le (by omega)]
  have second : (ips.drop 99).map (fun _ => (10 : ℤ)) = List.replicate (ips.length - 99) 10 := by
    rw [List.map_const', List.length_drop]
  rw [changingPeers, List.map_append, List.map_map, List.map_map]
  change 0 :: ((ips.take 99).map (fun _ => (0 : ℤ)) ++ (ips.drop 99).map fun _ => (10 : ℤ)) = _
  rw [first, second]
  rfl

/-- The offset is that of the first peers when all values are those of the last. -/
theorem not_follows {CNetAddr : Type} {s : TimeState CNetAddr} {n : ℕ} (many : 200 ≤ n)
    (reached : s.Reached (List.replicate 100 0 ++ List.replicate n 10)) : ¬s.Follows := by
  intro follows
  have length : (List.replicate 100 (0 : ℤ) ++ List.replicate n 10).length = 100 + n := by
    rw [List.length_append, List.length_replicate, List.length_replicate]
  have ten : ∀ v ∈ s.vTimeOffsets.vValues, 10 ≤ v ∧ v ≤ 10 := by
    intro v member
    rw [reached.held, window, length, List.drop_append, List.drop_replicate, List.drop_replicate,
      Nat.sub_eq_zero_of_le (by omega : 100 ≤ 100 + n - 200), List.replicate_zero, List.nil_append] at member
    rw [List.eq_of_mem_replicate member]
    exact ⟨le_rfl, le_rfl⟩
  have enough : 5 ≤ s.vTimeOffsets.size := by
    rw [CMedianFilter.size, reached.held, length_window, length]
    omega
  have offset := (follows enough 10 10 (by decide) (by decide) ten).1
  have last : updated (100 + n) = 199 := by
    unfold updated
    omega
  have early : (List.replicate 100 (0 : ℤ) ++ List.replicate n 10).take 199 =
      List.replicate 100 0 ++ List.replicate 99 10 := by
    rw [List.take_append, List.take_replicate, List.take_replicate, List.length_replicate]
    congr 2
    omega
  have zero : middle (List.replicate 100 0 ++ List.replicate 99 10) ≤ 0 := by
    have size : (List.replicate 100 (0 : ℤ) ++ List.replicate 99 10).length = 199 := by
      rw [List.length_append, List.length_replicate, List.length_replicate]
    have found := mem_of_middle (List.replicate 100 (0 : ℤ) ++ List.replicate 99 10) (by omega)
    rw [size] at found
    apply ge_of_countP_lt found
    rw [size, List.countP_append, List.countP_replicate, List.countP_replicate, if_neg (by decide), if_pos (by decide)]
    decide
  rw [reached.offset, offsetOf, length, last, early, if_neg (by decide), limited] at offset
  split at offset
  · exact absurd (offset.trans zero) (by decide)
  · exact absurd offset (by decide)

theorem changingPeers_ip {CNetAddr : Type} (ips : List CNetAddr) : (changingPeers ips).map (·.ip) = ips := by
  rw [changingPeers, List.map_append, List.map_map, List.map_map]
  exact (congrArg₂ _ (List.map_id _) (List.map_id _)).trans (List.take_append_drop 99 ips)

theorem changingPeers_inRange {CNetAddr : Type} (ips : List CNetAddr) :
    ∀ call ∈ changingPeers ips, call.InRange := by
  intro call member
  rcases List.mem_append.mp member with member | member
  · obtain ⟨ip, -, rfl⟩ := List.mem_map.mp member
    exact (by decide : -2 ^ 63 < (0 : ℤ) - 0 ∧ (0 : ℤ) - 0 < 2 ^ 63)
  · obtain ⟨ip, -, rfl⟩ := List.mem_map.mp member
    exact (by decide : -2 ^ 63 < (10 : ℤ) - 0 ∧ (10 : ℤ) - 0 < 2 ^ 63)

theorem exists_not_follows {ips : List CNetAddr} (distinct : ips.Nodup) (many : 299 ≤ ips.length) :
    ∃ s, addTimeDataRun (changingPeers ips) = .ok s ∧ ¬s.Follows := by
  obtain ⟨s, values, run, reached, -, taken⟩ := addTimeDataRun_reached (changingPeers_inRange ips)
  rw [changingPeers_ip] at taken
  rw [taken distinct, samples_changing many] at reached
  exact ⟨s, run, not_follows (by omega) reached⟩

/-- With fewer than 299 peers the network time follows them, in every run whose samples have a magnitude. From 299
peers on there is a run after which it does not. -/
theorem networkTime_follows {CNetAddr : Type} [DecidableEq CNetAddr] :
    (∀ calls : List (TimeData CNetAddr), (∀ call ∈ calls, call.InRange) →
      (calls.map (·.ip)).toFinset.card < 299 → ∃ s, addTimeDataRun calls = .ok s ∧ s.Follows) ∧
    ∀ ips : List CNetAddr, ips.Nodup → 299 ≤ ips.length → ∃ calls : List (TimeData CNetAddr),
      calls.map (·.ip) = ips ∧ (∀ call ∈ calls, call.InRange) ∧ ∃ s, addTimeDataRun calls = .ok s ∧ ¬s.Follows := by
  refine ⟨fun calls range few => ?_, fun ips distinct many => ?_⟩
  · obtain ⟨s, values, run, reached, known, -⟩ := addTimeDataRun_reached range
    refine ⟨s, run, reached.follows ?_⟩
    have := reached.count
    rw [known] at this
    omega
  · obtain ⟨s, run, far⟩ := exists_not_follows distinct many
    exact ⟨changingPeers ips, changingPeers_ip ips, changingPeers_inRange ips, s, run, far⟩

/-- Five samples of one second move the clock by a second. -/
theorem networkTime_follows_five : ∃ s, addTimeDataRun ((List.range 5).map fun ip => ⟨ip, 1, 0⟩) = .ok s ∧ s.Follows :=
  networkTime_follows.1 _ (by decide) (by decide)

/-- Ninety-nine clocks that agree with ours, and then two hundred that are ten seconds ahead. -/
theorem networkTime_frozen : ∃ calls : List (TimeData ℕ), (calls.map (·.ip)).Nodup ∧
    (∀ call ∈ calls, call.InRange) ∧ ∃ s, addTimeDataRun calls = .ok s ∧ ¬s.Follows := by
  refine ⟨changingPeers (List.range 299), ?_, changingPeers_inRange _, exists_not_follows List.nodup_range ?_⟩
  · rw [changingPeers_ip]
    exact List.nodup_range
  · rw [List.length_range]

end BitCrystal
