import BitCrystal.Machine.BitField
import BitCrystal.Model.BloomFilter

/-! # What a bloom filter holds

A key has probes, which depend on the size of the filter, its number of hash functions and its tweak
alone. A filter contains the keys all of whose probes are marked, and an insertion marks the probes of
the key and nothing else. The saturated filter of one byte is no exception: all its bits are marked.
-/

namespace BitCrystal

open BitField Check

theorem bitMaskAt_eq (nIndex : ℕ) : bitMaskAt nIndex = mask (nIndex % 8) := by
  have all : ∀ k : Fin 8, bitMask.get k = mask k := by decide
  rw [bitMaskAt, all]
  exact congrArg mask ((Nat.and_comm ..).trans (Nat.and_two_pow_sub_one_eq_mod nIndex 3))

namespace CBloomFilter

variable (murmur : MurmurHash)

/-- The bit for one hash function. -/
def probe (filter : CBloomFilter) (vKey : List UInt8) (i : ℕ) : ℕ :=
  (murmur (UInt32.ofNat i * 0xFBA4C795 + filter.nTweak) vKey).toNat % (filter.vData.length * 8)

/-- The bits an insertion of the key marks. -/
def probes (filter : CBloomFilter) (vKey : List UInt8) : Set ℕ :=
  {n | ∃ i < filter.nHashFuncs.toNat, filter.probe murmur vKey i = n}

/-- The filters differ at most in their bits, and no bit has been cleared. -/
structure Grows (filter later : CBloomFilter) : Prop where
  length : later.vData.length = filter.vData.length
  nHashFuncs : later.nHashFuncs = filter.nHashFuncs
  nTweak : later.nTweak = filter.nTweak
  nFlags : later.nFlags = filter.nFlags
  marked : marked filter.vData ⊆ marked later.vData

theorem Grows.refl (filter : CBloomFilter) : filter.Grows filter := ⟨rfl, rfl, rfl, rfl, subset_rfl⟩

variable {murmur} {filter middle later : CBloomFilter} {vKey : List UInt8}

theorem Grows.trans (first : filter.Grows middle) (second : middle.Grows later) : filter.Grows later :=
  ⟨second.length.trans first.length, second.nHashFuncs.trans first.nHashFuncs, second.nTweak.trans first.nTweak,
    second.nFlags.trans first.nFlags, first.marked.trans second.marked⟩

theorem Grows.nonempty (grows : filter.Grows later) (nonempty : filter.vData ≠ []) : later.vData ≠ [] := by
  rw [← List.length_pos_iff, grows.length, List.length_pos_iff]
  exact nonempty

/-- No operation on the filter is undefined: it has bits or does not look at them. -/
def Safe (filter : CBloomFilter) : Prop := filter.vData ≠ [] ∨ filter.nHashFuncs = 0

theorem Grows.safe (grows : filter.Grows later) (safe : filter.Safe) : later.Safe := by
  rcases safe with nonempty | zero
  · exact .inl (grows.nonempty nonempty)
  · exact .inr (grows.nHashFuncs.trans zero)

theorem Grows.probe (grows : filter.Grows later) (i : ℕ) :
    later.probe murmur vKey i = filter.probe murmur vKey i := by
  simp only [CBloomFilter.probe, grows.nTweak, grows.length]

theorem Grows.probes (grows : filter.Grows later) : later.probes murmur vKey = filter.probes murmur vKey := by
  simp only [CBloomFilter.probes, grows.nHashFuncs, grows.probe]

theorem hash_eq (nonempty : filter.vData ≠ []) (i : ℕ) :
    filter.hash murmur (UInt32.ofNat i) vKey = .ok (filter.probe murmur vKey i) := by
  have positive := List.length_pos_iff.mpr nonempty
  rw [hash, if_neg (by omega), probe]

variable (murmur vKey)

section

variable (nonempty : filter.vData ≠ [])
include nonempty

private theorem probe_lt (i : ℕ) : filter.probe murmur vKey i < filter.vData.length * 8 := by
  have positive := List.length_pos_iff.mpr nonempty
  exact Nat.mod_lt _ (by omega)

/-- The byte a probe looks at. -/
private theorem exists_byte (i : ℕ) : ∃ byte, filter.vData[filter.probe murmur vKey i / 8]? = some byte := by
  have bound := probe_lt murmur vKey nonempty i
  exact ⟨_, List.getElem?_eq_getElem (by omega)⟩

theorem containsRound_eq (i : ℕ) : ∃ found, filter.containsRound murmur vKey i = .ok found ∧
      (found = true ↔ filter.probe murmur vKey i ∈ marked filter.vData) := by
  obtain ⟨byte, found⟩ := exists_byte murmur vKey nonempty i
  refine ⟨_, ?_, (decide_eq_true_iff).trans (mem_marked found).symm⟩
  rw [containsRound, hash_eq nonempty, ok_bind, Nat.shiftRight_eq_div_pow, found, bitMaskAt_eq]
  rfl

theorem insertRound_eq (i : ℕ) : ∃ later, filter.insertRound murmur vKey i = .ok later ∧ filter.Grows later ∧
      marked later.vData = Insert.insert (filter.probe murmur vKey i) (marked filter.vData) := by
  obtain ⟨byte, found⟩ := exists_byte murmur vKey nonempty i
  have bits := marked_set found
  refine ⟨{ filter with vData := filter.vData.set _ _ }, ?_, ⟨?_, rfl, rfl, rfl, ?_⟩, bits⟩
  · rw [insertRound, hash_eq nonempty, ok_bind, Nat.shiftRight_eq_div_pow, found, bitMaskAt_eq]
    rfl
  · exact List.length_set
  · rw [bits]
    exact Set.subset_insert ..

private theorem allM_containsRound (l : List ℕ) : ∃ found, l.allM (filter.containsRound murmur vKey) = .ok found ∧
      (found = true ↔ ∀ i ∈ l, filter.probe murmur vKey i ∈ marked filter.vData) := by
  induction l with
  | nil => exact ⟨true, rfl, by simp⟩
  | cons i l ih =>
    obtain ⟨first, round, here⟩ := containsRound_eq murmur vKey nonempty i
    obtain ⟨rest, rounds, there⟩ := ih
    rw [List.allM, round, ok_bind]
    cases first with
    | false => exact ⟨false, rfl, by simp [← here]⟩
    | true => exact ⟨rest, rounds, by simp [← here, ← there]⟩

private theorem foldlM_insertRound (l : List ℕ) : ∃ later,
    l.foldlM (fun filter i => filter.insertRound murmur vKey i) filter = .ok later ∧ filter.Grows later ∧
      marked later.vData = marked filter.vData ∪ {n | ∃ i ∈ l, filter.probe murmur vKey i = n} := by
  induction l generalizing filter with
  | nil => exact ⟨filter, rfl, Grows.refl filter, by simp⟩
  | cons i l ih =>
    obtain ⟨middle, round, grows, bits⟩ := insertRound_eq murmur vKey nonempty i
    obtain ⟨later, rounds, grows', bits'⟩ := ih (grows.nonempty nonempty)
    refine ⟨later, ?_, grows.trans grows', ?_⟩
    · rw [List.foldlM_cons, round, ok_bind, rounds]
    · rw [bits', bits]
      ext n
      simp only [grows.probe, Set.mem_union, Set.mem_insert_iff, Set.mem_ofPred_eq, List.exists_mem_cons_iff]
      rw [or_comm (a := n = _), or_assoc, eq_comm (a := n)]

end

variable {murmur vKey}

private theorem saturated (full : filter.isSaturated) : filter.probes murmur vKey ⊆ marked filter.vData := by
  have bits : filter.vData = [0xff] := full
  have nonempty : filter.vData ≠ [] := by
    rw [bits]
    exact List.cons_ne_nil _ _
  rintro n ⟨i, -, rfl⟩
  have bound := probe_lt murmur vKey nonempty i
  rw [bits] at bound ⊢
  exact mem_marked_full bound

private theorem probes_of_zero (zero : filter.nHashFuncs = 0) : filter.probes murmur vKey = ∅ := by
  simp [probes, zero]

theorem contains_eq (murmur : MurmurHash) (safe : filter.Safe) (vKey : List UInt8) : ∃ found,
    filter.contains murmur vKey = .ok found ∧
      (found = true ↔ filter.probes murmur vKey ⊆ marked filter.vData) := by
  rw [contains]
  split_ifs with full
  · exact ⟨true, rfl, iff_of_true rfl (saturated full)⟩
  rcases safe with nonempty | zero
  · obtain ⟨found, rounds, all⟩ := allM_containsRound murmur vKey nonempty (List.range filter.nHashFuncs.toNat)
    refine ⟨found, rounds, all.trans ?_⟩
    simp [probes, Set.subset_def]
  · rw [zero, probes_of_zero zero]
    exact ⟨true, rfl, iff_of_true rfl (Set.empty_subset _)⟩

theorem insert_eq (murmur : MurmurHash) (safe : filter.Safe) (vKey : List UInt8) : ∃ later,
    filter.insert murmur vKey = .ok later ∧ filter.Grows later ∧
      marked later.vData = marked filter.vData ∪ filter.probes murmur vKey := by
  rw [insert]
  split_ifs with full
  · exact ⟨filter, rfl, Grows.refl filter, (Set.union_eq_left.mpr (saturated full)).symm⟩
  rcases safe with nonempty | zero
  · obtain ⟨later, rounds, grows, bits⟩ :=
      foldlM_insertRound murmur vKey nonempty (List.range filter.nHashFuncs.toNat)
    refine ⟨later, rounds, grows, ?_⟩
    simpa [probes] using bits
  · rw [zero, probes_of_zero zero, Set.union_empty]
    exact ⟨filter, rfl, Grows.refl filter, rfl⟩

private theorem range_of_unsafe (unsound : ¬ filter.Safe) : ¬ filter.isSaturated ∧
    ∃ rest, List.range filter.nHashFuncs.toNat = 0 :: rest := by
  rw [Safe, not_or, not_ne_iff] at unsound
  obtain ⟨empty, several⟩ := unsound
  have positive : filter.nHashFuncs.toNat ≠ 0 := fun zero => several (UInt32.toNat_inj.mp zero)
  obtain ⟨n, more⟩ := Nat.exists_eq_succ_of_ne_zero positive
  refine ⟨?_, _, by rw [more, List.range_succ_eq_map]⟩
  rw [isSaturated, empty]
  exact (List.cons_ne_nil _ _).symm

private theorem hash_undefined (unsound : ¬ filter.Safe) (nHashNum : UInt32) :
    filter.hash murmur nHashNum vKey = .error .undefined := by
  rw [Safe, not_or, not_ne_iff] at unsound
  rw [hash, unsound.1, if_pos (by rfl)]

theorem contains_undefined (unsound : ¬ filter.Safe) (vKey : List UInt8) :
    filter.contains murmur vKey = .error .undefined := by
  obtain ⟨other, rest, rounds⟩ := range_of_unsafe unsound
  rw [contains, if_neg other, rounds, List.allM, containsRound, hash_undefined unsound]
  rfl

theorem insert_undefined (unsound : ¬ filter.Safe) (vKey : List UInt8) :
    filter.insert murmur vKey = .error .undefined := by
  obtain ⟨other, rest, rounds⟩ := range_of_unsafe unsound
  rw [insert, if_neg other, rounds, List.foldlM_cons, insertRound, hash_undefined unsound]
  rfl

/-- The filter contains the key. -/
def Holds (murmur : MurmurHash) (filter : CBloomFilter) (vKey : List UInt8) : Prop :=
  filter.contains murmur vKey = .ok true

theorem holds_iff (safe : filter.Safe) :
    filter.Holds murmur vKey ↔ filter.probes murmur vKey ⊆ marked filter.vData := by
  obtain ⟨found, returned, value⟩ := contains_eq murmur safe vKey
  rw [Holds, returned, Except.ok.injEq, value]

theorem Grows.holds (grows : filter.Grows later) (safe : filter.Safe)
    (holds : filter.Holds murmur vKey) : later.Holds murmur vKey := by
  rw [holds_iff (grows.safe safe), grows.probes]
  exact ((holds_iff safe).mp holds).trans grows.marked

/-- An insertion returns, and the filter contains the key afterwards. -/
theorem insert_holds (murmur : MurmurHash) (safe : filter.Safe) (vKey : List UInt8) : ∃ later,
    filter.insert murmur vKey = .ok later ∧ filter.Grows later ∧ later.Holds murmur vKey := by
  obtain ⟨later, returned, grows, bits⟩ := insert_eq murmur safe vKey
  refine ⟨later, returned, grows, (holds_iff (grows.safe safe)).mpr ?_⟩
  rw [bits, grows.probes]
  exact Set.subset_union_right

end CBloomFilter

/-- The data an operation of the script pushes, of those that can be read. -/
inductive CScript.Pushes : CScript → List UInt8 → Prop
  | here {pc rest : CScript} {opcode : UInt8} {data : List UInt8} :
      CScript.getOp pc = some (opcode, data, rest) → Pushes pc data
  | behind {pc rest : CScript} {opcode : UInt8} {data pushed : List UInt8} :
      CScript.getOp pc = some (opcode, data, rest) → Pushes rest pushed → Pushes pc pushed

theorem CScript.Pushes.cases_of {pc rest : CScript} {opcode : UInt8} {data pushed : List UInt8}
    (pushes : Pushes pc pushed) (step : getOp pc = some (opcode, data, rest)) :
    pushed = data ∨ Pushes rest pushed := by
  rcases pushes with read | ⟨read, pushes⟩
  · rw [step] at read
    cases read
    exact .inl rfl
  · rw [step] at read
    cases read
    exact .inr pushes

namespace CBloomFilter

variable {murmur : MurmurHash} {filter middle later : CBloomFilter}

/-- The script pushes something that is not empty and that the filter contains. -/
def Matches (murmur : MurmurHash) (filter : CBloomFilter) (script : CScript) : Prop :=
  ∃ data, CScript.Pushes script data ∧ data ≠ [] ∧ filter.Holds murmur data

theorem Grows.matches (grows : filter.Grows later) (safe : filter.Safe) {script : CScript}
    (found : filter.Matches murmur script) : later.Matches murmur script := by
  obtain ⟨data, pushes, something, holds⟩ := found
  exact ⟨data, pushes, something, grows.holds safe holds⟩

theorem matchesScript_eq (murmur : MurmurHash) (safe : filter.Safe) {rounds : ℕ} {pc : CScript}
    (enough : pc.length ≤ rounds) : ∃ found, filter.matchesScript murmur rounds pc = .ok found ∧
      (found = true ↔ filter.Matches murmur pc) := by
  induction rounds generalizing pc with
  | zero =>
    have empty := List.eq_nil_of_length_eq_zero (Nat.le_zero.mp enough)
    refine ⟨false, rfl, iff_of_false nofun ?_⟩
    rintro ⟨data, pushes, -, -⟩
    rw [empty] at pushes
    rcases pushes with read | ⟨read, -⟩ <;> cases read
  | succ rounds ih =>
    rw [matchesScript]
    rcases step : CScript.getOp pc with _ | ⟨opcode, data, rest⟩
    · refine ⟨false, rfl, iff_of_false nofun ?_⟩
      rintro ⟨data, pushes, -, -⟩
      rcases pushes with read | ⟨read, -⟩ <;> rw [step] at read <;> cases read
    · have shorter := (CScript.getOp_suffix step).2
      have fewer : rest.length ≤ rounds := by omega
      obtain ⟨there, walked, value⟩ := ih fewer
      have split : filter.Matches murmur pc ↔
          (data ≠ [] ∧ filter.Holds murmur data) ∨ filter.Matches murmur rest := by
        constructor
        · rintro ⟨pushed, pushes, something, holds⟩
          rcases pushes.cases_of step with rfl | pushes
          · exact .inl ⟨something, holds⟩
          · exact .inr ⟨pushed, pushes, something, holds⟩
        · rintro (⟨something, holds⟩ | ⟨pushed, pushes, something, holds⟩)
          · exact ⟨data, .here step, something, holds⟩
          · exact ⟨pushed, .behind step pushes, something, holds⟩
      obtain ⟨here, returned, -⟩ := contains_eq murmur safe data
      rcases eq_or_ne data [] with rfl | something
      · refine ⟨there, ?_, ?_⟩
        · simpa using walked
        · simpa [split] using value
      · have size : data.length ≠ 0 := fun nothing => something (List.eq_nil_of_length_eq_zero nothing)
        have holds : here = true ↔ filter.Holds murmur data := by
          rw [Holds, returned, Except.ok.injEq]
        simp only [if_pos size, returned, ok_bind]
        cases here with
        | false => exact ⟨there, walked, by simp [split, ← holds, value]⟩
        | true => exact ⟨true, rfl, by simp [split, ← holds, something]⟩

/-- The flags make an output that matches add its outpoint. -/
def Updates (filter : CBloomFilter) (txout : CTxOut) : Prop :=
  filter.nFlags &&& BLOOM_UPDATE_MASK = BLOOM_UPDATE_ALL ∨
    filter.nFlags &&& BLOOM_UPDATE_MASK = BLOOM_UPDATE_P2PUBKEY_ONLY ∧ (solver txout.scriptPubKey).fSolved ∧
      ((solver txout.scriptPubKey).typeRet = .TX_PUBKEY ∨ (solver txout.scriptPubKey).typeRet = .TX_MULTISIG)

theorem Grows.updates (grows : filter.Grows later) {txout : CTxOut} (updates : filter.Updates txout) :
    later.Updates txout := by
  rw [Updates, grows.nFlags]
  exact updates

theorem updateAt_eq (murmur : MurmurHash) (safe : filter.Safe) (outpoint : COutPoint) (txout : CTxOut) : ∃ later,
    filter.updateAt murmur outpoint txout = .ok later ∧ filter.Grows later ∧
      (filter.Updates txout → later.Holds murmur outpoint.serialize) := by
  obtain ⟨later, inserted, grows, holds⟩ := insert_holds murmur safe outpoint.serialize
  simp only [updateAt]
  split_ifs with always onlyPubKey solved
  · exact ⟨later, inserted, grows, fun _ => holds⟩
  · exact ⟨later, inserted, grows, fun _ => holds⟩
  · refine ⟨filter, rfl, Grows.refl filter, ?_⟩
    rintro (other | ⟨-, solved'⟩)
    · exact absurd other always
    · exact absurd solved' solved
  · refine ⟨filter, rfl, Grows.refl filter, ?_⟩
    rintro (other | ⟨other, -⟩)
    · exact absurd other always
    · exact absurd other onlyPubKey

/-- The loop reports every output that matches the filter it starts with. -/
theorem outputLoop_eq (murmur : MurmurHash) (safe : filter.Safe) (hash : Uint256) (fFound : Bool) (i : ℕ)
    (vout : List CTxOut) : ∃ found later, filter.outputLoop murmur hash fFound i vout = .ok (found, later) ∧ filter.Grows later ∧
      (fFound = true → found = true) ∧
      ∀ k txout, vout[k]? = some txout → filter.Matches murmur txout.scriptPubKey →
        found = true ∧ (filter.Updates txout → later.Holds murmur (COutPoint.serialize ⟨hash, i + k⟩)) := by
  induction vout generalizing filter fFound i with
  | nil => exact ⟨fFound, filter, rfl, Grows.refl filter, id, nofun⟩
  | cons head rest ih =>
    rw [outputLoop]
    obtain ⟨matched, walked, value⟩ := matchesScript_eq murmur safe
      (le_refl head.scriptPubKey.length)
    rw [walked, ok_bind]
    cases matched with
    | false =>
      obtain ⟨found, later, returned, grows, kept, all⟩ := ih safe fFound (i + 1)
      refine ⟨found, later, returned, grows, kept, ?_⟩
      rintro (_ | k) txout there matching
      · cases there
        cases value.mpr matching
      · rw [show i + (k + 1) = i + 1 + k by omega]
        exact all k txout there matching
    | true =>
      obtain ⟨middle, updated, growsHere, holdsHere⟩ := updateAt_eq murmur safe ⟨hash, i⟩ head
      have safe' := growsHere.safe safe
      obtain ⟨found, later, returned, grows, kept, all⟩ := ih safe' true (i + 1)
      refine ⟨found, later, ?_, growsHere.trans grows, fun _ => kept rfl, ?_⟩
      · rw [if_pos rfl, updated, ok_bind, returned]
      rintro (_ | k) txout there matching
      · cases there
        exact ⟨kept rfl, fun updates => grows.holds safe' (holdsHere updates)⟩
      · obtain ⟨reported, holds⟩ := all k txout there (growsHere.matches safe matching)
        rw [show i + (k + 1) = i + 1 + k by omega]
        exact ⟨reported, fun updates => holds (growsHere.updates updates)⟩

theorem inputLoop_eq (murmur : MurmurHash) (safe : filter.Safe) (vin : List CTxIn) : ∃ found,
    filter.inputLoop murmur vin = .ok found ∧
      ((∃ txin ∈ vin, filter.Holds murmur txin.prevout.serialize) → found = true) := by
  induction vin with
  | nil => exact ⟨false, rfl, fun ⟨txin, member, _⟩ => absurd member List.not_mem_nil⟩
  | cons head rest ih =>
    obtain ⟨later, looped, reported⟩ := ih
    obtain ⟨spent, returned, -⟩ := contains_eq murmur safe head.prevout.serialize
    obtain ⟨matched, walked, -⟩ := matchesScript_eq murmur safe
      (le_refl head.scriptSig.length)
    rw [inputLoop, containsOutPoint, returned, ok_bind]
    cases spent with
    | true => exact ⟨true, rfl, fun _ => rfl⟩
    | false =>
      rw [if_neg Bool.false_ne_true, walked, ok_bind]
      cases matched with
      | true => exact ⟨true, rfl, fun _ => rfl⟩
      | false =>
        refine ⟨later, looped, ?_⟩
        rintro ⟨txin, member, holds⟩
        rcases List.mem_cons.mp member with rfl | member
        · rw [Holds, returned] at holds
          cases holds
        · exact reported ⟨txin, member, holds⟩

/-- A transaction is reported when one of its outputs matches or the filter contains an outpoint it
spends, and the outpoints of matching outputs are added as the flags say. -/
theorem isRelevantAndUpdate_eq (murmur : MurmurHash) (safe : filter.Safe) (tx : CTransaction) (hash : Uint256) :
    ∃ found later, filter.isRelevantAndUpdate murmur tx hash = .ok (found, later) ∧ filter.Grows later ∧
      ((∃ out ∈ tx.prevouts, filter.Holds murmur out.serialize) → found = true) ∧
      ∀ i txout, tx.vout[i]? = some txout → filter.Matches murmur txout.scriptPubKey →
        found = true ∧ (filter.Updates txout → later.Holds murmur (COutPoint.serialize ⟨hash, i⟩)) := by
  obtain ⟨fFound, contained, -⟩ := contains_eq murmur safe (LittleEndian.encode 32 hash)
  obtain ⟨found, later, outputs, grows, -, all⟩ :=
    outputLoop_eq murmur safe hash fFound 0 tx.vout
  simp only [Nat.zero_add] at all
  rw [isRelevantAndUpdate, containsHash, contained, ok_bind, outputs, ok_bind]
  cases found with
  | true => exact ⟨true, later, rfl, grows, fun _ => rfl, all⟩
  | false =>
    obtain ⟨spends, inputs, reported⟩ := inputLoop_eq murmur (grows.safe safe) tx.vin
    refine ⟨spends, later, ?_, grows, ?_, ?_⟩
    · change (do let fFound ← later.inputLoop murmur tx.vin; pure (fFound, later)) = _
      rw [inputs]
      rfl
    · rintro ⟨out, member, holds⟩
      obtain ⟨txin, inside, rfl⟩ := List.mem_map.mp member
      exact reported ⟨txin, inside, grows.holds safe holds⟩
    · intro i txout there matching
      cases (all i txout there matching).1

end CBloomFilter

end BitCrystal
