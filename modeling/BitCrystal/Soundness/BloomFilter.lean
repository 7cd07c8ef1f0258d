import BitCrystal.Model.TestNet
import BitCrystal.Proofs.BloomFilter
import BitCrystal.Proofs.MerkleTrace

/-! # Bloom filters do not miss, and safe ones do not fail

A filter only grows. What it contains it keeps, so a spender of an output that matched and was added
is reported whatever has been inserted in between. A filter a peer supplies is safe unless it asks for
bits of an empty byte string.
-/

namespace BitCrystal

open Check

/-- The calls that may change a filter. -/
inductive FilterCall
  | insert (vKey : List UInt8)
  | insertOutPoint (outpoint : COutPoint)
  | insertHash (hash : Uint256)
  | isRelevantAndUpdate (tx : CTransaction) (hash : Uint256)

namespace CBloomFilter

variable (murmur : MurmurHash)

def call (filter : CBloomFilter) : FilterCall → Check CBloomFilter
  | .insert vKey => filter.insert murmur vKey
  | .insertOutPoint outpoint => filter.insertOutPoint murmur outpoint
  | .insertHash hash => filter.insertHash murmur hash
  | .isRelevantAndUpdate tx hash => do
    let (_, filter) ← filter.isRelevantAndUpdate murmur tx hash
    return filter

/-- A sequence of calls. -/
def run (filter : CBloomFilter) (calls : List FilterCall) : Check CBloomFilter := calls.foldlM (call murmur) filter

variable {murmur} {filter : CBloomFilter}

theorem call_eq (murmur : MurmurHash) (safe : filter.Safe) (request : FilterCall) : ∃ later,
    filter.call murmur request = .ok later ∧ filter.Grows later := by
  have inserted (vKey : List UInt8) : ∃ later, filter.insert murmur vKey = .ok later ∧ filter.Grows later := by
    obtain ⟨later, returned, grows, -⟩ := insert_eq murmur safe vKey
    exact ⟨later, returned, grows⟩
  cases request with
  | insert vKey => exact inserted vKey
  | insertOutPoint outpoint => exact inserted _
  | insertHash hash => exact inserted _
  | isRelevantAndUpdate tx hash =>
    obtain ⟨found, later, returned, grows, -⟩ := isRelevantAndUpdate_eq murmur safe tx hash
    refine ⟨later, ?_, grows⟩
    rw [call, returned]
    rfl

theorem run_eq (murmur : MurmurHash) (safe : filter.Safe) (calls : List FilterCall) : ∃ later,
    filter.run murmur calls = .ok later ∧ filter.Grows later := by
  induction calls generalizing filter with
  | nil => exact ⟨filter, rfl, Grows.refl filter⟩
  | cons request calls ih =>
    obtain ⟨middle, returned, grows⟩ := call_eq murmur safe request
    obtain ⟨later, returned', grows'⟩ := ih (grows.safe safe)
    refine ⟨later, ?_, grows.trans grows'⟩
    rw [run, List.foldlM_cons, returned, ok_bind]
    exact returned'

/-- A key stays in the filter, and a spender of an output that was added is reported. -/
theorem no_false_negatives (murmur : MurmurHash) {filter : CBloomFilter} (nonempty : filter.vData ≠ []) :
    (∀ (vKey : List UInt8) (calls : List FilterCall), ∃ later,
      filter.run murmur (.insert vKey :: calls) = .ok later ∧ later.contains murmur vKey = .ok true) ∧
    ∀ (tx : CTransaction) (hash : Uint256) (i : ℕ) (txout : CTxOut) (data : List UInt8),
      tx.vout[i]? = some txout → txout.scriptPubKey.Pushes data → data ≠ [] →
      filter.contains murmur data = .ok true → filter.Updates txout → ∀ calls : List FilterCall, ∃ later,
      filter.run murmur (.isRelevantAndUpdate tx hash :: calls) = .ok later ∧
        ∀ (spender : CTransaction) (hashSpender : Uint256), ⟨hash, i⟩ ∈ spender.prevouts →
          ∃ last, later.isRelevantAndUpdate murmur spender hashSpender = .ok (true, last) := by
  have safe : filter.Safe := .inl nonempty
  constructor
  · intro vKey calls
    obtain ⟨middle, inserted, grows, holds⟩ := insert_holds murmur safe vKey
    obtain ⟨later, returned, grows'⟩ := run_eq murmur (grows.safe safe) calls
    refine ⟨later, ?_, grows'.holds (grows.safe safe) holds⟩
    rw [run, List.foldlM_cons, call, inserted, ok_bind]
    exact returned
  · intro tx hash i txout data there pushes something holds updates calls
    obtain ⟨found, middle, called, grows, -, all⟩ := isRelevantAndUpdate_eq murmur safe tx hash
    have added := (all i txout there ⟨data, pushes, something, holds⟩).2 updates
    obtain ⟨later, returned, grows'⟩ := run_eq murmur (grows.safe safe) calls
    refine ⟨later, ?_, ?_⟩
    · rw [run, List.foldlM_cons, call, called]
      exact returned
    · intro spender hashSpender spends
      have safe' := grows'.safe (grows.safe safe)
      obtain ⟨reported, last, called', -, inputs, -⟩ :=
        isRelevantAndUpdate_eq murmur safe' spender hashSpender
      have yes := inputs ⟨_, spends, grows'.holds (grows.safe safe) added⟩
      exact ⟨last, by rw [called', yes]⟩

/-- The hash of a key, a payment to it, and the filter of a client that watches it. -/
def watchedKey : List UInt8 :=
  [0x99, 0x10, 0x8a, 0xd8, 0xed, 0x9b, 0xb6, 0x27, 0x4d, 0x39, 0x80, 0xba, 0xb5, 0xa8, 0x5c, 0x04, 0x8f, 0x09, 0x50,
    0xc8]

def watchedOut : CTxOut := ⟨COIN, OP_DUP :: OP_HASH160 :: 20 :: watchedKey ++ [OP_EQUALVERIFY, OP_CHECKSIG]⟩

def watching : CBloomFilter := ⟨[0x01, 0x00, 0x98], 5, 0, BLOOM_UPDATE_ALL⟩

example : CBloomFilter.insert murmurHash3 ⟨[0, 0, 0], 5, 0, BLOOM_UPDATE_ALL⟩ watchedKey = .ok watching := by
  decide

theorem no_false_negatives_watching : ∃ later,
    watching.run murmurHash3 [.isRelevantAndUpdate ⟨1, [], [watchedOut], 0, []⟩ 7, .insert [1]] = .ok later ∧
    ∃ last, later.isRelevantAndUpdate murmurHash3 ⟨1, [⟨⟨7, 0⟩, [], UINT_MAX⟩], [], 0, []⟩ 8 = .ok (true, last) := by
  have pushes : watchedOut.scriptPubKey.Pushes watchedKey := .behind rfl (.behind rfl (.here rfl))
  have holds : watching.contains murmurHash3 watchedKey = .ok true := by decide
  have nonempty : watching.vData ≠ [] := List.cons_ne_nil _ _
  obtain ⟨later, ran, reported⟩ := (no_false_negatives murmurHash3 nonempty).2
    ⟨1, [], [watchedOut], 0, []⟩ 7 0 watchedOut watchedKey rfl pushes (List.cons_ne_nil _ _) holds (.inl rfl)
    [.insert [1]]
  exact ⟨later, ran, reported _ 8 (List.mem_singleton_self _)⟩

end CBloomFilter

/-- What reaches the filter of a peer after `filterload`. -/
inductive FilterEvent
  | filteradd (vData : List UInt8)
  | relevant (tx : CTransaction) (hash : Uint256)

namespace FilterPeer

variable (murmur : MurmurHash)

def handle (pfrom : FilterPeer) : FilterEvent → Check FilterPeer
  | .filteradd vData => pfrom.filteradd murmur vData
  | .relevant tx hash => do
    let (_, pfrom) ← pfrom.relevant murmur tx hash
    return pfrom

def handleAll (pfrom : FilterPeer) (events : List FilterEvent) : Check FilterPeer :=
  events.foldlM (handle murmur) pfrom

variable {murmur} {pfrom : FilterPeer} {filter : CBloomFilter}

theorem handle_eq (murmur : MurmurHash) (loaded : pfrom.pfilter = some filter) (safe : filter.Safe)
    (event : FilterEvent) : ∃ next filter', pfrom.handle murmur event = .ok next ∧ next.pfilter = some filter' ∧ filter'.Safe := by
  cases event with
  | filteradd vData =>
    rw [handle, filteradd, loaded]
    split_ifs with large
    · exact ⟨_, filter, rfl, loaded, safe⟩
    · obtain ⟨later, inserted, grows, -⟩ := CBloomFilter.insert_eq murmur safe vData
      simp only [inserted, ok_bind]
      exact ⟨_, later, rfl, rfl, grows.safe safe⟩
  | relevant tx hash =>
    obtain ⟨found, later, called, grows, -⟩ := CBloomFilter.isRelevantAndUpdate_eq murmur safe tx hash
    simp only [handle, relevant, loaded, called, ok_bind]
    exact ⟨_, later, rfl, rfl, grows.safe safe⟩

theorem handleAll_eq (murmur : MurmurHash) (loaded : pfrom.pfilter = some filter) (safe : filter.Safe)
    (events : List FilterEvent) : ∃ next, pfrom.handleAll murmur events = .ok next := by
  induction events generalizing pfrom filter with
  | nil => exact ⟨pfrom, rfl⟩
  | cons event events ih =>
    obtain ⟨next, filter', handled, loaded', safe'⟩ := handle_eq murmur loaded safe event
    obtain ⟨last, rest⟩ := ih loaded' safe'
    refine ⟨last, ?_⟩
    rw [handleAll, List.foldlM_cons, handled, ok_bind]
    exact rest

theorem handle_undefined (murmur : MurmurHash) (loaded : pfrom.pfilter = some filter) (unsound : ¬ filter.Safe)
    {event : FilterEvent}
    (small : ∀ vData, event = .filteradd vData → vData.length ≤ MAX_SCRIPT_ELEMENT_SIZE) :
    pfrom.handle murmur event = .error .undefined := by
  cases event with
  | filteradd vData =>
    simp only [handle, filteradd, if_neg (not_lt.mpr (small vData rfl)), loaded,
      CBloomFilter.insert_undefined unsound, error_bind]
  | relevant tx hash =>
    simp only [handle, relevant, loaded, CBloomFilter.isRelevantAndUpdate, CBloomFilter.containsHash,
      CBloomFilter.contains_undefined unsound, error_bind]

/-- Nothing undefined happens with the filter of a peer exactly when it has bits, looks at none, or
is not used. -/
theorem handleAll_defined_iff (murmur : MurmurHash) (pfrom : FilterPeer) {filter : CBloomFilter}
    (constraints : filter.isWithinSizeConstraints) {events : List FilterEvent}
    (small : ∀ vData, FilterEvent.filteradd vData ∈ events → vData.length ≤ MAX_SCRIPT_ELEMENT_SIZE) :
    (pfrom.filterload filter).handleAll murmur events ≠ .error .undefined ↔
      filter.vData ≠ [] ∨ filter.nHashFuncs = 0 ∨ events = [] := by
  have loaded : (pfrom.filterload filter).pfilter = some filter := by rw [filterload, if_pos constraints]
  rw [← or_assoc]
  constructor
  · intro defined
    by_contra neither
    obtain ⟨unsound, used⟩ := not_or.mp neither
    obtain ⟨event, rest, rfl⟩ := List.exists_cons_of_ne_nil used
    apply defined
    have allowed : ∀ vData, event = .filteradd vData → vData.length ≤ MAX_SCRIPT_ELEMENT_SIZE := by
      rintro vData rfl
      exact small vData (List.mem_cons_self ..)
    have first := handle_undefined murmur loaded unsound allowed
    rw [handleAll, List.foldlM_cons, first, error_bind]
  · rintro (safe | rfl)
    · obtain ⟨next, handled⟩ := handleAll_eq murmur loaded safe events
      rw [handled]
      exact nofun
    · exact nofun

theorem handleAll_defined_iff_watching : ((({} : FilterPeer).filterload .watching).handleAll murmurHash3
      [.filteradd [1, 2, 3]] ≠ .error .undefined ↔ True) ∧
    ((({} : FilterPeer).filterload ⟨[], 0, 5, 1⟩).handleAll murmurHash3 [.filteradd [1]] ≠ .error .undefined) :=
  ⟨(handleAll_defined_iff murmurHash3 {} (by decide) (by simp [MAX_SCRIPT_ELEMENT_SIZE])).trans (by decide),
    (handleAll_defined_iff murmurHash3 {} (by decide) (by simp [MAX_SCRIPT_ELEMENT_SIZE])).mpr (.inr (.inl rfl))⟩

/-- A filter without bits that asks for one hash function passes the check, and its first use divides
by zero. -/
theorem handleAll_undefined_empty : (⟨[], 1, 0, BLOOM_UPDATE_NONE⟩ : CBloomFilter).isWithinSizeConstraints ∧
    (({} : FilterPeer).filterload ⟨[], 1, 0, BLOOM_UPDATE_NONE⟩).handleAll murmurHash3 [.filteradd [1]] =
      .error .undefined := by decide

end FilterPeer

namespace CMerkleBlock

open CPartialMerkleTree HashTree

variable {P : Platform} {murmur : MurmurHash}

/-- The client has to see the transaction. -/
inductive Concerns (P : Platform) (murmur : MurmurHash) (filter : CBloomFilter) (earlier : List CTransaction)
    (tx : CTransaction) : Prop
  | pays {i : ℕ} {txout : CTxOut} (output : tx.vout[i]? = some txout)
      (matching : filter.Matches murmur txout.scriptPubKey) : Concerns P murmur filter earlier tx
  | spends {out : COutPoint} (input : out ∈ tx.prevouts) (holds : filter.Holds murmur out.serialize) :
      Concerns P murmur filter earlier tx
  /-- It spends a matching output of an earlier transaction, which the flags make the filter add. -/
  | follows {payer : CTransaction} {i : ℕ} {txout : CTxOut} (before : payer ∈ earlier)
      (output : payer.vout[i]? = some txout) (matching : filter.Matches murmur txout.scriptPubKey)
      (updates : filter.Updates txout) (input : ⟨payer.getHash P, i⟩ ∈ tx.prevouts) : Concerns P murmur filter earlier tx

/-- The loop reports what concerns the filter it starts with. -/
theorem matchRounds {m : Matching} (safe : m.filter.Safe) (vtx : List CTransaction) (n : ℕ) : ∃ m' mask,
    (vtx.zipIdx n).foldlM (matchRound P murmur) m = .ok m' ∧ mask.length = vtx.length ∧ m'.vMatch = m.vMatch ++ mask ∧
    m'.vHashes = m.vHashes ++ vtx.map (·.getHash P) ∧ m.vMatchedTxn ⊆ m'.vMatchedTxn ∧
    m'.vMatchedTxn.map Prod.snd = m.vMatchedTxn.map Prod.snd ++ selected (vtx.map (·.getHash P)) mask ∧
    ∀ earlier tx rest, vtx = earlier ++ tx :: rest → Concerns P murmur m.filter earlier tx →
      (n + earlier.length, tx.getHash P) ∈ m'.vMatchedTxn := by
  induction vtx generalizing m n with
  | nil => exact ⟨m, [], rfl, rfl, by simp, by simp, List.Subset.refl _, by simp [selected], by simp⟩
  | cons head vtx ih =>
    obtain ⟨found, filter, called, grows, spent, paid⟩ :=
      CBloomFilter.isRelevantAndUpdate_eq murmur safe head (head.getHash P)
    let next : Matching := { filter, vMatch := m.vMatch ++ [found], vHashes := m.vHashes ++ [head.getHash P]
                             vMatchedTxn := if found then m.vMatchedTxn ++ [(n, head.getHash P)] else m.vMatchedTxn }
    have round : matchRound P murmur m (head, n) = .ok next := by
      rw [matchRound, called]
      rfl
    obtain ⟨m', mask, ran, length, vMatch, vHashes, kept, listed, reported⟩ := @ih next (grows.safe safe) (n + 1)
    have first : m.vMatchedTxn ⊆ next.vMatchedTxn := by
      cases found with
      | false => exact List.Subset.refl _
      | true => exact List.subset_append_left ..
    refine ⟨m', found :: mask, ?_, by simp [length], by simp [vMatch, next], by simp [vHashes, next],
      List.Subset.trans first kept, ?_, fun earlier tx rest same concerns => ?_⟩
    · rw [List.zipIdx_cons, List.foldlM_cons, round]
      exact ran
    · rw [listed]
      cases found <;> simp [next, selected]
    · cases earlier with
      | nil =>
        cases same
        have yes : found = true := by
          cases concerns with
          | pays output matching => exact (paid _ _ output matching).1
          | spends input holds => exact spent ⟨_, input, holds⟩
          | follows before => cases before
        exact kept (by simp [next, yes])
      | cons payer earlier =>
        cases same
        rw [List.length_cons, ← add_assoc, add_right_comm]
        apply reported earlier tx rest rfl
        -- what the head added, a later transaction may spend
        cases concerns with
        | pays output matching => exact .pays output (grows.matches safe matching)
        | spends input holds => exact .spends input (grows.holds safe holds)
        | follows before output matching updates input =>
          rcases List.mem_cons.mp before with rfl | before
          · exact .spends input ((paid _ _ output matching).2 updates)
          · exact .follows before output (grows.matches safe matching) (grows.updates updates) input

/-- A light client gets a tree of the block with every transaction that concerns its filter. -/
theorem ofBlock_complete (murmur : MurmurHash) {filter : CBloomFilter} (safe : filter.Safe) {block : CBlock}
    (nonempty : block.vtx ≠ []) (few : block.vtx.length ≤ 2 ^ 31) : ∃ merkleBlock later mask,
    ofBlock P murmur block filter = .ok (merkleBlock, later) ∧ mask.length = block.vtx.length ∧
    ofMatches P (block.txids P) mask = .ok merkleBlock.txn ∧
    merkleBlock.vMatchedTxn.map Prod.snd = selected (block.txids P) mask ∧
    ∀ earlier tx rest, block.vtx = earlier ++ tx :: rest → Concerns P murmur filter earlier tx →
      (earlier.length, tx.getHash P) ∈ merkleBlock.vMatchedTxn := by
  obtain ⟨m, mask, ran, length, vMatch, vHashes, -, listed, reported⟩ :=
    @matchRounds P murmur { filter } safe block.vtx 0
  have size : (block.txids P).length = block.vtx.length := List.length_map _
  have low : Nat.clog 2 (block.txids P).length ≤ 31 := (Nat.clog_le_iff_le_pow (by decide)).mpr (size ▸ few)
  have inside : 0 < width (block.txids P).length (Nat.clog 2 (block.txids P).length) :=
    width_pos (size ▸ List.length_pos_iff.mpr nonempty)
  obtain ⟨txn, made⟩ : ∃ txn, ofMatches P (block.txids P) mask = .ok txn := by
    rw [ofMatches, treeHeight_eq (size ▸ few)]
    exact ⟨_, traverseAndBuild_eq (length.trans size.symm) (size ▸ few) low inside _⟩
  rw [List.nil_append] at vMatch vHashes
  refine ⟨⟨block.toCBlockHeader, txn, m.vMatchedTxn⟩, m.filter, mask, ?_, length, made, listed, ?_⟩
  · rw [ofBlock, ran, ok_bind, vMatch, vHashes]
    exact bind_eq_ok.mpr ⟨_, made, rfl⟩
  · simpa only [Nat.zero_add] using reported

open TestNet CBloomFilter in
/-- A watched output and its spender are in one block. -/
theorem ofBlock_complete_spent :
    let payer : CTransaction := ⟨1, [], [watchedOut], 0, []⟩
    let spender : CTransaction := ⟨1, [⟨⟨payer.getHash platform, 0⟩, [], UINT_MAX⟩], [], 0, []⟩
    let block : CBlock := ⟨⟨112, 5, 0, 1400000000, 0x1d00ffff, 9⟩, [payer, spender]⟩
    ∃ merkleBlock later, ofBlock platform murmurHash3 block watching = .ok (merkleBlock, later) ∧
      (1, spender.getHash platform) ∈ merkleBlock.vMatchedTxn := by
  intro payer spender block
  have pushes : watchedOut.scriptPubKey.Pushes watchedKey := .behind rfl (.behind rfl (.here rfl))
  have holds : watching.contains murmurHash3 watchedKey = .ok true := by decide
  have nonempty : block.vtx ≠ [] := List.cons_ne_nil _ _
  have safe : watching.Safe := .inl (List.cons_ne_nil _ _)
  obtain ⟨merkleBlock, later, -, called, -, -, -, reported⟩ := ofBlock_complete murmurHash3 safe nonempty (by decide)
  refine ⟨merkleBlock, later, called, reported [payer] spender [] rfl ?_⟩
  exact .follows (List.mem_singleton_self payer) rfl ⟨watchedKey, pushes, List.cons_ne_nil _ _, holds⟩ (.inl rfl)
    (List.mem_singleton_self _)

end CMerkleBlock

end BitCrystal
