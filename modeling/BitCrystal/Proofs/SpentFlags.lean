import BitCrystal.Proofs.Wallet

/-! # What a wallet should know

Given the keys and the transactions, it is determined which transactions involve the wallet and which of
its outputs are spent. A wallet is sound when it knows nothing else.
-/

namespace BitCrystal

open Function

/-- The value of an output among the transactions. -/
def valueOf (P : Platform) (txs : List CTransaction) (out : COutPoint) : ℤ :=
  match txs.find? fun tx => tx.getHash P = out.hash with
  | none => 0
  | some tx => (tx.vout[out.n]?.map CTxOut.nValue).getD 0

/-- The transactions have different hashes and are valid as far as their amounts are concerned. -/
structure ValidTxs (P : Platform) (txs : List CTransaction) : Prop where
  distinct : ∀ a ∈ txs, ∀ b ∈ txs, a.getHash P = b.getHash P → a = b
  low : ∀ tx ∈ txs, ∀ txout ∈ tx.vout, 0 ≤ txout.nValue
  valueOut : ∀ tx ∈ txs, (tx.vout.map CTxOut.nValue).sum ≤ MAX_MONEY
  valueIn : ∀ tx ∈ txs, (tx.prevouts.map (valueOf P txs)).sum ≤ MAX_MONEY

/-- The output an outpoint names among the transactions. -/
def Names (P : Platform) (txs : List CTransaction) (out : COutPoint) (txout : CTxOut) : Prop :=
  ∃ tx ∈ txs, tx.getHash P = out.hash ∧ tx.vout[out.n]? = some txout

/-- One of the transactions spends the outpoint. -/
def SpentBy (txs : List CTransaction) (out : COutPoint) : Prop := ∃ tx ∈ txs, out ∈ tx.prevouts

/-- The keys and the transactions a wallet is offered altogether. -/
structure WalletInput where
  crypto : Crypto
  P : Platform
  keystore : CKeyStore
  txs : List CTransaction

namespace WalletInput

variable (input : WalletInput)

def Mine (txout : CTxOut) : Prop := input.keystore.isMine input.crypto txout.scriptPubKey = true

/-- The transaction pays the wallet or spends from it. -/
def Involves (tx : CTransaction) : Prop :=
  (∃ txout ∈ tx.vout, input.Mine txout) ∨
    ∃ out ∈ tx.prevouts, ∃ txout, Names input.P input.txs out txout ∧ input.Mine txout ∧ 0 < txout.nValue

/-- Everything the wallet knows is so. -/
structure Sound (wallet : CWallet) : Prop where
  keys : wallet.keystore.mapKeys ⊆ input.keystore.mapKeys
  scripts : input.keystore.mapScripts = wallet.keystore.mapScripts
  member : ∀ hash wtx, wallet.mapWallet hash = some wtx →
    wtx.tx ∈ input.txs ∧ wtx.tx.getHash input.P = hash ∧ input.Involves wtx.tx
  spent : ∀ hash wtx n, wallet.mapWallet hash = some wtx → wtx.Spent n →
    (∃ txout, wtx.tx.vout[n]? = some txout ∧ input.Mine txout) ∧ SpentBy input.txs ⟨hash, n⟩

end WalletInput

namespace CWallet

/-- The wallet has the transaction of the outpoint and the flag of the output is set. -/
def Marked (wallet : CWallet) (out : COutPoint) : Prop :=
  ∃ wtx, wallet.mapWallet out.hash = some wtx ∧ out.n < wtx.tx.vout.length ∧ wtx.Spent out.n

/-- The wallet has an output that is mine at the outpoint. -/
def Owns (crypto : Crypto) (wallet : CWallet) (out : COutPoint) (txout : CTxOut) : Prop :=
  ∃ wtx, wallet.mapWallet out.hash = some wtx ∧ wtx.tx.vout[out.n]? = some txout ∧
    wallet.isMine crypto txout = true

/-- The same keys, and no transaction or flag less. -/
structure Grows (wallet later : CWallet) : Prop where
  keystore : later.keystore = wallet.keystore
  kept : ∀ hash wtx, wallet.mapWallet hash = some wtx → ∃ wtx', later.mapWallet hash = some wtx' ∧ wtx'.tx = wtx.tx
  marked : ∀ out, wallet.Marked out → later.Marked out

variable {crypto : Crypto} {wallet middle later : CWallet}

theorem Grows.refl (wallet : CWallet) : wallet.Grows wallet := ⟨rfl, fun _ wtx found => ⟨wtx, found, rfl⟩, fun _ => id⟩

theorem Grows.trans (first : wallet.Grows middle) (second : middle.Grows later) : wallet.Grows later where
  keystore := second.keystore.trans first.keystore
  kept hash wtx found := by
    obtain ⟨wtx', found', same⟩ := first.kept hash wtx found
    obtain ⟨wtx'', found'', same'⟩ := second.kept hash wtx' found'
    exact ⟨wtx'', found'', same'.trans same⟩
  marked out marked := second.marked out (first.marked out marked)

theorem Grows.owns (grows : wallet.Grows later) {out : COutPoint} {txout : CTxOut}
    (owns : wallet.Owns crypto out txout) : later.Owns crypto out txout := by
  obtain ⟨wtx, found, there, mine⟩ := owns
  obtain ⟨wtx', found', same⟩ := grows.kept _ _ found
  refine ⟨wtx', found', same ▸ there, ?_⟩
  rwa [isMine, grows.keystore]

/-- A record in place of one with the same transaction and no more flags. -/
theorem grows_update {hash : Uint256} {wtx : CWalletTx}
    (replaces : ∀ old, wallet.mapWallet hash = some old →
      wtx.tx = old.tx ∧ ∀ n, n < old.tx.vout.length → old.Spent n → wtx.Spent n) :
    wallet.Grows { wallet with mapWallet := Function.update wallet.mapWallet hash (some wtx) } := by
  refine ⟨rfl, ?_, ?_⟩
  · intro hash' old found
    rcases eq_or_ne hash' hash with rfl | other
    · exact ⟨wtx, update_self .., (replaces old found).1⟩
    · exact ⟨old, (update_of_ne other ..).trans found, rfl⟩
  · rintro out ⟨old, found, inside, spent⟩
    rcases eq_or_ne out.hash hash with rfl | other
    · obtain ⟨same, flags⟩ := replaces old found
      exact ⟨wtx, update_self .., by rwa [same], flags _ inside spent⟩
    · exact ⟨old, (update_of_ne other ..).trans found, inside, spent⟩

end CWallet

namespace WalletInput

open CWallet

variable {input : WalletInput} {wallet : CWallet} {txout : CTxOut}

theorem Sound.mine (sound : input.Sound wallet) (mine : wallet.isMine input.crypto txout = true) :
    input.Mine txout := CKeyStore.isMine_mono sound.keys sound.scripts mine

theorem Sound.names (sound : input.Sound wallet) {out : COutPoint}
    (owns : wallet.Owns input.crypto out txout) : Names input.P input.txs out txout ∧ input.Mine txout := by
  obtain ⟨wtx, found, there, mine⟩ := owns
  obtain ⟨member, hash, -⟩ := sound.member _ _ found
  exact ⟨⟨wtx.tx, member, hash, there⟩, sound.mine mine⟩

theorem Sound.update (sound : input.Sound wallet) {wtx : CWalletTx} (member : wtx.tx ∈ input.txs)
    (involves : input.Involves wtx.tx)
    (spent : ∀ n, wtx.Spent n → (∃ txout, wtx.tx.vout[n]? = some txout ∧ input.Mine txout) ∧
      SpentBy input.txs ⟨wtx.tx.getHash input.P, n⟩) :
    input.Sound { wallet with
      mapWallet := Function.update wallet.mapWallet (wtx.tx.getHash input.P) (some wtx) } := by
  refine ⟨sound.keys, sound.scripts, ?_, ?_⟩
  · intro hash wtx' found
    rcases eq_or_ne hash (wtx.tx.getHash input.P) with rfl | other
    · simp only [update_self, Option.some.injEq] at found
      rw [← found]
      exact ⟨member, rfl, involves⟩
    · simp only [update_of_ne other] at found
      exact sound.member _ _ found
  · intro hash wtx' n found flag
    rcases eq_or_ne hash (wtx.tx.getHash input.P) with rfl | other
    · simp only [update_self, Option.some.injEq] at found
      subst found
      exact spent n flag
    · simp only [update_of_ne other] at found
      exact sound.spent _ _ n found flag

theorem updateSpentAt_eq (valid : ValidTxs input.P input.txs) (sound : input.Sound wallet)
    (blocksToMaturity : CMerkleTx → ℤ) {txin : CTxIn} (spends : SpentBy input.txs txin.prevout) : ∃ later,
    wallet.updateSpentAt input.crypto blocksToMaturity txin = .ok later ∧ input.Sound later ∧ wallet.Grows later ∧
      ∀ txout, wallet.Owns input.crypto txin.prevout txout → later.Marked txin.prevout := by
  rw [updateSpentAt]
  rcases found : wallet.mapWallet txin.prevout.hash with _ | wtx
  · refine ⟨wallet, rfl, sound, Grows.refl wallet, ?_⟩
    rintro txout ⟨wtx, found', -, -⟩
    rw [found] at found'
    cases found'
  obtain ⟨member, hash, involves⟩ := sound.member _ _ found
  rcases there : wtx.tx.vout[txin.prevout.n]? with _ | txout
  · refine ⟨wallet, by simp [there], sound, Grows.refl wallet, ?_⟩
    rintro txout ⟨wtx', found', there', -⟩
    rw [found] at found'
    cases found'
    rw [there] at there'
    cases there'
  obtain ⟨inside, -⟩ := List.getElem?_eq_some_iff.mp there
  simp only [there, CWalletTx.isSpent_eq inside, Check.ok_bind]
  split_ifs with update
  · obtain ⟨nCredit, cached, credit, sameTx, sameFlags⟩ :=
      getCredit_ok input.crypto wallet blocksToMaturity (valid.low _ member) (valid.valueOut _ member)
    have inside' : txin.prevout.n < cached.tx.vout.length := by rwa [sameTx]
    obtain ⟨marked, set, markedTx, here, only, all⟩ := CWalletTx.markSpent_eq inside'
    have markedTx' : marked.tx = wtx.tx := markedTx.trans sameTx
    simp only [credit, Check.ok_bind, set]
    refine ⟨_, rfl, ?_, grows_update ?_, ?_⟩
    · rw [← hash, ← markedTx']
      apply sound.update
      · rwa [markedTx']
      · rwa [markedTx']
      · intro n spent
        rw [markedTx', hash]
        rcases only n spent with rfl | before
        · exact ⟨⟨txout, there, sound.mine update.2⟩, spends⟩
        · exact sound.spent _ wtx n found (by rwa [CWalletTx.Spent, ← sameFlags])
    · intro old found'
      rw [found] at found'
      cases found'
      exact ⟨markedTx', fun n bound spent => all n (by rwa [sameTx]) (by rwa [CWalletTx.Spent, sameFlags])⟩
    · exact fun _ _ => ⟨marked, update_self .., by rwa [markedTx'], here⟩
  · refine ⟨wallet, rfl, sound, Grows.refl wallet, ?_⟩
    rintro txout' ⟨wtx', found', there', mine⟩
    rw [found] at found'
    cases found'
    rw [there] at there'
    cases there'
    refine ⟨wtx, found, inside, ?_⟩
    rw [CWalletTx.Spent, ← Bool.not_eq_false]
    exact fun unspent => update ⟨unspent, mine⟩

private theorem updateLoop_eq (valid : ValidTxs input.P input.txs) (sound : input.Sound wallet)
    (blocksToMaturity : CMerkleTx → ℤ) {vin : List CTxIn} (spends : ∀ txin ∈ vin, SpentBy input.txs txin.prevout) :
    ∃ later, vin.foldlM (fun wallet txin => wallet.updateSpentAt input.crypto blocksToMaturity txin) wallet =
      .ok later ∧ input.Sound later ∧ wallet.Grows later ∧
      ∀ txin ∈ vin, ∀ txout, wallet.Owns input.crypto txin.prevout txout → later.Marked txin.prevout := by
  induction vin generalizing wallet with
  | nil => exact ⟨wallet, rfl, sound, Grows.refl wallet, fun txin member => absurd member List.not_mem_nil⟩
  | cons head rest ih =>
    obtain ⟨middle, round, sound', grows, marks⟩ :=
      updateSpentAt_eq valid sound blocksToMaturity (spends head (List.mem_cons_self ..))
    obtain ⟨later, rounds, sound'', grows', marks'⟩ :=
      ih sound' fun txin member => spends txin (List.mem_cons_of_mem _ member)
    refine ⟨later, ?_, sound'', grows.trans grows', ?_⟩
    · rw [List.foldlM_cons, round, Check.ok_bind, rounds]
    · intro txin member txout owns
      rcases List.mem_cons.mp member with rfl | member
      · exact grows'.marked _ (marks txout owns)
      · exact marks' txin member txout (grows.owns owns)

/-- What offering a transaction achieves. -/
structure Offered (input : WalletInput) (wallet : CWallet) (tx : CTransaction) (later : CWallet) : Prop where
  sound : input.Sound later
  grows : wallet.Grows later
  marks : ∀ out ∈ tx.prevouts, ∀ txout, wallet.Owns input.crypto out txout → later.Marked out

theorem walletUpdateSpent_eq (valid : ValidTxs input.P input.txs) (sound : input.Sound wallet)
    (blocksToMaturity : CMerkleTx → ℤ) {tx : CTransaction} (member : tx ∈ input.txs) : ∃ later,
    wallet.walletUpdateSpent input.crypto blocksToMaturity tx = .ok later ∧ input.Offered wallet tx later := by
  have spends : ∀ txin ∈ tx.vin, SpentBy input.txs txin.prevout := fun txin inside =>
    ⟨tx, member, List.mem_map_of_mem inside⟩
  obtain ⟨later, looped, sound', grows, marks⟩ := updateLoop_eq valid sound blocksToMaturity spends
  refine ⟨later, looped, sound', grows, fun out spent => ?_⟩
  obtain ⟨txin, inside, rfl⟩ := List.mem_map.mp spent
  exact marks txin inside

theorem addToWallet_eq (valid : ValidTxs input.P input.txs) (sound : input.Sound wallet)
    (blocksToMaturity : CMerkleTx → ℤ) {position : CMerkleTx} (member : position.tx ∈ input.txs)
    (involves : input.Involves position.tx) : ∃ later,
    wallet.addToWallet input.crypto input.P blocksToMaturity true { toCMerkleTx := position } = .ok (true, later) ∧
      input.Offered wallet position.tx later ∧ (later.mapWallet (position.tx.getHash input.P)).isSome := by
  -- a record with the transaction, which has the flags of the old record
  obtain ⟨fChanged, wtx, replaced, sameTx, flags⟩ : ∃ fChanged wtx,
      wallet.insertOrMerge (position.tx.getHash input.P) { toCMerkleTx := position } = (fChanged, wtx) ∧
      wtx.tx = position.tx ∧ ∀ n, wtx.Spent n ↔ ∃ old, wallet.mapWallet (position.tx.getHash input.P) = some old ∧ old.Spent n := by
    rw [insertOrMerge]
    rcases found : wallet.mapWallet (position.tx.getHash input.P) with _ | old
    · exact ⟨_, _, rfl, rfl, fun n => iff_of_false nofun (by simp)⟩
    · obtain ⟨inside, hash, -⟩ := sound.member _ _ found
      refine ⟨_, (old.markDirty.merge { toCMerkleTx := position }).2, rfl, valid.distinct _ inside _ member hash,
        fun n => ?_⟩
      rw [CWalletTx.Spent, CWalletTx.merge_vfSpent]
      simp [CWalletTx.markDirty, CWalletTx.Spent]
  have sound' : input.Sound { wallet with
      mapWallet := Function.update wallet.mapWallet (position.tx.getHash input.P) (some wtx) } := by
    rw [← sameTx]
    refine sound.update (by rwa [sameTx]) (by rwa [sameTx]) fun n spent => ?_
    obtain ⟨old, found, spent⟩ := (flags n).mp spent
    have known := sound.spent _ old n found spent
    rw [valid.distinct _ (sound.member _ _ found).1 _ member (sound.member _ _ found).2.1] at known
    rwa [sameTx]
  have grows : wallet.Grows { wallet with
      mapWallet := Function.update wallet.mapWallet (position.tx.getHash input.P) (some wtx) } := by
    apply grows_update
    intro old found
    have same := valid.distinct _ (sound.member _ _ found).1 _ member (sound.member _ _ found).2.1
    exact ⟨sameTx.trans same.symm, fun n _ spent => (flags n).mpr ⟨old, found, spent⟩⟩
  obtain ⟨later, updated, offered⟩ := walletUpdateSpent_eq valid sound' blocksToMaturity member
  refine ⟨later, ?_, ⟨offered.sound, grows.trans offered.grows, ?_⟩, ?_⟩
  · simp only [addToWallet, replaced, not_true_eq_false, and_false, if_false, sameTx, updated, Check.ok_bind]
    rfl
  · exact fun out spent txout owns => offered.marks out spent txout (grows.owns owns)
  · obtain ⟨wtx', found, -⟩ := offered.grows.kept _ wtx (update_self ..)
    rw [found]
    rfl

theorem valueOf_nonneg (valid : ValidTxs input.P input.txs) (out : COutPoint) : 0 ≤ valueOf input.P input.txs out := by
  rw [valueOf]
  split
  · exact le_rfl
  next tx found =>
    rcases there : tx.vout[out.n]? with _ | txout
    · exact le_rfl
    · exact valid.low tx (List.mem_of_find?_eq_some found) txout (List.mem_of_getElem? there)

theorem valueOf_names (valid : ValidTxs input.P input.txs) {out : COutPoint}
    (names : Names input.P input.txs out txout) : valueOf input.P input.txs out = txout.nValue := by
  obtain ⟨tx, member, hash, there⟩ := names
  rw [valueOf]
  split
  next absent =>
    have other := List.find?_eq_none.mp absent tx member
    exact absurd hash (by simpa using other)
  next other found =>
    have hash' : other.getHash input.P = out.hash := by simpa using List.find?_some found
    rw [valid.distinct other (List.mem_of_find?_eq_some found) tx member (hash'.trans hash.symm), there]
    rfl

theorem debitOf_owns {txin : CTxIn} (owns : wallet.Owns input.crypto txin.prevout txout) :
    wallet.debitOf input.crypto txin = txout.nValue := by
  obtain ⟨wtx, found, there, mine⟩ := owns
  simp only [debitOf, found, there, mine, if_true]

theorem debitOf_cases (wallet : CWallet) (txin : CTxIn) : wallet.debitOf input.crypto txin = 0 ∨
    ∃ txout, wallet.Owns input.crypto txin.prevout txout ∧ wallet.debitOf input.crypto txin = txout.nValue := by
  rcases found : wallet.mapWallet txin.prevout.hash with _ | wtx
  · exact .inl (by simp only [debitOf, found])
  rcases there : wtx.tx.vout[txin.prevout.n]? with _ | txout
  · exact .inl (by simp only [debitOf, found, there])
  rcases mine : wallet.isMine input.crypto txout with _ | _
  · exact .inl (by simp [debitOf, found, there, mine])
  · exact .inr ⟨txout, ⟨wtx, found, there, mine⟩, debitOf_owns ⟨wtx, found, there, mine⟩⟩

theorem debitOf_bounds (valid : ValidTxs input.P input.txs) (sound : input.Sound wallet) (txin : CTxIn) :
    0 ≤ wallet.debitOf input.crypto txin ∧ wallet.debitOf input.crypto txin ≤ valueOf input.P input.txs txin.prevout := by
  rcases debitOf_cases wallet txin with zero | ⟨txout, owns, value⟩
  · rw [zero]
    exact ⟨le_rfl, valueOf_nonneg valid _⟩
  · obtain ⟨names, -⟩ := sound.names owns
    obtain ⟨tx, member, -, there⟩ := id names
    rw [value, valueOf_names valid names]
    exact ⟨valid.low tx member txout (List.mem_of_getElem? there), le_rfl⟩

/-- The debit of an offered transaction is in range, and it is positive when the wallet owns something
of value that the transaction spends. -/
theorem isFromMe_eq (valid : ValidTxs input.P input.txs) (sound : input.Sound wallet) {tx : CTransaction}
    (member : tx ∈ input.txs) : ∃ fFromMe, wallet.isFromMe input.crypto tx = .ok fFromMe ∧
      (fFromMe = true ↔ ∃ out ∈ tx.prevouts, ∃ txout, wallet.Owns input.crypto out txout ∧ 0 < txout.nValue) := by
  have low : ∀ txin ∈ tx.vin, 0 ≤ wallet.debitOf input.crypto txin := fun txin _ => (debitOf_bounds valid sound txin).1
  have total : (tx.vin.map (wallet.debitOf input.crypto)).sum ≤ (tx.prevouts.map (valueOf input.P input.txs)).sum := by
    rw [CTransaction.prevouts, List.map_map]
    exact List.sum_le_sum fun txin _ => (debitOf_bounds valid sound txin).2
  have high := total.trans (valid.valueIn tx member)
  refine ⟨_, by rw [isFromMe, getDebit, debitLoop_eq le_rfl low (by simpa using high)]; rfl, ?_⟩
  rw [decide_eq_true_eq, zero_add]
  constructor
  · intro positive
    by_contra nothing
    refine absurd positive (not_lt.mpr (List.sum_eq_zero ?_).le)
    intro debit inside
    obtain ⟨txin, spent, rfl⟩ := List.mem_map.mp inside
    rcases debitOf_cases wallet txin with zero | ⟨txout, owns, value⟩
    · exact zero
    · refine le_antisymm ?_ (low txin spent)
      rw [value]
      exact not_lt.mp fun worth => nothing ⟨txin.prevout, List.mem_map_of_mem spent, txout, owns, worth⟩
  · rintro ⟨out, spent, txout, owns, worth⟩
    obtain ⟨txin, inside, rfl⟩ := List.mem_map.mp spent
    rw [← debitOf_owns owns] at worth
    refine worth.trans_le (List.single_le_sum ?_ _ (List.mem_map_of_mem inside))
    simpa using low

theorem addToWalletIfInvolvingMe_eq (valid : ValidTxs input.P input.txs) (sound : input.Sound wallet)
    (blocksToMaturity : CMerkleTx → ℤ) {position : CMerkleTx} (member : position.tx ∈ input.txs) : ∃ fAdded later,
    wallet.addToWalletIfInvolvingMe input.crypto input.P blocksToMaturity true (position.tx.getHash input.P) position
      true = .ok (fAdded, later) ∧ input.Offered wallet position.tx later ∧
    ((∃ txout ∈ position.tx.vout, wallet.isMine input.crypto txout = true) ∨
      (∃ out ∈ position.tx.prevouts, ∃ txout, wallet.Owns input.crypto out txout ∧ 0 < txout.nValue) →
      (later.mapWallet (position.tx.getHash input.P)).isSome) := by
  obtain ⟨fFromMe, fromMe, debit⟩ := isFromMe_eq valid sound member
  have involves_of_mine (mine : wallet.isMineTx input.crypto position.tx = true) : input.Involves position.tx := by
    obtain ⟨txout, inside, mine⟩ := List.any_eq_true.mp mine
    exact .inl ⟨txout, inside, sound.mine mine⟩
  have added (involves : input.Involves position.tx) := addToWallet_eq valid sound blocksToMaturity member involves
  simp only [addToWalletIfInvolvingMe, not_true_eq_false, and_false, if_false]
  by_cases known : (wallet.mapWallet (position.tx.getHash input.P)).isSome = true ∨
      wallet.isMineTx input.crypto position.tx = true
  · have involves : input.Involves position.tx := by
      rcases known with existed | mine
      · obtain ⟨wtx, found⟩ := Option.isSome_iff_exists.mp existed
        obtain ⟨inside, hash, involves⟩ := sound.member _ _ found
        rwa [← valid.distinct _ inside _ member hash]
      · exact involves_of_mine mine
    obtain ⟨later, done, offered, present⟩ := added involves
    rw [if_pos known, Check.ok_bind, if_pos rfl, done]
    exact ⟨true, later, rfl, offered, fun _ => present⟩
  · rw [if_neg known, fromMe, Check.ok_bind]
    cases fFromMe with
    | true =>
      obtain ⟨out, spent, txout, owns, worth⟩ := debit.mp rfl
      obtain ⟨names, mine⟩ := sound.names owns
      obtain ⟨later, done, offered, present⟩ := added (.inr ⟨out, spent, txout, names, mine, worth⟩)
      rw [if_pos rfl, done]
      exact ⟨true, later, rfl, offered, fun _ => present⟩
    | false =>
      obtain ⟨later, updated, offered⟩ := walletUpdateSpent_eq valid sound blocksToMaturity member
      rw [if_neg Bool.false_ne_true, updated]
      refine ⟨false, later, rfl, offered, ?_⟩
      rintro (⟨txout, inside, mine⟩ | spends)
      · exact absurd (.inr (List.any_eq_true.mpr ⟨txout, inside, mine⟩)) known
      · cases debit.mpr spends

end WalletInput

end BitCrystal
