import BitCrystal.Model.TestNet
import BitCrystal.Proofs.SpentFlags

/-! # Spent flags and the order of arrival

A flag is set by the spender when it is offered, on a transaction that is in the wallet by then. Where
every transaction is offered in time, as a scan of the chain does after the last key, the wallet ends
with the same transactions and flags whatever else it has been offered before and in between.
-/

namespace BitCrystal

open CWallet WalletInput TestNet

/-- A key is added, or a transaction is offered with the state of the chain at that time. -/
inductive WalletAction
  | addKey (vchPubKey : valtype)
  | offer (position : CMerkleTx) (blocksToMaturity : CMerkleTx → ℤ)

namespace CWallet

variable (crypto : Crypto) (P : Platform)

def act (wallet : CWallet) : WalletAction → Check CWallet
  | .addKey vchPubKey => .ok { wallet with keystore := wallet.keystore.addKey crypto vchPubKey }
  | .offer position blocksToMaturity => do
    let (_, wallet) ←
      wallet.addToWalletIfInvolvingMe crypto P blocksToMaturity true (position.tx.getHash P) position true
    return wallet

/-- The wallet after a history, whose last action comes first. -/
def after (mapScripts : List (valtype × CScript)) : List WalletAction → Check CWallet
  | [] => .ok { keystore := { mapScripts } }
  | action :: before => do
    let wallet ← after mapScripts before
    wallet.act crypto P action

end CWallet

namespace WalletInput

variable (input : WalletInput)

/-- The keys of a history, with the scripts the wallet has from the start. -/
def keystoreAfter : List WalletAction → CKeyStore
  | [] => { mapScripts := input.keystore.mapScripts }
  | .addKey vchPubKey :: before => (keystoreAfter before).addKey input.crypto vchPubKey
  | .offer _ _ :: before => keystoreAfter before

/-- The transaction has been offered in time: with the keys for what it pays to the wallet and spends
from it, and after the transactions it spends from have been offered in time. -/
inductive Timely : List WalletAction → CTransaction → Prop
  | now {before : List WalletAction} {position : CMerkleTx} {blocksToMaturity : CMerkleTx → ℤ} :
      (∀ txout ∈ position.tx.vout, input.Mine txout →
        (input.keystoreAfter before).isMine input.crypto txout.scriptPubKey = true) →
      (∀ out ∈ position.tx.prevouts, ∀ txout, Names input.P input.txs out txout → input.Mine txout →
        (input.keystoreAfter before).isMine input.crypto txout.scriptPubKey = true) →
      (∀ out ∈ position.tx.prevouts, ∀ parent ∈ input.txs, parent.getHash input.P = out.hash →
        (∃ txout, parent.vout[out.n]? = some txout ∧ input.Mine txout) → Timely before parent) →
      Timely (.offer position blocksToMaturity :: before) position.tx
  | earlier {before : List WalletAction} {action : WalletAction} {tx : CTransaction} :
      Timely before tx → Timely (action :: before) tx

/-- A history adds these keys and offers these transactions, each of them in time at least once. -/
structure Covers (keys : List valtype) (history : List WalletAction) : Prop where
  keys : ∀ vchPubKey, .addKey vchPubKey ∈ history ↔ vchPubKey ∈ keys
  txs : ∀ position blocksToMaturity, .offer position blocksToMaturity ∈ history → position.tx ∈ input.txs
  timely : ∀ tx ∈ input.txs, input.Timely history tx

/-- The wallet has the transaction if it involves it, and the flags of what it spends are set. -/
def Settled (wallet : CWallet) (tx : CTransaction) : Prop :=
  (input.Involves tx → (wallet.mapWallet (tx.getHash input.P)).isSome) ∧
    ∀ out ∈ tx.prevouts, ∀ txout, Names input.P input.txs out txout → input.Mine txout → wallet.Marked out

variable {input} {wallet later : CWallet}

theorem Settled.grows {tx : CTransaction} (settled : input.Settled wallet tx)
    (kept : ∀ hash wtx, wallet.mapWallet hash = some wtx → ∃ wtx', later.mapWallet hash = some wtx' ∧ wtx'.tx = wtx.tx)
    (marked : ∀ out, wallet.Marked out → later.Marked out) : input.Settled later tx := by
  refine ⟨fun involves => ?_, fun out spent txout names mine => marked _ (settled.2 out spent txout names mine)⟩
  obtain ⟨wtx, found⟩ := Option.isSome_iff_exists.mp (settled.1 involves)
  obtain ⟨wtx', found', -⟩ := kept _ _ found
  rw [found']
  rfl

/-- Offering a transaction in time settles it. -/
theorem settled_of_offer (sound : input.Sound wallet) {tx : CTransaction} (offered : input.Offered wallet tx later)
    (present : (∃ txout ∈ tx.vout, wallet.isMine input.crypto txout = true) ∨
      (∃ out ∈ tx.prevouts, ∃ txout, wallet.Owns input.crypto out txout ∧ 0 < txout.nValue) →
      (later.mapWallet (tx.getHash input.P)).isSome)
    (keys : ∀ txout ∈ tx.vout, input.Mine txout → wallet.isMine input.crypto txout = true)
    (spentKeys : ∀ out ∈ tx.prevouts, ∀ txout, Names input.P input.txs out txout → input.Mine txout →
      wallet.isMine input.crypto txout = true)
    (parents : ∀ out ∈ tx.prevouts, ∀ parent ∈ input.txs, parent.getHash input.P = out.hash →
      (∃ txout, parent.vout[out.n]? = some txout ∧ input.Mine txout) → input.Settled wallet parent)
    (valid : ValidTxs input.P input.txs) : input.Settled later tx := by
  have owns (out : COutPoint) (spent : out ∈ tx.prevouts) (txout : CTxOut) (names : Names input.P input.txs out txout)
      (mine : input.Mine txout) : wallet.Owns input.crypto out txout := by
    obtain ⟨parent, member, hash, there⟩ := id names
    have known := (parents out spent parent member hash ⟨txout, there, mine⟩).1
      (.inl ⟨txout, List.mem_of_getElem? there, mine⟩)
    obtain ⟨wtx, found⟩ := Option.isSome_iff_exists.mp known
    obtain ⟨member', hash', -⟩ := sound.member _ _ found
    rw [hash] at found
    refine ⟨wtx, found, ?_, spentKeys out spent txout names mine⟩
    rwa [valid.distinct _ member' _ member hash']
  constructor
  · rintro (⟨txout, inside, mine⟩ | ⟨out, spent, txout, names, mine, worth⟩)
    · exact present (.inl ⟨txout, inside, keys txout inside mine⟩)
    · exact present (.inr ⟨out, spent, txout, owns out spent txout names mine, worth⟩)
  · exact fun out spent txout names mine => offered.marks out spent txout (owns out spent txout names mine)

theorem sound_start (input : WalletInput) :
    input.Sound { keystore := { mapScripts := input.keystore.mapScripts } } where
  keys := List.nil_subset _
  scripts := rfl
  member _ _ found := by cases found
  spent _ _ _ found := by cases found

theorem Sound.addKey (sound : input.Sound wallet) {vchPubKey : valtype}
    (known : input.crypto.hash160 vchPubKey ∈ input.keystore.mapKeys) :
    input.Sound { wallet with keystore := wallet.keystore.addKey input.crypto vchPubKey } where
  keys := List.cons_subset.mpr ⟨known, sound.keys⟩
  scripts := sound.scripts
  member := sound.member
  spent := sound.spent

variable {history : List WalletAction}

/-- No history of valid transactions fails, and what has been offered in time is settled. -/
theorem after_eq (valid : ValidTxs input.P input.txs)
    (keys : ∀ vchPubKey, .addKey vchPubKey ∈ history → input.crypto.hash160 vchPubKey ∈ input.keystore.mapKeys)
    (txs : ∀ position blocksToMaturity, .offer position blocksToMaturity ∈ history → position.tx ∈ input.txs) :
    ∃ wallet, after input.crypto input.P input.keystore.mapScripts history = .ok wallet ∧ input.Sound wallet ∧
      wallet.keystore = input.keystoreAfter history ∧ ∀ tx, input.Timely history tx → input.Settled wallet tx := by
  induction history with
  | nil =>
    refine ⟨_, rfl, sound_start input, rfl, ?_⟩
    rintro tx ⟨⟩
  | cons action before ih =>
    obtain ⟨wallet, ran, sound, keystore, settled⟩ :=
      ih (fun key member => keys key (List.mem_cons_of_mem _ member))
        fun position chain member => txs position chain (List.mem_cons_of_mem _ member)
    cases action with
    | addKey vchPubKey =>
      have known := keys vchPubKey (List.mem_cons_self ..)
      refine ⟨{ wallet with keystore := wallet.keystore.addKey input.crypto vchPubKey }, ?_, sound.addKey known, ?_, ?_⟩
      · rw [after, ran]
        rfl
      · rw [keystoreAfter, keystore]
      · rintro tx (_ | timely)
        exact settled tx timely
    | offer position blocksToMaturity =>
      have member := txs position blocksToMaturity (List.mem_cons_self ..)
      obtain ⟨fAdded, later, added, offered, present⟩ :=
        addToWalletIfInvolvingMe_eq valid sound blocksToMaturity member
      refine ⟨later, ?_, offered.sound, offered.grows.keystore.trans keystore, ?_⟩
      · rw [after, ran, Check.ok_bind, act, added]
        rfl
      · rintro tx (⟨paid, spent, parents⟩ | timely)
        · rw [← keystore] at paid spent
          exact settled_of_offer sound offered present paid spent
            (fun out spends parent inside hash owned => settled parent (parents out spends parent inside hash owned))
            valid
        · exact (settled tx timely).grows offered.grows.kept offered.grows.marked

/-- A key that was added stays known. -/
theorem mem_keystoreAfter {vchPubKey : valtype} (added : .addKey vchPubKey ∈ history) :
    input.crypto.hash160 vchPubKey ∈ (input.keystoreAfter history).mapKeys := by
  induction history with
  | nil => cases added
  | cons action before ih =>
    rcases List.mem_cons.mp added with rfl | earlier
    · exact List.mem_cons_self ..
    · cases action with
      | addKey other => exact List.mem_cons_of_mem _ (ih earlier)
      | offer position blocksToMaturity => exact ih earlier

theorem keystoreAfter_mapScripts (input : WalletInput) (history : List WalletAction) :
    (input.keystoreAfter history).mapScripts = input.keystore.mapScripts := by
  induction history with
  | nil => rfl
  | cons action before ih =>
    cases action with
    | addKey vchPubKey => exact ih
    | offer position blocksToMaturity => exact ih

/-- What the keys and the transactions determine of a wallet. -/
structure Determined (input : WalletInput) (wallet : CWallet) : Prop where
  mine : ∀ txout, wallet.isMine input.crypto txout = true ↔ input.Mine txout
  member : ∀ hash wtx, wallet.mapWallet hash = some wtx → wtx.tx ∈ input.txs ∧ wtx.tx.getHash input.P = hash
  isSome_iff : ∀ tx ∈ input.txs, (wallet.mapWallet (tx.getHash input.P)).isSome ↔ input.Involves tx
  spent_iff : ∀ hash wtx n, wallet.mapWallet hash = some wtx →
    (wtx.Spent n ↔ (∃ txout, wtx.tx.vout[n]? = some txout ∧ input.Mine txout) ∧ SpentBy input.txs ⟨hash, n⟩)

theorem after_covers {keys : List valtype} (keystore : input.keystore.mapKeys = keys.map input.crypto.hash160)
    (valid : ValidTxs input.P input.txs) (covers : input.Covers keys history) :
    ∃ wallet, after input.crypto input.P input.keystore.mapScripts history = .ok wallet ∧
      input.Determined wallet := by
  have known : ∀ vchPubKey, .addKey vchPubKey ∈ history → input.crypto.hash160 vchPubKey ∈ input.keystore.mapKeys := by
    intro vchPubKey member
    rw [keystore]
    exact List.mem_map_of_mem ((covers.keys vchPubKey).mp member)
  obtain ⟨wallet, ran, sound, same, settled⟩ := after_eq valid known covers.txs
  refine ⟨wallet, ran, ?_, ?_, ?_, ?_⟩
  · refine fun txout => ⟨sound.mine, fun mine => ?_⟩
    rw [CWallet.isMine, same]
    refine CKeyStore.isMine_mono ?_ (keystoreAfter_mapScripts input history) mine
    intro address member
    rw [keystore] at member
    obtain ⟨vchPubKey, inside, rfl⟩ := List.mem_map.mp member
    exact mem_keystoreAfter ((covers.keys vchPubKey).mpr inside)
  · intro hash wtx found
    obtain ⟨member, same, -⟩ := sound.member _ _ found
    exact ⟨member, same⟩
  · intro tx member
    constructor
    · intro present
      obtain ⟨wtx, found⟩ := Option.isSome_iff_exists.mp present
      obtain ⟨member', hash, involves⟩ := sound.member _ _ found
      rwa [← valid.distinct _ member' _ member hash]
    · exact (settled tx (covers.timely tx member)).1
  · intro hash wtx n found
    refine ⟨sound.spent hash wtx n found, ?_⟩
    rintro ⟨⟨txout, there, mine⟩, child, member, spends⟩
    obtain ⟨member', hash', -⟩ := sound.member _ _ found
    obtain ⟨wtx', found', -, spent⟩ :=
      (settled child (covers.timely child member)).2 ⟨hash, n⟩ spends txout ⟨wtx.tx, member', hash', there⟩ mine
    rw [found] at found'
    cases found'
    exact spent

variable {other : CWallet}

/-- Two wallets that are determined alike have the same transactions. -/
theorem Determined.same_tx (determined : input.Determined wallet) (determined' : input.Determined other)
    (valid : ValidTxs input.P input.txs) (hash : Uint256) :
    (wallet.mapWallet hash).map (·.tx) = (other.mapWallet hash).map (·.tx) := by
  have one_way {a b : CWallet} (known : input.Determined a) (known' : input.Determined b) {wtx : CWalletTx}
      (found : a.mapWallet hash = some wtx) : ∃ wtx', b.mapWallet hash = some wtx' ∧ wtx'.tx = wtx.tx := by
    obtain ⟨member, rfl⟩ := known.member _ _ found
    have present := (known'.isSome_iff _ member).mpr ((known.isSome_iff _ member).mp (by rw [found]; rfl))
    obtain ⟨wtx', found'⟩ := Option.isSome_iff_exists.mp present
    obtain ⟨member', hash'⟩ := known'.member _ _ found'
    exact ⟨wtx', found', valid.distinct _ member' _ member hash'⟩
  rcases found : wallet.mapWallet hash with _ | wtx
  · rcases found' : other.mapWallet hash with _ | wtx'
    · rfl
    · obtain ⟨wtx, found'', -⟩ := one_way determined' determined found'
      rw [found] at found''
      cases found''
  · obtain ⟨wtx', found', same⟩ := one_way determined determined' found
    rw [found', Option.map_some, Option.map_some, same]

theorem Determined.isSpent_eq (determined : input.Determined wallet) (determined' : input.Determined other)
    {hash : Uint256} {wtx wtx' : CWalletTx} (found : wallet.mapWallet hash = some wtx)
    (found' : other.mapWallet hash = some wtx') (same : wtx.tx = wtx'.tx) (n : ℕ) :
    wtx.isSpent n = wtx'.isSpent n := by
  have flags : wtx.vfSpent.getD n false = wtx'.vfSpent.getD n false := by
    rw [Bool.eq_iff_iff]
    apply (determined.spent_iff hash wtx n found).trans
    rw [same]
    exact (determined'.spent_iff hash wtx' n found').symm
  rw [CWalletTx.isSpent, CWalletTx.isSpent, same, flags]

end WalletInput

/-- Whatever the order of arrival, once the keys are added and each transaction has been offered in time
the wallet has the transactions that involve it, with the same flags, and no output of its own that one
of them spends is reported unspent. -/
theorem CWallet.after_order_independent {input : WalletInput} {keys : List valtype}
    (keystore : input.keystore.mapKeys = keys.map input.crypto.hash160) (valid : ValidTxs input.P input.txs)
    {history history' : List WalletAction} (covers : input.Covers keys history) (covers' : input.Covers keys history') :
    ∃ wallet wallet', after input.crypto input.P input.keystore.mapScripts history = .ok wallet ∧
      after input.crypto input.P input.keystore.mapScripts history' = .ok wallet' ∧
      (∀ hash, (wallet.mapWallet hash).map (·.tx) = (wallet'.mapWallet hash).map (·.tx)) ∧
      (∀ hash wtx wtx' n, wallet.mapWallet hash = some wtx → wallet'.mapWallet hash = some wtx' →
        wtx.isSpent n = wtx'.isSpent n) ∧
      (∀ tx ∈ input.txs, (wallet.mapWallet (tx.getHash input.P)).isSome ↔ input.Involves tx) ∧
      ∀ hash wtx n txout, wallet.mapWallet hash = some wtx → wtx.tx.vout[n]? = some txout →
        wallet.isMine input.crypto txout = true →
        (∃ hash' child, wallet.mapWallet hash' = some child ∧ ⟨hash, n⟩ ∈ child.tx.prevouts) →
        wtx.isSpent n = .ok true := by
  obtain ⟨wallet, ran, determined⟩ := after_covers keystore valid covers
  obtain ⟨wallet', ran', determined'⟩ := after_covers keystore valid covers'
  have same := determined.same_tx determined' valid
  refine ⟨wallet, wallet', ran, ran', same, ?_, determined.isSome_iff, ?_⟩
  · intro hash wtx wtx' n found found'
    have sameTx := same hash
    rw [found, found', Option.map_some, Option.map_some, Option.some.injEq] at sameTx
    exact determined.isSpent_eq determined' found found' sameTx n
  · rintro hash wtx n txout found there mine ⟨hash', child, found', spends⟩
    have spent : wtx.Spent n := (determined.spent_iff hash wtx n found).mpr
      ⟨⟨txout, there, (determined.mine txout).mp mine⟩, child.tx, (determined.member _ _ found').1, spends⟩
    rw [CWalletTx.isSpent_eq (List.getElem?_eq_some_iff.mp there).1, spent]

/-! ## A payment and its spending -/

namespace TestNet

/-- The digests are not needed: a key is its own identifier. -/
def digests : Crypto where
  sha1 := id
  sha256 := id
  ripemd160 := id
  verify _ _ _ := true

def walletKey : valtype := List.replicate 20 7

/-- It pays to the hash of the wallet's key. -/
def paymentOf (nValue : ℤ) : CTransaction :=
  { spending 2 [⟨7, 0⟩] [] with vout := [⟨nValue, [0x76, 0xa9, 0x14] ++ walletKey ++ [0x88, 0xac]⟩] }

def payment : CTransaction := paymentOf 50000

def expense : CTransaction := spending 3 [⟨2001, 0⟩] [40000]

def walletInput : WalletInput where
  crypto := digests
  P := platform
  keystore := { mapKeys := [walletKey] }
  txs := [payment, expense]

def offered (tx : CTransaction) : WalletAction := .offer { tx } fun _ => 0

theorem walletInput_valid : ValidTxs walletInput.P walletInput.txs where
  distinct := by decide
  low := by decide
  valueOut := by decide
  valueIn := by decide

/-- What is seen of a wallet: whether it has the transactions, with the flags of the first. -/
def seen (history : List WalletAction) : Option (Option (List Bool) × Bool) :=
  (CWallet.after digests platform [] history).toOption.map fun wallet =>
    ((wallet.mapWallet 2001).map (·.vfSpent), (wallet.mapWallet 3001).isSome)

end TestNet

/-- The flag stays unset when the spending arrives first, a payment that arrives before the key is not in
the wallet, and a spending fails when what it spends is there and out of the money range. -/
theorem CWallet.after_order_matters :
    [offered payment, offered expense, .addKey walletKey].Perm [offered expense, offered payment, .addKey walletKey] ∧
    [.addKey walletKey, offered expense, offered payment].Perm [offered expense, offered payment, .addKey walletKey] ∧
    seen [offered expense, offered payment, .addKey walletKey] = some (some [true], true) ∧
    seen [offered payment, offered expense, .addKey walletKey] = some (some [], false) ∧
    seen [.addKey walletKey, offered expense, offered payment] = some (none, false) ∧
    seen [offered expense, offered (paymentOf (MAX_MONEY + 1)), .addKey walletKey] = none ∧
    seen [offered (paymentOf (MAX_MONEY + 1)), offered expense, .addKey walletKey] = some (some [], false) :=
  ⟨.swap .., (List.Perm.swap ..).trans (.cons _ (.swap ..)), by decide⟩

namespace TestNet

/-- A scan after the key offers both in time, whatever came before. -/
theorem timely_scan (before : List WalletAction) : ∀ tx ∈ walletInput.txs,
    walletInput.Timely (offered expense :: offered payment :: .addKey walletKey :: before) tx := by
  have mine (txout : CTxOut) (owned : walletInput.Mine txout) :
      (walletInput.keystoreAfter (.addKey walletKey :: before)).isMine walletInput.crypto txout.scriptPubKey = true := by
    refine CKeyStore.isMine_mono ?_ (keystoreAfter_mapScripts walletInput _) owned
    exact List.cons_subset.mpr ⟨List.mem_cons_self .., List.nil_subset _⟩
  have paid : walletInput.Timely (offered payment :: .addKey walletKey :: before) payment := by
    refine .now (fun txout _ => mine txout) (fun _ _ txout _ => mine txout) fun out spent parent member hash => ?_
    have unknown : ∀ out ∈ payment.prevouts, ∀ parent ∈ walletInput.txs, parent.getHash platform ≠ out.hash := by
      decide
    exact absurd hash (unknown out spent parent member)
  intro tx member
  rcases List.mem_pair.mp member with rfl | rfl
  · exact paid.earlier
  · refine .now (fun txout _ => mine txout) (fun _ _ txout _ => mine txout) fun out spent parent member hash _ => ?_
    have only : ∀ out ∈ expense.prevouts, ∀ parent ∈ walletInput.txs, parent.getHash platform = out.hash →
        parent = payment := by decide
    rw [only out spent parent member hash]
    exact paid

def scanned : List WalletAction := [offered expense, offered payment, .addKey walletKey]

/-- The transactions arrive in the wrong order and before the key. -/
def rescanned : List WalletAction := scanned ++ [offered payment, offered expense]

theorem covers_scanned : walletInput.Covers [walletKey] scanned where
  keys := by simp [scanned, offered]
  txs position blocksToMaturity member := by
    simp only [scanned, offered, List.mem_cons, WalletAction.offer.injEq, reduceCtorEq, List.not_mem_nil,
      or_false] at member
    rcases member with ⟨rfl, -⟩ | ⟨rfl, -⟩ <;> simp [walletInput]
  timely := timely_scan []

theorem covers_rescanned : walletInput.Covers [walletKey] rescanned where
  keys := by simp [rescanned, scanned, offered]
  txs position blocksToMaturity member := by
    rcases List.mem_append.mp member with first | again
    · exact covers_scanned.txs _ _ first
    · apply covers_scanned.txs position blocksToMaturity
      simp only [scanned, List.mem_cons, List.not_mem_nil, or_false] at again ⊢
      exact again.symm.imp_right .inl
  timely := timely_scan _

end TestNet

theorem CWallet.after_order_independent_rescanned : ∃ wallet wallet',
    CWallet.after digests platform [] scanned = .ok wallet ∧ CWallet.after digests platform [] rescanned = .ok wallet' ∧
      ∀ hash, (wallet.mapWallet hash).map (·.tx) = (wallet'.mapWallet hash).map (·.tx) := by
  obtain ⟨wallet, wallet', ran, ran', same, -⟩ :=
    CWallet.after_order_independent rfl walletInput_valid covers_scanned covers_rescanned
  exact ⟨wallet, wallet', ran, ran', same⟩

end BitCrystal
