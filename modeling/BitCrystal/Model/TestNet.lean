import BitCrystal.Model.BestChain
import BitCrystal.Model.CoinCodec
import Mathlib.Algebra.Order.BigOperators.Group.List
import Mathlib.Logic.Equiv.List

/-! # A small network

A platform whose hash functions read a number off their argument, so that concrete chains can be
evaluated. On the transactions and headers used below the hashes are distinct. Scripts always
verify and the standardness rules are off, as on the test network.
-/

namespace BitCrystal.TestNet

/-- Block hashes are nonces; a transaction hash is made of the lock time and the comment. -/
def platform : Platform where
  hashTx tx := 1000 * tx.nLockTime + (tx.strTxComment.getD []).length + 1
  hashHeader header := header.nNonce
  hashPair a b := a + b
  verifyScript _ _ _ _ _ := true
  isStandardScript _ := true
  areInputsStandard _ _ := true
  hashGenesisBlock := 0
  adjustedTime := 1500000000
  fTestNet := true

/-- The same with hashes of pairs that determine the pair. They are odd and txids are even. -/
def paired : Platform where
  __ := platform
  hashTx tx := 2 * platform.hashTx tx
  hashPair a b := 2 * Nat.pair a b + 1

def opTrue : CScript := [0x51]

/-- A coinbase that pays `nValue`. -/
def coinbase (id : ℕ) (nValue : ℤ) : CTransaction where
  vin := [{ prevout := .null, scriptSig := [0x51, 0x51] }]
  vout := [⟨nValue, opTrue⟩]
  nLockTime := id

/-- A transaction that spends the given outpoints. -/
def spending (id : ℕ) (prevouts : List COutPoint) (values : List ℤ) : CTransaction where
  vin := prevouts.map fun prevout => { prevout, scriptSig := [] }
  vout := values.map fun nValue => ⟨nValue, opTrue⟩
  nLockTime := id

/-- A block with the proof of work and the Merkle root filled in. -/
def mine (hash prev : Uint256) (vtx : List CTransaction) : CBlock where
  hashPrevBlock := prev
  hashMerkleRoot := CBlock.buildMerkleTree ⟨⟨112, prev, 0, 1400000000, 0x1d00ffff, hash⟩, vtx⟩ platform
  nTime := 1400000000
  nBits := 0x1d00ffff
  nNonce := hash
  vtx := vtx

/-- Such a block with a time of its own. -/
def mineAt (nTime : ℕ) (hash prev : Uint256) (vtx : List CTransaction) : CBlock := { mine hash prev vtx with nTime }

/-- The index entry of such a block before its first connection. -/
def entry (hash prev : Uint256) (nHeight : ℕ) : CBlockIndex where
  phashBlock := some hash
  pprev := some prev
  nHeight := nHeight
  nTime := 1400000000
  nBits := 0x1d00ffff
  nNonce := hash

/-- Every disk operation succeeds. -/
def disk : CBlock.ConnectDisk where
  findUndoPos := some 0

/-- No script of the test network has a public key. -/
def keys : KeyLibrary where
  setPubKey _ := false
  decompressPubKey _ := none

theorem keys_lawful : keys.Lawful := ⟨nofun⟩

/-- A view whose database has one entry. -/
def viewOf (txid : Uint256) (coins : CCoins) (best : BlockPtr) : CCoinsViewCache where
  base := ⟨fun h => if h = txid then some coins else none, some best⟩

theorem getCoins_viewOf {txid h : Uint256} {coins found : CCoins} {best : BlockPtr}
    (there : (viewOf txid coins best).getCoins h = some found) : found = coins := by
  simp only [viewOf, CCoinsViewCache.getCoins, Option.none_or, Option.ite_none_right_eq_some,
    Option.some.injEq] at there
  exact there.2.symm

theorem getCoins_viewOf_none {txid h : Uint256} (coins : CCoins) (best : BlockPtr) (other : h ≠ txid) :
    (viewOf txid coins best).getCoins h = none := by
  simp [viewOf, CCoinsViewCache.getCoins, other]

/-- The only entry before the block: two unspent outputs of transaction 7. -/
def olderCoins : CCoins := { vout := [⟨500000, opTrue⟩, ⟨300000, opTrue⟩], nHeight := 1, nVersion := 1 }

def tipIndex : BlockMap := fun hash => if hash = 4 then some (entry 4 3 199) else none

/-- It spends one older output, chains on it and spends the other one too. -/
def chained : CBlock :=
  mine 5 4 [coinbase 1 0, spending 2 [⟨7, 0⟩] [400000], spending 3 [⟨2001, 0⟩, ⟨7, 1⟩] [700000]]

def genesisBlock : CBlock := mine 0 0 [coinbase 0 (10 ^ 12)]

def firstBlock : CBlock := mine 1 0 [coinbase 1 (10 ^ 12)]

/-- A tree given by its entries. -/
def treeOf (entries : List (BlockPtr × CBlockIndex)) : BlockMap := fun hash => entries.lookup hash

def genesisEntry : CBlockIndex := { entry 0 0 0 with pprev := none }

/-- Both blocks are in the tree, none is connected. -/
def blank : Node where
  mapBlockIndex := treeOf [(0, genesisEntry), (1, entry 1 0 1)]
  pcoinsTip := { base := ⟨fun _ => none, none⟩ }

/-- The genesis block is the tip. -/
def started : Node where
  mapBlockIndex := treeOf [(0, genesisEntry)]
  setBlockIndexValid := [0]
  pindexGenesisBlock := some 0
  pindexBest := some 0
  nBestHeight := 0
  pcoinsTip := { base := ⟨fun _ => none, some 0⟩ }

def twoBlocks : SwitchDisk where
  blockFile hash := if hash = 0 then some genesisBlock else if hash = 1 then some firstBlock else none
  undoFile _ := none

/-- The coins are those of transaction 7. -/
def onGenesis (mempool : CTxMemPool) : Node where
  mapBlockIndex := treeOf [(0, genesisEntry), (1, entry 1 0 1)]
  pindexBest := some 0
  nBestHeight := 0
  pcoinsTip := viewOf 7 olderCoins 0
  mempool := mempool

def blockOne (vtx : List CTransaction) : SwitchDisk where
  blockFile hash := if hash = 1 then some (mine 1 0 vtx) else none
  undoFile _ := none

/-- A transaction of block 1 and one of block 2 that spends its output. -/
def lower : CTransaction := spending 2 [⟨7, 0⟩] [400000]

def upper : CTransaction := spending 3 [⟨2001, 0⟩] [400000]

/-- Blocks 1 and 2 are one branch, block 3 is the other; none is connected. -/
def forked : Node where
  mapBlockIndex := treeOf [(0, genesisEntry), (1, entry 1 0 1), (2, entry 2 1 2), (3, entry 3 0 1)]
  pcoinsTip := { base := ⟨(viewOf 7 olderCoins 0).base.getCoins, none⟩ }

/-- The blocks with the transactions of block 3 behind its coinbase. -/
def branches (others : List CTransaction) : SwitchDisk where
  blockFile hash :=
    [(0, genesisBlock), (1, mine 1 0 [coinbase 11 0, lower]), (2, mine 2 1 [coinbase 12 0, upper]),
      (3, mine 3 0 (coinbase 13 0 :: others))].lookup hash
  undoFile hash :=
    [(1, CBlockUndo.mk [[⟨⟨500000, opTrue⟩, false, 0, 0⟩]]), (2, ⟨[[⟨⟨400000, opTrue⟩, false, 1, 1⟩]]⟩)].lookup hash

/-- The transactions of both branches. -/
def forkTable (others : List CTransaction) : List SerializedTx :=
  (coinbase 0 (10 ^ 12) :: coinbase 11 0 :: coinbase 12 0 :: coinbase 13 0 :: lower :: upper :: others).map
    CTransaction.serialized

/-- The node after connecting blocks one after the other. -/
def switchedTo (ops : ChainOps) (path : List BlockPtr) (node : Node) : Node :=
  path.foldl (fun node pindex => (Node.setBestChain ops (pure ()) pindex node).2) node

/-- A block that pays too much, a block on top of it, a block that is fine and one on top of that. -/
def greedy : CBlock := mineAt 1400000001 2 0 [coinbase 2 (10 ^ 12 + 1)]

def child : CBlock := mineAt 1400000002 3 2 [coinbase 3 (10 ^ 12)]

def honest : CBlock := mineAt 1400000001 1 0 [coinbase 1 (10 ^ 12)]

def upon : CBlock := mineAt 1400000002 4 1 [coinbase 4 (10 ^ 12)]

/-- `ConnectBlock` as a predicate. -/
def deciding (valid : BlockPtr → Bool) : ChainOps where
  readFromDisk pindex := some (mine pindex 0 [])
  connectBlock _ entry pindex _ view :=
    { result := if valid pindex then .ok (view.setBestBlock (some pindex)) else .error (.dos 100 "")
      nStatus := entry.nStatus
      nUndoPos := entry.nUndoPos
      fGenesis := pindex = 0 }
  disconnectBlock entry _ _ view := .ok (true, view.setBestBlock entry.pprev)
  updateMemPool node _ _ := .ok node.mempool
  conditions _ := {}

/-- No block is indexed. -/
def nothing : Node where
  pcoinsTip := { base := ⟨fun _ => none, none⟩ }

end BitCrystal.TestNet

/-! ## Hashing without collisions

Some results assume that different serializations have different txids. `TestNet.numbered` is a
network of which this is true: it has the short txids of the test network for a table of
transactions, and numbers all others beyond them.
-/

namespace BitCrystal

/-- Transaction hashing has no collisions, and no transaction spends itself through others. -/
structure Platform.CollisionFree (P : Platform) : Prop where
  injective : ∀ a b : CTransaction, a.getHash P = b.getHash P → a.serialized = b.serialized
  acyclic : WellFounded fun parent child : Uint256 =>
    ∃ tx : CTransaction, tx.getHash P = child ∧ ∃ out ∈ tx.prevouts, out.hash = parent

namespace SerializedTx

/-- The fields as nested pairs and lists of numbers. -/
def fields (tx : SerializedTx) :
    ℤ × List ((ℕ × ℕ) × List (Fin 256) × ℕ) × List (ℤ × List (Fin 256)) × ℕ × Option (List (Fin 256)) :=
  (tx.nVersion,
    tx.vin.map fun txin => ((txin.prevout.hash, txin.prevout.n), txin.scriptSig.map UInt8.toFin, txin.nSequence),
    tx.vout.map fun txout => (txout.nValue, txout.scriptPubKey.map UInt8.toFin),
    tx.nLockTime, tx.strTxComment.map (List.map UInt8.toFin))

theorem fields_injective : Function.Injective fields := by
  have bytes : Function.Injective (List.map UInt8.toFin) :=
    List.map_injective_iff.mpr fun a b same => UInt8.toFin_inj.mp same
  intro a b same
  obtain ⟨nVersion, vin, vout, nLockTime, strTxComment⟩ := a
  obtain ⟨nVersion', vin', vout', nLockTime', strTxComment'⟩ := b
  simp only [fields, Prod.mk.injEq] at same
  obtain ⟨rfl, inputs, outputs, rfl, comment⟩ := same
  have sameInputs : vin = vin' := List.map_injective_iff.mpr (fun a b same => by
    obtain ⟨⟨hash, n⟩, scriptSig, nSequence⟩ := a
    obtain ⟨⟨hash', n'⟩, scriptSig', nSequence'⟩ := b
    simp only [Prod.mk.injEq] at same
    obtain ⟨⟨rfl, rfl⟩, script, rfl⟩ := same
    rw [bytes script]) inputs
  have sameOutputs : vout = vout' := List.map_injective_iff.mpr (fun a b same => by
    obtain ⟨nValue, scriptPubKey⟩ := a
    obtain ⟨nValue', scriptPubKey'⟩ := b
    simp only [Prod.mk.injEq] at same
    obtain ⟨rfl, script⟩ := same
    rw [bytes script]) outputs
  rw [sameInputs, sameOutputs, Option.map_injective bytes comment]

/-- A number for each serialization, above the hashes its inputs name. -/
def number (tx : SerializedTx) : ℕ :=
  Nat.pair (Encodable.encode tx.fields) ((tx.vin.map fun txin => txin.prevout.hash).sum + 1)

theorem number_injective : Function.Injective number := fun _ _ same =>
  fields_injective (Encodable.encode_injective (Nat.pair_eq_pair.mp same).1)

theorem lt_number {tx : SerializedTx} {txin : CTxIn} (member : txin ∈ tx.vin) : txin.prevout.hash < tx.number := by
  have atMost := List.le_sum_of_mem (List.mem_map_of_mem (f := fun txin : CTxIn => txin.prevout.hash) member)
  exact lt_of_lt_of_le (Nat.lt_succ_of_le atMost) (Nat.right_le_pair ..)

end SerializedTx

namespace TestNet

/-- The test network with other txids for the transactions that are not in the table. -/
def numbered (table : List SerializedTx) : Platform where
  __ := platform
  hashTx tx := if tx ∈ table then platform.hashTx tx else (table.map platform.hashTx).sum + 1 + tx.number

private theorem hashTx_lt {table : List SerializedTx} {tx : SerializedTx} (inside : tx ∈ table) (n : ℕ) :
    platform.hashTx tx < (table.map platform.hashTx).sum + 1 + n := by
  have atMost := List.le_sum_of_mem (List.mem_map_of_mem (f := platform.hashTx) inside)
  exact Nat.lt_add_right n (Nat.lt_succ_of_le atMost)

theorem collisionFree_numbered {table : List SerializedTx} (distinct : (table.map platform.hashTx).Nodup)
    (ordered : ∀ tx ∈ table, ∀ txin ∈ tx.vin, txin.prevout.hash < platform.hashTx tx) :
    (numbered table).CollisionFree where
  injective a b same := by
    simp only [CTransaction.getHash, numbered] at same
    split at same
    next inside =>
      split at same
      next inside' => exact List.inj_on_of_nodup_map distinct inside inside' same
      next => exact absurd same (hashTx_lt inside _).ne
    next =>
      split at same
      next inside' => exact absurd same.symm (hashTx_lt inside' _).ne
      next => exact SerializedTx.number_injective (Nat.add_left_cancel same)
  acyclic := by
    refine Subrelation.wf ?_ Nat.lt_wfRel.wf
    rintro _ _ ⟨tx, rfl, out, spent, rfl⟩
    obtain ⟨txin, member, rfl⟩ := List.mem_map.mp spent
    change _ < (numbered table).hashTx tx.serialized
    simp only [numbered]
    split
    next inside => exact ordered _ inside txin member
    next =>
      have less : txin.prevout.hash < tx.serialized.number := SerializedTx.lt_number member
      exact Nat.lt_add_left _ less

end TestNet

end BitCrystal
