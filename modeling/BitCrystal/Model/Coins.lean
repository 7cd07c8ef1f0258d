import BitCrystal.Model.Transaction
import Mathlib.Data.List.DropRight

/-! # Coin entries and the views over them

`CCoins` keeps the unspent outputs of one transaction; spent outputs are null and trailing null
outputs are dropped. A view answers two questions, the entry of a txid and the best block. A
`CCoinsViewCache` answers them from the entries written to it and else from the view below. Copying
a fetched entry into the cache changes no answer, so reads are modelled as pure; the lazily fetched
best block is not, because `Flush` pushes that pointer down.
-/

namespace BitCrystal

/-- A `CBlockIndex*`, named by the hash under which `mapBlockIndex` owns the object. -/
abbrev BlockPtr := Uint256

/-- Fake height of entries that are only in the memory pool. -/
def MEMPOOL_HEIGHT : ℕ := 0x7FFFFFFF

/-- Undo information for one input: the output spent and, when it was the last of its entry, the
metadata of the entry. -/
structure CTxInUndo where
  txout : CTxOut
  fCoinBase : Bool := false
  nHeight : ℕ := 0
  nVersion : ℤ := 0
deriving DecidableEq, Repr

abbrev CTxUndo := List CTxInUndo

/-- Undo information of a block, one record for every transaction but the coinbase. -/
structure CBlockUndo where
  vtxundo : List CTxUndo
deriving DecidableEq, Repr

/-- The pruned version of a transaction. Structural equality is `operator==`. -/
structure CCoins where
  fCoinBase : Bool := false
  vout : List CTxOut := []
  nHeight : ℕ := 0
  nVersion : ℤ := 0
deriving DecidableEq, Repr

namespace CCoins

/-- `CCoins(tx, nHeight)`. -/
def ofTx (tx : CTransaction) (nHeight : ℕ) : CCoins where
  fCoinBase := tx.isCoinBase
  vout := tx.vout
  nHeight := nHeight
  nVersion := tx.nVersion

/-- Remove spent outputs at the end of `vout`. -/
def cleanup (coins : CCoins) : CCoins :=
  { coins with vout := coins.vout.rdropWhile fun out => decide out.isNull }

/-- Mark an output spent and construct its undo information. -/
def spend (coins : CCoins) (n : ℕ) : Option (CCoins × CTxInUndo) :=
  match coins.vout[n]? with
  | none => none
  | some txout =>
    if txout.isNull then none
    else
      let left := cleanup { coins with vout := coins.vout.set n .null }
      if left.vout = [] then some (left, ⟨txout, coins.fCoinBase, coins.nHeight, coins.nVersion⟩)
      else some (left, ⟨txout, false, 0, 0⟩)

def isAvailable (coins : CCoins) (n : ℕ) : Prop := ∃ out, coins.vout[n]? = some out ∧ ¬ out.isNull

instance (coins : CCoins) (n : ℕ) : Decidable (coins.isAvailable n) :=
  match h : coins.vout[n]? with
  | none => isFalse (by simp [isAvailable, h])
  | some out => decidable_of_iff (¬ out.isNull) (by simp [isAvailable, h])

/-- The entire entry is spent. Only other entries can be serialized. -/
def isPruned (coins : CCoins) : Prop := ∀ out ∈ coins.vout, out.isNull

instance (coins : CCoins) : Decidable coins.isPruned := inferInstanceAs (Decidable (∀ _ ∈ _, _))

end CCoins

/-- The answers of a coin view. -/
structure CCoinsView where
  getCoins : Uint256 → Option CCoins
  getBestBlock : Option BlockPtr

structure CCoinsViewCache where
  base : CCoinsView
  cacheCoins : Uint256 → Option CCoins := fun _ => none
  pindexTip : Option BlockPtr := none

namespace CCoinsViewCache

def getCoins (view : CCoinsViewCache) (txid : Uint256) : Option CCoins :=
  (view.cacheCoins txid).or (view.base.getCoins txid)

/-- An entry may be there although all its outputs are spent. -/
def haveCoins (view : CCoinsViewCache) (txid : Uint256) : Bool := (view.getCoins txid).isSome

def setCoins (view : CCoinsViewCache) (txid : Uint256) (coins : CCoins) : CCoinsViewCache :=
  { view with cacheCoins := Function.update view.cacheCoins txid (some coins) }

/-- The value `GetBestBlock` returns. -/
def getBestBlock (view : CCoinsViewCache) : Option BlockPtr :=
  view.pindexTip.or view.base.getBestBlock

def setBestBlock (view : CCoinsViewCache) (pindex : Option BlockPtr) : CCoinsViewCache :=
  { view with pindexTip := pindex }

/-- The view another cache placed on top of this one reads from. -/
def answers (view : CCoinsViewCache) : CCoinsView := ⟨view.getCoins, view.getBestBlock⟩

def batchWrite (view : CCoinsViewCache) (mapCoins : Uint256 → Option CCoins)
    (pindex : Option BlockPtr) : CCoinsViewCache :=
  { view with cacheCoins := fun txid => (mapCoins txid).or (view.cacheCoins txid), pindexTip := pindex }

end CCoinsViewCache

/-- `CCoinsViewDB::BatchWrite`: pruned entries are erased, and no best block is written without a
block. The database returns the entries it was given; their bytes are the subject of the coin codec. -/
def CCoinsView.batchWriteDB (db : CCoinsView) (mapCoins : Uint256 → Option CCoins)
    (pindex : Option BlockPtr) : CCoinsView where
  getCoins txid :=
    match mapCoins txid with
    | some coins => if coins.isPruned then none else some coins
    | none => db.getCoins txid
  getBestBlock := pindex.or db.getBestBlock

/-- `CCoinsViewCache::Flush` of a cache over the database. -/
def CCoinsViewCache.flushDB (view : CCoinsViewCache) : CCoinsViewCache where
  base := view.base.batchWriteDB view.cacheCoins view.pindexTip
  pindexTip := view.pindexTip

namespace CCoinsViewCache

variable (view : CCoinsViewCache) (txid other : Uint256) (coins : CCoins)

@[simp] theorem getCoins_setCoins :
    (view.setCoins txid coins).getCoins other =
      if other = txid then some coins else view.getCoins other := by
  by_cases same : other = txid
  · subst same
    simp [getCoins, setCoins]
  · simp [getCoins, setCoins, same]

theorem getBestBlock_setBestBlock {pindex : Option BlockPtr} (block : pindex ≠ none) :
    (view.setBestBlock pindex).getBestBlock = pindex := by
  obtain ⟨pointer, rfl⟩ := Option.ne_none_iff_exists'.mp block
  rfl

@[simp] theorem answers_getCoins : view.answers.getCoins other = view.getCoins other := rfl

@[simp] theorem answers_getBestBlock : view.answers.getBestBlock = view.getBestBlock := rfl

theorem getCoins_batchWrite (mapCoins : Uint256 → Option CCoins) (pindex : Option BlockPtr) :
    (view.batchWrite mapCoins pindex).getCoins other = (mapCoins other).or (view.getCoins other) := by
  simp only [getCoins, batchWrite]
  cases mapCoins other <;> rfl

end CCoinsViewCache

/-! ## Caches on top of caches

A stack of `CCoinsViewCache` objects, the top one first, over a base that keeps a map of entries and a
best block. A query to a cache that has no answer goes to the one below and leaves the answer in
every cache it has passed.
-/

/-- The fields of a cache without its base. -/
structure CacheLevel where
  cacheCoins : Uint256 → Option CCoins := fun _ => none
  pindexTip : Option BlockPtr := none

def CacheLevel.above (level : CacheLevel) (base : CCoinsView) : CCoinsViewCache :=
  ⟨base, level.cacheCoins, level.pindexTip⟩

structure CoinStack where
  caches : List CacheLevel
  base : CCoinsView

namespace CoinStack

/-- `GetCoins`; `HaveCoins` fetches in the same way. -/
def fetchCoins (base : CCoinsView) (txid : Uint256) : List CacheLevel → Option CCoins × List CacheLevel
  | [] => (base.getCoins txid, [])
  | level :: lower =>
    match level.cacheCoins txid with
    | some coins => (some coins, level :: lower)
    | none =>
      match fetchCoins base txid lower with
      | (some coins, lower) =>
        (some coins, { level with cacheCoins := Function.update level.cacheCoins txid (some coins) } :: lower)
      | (none, lower) => (none, level :: lower)

/-- `GetBestBlock`. -/
def fetchBestBlock (base : CCoinsView) : List CacheLevel → Option BlockPtr × List CacheLevel
  | [] => (base.getBestBlock, [])
  | level :: lower =>
    match level.pindexTip with
    | some pindex => (some pindex, level :: lower)
    | none => ((fetchBestBlock base lower).1,
        { level with pindexTip := (fetchBestBlock base lower).1 } :: (fetchBestBlock base lower).2)

/-- `BatchWrite` into the top cache, or into a base that behaves as a map and keeps its best block
when there is none to write. -/
def batchWrite (mapCoins : Uint256 → Option CCoins) (pindex : Option BlockPtr) : CoinStack → CoinStack
  | ⟨[], base⟩ => ⟨[], fun txid => (mapCoins txid).or (base.getCoins txid), pindex.or base.getBestBlock⟩
  | ⟨level :: lower, base⟩ =>
    ⟨⟨fun txid => (mapCoins txid).or (level.cacheCoins txid), pindex⟩ :: lower, base⟩

/-- Put a cache on top. -/
def push (level : CacheLevel) (stack : CoinStack) : CoinStack := ⟨level :: stack.caches, stack.base⟩

/-- `Flush` of the cache with this number, 0 for the top one. -/
def flush : ℕ → CoinStack → CoinStack
  | _, ⟨[], base⟩ => ⟨[], base⟩
  | 0, ⟨level :: lower, base⟩ =>
    push { level with cacheCoins := fun _ => none } (batchWrite level.cacheCoins level.pindexTip ⟨lower, base⟩)
  | i + 1, ⟨level :: lower, base⟩ => push level (flush i ⟨lower, base⟩)

/-- A change to the top cache. -/
def onTop (change : CacheLevel → CacheLevel) (stack : CoinStack) : CoinStack :=
  { stack with caches := stack.caches.modifyHead change }

inductive Op where
  | getCoins (txid : Uint256)
  /-- Write through the reference `GetCoins` returns. -/
  | modifyCoins (txid : Uint256) (change : CCoins → CCoins)
  | haveCoins (txid : Uint256)
  | setCoins (txid : Uint256) (coins : CCoins)
  | getBestBlock
  | setBestBlock (pindex : Option BlockPtr)
  | flush (i : ℕ)

/-- What an operation returns. -/
inductive Answer where
  | coins (found : Option CCoins)
  | have (found : Bool)
  | bestBlock (pindex : Option BlockPtr)
  | done
  /-- `assert(it != cacheCoins.end())`. -/
  | assertion

def step (stack : CoinStack) : Op → Answer × CoinStack
  | .getCoins txid =>
    let (found, caches) := fetchCoins stack.base txid stack.caches
    (.coins found, { stack with caches })
  | .modifyCoins txid change =>
    match fetchCoins stack.base txid stack.caches with
    | (none, caches) => (.assertion, { stack with caches })
    | (some coins, caches) => (.done, onTop (fun level =>
        { level with cacheCoins := Function.update level.cacheCoins txid (some (change coins)) }) { stack with caches })
  | .haveCoins txid =>
    let (found, caches) := fetchCoins stack.base txid stack.caches
    (.have found.isSome, { stack with caches })
  | .setCoins txid coins => (.done, onTop (fun level =>
      { level with cacheCoins := Function.update level.cacheCoins txid (some coins) }) stack)
  | .getBestBlock =>
    let (pindex, caches) := fetchBestBlock stack.base stack.caches
    (.bestBlock pindex, { stack with caches })
  | .setBestBlock pindex => (.done, onTop (fun level => { level with pindexTip := pindex }) stack)
  | .flush i => (.done, stack.flush i)

end CoinStack

/-- The same operations on one map with a best block. -/
def CCoinsView.step (view : CCoinsView) : CoinStack.Op → CoinStack.Answer × CCoinsView
  | .getCoins txid => (.coins (view.getCoins txid), view)
  | .modifyCoins txid change =>
    match view.getCoins txid with
    | none => (.assertion, view)
    | some coins => (.done, { view with getCoins := Function.update view.getCoins txid (some (change coins)) })
  | .haveCoins txid => (.have (view.getCoins txid).isSome, view)
  | .setCoins txid coins => (.done, { view with getCoins := Function.update view.getCoins txid (some coins) })
  | .getBestBlock => (.bestBlock view.getBestBlock, view)
  | .setBestBlock pindex => (.done, { view with getBestBlock := pindex })
  | .flush _ => (.done, view)

end BitCrystal
