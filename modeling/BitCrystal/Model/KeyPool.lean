import BitCrystal.Machine.StateAction
import BitCrystal.Model.KeyStore
import Mathlib.Data.Finset.Max

/-! # The key pool

The part of the wallet that hands out new keys: the set of indices, the pool records of the wallet file
and the reservations that refer to them by index. Writing and erasing records succeeds, and each call
holds the lock of the wallet.
-/

namespace BitCrystal

/-- A key pool entry. -/
structure CKeyPool where
  nTime : ℤ
  vchPubKey : valtype
deriving DecidableEq, Repr

/-- The keys that are made one after the other, and the times at which they are written. -/
structure KeyMaker where
  makeNewKey : ℕ → valtype
  getTime : ℕ → ℤ

/-- `CPubKey::IsValid`. -/
def validPubKey (vchPubKey : valtype) : Bool := vchPubKey.length = 33 || vchPubKey.length = 65

/-- The members of `CWallet` that the key pool works on, and the pool records of the wallet file. -/
structure KeyPoolWallet where
  keystore : CKeyStore := {}
  setKeyPool : Finset ℤ := ∅
  vchDefaultKey : valtype := []
  pool : ℤ → Option CKeyPool := fun _ => none
  /-- How many keys have been made. -/
  nMade : ℕ := 0

abbrev KeyPoolAction := StateAction KeyPoolWallet Failure

namespace KeyPoolWallet

variable (crypto : Crypto) (maker : KeyMaker)

def writePool (wallet : KeyPoolWallet) (nIndex : ℤ) (keypool : CKeyPool) : KeyPoolWallet :=
  { wallet with pool := Function.update wallet.pool nIndex (some keypool) }

def erasePool (wallet : KeyPoolWallet) (nIndex : ℤ) : KeyPoolWallet :=
  { wallet with pool := Function.update wallet.pool nIndex none }

/-- The entry with the key that is made next. -/
def nextKey (wallet : KeyPoolWallet) : CKeyPool where
  nTime := maker.getTime wallet.nMade
  vchPubKey := maker.makeNewKey wallet.nMade

/-- `GenerateNewKey`, which adds the key to the wallet. -/
def generateNewKey (wallet : KeyPoolWallet) : KeyPoolWallet :=
  { wallet with
    keystore := wallet.keystore.addKey crypto (maker.makeNewKey wallet.nMade)
    nMade := wallet.nMade + 1 }

/-- Write a new key at an index and put the index into the set. -/
def refill (wallet : KeyPoolWallet) (nIndex : ℤ) : KeyPoolWallet :=
  let written := (wallet.generateNewKey crypto maker).writePool nIndex (wallet.nextKey maker)
  { written with setKeyPool := insert nIndex wallet.setKeyPool }

/-- `*(--setKeyPool.end()) + 1`, or 1 for the empty set. -/
def nEnd (wallet : KeyPoolWallet) : ℤ := wallet.setKeyPool.max.unbotD 0 + 1

/-- Erase the records of the set and the set. -/
def erasePools (wallet : KeyPoolWallet) : KeyPoolWallet :=
  { wallet with
    pool := fun nIndex => if nIndex ∈ wallet.setKeyPool then none else wallet.pool nIndex
    setKeyPool := ∅ }

/-- The loop of `NewKeyPool` with its counter `int i`, for the given number of rounds. -/
def newKeyPoolLoop : ℕ → ℕ → KeyPoolAction Unit
  | 0, _ => pure ()
  | rounds + 1, i =>
    if 2 ^ 31 ≤ i + 1 then StateAction.throw .overflow
    else do
      StateAction.modify fun wallet => wallet.refill crypto maker (i + 1)
      newKeyPoolLoop rounds (i + 1)

/-- `keypool` is the option `-keypool`. -/
def newKeyPool (locked : Bool) (keypool : ℤ) : KeyPoolAction Bool := do
  StateAction.modify erasePools
  if locked then return false
  else
    newKeyPoolLoop crypto maker keypool.toNat 0
    return true

/-- The size that `TopUpKeyPool` fills the set up to, in the arithmetic of `unsigned int`. -/
def targetSize (keypool : ℤ) : ℕ := (keypool.toNat % 2 ^ 32 + 1) % 2 ^ 32

/-- The loop of `TopUpKeyPool` for so many rounds. -/
def topUpLoop (target : ℕ) : ℕ → KeyPoolWallet → KeyPoolWallet
  | 0, wallet => wallet
  | rounds + 1, wallet =>
    if wallet.setKeyPool.card < target then topUpLoop target rounds (wallet.refill crypto maker wallet.nEnd)
    else wallet

/-- Each round adds an index, so there are as many rounds as indices are missing. -/
def topUpKeyPool (locked : Bool) (keypool : ℤ) (wallet : KeyPoolWallet) : KeyPoolWallet :=
  if locked then wallet
  else wallet.topUpLoop crypto maker (targetSize keypool) (targetSize keypool - wallet.setKeyPool.card)

/-- `ReserveKeyFromKeyPool`, which returns `nIndex` and `keypool.vchPubKey`. -/
def reserveKeyFromKeyPool (locked : Bool) (keypool : ℤ) : KeyPoolAction (ℤ × valtype) := do
  StateAction.modify (topUpKeyPool crypto maker locked keypool)
  let wallet ← StateAction.get
  -- Get the oldest key
  if filled : wallet.setKeyPool.Nonempty then
    let nIndex := wallet.setKeyPool.min' filled
    StateAction.modify fun wallet => { wallet with setKeyPool := wallet.setKeyPool.erase nIndex }
    match wallet.pool nIndex with
    | none => StateAction.throw (.throws "ReserveKeyFromKeyPool() : read failed")
    | some keypool =>
      if ¬ wallet.keystore.haveKey (crypto.hash160 keypool.vchPubKey) then
        StateAction.throw (.throws "ReserveKeyFromKeyPool() : unknown key in key pool")
      else if ¬ validPubKey keypool.vchPubKey then StateAction.throw (.assertion "keypool.vchPubKey.IsValid()")
      else return (nIndex, keypool.vchPubKey)
  else return (-1, [])

/-- `AddReserveKey`; the last index of an empty set is not there. -/
def addReserveKey (keypool : CKeyPool) : KeyPoolAction ℤ := do
  let wallet ← StateAction.get
  match wallet.setKeyPool.max with
  | none => StateAction.throw .undefined
  | some last =>
    StateAction.modify fun wallet =>
      { wallet.writePool (1 + last) keypool with setKeyPool := insert (1 + last) wallet.setKeyPool }
    return 1 + last

def keepKey (nIndex : ℤ) (wallet : KeyPoolWallet) : KeyPoolWallet := wallet.erasePool nIndex

def returnKey (nIndex : ℤ) (wallet : KeyPoolWallet) : KeyPoolWallet :=
  { wallet with setKeyPool := insert nIndex wallet.setKeyPool }

/-- `GetKeyFromPool`: the index that it reserved and kept, or -1, and the key; `none` is the value `false`. -/
def getKeyFromPool (locked : Bool) (keypool : ℤ) (fAllowReuse : Bool) : KeyPoolAction (Option (ℤ × valtype)) := do
  let reserved ← reserveKeyFromKeyPool crypto maker locked keypool
  let wallet ← StateAction.get
  if reserved.1 = -1 then
    if fAllowReuse && validPubKey wallet.vchDefaultKey then return some (-1, wallet.vchDefaultKey)
    else if locked then return none
    else
      StateAction.modify (generateNewKey crypto maker)
      return some (-1, maker.makeNewKey wallet.nMade)
  else
    StateAction.modify (keepKey reserved.1)
    return some reserved

end KeyPoolWallet

/-- A reservation; `nIndex` is -1 if nothing is reserved. -/
structure CReserveKey where
  nIndex : ℤ := -1
  vchPubKey : valtype := []
deriving DecidableEq, Repr

namespace CReserveKey

variable (crypto : Crypto) (maker : KeyMaker)

/-- The end of `GetReservedKey`. -/
def checked (reservekey : CReserveKey) : KeyPoolAction (CReserveKey × Option valtype) :=
  if validPubKey reservekey.vchPubKey then return (reservekey, some reservekey.vchPubKey)
  else StateAction.throw (.assertion "vchPubKey.IsValid()")

/-- `GetReservedKey`, with the reservation after it; the second part of the result is `pubkey`, or `none` for
`false`. -/
def getReservedKey (reservekey : CReserveKey) (locked : Bool) (keypool : ℤ) :
    KeyPoolAction (CReserveKey × Option valtype) := do
  if reservekey.nIndex ≠ -1 then reservekey.checked
  else
    let reserved ← KeyPoolWallet.reserveKeyFromKeyPool crypto maker locked keypool
    let wallet ← StateAction.get
    if reserved.1 ≠ -1 then checked ⟨reserved.1, reserved.2⟩
    else if validPubKey wallet.vchDefaultKey then checked { reservekey with vchPubKey := wallet.vchDefaultKey }
    else return (reservekey, none)

/-- `KeepKey`: the wallet after it. The reservation is empty then. -/
def keepKey (reservekey : CReserveKey) (wallet : KeyPoolWallet) : KeyPoolWallet :=
  if reservekey.nIndex ≠ -1 then wallet.keepKey reservekey.nIndex else wallet

/-- `ReturnKey`, also run by the destructor. -/
def returnKey (reservekey : CReserveKey) (wallet : KeyPoolWallet) : KeyPoolWallet :=
  if reservekey.nIndex ≠ -1 then wallet.returnKey reservekey.nIndex else wallet

end CReserveKey

/-- A wallet and the reservations of its users, with the keys of the reservations that were kept. -/
structure KeyPoolSystem (H : Type) where
  wallet : KeyPoolWallet := {}
  holders : H → CReserveKey := fun _ => {}
  kept : List valtype := []

/-- The calls of the users, in the state of the lock and with the option `-keypool` at that time. -/
inductive KeyPoolCall (H : Type)
  | newKeyPool (locked : Bool) (keypool : ℤ)
  | topUpKeyPool (locked : Bool) (keypool : ℤ)
  | addReserveKey (keypool : CKeyPool)
  | getKeyFromPool (locked : Bool) (keypool : ℤ) (fAllowReuse : Bool)
  | getReservedKey (holder : H) (locked : Bool) (keypool : ℤ)
  | keepKey (holder : H)
  | returnKey (holder : H)

namespace KeyPoolSystem

variable {H : Type} [DecidableEq H] (crypto : Crypto) (maker : KeyMaker) (system : KeyPoolSystem H)

/-- `ReturnKey` of a reservation. -/
def giveBack (holder : H) : KeyPoolSystem H :=
  { system with
    wallet := (system.holders holder).returnKey system.wallet
    holders := Function.update system.holders holder {} }

/-- `KeepKey` of a reservation. -/
def keep (holder : H) : KeyPoolSystem H where
  wallet := (system.holders holder).keepKey system.wallet
  holders := Function.update system.holders holder {}
  kept :=
    if (system.holders holder).nIndex ≠ -1 then system.kept ++ [(system.holders holder).vchPubKey] else system.kept

/-- Go on with the wallet that an action leaves. -/
def after {α : Type} (action : KeyPoolAction α) (next : α → KeyPoolWallet → KeyPoolSystem H) :
    Except Failure (KeyPoolSystem H) :=
  (action system.wallet).1.map fun result => next result (action system.wallet).2

/-- What a call does. The key that `GetKeyFromPool` takes from the pool is reserved and kept at once. -/
def step : KeyPoolCall H → Except Failure (KeyPoolSystem H)
  | .newKeyPool locked keypool =>
    system.after (KeyPoolWallet.newKeyPool crypto maker locked keypool) fun _ wallet => { system with wallet }
  | .topUpKeyPool locked keypool =>
    .ok { system with wallet := system.wallet.topUpKeyPool crypto maker locked keypool }
  | .addReserveKey keypool => system.after (KeyPoolWallet.addReserveKey keypool) fun _ wallet => { system with wallet }
  | .getKeyFromPool locked keypool fAllowReuse =>
    system.after (KeyPoolWallet.getKeyFromPool crypto maker locked keypool fAllowReuse) fun result wallet =>
      { system with wallet, kept := system.kept ++ (result.toList.filter (·.1 ≠ -1)).map Prod.snd }
  | .getReservedKey holder locked keypool =>
    system.after ((system.holders holder).getReservedKey crypto maker locked keypool) fun result wallet =>
      { system with wallet, holders := Function.update system.holders holder result.1 }
  | .keepKey holder => .ok (system.keep holder)
  | .returnKey holder => .ok (system.giveBack holder)

/-- A run ends with the first call that fails. -/
def run (calls : List (KeyPoolCall H)) : Except Failure (KeyPoolSystem H) := calls.foldlM (step crypto maker) system

end KeyPoolSystem

end BitCrystal
