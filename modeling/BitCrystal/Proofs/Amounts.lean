import BitCrystal.Machine.Holdings
import BitCrystal.Proofs.BlockJournal

/-! # The amounts of a connected block

A view holds its unspent outputs. The loops of `GetValueIn`, `CheckInputs` and `GetValueOut` compute
plain sums over it, and a transaction moves value from the outputs it spends to the outputs it adds,
leaving the rest as its fee.
-/

namespace BitCrystal

open Holdings Journal CTxOut Check

namespace CCoinsViewCache

/-- The sum of the values of all unspent outputs. -/
noncomputable def value (view : CCoinsViewCache) : ℤ := total nValue view.output?

/-- Finitely many unspent outputs, none of a negative value. -/
abbrev SoundCoins (view : CCoinsViewCache) : Prop := Sound nValue view.output?

/-- The value of the outputs the inputs name. -/
def valueOf (view : CCoinsViewCache) (vin : List CTxIn) : ℤ :=
  ((vin.map CTxIn.prevout).map (worth nValue view.output?)).sum

variable {view : CCoinsViewCache}

@[simp] theorem valueOf_nil : view.valueOf [] = 0 := rfl

@[simp] theorem valueOf_cons (txin : CTxIn) (rest : List CTxIn) :
    view.valueOf (txin :: rest) = worth nValue view.output? txin.prevout + view.valueOf rest := rfl

theorem valueOf_nonneg (sound : view.SoundCoins) (vin : List CTxIn) : 0 ≤ view.valueOf vin := by
  induction vin with
  | nil => exact le_rfl
  | cons txin rest ih =>
    have := sound.worth_nonneg txin.prevout
    rw [valueOf_cons]
    omega

end CCoinsViewCache

theorem getOutputFor_eq_ok {view : CCoinsViewCache} {input : CTxIn} {txout : CTxOut} :
    CTransaction.getOutputFor view input = .ok txout ↔ view.output? input.prevout = some txout := by
  simp only [CTransaction.getOutputFor, bind_eq_ok, assertSome_eq_ok, rejectIf_eq_ok,
    pure_eq_ok, CCoinsViewCache.output?, Option.bind_eq_some_iff, CCoins.output?_eq_some]
  constructor
  · rintro ⟨coins, found, out, there, -, notNull, rfl⟩
    exact ⟨coins, found, there, notNull⟩
  · rintro ⟨coins, found, there, notNull⟩
    exact ⟨coins, found, txout, there, (), notNull, rfl⟩

namespace CTransaction

variable {view : CCoinsViewCache}

theorem haveInputs_iff {tx : CTransaction} (ordinary : ¬ tx.isCoinBase) :
    tx.haveInputs view ↔ ∀ txin ∈ tx.vin, ∃ txout, view.output? txin.prevout = some txout := by
  simp only [haveInputs, ordinary, false_or, CCoins.isAvailable_iff, CCoinsViewCache.output?,
    Option.bind_eq_some_iff]
  refine forall₂_congr fun txin _ => ⟨?_, ?_⟩
  · rintro ⟨coins, found, txout, there⟩
    exact ⟨txout, coins, found, there⟩
  · rintro ⟨txout, coins, found, there⟩
    exact ⟨coins, found, txout, there⟩

variable {start : ℤ}

theorem valueInLoop_eq {vin : List CTxIn} {nValueIn : ℤ}
    (summed : valueInLoop view start vin = .ok nValueIn) : nValueIn = start + view.valueOf vin := by
  induction vin generalizing start with
  | nil =>
    cases summed
    simp
  | cons txin rest ih =>
    simp only [valueInLoop, bind_eq_ok, getOutputFor_eq_ok, int64_eq_ok] at summed
    obtain ⟨txout, there, next, ⟨-, rfl⟩, others⟩ := summed
    rw [ih others, CCoinsViewCache.valueOf_cons, worth_of_eq_some there, add_assoc]

theorem checkInputValues_eq {vin : List CTxIn} {nSpendHeight nValueIn : ℤ}
    (checked : checkInputValues view nSpendHeight start vin = .ok nValueIn) :
    nValueIn = start + view.valueOf vin := by
  induction vin generalizing start with
  | nil =>
    cases checked
    simp
  | cons txin rest ih =>
    simp only [checkInputValues, bind_eq_ok, assertSome_eq_ok, rejectIf_eq_ok, int64_eq_ok,
      not_or, not_not] at checked
    obtain ⟨coins, found, -, -, txout, there, next, ⟨-, rfl⟩, -, ⟨range, -⟩, others⟩ := checked
    have notNull : ¬ txout.isNull := by
      have := range.1
      rw [isNull]
      omega
    have unspent : view.output? txin.prevout = some txout := by
      rw [CCoinsViewCache.output?, found]
      exact CCoins.output?_eq_some.mpr ⟨there, notNull⟩
    rw [ih others, CCoinsViewCache.valueOf_cons, worth_of_eq_some unspent, add_assoc]

theorem valueOutLoop_eq {vout : List CTxOut} {nValueOut : ℤ} (summed : valueOutLoop start vout = .ok nValueOut) :
    nValueOut = start + (vout.map nValue).sum := by
  induction vout generalizing start with
  | nil =>
    cases summed
    simp
  | cons txout rest ih =>
    simp only [valueOutLoop, bind_eq_ok, int64_eq_ok] at summed
    obtain ⟨next, ⟨-, rfl⟩, -, -, others⟩ := summed
    rw [ih others, List.map_cons, List.sum_cons, add_assoc]

/-- `CheckInputs` ends in the comparison of the two sums. -/
theorem checkInputs_fee {tx : CTransaction} (ordinary : ¬ tx.isCoinBase) {P : Platform} {index : BlockMap}
    {fScriptChecks pvChecks : Bool} {flags : ℕ} {checks : List CScriptCheck}
    (checked : tx.checkInputs P index view fScriptChecks flags pvChecks = .ok checks) :
    ∃ nValueOut, tx.getValueOut = .ok nValueOut ∧ nValueOut ≤ view.valueOf tx.vin := by
  simp only [checkInputs, if_neg ordinary, bind_eq_ok, rejectIf_eq_ok] at checked
  obtain ⟨-, -, tip, -, nValueIn, summed, nValueOut, valueOut, -, enough, -⟩ := checked
  refine ⟨nValueOut, valueOut, ?_⟩
  rw [checkInputValues_eq summed] at enough
  omega

end CTransaction

namespace CCoins

private theorem map_getElem?_range {α β : Type*} (l : List α) (f : Option α → β) :
    (List.range l.length).map (fun n => f l[n]?) = l.map fun a => f (some a) := by
  apply List.ext_getElem
  · simp
  · intro n _ bound
    rw [List.length_map] at bound
    simp [List.getElem?_eq_getElem bound]

/-- The outputs of one entry as a view of its own. -/
def alone (txid : Uint256) (coins : CCoins) (out : COutPoint) : Option CTxOut :=
  if out.hash = txid then coins.output? out.n else none

variable (txid : Uint256) {coins : CCoins}

theorem sound_alone (nonneg : ∀ out ∈ coins.vout, 0 ≤ out.nValue) : Sound nValue (alone txid coins) where
  finite := by
    apply ((List.range coins.vout.length).map (COutPoint.mk txid)).toFinset.finite_toSet.subset
    intro out held
    obtain ⟨txout, found⟩ := Option.ne_none_iff_exists'.mp held
    rw [alone, Option.ite_none_right_eq_some, output?_eq_some] at found
    obtain ⟨hash, there, -⟩ := found
    rw [Finset.mem_coe, List.mem_toFinset, List.mem_map]
    exact ⟨out.n, List.mem_range.mpr (List.getElem?_eq_some_iff.mp there).1, by rw [← hash]⟩
  nonneg out txout held := by
    rw [alone, Option.ite_none_right_eq_some, output?_eq_some] at held
    exact nonneg txout (List.mem_of_getElem? held.2.1)

/-- An entry without spent outputs is worth the sum of its outputs. -/
theorem total_alone (nonneg : ∀ out ∈ coins.vout, 0 ≤ out.nValue) :
    total nValue (alone txid coins) = (coins.vout.map nValue).sum := by
  have distinct : ((List.range coins.vout.length).map (COutPoint.mk txid)).Nodup :=
    List.nodup_range.map fun n m same => (COutPoint.mk.inj same).2
  rw [(sound_alone txid nonneg).total_eq_sum distinct, List.map_map]
  · have each (n : ℕ) : (worth nValue (alone txid coins) ∘ COutPoint.mk txid) n =
        (coins.vout[n]?.filter fun out => ¬ out.isNull).elim 0 nValue := by
      simp [worth, alone, output?]
    rw [List.map_congr_left fun n _ => each n,
      map_getElem?_range coins.vout fun found => (found.filter fun out => ¬ out.isNull).elim 0 nValue]
    refine congrArg List.sum (List.map_congr_left fun out member => ?_)
    have notNull : ¬ out.isNull := by
      have := nonneg out member
      rw [isNull]
      omega
    simp [Option.filter_some, notNull]
  · intro out outside
    rw [alone]
    split_ifs with hash
    · rw [output?_eq_none]
      rintro ⟨txout, there, -⟩
      refine outside (List.mem_map.mpr ⟨out.n, List.mem_range.mpr (List.getElem?_eq_some_iff.mp there).1, ?_⟩)
      rw [← hash]
    · rfl

end CCoins

namespace CCoinsViewCache

variable {view : CCoinsViewCache} (txid : Uint256) {coins : CCoins}

private theorem output?_setCoins_either {txid : Uint256} {out : COutPoint} {txout : CTxOut}
    (held : (view.setCoins txid coins).output? out = some txout) :
    view.output? out = some txout ∨ coins.alone txid out = some txout := by
  rw [output?_setCoins] at held
  split_ifs at held with hash
  · exact .inr (by rw [CCoins.alone, if_pos hash, held])
  · exact .inl held

theorem sound_setCoins (sound : view.SoundCoins) (nonneg : ∀ out ∈ coins.vout, 0 ≤ out.nValue) :
    (view.setCoins txid coins).SoundCoins :=
  Sound.of_either sound (CCoins.sound_alone txid nonneg) fun _ _ held => output?_setCoins_either held

/-- Adding a transaction adds at most its outputs; what it overwrites is lost. -/
theorem value_setCoins_le (sound : view.SoundCoins) (nonneg : ∀ out ∈ coins.vout, 0 ≤ out.nValue) :
    (view.setCoins txid coins).value ≤ view.value + (coins.vout.map nValue).sum := by
  rw [← CCoins.total_alone txid nonneg]
  exact Sound.total_le_add sound (CCoins.sound_alone txid nonneg) fun _ _ held => output?_setCoins_either held

end CCoinsViewCache

/-- A transaction takes the value of its inputs out of the view and puts that of its outputs in. -/
theorem value_updateCoins {P : Platform} {tx : CTransaction} (ordinary : ¬ tx.isCoinBase)
    (distinct : tx.prevouts.Nodup) (nonneg : ∀ out ∈ tx.vout, 0 ≤ out.nValue) {view next : CCoinsViewCache}
    {nHeight : ℕ} {txundo : CTxUndo} (sound : view.SoundCoins)
    (updated : tx.updateCoins view nHeight (tx.getHash P) = .ok (next, txundo)) :
    next.SoundCoins ∧ next.value ≤ view.value - view.valueOf tx.vin + (tx.vout.map nValue).sum := by
  obtain ⟨length, performed⟩ := updateCoins_ok ordinary updated
  obtain ⟨middle, spending, adding⟩ := perform_append_eq_some.mp performed
  rw [perform_singleton, CoinEvent.apply_add] at adding
  have left : middle.output? = eraseAll view.output? tx.prevouts := by
    funext out
    rw [output?_perform spending (by rw [added_spendEvents]; exact List.not_mem_nil), spent_spendEvents length]
    rfl
  have kept : middle.SoundCoins := by
    rw [CCoinsViewCache.SoundCoins, left]
    exact sound.eraseAll _
  have taken : view.value = view.valueOf tx.vin + middle.value := by
    rw [CCoinsViewCache.value, CCoinsViewCache.value, left]
    exact sound.total_eraseAll distinct
  subst adding
  have bound : (middle.setCoins (tx.getHash P) (.ofTx tx nHeight)).value ≤
      middle.value + (tx.vout.map nValue).sum := CCoinsViewCache.value_setCoins_le _ kept nonneg
  exact ⟨CCoinsViewCache.sound_setCoins _ kept nonneg, by omega⟩

end BitCrystal

/-! ## No signed overflow while a block is connected

The sums over outputs are checked against `MAX_MONEY` as they grow, but the sums over inputs and the
fee tally are not. They stay within `int64` when the value of the view and the fees so far have a
bound with room for one more `MAX_MONEY`.
-/

namespace BitCrystal

open Holdings Check

namespace CTransaction

variable {view : CCoinsViewCache} {start : ℤ} {tx : CTransaction}

private theorem checkOutputs_ne_overflow (range : moneyRange start) (vout : List CTxOut) :
    checkOutputs start vout ≠ .error .overflow := by
  induction vout generalizing start with
  | nil => exact nofun
  | cons txout rest ih =>
    refine bind_ne_error (rejectIf_ne_error nofun) fun _ low => ?_
    refine bind_ne_error (rejectIf_ne_error nofun) fun _ high => ?_
    rw [rejectIf_eq_ok] at low high
    refine bind_ne_error (int64_ne_overflow ?_) fun sum _ => ?_
    · simp only [moneyRange, InInt64, MAX_MONEY, COIN] at *
      omega
    · refine bind_ne_error (rejectIf_ne_error nofun) fun _ within => ?_
      rw [rejectIf_eq_ok, not_not] at within
      exact ih within

theorem checkTransaction_ne_overflow (tx : CTransaction) : tx.checkTransaction ≠ .error .overflow := by
  apply rejectIf_bind_ne_error (by simp)
  apply rejectIf_bind_ne_error (by simp)
  apply rejectIf_bind_ne_error (by simp)
  refine bind_ne_error (checkOutputs_ne_overflow ⟨le_rfl, by decide⟩ _) fun _ _ => ?_
  apply rejectIf_bind_ne_error (by simp)
  split_ifs <;> exact rejectIf_ne_error (by simp)

private theorem getOutputFor_ne_overflow (input : CTxIn) : getOutputFor view input ≠ .error .overflow := by
  refine bind_ne_error (assertSome_ne_error nofun) fun _ _ => ?_
  refine bind_ne_error (assertSome_ne_error nofun) fun _ _ => ?_
  exact bind_ne_error (rejectIf_ne_error nofun) fun _ _ => nofun

private theorem p2shSigOpLoop_ne_overflow (nSigOps : ℕ) (vin : List CTxIn) :
    p2shSigOpLoop view nSigOps vin ≠ .error .overflow := by
  induction vin generalizing nSigOps with
  | nil => exact nofun
  | cons txin rest ih => exact bind_ne_error (getOutputFor_ne_overflow txin) fun _ _ => ih _

private theorem valueInLoop_ne_overflow (sound : view.SoundCoins) (nonneg : 0 ≤ start)
    {vin : List CTxIn} (bound : start + view.valueOf vin < 2 ^ 63) :
    valueInLoop view start vin ≠ .error .overflow := by
  induction vin generalizing start with
  | nil => exact nofun
  | cons txin rest ih =>
    refine bind_ne_error (getOutputFor_ne_overflow txin) fun txout there => ?_
    rw [getOutputFor_eq_ok] at there
    rw [CCoinsViewCache.valueOf_cons, worth_of_eq_some there] at bound
    have := sound.nonneg _ _ there
    have := CCoinsViewCache.valueOf_nonneg sound rest
    refine bind_ne_error (int64_ne_overflow ⟨by omega, by omega⟩) fun sum added => ?_
    rw [int64_eq_ok] at added
    exact ih (by omega) (by omega)

private theorem checkInputValues_ne_overflow (sound : view.SoundCoins) {nSpendHeight : ℤ}
    (nonneg : 0 ≤ start) {vin : List CTxIn} (unspent : ∀ txin ∈ vin, ∃ txout, view.output? txin.prevout = some txout)
    (bound : start + view.valueOf vin < 2 ^ 63) :
    checkInputValues view nSpendHeight start vin ≠ .error .overflow := by
  induction vin generalizing start with
  | nil => exact nofun
  | cons txin rest ih =>
    obtain ⟨txout, there⟩ := unspent txin (List.mem_cons_self ..)
    obtain ⟨coins, found, output⟩ := Option.bind_eq_some_iff.mp there
    rw [CCoinsViewCache.valueOf_cons, worth_of_eq_some there] at bound
    have := sound.nonneg _ _ there
    have := CCoinsViewCache.valueOf_nonneg sound rest
    refine bind_ne_error (assertSome_ne_error nofun) fun read same => ?_
    rw [assertSome_eq_ok, found] at same
    cases same
    refine rejectIf_bind_ne_error nofun ?_
    refine bind_ne_error (assertSome_ne_error nofun) fun read same => ?_
    rw [assertSome_eq_ok, (CCoins.output?_eq_some.mp output).1] at same
    cases same
    refine bind_ne_error (int64_ne_overflow ⟨by omega, by omega⟩) fun sum added => ?_
    rw [int64_eq_ok] at added
    refine rejectIf_bind_ne_error nofun ?_
    exact ih (by omega) (fun txin member => unspent txin (List.mem_cons_of_mem _ member)) (by omega)

private theorem scriptChecks_ne_overflow (tx : CTransaction) (flags nIn : ℕ) (vin : List CTxIn) :
    tx.scriptChecks view flags nIn vin ≠ .error .overflow := by
  induction vin generalizing nIn with
  | nil => exact nofun
  | cons txin rest ih =>
    refine bind_ne_error (assertSome_ne_error nofun) fun _ _ => ?_
    refine bind_ne_error (assertSome_ne_error nofun) fun _ _ => ?_
    exact bind_ne_error (ih _) fun _ _ => nofun

private theorem runScriptChecks_ne_overflow (P : Platform) (checks : List CScriptCheck) :
    runScriptChecks P checks ≠ .error .overflow := by
  induction checks with
  | nil => exact nofun
  | cons check rest ih =>
    rw [runScriptChecks]
    split_ifs
    · exact ih
    · exact nofun
    · exact nofun

/-- What the sums over the inputs of a transaction stay below. -/
theorem valueOf_le (valid : tx.Valid) (sound : view.SoundCoins) :
    view.valueOf tx.vin ≤ view.value := sound.sum_le_total valid.distinct

theorem checkInputs_ne_overflow (valid : tx.Valid) (sound : view.SoundCoins)
    (bound : view.value < 2 ^ 63) (P : Platform) (index : BlockMap) (fScriptChecks pvChecks : Bool)
    (flags : ℕ) : tx.checkInputs P index view fScriptChecks flags pvChecks ≠ .error .overflow := by
  unfold checkInputs
  by_cases coinbase : tx.isCoinBase
  · rw [if_pos coinbase]
    exact nofun
  rw [if_neg coinbase]
  have below := valueOf_le valid sound
  obtain ⟨nValueOut, valueOut, range⟩ := valid.valueOut
  refine bind_ne_error (rejectIf_ne_error nofun) fun _ unspent => ?_
  rw [rejectIf_eq_ok, not_not, haveInputs_iff coinbase] at unspent
  refine bind_ne_error (assertSome_ne_error nofun) fun _ _ => ?_
  refine bind_ne_error (checkInputValues_ne_overflow sound le_rfl unspent (by omega)) fun nValueIn summed => ?_
  have := checkInputValues_eq summed
  have := CCoinsViewCache.valueOf_nonneg sound tx.vin
  rw [valueOut, ok_bind]
  simp only [moneyRange, MAX_MONEY, COIN] at range
  refine rejectIf_bind_ne_error nofun ?_
  refine bind_ne_error (int64_ne_overflow ⟨by omega, by omega⟩) fun nTxFee fee => ?_
  rw [int64_eq_ok] at fee
  refine rejectIf_bind_ne_error nofun ?_
  refine bind_ne_error (int64_ne_overflow ⟨by omega, by omega⟩) fun nFees _ => ?_
  refine rejectIf_bind_ne_error nofun ?_
  split_ifs
  · exact bind_ne_error (scriptChecks_ne_overflow tx _ _ _) fun _ _ => nofun
  · refine bind_ne_error (scriptChecks_ne_overflow tx _ _ _) fun checks _ => ?_
    exact bind_ne_error (runScriptChecks_ne_overflow P checks) fun _ _ => nofun
  · exact nofun

private theorem spendInputs_ne_overflow (vin : List CTxIn) (view : CCoinsViewCache) :
    spendInputs view vin ≠ .error .overflow := by
  induction vin generalizing view with
  | nil => exact nofun
  | cons txin rest ih =>
    refine bind_ne_error (assertSome_ne_error nofun) fun _ _ => ?_
    refine bind_ne_error (assertSome_ne_error nofun) fun _ _ => ?_
    exact bind_ne_error (ih _) fun _ _ => nofun

theorem updateCoins_ne_overflow (tx : CTransaction) (view : CCoinsViewCache) (nHeight : ℕ)
    (txhash : Uint256) : tx.updateCoins view nHeight txhash ≠ .error .overflow := by
  refine bind_ne_error ?_ fun _ _ => nofun
  split_ifs
  · exact nofun
  · exact spendInputs_ne_overflow tx.vin view

theorem getP2SHSigOpCount_ne_overflow (tx : CTransaction) : tx.getP2SHSigOpCount view ≠ .error .overflow := by
  unfold getP2SHSigOpCount
  split_ifs
  · exact nofun
  · exact p2shSigOpLoop_ne_overflow 0 tx.vin

theorem getValueIn_ne_overflow (valid : tx.Valid) (sound : view.SoundCoins)
    (bound : view.value < 2 ^ 63) : tx.getValueIn view ≠ .error .overflow := by
  unfold getValueIn
  split_ifs
  · exact nofun
  · have := valueOf_le valid sound
    exact valueInLoop_ne_overflow sound le_rfl (by omega)

end CTransaction

end BitCrystal
