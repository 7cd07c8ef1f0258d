import BitCrystal.Model.Coins

/-! # Coin entries as finite partial maps

What an entry means is the map from output numbers to unspent outputs together with the metadata of
the transaction. Null outputs, trailing ones and whole pruned entries are representation. `output?`
and `unspent?` forget it; cleaning up, spending and restoring are characterized through them.
-/

namespace BitCrystal

/-- What an unpruned entry records about its transaction. -/
structure CoinMeta where
  fCoinBase : Bool := false
  nHeight : ℕ := 0
  nVersion : ℤ := 0
deriving DecidableEq, Repr

def CTxInUndo.metadata (undo : CTxInUndo) : CoinMeta := ⟨undo.fCoinBase, undo.nHeight, undo.nVersion⟩

namespace CCoins

variable (coins : CCoins) (n m : ℕ)

def metadata : CoinMeta := ⟨coins.fCoinBase, coins.nHeight, coins.nVersion⟩

/-- The unspent output with this number. -/
def output? : Option CTxOut := coins.vout[n]?.filter fun out => ¬ out.isNull

/-- The entry as a partial map; nothing for a pruned entry. -/
def unspent? : Option (CoinMeta × (ℕ → Option CTxOut)) :=
  if coins.isPruned then none else some (coins.metadata, coins.output?)

/-- No null output at the end. -/
def Trimmed : Prop := ∀ out ∈ coins.vout.getLast?, ¬ out.isNull

variable {coins n m}

theorem output?_eq_some {out : CTxOut} :
    coins.output? n = some out ↔ coins.vout[n]? = some out ∧ ¬ out.isNull := by
  simp [output?]

theorem isAvailable_iff : coins.isAvailable n ↔ ∃ out, coins.output? n = some out := by
  simp only [isAvailable, output?_eq_some]

theorem output?_eq_none : coins.output? n = none ↔ ¬ coins.isAvailable n := by
  rw [isAvailable_iff, Option.eq_none_iff_forall_ne_some]
  simp

theorem isPruned_iff : coins.isPruned ↔ ∀ n, coins.output? n = none := by
  constructor
  · intro pruned n
    rw [output?_eq_none]
    rintro ⟨out, found, notNull⟩
    exact notNull (pruned out (List.mem_of_getElem? found))
  · intro empty out member
    obtain ⟨n, found⟩ := List.getElem?_of_mem member
    by_contra notNull
    exact output?_eq_none.mp (empty n) ⟨out, found, notNull⟩

@[simp] theorem isPruned_default : (({} : CCoins)).isPruned := by simp [isPruned]

@[simp] theorem output?_nil {fCoinBase : Bool} {nHeight : ℕ} {nVersion : ℤ} :
    (⟨fCoinBase, [], nHeight, nVersion⟩ : CCoins).output? n = none := by simp [output?]

theorem trimmed_nil {fCoinBase : Bool} {nHeight : ℕ} {nVersion : ℤ} :
    (⟨fCoinBase, [], nHeight, nVersion⟩ : CCoins).Trimmed := by
  intro out last
  simp at last

theorem trimmed_default : (({} : CCoins)).Trimmed := trimmed_nil

theorem unspent?_eq_none : coins.unspent? = none ↔ coins.isPruned := by simp [unspent?]

theorem unspent?_eq_some {data : CoinMeta} {outputs : ℕ → Option CTxOut} :
    coins.unspent? = some (data, outputs) ↔
      ¬ coins.isPruned ∧ coins.metadata = data ∧ coins.output? = outputs := by
  simp only [unspent?]
  split_ifs with pruned <;> simp [pruned]

variable {other : CCoins} {txout : CTxOut}

/-- Two entries have one meaning when they agree on metadata and outputs. -/
theorem unspent?_congr (data : coins.metadata = other.metadata)
    (outputs : coins.output? = other.output?) : coins.unspent? = other.unspent? := by
  have pruned : coins.isPruned ↔ other.isPruned := by rw [isPruned_iff, isPruned_iff, outputs]
  simp only [unspent?, pruned, data, outputs]

/-- The meaning of an entry determines its outputs. -/
theorem output?_congr (same : coins.unspent? = other.unspent?) : coins.output? = other.output? := by
  by_cases pruned : coins.isPruned
  · have otherPruned : other.isPruned := by rwa [← unspent?_eq_none, ← same, unspent?_eq_none]
    funext n
    rw [isPruned_iff.mp pruned, isPruned_iff.mp otherPruned]
  · exact (unspent?_eq_some.mp (same.symm.trans (unspent?_eq_some.mpr ⟨pruned, rfl, rfl⟩))).2.2.symm

/-! ## Cleaning up -/

private theorem getElem?_dropped {l : List CTxOut} {out : CTxOut} (found : l[n]? = some out)
    (notNull : ¬ out.isNull) : (l.rdropWhile fun out => decide out.isNull)[n]? = some out := by
  induction l using List.reverseRecOn with
  | nil => simp at found
  | append_singleton l last ih =>
    by_cases null : last.isNull
    · rw [List.rdropWhile_concat_pos _ _ _ (by simpa using null)]
      apply ih
      rw [List.getElem?_append] at found
      split_ifs at found with inside
      · exact found
      · obtain rfl : out = last := List.mem_singleton.mp (List.mem_of_getElem? found)
        exact absurd null notNull
    · rwa [List.rdropWhile_concat_neg _ _ _ (by simpa using null)]

/-- Cleaning up loses no unspent output. -/
@[simp] theorem output?_cleanup : coins.cleanup.output? = coins.output? := by
  funext n
  apply Option.ext
  intro out
  simp only [output?_eq_some, cleanup]
  constructor
  · rintro ⟨found, notNull⟩
    obtain ⟨dropped, whole⟩ :=
      List.rdropWhile_prefix (fun out : CTxOut => decide out.isNull) coins.vout
    rw [← whole, List.getElem?_append_left (List.getElem?_eq_some_iff.mp found).1]
    exact ⟨found, notNull⟩
  · rintro ⟨found, notNull⟩
    exact ⟨getElem?_dropped found notNull, notNull⟩

theorem isPruned_cleanup : coins.cleanup.isPruned ↔ coins.isPruned := by
  simp only [isPruned_iff, output?_cleanup]

theorem vout_cleanup_eq_nil : coins.cleanup.vout = [] ↔ coins.isPruned := by
  simp [cleanup, List.rdropWhile_eq_nil_iff, isPruned]

theorem trimmed_cleanup : coins.cleanup.Trimmed := by
  intro out last
  have nonempty : coins.vout.rdropWhile (fun out => decide out.isNull) ≠ [] := by
    rintro nil
    simp [cleanup, nil] at last
  have notNull := List.rdropWhile_last_not (fun out => decide out.isNull) coins.vout nonempty
  simp only [cleanup, List.getLast?_eq_some_getLast nonempty, Option.mem_some_iff] at last
  simpa [last] using notNull

private theorem output?_set_null {found : CTxOut} (present : coins.vout[n]? = some found) :
    ({ coins with vout := coins.vout.set n .null } : CCoins).output? =
      Function.update coins.output? n none := by
  funext m
  by_cases same : m = n
  · subst same
    have bound := (List.getElem?_eq_some_iff.mp present).1
    simp [output?, bound]
  · simp [output?, same, List.getElem?_set_ne (Ne.symm same)]

/-- Everything `Spend` does: it removes one unspent output, and its undo information has the
metadata exactly when nothing is left. -/
theorem spend_spec {left : CCoins} {undo : CTxInUndo} (spent : coins.spend n = some (left, undo)) :
    coins.output? n = some undo.txout ∧ left.output? = Function.update coins.output? n none ∧
      left.metadata = coins.metadata ∧ left.Trimmed ∧
      undo.metadata = if left.isPruned then coins.metadata else {} := by
  unfold spend at spent
  split at spent
  · contradiction
  next txout present =>
  split at spent
  · contradiction
  next null =>
  dsimp only at spent
  have kept : (cleanup { coins with vout := coins.vout.set n .null }).output? =
      Function.update coins.output? n none := output?_cleanup.trans (output?_set_null present)
  split at spent
  next nothing =>
    obtain ⟨rfl, rfl⟩ := Prod.mk.inj (Option.some.inj spent)
    refine ⟨output?_eq_some.mpr ⟨present, null⟩, kept, rfl, trimmed_cleanup, ?_⟩
    rw [if_pos (isPruned_cleanup.mpr (vout_cleanup_eq_nil.mp nothing))]
    rfl
  next something =>
    obtain ⟨rfl, rfl⟩ := Prod.mk.inj (Option.some.inj spent)
    refine ⟨output?_eq_some.mpr ⟨present, null⟩, kept, rfl, trimmed_cleanup, ?_⟩
    rw [if_neg fun pruned => something (vout_cleanup_eq_nil.mpr (isPruned_cleanup.mp pruned))]
    rfl

/-- The list `vout.resize(n + 1)` followed by an assignment to the last place. -/
def putOutput (coins : CCoins) (n : ℕ) (txout : CTxOut) : CCoins :=
  { coins with vout := (coins.vout ++ List.replicate (n + 1 - coins.vout.length) CTxOut.null).set n txout }

@[simp] theorem metadata_putOutput : (coins.putOutput n txout).metadata = coins.metadata := rfl

/-- The other outputs stay as they are. -/
theorem output?_putOutput_of_ne {m : ℕ} (other : m ≠ n) : (coins.putOutput n txout).output? m = coins.output? m := by
  simp only [output?, putOutput, List.getElem?_set_ne (Ne.symm other), List.getElem?_append]
  split_ifs with inside
  · rfl
  · rw [List.getElem?_eq_none (not_lt.mp inside), List.getElem?_replicate]
    split_ifs <;> simp [Option.filter]

theorem output?_putOutput (notNull : ¬ txout.isNull) :
    (coins.putOutput n txout).output? = Function.update coins.output? n (some txout) := by
  funext m
  by_cases same : m = n
  · subst same
    have bound : m < (coins.vout ++ List.replicate (m + 1 - coins.vout.length) CTxOut.null).length := by
      simp only [List.length_append, List.length_replicate]
      omega
    simp [output?, putOutput, List.getElem?_set_self bound, notNull]
  · rw [output?_putOutput_of_ne same, Function.update_of_ne same]

theorem trimmed_putOutput (trimmed : coins.Trimmed) (notNull : ¬ txout.isNull) :
    (coins.putOutput n txout).Trimmed := by
  intro out last
  rw [Option.mem_def, List.getLast?_eq_getElem?] at last
  have length : (coins.putOutput n txout).vout.length = max coins.vout.length (n + 1) := by
    simp only [putOutput, List.length_set, List.length_append, List.length_replicate]
    omega
  rw [length] at last
  by_cases inside : n + 1 < coins.vout.length
  · have place : max coins.vout.length (n + 1) - 1 = coins.vout.length - 1 := by omega
    rw [place] at last
    have apart : n ≠ coins.vout.length - 1 := by omega
    simp only [putOutput, List.getElem?_set_ne apart] at last
    rw [List.getElem?_append_left (by omega), ← List.getLast?_eq_getElem?] at last
    exact trimmed out last
  · have place : max coins.vout.length (n + 1) - 1 = n := by omega
    rw [place] at last
    have bound : n < (coins.vout ++ List.replicate (n + 1 - coins.vout.length) CTxOut.null).length := by
      simp only [List.length_append, List.length_replicate]
      omega
    simp only [putOutput, List.getElem?_set_self bound, Option.some.injEq] at last
    rwa [← last]

/-- A trimmed entry is determined by its meaning when the other one has no spent output. -/
theorem vout_eq_of_output? (trimmed : coins.Trimmed)
    (full : ∀ out ∈ other.vout, ¬ out.isNull) (outputs : coins.output? = other.output?) :
    coins.vout = other.vout := by
  have covered (k : ℕ) (bound : k < other.vout.length) : coins.vout[k]? = other.vout[k]? := by
    have there : other.output? k = some other.vout[k] :=
      output?_eq_some.mpr ⟨List.getElem?_eq_getElem bound, full _ (List.getElem_mem bound)⟩
    rw [← outputs] at there
    rw [(output?_eq_some.mp there).1, List.getElem?_eq_getElem bound]
  have noLonger : coins.vout.length ≤ other.vout.length := by
    by_contra longer
    have nonempty : coins.vout ≠ [] := by
      rintro nil
      simp [nil] at longer
    have last := List.getLast?_eq_some_getLast nonempty
    have notNull := trimmed _ last
    rw [List.getLast?_eq_getElem?] at last
    have there : coins.output? (coins.vout.length - 1) = some (coins.vout.getLast nonempty) :=
      output?_eq_some.mpr ⟨last, notNull⟩
    rw [outputs] at there
    have := (List.getElem?_eq_some_iff.mp (output?_eq_some.mp there).1).1
    omega
  apply List.ext_getElem?
  intro k
  by_cases bound : k < other.vout.length
  · exact covered k bound
  · rw [List.getElem?_eq_none (by omega), List.getElem?_eq_none (by omega)]

theorem ext_metadata (data : coins.metadata = other.metadata) (vout : coins.vout = other.vout) : coins = other := by
  cases coins
  cases other
  simp_all [metadata]

/-- The entry of a transaction whose outputs are all there is recognized by its meaning. -/
theorem eq_iff_unspent? (trimmed : coins.Trimmed) (nonempty : other.vout ≠ [])
    (full : ∀ out ∈ other.vout, ¬ out.isNull) : coins = other ↔ coins.unspent? = other.unspent? := by
  constructor
  · rintro rfl
    rfl
  · intro meaning
    have unpruned : ¬ other.isPruned := by
      obtain ⟨out, member⟩ := List.exists_mem_of_ne_nil _ nonempty
      exact fun pruned => full out member (pruned out member)
    obtain ⟨-, data, outputs⟩ := unspent?_eq_some.mp
      (meaning.trans (unspent?_eq_some.mpr ⟨unpruned, rfl, rfl⟩))
    exact ext_metadata data (vout_eq_of_output? trimmed full outputs)

end CCoins

end BitCrystal
