import BitCrystal.Model.Coins

/-! # A stack of caches is one map

Whatever is read, written and flushed, the top cache answers as a single map with the same writes. A
flush without a best block overwrites the one of the cache below, though; the condition on a flush
says when that makes no difference.
-/

namespace BitCrystal.CoinStack

variable {base : CCoinsView} {levels lower : List CacheLevel} {level : CacheLevel} {stack : CoinStack}

/-- What the top of some caches answers. -/
def answersOf (base : CCoinsView) : List CacheLevel → CCoinsView
  | [] => base
  | level :: lower => (level.above (answersOf base lower)).answers

/-- What the top cache answers. -/
def answers (stack : CoinStack) : CCoinsView := answersOf stack.base stack.caches

/-- The stack below the first caches. -/
def below (i : ℕ) (stack : CoinStack) : CoinStack := ⟨stack.caches.drop i, stack.base⟩

theorem answers_update (txid : Uint256) (coins : CCoins) :
    (CacheLevel.above { level with cacheCoins := Function.update level.cacheCoins txid (some coins) } base).answers =
      { (level.above base).answers with
        getCoins := Function.update (level.above base).answers.getCoins txid (some coins) } := by
  refine congrArg (fun getCoins => CCoinsView.mk getCoins _) (funext fun other => ?_)
  simp only [CacheLevel.above, CCoinsViewCache.answers, CCoinsViewCache.getCoins, Function.update_apply]
  split <;> rfl

theorem answersOf_cons (level : CacheLevel) (lower : List CacheLevel) :
    answersOf base (level :: lower) = (level.above (answersOf base lower)).answers := rfl

theorem fetchCoins_spec (base : CCoinsView) (txid : Uint256) (levels : List CacheLevel) :
    (fetchCoins base txid levels).1 = (answersOf base levels).getCoins txid ∧
      answersOf base (fetchCoins base txid levels).2 = answersOf base levels := by
  induction levels with
  | nil => exact ⟨rfl, rfl⟩
  | cons level lower ih =>
    have own : (answersOf base (level :: lower)).getCoins txid =
      (level.cacheCoins txid).or ((answersOf base lower).getCoins txid) := rfl
    rcases result : fetchCoins base txid lower with ⟨found, lower'⟩
    rw [result] at ih
    obtain ⟨same, kept⟩ := ih
    rw [fetchCoins, own, ← same, result]
    cases cached : level.cacheCoins txid with
    | some coins => exact ⟨rfl, rfl⟩
    | none =>
      cases found with
      | none => exact ⟨rfl, by rw [answersOf_cons, kept, answersOf_cons]⟩
      | some coins =>
        refine ⟨rfl, ?_⟩
        rw [answersOf_cons, kept, answers_update, ← answersOf_cons, Function.update_eq_self_iff.mpr]
        rw [own, cached, ← same]
        rfl

theorem fetchBestBlock_spec (base : CCoinsView) (levels : List CacheLevel) :
    (fetchBestBlock base levels).1 = (answersOf base levels).getBestBlock ∧
      answersOf base (fetchBestBlock base levels).2 = answersOf base levels := by
  induction levels with
  | nil => exact ⟨rfl, rfl⟩
  | cons level lower ih =>
    obtain ⟨same, kept⟩ := ih
    have own : (answersOf base (level :: lower)).getBestBlock =
      level.pindexTip.or (answersOf base lower).getBestBlock := rfl
    rw [fetchBestBlock, own]
    cases tip : level.pindexTip with
    | some pindex => exact ⟨rfl, rfl⟩
    | none =>
      refine ⟨same, ?_⟩
      rw [answersOf_cons, kept, same, answersOf_cons]
      apply congrArg (CCoinsView.mk _)
      simp [CacheLevel.above, CCoinsViewCache.getBestBlock, tip]

/-- A flush of this cache does not take a best block away from the one below. -/
def KeepsBest (stack : CoinStack) (i : ℕ) : Prop :=
  ∀ level next, stack.caches[i]? = some level → stack.caches[i + 1]? = some next →
    level.pindexTip ≠ none ∨ next.pindexTip = none ∨ next.pindexTip = (stack.below (i + 2)).answers.getBestBlock

theorem getCoins_batchWrite (stack : CoinStack) (level : CacheLevel) :
    (batchWrite level.cacheCoins level.pindexTip stack).answers.getCoins = (level.above stack.answers).getCoins := by
  obtain ⟨levels, base⟩ := stack
  cases levels with
  | nil => rfl
  | cons next rest =>
    funext txid
    exact Option.or_assoc

private theorem or_eq_or_iff {own next rest : Option BlockPtr} :
    own.or rest = own.or (next.or rest) ↔ own ≠ none ∨ next = none ∨ next = rest := by
  cases own with
  | some => simp
  | none => cases next <;> simp [eq_comm]

theorem getBestBlock_batchWrite (level : CacheLevel) (lower : List CacheLevel) (base : CCoinsView) :
    (batchWrite level.cacheCoins level.pindexTip ⟨lower, base⟩).answers.getBestBlock =
        (level.above (answersOf base lower)).getBestBlock ↔ KeepsBest ⟨level :: lower, base⟩ 0 := by
  cases lower with
  | nil => exact ⟨fun _ _ _ _ => nofun, fun _ => rfl⟩
  | cons next rest =>
    change level.pindexTip.or (answersOf base rest).getBestBlock =
      level.pindexTip.or (next.pindexTip.or (answersOf base rest).getBestBlock) ↔ _
    rw [or_eq_or_iff]
    constructor
    · rintro keeps _ _ ⟨⟩ ⟨⟩
      exact keeps
    · exact fun keeps => keeps level next rfl rfl

private theorem answers_eq_iff {view other : CCoinsView} (coins : view.getCoins = other.getCoins) :
    view = other ↔ view.getBestBlock = other.getBestBlock := by
  obtain ⟨getCoins, best⟩ := view
  obtain ⟨getCoins', best'⟩ := other
  cases coins
  simp

/-- The level below gives the answers of the flushed cache exactly if it keeps its best block. -/
theorem flush_below_iff {i : ℕ} {stack : CoinStack} (inside : i < stack.caches.length) :
    ((stack.flush i).below (i + 1)).answers = (stack.below i).answers ↔ KeepsBest stack i := by
  induction i generalizing stack with
  | zero =>
    obtain ⟨_ | ⟨level, lower⟩, base⟩ := stack
    · contradiction
    · rw [← getBestBlock_batchWrite]
      exact answers_eq_iff (getCoins_batchWrite ⟨lower, base⟩ level)
  | succ i ih =>
    obtain ⟨_ | ⟨level, lower⟩, base⟩ := stack
    · contradiction
    · exact @ih ⟨lower, base⟩ (Nat.lt_of_succ_lt_succ inside)

theorem answers_push (level : CacheLevel) (stack : CoinStack) :
    (push level stack).answers = (level.above stack.answers).answers := rfl

/-- A flush leaves the answers of the top cache as they were. -/
theorem answers_flush {i : ℕ} {stack : CoinStack} (keeps : KeepsBest stack i) : (stack.flush i).answers = stack.answers := by
  induction i generalizing stack with
  | zero =>
    obtain ⟨_ | ⟨level, lower⟩, base⟩ := stack
    · rfl
    · have same : (batchWrite level.cacheCoins level.pindexTip ⟨lower, base⟩).answers = _ :=
        (flush_below_iff (Nat.zero_lt_succ _)).mpr keeps
      rw [flush, answers_push, same]
      have coins : (CacheLevel.above ⟨fun _ => none, level.pindexTip⟩ (level.above (answersOf base lower)).answers).getCoins =
        (level.above (answersOf base lower)).getCoins := rfl
      apply (answers_eq_iff coins).mpr
      change level.pindexTip.or (level.pindexTip.or _) = level.pindexTip.or _
      rw [← Option.or_assoc, Option.or_self]
      rfl
  | succ i ih =>
    obtain ⟨_ | ⟨level, lower⟩, base⟩ := stack
    · rfl
    · have same : (flush i ⟨lower, base⟩).answers = _ := ih keeps
      rw [flush, answers_push, same]
      rfl

/-- The condition under which an operation does what it does to a map. -/
def Meets (stack : CoinStack) : Op → Prop
  | .setBestBlock pindex => pindex ≠ none
  | .flush i => KeepsBest stack i
  | _ => True

/-- The stacks reached from the first one by operations that meet the condition, and the single map
after the same operations. -/
inductive Run (start : CoinStack) : CoinStack → CCoinsView → Prop
  | start : Run start start start.answers
  | step {stack : CoinStack} {view : CCoinsView} (op : Op) (before : Run start stack view) (meets : Meets stack op) :
      Run start (stack.step op).2 (view.step op).2

theorem length_fetchCoins (base : CCoinsView) (txid : Uint256) (levels : List CacheLevel) :
    (fetchCoins base txid levels).2.length = levels.length := by
  induction levels with
  | nil => rfl
  | cons level lower ih =>
    rw [fetchCoins]
    split
    · rfl
    · split
      all_goals
        next result =>
          rw [result] at ih
          exact congrArg (· + 1) ih

theorem length_fetchBestBlock (base : CCoinsView) (levels : List CacheLevel) :
    (fetchBestBlock base levels).2.length = levels.length := by
  induction levels with
  | nil => rfl
  | cons level lower ih =>
    rw [fetchBestBlock]
    split
    · rfl
    · exact congrArg (· + 1) ih

theorem length_flush (i : ℕ) (stack : CoinStack) : (stack.flush i).caches.length = stack.caches.length := by
  induction i generalizing stack with
  | zero =>
    obtain ⟨_ | ⟨level, lower⟩, base⟩ := stack
    · rfl
    · cases lower <;> rfl
  | succ i ih =>
    obtain ⟨_ | ⟨level, lower⟩, base⟩ := stack
    · rfl
    · exact congrArg (· + 1) (ih ⟨lower, base⟩)

theorem answers_writeTop (nonempty : levels ≠ []) (txid : Uint256) (coins : CCoins) :
    (onTop (fun level => { level with cacheCoins := Function.update level.cacheCoins txid (.some coins) })
      ⟨levels, base⟩).answers =
      { answersOf base levels with getCoins := Function.update (answersOf base levels).getCoins txid (.some coins) } := by
  cases levels with
  | nil => contradiction
  | cons level lower => exact answers_update txid coins

theorem answers_step {stack : CoinStack} (nonempty : stack.caches ≠ []) {op : Op} (meets : Meets stack op) :
    (stack.step op).1 = (stack.answers.step op).1 ∧ (stack.step op).2.answers = (stack.answers.step op).2 := by
  obtain ⟨_ | ⟨level, lower⟩, base⟩ := stack
  · contradiction
  cases op with
  | getCoins txid =>
    obtain ⟨found, kept⟩ := fetchCoins_spec base txid (level :: lower)
    exact ⟨congrArg Answer.coins found, kept⟩
  | modifyCoins txid change =>
    obtain ⟨found, kept⟩ := fetchCoins_spec base txid (level :: lower)
    have length := length_fetchCoins base txid (level :: lower)
    rcases result : fetchCoins base txid (level :: lower) with ⟨_ | coins, levels⟩
    all_goals rw [result] at found kept length
    · simp only [step, CCoinsView.step, answers, result, ← found]
      exact ⟨trivial, kept⟩
    · simp only [step, CCoinsView.step, answers, result, ← found]
      refine ⟨trivial, ?_⟩
      rw [← kept]
      exact answers_writeTop (List.ne_nil_of_length_eq_add_one length) txid (change coins)
  | haveCoins txid =>
    obtain ⟨found, kept⟩ := fetchCoins_spec base txid (level :: lower)
    exact ⟨congrArg (fun found => Answer.have (Option.isSome found)) found, kept⟩
  | setCoins txid coins => exact ⟨rfl, answers_update txid coins⟩
  | getBestBlock =>
    obtain ⟨found, kept⟩ := fetchBestBlock_spec base (level :: lower)
    exact ⟨congrArg Answer.bestBlock found, kept⟩
  | setBestBlock pindex =>
    obtain ⟨pointer, rfl⟩ := Option.ne_none_iff_exists'.mp meets
    exact ⟨rfl, rfl⟩
  | flush i => exact ⟨rfl, answers_flush meets⟩

theorem length_step (stack : CoinStack) (op : Op) : (stack.step op).2.caches.length = stack.caches.length := by
  cases op with
  | getCoins txid => exact length_fetchCoins ..
  | modifyCoins txid change =>
    have length := length_fetchCoins stack.base txid stack.caches
    simp only [step]
    split
    all_goals
      next result =>
        rw [result] at length
        first | exact length | exact (List.length_modifyHead ..).trans length
  | haveCoins txid => exact length_fetchCoins ..
  | setCoins txid coins => exact List.length_modifyHead ..
  | getBestBlock => exact length_fetchBestBlock ..
  | setBestBlock pindex => exact List.length_modifyHead ..
  | flush i => exact length_flush i stack

/-- After every run the top cache answers as a single map with the same writes. A flush of any cache
makes the level below give its answers exactly if it keeps the best block of that level, and then
leaves those of the top cache. -/
theorem refines_of_run {start stack : CoinStack} {view : CCoinsView} (nonempty : start.caches ≠ [])
    (run : Run start stack view) :
    stack.answers = view ∧ (∀ op, Meets stack op → (stack.step op).1 = (view.step op).1) ∧
      (∀ i, KeepsBest stack i → (stack.flush i).answers = stack.answers) ∧
      ∀ i < stack.caches.length, ((stack.flush i).below (i + 1)).answers = (stack.below i).answers ↔ KeepsBest stack i := by
  have refines : stack.answers = view ∧ stack.caches ≠ [] := by
    induction run with
    | start => exact ⟨rfl, nonempty⟩
    | @step stack view op before meets ih =>
      obtain ⟨same, nonempty⟩ := ih
      refine ⟨?_, ?_⟩
      · rw [(answers_step nonempty meets).2, same]
      · rw [← List.length_pos_iff, length_step, List.length_pos_iff]
        exact nonempty
  obtain ⟨rfl, nonempty⟩ := refines
  exact ⟨rfl, fun op meets => (answers_step nonempty meets).1, fun i => answers_flush, fun i => flush_below_iff⟩

/-- An empty cache over one that is at block 5, over a base at block 3. -/
def ahead : CoinStack := ⟨[{}, { pindexTip := some 5 }], ⟨fun _ => none, some 3⟩⟩

/-- The best block is read before the flush. -/
theorem refines_of_run_read :
    let stack := ((ahead.step .getBestBlock).2.step (.flush 0)).2
    stack.answers.getBestBlock = some 5 := by
  have read : Run ahead (ahead.step .getBestBlock).2 ahead.answers := .step .getBestBlock .start trivial
  have keeps : KeepsBest (ahead.step .getBestBlock).2 0 := by
    rintro _ _ ⟨⟩ ⟨⟩
    exact .inl (by decide)
  have same := (refines_of_run (by decide) (.step (.flush 0) read keeps)).1
  exact congrArg CCoinsView.getBestBlock same

/-- Without that the flush takes the cache below back to the block of the base. -/
theorem not_refines_flush :
    ahead.answers.getBestBlock = some 5 ∧ (ahead.flush 0).answers.getBestBlock = some 3 ∧
      ((ahead.flush 0).below 1).answers.getBestBlock = some 3 := by
  decide

end BitCrystal.CoinStack
