import BitCrystal.Model.TestNet
import BitCrystal.Proofs.JoinedSignatures

/-! # Merging the signatures of variants

`signrawtransaction` keeps what is needed of the signatures for a multisig script, if it looks behind the end of no
variant, and if the signatures that come first are ones that verification accepts. For an output that is paid to a
hash the first script has to have the right redeem script.
-/

namespace BitCrystal

open txnouttype Check

namespace SigningJob

variable {node : SigningNode} {job : SigningJob} {i : ℕ} {prevPubKey : CScript}
  {spent : SpentMultisig node.crypto prevPubKey}

section

variable (node : SigningNode) (job : SigningJob) (i : ℕ) {prevPubKey : CScript}
  (spent : SpentMultisig node.crypto prevPubKey)

/-- What the variants carry for an input. -/
def present : List valtype := (job.scriptsAt i).flatMap fun script => spent.carried (node.stackOf script)

/-- All entries for an input, those of the script of the keys first. -/
def entries (prevPubKey : CScript) : List valtype :=
  (job.ownScript node i prevPubKey :: job.scriptsAt i).flatMap node.stackOf

/-- The first of the scripts with something on top, which can be pushed again. -/
structure LedBy (prevPubKey spk : CScript) (before : List CScript) (lead : CScript) (after : List CScript) : Prop where
  split : job.ownScript node i prevPubKey :: job.scriptsAt i = before ++ lead :: after
  bare : ∀ script ∈ before, Bare (node.stackOf script) ∧ Fits (node.stackOf script)
  top : (node.stackOf lead).getLast? = some spk
  fits : Fits (node.stackOf lead)

/-- No variant carries an accepted signature, or the script that leads has the redeem script and there are no others, or
the accepted signatures of all of them are in front. -/
def JoinsHashed : Prop :=
  (∀ sig ∈ job.present node i spent, ∀ key ∈ spent.keys, ¬ (context node job.tx i).Accepts spent.code sig key) ∨
    ∃ before lead after, job.LedBy node i prevPubKey spent.code before lead after ∧
      ((∀ script ∈ after, Bare (node.stackOf script)) ∨
        spent.Regular (context node job.tx i) ((node.stackOf lead).dropLast ++ under node after) ∧
          spent.InFront (context node job.tx i) ((node.stackOf lead).dropLast ++ under node after) (job.present node i spent))

/-- The signatures for an input can be joined. -/
def Joins : Prop :=
  if spent.hashed then job.JoinsHashed node i spent
  else spent.Regular (context node job.tx i) (job.entries node i prevPubKey) ∧
    spent.InFront (context node job.tx i) (job.entries node i prevPubKey) (job.present node i spent)

/-- The signatures that are joined are regular. Under another redeem script, which is not itself for a hash, everything
can be pushed again. -/
def OrderlyHashed : Prop :=
  (∀ script ∈ job.scriptsAt i, Bare (node.stackOf script)) ∨
    ∃ spk before lead after, spk ≠ [] ∧ job.LedBy node i prevPubKey spk before lead after ∧
      if spk = spent.code then
        spent.Regular (context node job.tx i) ((node.stackOf lead).dropLast ++ under node after)
      else (solver spk).typeRet ≠ TX_SCRIPTHASH ∧
        ∀ script ∈ after, Fits ((node.stackOf script).dropLast ++ [spk])

/-- What can be joined is regular, so that it is known which entries are kept: a signature passes for one key, no entry
is longer than the interpreter allows, and only one script hash is in the way. -/
def Orderly : Prop :=
  if spent.hashed then job.OrderlyHashed node i spent
  else spent.Regular (context node job.tx i) (job.entries node i prevPubKey)

end

section

variable {before after : List CScript} {lead : CScript}

theorem carried_of_top (hashed : spent.hashed = true) {body stack : List valtype} (top : stack = body ++ [spent.code]) :
    spent.carried stack = body := by
  rw [SpentMultisig.carried, if_pos hashed, top, List.getLast?_concat, if_pos rfl, List.dropLast_concat]

variable {spk : CScript}

/-- The scripts before the one that leads play no role. -/
theorem LedBy.exists_start (led : job.LedBy node i prevPubKey spk before lead after) (hashed : spent.hashed = true) :
    ∃ start, node.stackOf start = node.stackOf lead ∧
      job.combine node i prevPubKey (job.ownScript node i prevPubKey) (job.scriptsAt i) =
        job.combine node i prevPubKey start after := by
  have split := led.split
  cases before with
  | nil =>
    obtain ⟨own, scripts⟩ := List.cons.inj split
    exact ⟨_, congrArg node.stackOf own, by rw [scripts]⟩
  | cons own before =>
    obtain ⟨here, scripts⟩ := List.cons.inj (split.trans (List.cons_append ..))
    obtain ⟨bare, others⟩ := List.forall_mem_cons.mp led.bare
    rw [← here] at bare
    obtain ⟨result, combined, still⟩ := combine_bare hashed bare.1 others
    refine ⟨CScript.pushAll (node.stackOf lead), led.fits.stackOf_pushAll node, ?_⟩
    rw [combine] at combined ⊢
    rw [scripts, List.foldlM_append, combined, ok_bind, List.foldlM_cons, combineSignatures_bare hashed still]
    rfl

/-- The body of the script that leads. -/
theorem LedBy.body (led : job.LedBy node i prevPubKey spk before lead after) :
    node.stackOf lead = (node.stackOf lead).dropLast ++ [spk] :=
  (List.dropLast_append_getLast? _ led.top).symm

section

variable (led : job.LedBy node i prevPubKey spent.code before lead after) (hashed : spent.hashed = true) {result : CScript}
  (combined : job.combine node i prevPubKey (job.ownScript node i prevPubKey) (job.scriptsAt i) = .ok result)
include led hashed combined

theorem LedBy.carried_keeps (bare : ∀ script ∈ after, Bare (node.stackOf script)) :
    spent.carried (node.stackOf result) = (node.stackOf lead).dropLast := by
  obtain ⟨start, same, from_start⟩ := led.exists_start hashed
  have fits := led.fits
  rw [led.body] at fits
  obtain ⟨other, kept, stack⟩ := @combine_keeps node job i prevPubKey spent start hashed _ after (same.trans led.body)
    fits bare
  rw [from_start, kept] at combined
  obtain rfl := Except.ok.inj combined
  exact carried_of_top hashed stack

theorem LedBy.carried_joins (others : ¬ ∀ script ∈ after, Bare (node.stackOf script))
    (regular : spent.Regular (context node job.tx i) ((node.stackOf lead).dropLast ++ under node after)) :
    spent.carried (node.stackOf result) =
      spent.joined (context node job.tx i) ((node.stackOf lead).dropLast ++ under node after) := by
  obtain ⟨start, same, from_start⟩ := led.exists_start hashed
  have fits := led.fits
  rw [led.body] at fits
  obtain ⟨other, kept, stack⟩ := @combine_joins node job i prevPubKey spent start hashed _ after (same.trans led.body)
    fits others regular
  rw [from_start, kept] at combined
  obtain rfl := Except.ok.inj combined
  exact carried_of_top hashed stack

/-- When only the script that leads has something on top, it stays. -/
theorem LedBy.kept (bare : ∀ script ∈ after, Bare (node.stackOf script)) :
    spent.Kept (context node job.tx i) (job.present node i spent) (spent.carried (node.stackOf result)) := by
  rw [led.carried_keeps hashed combined bare]
  intro sig member key listed accepted
  refine .inr ⟨sig, ?_, accepted⟩
  obtain ⟨script, there, carries⟩ := List.mem_flatMap.mp member
  rw [SpentMultisig.carried, if_pos hashed] at carries
  split_ifs at carries with tops
  · have notBare : ¬ Bare (node.stackOf script) := by
      rw [(List.dropLast_append_getLast? _ tops).symm]
      exact getLastD_concat_ne_nil _ spent
    have placed : script ∈ before ++ lead :: after := led.split ▸ List.mem_cons_of_mem _ there
    rcases List.mem_append.mp placed with placed | placed
    · exact absurd (led.bare script placed).1 notBare
    · rcases List.mem_cons.mp placed with rfl | placed
      · exact carries
      · exact absurd (bare script placed) notBare
  · cases carries

end

/-- Under another redeem script nothing is carried. -/
theorem LedBy.carried_other (led : job.LedBy node i prevPubKey spk before lead after) (pushed : spk ≠ [])
    (hashed : spent.hashed = true) (other : spk ≠ spent.code) (single : (solver spk).typeRet ≠ TX_SCRIPTHASH)
    (fit : ∀ script ∈ after, Fits ((node.stackOf script).dropLast ++ [spk])) {result : CScript}
    (combined : job.combine node i prevPubKey (job.ownScript node i prevPubKey) (job.scriptsAt i) = .ok result) :
    spent.carried (node.stackOf result) = [] := by
  obtain ⟨start, same, from_start⟩ := led.exists_start hashed
  have fits := led.fits
  rw [led.body] at fits
  obtain ⟨final, left, kept, stack⟩ := @combine_topped node job i prevPubKey spent start hashed _ spk after pushed single
    (same.trans led.body) fits fit
  rw [from_start, kept] at combined
  obtain rfl := Except.ok.inj combined
  rw [SpentMultisig.carried, if_pos hashed, stack, List.getLast?_concat, if_neg fun same => other (Option.some.inj same)]

end

/-- Without a hash the merged script carries the joined entries. -/
theorem carried_plain (plain : spent.hashed = false) (nonempty : job.scriptsAt i ≠ [])
    (regular : spent.Regular (context node job.tx i) (job.entries node i prevPubKey)) {result : CScript}
    (combined : job.combine node i prevPubKey (job.ownScript node i prevPubKey) (job.scriptsAt i) = .ok result) :
    spent.carried (node.stackOf result) = spent.joined (context node job.tx i) (job.entries node i prevPubKey) := by
  obtain ⟨script, rest, scripts⟩ := List.exists_cons_of_ne_nil nonempty
  rw [entries, List.flatMap_cons, scripts] at regular ⊢
  rw [scripts, combine_plain plain regular] at combined
  obtain rfl := Except.ok.inj combined
  have fits := Fits.of_few regular.short_joined (SpentMultisig.length_joined_le.trans (Nat.le_succ 17))
  rw [fits.stackOf_pushAll, SpentMultisig.carried, if_neg (by rw [plain]; exact Bool.false_ne_true)]

section

variable (nonempty : job.scriptsAt i ≠ []) {result : CScript}
  (combined : job.combine node i prevPubKey (job.ownScript node i prevPubKey) (job.scriptsAt i) = .ok result)
include nonempty combined

/-- Joined signatures are kept. -/
theorem Joins.kept (joins : job.Joins node i spent) :
    spent.Kept (context node job.tx i) (job.present node i spent) (spent.carried (node.stackOf result)) := by
  unfold Joins at joins
  split_ifs at joins with hashed
  · rcases joins with refused | ⟨before, lead, after, led, joins⟩
    · exact fun sig member key listed accepted => absurd accepted (refused sig member key listed)
    · by_cases bare : ∀ script ∈ after, Bare (node.stackOf script)
      · exact led.kept hashed combined bare
      · obtain ⟨regular, front⟩ := joins.resolve_left bare
        rw [led.carried_joins hashed combined bare regular]
        exact front.kept
  · rw [carried_plain (Bool.eq_false_iff.mpr hashed) nonempty joins.1 combined]
    exact joins.2.kept

/-- In an orderly call nothing else is kept. -/
theorem Orderly.joins (orderly : job.Orderly node i spent)
    (kept : spent.Kept (context node job.tx i) (job.present node i spent) (spent.carried (node.stackOf result))) :
    job.Joins node i spent := by
  unfold Orderly at orderly
  unfold Joins
  split_ifs at orderly ⊢ with hashed
  · rcases orderly with allBare | ⟨spk, before, lead, after, pushed, led, orderly⟩
    · refine .inl fun sig member => ?_
      obtain ⟨script, there, carries⟩ := List.mem_flatMap.mp member
      rw [SpentMultisig.carried, if_pos hashed] at carries
      split_ifs at carries with tops
      · have bare := allBare script there
        rw [(List.dropLast_append_getLast? _ tops).symm] at bare
        exact absurd bare (getLastD_concat_ne_nil _ spent)
      · cases carries
    · split_ifs at orderly with same
      · subst same
        refine .inr ⟨before, lead, after, led, or_iff_not_imp_left.mpr fun others => ⟨orderly, ?_⟩⟩
        rw [led.carried_joins hashed combined others orderly] at kept
        exact kept.inFront orderly
      · rw [led.carried_other pushed hashed same orderly.1 orderly.2 combined] at kept
        refine .inl fun sig member key listed accepted => ?_
        obtain ⟨-, pos, -⟩ := spent.solution
        rcases kept sig member key listed accepted with ⟨sigs, sublist, size, -⟩ | ⟨other, there, -⟩
        · rw [List.sublist_nil.mp sublist] at size
          exact absurd size pos.ne
        · cases there
  · rw [carried_plain (Bool.eq_false_iff.mpr hashed) nonempty orderly combined] at kept
    exact ⟨orderly, kept.inFront orderly⟩

end

end SigningJob

/-! ## The call -/

namespace SigningNode

variable (node : SigningNode) (request : SignRequest)

variable {node request}

variable {job : SigningJob}

end SigningNode

namespace TestNet

end TestNet

end BitCrystal
