import BitCrystal.Machine.Choice
import BitCrystal.Proofs.Multisig

/-! # Merging signatures

`CombineMultisig` sorts the signatures and gives every key the first one that verifies for it. When a
signature verifies for one key only, this is a choice, and the merged list is what it selects for the
keys.
-/

namespace BitCrystal

open CScript ScriptOp Metered

theorem valtypeLt_irrefl (vch : valtype) : valtypeLt vch vch = false := by
  induction vch with
  | nil => rfl
  | cons byte vch ih => simp [valtypeLt, ih, UInt8.lt_irrefl]

theorem valtypeLt_trans {first middle last : valtype} (left : valtypeLt first middle = true)
    (right : valtypeLt middle last = true) : valtypeLt first last = true := by
  induction first generalizing middle last with
  | nil =>
    cases last with
    | nil => cases middle <;> cases right
    | cons byte last => rfl
  | cons a first ih =>
    cases middle with
    | nil => cases left
    | cons b middle =>
      cases last with
      | nil => cases right
      | cons c last =>
        simp only [valtypeLt, Bool.or_eq_true, Bool.and_eq_true, decide_eq_true_eq] at left right ⊢
        rcases left with below | ⟨rfl, left⟩
        · rcases right with above | ⟨rfl, -⟩
          · exact .inl (UInt8.lt_trans below above)
          · exact .inl below
        · rcases right with above | ⟨rfl, right⟩
          · exact .inl above
          · exact .inr ⟨rfl, ih left right⟩

theorem valtypeLt_of_not {first last : valtype} (apart : first ≠ last) (not : valtypeLt first last = false) :
    valtypeLt last first = true := by
  induction first generalizing last with
  | nil =>
    cases last with
    | nil => exact absurd rfl apart
    | cons byte last => cases not
  | cons a first ih =>
    cases last with
    | nil => rfl
    | cons b last =>
      simp only [valtypeLt, Bool.or_eq_false_iff, Bool.and_eq_false_iff, decide_eq_false_iff_not, Bool.or_eq_true,
        Bool.and_eq_true, decide_eq_true_eq] at not ⊢
      obtain ⟨notBelow, rest⟩ := not
      rcases eq_or_ne a b with rfl | different
      · have tails : first ≠ last := fun same => apart (same ▸ rfl)
        exact .inr ⟨rfl, ih tails (rest.resolve_left (not_not.mpr rfl))⟩
      · exact .inl (UInt8.lt_of_le_of_ne (UInt8.not_lt.mp notBelow) different.symm)

/-- The signatures of a set in its order. -/
def allSigs (offered : List valtype) : List valtype :=
  (offered.filter (· ≠ [])).foldl (fun allsigs sig => insertSig sig allsigs) []

variable {sig : valtype} {allsigs : List valtype} {p : valtype → Bool} {pubkeys : List valtype} {key : valtype}
  {required : ℕ} {keys vSolutions : List valtype} {rest : CScript} {rounds : ℕ}

theorem mem_insertSig {other : valtype} : other ∈ insertSig sig allsigs ↔ other = sig ∨ other ∈ allsigs := by
  induction allsigs with
  | nil => simp [insertSig]
  | cons head allsigs ih =>
    rw [insertSig]
    split_ifs with same before
    · subst same
      simp
    · simp
    · rw [List.mem_cons, ih, List.mem_cons]
      tauto

theorem pairwise_insertSig (sorted : allsigs.Pairwise fun a b => valtypeLt a b = true) :
    (insertSig sig allsigs).Pairwise fun a b => valtypeLt a b = true := by
  induction allsigs with
  | nil => exact List.pairwise_singleton _ _
  | cons head allsigs ih =>
    obtain ⟨first, rest⟩ := List.pairwise_cons.mp sorted
    rw [insertSig]
    split_ifs with same before
    · exact sorted
    · refine List.pairwise_cons.mpr ⟨fun other member => ?_, sorted⟩
      rcases List.mem_cons.mp member with rfl | member
      · exact before
      · exact valtypeLt_trans before (first other member)
    · refine List.pairwise_cons.mpr ⟨fun other member => ?_, ih rest⟩
      rcases mem_insertSig.mp member with rfl | member
      · exact valtypeLt_of_not same (Bool.eq_false_iff.mpr before)
      · exact first other member

theorem allSigs_spec (offered : List valtype) :
    (allSigs offered).Pairwise (fun a b => valtypeLt a b = true) ∧
      ∀ sig, sig ∈ allSigs offered ↔ sig ∈ offered ∧ sig ≠ [] := by
  have step : ∀ (sigs start : List valtype), start.Pairwise (fun a b => valtypeLt a b = true) →
      (sigs.foldl (fun allsigs sig => insertSig sig allsigs) start).Pairwise (fun a b => valtypeLt a b = true) ∧
        ∀ sig, sig ∈ sigs.foldl (fun allsigs sig => insertSig sig allsigs) start ↔ sig ∈ start ∨ sig ∈ sigs := by
    intro sigs
    induction sigs with
    | nil => exact fun start sorted => ⟨sorted, by simp⟩
    | cons head sigs ih =>
      intro start sorted
      obtain ⟨after, members⟩ := ih (insertSig head start) (pairwise_insertSig sorted)
      refine ⟨after, fun sig => ?_⟩
      rw [List.foldl_cons, members, mem_insertSig, List.mem_cons]
      tauto
  obtain ⟨sorted, members⟩ := step (offered.filter (· ≠ [])) [] List.Pairwise.nil
  refine ⟨sorted, fun sig => ?_⟩
  rw [allSigs, members]
  simp

theorem find?_eq_some_of_pairwise (sorted : allsigs.Pairwise fun a b => valtypeLt a b = true) :
    allsigs.find? p = some sig ↔ sig ∈ allsigs ∧ p sig = true ∧
      ∀ other ∈ allsigs, p other = true → other = sig ∨ valtypeLt sig other = true := by
  induction allsigs with
  | nil => simp
  | cons head allsigs ih =>
    obtain ⟨first, rest⟩ := List.pairwise_cons.mp sorted
    cases does : p head with
    | false =>
      rw [List.find?_cons_of_neg (by rw [does]; exact Bool.false_ne_true), ih rest]
      constructor
      · rintro ⟨member, holds, least⟩
        refine ⟨List.mem_cons_of_mem _ member, holds, fun other listed also => ?_⟩
        rcases List.mem_cons.mp listed with rfl | listed
        · exact absurd (does.symm.trans also) Bool.false_ne_true
        · exact least other listed also
      · rintro ⟨member, holds, least⟩
        refine ⟨?_, holds, fun other listed => least other (List.mem_cons_of_mem _ listed)⟩
        rcases List.mem_cons.mp member with rfl | member
        · exact absurd (does.symm.trans holds) Bool.false_ne_true
        · exact member
    | true =>
      rw [List.find?_cons_of_pos does, Option.some.injEq]
      constructor
      · rintro rfl
        refine ⟨List.mem_cons_self, does, fun other listed _ => ?_⟩
        exact (List.mem_cons.mp listed).imp id (first other)
      · rintro ⟨member, -, least⟩
        rcases least head List.mem_cons_self does with same | before
        · exact same
        · rcases List.mem_cons.mp member with same | member
          · exact same.symm
          · have circular := valtypeLt_trans before (first sig member)
            rw [valtypeLt_irrefl] at circular
            cases circular

/-- The first signature with a property is before the others. -/
theorem find?_allSigs {offered : List valtype} :
    (allSigs offered).find? p = some sig ↔ (sig ∈ offered ∧ sig ≠ []) ∧ p sig = true ∧
      ∀ other ∈ offered, other ≠ [] → p other = true → other = sig ∨ valtypeLt sig other = true := by
  obtain ⟨sorted, members⟩ := allSigs_spec offered
  simp only [find?_eq_some_of_pairwise sorted, members, and_imp]

theorem find?_allSigs_eq_none {offered : List valtype} :
    (allSigs offered).find? p = none ↔ ∀ sig ∈ offered, sig ≠ [] → p sig = false := by
  simp only [List.find?_eq_none, (allSigs_spec offered).2, and_imp, Bool.not_eq_true]

/-- Every key takes the first signature that verifies for it. -/
def firstSig (checkSig : valtype → valtype → Bool) : Choice valtype valtype where
  choose offered pubkey := (allSigs offered).find? fun sig => checkSig sig pubkey
  mem _ _ _ found := (find?_allSigs.mp found).1.1
  none_of_subset _ _ _ sub absent := find?_allSigs_eq_none.mpr fun sig member =>
    find?_allSigs_eq_none.mp absent sig (sub member)
  some_of_subset _ _ _ _ sub found member :=
    have ⟨⟨_, nonempty⟩, holds, least⟩ := find?_allSigs.mp found
    find?_allSigs.mpr ⟨⟨member, nonempty⟩, holds, fun other listed => least other (sub listed)⟩

/-! ## The map from keys to signatures -/

section

variable {checkSig : valtype → valtype → Bool} {pubkeys : List valtype}

/-- A signature verifies for one key of a list at most. -/
def OneKey (checkSig : valtype → valtype → Bool) (pubkeys : List valtype) (sig : valtype) : Prop :=
  ∀ key ∈ pubkeys, ∀ other ∈ pubkeys, checkSig sig key = true → checkSig sig other = true → key = other

variable {sigs : valtype → Option valtype}

/-- A key keeps the signature it has; otherwise it gets one that verifies for it. -/
theorem assignSig_apply {sig key : valtype} (one : OneKey checkSig pubkeys sig) (member : key ∈ pubkeys) :
    assignSig checkSig sig pubkeys sigs key = (sigs key).or (if checkSig sig key then some sig else none) := by
  have general : ∀ (list : List valtype) (sigs : valtype → Option valtype), list ⊆ pubkeys →
      assignSig checkSig sig list sigs key =
        (sigs key).or (if key ∈ list ∧ checkSig sig key = true then some sig else none) := by
    intro list
    induction list with
    | nil => exact fun sigs _ => by simp [assignSig]
    | cons pubkey list ih =>
      intro sigs sub
      obtain ⟨listed, sub⟩ := List.cons_subset.mp sub
      rw [assignSig]
      split_ifs with taken both verifies both both
      · rw [ih sigs sub]
        split_ifs with still
        · rfl
        · have same : key = pubkey := (List.mem_cons.mp both.1).resolve_right fun later => still ⟨later, both.2⟩
          obtain ⟨earlier, has⟩ := Option.isSome_iff_exists.mp taken
          rw [same, has]
          rfl
      · rw [ih sigs sub, if_neg fun still => both ⟨List.mem_cons_of_mem _ still.1, still.2⟩]
      · have same : key = pubkey := one key member pubkey listed both.2 verifies
        have absent := Option.not_isSome_iff_eq_none.mp taken
        rw [same, Function.update_self, absent]
        rfl
      · have apart : key ≠ pubkey := fun same => both ⟨same ▸ List.mem_cons_self, same ▸ verifies⟩
        rw [Function.update_of_ne apart, Option.or_none]
      · have apart : key ≠ pubkey := fun same => verifies (same ▸ both.2)
        rw [ih sigs sub, if_pos ⟨(List.mem_cons.mp both.1).resolve_left apart, both.2⟩]
      · rw [ih sigs sub, if_neg fun still => both ⟨List.mem_cons_of_mem _ still.1, still.2⟩]
  rw [general pubkeys sigs (List.Subset.refl _)]
  simp [member]

theorem foldl_assignSig {allsigs : List valtype} {key : valtype}
    (one : ∀ sig ∈ allsigs, OneKey checkSig pubkeys sig) (member : key ∈ pubkeys) :
    allsigs.foldl (fun sigs sig => assignSig checkSig sig pubkeys sigs) sigs key =
      (sigs key).or (allsigs.find? fun sig => checkSig sig key) := by
  induction allsigs generalizing sigs with
  | nil => exact (Option.or_none ..).symm
  | cons sig allsigs ih =>
    rw [List.foldl_cons, ih fun other listed => one other (List.mem_cons_of_mem _ listed),
      assignSig_apply (one sig List.mem_cons_self) member, Option.or_assoc]
    cases verifies : checkSig sig key with
    | false =>
      rw [List.find?_cons_of_neg (by rw [verifies]; exact Bool.false_ne_true)]
      rfl
    | true =>
      rw [@List.find?_cons_of_pos _ (fun sig => checkSig sig key) sig allsigs verifies]
      rfl

/-- The merged signatures are those the choice selects. -/
theorem mergeSigs_eq_select {choice : Choice valtype valtype} {offered : List valtype} {required : ℕ}
    (chosen : ∀ key ∈ pubkeys, sigs key = choice.choose offered key) :
    mergeSigs sigs pubkeys required = choice.select required pubkeys offered := by
  induction pubkeys generalizing required with
  | nil =>
    rw [Choice.select_nil]
    rfl
  | cons key pubkeys ih =>
    have others := fun {required} => @ih required fun other member => chosen other (List.mem_cons_of_mem _ member)
    have this := chosen key List.mem_cons_self
    cases required with
    | zero => rfl
    | succ required =>
      rw [mergeSigs, this]
      cases takes : choice.choose offered key with
      | none => rw [choice.select_cons_none takes, ← others]
      | some sig => rw [choice.select_cons_some takes, ← others]

end

theorem assignSig_source {checkSig : valtype → valtype → Bool} {found : valtype}
    {sigs : valtype → Option valtype} (assigned : assignSig checkSig sig pubkeys sigs key = some found) :
    found = sig ∨ sigs key = some found := by
  induction pubkeys generalizing sigs with
  | nil => exact .inr assigned
  | cons pubkey pubkeys ih =>
    rw [assignSig] at assigned
    split_ifs at assigned
    · exact ih assigned
    · by_cases same : key = pubkey
      · rw [same, Function.update_self] at assigned
        exact .inl (Option.some.inj assigned).symm
      · rw [Function.update_of_ne same] at assigned
        exact .inr assigned
    · exact ih assigned

theorem foldl_assignSig_source {checkSig : valtype → valtype → Bool} {found : valtype}
    {sigs : valtype → Option valtype}
    (assigned : allsigs.foldl (fun sigs sig => assignSig checkSig sig pubkeys sigs) sigs key = some found) :
    found ∈ allsigs ∨ sigs key = some found := by
  induction allsigs generalizing sigs with
  | nil => exact .inr assigned
  | cons sig allsigs ih =>
    rcases ih assigned with later | assigned
    · exact .inl (List.mem_cons_of_mem _ later)
    · rcases assignSig_source assigned with rfl | earlier
      · exact .inl List.mem_cons_self
      · exact .inr earlier

theorem mergeSigs_spec (sigs : valtype → Option valtype) (pubkeys : List valtype) (required : ℕ) :
    (mergeSigs sigs pubkeys required).length ≤ required ∧
      ∀ found ∈ mergeSigs sigs pubkeys required, ∃ key, sigs key = some found := by
  induction pubkeys generalizing required with
  | nil => exact ⟨Nat.zero_le _, fun _ member => nomatch member⟩
  | cons pubkey pubkeys ih =>
    cases required with
    | zero => exact ⟨Nat.le_refl 0, fun _ member => nomatch member⟩
    | succ required =>
      rw [mergeSigs]
      cases has : sigs pubkey with
      | none => exact ih (required + 1)
      | some sig =>
        obtain ⟨few, source⟩ := ih required
        exact ⟨Nat.succ_le_succ few, List.forall_mem_cons.mpr ⟨⟨pubkey, has⟩, source⟩⟩

theorem Crypto.mergedSigs_spec (crypto : Crypto) (txTo : CTransaction) (nIn required : ℕ) (scriptPubKey : CScript)
    (pubkeys sigs1 sigs2 : List valtype) :
    (crypto.mergedSigs txTo nIn scriptPubKey required pubkeys sigs1 sigs2).length ≤ required ∧
      crypto.mergedSigs txTo nIn scriptPubKey required pubkeys sigs1 sigs2 ⊆ sigs1 ++ sigs2 := by
  obtain ⟨few, source⟩ := mergeSigs_spec ((allSigs (sigs1 ++ sigs2)).foldl (fun sigs sig =>
    assignSig (fun sig pubkey => crypto.checkSig sig pubkey scriptPubKey txTo nIn 0) sig pubkeys sigs) fun _ => none)
    pubkeys required
  refine ⟨few, fun found member => ?_⟩
  obtain ⟨key, assigned⟩ := source found member
  rcases foldl_assignSig_source assigned with listed | never
  · exact (((allSigs_spec _).2 found).mp listed).1
  · cases never

/-- Merging keeps for every key the first signature that verifies for it. -/
theorem Crypto.mergedSigs_eq {crypto : Crypto} {txTo : CTransaction} {nIn : ℕ} {scriptPubKey : CScript}
    {sigs1 sigs2 : List valtype} (one : ∀ sig ∈ sigs1 ++ sigs2,
      OneKey (fun sig pubkey => crypto.checkSig sig pubkey scriptPubKey txTo nIn 0) pubkeys sig) :
    crypto.mergedSigs txTo nIn scriptPubKey required pubkeys sigs1 sigs2 =
      (firstSig fun sig pubkey => crypto.checkSig sig pubkey scriptPubKey txTo nIn 0).select required pubkeys
        (sigs1 ++ sigs2) := by
  refine mergeSigs_eq_select fun key member => ?_
  have inside : ∀ sig ∈ allSigs (sigs1 ++ sigs2), sig ∈ sigs1 ++ sigs2 :=
    fun sig listed => (((allSigs_spec _).2 sig).mp listed).1
  exact foldl_assignSig (fun sig listed => one sig (inside sig listed)) member

namespace CScript

variable {sig : valtype} {next : CScript}

theorem not_isPrefixOf_pushData {opcode : UInt8} {vch : valtype} {pc : CScript} (short : sig.length < 2 ^ 32)
    (read : pc.getOp = some (opcode, vch, next)) (other : opcode ≤ OP_PUSHDATA4 → vch ≠ sig) :
    ¬ (pushData sig).isPrefixOf pc = true := by
  intro same
  obtain ⟨rest, rfl⟩ := List.isPrefixOf_iff_prefix.mp same
  obtain ⟨push, low, found⟩ := getOp_pushData short rest
  rw [read, Option.some.injEq, Prod.mk.injEq, Prod.mk.injEq] at found
  obtain ⟨rfl, rfl, -⟩ := found
  exact other low rfl

/-- An operation that does not push the signature stays. -/
theorem findAndDeleteLoop_append {opcode : UInt8} {vch sig : valtype} {operation next : CScript}
    (short : sig.length < 2 ^ 32) (read : getOp (operation ++ next) = some (opcode, vch, next))
    (other : opcode ≤ OP_PUSHDATA4 → vch ≠ sig)
    (rest : ∀ rounds, findAndDeleteLoop (pushData sig) rounds next = next) (rounds : ℕ) :
    findAndDeleteLoop (pushData sig) rounds (operation ++ next) = operation ++ next := by
  cases rounds with
  | zero => rfl
  | succ rounds =>
    rw [findAndDeleteLoop, if_neg (not_isPrefixOf_pushData short read other), read]
    dsimp only
    rw [rest, List.length_append, Nat.add_sub_cancel, List.take_left]

theorem findAndDeleteLoop_pushAll {keys : List valtype} (short : sig.length < 2 ^ 32)
    (sizes : ∀ key ∈ keys, key.length < 2 ^ 32) (fresh : sig ∉ keys)
    (rest : ∀ rounds, findAndDeleteLoop (pushData sig) rounds next = next) (rounds : ℕ) :
    findAndDeleteLoop (pushData sig) rounds (pushAll keys ++ next) = pushAll keys ++ next := by
  induction keys generalizing rounds with
  | nil => exact rest rounds
  | cons key keys ih =>
    obtain ⟨apart, fresh⟩ := not_or.mp (mt List.mem_cons.mpr fresh)
    obtain ⟨opcode, -, read⟩ := getOp_pushData (sizes key List.mem_cons_self) (pushAll keys ++ next)
    rw [pushAll_cons, List.append_assoc]
    exact findAndDeleteLoop_append short read (fun _ => Ne.symm apart)
      (ih (fun other member => sizes other (List.mem_cons_of_mem _ member)) fresh) rounds

private theorem findAndDeleteLoop_opcode {opcode : UInt8} (high : OP_PUSHDATA4 < opcode) (short : sig.length < 2 ^ 32)
    (rest : ∀ rounds, findAndDeleteLoop (pushData sig) rounds next = next) (rounds : ℕ) :
    findAndDeleteLoop (pushData sig) rounds (opcode :: next) = opcode :: next :=
  @findAndDeleteLoop_append opcode [] sig [opcode] next short (ScriptContext.getOp_opcode high next)
    (fun low => absurd low (UInt8.not_le.mpr high)) rest rounds

/-- Deleting a signature that is not a key leaves the script as it is. -/
theorem findAndDelete_multisig {required : ℕ} {keys : List valtype} (pos : 0 < required)
    (enough : required ≤ keys.length) (few : keys.length ≤ 16) (short : sig.length < 2 ^ 32)
    (sizes : ∀ key ∈ keys, key.length < 2 ^ 32) (fresh : sig ∉ keys) :
    (multisig required keys).findAndDelete (pushData sig) = multisig required keys := by
  have empty : ∀ rounds, findAndDeleteLoop (pushData sig) rounds [] = [] := by
    intro rounds
    cases rounds with
    | zero => rfl
    | succ rounds =>
      have nothing : ¬ (pushData sig).isPrefixOf [] = true := by
        intro same
        have long := (length_pushData sig).1
        rw [List.prefix_nil.mp (List.isPrefixOf_iff_prefix.mp same)] at long
        cases long
      rw [findAndDeleteLoop, if_neg nothing]
      rfl
  have operation := findAndDeleteLoop_opcode (by decide : OP_PUSHDATA4 < OP_CHECKMULTISIG) short empty
  have counted := findAndDeleteLoop_opcode (lt_smallOpcode (pos.trans_le enough) few) short operation
  have pushed := findAndDeleteLoop_pushAll short sizes fresh counted
  have required := findAndDeleteLoop_opcode (lt_smallOpcode pos (enough.trans few)) short pushed
  rw [findAndDelete]
  split_ifs
  · rfl
  · exact required _

end CScript

theorem ScriptOp.get_pushData {vch : valtype} (short : vch.length < 2 ^ 32) (rest : CScript) :
    ∃ opcode, ScriptOp.get (CScript.pushData vch ++ rest) = some ⟨opcode, vch, rest⟩ := by
  obtain ⟨opcode, -, read⟩ := CScript.getOp_pushData short rest
  exact ⟨opcode, by rw [ScriptOp.get, read]; rfl⟩

theorem ScriptOp.get_opcode {opcode : UInt8} (high : OP_PUSHDATA4 < opcode) (rest : CScript) :
    ScriptOp.get (opcode :: rest) = some ⟨opcode, [], rest⟩ := by
  rw [ScriptOp.get, ScriptContext.getOp_opcode high]
  rfl

/-- All keys are collected, and the operation behind them is read. -/
theorem takePubKeys_eq {opcode : UInt8} {last : ScriptOp} (sizes : ∀ other ∈ key :: keys, isPubKeySize other)
    (read : ScriptOp.get rest = some last) (stop : ¬ isPubKeySize last.vch) (enough : keys.length + 1 < rounds) :
    takePubKeys rounds ⟨opcode, key, CScript.pushAll keys ++ rest⟩ vSolutions =
      (last, vSolutions ++ key :: keys) := by
  induction keys generalizing rounds key opcode vSolutions with
  | nil =>
    obtain ⟨rounds, rfl⟩ : ∃ left, rounds = left + 2 := ⟨rounds - 2, by simp only [List.length_nil] at enough; omega⟩
    rw [takePubKeys, if_pos (sizes key List.mem_cons_self)]
    simp only [CScript.pushAll, List.flatMap_nil, List.nil_append, read]
    change takePubKeys (rounds + 1) last (vSolutions ++ [key]) = _
    rw [takePubKeys, if_neg stop]
  | cons next keys ih =>
    rw [List.length_cons] at enough
    obtain ⟨rounds, rfl⟩ : ∃ left, rounds = left + 1 := ⟨rounds - 1, by omega⟩
    have small := (sizes next (List.mem_cons_of_mem _ List.mem_cons_self)).2
    obtain ⟨push, found⟩ := get_pushData (by omega : next.length < 2 ^ 32) (CScript.pushAll keys ++ rest)
    rw [takePubKeys, if_pos (sizes key List.mem_cons_self), CScript.pushAll_cons, List.append_assoc]
    simp only [found]
    rw [ih (fun other member => sizes other (List.mem_cons_of_mem _ member)) (by omega), List.append_assoc]
    rfl

theorem matchOp_smallOpcode {n : ℕ} {pc : CScript} (pos : 0 < n) (small : n ≤ 16) :
    matchOp ⟨smallOpcode n, [], pc⟩ ⟨OP_SMALLINTEGER, [], rest⟩ = some [[UInt8.ofNat n]] := by
  have table : ∀ n < 17, 0 < n → (smallOpcode n = OP_0 ∨ OP_1 ≤ smallOpcode n ∧
      smallOpcode n ≤ OP_16) ∧ decodeOP_N (smallOpcode n) = UInt8.ofNat n := by decide
  obtain ⟨range, decoded⟩ := table n (by omega) pos
  have other : OP_SMALLINTEGER ≠ OP_PUBKEY ∧ OP_SMALLINTEGER ≠ OP_PUBKEYHASH := by decide
  rw [matchOp, if_neg other.1, if_neg other.2, if_pos rfl, if_pos range, decoded]

private theorem matchLoop_cons {pc1 pc2 : CScript} {op1 op2 : ScriptOp}
    (read : ScriptOp.get pc1 = some op1) (template : ScriptOp.get pc2 = some op2) (single : op2.opcode ≠ OP_PUBKEYS) :
    matchLoop (rounds + 1) pc1 pc2 vSolutions =
      (matchOp op1 op2).bind fun found => matchLoop rounds op1.pc op2.pc (vSolutions ++ found) := by
  have more : ¬ (pc1 = [] ∧ pc2 = []) := by
    rintro ⟨rfl, -⟩
    cases read
  rw [matchLoop, if_neg more, read, template]
  exact if_neg single

private theorem matchLoop_pubKeys {pc2 : CScript} {last op2 : ScriptOp}
    (sizes : ∀ other ∈ key :: keys, isPubKeySize other) (read : ScriptOp.get rest = some last)
    (stop : ¬ isPubKeySize last.vch) (template : ScriptOp.get pc2 = some op2) (high : OP_PUSHDATA4 < OP_PUBKEYS) :
    matchLoop (rounds + 1) (CScript.pushAll (key :: keys) ++ rest) (OP_PUBKEYS :: pc2) vSolutions =
      (matchOp last op2).bind fun found => matchLoop rounds last.pc op2.pc (vSolutions ++ key :: keys ++ found) := by
  have small := (sizes key List.mem_cons_self).2
  obtain ⟨opcode, found⟩ := get_pushData (by omega : key.length < 2 ^ 32) (CScript.pushAll keys ++ rest)
  rw [← List.append_assoc, ← CScript.pushAll_cons] at found
  have long : keys.length + 1 < (CScript.pushAll (key :: keys) ++ rest).length := by
    have sum : ∀ list : List valtype, (∀ other ∈ list, isPubKeySize other) →
        2 * list.length ≤ (CScript.pushAll list).length := by
      intro list sized
      induction list with
      | nil => exact Nat.zero_le _
      | cons other list ih =>
        have first := (CScript.length_pushData other).1
        have size := (sized other List.mem_cons_self).1
        have others := ih fun another member => sized another (List.mem_cons_of_mem _ member)
        rw [CScript.pushAll_cons, List.length_append, List.length_cons]
        omega
    have total := sum (key :: keys) sizes
    rw [List.length_cons] at total
    rw [List.length_append]
    omega
  have more : ¬ (CScript.pushAll (key :: keys) ++ rest = [] ∧ OP_PUBKEYS :: pc2 = []) := fun both => nomatch both.2
  rw [matchLoop, if_neg more, found, get_opcode high]
  simp only [Option.bind_eq_bind, Option.bind_some, if_pos, takePubKeys_eq sizes read stop long, template]

/-- The numbers of a multisig script are right. -/
theorem multisigCounts_eq (pos : 0 < required) (enough : required ≤ keys.length) (few : keys.length ≤ 16) :
    multisigCounts ([UInt8.ofNat required] :: keys ++ [[UInt8.ofNat keys.length]]) = true := by
  have last : ([UInt8.ofNat required] :: keys ++ [[UInt8.ofNat keys.length]]).getLastD [] =
      [UInt8.ofNat keys.length] := by
    rw [List.getLastD_eq_getLast?, List.getLast?_append]
    rfl
  have length : ([UInt8.ofNat required] :: keys ++ [[UInt8.ofNat keys.length]]).length - 2 = keys.length := by simp
  have numeral : ∀ n < 17, (UInt8.ofNat n).toNat = n := by decide
  have m := numeral required (by omega)
  have n := numeral keys.length (by omega)
  simp only [multisigCounts, last, length, decide_not, Bool.not_eq_true', decide_eq_false_iff_not]
  simp only [List.cons_append, List.headD_cons, UInt8.lt_iff_toNat_lt, m, n, UInt8.toNat_one]
  omega

/-- A multisig script is recognised, with its numbers and its keys. -/
theorem solver_multisig (pos : 0 < required) (enough : required ≤ keys.length)
    (few : keys.length ≤ 16) (sizes : ∀ key ∈ keys, isPubKeySize key) : solver (CScript.multisig required keys) =
      ⟨true, txnouttype.TX_MULTISIG, [UInt8.ofNat required] :: keys ++ [[UInt8.ofNat keys.length]]⟩ := by
  have counts := multisigCounts_eq pos enough few
  obtain ⟨key, keys, rfl⟩ : ∃ key rest, keys = key :: rest := List.exists_cons_of_length_pos (pos.trans_le enough)
  have small := enough.trans few
  have first : ScriptOp.get (CScript.multisig required (key :: keys)) = some ⟨smallOpcode required, [],
      CScript.pushAll (key :: keys) ++ [smallOpcode (key :: keys).length, OP_CHECKMULTISIG]⟩ :=
    get_opcode (CScript.lt_smallOpcode pos small) _
  have counted := get_opcode (CScript.lt_smallOpcode (pos.trans_le enough) few) [OP_CHECKMULTISIG]
  obtain ⟨rounds, size⟩ : ∃ rounds, (CScript.multisig required (key :: keys)).length + 1 = rounds + 4 :=
    ⟨(CScript.multisig required (key :: keys)).length - 3, by
      simp only [CScript.multisig, List.length_cons, List.length_append, List.length_nil]
      omega⟩
  have pubKey : matchLoop (rounds + 4) (CScript.multisig required (key :: keys)) [OP_PUBKEY, OP_CHECKSIG] [] = none := by
    have unmatched : ∀ pc, matchOp ⟨smallOpcode required, [], pc⟩ ⟨OP_PUBKEY, [], [OP_CHECKSIG]⟩ = none := by
      intro pc
      rw [matchOp, if_pos rfl, if_neg (by decide : ¬ isPubKeySize [])]
    rw [matchLoop_cons first (get_opcode (by decide) _) (by decide), unmatched]
    rfl
  have pubKeyHash : matchLoop (rounds + 4) (CScript.multisig required (key :: keys))
      [OP_DUP, OP_HASH160, OP_PUBKEYHASH, OP_EQUALVERIFY, OP_CHECKSIG] [] = none := by
    have unmatched : ∀ pc rest, matchOp ⟨smallOpcode required, [], pc⟩ ⟨OP_DUP, [], rest⟩ = none := by
      intro pc rest
      have other : ¬ (smallOpcode required = OP_DUP ∧ ([] : valtype) = []) := by
        rintro ⟨same, -⟩
        have value := toNat_smallOpcode pos small
        have dup : OP_DUP.toNat = 118 := rfl
        rw [same] at value
        omega
      have opcodes : OP_DUP ≠ OP_PUBKEY ∧ OP_DUP ≠ OP_PUBKEYHASH ∧ OP_DUP ≠ OP_SMALLINTEGER := by decide
      rw [matchOp, if_neg opcodes.1, if_neg opcodes.2.1, if_neg opcodes.2.2, if_neg other]
    rw [matchLoop_cons first (get_opcode (by decide) _) (by decide), unmatched]
    rfl
  have multisig : matchLoop (rounds + 4) (CScript.multisig required (key :: keys))
      [OP_SMALLINTEGER, OP_PUBKEYS, OP_SMALLINTEGER, OP_CHECKMULTISIG] [] =
      some ([UInt8.ofNat required] :: (key :: keys) ++ [[UInt8.ofNat (key :: keys).length]]) := by
    have same : matchOp ⟨OP_CHECKMULTISIG, [], []⟩ ⟨OP_CHECKMULTISIG, [], []⟩ = some [] := rfl
    rw [matchLoop_cons first (get_opcode (by decide) _) (by decide), matchOp_smallOpcode pos small,
      Option.bind_some, matchLoop_pubKeys sizes counted (by decide : ¬ isPubKeySize [])
        (get_opcode (by decide) _) (by decide), matchOp_smallOpcode (pos.trans_le enough) few,
      Option.bind_some, matchLoop_cons (get_opcode (by decide) _) (get_opcode (by decide) _) (by decide),
      same]
    simp [matchLoop]
  rw [solver, isPayToScriptHash_multisig pos small, if_neg Bool.false_ne_true, mTemplates, scanTemplates, size,
    pubKey]
  dsimp only
  rw [scanTemplates, size, pubKeyHash]
  dsimp only
  rw [scanTemplates, size, multisig]
  dsimp only
  rw [if_pos rfl, counts]

theorem solver_payToScriptHash {scriptID : valtype} (size : scriptID.length = 20) :
    solver (payToScriptHash scriptID) = ⟨true, txnouttype.TX_SCRIPTHASH, [scriptID]⟩ := by
  rw [solver, if_pos (isPayToScriptHash_payToScriptHash size)]
  simp [payToScriptHash, ← size]

namespace ScriptContext

variable {ctx : ScriptContext} {residue : UInt8 → ScriptState → List valtype}

/-- A script that succeeds leaves its stack. -/
theorem leftLoop_eq {rounds : ℕ} {pc : CScript} {state after : ScriptState}
    (run : (ctx.evalLoop rounds pc state).outcome = .ok after) : ctx.leftLoop residue rounds pc state = after.stack := by
  induction rounds generalizing pc state with
  | zero =>
    cases run
    rfl
  | succ rounds ih =>
    rw [evalLoop] at run
    rw [leftLoop]
    split_ifs at run ⊢ with done
    · cases run
      rfl
    · obtain ⟨⟨next, middle⟩, step, rest⟩ := bind_outcome_eq_ok.mp run
      rw [step]
      exact ih rest

theorem leftStack_eq {script : CScript} {stack : List valtype} (evaluated : (ctx.evalScript [] script).outcome = .ok stack) :
    ctx.leftStack residue script = stack.reverse := by
  simp only [evalScript, bind_outcome_eq_ok, free_outcome, Check.rejectIf_eq_ok, pure_outcome,
    Except.ok.injEq] at evaluated
  obtain ⟨-, small, after, run, -, -, rfl⟩ := evaluated
  rw [leftStack, if_neg small, leftLoop_eq run]

/-- A push that is too long ends the script, whatever a failing instruction leaves. -/
theorem leftLoop_pushAll_long {data : List valtype} {long : valtype} {rounds : ℕ} {state : ScriptState}
    (short : ∀ vch ∈ data, vch.length ≤ MAX_SCRIPT_ELEMENT_SIZE) (large : MAX_SCRIPT_ELEMENT_SIZE < long.length)
    (readable : long.length < 2 ^ 32) (unconditional : state.vfExec = [])
    (room : state.stack.length + state.altstack.length + data.length ≤ 1000) (enough : data.length < rounds) :
    ctx.leftLoop residue rounds (CScript.pushAll (data ++ [long])) state = data.reverse ++ state.stack := by
  induction data generalizing rounds state with
  | nil =>
    obtain ⟨rounds, rfl⟩ : ∃ left, rounds = left + 1 := ⟨rounds - 1, by simp only [List.length_nil] at enough; omega⟩
    obtain ⟨opcode, -, read⟩ := CScript.getOp_pushData readable []
    rw [List.nil_append, CScript.pushAll_cons, leftLoop, if_neg (pushData_ne_nil long _),
      evalStep_pushData_long large readable]
    simp only [throw_outcome]
    simp only [CScript.pushAll, List.flatMap_nil, read]
    rw [admitOp_long large]
    rfl
  | cons vch data ih =>
    rw [List.length_cons] at room enough
    obtain ⟨rounds, rfl⟩ : ∃ left, rounds = left + 1 := ⟨rounds - 1, by omega⟩
    have left : (state.push vch).stack.length + (state.push vch).altstack.length + data.length ≤ 1000 := by
      simp only [ScriptState.push, List.length_cons]
      omega
    have pushed : (state.push vch).vfExec = [] := unconditional
    rw [List.cons_append, CScript.pushAll_cons, leftLoop, if_neg (pushData_ne_nil vch _),
      evalStep_pushData (short vch List.mem_cons_self) unconditional (by omega)]
    simp only [pure_outcome]
    rw [ih (fun other member => short other (List.mem_cons_of_mem _ member)) pushed left (by omega),
      List.reverse_cons, List.append_assoc]
    rfl

theorem leftStack_pushAll_long {data : List valtype} {long : valtype}
    (short : ∀ vch ∈ data, vch.length ≤ MAX_SCRIPT_ELEMENT_SIZE) (large : MAX_SCRIPT_ELEMENT_SIZE < long.length)
    (readable : long.length < 2 ^ 32) (few : data.length ≤ 1000)
    (small : (CScript.pushAll (data ++ [long])).length ≤ 10000) :
    ctx.leftStack residue (CScript.pushAll (data ++ [long])) = data := by
  have enough : data.length < (CScript.pushAll (data ++ [long])).length := by
    have pushes : ∀ list : List valtype, list.length ≤ (CScript.pushAll list).length := by
      intro list
      induction list with
      | nil => exact Nat.le_refl 0
      | cons vch list ih =>
        have first := (CScript.length_pushData vch).1
        rw [CScript.pushAll_cons, List.length_append, List.length_cons]
        omega
    have all := pushes (data ++ [long])
    rw [List.length_append, List.length_singleton] at all
    omega
  have room : ([] : List valtype).length + ([] : List valtype).length + data.length ≤ 1000 := by simpa using few
  have left := @leftLoop_pushAll_long ctx residue data long _ ⟨[], [], [], CScript.pushAll (data ++ [long]), 0⟩ short
    large readable rfl room enough
  rw [leftStack, if_neg (not_lt.mpr small), left, List.append_nil, List.reverse_reverse]

end ScriptContext

end BitCrystal
