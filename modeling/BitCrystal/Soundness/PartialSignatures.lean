import BitCrystal.Proofs.CombineSignatures

/-! # Joining partial signatures

A signature script for a multisig output carries some of the signatures, in the order of their keys, and
placeholders for the others. `CombineSignatures` keeps this form, and what it carries is a choice for the keys.
-/

namespace BitCrystal

open CScript

/-- An output that a number of keys can spend together, by the script or by its hash. -/
structure MultisigOutput where
  required : ℕ
  keys : List valtype
  paidToHash : Bool
  pos : 0 < required
  enough : required ≤ keys.length
  few : keys.length ≤ 16
  sizes : ∀ key ∈ keys, isPubKeySize key
  distinct : keys.Nodup

namespace MultisigOutput

def script (output : MultisigOutput) : CScript := multisig output.required output.keys

def scriptPubKey (output : MultisigOutput) (crypto : Crypto) : CScript :=
  if output.paidToHash then payToScriptHash (crypto.hash160 output.script) else output.script

end MultisigOutput

/-- A signature script that is empty, or a partly signed one. -/
inductive PartialSig
  | unsigned
  | signed (sigs : List valtype) (missing : ℕ)

namespace PartialSig

def sigs : PartialSig → List valtype
  | unsigned => []
  | signed sigs _ => sigs

def missing : PartialSig → ℕ
  | unsigned => 0
  | signed _ missing => missing

/-- The signatures with their placeholders. -/
def operands : PartialSig → List valtype
  | unsigned => []
  | signed sigs missing => [] :: sigs ++ List.replicate missing []

/-- What the script pushes; the redeem script is the last. -/
def entries (output : MultisigOutput) : PartialSig → List valtype
  | unsigned => []
  | signed sigs missing =>
    (signed sigs missing).operands ++ if output.paidToHash then [output.script] else []

def scriptSig (output : MultisigOutput) (form : PartialSig) : CScript := pushAll (form.entries output)

end PartialSig

namespace ScriptContext

variable (ctx : ScriptContext) (output : MultisigOutput)

/-- The test of `CombineMultisig`. -/
def verifies (sig pubkey : valtype) : Bool := ctx.crypto.checkSig sig pubkey output.script ctx.txTo ctx.nIn 0

/-- Valid signatures of distinct keys in the order of the keys, which can be pushed. -/
structure PartlySigned (form : PartialSig) : Prop where
  signed : ctx.Signed output.script output.keys form.sigs
  room : form.sigs.length + form.missing ≤ output.required
  short : ∀ sig ∈ form.sigs, sig.length ≤ MAX_SCRIPT_ELEMENT_SIZE
  fresh : ∀ sig ∈ form.sigs, sig ∉ output.keys

open scoped Classical in
/-- The keys for which there is a signature. -/
noncomputable def covered (sigs : List valtype) : List valtype :=
  output.keys.filter fun key => ∃ sig ∈ sigs, ctx.Accepts output.script sig key

/-- The result of `CombineSignatures` is a partly signed script again. -/
def Combines (residue : UInt8 → ScriptState → List valtype) (first second result : PartialSig) : Prop :=
  ctx.PartlySigned output result ∧
    ctx.crypto.combineSignatures residue (output.scriptPubKey ctx.crypto) ctx.txTo ctx.nIn (first.scriptSig output)
      (second.scriptSig output) = .ok (result.scriptSig output)

end ScriptContext

/-! ## What the signatures are accepted for -/

namespace ScriptContext

variable {ctx : ScriptContext} {output : MultisigOutput} {sig key : valtype} {form first second : PartialSig}
  {scriptCode : CScript}

/-- What `CheckSig` accepts passes the test of `CombineMultisig`. -/
theorem Accepts.checkSig (accepted : ctx.Accepts scriptCode sig key) :
    ctx.crypto.checkSig sig key scriptCode ctx.txTo ctx.nIn 0 = true := by
  unfold Accepts ScriptContext.checkSig at accepted
  split at accepted
  · cases accepted
  · simp only [Metered.call, Except.ok.injEq] at accepted
    unfold Crypto.checkSig at accepted ⊢
    split at accepted
    · cases accepted
    · dsimp only at accepted ⊢
      rw [if_neg (fun both => both.1 rfl)]
      split_ifs at accepted
      exact accepted

theorem Accepts.verifies (accepted : ctx.Accepts output.script sig key) : ctx.verifies output sig key = true :=
  accepted.checkSig

theorem Accepts.ne_nil (accepted : ctx.Accepts scriptCode sig key) : sig ≠ [] := by
  rintro rfl
  cases accepted.checkSig

/-- Every signature is accepted for one of the keys. -/
theorem Signed.exists_key {keys sigs : List valtype} (signed : ctx.Signed scriptCode keys sigs)
    (member : sig ∈ sigs) : ∃ key ∈ keys, ctx.Accepts scriptCode sig key := by
  obtain ⟨signers, sublist, accepted⟩ := signed
  obtain ⟨size, accepts⟩ := List.forall₂_iff_get.mp accepted
  obtain ⟨i, bound, rfl⟩ := List.getElem_of_mem member
  exact ⟨signers[i], sublist.subset (List.getElem_mem _), accepts i bound (size ▸ bound)⟩

section

variable (one : ∀ sig, OneKey (ctx.verifies output) output.keys sig)
  {offered : List valtype} (valid : ∀ sig ∈ offered, ∃ key ∈ output.keys, ctx.Accepts output.script sig key)

include one valid

/-- A signature that verifies for a key is accepted for it. -/
theorem accepts_of_verifies (member : sig ∈ offered) (listed : key ∈ output.keys)
    (verified : ctx.verifies output sig key = true) : ctx.Accepts output.script sig key := by
  obtain ⟨other, also, accepted⟩ := valid sig member
  rw [one sig key listed other also verified accepted.verifies]
  exact accepted

theorem accepts_of_choose (listed : key ∈ output.keys)
    (chosen : (firstSig (ctx.verifies output)).choose offered key = some sig) :
    sig ∈ offered ∧ ctx.Accepts output.script sig key := by
  obtain ⟨⟨member, -⟩, verified, -⟩ := find?_allSigs.mp chosen
  exact ⟨member, accepts_of_verifies one valid member listed verified⟩

open scoped Classical in
theorem covered_eq : ctx.covered output offered =
    output.keys.filter fun key => ((firstSig (ctx.verifies output)).choose offered key).isSome := by
  unfold covered
  refine List.filter_congr fun key listed => ?_
  rw [Bool.eq_iff_iff, decide_eq_true_iff]
  constructor
  · rintro ⟨sig, member, accepted⟩
    rw [← Option.not_isNone, Bool.not_eq_true', Option.isNone_eq_false_iff, ← Option.ne_none_iff_isSome]
    intro absent
    have refused := find?_allSigs_eq_none.mp absent sig member accepted.ne_nil
    rw [accepted.verifies] at refused
    cases refused
  · intro present
    obtain ⟨sig, chosen⟩ := Option.isSome_iff_exists.mp present
    exact ⟨sig, accepts_of_choose one valid listed chosen⟩

/-- What is selected is valid for the first keys that are covered. -/
theorem accepts_select {required : ℕ} : List.Forall₂ (fun sig key => sig ∈ offered ∧ ctx.Accepts output.script sig key)
    ((firstSig (ctx.verifies output)).select required output.keys offered)
    ((ctx.covered output offered).take required) := by
  have served := @Choice.forall₂_select _ _ (firstSig (ctx.verifies output)) offered output.keys required
  rw [← covered_eq one valid] at served
  rw [List.forall₂_iff_get] at served ⊢
  refine ⟨served.1, fun i left right => ?_⟩
  have inside := List.mem_of_mem_take (List.get_mem _ ⟨i, right⟩)
  exact accepts_of_choose one valid (List.mem_of_mem_filter inside) (served.2 i left right)

end

/-- A partly signed script selects its own signatures. -/
theorem PartlySigned.select_sigs (one : ∀ sig, OneKey (ctx.verifies output) output.keys sig)
    (partly : ctx.PartlySigned output form) :
    (firstSig (ctx.verifies output)).select output.required output.keys form.sigs = form.sigs := by
  obtain ⟨signers, sublist, accepted⟩ := partly.signed
  obtain ⟨size, accepts⟩ := List.forall₂_iff_get.mp accepted
  have distinct := output.distinct.sublist sublist
  have chosen : List.Forall₂ (fun key sig => (firstSig (ctx.verifies output)).choose form.sigs key = some sig) signers
      form.sigs := by
    refine List.forall₂_iff_get.mpr ⟨size.symm, fun i left right => find?_allSigs.mpr ?_⟩
    refine ⟨⟨List.get_mem _ _, (accepts i right left).ne_nil⟩, (accepts i right left).verifies, ?_⟩
    intro other member _ verified
    obtain ⟨j, bound, rfl⟩ := List.getElem_of_mem member
    have same := one _ _ (sublist.subset (List.get_mem signers ⟨i, left⟩)) _
      (sublist.subset (List.get_mem signers ⟨j, size ▸ bound⟩)) verified (accepts j bound (size ▸ bound)).verifies
    left
    obtain rfl : i = j := congrArg Fin.val (distinct.injective_get same)
    rfl
  have room := partly.room
  refine Choice.select_of_forall₂ _ sublist chosen (fun key listed apart => ?_) output.distinct (by omega)
  refine find?_allSigs_eq_none.mpr fun sig member _ => Bool.eq_false_iff.mpr fun verified => apart ?_
  obtain ⟨j, bound, rfl⟩ := List.getElem_of_mem member
  have inside := List.get_mem signers ⟨j, size ▸ bound⟩
  rw [one _ key listed _ (sublist.subset inside) verified (accepts j bound (size ▸ bound)).verifies]
  exact inside

end ScriptContext

namespace PartialSig

variable {output : MultisigOutput} {form : PartialSig}

theorem sigs_unsigned : unsigned.sigs = [] := rfl

theorem entries_unsigned : entries output unsigned = [] := rfl

theorem filter_operands (nonempty : ∀ sig ∈ form.sigs, sig ≠ []) : form.operands.filter (· ≠ []) = form.sigs := by
  cases form with
  | unsigned => rfl
  | signed sigs missing =>
    have signatures : sigs.filter (· ≠ []) = sigs :=
      List.filter_eq_self.mpr fun sig member => decide_eq_true (nonempty sig member)
    have placeholders : (List.replicate missing ([] : valtype)).filter (· ≠ []) = [] :=
      List.filter_eq_nil_iff.mpr fun sig member => by simp [(List.mem_replicate.mp member).2]
    rw [operands, List.filter_append, placeholders, List.append_nil, List.filter_cons_of_neg (by simp)]
    exact signatures

end PartialSig

namespace ScriptContext

variable {ctx : ScriptContext} {output : MultisigOutput} {form first second : PartialSig}
  {residue : UInt8 → ScriptState → List valtype}

/-- The redeem script can be pushed. -/
def Pushable (output : MultisigOutput) : Prop :=
  output.paidToHash = true → output.script.length ≤ MAX_SCRIPT_ELEMENT_SIZE

theorem PartlySigned.length_le (partly : ctx.PartlySigned output form) (fits : Pushable output) :
    (form.entries output).length ≤ 18 ∧ ∀ vch ∈ form.entries output, vch.length ≤ MAX_SCRIPT_ELEMENT_SIZE := by
  have enough := output.enough
  have few := output.few
  cases form with
  | unsigned => exact ⟨Nat.zero_le _, fun vch member => nomatch member⟩
  | signed sigs missing =>
    have room : sigs.length + missing ≤ output.required := partly.room
    rw [PartialSig.entries, PartialSig.operands]
    constructor
    · have last : (if output.paidToHash then [output.script] else []).length ≤ 1 := by split_ifs <;> simp
      simp only [List.length_append, List.length_cons, List.length_replicate]
      omega
    · intro vch member
      rcases List.mem_append.mp member with member | member
      · rcases List.mem_append.mp member with member | member
        · rcases List.mem_cons.mp member with rfl | member
          · exact Nat.zero_le _
          · exact partly.short vch member
        · rw [(List.mem_replicate.mp member).2]
          exact Nat.zero_le _
      · split_ifs at member with hashed
        · rw [List.mem_singleton.mp member]
          exact fits hashed
        · cases member

/-- `EvalScript` pushes the entries, in any context. -/
theorem PartlySigned.leftStack_eq (partly : ctx.PartlySigned output form) (fits : Pushable output) (any : ScriptContext) :
    any.leftStack residue (form.scriptSig output) = form.entries output := by
  obtain ⟨few, short⟩ := partly.length_le fits
  have limit : MAX_SCRIPT_ELEMENT_SIZE = 520 := rfl
  have size := length_pushAll_le short
  have bound := Nat.mul_le_mul_right (MAX_SCRIPT_ELEMENT_SIZE + 5) few
  have evaluated := @evalScript_pushAll any _ short (by omega) (by omega)
  have left := @ScriptContext.leftStack_eq any residue _ _ evaluated
  rw [List.reverse_reverse] at left
  exact left

end ScriptContext

/-- The merged signatures with placeholders for those that are missing. -/
theorem Crypto.combineMultisig_eq {crypto : Crypto} {txTo : CTransaction} {nIn required : ℕ} {scriptPubKey : CScript}
    {keys sigs1 sigs2 : List valtype} {count : valtype} (small : required ≤ 16) :
    crypto.combineMultisig txTo nIn scriptPubKey ([UInt8.ofNat required] :: keys ++ [count]) sigs1 sigs2 =
      .ok (pushAll (PartialSig.signed (crypto.mergedSigs txTo nIn scriptPubKey required keys sigs1 sigs2)
        (required - (crypto.mergedSigs txTo nIn scriptPubKey required keys sigs1 sigs2).length)).operands) := by
  have numeral : ∀ n < 17, (UInt8.ofNat n).toNat = n := by decide
  have zeros : ∀ n, pushAll (List.replicate n []) = List.replicate n OP_0 := by
    intro n
    induction n with
    | zero => rfl
    | succ n ih =>
      rw [List.replicate_succ, pushAll_cons, ih]
      rfl
  rw [combineMultisig, rejectIf, if_neg (by simp)]
  change Except.ok _ = _
  rw [PartialSig.operands, pushAll_append, zeros]
  have keysOf : ([UInt8.ofNat required] :: keys ++ [count]).tail.dropLast = keys := by simp
  rw [keysOf]
  simp only [List.cons_append]
  rw [numeral required (by omega)]
  rfl

/-- What joining two partly signed scripts leaves; one that is empty is not merged with the redeem script. -/
def PartialSig.merge (output : MultisigOutput) (choice : Choice valtype valtype) (first second : PartialSig) :
    PartialSig :=
  let sigs := choice.select output.required output.keys (first.sigs ++ second.sigs)
  if output.paidToHash then
    match first, second with
    | unsigned, second => second
    | signed sigs missing, unsigned => signed sigs missing
    | signed _ _, signed _ _ => signed sigs (output.required - sigs.length)
  else signed sigs (output.required - sigs.length)

theorem PartialSig.merge_eq_signed {output : MultisigOutput} {choice : Choice valtype valtype}
    {first second : PartialSig}
    (joined : output.paidToHash = true → first ≠ unsigned ∧ second ≠ unsigned) :
    first.merge output choice second =
      signed (choice.select output.required output.keys (first.sigs ++ second.sigs))
        (output.required - (choice.select output.required output.keys (first.sigs ++ second.sigs)).length) := by
  unfold PartialSig.merge
  dsimp only
  split_ifs with hashed
  · split
    · exact absurd rfl (joined hashed).1
    · exact absurd rfl (joined hashed).2
    · rfl
  · rfl

namespace ScriptContext

variable {ctx : ScriptContext} {output : MultisigOutput} {form first second third : PartialSig}
  {residue : UInt8 → ScriptState → List valtype}

theorem PartlySigned.valid (partly : ctx.PartlySigned output form) :
    ∀ sig ∈ form.sigs, ∃ key ∈ output.keys, ctx.Accepts output.script sig key :=
  fun _ member => partly.signed.exists_key member

theorem PartlySigned.valid_append (left : ctx.PartlySigned output first) (right : ctx.PartlySigned output second) :
    ∀ sig ∈ first.sigs ++ second.sigs, ∃ key ∈ output.keys, ctx.Accepts output.script sig key := by
  intro sig member
  rcases List.mem_append.mp member with member | member
  · exact left.valid sig member
  · exact right.valid sig member

/-- The signatures cover the script as it is. -/
theorem PartlySigned.signedCode_eq (partly : ctx.PartlySigned output form) :
    signedCode output.script form.sigs = output.script := by
  have limit : MAX_SCRIPT_ELEMENT_SIZE = 520 := rfl
  have sizes : ∀ key ∈ output.keys, key.length < 2 ^ 32 := by
    intro key member
    have size := (output.sizes key member).2
    omega
  have kept : ∀ sigs : List valtype, (∀ sig ∈ sigs, sig ∈ form.sigs) →
      sigs.foldl (fun scriptCode sig => scriptCode.findAndDelete (pushData sig)) output.script =
        output.script := by
    intro sigs inside
    induction sigs with
    | nil => rfl
    | cons sig sigs ih =>
      have member := inside sig List.mem_cons_self
      have short := partly.short sig member
      have same : output.script.findAndDelete (pushData sig) = output.script :=
        findAndDelete_multisig output.pos output.enough output.few (by omega) sizes (partly.fresh sig member)
      rw [List.foldl_cons, same]
      exact ih fun other listed => inside other (List.mem_cons_of_mem _ listed)
  exact kept _ fun sig member => List.mem_reverse.mp member

/-- With enough signatures the script is accepted. -/
theorem PartlySigned.verifyScript (fits : Pushable output)
    (size : output.paidToHash = true → (ctx.crypto.hash160 output.script).length = 20)
    (partly : ctx.PartlySigned output form) (complete : form.sigs.length = output.required) :
    ctx.verifyScript (form.scriptSig output) (output.scriptPubKey ctx.crypto) = .ok () := by
  have pos := output.pos
  have room := partly.room
  have code := partly.signedCode_eq
  have signed := partly.signed
  have script : output.script = multisig form.sigs.length output.keys := by
    rw [complete]
    rfl
  cases form with
  | unsigned =>
    rw [← complete] at pos
    cases pos
  | signed sigs missing =>
    have full : missing = 0 := by
      simp only [PartialSig.missing] at room
      omega
    subst full
    rw [← code] at signed
    rw [script] at signed
    rw [← complete] at pos
    have limit : MAX_SCRIPT_ELEMENT_SIZE = 520 := rfl
    have short : ∀ key ∈ output.keys, key.length ≤ MAX_SCRIPT_ELEMENT_SIZE := by
      intro key member
      have bound := (output.sizes key member).2
      omega
    rw [PartialSig.scriptSig, PartialSig.entries, PartialSig.operands, List.replicate_zero, List.append_nil,
      MultisigOutput.scriptPubKey]
    split_ifs with hashed
    · have hashSize := size hashed
      have pushable := fits hashed
      rw [script] at hashSize pushable ⊢
      exact verifyScript_payToScriptHash pos output.few partly.short pushable hashSize signed
    · rw [script, List.append_nil]
      exact verifyScript_multisig pos output.few short partly.short signed

section

variable (one : ∀ sig, OneKey (ctx.verifies output) output.keys sig)

include one

/-- Both scripts select the signatures that are carried on. -/
theorem sigs_merge (left : ctx.PartlySigned output first) (right : ctx.PartlySigned output second) :
    (first.merge output (firstSig (ctx.verifies output)) second).sigs =
      (firstSig (ctx.verifies output)).select output.required output.keys (first.sigs ++ second.sigs) := by
  unfold PartialSig.merge
  dsimp only
  split_ifs
  · split
    · exact (right.select_sigs one).symm
    · rw [PartialSig.sigs_unsigned, List.append_nil]
      exact (left.select_sigs one).symm
    · rfl
  · rfl

theorem partlySigned_merge (left : ctx.PartlySigned output first) (right : ctx.PartlySigned output second) :
    ctx.PartlySigned output (first.merge output (firstSig (ctx.verifies output)) second) := by
  have carried := sigs_merge one left right
  have inside : ∀ sig ∈ (first.merge output (firstSig (ctx.verifies output)) second).sigs,
      sig ∈ first.sigs ∨ sig ∈ second.sigs := by
    intro sig member
    rw [carried] at member
    exact List.mem_append.mp (Choice.subset_of_select _ member)
  refine ⟨?_, ?_, fun sig member => ?_, fun sig member => ?_⟩
  · rw [carried]
    refine ⟨_, (List.take_sublist ..).trans List.filter_sublist,
      (accepts_select one (left.valid_append right)).imp fun _ _ both => both.2⟩
  · have limited := @Choice.length_select_le _ _ (firstSig (ctx.verifies output)) (first.sigs ++ second.sigs)
      output.keys output.required
    unfold PartialSig.merge
    dsimp only
    split_ifs
    · split
      · exact right.room
      · exact left.room
      · exact (Nat.add_sub_cancel' limited).le
    · exact (Nat.add_sub_cancel' limited).le
  · exact (inside sig member).elim (left.short sig) (right.short sig)
  · exact (inside sig member).elim (left.fresh sig) (right.fresh sig)

/-- `CombineMultisig` joins what is on the stacks. -/
theorem combineMultisig_operands {count : valtype} (left : ctx.PartlySigned output first)
    (right : ctx.PartlySigned output second) :
    ctx.crypto.combineMultisig ctx.txTo ctx.nIn output.script ([UInt8.ofNat output.required] :: output.keys ++ [count])
      first.operands second.operands = .ok (pushAll (PartialSig.signed
        ((firstSig (ctx.verifies output)).select output.required output.keys (first.sigs ++ second.sigs))
        (output.required - ((firstSig (ctx.verifies output)).select output.required output.keys
          (first.sigs ++ second.sigs)).length)).operands) := by
  have nonempty : ∀ {form : PartialSig}, ctx.PartlySigned output form → ∀ sig ∈ form.sigs, sig ≠ [] := by
    intro form partly sig member
    obtain ⟨key, -, accepted⟩ := partly.valid sig member
    exact accepted.ne_nil
  have same : (first.operands ++ second.operands).filter (· ≠ []) = (first.sigs ++ second.sigs).filter (· ≠ []) := by
    rw [List.filter_append, List.filter_append, PartialSig.filter_operands (nonempty left),
      PartialSig.filter_operands (nonempty right),
      List.filter_eq_self.mpr fun sig member => decide_eq_true (nonempty left sig member),
      List.filter_eq_self.mpr fun sig member => decide_eq_true (nonempty right sig member)]
  have merged : ctx.crypto.mergedSigs ctx.txTo ctx.nIn output.script output.required output.keys first.operands
      second.operands = (firstSig (ctx.verifies output)).select output.required output.keys
        (first.sigs ++ second.sigs) := by
    rw [Crypto.mergedSigs, same]
    exact Crypto.mergedSigs_eq fun sig _ => one sig
  rw [Crypto.combineMultisig_eq (output.enough.trans output.few), merged]

/-- Two partly signed scripts are joined. -/
theorem combines_merge (fits : Pushable output)
    (size : output.paidToHash = true → (ctx.crypto.hash160 output.script).length = 20)
    (left : ctx.PartlySigned output first) (right : ctx.PartlySigned output second) :
    ctx.Combines output residue first second (first.merge output (firstSig (ctx.verifies output)) second) := by
  refine ⟨partlySigned_merge one left right, ?_⟩
  have solved : solver output.script = _ := solver_multisig output.pos output.enough output.few output.sizes
  have joined := fun {count} => @combineMultisig_operands _ _ _ _ one count left right
  simp only [Crypto.combineSignatures, left.leftStack_eq fits, right.leftStack_eq fits]
  cases hashed : output.paidToHash with
  | false =>
    have bare : ∀ form : PartialSig, form.entries output = form.operands := by
      intro form
      cases form with
      | unsigned => rfl
      | signed sigs missing => rw [PartialSig.entries, hashed, if_neg Bool.false_ne_true, List.append_nil]
    rw [MultisigOutput.scriptPubKey, hashed, if_neg Bool.false_ne_true, solved, Crypto.combineStacks, bare, bare]
    dsimp only
    rw [joined, PartialSig.scriptSig, bare, PartialSig.merge_eq_signed fun also => by simp [hashed] at also]
  | true =>
    have redeemed : ∀ sigs missing, (PartialSig.signed sigs missing).entries output =
        (PartialSig.signed sigs missing).operands ++ [output.script] := by
      intro sigs missing
      rw [PartialSig.entries, hashed, if_pos rfl]
    have nonempty : output.script ≠ [] := nofun
    rw [MultisigOutput.scriptPubKey, hashed, if_pos rfl, solver_payToScriptHash (size hashed), Crypto.combineStacks]
    dsimp only
    cases first with
    | unsigned =>
      have empty : ([] : List valtype).getLastD [] = [] := rfl
      have kept : PartialSig.unsigned.merge output (firstSig (ctx.verifies output)) second = second := if_pos hashed
      rw [PartialSig.entries_unsigned, if_pos empty, kept, PartialSig.scriptSig]
    | signed sigs1 missing1 =>
      rw [redeemed, List.getLastD_concat, if_neg nonempty]
      cases second with
      | unsigned =>
        have empty : ([] : List valtype).getLastD [] = [] := rfl
        have kept : (PartialSig.signed sigs1 missing1).merge output (firstSig (ctx.verifies output))
            PartialSig.unsigned = PartialSig.signed sigs1 missing1 := if_pos hashed
        rw [PartialSig.entries_unsigned, if_pos empty, kept, PartialSig.scriptSig, redeemed]
      | signed sigs2 missing2 =>
        rw [redeemed, List.getLastD_concat, if_neg nonempty, List.dropLast_concat, List.dropLast_concat, solved,
          List.length_append, List.length_singleton, Crypto.combineStacks]
        dsimp only
        have both : output.paidToHash = true → PartialSig.signed sigs1 missing1 ≠ PartialSig.unsigned ∧
            PartialSig.signed sigs2 missing2 ≠ PartialSig.unsigned := fun _ => ⟨nofun, nofun⟩
        have last : pushAll [output.script] = pushData output.script := List.append_nil _
        rw [joined, PartialSig.merge_eq_signed both, PartialSig.scriptSig, redeemed, pushAll_append, last]
        rfl

/-- Joining partly signed scripts is commutative, associative and idempotent on the signatures; the first keys that
are covered have one of the given signatures, and with enough of them the joined script is accepted. -/
theorem combineSignatures_joins (residue : UInt8 → ScriptState → List valtype) (fits : Pushable output)
    (size : output.paidToHash = true → (ctx.crypto.hash160 output.script).length = 20)
    (a : ctx.PartlySigned output first) (b : ctx.PartlySigned output second) (c : ctx.PartlySigned output third) :
    (∃ ab ba, ctx.Combines output residue first second ab ∧ ctx.Combines output residue second first ba ∧
      ab.sigs = ba.sigs) ∧
    (∃ ab bc left right, ctx.Combines output residue first second ab ∧ ctx.Combines output residue ab third left ∧
      ctx.Combines output residue second third bc ∧ ctx.Combines output residue first bc right ∧
      left.sigs = right.sigs) ∧
    (∃ aa, ctx.Combines output residue first first aa ∧ aa.sigs = first.sigs) ∧
    ∃ ab, ctx.Combines output residue first second ab ∧
      List.Forall₂ (fun sig key => sig ∈ first.sigs ++ second.sigs ∧ ctx.Accepts output.script sig key) ab.sigs
        ((ctx.covered output (first.sigs ++ second.sigs)).take output.required) ∧
      (output.required ≤ (ctx.covered output (first.sigs ++ second.sigs)).length →
        ctx.verifyScript (ab.scriptSig output) (output.scriptPubKey ctx.crypto) = .ok ()) := by
  have joins := fun {first second} => @combines_merge ctx output first second residue one fits size
  have ab := joins a b
  have bc := joins b c
  have served := @accepts_select ctx output one _ (a.valid_append b) output.required
  refine ⟨⟨_, _, ab, joins b a, ?_⟩, ⟨_, _, _, _, ab, joins ab.1 c, bc, joins a bc.1, ?_⟩, ⟨_, joins a a, ?_⟩,
    _, ab, ?_, fun enough => ab.1.verifyScript fits size ?_⟩
  · rw [sigs_merge one a b, sigs_merge one b a, Choice.select_append_comm]
  · rw [sigs_merge one ab.1 c, sigs_merge one a bc.1, sigs_merge one a b, sigs_merge one b c,
      Choice.select_select_append, Choice.select_append_select, List.append_assoc]
  · have same : ∀ sig, sig ∈ first.sigs ++ first.sigs ↔ sig ∈ first.sigs := fun sig => by
      rw [List.mem_append, or_self]
    rw [sigs_merge one a a, Choice.select_congr _ same]
    exact a.select_sigs one
  · rw [sigs_merge one a b]
    exact served
  · rw [sigs_merge one a b, served.length_eq, List.length_take, min_eq_left enough]

end

end ScriptContext

namespace TestNet

/-- A key and a signature that belong together have the same tag. -/
def tagKey (tag : UInt8) : valtype := 2 :: List.replicate 32 tag

def tagSig (tag : UInt8) : valtype := [tag, 1]

def tagContext : ScriptContext where
  crypto := {
    sha1 := id
    sha256 := id
    ripemd160 := fun vch => (vch ++ List.replicate 20 0).take 20
    verify := fun vchPubKey _ vchSig => vchPubKey[1]? = vchSig[0]? }
  txTo := { vin := [], vout := [] }
  nIn := 0
  flags := SCRIPT_VERIFY_P2SH
  nHashType := 0

/-- Two of three keys have to sign. -/
def tagOutput : MultisigOutput where
  required := 2
  keys := [1, 2, 3].map tagKey
  paidToHash := true
  pos := by decide
  enough := by decide
  few := by decide
  sizes := by decide
  distinct := by decide

/-- One of sixteen keys has to sign. -/
def oneOfSixteen (paidToHash : Bool) : MultisigOutput where
  required := 1
  keys := [1, 2, 3, 4, 5, 6, 7, 8, 9, 10, 11, 12, 13, 14, 15, 16].map tagKey
  paidToHash := paidToHash
  pos := by decide
  enough := by decide
  few := by decide
  sizes := by decide
  distinct := by decide

end TestNet

namespace ScriptContext

open TestNet

theorem tagContext_oneKey {output : MultisigOutput}
    (tagged : ∀ key ∈ output.keys, ∀ other ∈ output.keys, key[1]? = other[1]? → key = other) (sig : valtype) :
    OneKey (tagContext.verifies output) output.keys sig := by
  intro key listed other also verified again
  have tag : ∀ pubkey, tagContext.verifies output sig pubkey = true → pubkey[1]? = sig.dropLast[0]? := by
    intro pubkey verified
    unfold verifies Crypto.checkSig at verified
    split at verified
    · cases verified
    · exact of_decide_eq_true verified
  exact tagged key listed other also ((tag key verified).trans (tag other again).symm)

theorem tagContext_accepts {scriptCode : CScript} {sig pubkey : valtype} (nonempty : sig ≠ [])
    (tagged : pubkey[1]? = sig.dropLast[0]?) : tagContext.Accepts scriptCode sig pubkey := by
  have loose : tagContext.fStrictEncodings = false := by decide
  have ends := List.getLast?_eq_some_getLast nonempty
  have verified : tagContext.crypto.checkSig sig pubkey scriptCode tagContext.txTo tagContext.nIn 0 = true := by
    rw [Crypto.checkSig, ends]
    exact decide_eq_true tagged
  rw [Accepts, checkSig, if_neg (by simp [loose])]
  exact congrArg Except.ok verified

theorem tagContext_signed {scriptCode : CScript} {keys : List valtype} {tags : List UInt8}
    (sublist : (tags.map tagKey).Sublist keys) : tagContext.Signed scriptCode keys (tags.map tagSig) := by
  refine ⟨tags.map tagKey, sublist, ?_⟩
  rw [List.forall₂_map_left_iff, List.forall₂_map_right_iff, List.forall₂_same]
  exact fun tag _ => tagContext_accepts nofun rfl

theorem tagContext_partlySigned {tags : List UInt8} {missing : ℕ}
    (sublist : (tags.map tagKey).Sublist tagOutput.keys) (room : tags.length + missing ≤ 2) :
    tagContext.PartlySigned tagOutput (.signed (tags.map tagSig) missing) := by
  refine ⟨tagContext_signed sublist, ?_, fun sig member => ?_, fun sig member => ?_⟩
  · rw [PartialSig.sigs, List.length_map]
    exact room
  · obtain ⟨tag, -, rfl⟩ := List.mem_map.mp member
    exact (by decide : 2 ≤ MAX_SCRIPT_ELEMENT_SIZE)
  · obtain ⟨tag, -, rfl⟩ := List.mem_map.mp member
    intro key
    have size := (tagOutput.sizes _ key).1
    simp [tagSig] at size

/-- The owners of the first and of the last key sign one after the other. -/
theorem combineSignatures_joins_twoOfThree : ∃ ab, tagContext.Combines tagOutput (fun _ state => state.stack)
    (.signed [tagSig 1] 1) (.signed [tagSig 3] 1) ab ∧
    tagContext.verifyScript (ab.scriptSig tagOutput) (tagOutput.scriptPubKey tagContext.crypto) = .ok () := by
  have first := @tagContext_partlySigned [1] 1 (by decide) (by decide)
  have last := @tagContext_partlySigned [3] 1 (by decide) (by decide)
  have one := @tagContext_oneKey tagOutput (by decide)
  obtain ⟨-, -, -, ab, combined, -, accepted⟩ := combineSignatures_joins one (fun _ state => state.stack)
    (fun _ => by decide) (fun _ => by decide) first last first
  refine ⟨ab, combined, accepted ?_⟩
  rw [covered_eq one (first.valid_append last)]
  decide

/-- The entry that is too long is lost. -/
theorem combineSignatures_long {crypto : Crypto} {residue : UInt8 → ScriptState → List valtype}
    {scriptPubKey : CScript} {txTo : CTransaction} {nIn : ℕ} {data : List valtype} {long : valtype}
    (short : ∀ vch ∈ data, vch.length ≤ MAX_SCRIPT_ELEMENT_SIZE) (large : MAX_SCRIPT_ELEMENT_SIZE < long.length)
    (few : data.length ≤ 1000) (small : (pushAll (data ++ [long])).length ≤ 10000) :
    crypto.combineSignatures residue scriptPubKey txTo nIn (pushAll (data ++ [long])) [] =
      crypto.combineStacks txTo nIn (data.length + 1) scriptPubKey (solver scriptPubKey) data [] := by
  have inside := length_le_of_mem_pushAll (List.mem_append_right data (List.mem_singleton_self long))
  have left := @leftStack_pushAll_long ⟨crypto, { vin := [], vout := [] }, 0, SCRIPT_VERIFY_STRICTENC, 0⟩ residue _ _
    short large (by omega) few small
  simp only [Crypto.combineSignatures, left]
  rfl

/-- A redeem script of 547 bytes is lost, and so is a signature of 521 bytes. -/
theorem combineSignatures_loses : (tagContext.Signed (oneOfSixteen true).script (oneOfSixteen true).keys [tagSig 1] ∧
      tagSig 1 ∉ (oneOfSixteen true).keys ∧
      (∀ sig, OneKey (tagContext.verifies (oneOfSixteen true)) (oneOfSixteen true).keys sig) ∧
      1 ≤ (tagContext.covered (oneOfSixteen true) [tagSig 1]).length ∧
      ∀ residue, ∃ result, tagContext.crypto.combineSignatures residue
        ((oneOfSixteen true).scriptPubKey tagContext.crypto) tagContext.txTo tagContext.nIn
        (PartialSig.scriptSig (oneOfSixteen true) (.signed [tagSig 1] 0))
        (PartialSig.scriptSig (oneOfSixteen true) .unsigned) = .ok result ∧
        tagContext.verifyScript result ((oneOfSixteen true).scriptPubKey tagContext.crypto) = .error (.error "")) ∧
    (tagContext.Signed (oneOfSixteen false).script (oneOfSixteen false).keys [List.replicate 521 1] ∧
      List.replicate 521 1 ∉ (oneOfSixteen false).keys ∧
      (∀ sig, OneKey (tagContext.verifies (oneOfSixteen false)) (oneOfSixteen false).keys sig) ∧
      ∀ residue, tagContext.crypto.combineSignatures residue
        ((oneOfSixteen false).scriptPubKey tagContext.crypto) tagContext.txTo tagContext.nIn
        (PartialSig.scriptSig (oneOfSixteen false) (.signed [List.replicate 521 1] 0))
        (PartialSig.scriptSig (oneOfSixteen false) .unsigned) = .ok (pushAll [[], []])) := by
  refine ⟨⟨@tagContext_signed _ _ [1] (by decide), by decide, tagContext_oneKey (by decide), ?_, fun residue => ?_⟩,
    ⟨⟨[tagKey 1], by decide, .cons (tagContext_accepts (by decide) (by decide)) .nil⟩, by decide,
      tagContext_oneKey (by decide), fun residue => ?_⟩⟩
  · have signed : tagContext.Signed (oneOfSixteen true).script (oneOfSixteen true).keys [tagSig 1] :=
      @tagContext_signed _ _ [1] (by decide)
    rw [covered_eq (tagContext_oneKey (by decide)) fun sig => signed.exists_key]
    decide
  · refine ⟨pushAll [[], tagSig 1], ?_, by decide⟩
    have pushed : PartialSig.scriptSig (oneOfSixteen true) (.signed [tagSig 1] 0) =
        pushAll ([[], tagSig 1] ++ [(oneOfSixteen true).script]) := rfl
    rw [pushed]
    apply (combineSignatures_long (by decide) (by decide +kernel) (by decide) (by decide +kernel)).trans
    decide
  · have pushed : ∀ sig, PartialSig.scriptSig (oneOfSixteen false) (.signed [sig] 0) =
        pushAll ([[]] ++ [sig]) := fun sig => rfl
    rw [pushed]
    apply (combineSignatures_long (by decide) (by decide +kernel) (by decide) (by decide +kernel)).trans
    decide +kernel

end ScriptContext

end BitCrystal
