import BitCrystal.Proofs.SignRawTransaction

/-! # Signatures that are joined

Scripts for a multisig output are combined one after the other. What is left are the first signatures for the first
keys, of all that the scripts carry. For an output that is paid to a hash this is so under the redeem script on top of
the first script that has something on top.
-/

namespace BitCrystal

open txnouttype CScript

/-- A multisig script that an output is paid to, by itself or by its hash. -/
structure SpentMultisig (crypto : Crypto) (prevPubKey : CScript) where
  code : CScript
  hashed : Bool
  vSolutions : List valtype
  solved : solver code = ⟨true, TX_MULTISIG, vSolutions⟩
  size : hashed = true → (crypto.hash160 code).length = 20
  pays : prevPubKey = if hashed then payToScriptHash (crypto.hash160 code) else code

namespace SpentMultisig

variable {crypto : Crypto} {prevPubKey : CScript} (ctx : ScriptContext) (spent : SpentMultisig crypto prevPubKey)
  (offered present : List valtype)

def required : ℕ := ((spent.vSolutions.headD []).headD 0).toNat

def keys : List valtype := spent.vSolutions.tail.dropLast

/-- What a stack carries for the script: everything, or what is below the script when its hash is paid to. -/
def carried (stack : List valtype) : List valtype :=
  if spent.hashed then if stack.getLast? = some spent.code then stack.dropLast else [] else stack

/-- Among the entries there are valid signatures of as many keys as are required. -/
def Reached (entries : List valtype) : Prop :=
  ∃ sigs : List valtype, sigs.Sublist entries ∧ sigs.length = spent.required ∧ ctx.Signed spent.code spent.keys sigs

/-- For every key with a valid signature there still is one, unless there are enough. -/
def Kept (entries : List valtype) : Prop :=
  ∀ sig ∈ present, ∀ key ∈ spent.keys, ctx.Accepts spent.code sig key →
    spent.Reached ctx entries ∨ ∃ other ∈ entries, ctx.Accepts spent.code other key

/-- The test of `CombineMultisig`, which does not look at the encoding. -/
def tests (sig pubkey : valtype) : Bool := ctx.crypto.checkSig sig pubkey spent.code ctx.txTo ctx.nIn 0

/-- The keys that some signature passes the test for. -/
def signers : List valtype := spent.keys.filter fun key => ((firstSig (spent.tests ctx)).choose offered key).isSome

/-- The first of the signatures that pass the test for a key is accepted. -/
def FirstAccepted (key : valtype) : Prop :=
  ∃ sig, (firstSig (spent.tests ctx)).choose offered key = some sig ∧ ctx.Accepts spent.code sig key

/-- A signature passes the test for one key at most, and an element of a stack is not too long. -/
structure Regular : Prop where
  one : ∀ sig ∈ offered, OneKey (spent.tests ctx) spent.keys sig
  short : ∀ sig ∈ offered, sig.length ≤ MAX_SCRIPT_ELEMENT_SIZE

/-- Every key that counts has an accepted signature in front: those that reach the required number, or all that have an
accepted signature at all. -/
def InFront : Prop :=
  (spent.required ≤ (spent.signers ctx offered).length ∧
      ∀ key ∈ (spent.signers ctx offered).take spent.required, spent.FirstAccepted ctx offered key) ∨
    ∀ sig ∈ present, ∀ key ∈ spent.keys, ctx.Accepts spent.code sig key →
      key ∈ (spent.signers ctx offered).take spent.required ∧ spent.FirstAccepted ctx offered key

/-- The entries of the merged script. -/
def joined : List valtype :=
  let sigs := (firstSig (spent.tests ctx)).select spent.required spent.keys offered
  (PartialSig.signed sigs (spent.required - sigs.length)).operands

/-! ## The merged script -/

variable {ctx spent offered present}

theorem solution (spent : SpentMultisig crypto prevPubKey) : ∃ count, 0 < spent.required ∧ spent.required ≤ 16 ∧
    spent.vSolutions = [UInt8.ofNat spent.required] :: spent.keys ++ [count] ∧ spent.code ≠ [] := by
  have standard := solver_eq_true_iff.mp spent.solved
  obtain ⟨m, n, keys, pushes, least, enough, few, -, code, solutions⟩ : ∃ m n keys pushes, 1 ≤ m ∧ m ≤ n ∧ n ≤ 16 ∧
      keys.length = n ∧ spent.code = opN m :: (pushes ++ [opN n, OP_CHECKMULTISIG]) ∧
      spent.vSolutions = [UInt8.ofNat m] :: (keys ++ [[UInt8.ofNat n]]) := by
    generalize spent.code = code at standard
    generalize spent.vSolutions = vSolutions at standard
    cases standard with
    | @multisig m n keys pushes least enough few count => exact ⟨m, n, keys, pushes, least, enough, few, count, rfl, rfl⟩
  have numeral : ∀ n < 17, (UInt8.ofNat n).toNat = n := by decide
  have required : spent.required = m := by
    rw [SpentMultisig.required, solutions]
    exact numeral m (by omega)
  have listed : spent.keys = keys := by
    rw [SpentMultisig.keys, solutions, List.tail_cons, List.dropLast_concat]
  refine ⟨[UInt8.ofNat n], required ▸ least, required ▸ enough.trans few, ?_, ?_⟩
  · rw [required, listed]
    exact solutions
  · rw [code]
    nofun

theorem oneKey_nil : OneKey (spent.tests ctx) spent.keys [] := fun _ _ _ _ passes => nomatch passes

theorem ne_nil_of_select {sig : valtype}
    (selected : sig ∈ (firstSig (spent.tests ctx)).select spent.required spent.keys offered) : sig ≠ [] := by
  have served := @Choice.forall₂_select _ _ (firstSig (spent.tests ctx)) offered spent.keys spent.required
  obtain ⟨i, bound, rfl⟩ := List.getElem_of_mem selected
  exact (find?_allSigs.mp ((List.forall₂_iff_get.mp served).2 i bound (served.length_eq ▸ bound))).1.2

theorem mem_joined {entry : valtype} (listed : entry ∈ spent.joined ctx offered) :
    entry = [] ∨ entry ∈ (firstSig (spent.tests ctx)).select spent.required spent.keys offered := by
  rcases List.mem_append.mp listed with listed | listed
  · exact List.mem_cons.mp listed
  · exact .inl (List.mem_replicate.mp listed).2

theorem mem_joined_of_select {sig : valtype}
    (selected : sig ∈ (firstSig (spent.tests ctx)).select spent.required spent.keys offered) :
    sig ∈ spent.joined ctx offered :=
  List.mem_append_left _ (List.mem_cons_of_mem _ selected)

/-- Empty entries do not count. -/
theorem select_congr {fewer : List valtype} (same : ∀ sig ≠ [], sig ∈ fewer ↔ sig ∈ offered) :
    (firstSig (spent.tests ctx)).select spent.required spent.keys fewer =
      (firstSig (spent.tests ctx)).select spent.required spent.keys offered := by
  have nonempty : ∀ list : List valtype, (firstSig (spent.tests ctx)).select spent.required spent.keys
      (list.filter (· ≠ [])) = (firstSig (spent.tests ctx)).select spent.required spent.keys list := by
    refine fun list => Choice.select_of_subset _ (fun sig selected => ?_) List.filter_sublist.subset
    exact List.mem_filter.mpr ⟨Choice.subset_of_select _ selected, decide_eq_true (ne_nil_of_select selected)⟩
  rw [← nonempty fewer, ← nonempty offered]
  refine Choice.select_congr _ fun sig => ?_
  simp only [List.mem_filter, decide_eq_true_eq]
  exact and_congr_left fun filled => same sig filled

/-- Merged entries can stand for what they are merged from. -/
theorem joined_joined_append (rest : List valtype) :
    spent.joined ctx (spent.joined ctx offered ++ rest) = spent.joined ctx (offered ++ rest) := by
  have merged : (firstSig (spent.tests ctx)).select spent.required spent.keys (spent.joined ctx offered ++ rest) =
      (firstSig (spent.tests ctx)).select spent.required spent.keys (offered ++ rest) := by
    refine (select_congr fun sig nonempty => ?_).trans (Choice.select_select_append _)
    rw [List.mem_append, List.mem_append]
    exact or_congr_left ⟨fun listed => (mem_joined listed).resolve_left nonempty, mem_joined_of_select⟩
  rw [joined, merged]
  rfl

theorem Regular.mono {fewer : List valtype} (regular : spent.Regular ctx offered) (sub : fewer ⊆ offered) :
    spent.Regular ctx fewer :=
  ⟨fun sig member => regular.one sig (sub member), fun sig member => regular.short sig (sub member)⟩

theorem Regular.join {rest : List valtype} (regular : spent.Regular ctx (offered ++ rest)) :
    spent.Regular ctx (spent.joined ctx offered ++ rest) := by
  have source : ∀ sig ∈ spent.joined ctx offered ++ rest, sig = [] ∨ sig ∈ offered ++ rest := by
    intro sig member
    rcases List.mem_append.mp member with member | member
    · exact (mem_joined member).imp_right fun selected => List.mem_append_left _ (Choice.subset_of_select _ selected)
    · exact .inr (List.mem_append_right _ member)
  refine ⟨fun sig member => ?_, fun sig member => ?_⟩
  · rcases source sig member with rfl | member
    · exact oneKey_nil
    · exact regular.one sig member
  · rcases source sig member with rfl | member
    · exact Nat.zero_le _
    · exact regular.short sig member

/-- `CombineMultisig` joins the entries of both stacks. -/
theorem combineMultisig_eq {sigs1 sigs2 : List valtype} (regular : spent.Regular ctx (sigs1 ++ sigs2)) :
    ctx.crypto.combineMultisig ctx.txTo ctx.nIn spent.code spent.vSolutions sigs1 sigs2 =
      .ok (pushAll (spent.joined ctx (sigs1 ++ sigs2))) := by
  obtain ⟨count, -, few, solutions, -⟩ := spent.solution
  rw [solutions, Crypto.combineMultisig_eq few, Crypto.mergedSigs_eq regular.one]
  rfl

/-- The merged signatures are the first ones for the first signers. -/
theorem served : List.Forall₂ (fun sig key => (firstSig (spent.tests ctx)).choose offered key = some sig)
    ((firstSig (spent.tests ctx)).select spent.required spent.keys offered)
    ((spent.signers ctx offered).take spent.required) :=
  Choice.forall₂_select _

theorem exists_mem_joined {key : valtype} (first : key ∈ (spent.signers ctx offered).take spent.required)
    (accepted : spent.FirstAccepted ctx offered key) :
    ∃ sig ∈ spent.joined ctx offered, ctx.Accepts spent.code sig key := by
  obtain ⟨sig, chosen, accepts⟩ := accepted
  have served := @served _ _ ctx spent offered
  obtain ⟨i, bound, rfl⟩ := List.getElem_of_mem first
  have found := (List.forall₂_iff_get.mp served).2 i (served.length_eq ▸ bound) bound
  obtain rfl := Option.some.inj (found.symm.trans chosen)
  exact ⟨_, mem_joined_of_select (List.getElem_mem _), accepts⟩

/-- With the accepted signatures in front nothing that is needed is lost. -/
theorem InFront.kept (front : spent.InFront ctx offered present) : spent.Kept ctx present (spent.joined ctx offered) := by
  intro sig member key listed accepted
  rcases front with ⟨enough, all⟩ | each
  · left
    have served := @served _ _ ctx spent offered
    refine ⟨_, (List.sublist_cons_self _ _).trans (List.sublist_append_left _ _), ?_,
      (spent.signers ctx offered).take spent.required, (List.take_sublist ..).trans List.filter_sublist, ?_⟩
    · rw [served.length_eq, List.length_take, min_eq_left enough]
    · refine List.forall₂_iff_get.mpr ⟨served.length_eq, fun i left right => ?_⟩
      obtain ⟨sig, chosen, accepts⟩ := all _ (List.get_mem _ ⟨i, right⟩)
      have found := (List.forall₂_iff_get.mp served).2 i left right
      obtain rfl := Option.some.inj (found.symm.trans chosen)
      exact accepts
  · obtain ⟨first, accepts⟩ := each sig member key listed accepted
    exact .inr (exists_mem_joined first accepts)

/-- An accepted entry of the merged script is the first signature for its key. -/
theorem firstAccepted_of_mem {sig key : valtype} (regular : spent.Regular ctx offered) (listed : key ∈ spent.keys)
    (member : sig ∈ spent.joined ctx offered) (accepted : ctx.Accepts spent.code sig key) :
    key ∈ (spent.signers ctx offered).take spent.required ∧ spent.FirstAccepted ctx offered key := by
  have selected := (mem_joined member).resolve_left accepted.ne_nil
  have served := @served _ _ ctx spent offered
  obtain ⟨i, bound, rfl⟩ := List.getElem_of_mem selected
  have inside : i < ((spent.signers ctx offered).take spent.required).length := served.length_eq ▸ bound
  have chosen := (List.forall₂_iff_get.mp served).2 i bound inside
  have signer := List.get_mem _ ⟨i, inside⟩
  have known := List.mem_of_mem_filter (List.mem_of_mem_take signer)
  have same := regular.one _ (Choice.subset_of_select _ selected) _ known _ listed (find?_allSigs.mp chosen).2.1
    accepted.checkSig
  rw [same] at chosen signer
  exact ⟨signer, _, chosen, accepted⟩

/-- Otherwise something is lost. -/
theorem Kept.inFront (regular : spent.Regular ctx offered) (kept : spent.Kept ctx present (spent.joined ctx offered)) :
    spent.InFront ctx offered present := by
  by_cases reached : spent.Reached ctx (spent.joined ctx offered)
  · left
    obtain ⟨sigs, sublist, size, signers, sub, accepted⟩ := reached
    have served := @served _ _ ctx spent offered
    obtain ⟨length, accepts⟩ := List.forall₂_iff_get.mp accepted
    have nonempty : ∀ sig ∈ sigs, sig ≠ [] := by
      intro sig member
      obtain ⟨i, bound, rfl⟩ := List.getElem_of_mem member
      exact (accepts i bound (length ▸ bound)).ne_nil
    have selected : (spent.joined ctx offered).filter (· ≠ []) =
        (firstSig (spent.tests ctx)).select spent.required spent.keys offered :=
      @PartialSig.filter_operands (.signed ((firstSig (spent.tests ctx)).select spent.required spent.keys offered) _)
        fun sig member => ne_nil_of_select member
    have inside := sublist.filter (· ≠ [])
    rw [List.filter_eq_self.mpr fun sig member => decide_eq_true (nonempty sig member), selected] at inside
    have whole := inside.eq_of_length_le (Choice.length_select_le _ |>.trans size.ge)
    rw [← whole] at served
    have count := served.length_eq
    rw [List.length_take, size] at count
    refine ⟨min_eq_left_iff.mp count.symm, fun key first => ?_⟩
    obtain ⟨i, bound, rfl⟩ := List.getElem_of_mem first
    have here : i < sigs.length := served.length_eq ▸ bound
    have chosen := (List.forall₂_iff_get.mp served).2 i here bound
    have accepts := accepts i here (length ▸ here)
    have known := List.mem_of_mem_filter (List.mem_of_mem_take (List.getElem_mem bound))
    have taken := Choice.mem _ _ _ _ chosen
    have same := regular.one _ taken _ known _ (sub.subset (List.get_mem _ _)) (find?_allSigs.mp chosen).2.1
      accepts.checkSig
    exact ⟨_, chosen, by rw [← same] at accepts; exact accepts⟩
  · right
    intro sig member key listed accepted
    obtain ⟨other, there, accepts⟩ := (kept sig member key listed accepted).resolve_left reached
    exact firstAccepted_of_mem regular listed there accepts

end SpentMultisig

/-! ## Scripts that are merged one after the other -/

/-- The stack `CombineSignatures` works on. -/
def SigningNode.stackOf (node : SigningNode) (script : CScript) : List valtype :=
  ScriptContext.leftStack ⟨node.crypto, { vin := [], vout := [] }, 0, SCRIPT_VERIFY_STRICTENC, 0⟩ node.residue script

/-- The entries can be pushed again. -/
structure Fits (stack : List valtype) : Prop where
  short : ∀ vch ∈ stack, vch.length ≤ MAX_SCRIPT_ELEMENT_SIZE
  few : stack.length ≤ 1000
  small : (pushAll stack).length ≤ 10000

/-- Nothing is on top. -/
def Bare (stack : List valtype) : Prop := stack.getLastD [] = []

instance (stack : List valtype) : Decidable (Bare stack) := inferInstanceAs (Decidable (_ = _))

theorem Fits.of_few {stack : List valtype} (short : ∀ vch ∈ stack, vch.length ≤ MAX_SCRIPT_ELEMENT_SIZE)
    (few : stack.length ≤ 18) : Fits stack := by
  have limit : MAX_SCRIPT_ELEMENT_SIZE = 520 := rfl
  have size := length_pushAll_le short
  have bound := Nat.mul_le_mul_right (MAX_SCRIPT_ELEMENT_SIZE + 5) few
  exact ⟨short, by omega, by omega⟩

theorem Fits.stackOf_pushAll {stack : List valtype} (fits : Fits stack) (node : SigningNode) :
    node.stackOf (pushAll stack) = stack :=
  (ScriptContext.leftStack_eq (ScriptContext.evalScript_pushAll fits.short fits.few fits.small)).trans
    (List.reverse_reverse stack)

namespace SpentMultisig

variable {crypto : Crypto} {prevPubKey : CScript} {ctx : ScriptContext} {spent : SpentMultisig crypto prevPubKey}
  {offered : List valtype}

theorem length_joined_le : (spent.joined ctx offered).length ≤ 17 := by
  obtain ⟨-, -, few, -⟩ := spent.solution
  have limited := @Choice.length_select_le _ _ (firstSig (spent.tests ctx)) offered spent.keys spent.required
  simp only [joined, PartialSig.operands, List.length_append, List.length_cons, List.length_replicate]
  omega

theorem Regular.short_joined (regular : spent.Regular ctx offered) :
    ∀ vch ∈ spent.joined ctx offered, vch.length ≤ MAX_SCRIPT_ELEMENT_SIZE := by
  intro vch member
  rcases mem_joined member with rfl | selected
  · exact Nat.zero_le _
  · exact regular.short vch (Choice.subset_of_select _ selected)

end SpentMultisig

namespace SigningJob

variable {node : SigningNode} {job : SigningJob} {i : ℕ} {prevPubKey : CScript}
  {spent : SpentMultisig node.crypto prevPubKey} {start script : CScript} {rest : List CScript}

/-- Merging for a multisig script joins all the stacks. -/
theorem combine_plain (plain : spent.hashed = false)
    (regular : spent.Regular (context node job.tx i) (node.stackOf start ++ (script :: rest).flatMap node.stackOf)) :
    job.combine node i prevPubKey start (script :: rest) = .ok (pushAll
      (spent.joined (context node job.tx i) (node.stackOf start ++ (script :: rest).flatMap node.stackOf))) := by
  have pays : prevPubKey = spent.code := spent.pays.trans (if_neg (by rw [plain]; exact Bool.false_ne_true))
  have step : ∀ start script, spent.Regular (context node job.tx i) (node.stackOf start ++ node.stackOf script) →
      node.crypto.combineSignatures node.residue prevPubKey job.tx i start script = .ok (pushAll
        (spent.joined (context node job.tx i) (node.stackOf start ++ node.stackOf script))) := by
    intro start script regular
    have merged := SpentMultisig.combineMultisig_eq regular
    have solved := spent.solved
    rw [← pays] at merged solved
    simp only [Crypto.combineSignatures, solved, Crypto.combineStacks]
    exact merged
  induction rest generalizing start script with
  | nil =>
    rw [List.flatMap_singleton] at regular ⊢
    rw [combine, List.foldlM_cons, step _ _ regular]
    rfl
  | cons next rest ih =>
    have whole : node.stackOf start ++ (script :: next :: rest).flatMap node.stackOf =
        node.stackOf start ++ node.stackOf script ++ (next :: rest).flatMap node.stackOf := by
      rw [List.flatMap_cons, List.append_assoc]
    rw [whole] at regular ⊢
    have first := regular.mono (List.subset_append_left _ _)
    have fits : Fits (spent.joined (context node job.tx i) (node.stackOf start ++ node.stackOf script)) :=
      Fits.of_few first.short_joined (SpentMultisig.length_joined_le.trans (Nat.le_succ 17))
    have left := fits.stackOf_pushAll node
    have merged := @ih (pushAll (spent.joined (context node job.tx i)
      (node.stackOf start ++ node.stackOf script))) next (by rw [left]; exact regular.join)
    rw [left, SpentMultisig.joined_joined_append] at merged
    rw [combine, List.foldlM_cons, step _ _ first]
    exact merged

variable (node) in
/-- The entries below the tops of the stacks that have one. -/
def under (scripts : List CScript) : List valtype :=
  scripts.flatMap fun script => if Bare (node.stackOf script) then [] else (node.stackOf script).dropLast

theorem under_of_bare {scripts : List CScript} (bare : ∀ script ∈ scripts, Bare (node.stackOf script)) :
    under node scripts = [] :=
  List.flatMap_eq_nil_iff.mpr fun script member => if_pos (bare script member)

theorem getLastD_concat_ne_nil (body : List valtype) (spent : SpentMultisig node.crypto prevPubKey) :
    ¬ Bare (body ++ [spent.code]) := by
  obtain ⟨-, -, -, -, nonempty⟩ := spent.solution
  rwa [Bare, List.getLastD_concat]

/-- Under a script that is no hash one of the stacks stays, or signatures of both are merged. -/
theorem exists_combineStacks_entries {spk : CScript} (single : (solver spk).typeRet ≠ TX_SCRIPTHASH)
    (sigs1 sigs2 : List valtype) (rounds : ℕ) : ∃ out,
    node.crypto.combineStacks job.tx i (rounds + 1) spk (solver spk) sigs1 sigs2 = .ok (pushAll out) ∧
      (out = sigs1 ∨ out = sigs2 ∨ out.length ≤ 17 ∧ ∀ vch ∈ out, vch = [] ∨ vch ∈ sigs1 ++ sigs2) := by
  rw [Crypto.combineStacks]
  cases type : (solver spk).typeRet with
  | TX_NONSTANDARD =>
    refine ⟨_, rfl, ?_⟩
    split_ifs
    · exact .inl rfl
    · exact .inr (.inl rfl)
  | TX_SCRIPTHASH => exact absurd type single
  | TX_MULTISIG =>
    obtain ⟨m, keys, count, few, found⟩ := exists_of_multisig type
    obtain ⟨fewer, source⟩ := node.crypto.mergedSigs_spec job.tx i m spk keys sigs1 sigs2
    rw [found]
    refine ⟨_, Crypto.combineMultisig_eq few, .inr (.inr ⟨?_, fun vch member => ?_⟩)⟩
    · simp only [PartialSig.operands, List.length_append, List.length_cons, List.length_replicate]
      omega
    · rcases List.mem_append.mp member with member | member
      · exact (List.mem_cons.mp member).imp_right fun merged => source merged
      · exact .inl (List.mem_replicate.mp member).2
  | _ =>
    refine ⟨_, rfl, ?_⟩
    split_ifs
    · exact .inr (.inl rfl)
    · exact .inl rfl

section

variable (hashed : spent.hashed = true) {body : List valtype}
include hashed

theorem solver_prevPubKey :
    solver prevPubKey = ⟨true, TX_SCRIPTHASH, [node.crypto.hash160 spent.code]⟩ := by
  have solved := solver_payToScriptHash (spent.size hashed)
  rwa [← spent.pays.trans (if_pos hashed)] at solved

theorem combineSignatures_bare (bare : Bare (node.stackOf start)) :
    node.crypto.combineSignatures node.residue prevPubKey job.tx i start script =
      .ok (pushAll (node.stackOf script)) := by
  simp only [Crypto.combineSignatures, solver_prevPubKey hashed, Crypto.combineStacks]
  exact if_pos bare

theorem combineSignatures_first (notBare : ¬ Bare (node.stackOf start)) (bare : Bare (node.stackOf script)) :
    node.crypto.combineSignatures node.residue prevPubKey job.tx i start script =
      .ok (pushAll (node.stackOf start)) := by
  simp only [Crypto.combineSignatures, solver_prevPubKey hashed, Crypto.combineStacks]
  exact (if_neg notBare).trans (if_pos bare)

/-- With something on top of both stacks the rest is combined for the script on top of the first. -/
theorem combineSignatures_under {spk out : List UInt8} (top : node.stackOf start = body ++ [spk]) (pushed : spk ≠ [])
    (notBare : ¬ Bare (node.stackOf script)) (combined : node.crypto.combineStacks job.tx i (body.length + 1) spk (solver spk)
      body (node.stackOf script).dropLast = .ok out) :
    node.crypto.combineSignatures node.residue prevPubKey job.tx i start script = .ok (out ++ pushData spk) := by
  have first : ¬ Bare (node.stackOf start) := by rwa [top, Bare, List.getLastD_concat]
  simp only [Crypto.combineSignatures, solver_prevPubKey hashed, Crypto.combineStacks]
  refine (if_neg first).trans ((if_neg notBare).trans ?_)
  change (do
    let result ← node.crypto.combineStacks job.tx i (node.stackOf start).length ((node.stackOf start).getLastD [])
      (solver ((node.stackOf start).getLastD [])) (node.stackOf start).dropLast (node.stackOf script).dropLast
    return result ++ pushData ((node.stackOf start).getLastD [])) = _
  rw [top, List.getLastD_concat, List.dropLast_concat, List.length_append, List.length_singleton, combined]
  rfl

theorem combineSignatures_join (top : node.stackOf start = body ++ [spent.code]) (notBare : ¬ Bare (node.stackOf script))
    (regular : spent.Regular (context node job.tx i) (body ++ (node.stackOf script).dropLast)) :
    node.crypto.combineSignatures node.residue prevPubKey job.tx i start script = .ok (pushAll
      (spent.joined (context node job.tx i) (body ++ (node.stackOf script).dropLast) ++ [spent.code])) := by
  obtain ⟨-, -, -, -, pushed⟩ := spent.solution
  have last : pushAll [spent.code] = pushData spent.code := List.append_nil _
  rw [pushAll_append, last]
  have merged := SpentMultisig.combineMultisig_eq regular
  apply combineSignatures_under hashed top pushed notBare
  simp only [spent.solved, Crypto.combineStacks]
  exact merged

/-- Without a top the scripts take each other's place. -/
theorem combine_bare {scripts : List CScript} (bare : Bare (node.stackOf start))
    (others : ∀ script ∈ scripts, Bare (node.stackOf script) ∧ Fits (node.stackOf script)) :
    ∃ result, job.combine node i prevPubKey start scripts = .ok result ∧ Bare (node.stackOf result) := by
  induction scripts generalizing start with
  | nil => exact ⟨start, rfl, bare⟩
  | cons script scripts ih =>
    obtain ⟨here, fits⟩ := others script List.mem_cons_self
    have next : Bare (node.stackOf (pushAll (node.stackOf script))) := by rwa [fits.stackOf_pushAll]
    rw [combine, List.foldlM_cons, combineSignatures_bare hashed bare]
    exact ih next fun other member => others other (List.mem_cons_of_mem _ member)

/-- What has the script on top stays when the others have nothing on top. -/
theorem combine_keeps {scripts : List CScript} (top : node.stackOf start = body ++ [spent.code])
    (fits : Fits (body ++ [spent.code])) (others : ∀ script ∈ scripts, Bare (node.stackOf script)) :
    ∃ result, job.combine node i prevPubKey start scripts = .ok result ∧
      node.stackOf result = body ++ [spent.code] := by
  induction scripts generalizing start with
  | nil => exact ⟨start, rfl, top⟩
  | cons script scripts ih =>
    have first : ¬ Bare (node.stackOf start) := top ▸ getLastD_concat_ne_nil body spent
    rw [combine, List.foldlM_cons, combineSignatures_first hashed first (others script List.mem_cons_self), top]
    exact ih (fits.stackOf_pushAll node) fun other member => others other (List.mem_cons_of_mem _ member)

/-- Otherwise the entries below the tops are joined. -/
theorem combine_joins {scripts : List CScript} (top : node.stackOf start = body ++ [spent.code])
    (fits : Fits (body ++ [spent.code])) (others : ¬ ∀ script ∈ scripts, Bare (node.stackOf script))
    (regular : spent.Regular (context node job.tx i) (body ++ under node scripts)) :
    ∃ result, job.combine node i prevPubKey start scripts = .ok result ∧
      node.stackOf result = spent.joined (context node job.tx i) (body ++ under node scripts) ++ [spent.code] := by
  induction scripts generalizing start body with
  | nil => exact absurd (fun _ member => nomatch member) others
  | cons script scripts ih =>
    rw [under, List.flatMap_cons, ← under] at regular ⊢
    by_cases bare : Bare (node.stackOf script)
    · have first : ¬ Bare (node.stackOf start) := top ▸ getLastD_concat_ne_nil body spent
      rw [if_pos bare, List.nil_append] at regular ⊢
      rw [combine, List.foldlM_cons, combineSignatures_first hashed first bare, top]
      exact ih (fits.stackOf_pushAll node) fits (fun all => others (List.forall_mem_cons.mpr ⟨bare, all⟩)) regular
    · rw [if_neg bare, ← List.append_assoc] at regular ⊢
      have here := regular.mono (List.subset_append_left _ _)
      have code : spent.code.length ≤ MAX_SCRIPT_ELEMENT_SIZE := fits.short _ (List.mem_append_right _ List.mem_cons_self)
      have next : Fits (spent.joined (context node job.tx i) (body ++ (node.stackOf script).dropLast) ++ [spent.code]) := by
        refine Fits.of_few (fun vch member => ?_) ?_
        · rcases List.mem_append.mp member with member | member
          · exact here.short_joined vch member
          · rwa [List.mem_singleton.mp member]
        · rw [List.length_append, List.length_singleton]
          exact Nat.succ_le_succ SpentMultisig.length_joined_le
      rw [combine, List.foldlM_cons, combineSignatures_join hashed top bare here]
      by_cases rest : ∀ script ∈ scripts, Bare (node.stackOf script)
      · rw [under_of_bare rest, List.append_nil]
        exact combine_keeps hashed (next.stackOf_pushAll node) next rest
      · rw [← @SpentMultisig.joined_joined_append _ _ _ _ (body ++ (node.stackOf script).dropLast)]
        exact ih (next.stackOf_pushAll node) next rest regular.join

/-- What is on top of the first script with something on top stays there. -/
theorem combine_topped {spk : List UInt8} {scripts : List CScript} (pushed : spk ≠ [])
    (single : (solver spk).typeRet ≠ TX_SCRIPTHASH) (top : node.stackOf start = body ++ [spk]) (fits : Fits (body ++ [spk]))
    (others : ∀ script ∈ scripts, Fits ((node.stackOf script).dropLast ++ [spk])) :
    ∃ result left, job.combine node i prevPubKey start scripts = .ok result ∧ node.stackOf result = left ++ [spk] := by
  induction scripts generalizing start body with
  | nil => exact ⟨start, body, rfl, top⟩
  | cons script scripts ih =>
    obtain ⟨here, others⟩ := List.forall_mem_cons.mp others
    rw [combine, List.foldlM_cons]
    by_cases bare : Bare (node.stackOf script)
    · have first : ¬ Bare (node.stackOf start) := by rwa [top, Bare, List.getLastD_concat]
      rw [combineSignatures_first hashed first bare, top]
      exact ih (fits.stackOf_pushAll node) fits others
    · obtain ⟨out, combined, entries⟩ :=
        @exists_combineStacks_entries node job i spk single body (node.stackOf script).dropLast body.length
      have next : Fits (out ++ [spk]) := by
        rcases entries with rfl | rfl | ⟨few, source⟩
        · exact fits
        · exact here
        · refine Fits.of_few (fun vch member => ?_) ?_
          · rcases List.mem_append.mp member with member | member
            · rcases source vch member with rfl | member
              · exact Nat.zero_le _
              · rcases List.mem_append.mp member with member | member
                · exact fits.short vch (List.mem_append_left _ member)
                · exact here.short vch (List.mem_append_left _ member)
            · exact fits.short vch (List.mem_append_right _ member)
          · rw [List.length_append, List.length_singleton]
            exact Nat.succ_le_succ few
      have last : pushAll [spk] = pushData spk := List.append_nil _
      rw [combineSignatures_under hashed top pushed bare combined, ← last, ← pushAll_append]
      exact ih (next.stackOf_pushAll node) next others

end

end SigningJob

end BitCrystal
