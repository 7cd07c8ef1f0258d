import BitCrystal.Model.SignRawTransaction
import BitCrystal.Proofs.GetWork
import BitCrystal.Proofs.StackAccess
import BitCrystal.Proofs.TxCodec
import BitCrystal.Soundness.PartialSignatures
import BitCrystal.Soundness.StandardTemplates

/-! # The merge loop

Signatures do not cover the scripts of the inputs. So every input is merged and verified as if the others were not,
and the result of the loop is known input by input.
-/

namespace BitCrystal

open txnouttype Check CTransaction

namespace CTransaction

/-- The transaction without the scripts of its inputs. -/
def withoutScripts (tx : CTransaction) : CTransaction :=
  { tx with vin := tx.vin.map fun txin => { txin with scriptSig := [] } }

variable {tx other : CTransaction} {i j : ℕ} {scriptSig : CScript}

theorem vin_setScriptSig (j : ℕ) : (tx.setScriptSig i scriptSig).vin[j]? =
    tx.vin[j]?.map fun txin => if i = j then { txin with scriptSig } else txin := by
  simp only [setScriptSig, List.getElem?_modify, Option.map_eq_map]

theorem vin_setScriptSig_self : (tx.setScriptSig i scriptSig).vin[i]? =
    tx.vin[i]?.map fun txin => { txin with scriptSig } := by
  simp only [vin_setScriptSig, if_true]

theorem vin_setScriptSig_of_ne (apart : j ≠ i) : (tx.setScriptSig i scriptSig).vin[j]? = tx.vin[j]? := by
  simp only [vin_setScriptSig, if_neg apart.symm, Option.map_id_fun', id]

theorem withoutScripts_setScriptSig : (tx.setScriptSig i scriptSig).withoutScripts = tx.withoutScripts := by
  refine congrArg (fun vin => { tx with vin }) (List.ext_getElem? fun j => ?_)
  rw [List.getElem?_map, List.getElem?_map, vin_setScriptSig, Option.map_map]
  refine congrArg (Option.map · tx.vin[j]?) (funext fun txin => ?_)
  rw [Function.comp_apply]
  split_ifs <;> rfl

end CTransaction

section

variable {a b : CTransaction} (same : a.withoutScripts = b.withoutScripts)
include same

namespace Crypto

variable (crypto : Crypto)

end Crypto

end

namespace ScriptContext

variable {ctx : ScriptContext} {tx : CTransaction} (same : tx.withoutScripts = ctx.txTo.withoutScripts)
include same

end ScriptContext

/-- A script of the multisig form has a number and its keys, whether or not they fit. -/
theorem exists_of_multisig {script : CScript} (multisig : (solver script).typeRet = TX_MULTISIG) :
    ∃ m keys count, m ≤ 16 ∧ (solver script).vSolutionsRet = [UInt8.ofNat m] :: keys ++ [count] := by
  rcases solver_cases script with ⟨type, vSolutions, standard⟩ | miscounted | failed
  · rw [solver_of_standard standard] at multisig ⊢
    cases standard with
    | @multisig m n keys pushes least enough few => exact ⟨m, keys, _, enough.trans few, rfl⟩
    | _ => cases multisig
  · obtain ⟨m, n, keys, pushes, few, few', pushed, rfl, -⟩ := miscounted
    rw [solver_multisigForm few few' pushed]
    exact ⟨m, keys, _, few, rfl⟩
  · rw [failed] at multisig
    cases multisig

namespace Crypto

variable (crypto : Crypto) (txTo : CTransaction) (nIn : ℕ)

end Crypto

namespace ScriptContext

variable {ctx : ScriptContext} {scriptSig scriptPubKey : CScript}

end ScriptContext

/-! ## The loops -/

namespace CTransaction

/-- The script of an input, empty when there is no such input. -/
def scriptAt (tx : CTransaction) (i : ℕ) : CScript := (tx.vin[i]?.map CTxIn.scriptSig).getD []

variable {tx : CTransaction} {i j : ℕ} {scriptSig : CScript} {txin : CTxIn}

theorem scriptAt_setScriptSig (inside : i < tx.vin.length) : (tx.setScriptSig i scriptSig).scriptAt i = scriptSig := by
  rw [scriptAt, vin_setScriptSig_self, List.getElem?_eq_getElem inside]
  rfl

theorem scriptAt_setScriptSig_of_ne (apart : j ≠ i) : (tx.setScriptSig i scriptSig).scriptAt j = tx.scriptAt j := by
  rw [scriptAt, vin_setScriptSig_of_ne apart, scriptAt]

end CTransaction

namespace SigningJob

variable (node : SigningNode) (job : SigningJob)

/-- The script of the output that an input spends, if it is available. -/
def prevAt (i : ℕ) : Option CScript := job.tx.vin[i]?.bind fun txin => job.prevPubKey txin.prevout

/-- The script that the keys of the job make for an input. -/
def ownScript (i : ℕ) (prevPubKey : CScript) : CScript :=
  if job.signs i then signInto node.crypto job.keys prevPubKey job.tx i job.nHashType else []

/-- Scripts for an input are combined one after the other. -/
def combine (i : ℕ) (prevPubKey : CScript) : CScript → List CScript → Check CScript :=
  List.foldlM (node.crypto.combineSignatures node.residue prevPubKey job.tx i)

/-- The scripts of the variants for an input. -/
def scriptsAt (i : ℕ) : List CScript := job.txVariants.map fun txv => txv.scriptAt i

variable {node job} {i : ℕ} {prevPubKey : CScript} {mergedTx : CTransaction}

section

variable {fComplete : Bool} (inside : i < mergedTx.vin.length) (same : mergedTx.withoutScripts = job.tx.withoutScripts)
  (available : job.prevAt i = some prevPubKey)
include inside same available

end

variable (node job) in
/-- What is known when the first inputs have been merged. -/
structure MergedTo (k : ℕ) (state : CTransaction × Bool) : Prop where
  same : state.1.withoutScripts = job.tx.withoutScripts
  combined : ∀ i < k, ∀ prevPubKey, job.prevAt i = some prevPubKey →
    job.combine node i prevPubKey (job.ownScript node i prevPubKey) (job.scriptsAt i) = .ok (state.1.scriptAt i)
  complete : state.2 = true ↔ ∀ i < k, ∃ prevPubKey, job.prevAt i = some prevPubKey ∧
    (context node job.tx i).verifyScript (state.1.scriptAt i) prevPubKey = .ok ()

theorem MergedTo.unavailable {state : CTransaction × Bool} (merged : MergedTo node job i state)
    (unavailable : job.prevAt i = none) : MergedTo node job (i + 1) (state.1, false) where
  same := merged.same
  combined j before prevPubKey available := by
    rcases Nat.lt_succ_iff_lt_or_eq.mp before with before | rfl
    · exact merged.combined j before prevPubKey available
    · rw [unavailable] at available
      cases available
  complete := by
    refine iff_of_false Bool.false_ne_true fun all => ?_
    obtain ⟨prevPubKey, available, -⟩ := all i (Nat.lt_succ_self i)
    rw [unavailable] at available
    cases available

theorem MergedTo.combine {state : CTransaction × Bool} {result : CScript} {fVerified : Bool}
    (merged : MergedTo node job i state) (inside : i < state.1.vin.length) (available : job.prevAt i = some prevPubKey)
    (combined : job.combine node i prevPubKey (job.ownScript node i prevPubKey) (job.scriptsAt i) = .ok result)
    (right : fVerified = true ↔ (context node job.tx i).verifyScript result prevPubKey = .ok ()) :
    MergedTo node job (i + 1) (state.1.setScriptSig i result, state.2 && fVerified) where
  same := CTransaction.withoutScripts_setScriptSig.trans merged.same
  combined j before other there := by
    rcases Nat.lt_succ_iff_lt_or_eq.mp before with before | rfl
    · rw [CTransaction.scriptAt_setScriptSig_of_ne before.ne]
      exact merged.combined j before other there
    · rw [CTransaction.scriptAt_setScriptSig inside]
      rw [available] at there
      rw [← Option.some.inj there]
      exact combined
  complete := by
    have others : ∀ j < i, (state.1.setScriptSig i result).scriptAt j = state.1.scriptAt j :=
      fun j before => CTransaction.scriptAt_setScriptSig_of_ne before.ne
    rw [Bool.and_eq_true, merged.complete, right]
    constructor
    · rintro ⟨all, here⟩ j before
      rcases Nat.lt_succ_iff_lt_or_eq.mp before with before | rfl
      · rw [others j before]
        exact all j before
      · rw [CTransaction.scriptAt_setScriptSig inside]
        exact ⟨prevPubKey, available, here⟩
    · intro all
      constructor
      · intro j before
        rw [← others j before]
        exact all j (Nat.lt_succ_of_lt before)
      · obtain ⟨other, there, here⟩ := all i (Nat.lt_succ_self i)
        rw [CTransaction.scriptAt_setScriptSig inside] at here
        rw [available] at there
        rwa [Option.some.inj there]

end SigningJob

end BitCrystal
