import BitCrystal.Proofs.Multisig

/-! # Addresses that can be spent

The redeem script is the last push of a signature script. It has to be short enough for a push, and the
number of keys has to be a small number; `createmultisig` looks at neither.
-/

namespace BitCrystal

open Check CScript

namespace KeyArguments

variable {arguments : KeyArguments} {nRequired : ℤ} {keys : List String} {pubkeys : List valtype}

theorem length_of_mapM (gathered : keys.mapM arguments.gather = .ok pubkeys) : pubkeys.length = keys.length := by
  induction keys generalizing pubkeys with
  | nil =>
    cases gathered
    rfl
  | cons ks keys ih =>
    simp only [List.mapM_cons, bind_eq_ok, pure_eq_ok] at gathered
    obtain ⟨pubkey, -, rest, others, rfl⟩ := gathered
    rw [List.length_cons, List.length_cons, ih others]

private theorem gather_error {ks : String} {failure : Failure} (failed : arguments.gather ks = .error failure) :
    ∃ what, failure = .throws what := by
  unfold gather at failed
  split at failed
  · rcases bind_eq_error.mp failed with failed | ⟨_, -, failed⟩
    · exact ⟨_, (assertSome_eq_error.mp failed).2.symm⟩
    · exact ⟨_, (assertSome_eq_error.mp failed).2.symm⟩
  · cases failed
    exact ⟨_, rfl⟩
  · rcases bind_eq_error.mp failed with failed | ⟨_, -, failed⟩
    · exact ⟨_, (assertSome_eq_error.mp failed).2.symm⟩
    · exact ⟨_, (assertSome_eq_error.mp failed).2.symm⟩

private theorem mapM_gather_error {failure : Failure} (failed : keys.mapM arguments.gather = .error failure) :
    ∃ what, failure = .throws what := by
  induction keys with
  | nil => cases failed
  | cons ks keys ih =>
    rw [List.mapM_cons] at failed
    rcases bind_eq_error.mp failed with failed | ⟨_, -, failed⟩
    · exact gather_error failed
    · rcases bind_eq_error.mp failed with failed | ⟨_, -, failed⟩
      · exact ih failed
      · cases failed

/-- What is left when the checks have passed. -/
theorem createmultisig_eq (low : 1 ≤ nRequired) (enough : nRequired ≤ keys.length)
    (gathered : keys.mapM arguments.gather = .ok pubkeys) :
    arguments.createmultisig nRequired keys = setMultisig nRequired pubkeys := by
  rw [createmultisig, rejectIf, if_neg (not_lt.mpr low), rejectIf, if_neg (not_lt.mpr enough), gathered]
  rfl

/-- A request throws, or the checks have passed and the script is made. -/
theorem createmultisig_cases (arguments : KeyArguments) (nRequired : ℤ) (keys : List String) :
    (∃ what, arguments.createmultisig nRequired keys = .error (.throws what)) ∨
      1 ≤ nRequired ∧ nRequired ≤ keys.length ∧ ∃ pubkeys, keys.mapM arguments.gather = .ok pubkeys ∧
        arguments.createmultisig nRequired keys = setMultisig nRequired pubkeys := by
  unfold createmultisig
  rcases lt_or_ge nRequired 1 with few | low
  · rw [rejectIf, if_pos few]
    exact .inl ⟨_, rfl⟩
  rcases lt_or_ge (keys.length : ℤ) nRequired with short | enough
  · rw [rejectIf, if_neg (not_lt.mpr low), rejectIf, if_pos short]
    exact .inl ⟨_, rfl⟩
  rw [rejectIf, if_neg (not_lt.mpr low), rejectIf, if_neg (not_lt.mpr enough)]
  cases gathered : keys.mapM arguments.gather with
  | error failure =>
    obtain ⟨what, rfl⟩ := mapM_gather_error gathered
    exact .inl ⟨what, rfl⟩
  | ok pubkeys => exact .inr ⟨low, enough, pubkeys, rfl, rfl⟩

end KeyArguments

namespace ScriptContext

variable {ctx : ScriptContext}

/-- A signature script whose last push is too long fails. -/
theorem verifyScript_ne_ok {data : List valtype} {last : valtype} {scriptPubKey : CScript}
    (short : ∀ vch ∈ data, vch.length ≤ MAX_SCRIPT_ELEMENT_SIZE) (few : data.length ≤ 1000)
    (long : MAX_SCRIPT_ELEMENT_SIZE < last.length) :
    ctx.verifyScript (pushAll (data ++ [last])) scriptPubKey ≠ .ok () := by
  intro accepted
  simp only [verifyScript, redeemScript, acceptedStack, bind_eq_ok] at accepted
  obtain ⟨-, ⟨-, ⟨stack, evaluated, -⟩, -⟩, -⟩ := accepted
  simp only [evalScript, Metered.bind_outcome_eq_ok, Metered.free_outcome, rejectIf_eq_ok] at evaluated
  obtain ⟨-, small, after, run, -⟩ := evaluated
  have size := length_le_of_mem_pushAll (List.mem_append_right data (List.mem_singleton_self last))
  have pushes : pushAll (data ++ [last]) = pushAll data ++ (pushData last ++ []) := by
    rw [pushAll_append, pushAll_cons]
    rfl
  have room : ([] : List valtype).length + ([] : List valtype).length + data.length ≤ 1000 := by simpa using few
  have pushed := @runScript_pushAll ctx data (pushData last ++ [])
    ⟨[], [], [], pushAll (data ++ [last]), 0⟩ short rfl room
  rw [runScript_pushData_long long (by omega), ← pushes] at pushed
  have failed := congrArg Metered.outcome pushed
  rw [runScript] at failed
  rw [failed] at run
  cases run

end ScriptContext

namespace KeyArguments

variable {arguments : KeyArguments} {nRequired : ℤ} {keys : List String} {pubkeys : List valtype}

/-- Signatures for as many of the keys as are required, in order, spend the output for a script. -/
def Spendable (nRequired : ℤ) (pubkeys : List valtype) (script : CScript) : Prop :=
  ∀ (ctx : ScriptContext) (sigs : List valtype), ctx.flags &&& SCRIPT_VERIFY_P2SH ≠ 0 →
    (ctx.crypto.hash160 script).length = 20 → (sigs.length : ℤ) = nRequired →
    (∀ sig ∈ sigs, sig.length ≤ MAX_SCRIPT_ELEMENT_SIZE) →
    ctx.Signed (ScriptContext.signedCode script sigs) pubkeys sigs →
    ctx.verifyScript (pushAll ([] :: sigs ++ [script]))
      (payToScriptHash (ctx.crypto.hash160 script)) = .ok ()

/-- No assertion fails, and a script that is returned can be spent. -/
def HandsOutSpendable (arguments : KeyArguments) (nRequired : ℤ) (keys : List String) : Prop :=
  (∀ what, arguments.createmultisig nRequired keys ≠ .error (.assertion what)) ∧
    ∀ pubkeys script, keys.mapM arguments.gather = .ok pubkeys →
      arguments.createmultisig nRequired keys = .ok script → Spendable nRequired pubkeys script

/-- The library that accepts every signature. -/
def accepting : ScriptContext where
  crypto := { sha1 := id, sha256 := id, ripemd160 := fun _ => List.replicate 20 0, verify := fun _ _ _ => true }
  txTo := { vin := [], vout := [] }
  nIn := 0
  flags := SCRIPT_VERIFY_P2SH
  nHashType := 0

theorem accepting_signed {scriptCode : CScript} {required : ℕ} (enough : required ≤ pubkeys.length) :
    accepting.Signed scriptCode pubkeys (List.replicate required [1]) := by
  refine ⟨pubkeys.take required, List.take_sublist .., ?_⟩
  rw [List.forall₂_iff_get]
  refine ⟨by simp [enough], fun i left right => ?_⟩
  simp only [List.get_eq_getElem, List.getElem_replicate]
  rfl

/-- A script can be spent exactly if it is short enough for a push. -/
theorem spendable_iff {required : ℕ} (pos : 0 < required) (enough : required ≤ pubkeys.length)
    (few : pubkeys.length ≤ 16) : Spendable required pubkeys (multisig required pubkeys) ↔
      (multisig required pubkeys).length ≤ MAX_SCRIPT_ELEMENT_SIZE := by
  constructor
  · intro spendable
    by_contra long
    have short : ∀ vch ∈ [] :: List.replicate required ([1] : valtype), vch.length ≤ MAX_SCRIPT_ELEMENT_SIZE := by
      intro vch member
      rcases List.mem_cons.mp member with rfl | member
      · exact Nat.zero_le _
      · rw [(List.mem_replicate.mp member).2]
        decide
    have count : ([] :: List.replicate required ([1] : valtype)).length ≤ 1000 := by
      simp only [List.length_cons, List.length_replicate]
      omega
    refine ScriptContext.verifyScript_ne_ok short count (not_le.mp long) (spendable accepting
      (List.replicate required [1]) (by decide) rfl (by simp) ?_ (accepting_signed enough))
    exact fun sig member => short sig (List.mem_cons_of_mem _ member)
  · rintro fits ctx sigs - size count pushable signed
    obtain rfl : required = sigs.length := by omega
    exact ScriptContext.verifyScript_payToScriptHash pos few pushable fits size signed

/-- More keys than a small number can count fail an assertion. -/
theorem setMultisig_many (pos : 1 ≤ nRequired) (many : 16 < pubkeys.length) :
    ∃ what, setMultisig nRequired pubkeys = .error (.assertion what) := by
  have count : encodeOP_N pubkeys.length = .error (.assertion "n >= 0 && n <= 16") := by
    rw [encodeOP_N, rejectIf, if_pos (by omega)]
    rfl
  refine ⟨"n >= 0 && n <= 16", ?_⟩
  rcases lt_or_ge 16 nRequired with large | small
  · have required : encodeOP_N nRequired = .error (.assertion "n >= 0 && n <= 16") := by
      rw [encodeOP_N, rejectIf, if_pos (by omega)]
      rfl
    rw [setMultisig, required]
    rfl
  · obtain ⟨required, rfl⟩ : ∃ required : ℕ, nRequired = required := ⟨nRequired.toNat, by omega⟩
    rw [setMultisig, encodeOP_N_eq (by omega) (by omega), count]
    rfl

theorem length_multisig (required : ℕ) (pubkeys : List valtype) : (multisig required pubkeys).length =
    3 + (pubkeys.map fun pubkey => (pushData pubkey).length).sum := by
  have pushes : (pushAll pubkeys).length =
      (pubkeys.map fun pubkey => (pushData pubkey).length).sum := List.length_flatMap
  simp only [multisig, List.length_cons, List.length_append, List.length_nil, pushes]
  omega

/-- The addresses that are handed out can be spent exactly if the request has at most 16 keys and their pushes
leave room for three opcodes. -/
theorem handsOutSpendable_iff (arguments : KeyArguments) (nRequired : ℤ) (keys : List String) :
    HandsOutSpendable arguments nRequired keys ↔
      ∀ pubkeys, 1 ≤ nRequired → nRequired ≤ keys.length → keys.mapM arguments.gather = .ok pubkeys →
        keys.length ≤ 16 ∧
          3 + (pubkeys.map fun pubkey => (pushData pubkey).length).sum ≤ MAX_SCRIPT_ELEMENT_SIZE := by
  constructor
  · rintro ⟨noAssertion, spendable⟩ pubkeys low enough gathered
    have size := length_of_mapM gathered
    have created := createmultisig_eq low enough gathered
    obtain ⟨required, rfl⟩ : ∃ required : ℕ, nRequired = required := ⟨nRequired.toNat, by omega⟩
    rcases lt_or_ge 16 pubkeys.length with many | few
    · obtain ⟨what, failed⟩ := setMultisig_many low many
      exact absurd (created.trans failed) (noAssertion what)
    · have made := setMultisig_eq (by omega : 0 < required) (by omega) few
      have short := (spendable_iff (by omega) (by omega) few).mp (spendable pubkeys _ gathered (created.trans made))
      exact ⟨size ▸ few, length_multisig required pubkeys ▸ short⟩
  · intro fits
    rcases createmultisig_cases arguments nRequired keys with
      ⟨what, thrown⟩ | ⟨low, enough, pubkeys, gathered, created⟩
    · refine ⟨fun what failed => ?_, fun pubkeys script gathered made => ?_⟩
      · rw [thrown] at failed
        cases failed
      · rw [thrown] at made
        cases made
    · obtain ⟨few, short⟩ := fits pubkeys low enough gathered
      have size := length_of_mapM gathered
      obtain ⟨required, rfl⟩ : ∃ required : ℕ, nRequired = required := ⟨nRequired.toNat, by omega⟩
      rw [setMultisig_eq (by omega) (by omega) (by omega)] at created
      refine ⟨fun what failed => ?_, fun others script again made => ?_⟩
      · rw [created] at failed
        cases failed
      · rw [gathered, Except.ok.injEq] at again
        rw [created, Except.ok.injEq] at made
        subst again made
        exact (spendable_iff (by omega) (by omega) (by omega)).mpr (length_multisig required pubkeys ▸ short)

end KeyArguments

namespace TestNet

/-- A digit stands for an uncompressed key. -/
def digitKeys : KeyArguments where
  address _ := none
  getPubKey _ := none
  parseHex ks := ks.toList.head?.map fun digit => 4 :: List.replicate 64 (UInt8.ofNat digit.toNat)
  setPubKey vchPubKey := some vchPubKey

def eightDigits : List String := ["1", "2", "3", "4", "5", "6", "7", "8"]

def seventeenDigits : List String :=
  ["1", "2", "3", "4", "5", "6", "7", "8", "9", "a", "b", "c", "d", "e", "f", "g", "h"]

end TestNet

namespace KeyArguments

open TestNet

/-- The script of eight uncompressed keys has 531 bytes and cannot be spent with one signature; the number of
seventeen keys cannot be encoded. -/
theorem eightKeys_unspendable : (∃ pubkeys script, eightDigits.mapM digitKeys.gather = .ok pubkeys ∧ pubkeys.Nodup ∧
      digitKeys.createmultisig 1 eightDigits = .ok script ∧
      accepting.Signed (ScriptContext.signedCode script [[1]]) pubkeys [[1]] ∧
      accepting.verifyScript (pushAll [[], [1], script])
        (payToScriptHash (accepting.crypto.hash160 script)) = .error (.error "")) ∧
    digitKeys.createmultisig 1 seventeenDigits = .error (.assertion "n >= 0 && n <= 16") := by
  refine ⟨⟨_, _, rfl, ?_, rfl, ?_, ?_⟩, rfl⟩
  · decide
  · exact @accepting_signed _ _ 1 (by decide)
  · decide +kernel

end KeyArguments

end BitCrystal
