import BitCrystal.Model.Multisig
import Mathlib.Logic.Equiv.List
import Mathlib.Tactic.DeriveEncodable

/-! # Documents that are signed

The loop takes a key when the address at its position has signed or nothing is at that position. As long
as no address is taken that has signed already, and not more than are missing, the lists and the counter
of a document stay in step.
-/

namespace BitCrystal

namespace KeySelection

variable {getPrivKey : String → Option String}

/-- What the loop has collected after the given addresses. -/
def after (selection : KeySelection) (getPrivKey : String → Option String) (addresses : List String) :
    KeySelection where
  privKeys := selection.privKeys ++ addresses.filterMap getPrivKey
  signedAddresses := selection.signedAddresses ++ addresses
  outstandingPrivKeys := selection.outstandingPrivKeys - addresses.length
  isSetted := selection.isSetted + addresses.length

theorem after_nil (selection : KeySelection) : selection.after getPrivKey [] = selection := by
  simp [after]

theorem after_cons (selection : KeySelection) (address : String) (rest : List String) :
    selection.after getPrivKey (address :: rest) = (selection.after getPrivKey [address]).after getPrivKey rest := by
  simp only [after, List.append_assoc, List.singleton_append, ← List.filterMap_append, List.length_cons,
    List.length_nil, KeySelection.mk.injEq, true_and]
  constructor <;> omega

end KeySelection

namespace MultisigDocument

variable {codec : DocumentCodec} {party : MultisigParty} {getPrivKey : String → Option String}

/-- The loop takes the key of the address at position `i`, given the addresses that had signed before. -/
def takes (getPrivKey : String → Option String) (signed : List String) (entry : String × ℕ) : Bool :=
  (getPrivKey entry.1).isSome && (signed.length ≤ entry.2 || signed[entry.2]? = some entry.1)

/-- The addresses whose keys are taken from position `i` on, without a limit. -/
def takenFrom (getPrivKey : String → Option String) (signed : List String) (i : ℕ) (addresses : List String) :
    List String :=
  ((addresses.zipIdx i).filter (takes getPrivKey signed)).map Prod.fst

/-- The first addresses of a list. -/
def limited (limit : Option ℕ) (addresses : List String) : List String := limit.elim addresses fun n => addresses.take n

/-- The addresses whose keys a call uses. -/
def taken (document : MultisigDocument) (getPrivKey : String → Option String) (amount : Option ℤ) : List String :=
  limited (keyLimit amount document.addresses.length)
    (takenFrom getPrivKey document.signedAddresses 0 document.addresses)

theorem takenFrom_cons (signed : List String) (i : ℕ) (address : String) (rest : List String) :
    takenFrom getPrivKey signed i (address :: rest) =
      if takes getPrivKey signed (address, i) then address :: takenFrom getPrivKey signed (i + 1) rest
      else takenFrom getPrivKey signed (i + 1) rest := by
  rw [takenFrom, List.zipIdx_cons, List.filter_cons]
  split_ifs
  · rw [List.map_cons, takenFrom]
  · rw [takenFrom]

/-- One round of the loop. -/
theorem collectKeys_cons (signed : List String) (limit : Option ℕ) (i : ℕ) (address : String) (rest : List String)
    (selection : KeySelection) :
    collectKeys getPrivKey signed limit i (address :: rest) selection =
      let next := if takes getPrivKey signed (address, i) then selection.after getPrivKey [address] else selection
      if limit.any (· ≤ next.isSetted) then next
      else collectKeys getPrivKey signed limit (i + 1) rest next := by
  rw [collectKeys, takes]
  cases held : getPrivKey address with
  | none => rfl
  | some privKey =>
    by_cases apart : i < signed.length ∧ signed[i]? ≠ some address
    · have skipped : (signed.length ≤ i || signed[i]? = some address) = false := by simpa using apart
      simp only [if_pos apart, skipped, Bool.and_false, Bool.false_eq_true, if_false]
    · have used : (signed.length ≤ i || signed[i]? = some address) = true := by
        rw [not_and_or, not_lt, not_not] at apart
        simpa using apart
      simp only [if_neg apart, used, Option.isSome_some, Bool.and_true, if_true, KeySelection.after,
        List.filterMap_cons, held, List.filterMap_nil, List.length_singleton, Nat.cast_one]

/-- The loop collects the keys of the addresses that it takes, up to the limit. -/
theorem collectKeys_eq (signed : List String) (limit : Option ℕ) (i : ℕ) (addresses : List String)
    (selection : KeySelection) (room : ∀ n ∈ limit, selection.isSetted < n) :
    collectKeys getPrivKey signed limit i addresses selection = selection.after getPrivKey
      (limited (limit.map (· - selection.isSetted)) (takenFrom getPrivKey signed i addresses)) := by
  induction addresses generalizing i selection with
  | nil => cases limit <;> simp [collectKeys, takenFrom, limited, KeySelection.after_nil]
  | cons address rest ih =>
    rw [collectKeys_cons, takenFrom_cons]
    split_ifs with took
    · cases limit with
      | none =>
        dsimp only [Option.any_none]
        rw [if_neg nofun, ih _ _ nofun]
        exact (selection.after_cons address _).symm
      | some n =>
        have low := room n rfl
        have more : (selection.after getPrivKey [address]).isSetted = selection.isSetted + 1 := rfl
        dsimp only [Option.any_some]
        by_cases full : n ≤ selection.isSetted + 1
        · have one : n - selection.isSetted = 1 := by omega
          rw [if_pos (by simpa [more] using full), limited, Option.map_some, one]
          rfl
        · obtain ⟨left, size⟩ : ∃ left, n - selection.isSetted = left + 1 := ⟨n - selection.isSetted - 1, by omega⟩
          have next : n - (selection.after getPrivKey [address]).isSetted = left := by omega
          rw [if_neg (by simpa [more] using full), ih _ _ (by rintro _ ⟨⟩; omega)]
          simp only [limited, Option.map_some, size, next, Option.elim_some, List.take_succ_cons]
          exact (selection.after_cons address _).symm
    · have open' : limit.any (· ≤ selection.isSetted) = false := by
        cases limit with
        | none => rfl
        | some n => simpa using room n rfl
      dsimp only
      rw [open', if_neg nofun, ih _ _ room]

/-- The document after the keys of some addresses have been used. -/
structure SignedBy (document next : MultisigDocument) (used : List String) : Prop where
  addresses : next.addresses = document.addresses
  nRequired : next.nRequired = document.nRequired
  signed : next.signedAddresses = document.signedAddresses ++ used
  outstanding : next.outstandingPrivKeys = document.outstandingPrivKeys - used.length

variable {amount : Option ℤ} {document : MultisigDocument}

/-- A call passes the keys of the addresses that it takes, and notes these addresses. -/
theorem signrawtransaction_some {z z' : String} (found : codec.decode z = some document)
    (ran : MultisigDocument.signrawtransaction codec party amount z = some z') :
    ∃ next, codec.decode z' = some next ∧ SignedBy document next (document.taken party.getPrivKey amount) ∧
      ∃ ret, party.signrawtransaction document.hex document.signdata
        ((document.taken party.getPrivKey amount).filterMap party.getPrivKey) = some ret ∧ next.hex = ret.1 := by
  rw [MultisigDocument.signrawtransaction, found, Option.bind_eq_bind, Option.bind_some] at ran
  split_ifs at ran
  have positive : ∀ n ∈ keyLimit amount document.addresses.length, 0 < n := by
    intro n member
    rw [keyLimit] at member
    split_ifs at member with limits
    · cases member
      exact limits.2
    · cases member
  have whole : (keyLimit amount document.addresses.length).map (· - 0) = keyLimit amount document.addresses.length := by
    simp
  rw [collectKeys_eq _ _ _ _ _ positive, whole] at ran
  obtain ⟨ret, signed, written⟩ := Option.bind_eq_some_iff.mp ran
  cases written
  exact ⟨_, codec.decode_encode _, ⟨rfl, rfl, rfl, rfl⟩, ret, signed, rfl⟩

/-- The lists and the counter of a document are in step with the addresses whose keys have been used. -/
structure Consistent (document : MultisigDocument) (used : List String) : Prop where
  distinct : document.signedAddresses.Nodup
  listed : document.signedAddresses ⊆ document.addresses
  signed : ∀ address, address ∈ document.signedAddresses ↔ address ∈ used
  outstanding : document.outstandingPrivKeys = max 0 (document.nRequired - document.signedAddresses.length)

/-- A call takes addresses that have not signed, each once, and not more than are missing. -/
structure Fits (document : MultisigDocument) (getPrivKey : String → Option String) (amount : Option ℤ) : Prop where
  fresh : ∀ address ∈ document.taken getPrivKey amount, address ∉ document.signedAddresses
  once : (document.taken getPrivKey amount).Nodup
  missing : (document.signedAddresses.length + (document.taken getPrivKey amount).length : ℤ) ≤ document.nRequired

theorem mem_of_mem_limited {limit : Option ℕ} {addresses : List String} {address : String}
    (member : address ∈ limited limit addresses) : address ∈ addresses := by
  cases limit with
  | none => exact member
  | some n => exact List.mem_of_mem_take member

/-- Only listed addresses whose key the wallet has are taken. -/
theorem of_mem_taken {address : String} (member : address ∈ document.taken getPrivKey amount) :
    address ∈ document.addresses ∧ getPrivKey address ≠ none := by
  obtain ⟨⟨_, i⟩, kept, rfl⟩ := List.mem_map.mp (mem_of_mem_limited member)
  obtain ⟨listed, took⟩ := List.mem_filter.mp kept
  refine ⟨List.mem_of_getElem? (List.mk_mem_zipIdx_iff_getElem?.mp listed), ?_⟩
  exact Option.isSome_iff_ne_none.mp ((Bool.and_eq_true ..).mp took).1

/-- After a call the document is in step exactly when the call fits. -/
theorem Consistent.next_iff {next : MultisigDocument} {used : List String} (consistent : Consistent document used)
    (missing : (document.signedAddresses.length : ℤ) ≤ document.nRequired)
    (step : SignedBy document next (document.taken getPrivKey amount)) :
    Consistent next (used ++ document.taken getPrivKey amount) ↔ Fits document getPrivKey amount := by
  have outstanding := consistent.outstanding
  constructor
  · intro after
    have distinct := after.distinct
    rw [step.signed] at distinct
    obtain ⟨-, once, apart⟩ := List.nodup_append.mp distinct
    have counted := after.outstanding
    rw [step.outstanding, step.signed, step.nRequired, List.length_append] at counted
    refine ⟨fun address member signed => apart address signed address member rfl, once, ?_⟩
    push_cast at counted
    omega
  · intro fits
    refine ⟨?_, ?_, fun address => ?_, ?_⟩
    · rw [step.signed]
      refine List.nodup_append.mpr ⟨consistent.distinct, fits.once, fun address signed other member same => ?_⟩
      exact fits.fresh other member (same ▸ signed)
    · rw [step.signed, step.addresses]
      exact List.append_subset.mpr ⟨consistent.listed, fun address member => (of_mem_taken member).1⟩
    · rw [step.signed, List.mem_append, List.mem_append, consistent.signed]
    · have room := fits.missing
      rw [step.outstanding, step.signed, step.nRequired, List.length_append]
      push_cast
      omega

/-- A call that fits takes nothing when all keys of the wallet have signed. -/
theorem Fits.taken_eq_nil (fits : Fits document getPrivKey amount)
    (idle : ∀ address ∈ document.addresses, getPrivKey address ≠ none → address ∈ document.signedAddresses) :
    document.taken getPrivKey amount = [] := by
  apply List.eq_nil_iff_forall_not_mem.mpr
  intro address member
  obtain ⟨listed, held⟩ := of_mem_taken member
  exact fits.fresh address member (idle address listed held)

/-- A call by a party. -/
structure SigningCall where
  party : MultisigParty
  amount : Option ℤ

/-- The document that is passed on, and the addresses whose keys have been used. -/
structure SigningState where
  z : String
  used : List String := []

variable (codec) in
/-- The parties go on with the old document if a call returns false. -/
def SigningState.step (state : SigningState) (call : SigningCall) : SigningState :=
  match codec.decode state.z, MultisigDocument.signrawtransaction codec call.party call.amount state.z with
  | some document, some z => { z, used := state.used ++ document.taken call.party.getPrivKey call.amount }
  | _, _ => state

variable (codec) in
/-- Every call fits the document that it gets. -/
def SigningState.AllFit (state : SigningState) : List SigningCall → Prop
  | [] => True
  | call :: rest => (∀ document ∈ codec.decode state.z, Fits document call.party.getPrivKey call.amount) ∧
    AllFit (state.step codec call) rest

/-- The state of a document that is in step. -/
def InStep (codec : DocumentCodec) (my : MultisigAddress) (state : SigningState) : Prop :=
  ∃ document, codec.decode state.z = some document ∧ Consistent document state.used ∧
    document.addresses = my.addressesJSON ∧ document.nRequired = my.nRequired ∧
    (document.signedAddresses.length : ℤ) ≤ document.nRequired

theorem InStep.step {my : MultisigAddress} {state : SigningState} (inStep : InStep codec my state) {call : SigningCall}
    (fits : ∀ document ∈ codec.decode state.z, Fits document call.party.getPrivKey call.amount) :
    InStep codec my (state.step codec call) := by
  obtain ⟨document, found, consistent, addresses, required, room⟩ := inStep
  have fit := fits document found
  rw [SigningState.step, found]
  cases ran : MultisigDocument.signrawtransaction codec call.party call.amount state.z with
  | none => exact ⟨document, found, consistent, addresses, required, room⟩
  | some z =>
    obtain ⟨next, written, signed, -⟩ := signrawtransaction_some found ran
    refine ⟨next, written, (consistent.next_iff room signed).mpr fit, signed.addresses.trans addresses,
      signed.nRequired.trans required, ?_⟩
    rw [signed.signed, signed.nRequired, List.length_append]
    have := fit.missing
    push_cast
    omega

theorem InStep.run {my : MultisigAddress} {state : SigningState} (inStep : InStep codec my state)
    {calls : List SigningCall} (fits : state.AllFit codec calls) :
    InStep codec my (calls.foldl (SigningState.step codec) state) := by
  induction calls generalizing state with
  | nil => exact inStep
  | cons call rest ih => exact ih (inStep.step fits.1) fits.2

/-- A new document is in step, and stays in step through calls that fit. A further call by a wallet all of whose
keys have signed changes nothing if it fits. -/
theorem signing_consistent {creator : MultisigParty} {account_or_address z : String} {minconfirmations : ℤ}
    {built : Option BuiltTransaction} {my : MultisigAddress} (required : 0 ≤ my.nRequired)
    (created : createrawtransaction codec creator account_or_address minconfirmations built (some my) = some z)
    {calls : List SigningCall} (fits : SigningState.AllFit codec { z } calls) :
    ∃ document, codec.decode (calls.foldl (SigningState.step codec) { z }).z = some document ∧
      document.addresses = my.addressesJSON ∧ document.nRequired = my.nRequired ∧
      Consistent document (calls.foldl (SigningState.step codec) { z }).used ∧
      ∀ party amount z' next, Fits document party.getPrivKey amount →
        (∀ address ∈ document.addresses, party.getPrivKey address ≠ none → address ∈ document.signedAddresses) →
        MultisigDocument.signrawtransaction codec party amount
          (calls.foldl (SigningState.step codec) { z }).z = some z' → codec.decode z' = some next →
        next.signedAddresses = document.signedAddresses ∧ next.outstandingPrivKeys = document.outstandingPrivKeys := by
  have start : InStep codec my { z } := by
    obtain ⟨transaction, -, written⟩ := Option.bind_eq_some_iff.mp created
    cases written
    refine ⟨_, codec.decode_encode _, ⟨List.nodup_nil, List.nil_subset _, fun _ => Iff.rfl, ?_⟩, rfl, rfl, required⟩
    have whole : my.nRequired = max 0 (my.nRequired - 0) := by rw [sub_zero, max_eq_right required]
    exact whole
  obtain ⟨document, found, consistent, addresses, required', -⟩ := start.run fits
  refine ⟨document, found, addresses, required', consistent, fun party amount z' next fit idle ran read => ?_⟩
  obtain ⟨next', written, signed, -⟩ := signrawtransaction_some found ran
  rw [read, Option.some.injEq] at written
  subst written
  have nothing := fit.taken_eq_nil idle
  rw [signed.signed, signed.outstanding, nothing]
  exact ⟨List.append_nil _, sub_zero _⟩

end MultisigDocument

instance encodableChar : Encodable Char := Encodable.ofLeftInverse Char.toNat Char.ofNat Char.ofNat_toNat

instance encodableString : Encodable String := Encodable.ofLeftInverse String.toList String.ofList fun _ => String.ofList_toList

deriving instance Encodable for MultisigDocument

namespace TestNet

open MultisigDocument

/-- A text as long as the number of the document. -/
def documentCodec : DocumentCodec where
  encode document := String.ofList (List.replicate (Encodable.encode document) 'x')
  decode z := Encodable.decode z.length
  decode_encode document := by rw [String.length_ofList, List.length_replicate, Encodable.encodek]

/-- A party that holds some keys, which are written like their addresses. A transaction is the text of the keys
that signed it, and two complete it. -/
def partyWith (held : List String) : MultisigParty where
  getPrivKey address := if address ∈ held then some address else none
  signrawtransaction hex _ privKeys :=
    let hex := privKeys.foldl (fun hex key => if key.toList ⊆ hex.toList then hex else hex ++ key) hex
    some (hex, 2 ≤ hex.length)
  getAverageConfirmationsOfTxids _ := 1

def twoOfThree : MultisigAddress := ⟨["A", "B", "C"], 2⟩

/-- A document for this address that some addresses have signed. -/
def document (signedAddresses : List String) (hex : String) (complete : Bool) : MultisigDocument where
  hex := hex
  signdata := "[]"
  fromaddress := "fund"
  addresses := ["A", "B", "C"]
  complete := complete
  usedunspenttxids := ["t"]
  usedunspenttxidsamount := 1
  averageconfirmations := 1
  minconfirmations := 1
  outstandingPrivKeys := 2 - signedAddresses.length
  nRequired := 2
  signedAddresses := signedAddresses

theorem created (held : List String) :
    createrawtransaction documentCodec (partyWith held) "fund" 1 (some ⟨"", "[]", ["t"]⟩) (some twoOfThree) =
      some (documentCodec.encode (document [] "" false)) :=
  rfl

/-- A call on the document of a state. -/
theorem step_encode (document next : MultisigDocument) (used used' held : List String) (amount : Option ℤ)
    (signed : signrawtransaction documentCodec (partyWith held) amount (documentCodec.encode document) =
      some (documentCodec.encode next))
    (noted : used ++ document.taken (partyWith held).getPrivKey amount = used') :
    SigningState.step documentCodec ⟨documentCodec.encode document, used⟩ ⟨partyWith held, amount⟩ =
      ⟨documentCodec.encode next, used'⟩ := by
  rw [SigningState.step, documentCodec.decode_encode, signed, ← noted]

end TestNet

namespace MultisigDocument

open TestNet

/-- The wallet that holds `C` signs twice, as there is no signed address at the third position. -/
theorem signs_twice :
    (createrawtransaction documentCodec (partyWith ["C"]) "fund" 1 (some ⟨"", "[]", ["t"]⟩) (some twoOfThree)).map
        (fun z => (documentCodec.decode ([⟨partyWith ["C"], none⟩, ⟨partyWith ["C"], none⟩].foldl
          (SigningState.step documentCodec) { z }).z).map fun document =>
            (document.signedAddresses, document.outstandingPrivKeys)) =
      some (some (["C", "C"], 0)) := by
  have first := step_encode (document [] "" false) (document ["C"] "C" false) [] ["C"] ["C"] none
    (by rw [signrawtransaction, documentCodec.decode_encode]; rfl) rfl
  have second := step_encode (document ["C"] "C" false) (document ["C", "C"] "C" false) ["C"] ["C", "C"] ["C"] none
    (by rw [signrawtransaction, documentCodec.decode_encode]; rfl) rfl
  rw [created, Option.map_some, List.foldl_cons, List.foldl_cons, List.foldl_nil, first, second,
    documentCodec.decode_encode]
  rfl

/-- The wallets that hold `A` and `C` complete a transaction. -/
theorem signing_consistent_twoOfThree :
    documentCodec.decode ([⟨partyWith ["A"], none⟩, ⟨partyWith ["C"], none⟩].foldl (SigningState.step documentCodec)
        { z := documentCodec.encode (document [] "" false) }).z = some (document ["A", "C"] "AC" true) ∧
      Consistent (document ["A", "C"] "AC" true) ["A", "C"] := by
  have first := step_encode (document [] "" false) (document ["A"] "A" false) [] ["A"] ["A"] none
    (by rw [signrawtransaction, documentCodec.decode_encode]; rfl) rfl
  have second := step_encode (document ["A"] "A" false) (document ["A", "C"] "AC" true) ["A"] ["A", "C"] ["C"] none
    (by rw [signrawtransaction, documentCodec.decode_encode]; rfl) rfl
  have fits : SigningState.AllFit documentCodec { z := documentCodec.encode (document [] "" false) }
      [⟨partyWith ["A"], none⟩, ⟨partyWith ["C"], none⟩] := by
    rw [SigningState.AllFit, first]
    simp only [SigningState.AllFit, documentCodec.decode_encode, Option.mem_def, Option.some.injEq]
    refine ⟨?_, ?_, trivial⟩
    · rintro _ rfl
      exact ⟨by decide, by decide, by decide⟩
    · rintro _ rfl
      exact ⟨by decide, by decide, by decide⟩
  obtain ⟨signed, found, -, -, consistent, -⟩ := signing_consistent (by decide) (created ["A"]) fits
  rw [List.foldl_cons, List.foldl_cons, List.foldl_nil, first, second] at found consistent ⊢
  rw [documentCodec.decode_encode, Option.some.injEq] at found
  exact ⟨documentCodec.decode_encode _, found ▸ consistent⟩

end MultisigDocument

end BitCrystal
