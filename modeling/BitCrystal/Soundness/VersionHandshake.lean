import BitCrystal.Model.Handshake

/-! # Nothing before the handshake

A `version` message that ends too early leaves its version in the node, which then hears other commands and refuses
the next `version` message. Without such a message the other commands wait for the handshake.
-/

namespace BitCrystal

open LittleEndian Receiving StateAction

/-- The action reads what the reader reads, and it throws where the reader fails. -/
def Mirrors {σ α : Type} (action : ReceivingAction σ α) (reader : Reader α) : Prop := ∀ receiving : Receiving σ,
  match reader.run receiving.vRecv with
  | none => ∃ failure after, action receiving = (.error failure, after)
  | some (a, vRecv) => ∃ pfrom, action receiving = (.ok a, ⟨vRecv, pfrom⟩)

namespace Mirrors

variable {σ α β : Type} {action : ReceivingAction σ α} {reader : Reader α}

theorem bind (first : Mirrors action reader) {next : α → ReceivingAction σ β} {then' : α → Reader β}
    (second : ∀ a, Mirrors (next a) (then' a)) : Mirrors (action >>= next) (reader >>= then') := by
  intro receiving
  have ran := first receiving
  rw [StateT.run_bind]
  cases read : reader.run receiving.vRecv with
  | none =>
    rw [read] at ran
    obtain ⟨failure, after, ran⟩ := ran
    exact ⟨failure, after, bind_of_error ran⟩
  | some result =>
    obtain ⟨a, vRecv⟩ := result
    rw [read] at ran
    obtain ⟨pfrom, ran⟩ := ran
    have step : (action >>= next) receiving = next a ⟨vRecv, pfrom⟩ := bind_of_ok ran
    rw [step]
    exact second a ⟨vRecv, pfrom⟩

theorem pure (a : α) : Mirrors (Pure.pure a : ReceivingAction σ α) (Pure.pure a) := fun receiving => ⟨receiving.pfrom, rfl⟩

theorem assign_bind (f : CNode σ → CNode σ) {next : Unit → ReceivingAction σ β} {reader : Reader β}
    (second : Mirrors (next ()) reader) : Mirrors (assign f >>= next) reader :=
  fun receiving => second ⟨receiving.vRecv, f receiving.pfrom⟩

theorem ite (c : Prop) [Decidable c] {action' : ReceivingAction σ α} {reader' : Reader α}
    (first : Mirrors action reader) (second : Mirrors action' reader') :
    Mirrors (if c then action else action') (if c then reader else reader') := by
  split
  · exact first
  · exact second

theorem extract (reader : Reader α) : Mirrors (extract (σ := σ) reader) reader := by
  intro receiving
  cases read : reader.run receiving.vRecv with
  | none => exact ⟨_, receiving, by rw [Receiving.extract, read]⟩
  | some result => exact ⟨receiving.pfrom, by rw [Receiving.extract, read]⟩

end Mirrors

/-- Read if there is more. -/
def readMore {α : Type} (reader : Reader α) : Reader (Option α) := fun stream =>
  if stream = [] then some (none, stream) else (some <$> reader).run stream

theorem readMore_run {α : Type} (reader : Reader α) (stream : List UInt8) :
    (readMore reader).run stream =
      if stream = [] then some (none, stream) else (some <$> reader : Reader (Option α)).run stream := rfl

theorem Mirrors.extractMore {σ α : Type} (reader : Reader α) :
    Mirrors (extractMore (σ := σ) reader) (readMore reader) := by
  intro receiving
  rw [Receiving.extractMore, get_bind, readMore_run]
  split_ifs with finished
  · exact ⟨receiving.pfrom, rfl⟩
  · exact (Mirrors.extract reader).bind (fun a => Mirrors.pure (some a)) receiving

/-- The fields of a `version` message; the later ones may be absent, and an obsolete version ends the reading. -/
def versionMessage : Reader Bool := do
  let nVersion ← readInt 4
  let _nServices ← read 8
  let _nTime ← readInt 8
  let _addrMe ← CNode.readAddress
  if nVersion < MIN_PROTO_VERSION then return false
  else do
    let _nNonce ← readMore (do let _addrFrom ← CNode.readAddress; read 8)
    let _strSubVer ← readMore (readVector MAX_SIZE)
    let _nStartingHeight ← readMore (readInt 4)
    let _fRelayTxes ← readMore (read 1)
    return true

/-- The payload of a `version` message is there to its end. -/
def IsWhole (vRecv : List UInt8) : Prop := (versionMessage.run vRecv).isSome

instance (vRecv : List UInt8) : Decidable (IsWhole vRecv) := inferInstanceAs (Decidable (_ = true))

variable {σ : Type} (env : PeerEnv σ)

theorem version_mirrors : Mirrors (CNode.version env) versionMessage := by
  refine (Mirrors.extract _).bind fun nVersion => .assign_bind _ ?_
  refine (Mirrors.extract _).bind fun nServices => .assign_bind _ ?_
  refine (Mirrors.extract _).bind fun nTime => (Mirrors.extract _).bind fun addrMe => ?_
  refine .ite _ (.assign_bind _ (.pure false)) (.assign_bind _ ?_)
  refine (Mirrors.extractMore _).bind fun nNonce => (Mirrors.extractMore _).bind fun strSubVer => ?_
  refine (Mirrors.extractMore _).bind fun nStartingHeight => .assign_bind _ ?_
  exact (Mirrors.extractMore _).bind fun fRelayTxes => .assign_bind _ (.assign_bind _ (.pure true))

theorem IsWhole.completes {vRecv : List UInt8} (whole : IsWhole vRecv) (pfrom : CNode σ) :
    ∃ ok receiving, CNode.version env ⟨vRecv, pfrom⟩ = (.ok ok, receiving) := by
  obtain ⟨⟨ok, left⟩, read⟩ := Option.isSome_iff_exists.mp whole
  have ran := version_mirrors env ⟨vRecv, pfrom⟩
  rw [read] at ran
  obtain ⟨after, ran⟩ := ran
  exact ⟨ok, _, ran⟩

theorem IsWhole.of_completed {vRecv : List UInt8} {pfrom : CNode σ} {ok : Bool} {receiving : Receiving σ}
    (completed : CNode.version env ⟨vRecv, pfrom⟩ = (.ok ok, receiving)) : IsWhole vRecv := by
  have ran := version_mirrors env ⟨vRecv, pfrom⟩
  rw [completed] at ran
  cases read : versionMessage.run vRecv with
  | none =>
    rw [read] at ran
    obtain ⟨failure, after, ⟨⟩⟩ := ran
  | some result => exact Option.isSome_iff_exists.mpr ⟨result, read⟩

/-! ## What the handler leaves in the node -/

/-- What reading on does not change. -/
structure Remains (before after : CNode σ) : Prop where
  acted : after.acted = before.acted
  nVersion : before.nVersion = 0 → after.nVersion = 0
  connected : after.fSuccessfullyConnected = before.fSuccessfullyConnected

namespace Remains

theorem refl (pfrom : CNode σ) : Remains pfrom pfrom := ⟨rfl, id, rfl⟩

theorem trans {a b c : CNode σ} (first : Remains a b) (second : Remains b c) : Remains a c :=
  ⟨second.acted.trans first.acted, second.nVersion ∘ first.nVersion, second.connected.trans first.connected⟩

variable {α β : Type}

/-- The relation along an action that reads into a node. -/
def Along (action : ReceivingAction σ α) : Prop :=
  StateAction.Keeps (fun before after : Receiving σ => Remains before.pfrom after.pfrom) action

theorem Along.bind {action : ReceivingAction σ α} {next : α → ReceivingAction σ β} (first : Along action)
    (second : ∀ a, Along (next a)) : Along (action >>= next) := StateAction.Keeps.bind Remains.trans first second

theorem along_pure (a : α) : Along (pure a : ReceivingAction σ α) := fun receiving => refl receiving.pfrom

theorem along_extract (reader : Reader α) : Along (extract (σ := σ) reader) := by
  intro receiving
  unfold extract
  split <;> exact refl _

theorem along_extractMore (reader : Reader α) : Along (extractMore (σ := σ) reader) := by
  intro receiving
  rw [extractMore, get_bind]
  split_ifs
  · exact refl _
  · exact (along_extract reader).bind (fun a => along_pure (some a)) receiving

end Remains

/-- The other commands and a version of 0 stay whatever the outcome; a failure leaves the node as connected as it was. -/
def Leaves {α : Type} (before : CNode σ) (outcome : Except Failure α × Receiving σ) : Prop :=
  outcome.2.pfrom.acted = before.acted ∧ (before.nVersion = 0 → outcome.2.pfrom.nVersion = 0) ∧
    ∀ failure, outcome.1 = .error failure → outcome.2.pfrom.fSuccessfullyConnected = before.fSuccessfullyConnected

namespace Leaves

variable {α β : Type}

theorem of_remains {before : CNode σ} {outcome : Except Failure α × Receiving σ}
    (remains : Remains before outcome.2.pfrom) : Leaves before outcome :=
  ⟨remains.acted, remains.nVersion, fun _ _ => remains.connected⟩

theorem of_later {before between : CNode σ} {outcome : Except Failure α × Receiving σ}
    (remains : Remains before between) (later : Leaves between outcome) : Leaves before outcome :=
  ⟨later.1.trans remains.acted, later.2.1 ∘ remains.nVersion,
    fun failure failed => (later.2.2 failure failed).trans remains.connected⟩

/-- An action that leaves so much from every node on. -/
def Always (action : ReceivingAction σ α) : Prop := ∀ receiving, Leaves receiving.pfrom (action receiving)

theorem bind {action : ReceivingAction σ α} {next : α → ReceivingAction σ β} (first : Remains.Along action)
    (second : ∀ a, Always (next a)) : Always (action >>= next) := by
  intro receiving
  have remains := first receiving
  rcases ran : action receiving with ⟨failure | a, between⟩ <;> rw [ran] at remains
  · rw [bind_of_error ran]
    exact of_remains remains
  · rw [bind_of_ok ran]
    exact of_later remains (second a between)

theorem assign_bind {f : CNode σ → CNode σ} {next : Unit → ReceivingAction σ β}
    (remains : ∀ pfrom, Remains pfrom (f pfrom)) (second : Always (next ())) : Always (assign f >>= next) :=
  fun receiving => of_later (remains receiving.pfrom) (second ⟨receiving.vRecv, f receiving.pfrom⟩)

theorem pure (a : α) : Always (Pure.pure a : ReceivingAction σ α) := fun receiving => of_remains (.refl receiving.pfrom)

theorem greet (nNonce : ℕ) : Always (assign (CNode.greet env nNonce) >>= fun _ => Pure.pure true) := by
  intro receiving
  change Leaves receiving.pfrom (.ok true, ⟨receiving.vRecv, receiving.pfrom.greet env nNonce⟩)
  simp only [CNode.greet, CNode.pushMessage]
  split_ifs <;> exact ⟨rfl, id, nofun⟩

end Leaves

theorem greet_connects (nNonce : ℕ) (pfrom : CNode σ) :
    (pfrom.greet env nNonce).fSuccessfullyConnected = true ∨ (pfrom.greet env nNonce).fDisconnect = true := by
  unfold CNode.greet
  split_ifs
  · exact .inr rfl
  all_goals exact .inl rfl

/-- The handler reads a version into the node, unless there is none. -/
theorem version_leaves (vRecv : List UInt8) (pfrom : CNode σ) :
    Leaves pfrom (CNode.version env ⟨vRecv, pfrom⟩) ∧ (readInt 4).parse vRecv = none ∨
    ∃ nVersion, (readInt 4).parse vRecv = some nVersion ∧
      Leaves { pfrom with nVersion } (CNode.version env ⟨vRecv, pfrom⟩) := by
  cases read : (readInt 4).run vRecv with
  | none =>
    have ran : ∃ failure, extract (readInt 4) (⟨vRecv, pfrom⟩ : Receiving σ) = (.error failure, ⟨vRecv, pfrom⟩) :=
      ⟨_, by rw [extract, read]⟩
    obtain ⟨failure, ran⟩ := ran
    rw [CNode.version, bind_of_error ran, Reader.parse, read]
    exact .inl ⟨.of_remains (.refl pfrom), rfl⟩
  | some result =>
    obtain ⟨nVersion, left⟩ := result
    have ran : extract (readInt 4) (⟨vRecv, pfrom⟩ : Receiving σ) = (.ok nVersion, ⟨left, pfrom⟩) := by
      rw [extract, read]
    rw [CNode.version, bind_of_ok ran, Reader.parse, read]
    refine .inr ⟨nVersion, rfl, (?_ : Leaves.Always _) ⟨left, { pfrom with nVersion }⟩⟩
    refine .bind (Remains.along_extract _) fun nServices => .assign_bind ?_ ?_
    · exact fun _ => ⟨rfl, id, rfl⟩
    refine .bind (Remains.along_extract _) fun nTime => .bind (Remains.along_extract _) fun addrMe => ?_
    split
    · refine .assign_bind ?_ (.pure false)
      exact fun _ => ⟨rfl, id, rfl⟩
    · refine .assign_bind ?_ ?_
      · intro pfrom
        split_ifs with renamed
        · exact ⟨rfl, fun unheard => absurd (renamed.symm.trans unheard) (by decide), rfl⟩
        · exact Remains.refl pfrom
      refine .bind (Remains.along_extractMore _) fun nNonce => .bind (Remains.along_extractMore _) fun strSubVer => ?_
      refine .bind (Remains.along_extractMore _) fun nStartingHeight => .assign_bind ?_ ?_
      · exact fun _ => ⟨rfl, id, rfl⟩
      refine .bind (Remains.along_extractMore _) fun fRelayTxes => .assign_bind ?_ (Leaves.greet env _)
      exact fun _ => ⟨rfl, id, rfl⟩

/-- A handler that completes has connected the node or closes the connection. -/
def Concludes {α : Type} (action : ReceivingAction σ α) : Prop := ∀ receiving a after,
  action receiving = (.ok a, after) → after.pfrom.fSuccessfullyConnected = true ∨ after.pfrom.fDisconnect = true

theorem Concludes.bind {α β : Type} {action : ReceivingAction σ α} {next : α → ReceivingAction σ β}
    (second : ∀ a, Concludes (next a)) : Concludes (action >>= next) := by
  intro receiving b after ran
  obtain ⟨a, between, -, ran⟩ := bind_eq_ok.mp ran
  exact second a between b after ran

theorem concludes_assign {α : Type} {f : CNode σ → CNode σ} (a : α)
    (done : ∀ pfrom, (f pfrom).fSuccessfullyConnected = true ∨ (f pfrom).fDisconnect = true) :
    Concludes (assign f >>= fun _ => pure a) := by
  rintro receiving _ _ ⟨⟩
  exact done receiving.pfrom

theorem version_concludes : Concludes (CNode.version env) := by
  refine Concludes.bind fun nVersion => Concludes.bind fun _ => Concludes.bind fun nServices => Concludes.bind fun _ => ?_
  refine Concludes.bind fun nTime => Concludes.bind fun addrMe => ?_
  split
  · exact concludes_assign false fun _ => .inr rfl
  · refine Concludes.bind fun _ => Concludes.bind fun nNonce => Concludes.bind fun strSubVer => ?_
    refine Concludes.bind fun nStartingHeight => Concludes.bind fun _ => Concludes.bind fun fRelayTxes => ?_
    exact Concludes.bind fun _ => concludes_assign true (greet_connects env _)

/-! ## Runs -/

/-- The payload of a `version` message ends too early, but it starts with a version other than 0. -/
def CutShort (vRecv : List UInt8) : Prop := ((readInt 4).parse vRecv).getD 0 ≠ 0 ∧ ¬ IsWhole vRecv

instance (vRecv : List UInt8) : Decidable (CutShort vRecv) := inferInstanceAs (Decidable (_ ∧ _))

/-- A node after the messages of its peer, the last one first, none of which was a `version` message cut short while
the handshake was still to come. -/
inductive Heard : List CNetMessage → CNode σ → Prop
  | fresh {pfrom : CNode σ} (unheard : pfrom.nVersion = 0) (unconnected : pfrom.fSuccessfullyConnected = false)
      (idle : pfrom.acted = []) : Heard [] pfrom
  | message {received : List CNetMessage} {pfrom : CNode σ} {msg : CNetMessage} (heard : Heard received pfrom)
      (open' : pfrom.fDisconnect = false)
      (fine : msg.strCommand = "version" → pfrom.nVersion = 0 → ¬ CutShort msg.vRecv) :
      Heard (msg :: received) (pfrom.receive env msg).2

/-- What holds of the node in between. -/
structure Greeted (received : List CNetMessage) (pfrom : CNode σ) : Prop where
  after_handshake : ∀ command ∈ pfrom.acted, command.2 = true
  unheard : pfrom.fSuccessfullyConnected = false → pfrom.fDisconnect = false → pfrom.nVersion = 0
  greeting : pfrom.fSuccessfullyConnected = true → ∃ msg ∈ received, msg.strCommand = "version" ∧ IsWhole msg.vRecv

namespace Greeted

variable {env} {received : List CNetMessage} {pfrom : CNode σ} {msg : CNetMessage}

section

variable (greeted : Greeted received pfrom)
include greeted

theorem later : Greeted (msg :: received) pfrom where
  after_handshake := greeted.after_handshake
  unheard := greeted.unheard
  greeting connected := by
    obtain ⟨earlier, member, whole⟩ := greeted.greeting connected
    exact ⟨earlier, List.mem_cons_of_mem _ member, whole⟩

theorem disconnect : Greeted received { pfrom with fDisconnect := true } where
  after_handshake := greeted.after_handshake
  unheard _ := nofun
  greeting := greeted.greeting

theorem misbehaving (howmuch : ℤ) : Greeted received (pfrom.misbehaving env howmuch) := by
  unfold CNode.misbehaving
  split_ifs
  · exact greeted
  · exact {
      after_handshake := greeted.after_handshake
      unheard := fun unconnected stays => greeted.unheard unconnected (Bool.or_eq_false_iff.mp stays).1
      greeting := greeted.greeting }

/-- The command `version` where the handshake is still to come. -/
theorem version (name : msg.strCommand = "version") (unheard : pfrom.nVersion = 0) (fine : ¬ CutShort msg.vRecv) :
    Greeted (msg :: received) (CNode.version env ⟨msg.vRecv, pfrom⟩).2.pfrom := by
  have leaves := version_leaves env msg.vRecv pfrom
  have same : (CNode.version env ⟨msg.vRecv, pfrom⟩).2.pfrom.acted = pfrom.acted := by
    rcases leaves with ⟨leaves, -⟩ | ⟨nVersion, -, leaves⟩
    · exact leaves.1
    · exact leaves.1
  rcases ran : CNode.version env ⟨msg.vRecv, pfrom⟩ with ⟨failure | ok, after⟩
  all_goals rw [ran] at leaves same
  · -- it threw: no version was read, or the version 0
    have still : after.pfrom.nVersion = 0 ∧ after.pfrom.fSuccessfullyConnected = pfrom.fSuccessfullyConnected := by
      rcases leaves with ⟨leaves, -⟩ | ⟨nVersion, read, leaves⟩
      · exact ⟨leaves.2.1 unheard, leaves.2.2 failure rfl⟩
      · refine ⟨leaves.2.1 ?_, leaves.2.2 failure rfl⟩
        by_contra nonzero
        refine fine ⟨by rwa [read], fun whole => ?_⟩
        obtain ⟨_, _, completed⟩ := whole.completes env pfrom
        rw [ran] at completed
        cases completed
    exact {
      after_handshake := by
        rw [same]
        exact greeted.after_handshake
      unheard := fun _ _ => still.1
      greeting := fun connected => greeted.later.greeting (still.2.symm.trans connected) }
  · have concluded := version_concludes env _ _ _ ran
    exact {
      after_handshake := by
        rw [same]
        exact greeted.after_handshake
      unheard := fun unconnected stays => by
        rw [unconnected, stays] at concluded
        exact absurd concluded (by decide)
      greeting := fun _ => ⟨msg, List.mem_cons_self .., name, .of_completed env ran⟩ }

theorem otherCommand (heard : pfrom.nVersion ≠ 0) (open' : pfrom.fDisconnect = false)
    (strCommand : String) (vRecv : List UInt8) :
    Greeted received (CNode.otherCommand env strCommand vRecv pfrom).2 := by
  have connected : pfrom.fSuccessfullyConnected = true := by
    rw [← Bool.not_eq_false]
    exact fun unconnected => heard (greeted.unheard unconnected open')
  exact {
    after_handshake := by
      rintro command (_ | ⟨_, earlier⟩)
      · exact connected
      · exact greeted.after_handshake command earlier
    unheard := fun unconnected _ => absurd (connected.symm.trans unconnected) (by decide)
    greeting := fun _ => greeted.greeting connected }

theorem processMessage (open' : pfrom.fDisconnect = false)
    (fine : msg.strCommand = "version" → pfrom.nVersion = 0 → ¬ CutShort msg.vRecv) :
    Greeted (msg :: received) (CNode.processMessage env msg.strCommand msg.vRecv pfrom).2 := by
  unfold CNode.processMessage
  split_ifs with name heard unheard
  · exact greeted.later.misbehaving 1
  · exact greeted.version name (not_not.mp heard) (fine name (not_not.mp heard))
  · exact greeted.later.misbehaving 1
  · exact greeted.later.otherCommand unheard open' _ _

theorem receive (open' : pfrom.fDisconnect = false)
    (fine : msg.strCommand = "version" → pfrom.nVersion = 0 → ¬ CutShort msg.vRecv) :
    Greeted (msg :: received) (pfrom.receive env msg).2 := by
  unfold CNode.receive
  split
  · exact greeted.later.disconnect
  split
  · exact greeted.later
  split
  · exact greeted.later
  split
  · exact greeted.later
  · exact greeted.processMessage open' fine

end

end Greeted

theorem Heard.greeted {received : List CNetMessage} {pfrom : CNode σ} (heard : Heard env received pfrom) :
    Greeted received pfrom := by
  induction heard with
  | fresh unheard unconnected idle =>
    exact {
      after_handshake := by
        rw [idle]
        exact nofun
      unheard := fun _ _ => unheard
      greeting := fun connected => absurd (unconnected.symm.trans connected) (by decide) }
  | message heard open' fine greeted => exact greeted.receive open' fine

/-- A batch of messages is a run, too. -/
theorem Heard.batch {received : List CNetMessage} {pfrom : CNode σ} (heard : Heard env received pfrom)
    (vRecvMsg : List CNetMessage) (fine : ∀ msg ∈ vRecvMsg, msg.strCommand = "version" → ¬ CutShort msg.vRecv) :
    ∃ received, Heard env received (pfrom.processMessages env vRecvMsg) := by
  induction vRecvMsg generalizing received pfrom with
  | nil => exact ⟨received, heard⟩
  | cons msg vRecvMsg ih =>
    rw [CNode.processMessages]
    split
    · exact ⟨received, heard⟩
    next open' =>
      have step := heard.message (eq_false_of_ne_true open') fun name _ => fine msg (List.mem_cons_self ..) name
      rcases ran : pfrom.receive env msg with ⟨fOk, after⟩
      rw [ran] at step
      dsimp only
      split
      · exact ih step fun later member => fine later (List.mem_cons_of_mem _ member)
      · exact ⟨_, step⟩

/-- In a run without such messages a command other than `version` is acted on only after a whole `version` message was
handled, and as long as there was none the next one is handled. -/
theorem CNode.handshake_before_commands {received : List CNetMessage} {pfrom : CNode σ}
    (heard : Heard env received pfrom) :
    (∀ command ∈ pfrom.acted, command.2 = true) ∧
    (pfrom.fSuccessfullyConnected = true → ∃ msg ∈ received, msg.strCommand = "version" ∧ IsWhole msg.vRecv) ∧
    (pfrom.fSuccessfullyConnected = false → pfrom.fDisconnect = false → pfrom.nVersion = 0 ∧
      ∀ vRecv, IsWhole vRecv → ∃ ok after, pfrom.processMessage env "version" vRecv = (.ok ok, after) ∧
        (after.fSuccessfullyConnected = true ∨ after.fDisconnect = true)) := by
  have greeted := heard.greeted
  refine ⟨greeted.after_handshake, greeted.greeting, fun unconnected stays => ?_⟩
  have unheard := greeted.unheard unconnected stays
  refine ⟨unheard, fun vRecv whole => ?_⟩
  obtain ⟨ok, receiving, ran⟩ := whole.completes env pfrom
  refine ⟨ok, receiving.pfrom, ?_, version_concludes env _ _ _ ran⟩
  rw [CNode.processMessage, if_pos rfl, if_neg (not_not.mpr unheard), ran]

namespace TestNet

/-- A peer that waits for the handshake. -/
def stranger : CNode Unit := { fInbound := true, rest := () }

/-- A node whose other commands do nothing. -/
def passive : PeerEnv Unit where
  nLocalHostNonce := 0
  nBanScore := 100
  fLocal := false
  addrmanSize _ := 0
  command _ _ := pure true

/-- The version 70001, and nothing after it. -/
def versionField : List UInt8 := [113, 17, 1, 0]

def greeting : CNetMessage := { strCommand := "version", vRecv := versionField ++ List.replicate 42 0 }

def inventory : CNetMessage := { strCommand := "inv", vRecv := [] }

end TestNet

theorem CNode.handshake_before_commands_greeting :
    ((TestNet.stranger.processMessages TestNet.passive [TestNet.greeting, TestNet.inventory]).acted = [("inv", true)]) ∧
    ∃ received, Heard TestNet.passive received
      (TestNet.stranger.processMessages TestNet.passive [TestNet.greeting, TestNet.inventory]) ∧
      ∀ command ∈ (TestNet.stranger.processMessages TestNet.passive [TestNet.greeting, TestNet.inventory]).acted,
        command.2 = true := by
  refine ⟨by decide, ?_⟩
  have fresh : Heard TestNet.passive [] TestNet.stranger := .fresh rfl rfl rfl
  obtain ⟨received, heard⟩ := fresh.batch TestNet.passive [TestNet.greeting, TestNet.inventory] (by decide)
  exact ⟨received, heard, (CNode.handshake_before_commands TestNet.passive heard).1⟩

/-- After a message that ends behind its version, `inv` is acted on without a handshake, and the whole `version` message
is refused. -/
theorem CNode.commands_without_handshake :
    let cut : CNetMessage := { strCommand := "version", vRecv := TestNet.versionField }
    let pfrom := TestNet.stranger.processMessages TestNet.passive [cut, TestNet.inventory, TestNet.greeting]
    pfrom.acted = [("inv", false)] ∧ pfrom.fSuccessfullyConnected = false ∧ pfrom.fDisconnect = false ∧
      pfrom.nVersion = 70001 := by
  decide

end BitCrystal
