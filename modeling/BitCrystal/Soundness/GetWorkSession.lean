import BitCrystal.Proofs.GetWork
import BitCrystal.Soundness.MerkleRoot

/-! # Work that was handed out is taken back

While the best block stays the same, a submission is matched to the block and the coinbase script saved for it, and the
header is rebuilt. The saved blocks are dropped when a template could not be made and another request follows, although
the best block is still the same; and the extra nonce has 32 bits.
-/

namespace BitCrystal

open StateAction Function CBlock

namespace GetWorkSession

variable {P : Platform} {sha256Transform : List UInt8 → List UInt8} {blocks : BlockPtr → List CBlockIndex}

/-- A template for the block behind `tip`. -/
structure Fits (P : Platform) (blocks : BlockPtr → List CBlockIndex) (tip : BlockPtr) (block : CBlock) : Prop where
  nVersion : block.nVersion = 112
  hashPrevBlock : ∃ pindex, (blocks tip).head? = some pindex ∧ pindex.phashBlock = some block.hashPrevBlock
  nBits : ∃ nTime, getNextWorkRequired P (blocks tip) nTime = .ok block.nBits
  shape : ∃ scriptSig txout vtx, block.vtx = generation scriptSig txout :: vtx

theorem getNextWorkRequired_time (main : P.fTestNet = false) (chain : List CBlockIndex) (nTime nTime' : ℕ) :
    getNextWorkRequired P chain nTime = getNextWorkRequired P chain nTime' := by
  unfold getNextWorkRequired
  rw [main]
  rfl

variable {tip : BlockPtr} {block : CBlock} {session after : GetWorkSession} {call : GetWorkCall} {work : Work}
  {handed : List (CBlock × Work)}

theorem Fits.header {a b : CBlock} (main : P.fTestNet = false) (first : Fits P blocks tip a)
    (second : Fits P blocks tip b) :
    a.nVersion = b.nVersion ∧ a.hashPrevBlock = b.hashPrevBlock ∧ a.nBits = b.nBits := by
  obtain ⟨pindex, head, hash⟩ := first.hashPrevBlock
  obtain ⟨pindex', head', hash'⟩ := second.hashPrevBlock
  obtain ⟨nTime, bits⟩ := first.nBits
  obtain ⟨nTime', bits'⟩ := second.nBits
  cases head.symm.trans head'
  rw [getNextWorkRequired_time main _ nTime nTime', bits'] at bits
  exact ⟨first.nVersion.trans second.nVersion.symm, Option.some.inj (hash.symm.trans hash'), (Except.ok.inj bits).symm⟩

/-- The fields that are rewritten do not matter. -/
theorem Fits.rewrite (fits : Fits P blocks tip block) (nTime nNonce : ℕ) (scriptSig : CScript) :
    Fits P blocks tip (({ block with nTime, nNonce }.setScriptSig scriptSig : CBlock).setMerkleRoot P) := by
  have header := toCBlockHeader_setScriptSig scriptSig { block with nTime, nNonce }
  have version := congrArg CBlockHeader.nVersion header
  have prev := congrArg CBlockHeader.hashPrevBlock header
  have bits := congrArg CBlockHeader.nBits header
  obtain ⟨old, txout, vtx, shape⟩ := fits.shape
  exact {
    nVersion := version.trans fits.nVersion
    hashPrevBlock := prev.symm ▸ fits.hashPrevBlock
    nBits := bits.symm ▸ fits.nBits
    shape := ⟨scriptSig, txout, vtx, @CBlock.setScriptSig_vtx { block with nTime, nNonce } _ _ _ shape scriptSig⟩ }

theorem updateTime_ok (main : P.fTestNet = false) {chain : List CBlockIndex} {nAdjustedTime : ℤ} {after : CBlock}
    (ran : block.updateTime P chain nAdjustedTime = .ok after) : ∃ nTime, after = { block with nTime } := by
  simp only [updateTime, main, Check.bind_eq_ok, Bool.false_eq_true, if_false, Check.pure_eq_ok] at ran
  obtain ⟨median, -, rfl⟩ := ran
  exact ⟨_, rfl⟩

theorem createNewBlock_fits (main : P.fTestNet = false) {nAdjustedTime : ℤ} {selection : Check (Option Selection)}
    (created : createNewBlock P (blocks tip) nAdjustedTime selection = .ok (some block)) : Fits P blocks tip block := by
  obtain ⟨found, -, created⟩ := Check.bind_eq_ok.mp created
  cases found with
  | none => cases created
  | some selection =>
    simp only [Check.bind_eq_ok, Check.assertSome_eq_ok] at created
    obtain ⟨pindexPrev, head, hash, known, timed, update, nBits, bits, nValue, -, created⟩ := created
    cases created
    obtain ⟨nTime, rfl⟩ := updateTime_ok main update
    exact ⟨rfl, ⟨pindexPrev, head, known⟩, ⟨_, bits⟩, ⟨_, _, _, rfl⟩⟩

/-- The extra nonce of the next work. -/
def nextNonce (session : GetWorkSession) (block : CBlock) : UInt32 :=
  (if session.hashPrevBlock ≠ block.hashPrevBlock then 0 else session.nExtraNonce) + 1

/-- The block a request hands out. -/
def handOut (P : Platform) (session : GetWorkSession) (pindex : CBlockIndex) (block : CBlock) : CBlock :=
  (({ block with nNonce := 0 }).setScriptSig (coinbaseScript (pindex.nHeight + 1) (session.nextNonce block))).setMerkleRoot P

theorem incrementExtraNonce_ok {pindex : CBlockIndex} {pblock result : CBlock}
    (ran : incrementExtraNonce P pindex pblock session = (.ok result, after)) :
    after = { session with nExtraNonce := session.nextNonce pblock, hashPrevBlock := pblock.hashPrevBlock } ∧
      result = (pblock.setScriptSig (coinbaseScript (pindex.nHeight + 1) (session.nextNonce pblock))).setMerkleRoot P := by
  rw [incrementExtraNonce, get_bind] at ran
  dsimp only at ran
  rw [modify_bind, lift_bind_eq_ok] at ran
  obtain ⟨_, -, ⟨⟩⟩ := ran
  exact ⟨rfl, rfl⟩

/-- What a request does once there is a template. -/
theorem request_ok (main : P.fTestNet = false)
    (ran : request P sha256Transform blocks call session = (.ok work, after)) :
    ∃ between position block pindexPrev pindex nTime scriptSig, refresh P blocks call session = (.ok (), between) ∧
      between.pblocktemplate = some position ∧ between.vNewBlockTemplate[position]? = some block ∧
      between.pindexPrev = some pindexPrev ∧ (blocks pindexPrev).head? = some pindex ∧
      let handed := handOut P between pindex { block with nTime }
      ((handed.vtx.head?.bind fun tx => tx.vin.head?).map CTxIn.scriptSig) = some scriptSig ∧
      after = { between with
        nExtraNonce := between.nextNonce block
        hashPrevBlock := block.hashPrevBlock
        vNewBlockTemplate := between.vNewBlockTemplate.set position handed
        mapNewBlock := Function.update between.mapNewBlock handed.hashMerkleRoot (some (position, scriptSig)) } ∧
      work.data = hexStr (byteReverse (formatHashBlocks handed.toCBlockHeader.memory)) := by
  obtain ⟨_, -, ran⟩ := lift_bind_eq_ok.mp ran
  obtain ⟨_, between, refreshed, ran⟩ := bind_eq_ok.mp ran
  rw [get_bind] at ran
  simp only [lift_bind_eq_ok, Check.assertSome_eq_ok] at ran
  obtain ⟨position, points, block, there, pindexPrev, current, pindex, head, timed, update, ran⟩ := ran
  obtain ⟨nTime, rfl⟩ := updateTime_ok main update
  obtain ⟨handed, counted, incremented, ran⟩ := bind_eq_ok.mp ran
  obtain ⟨rfl, rfl⟩ := incrementExtraNonce_ok incremented
  obtain ⟨scriptSig, script, ran⟩ := lift_bind_eq_ok.mp ran
  rw [Check.assertSome_eq_ok] at script
  cases ran
  exact ⟨between, position, block, pindexPrev, pindex, nTime, scriptSig, refreshed, points, there, current, head,
    script, rfl, rfl⟩

/-! ## The invariant -/

/-- What holds of the session and the work handed out for its best block, the last one first. -/
structure Sound (P : Platform) (blocks : BlockPtr → List CBlockIndex) (session : GetWorkSession)
    (handed : List (CBlock × Work)) : Prop where
  /-- A saved script restores the root it is saved for. -/
  saved : ∀ {root position scriptSig}, session.mapNewBlock root = some (position, scriptSig) →
    ∃ block, session.vNewBlockTemplate[position]? = some block ∧ (block.setScriptSig scriptSig).buildMerkleTree P = root
  fits : ∀ {tip}, session.pindexPrev = some tip → ∀ block ∈ session.vNewBlockTemplate, Fits P blocks tip block
  /-- Work for another block was handed out to nobody. -/
  current : handed ≠ [] → session.pindexPrev = none ∨ session.pindexPrev = some session.pindexBest
  kept : ∀ item ∈ handed, Fits P blocks session.pindexBest item.1 ∧ ∃ position scriptSig block,
    session.mapNewBlock item.1.hashMerkleRoot = some (position, scriptSig) ∧
      session.vNewBlockTemplate[position]? = some block ∧ Fits P blocks session.pindexBest block
  data : ∀ item ∈ handed, item.1.hashMerkleRoot = item.1.buildMerkleTree P ∧
    item.2.data = hexStr (byteReverse (formatHashBlocks item.1.toCBlockHeader.memory))
  /-- The extra nonces count up. -/
  numbered : ∀ {i item}, handed[i]? = some item → ∃ pindex txout vtx,
    (blocks session.pindexBest).head? = some pindex ∧ pindex.phashBlock = some session.hashPrevBlock ∧
      item.1.vtx = generation (coinbaseScript (pindex.nHeight + 1) (session.nExtraNonce - UInt32.ofNat i)) txout :: vtx

/-- Without work of the best block nothing is lost. -/
theorem Sound.forget (sound : Sound P blocks session handed)
    (pindexBest : BlockPtr) : Sound P blocks { session with pindexBest } [] where
  saved := sound.saved
  fits := sound.fits
  current := nofun
  kept := nofun
  data := nofun
  numbered := nofun

theorem Sound.fresh (session : GetWorkSession) (empty : session.mapNewBlock = fun _ => none)
    (nothing : session.vNewBlockTemplate = []) : Sound P blocks session [] where
  saved found := by
    rw [empty] at found
    cases found
  fits _ := by
    rw [nothing]
    exact nofun
  current := nofun
  kept := nofun
  data := nofun
  numbered := nofun

/-- A template that fits is put behind the others. -/
theorem Sound.append {session : GetWorkSession} {handed : List (CBlock × Work)} (sound : Sound P blocks session handed)
    {block : CBlock} (fits : Fits P blocks session.pindexBest block)
    (others : ∀ block ∈ session.vNewBlockTemplate, Fits P blocks session.pindexBest block) :
    Sound P blocks { session with
      vNewBlockTemplate := session.vNewBlockTemplate ++ [block]
      pblocktemplate := some session.vNewBlockTemplate.length
      pindexPrev := some session.pindexBest } handed where
  saved found := by
    obtain ⟨template, there, root⟩ := sound.saved found
    exact ⟨template, List.getElem?_append_left (List.getElem?_eq_some_iff.mp there).1 ▸ there, root⟩
  fits same other member := by
    cases same
    rcases List.mem_append.mp member with old | new
    · exact others other old
    · rw [List.mem_singleton.mp new]
      exact fits
  current _ := .inr rfl
  kept item member := by
    obtain ⟨own, position, scriptSig, template, found, there, fits⟩ := sound.kept item member
    refine ⟨own, position, scriptSig, template, found, ?_, fits⟩
    exact List.getElem?_append_left (List.getElem?_eq_some_iff.mp there).1 ▸ there
  data := sound.data
  numbered := sound.numbered

/-- `pindexPrev` is cleared before a template is made. -/
theorem Sound.clear (sound : Sound P blocks session handed)
    (nTransactionsUpdatedLast : ℕ) (nStart : ℤ) (pblocktemplate : Option ℕ) :
    Sound P blocks { session with nTransactionsUpdatedLast, nStart, pblocktemplate, pindexPrev := none } handed where
  saved := sound.saved
  fits := nofun
  current _ := .inl rfl
  kept := sound.kept
  data := sound.data
  numbered := sound.numbered

/-- The first part of a request keeps the work unless the part before it had failed. -/
theorem Sound.refresh (main : P.fTestNet = false) {session between : GetWorkSession} {handed : List (CBlock × Work)}
    (sound : Sound P blocks session handed) (fine : session.pindexPrev = none → handed = []) {call : GetWorkCall}
    {outcome : Except Failure Unit} (ran : refresh P blocks call session = (outcome, between)) :
    Sound P blocks between handed ∧ between.pindexBest = session.pindexBest ∧
      (outcome = .ok () → between.pindexPrev = some session.pindexBest) := by
  rw [GetWorkSession.refresh] at ran
  split at ran
  · -- a new template is made behind those that are left
    have left : ∃ base : GetWorkSession, base.pindexBest = session.pindexBest ∧ Sound P blocks base handed ∧
        (∀ block ∈ base.vNewBlockTemplate, Fits P blocks base.pindexBest block) ∧
        (if session.pindexPrev ≠ some session.pindexBest then
          { session with mapNewBlock := fun _ => none, vNewBlockTemplate := [] } else session : GetWorkSession) = base := by
      refine ⟨_, ?_, ?_, ?_, rfl⟩ <;> split_ifs with other
      · rfl
      · rfl
      · have empty : handed = [] := by
          by_contra given
          rcases sound.current given with failed | same
          · exact given (fine failed)
          · exact other same
        rw [empty]
        exact Sound.fresh _ rfl rfl
      · exact sound
      · exact nofun
      · rw [not_not] at other
        exact sound.fits other
    obtain ⟨base, best, kept, others, same⟩ := left
    rw [same] at ran
    dsimp only at ran
    split at ran <;> cases ran
    · exact ⟨kept.clear _ _ _, best, nofun⟩
    · exact ⟨kept.clear _ _ _, best, nofun⟩
    · next block created =>
      have cleared := kept.clear call.nTransactionsUpdated call.nTime base.pblocktemplate
      exact ⟨cleared.append (createNewBlock_fits main created) others, best, fun _ => congrArg some best⟩
  · next quiet =>
    cases ran
    rw [not_or, not_not] at quiet
    exact ⟨sound, rfl, fun _ => quiet.1⟩

/-- A template is rewritten in place. -/
theorem Sound.set {session : GetWorkSession} {handed : List (CBlock × Work)} (sound : Sound P blocks session handed)
    {position : ℕ} {block : CBlock} (there : session.vNewBlockTemplate[position]? = some block) (nTime nNonce : ℕ)
    (scriptSig : CScript) :
    Sound P blocks { session with
      vNewBlockTemplate := session.vNewBlockTemplate.set position
        (({ block with nTime, nNonce }.setScriptSig scriptSig : CBlock).setMerkleRoot P) } handed where
  saved {root other script} found := by
    obtain ⟨template, old, restored⟩ := sound.saved found
    rcases eq_or_ne position other with rfl | elsewhere
    · cases there.symm.trans old
      refine ⟨_, List.getElem?_set_self (List.getElem?_eq_some_iff.mp there).1, ?_⟩
      rw [← restored]
      exact buildMerkleTree_congr (block.setScriptSig_rewritten nTime nNonce scriptSig script)
    · exact ⟨template, (List.getElem?_set_ne elsewhere).trans old, restored⟩
  fits same other member := by
    rcases List.mem_or_eq_of_mem_set member with old | rfl
    · exact sound.fits same other old
    · exact (sound.fits same block (List.mem_of_getElem? there)).rewrite nTime nNonce scriptSig
  current := sound.current
  kept item member := by
    obtain ⟨own, other, script, template, found, old, fits⟩ := sound.kept item member
    refine ⟨own, other, script, ?_⟩
    rcases eq_or_ne position other with rfl | elsewhere
    · cases there.symm.trans old
      exact ⟨_, found, List.getElem?_set_self (List.getElem?_eq_some_iff.mp there).1, fits.rewrite nTime nNonce scriptSig⟩
    · exact ⟨template, found, (List.getElem?_set_ne elsewhere).trans old, fits⟩
  data := sound.data
  numbered := sound.numbered

theorem counted_down (n : UInt32) (i : ℕ) : n + 1 - UInt32.ofNat (i + 1) = n - UInt32.ofNat i := by
  rw [UInt32.ofNat_add]
  grind

/-- A request that succeeds hands out the current template. -/
theorem Sound.request (main : P.fTestNet = false) {session after : GetWorkSession} {handed : List (CBlock × Work)}
    (sound : Sound P blocks session handed) (fine : session.pindexPrev = none → handed = []) {call : GetWorkCall}
    {work : Work} {block : CBlock} (ran : request P sha256Transform blocks call session = (.ok work, after))
    (pointed : after.template = some block) : Sound P blocks after ((block, work) :: handed) := by
  obtain ⟨between, position, old, pindexPrev, pindex, nTime, scriptSig, refreshed, points, there, current, head, script,
    rfl, data⟩ := request_ok main ran
  obtain ⟨sound, best, now⟩ := sound.refresh main fine refreshed
  cases current.symm.trans ((now rfl).trans (congrArg some best.symm))
  have inside := (List.getElem?_eq_some_iff.mp there).1
  -- the block handed out
  set given := handOut P between pindex { old with nTime }
  have pointed' : some given = some block := by
    rw [← pointed, template, points, Option.bind_some, List.getElem?_set_self inside]
  obtain rfl : block = given := (Option.some.inj pointed').symm
  have fits := sound.fits current old (List.mem_of_getElem? there)
  obtain ⟨oldScript, txout, vtx, shape⟩ := fits.shape
  have fits' : Fits P blocks between.pindexBest given := fits.rewrite nTime 0 _
  have shape' : given.vtx = generation (coinbaseScript (pindex.nHeight + 1) (between.nextNonce old)) txout :: vtx :=
    @CBlock.setScriptSig_vtx { old with nTime, nNonce := 0 } _ _ _ shape _
  have script' : scriptSig = coinbaseScript (pindex.nHeight + 1) (between.nextNonce old) := by
    rw [shape'] at script
    exact (Option.some.inj script).symm
  have rewritten := sound.set there nTime 0 (coinbaseScript (pindex.nHeight + 1) (between.nextNonce old))
  have root : given.hashMerkleRoot = given.buildMerkleTree P := buildMerkleTree_congr rfl
  have stays : (given.setScriptSig scriptSig).buildMerkleTree P = given.hashMerkleRoot := by
    rw [root, script']
    exact buildMerkleTree_congr ((setScriptSig_vtx shape' _).trans shape'.symm)
  obtain ⟨_, head', hash⟩ := fits.hashPrevBlock
  cases head.symm.trans head'
  exact {
    saved := by
      intro other place scriptSig' found
      dsimp only at found
      rcases eq_or_ne other given.hashMerkleRoot with rfl | elsewhere
      · rw [update_self] at found
        cases found
        exact ⟨given, List.getElem?_set_self inside, stays⟩
      · rw [update_of_ne elsewhere] at found
        exact rewritten.saved found
    fits := rewritten.fits
    current := fun _ => .inr current
    kept := by
      rintro item (_ | ⟨_, earlier⟩)
      · exact ⟨fits', position, scriptSig, given, update_self .., List.getElem?_set_self inside, fits'⟩
      · obtain ⟨own, other⟩ := rewritten.kept item earlier
        refine ⟨own, ?_⟩
        rcases eq_or_ne item.1.hashMerkleRoot given.hashMerkleRoot with again | elsewhere
        · rw [again]
          exact ⟨position, scriptSig, given, update_self .., List.getElem?_set_self inside, fits'⟩
        · obtain ⟨place, saved, template, found, rest⟩ := other
          exact ⟨place, saved, template, (update_of_ne elsewhere ..).trans found, rest⟩
    data := by
      rintro item (_ | ⟨_, earlier⟩)
      · exact ⟨root, data⟩
      · exact sound.data item earlier
    numbered := by
      rintro (_ | i) item found
      · cases found
        refine ⟨pindex, txout, vtx, head, hash, ?_⟩
        rw [shape']
        exact congrArg (fun n => generation (coinbaseScript (pindex.nHeight + 1) n) txout :: vtx) (UInt32.sub_zero _).symm
      · obtain ⟨_, txout, vtx, head', hash', shape⟩ := sound.numbered found
        cases head.symm.trans head'
        refine ⟨pindex, txout, vtx, head, hash, ?_⟩
        have same : between.hashPrevBlock = old.hashPrevBlock := Option.some.inj (hash'.symm.trans hash)
        have next : between.nextNonce old = between.nExtraNonce + 1 := by
          rw [nextNonce, if_neg (not_not.mpr same)]
        change item.1.vtx = generation (coinbaseScript _ (between.nextNonce old - UInt32.ofNat (i + 1))) _ :: _
        rw [next, counted_down]
        exact shape }

/-- A submission rewrites a template. -/
theorem Sound.submit {session : GetWorkSession} {handed : List (CBlock × Work)} (sound : Sound P blocks session handed)
    (call : GetWorkCall) (data : List UInt8) : Sound P blocks (submit P call data session).2 handed := by
  rw [GetWorkSession.submit]
  cases checkConnected call with
  | error failure => exact sound
  | ok _ =>
    rw [lift_bind_ok, rejectIf]
    split
    · exact sound
    · dsimp only
      rw [lift_bind_ok, get_bind]
      rcases found : session.mapNewBlock _ with _ | ⟨position, scriptSig⟩
      · exact sound
      · obtain ⟨block, there, -⟩ := sound.saved found
        dsimp only
        rw [there]
        exact sound.set there _ _ scriptSig

/-- No exception leaves the action. -/
def Silent {α : Type} (action : GetWorkAction α) : Prop := ∀ session message after,
  action session ≠ (.error (.throws message), after)

theorem Silent.bind {α β : Type} {action : GetWorkAction α} {next : α → GetWorkAction β} (first : Silent action)
    (second : ∀ a, Silent (next a)) : Silent (action >>= next) := by
  intro session message after ran
  rcases bind_eq_error.mp ran with ran | ⟨a, between, -, ran⟩
  · exact first session message after ran
  · exact second a between message after ran

theorem Silent.lift_bind {α β : Type} {result : Check α} {next : α → GetWorkAction β}
    (never : ∀ message, result ≠ .error (.throws message)) (second : ∀ a, Silent (next a)) :
    Silent (StateAction.lift result >>= next) :=
  Silent.bind (fun _ message _ ran => never message (Prod.mk.inj ran).1) second

theorem silent_incrementExtraNonce (pindex : CBlockIndex) (pblock : CBlock) :
    Silent (incrementExtraNonce P pindex pblock) := by
  refine Silent.bind (fun _ _ _ => nofun) fun session => Silent.bind (fun _ _ _ => nofun) fun _ => ?_
  exact Silent.lift_bind (fun message => Check.rejectIf_ne_error nofun) fun _ _ _ _ => nofun

theorem updateTime_ne_throws (main : P.fTestNet = false) (chain : List CBlockIndex) (nAdjustedTime : ℤ) (block : CBlock)
    (message : String) : block.updateTime P chain nAdjustedTime ≠ .error (.throws message) := by
  intro failed
  simp only [updateTime, main, Check.bind_eq_error, Bool.false_eq_true, if_false] at failed
  rcases failed with failed | ⟨_, -, ⟨⟩⟩
  unfold getMedianTimePast at failed
  exact absurd failed (Check.assertSome_ne_error nofun)

/-- An exception comes from the first part of a request. -/
theorem request_throws (main : P.fTestNet = false) {message : String}
    (ran : request P sha256Transform blocks call session = (.error (.throws message), after)) :
    after = session ∨ refresh P blocks call session = (.error (.throws message), after) := by
  rw [request, bind_eq_error] at ran
  rcases ran with ran | ⟨_, _, checked, ran⟩
  · rw [lift_apply, Prod.mk.injEq] at ran
    exact .inl ran.2.symm
  cases (Prod.mk.inj checked).2
  rcases bind_eq_error.mp ran with ran | ⟨_, between, -, ran⟩
  · exact .inr ran
  · refine absurd ran ((?_ : Silent _) between message after)
    refine Silent.bind (fun _ _ _ => nofun) fun session => Silent.lift_bind ?_ fun _ => Silent.lift_bind ?_ fun _ => ?_
    · exact fun _ => Check.assertSome_ne_error nofun
    · exact fun _ => Check.assertSome_ne_error nofun
    refine Silent.lift_bind ?_ fun _ => Silent.lift_bind ?_ fun _ => Silent.lift_bind ?_ fun _ => ?_
    · exact fun _ => Check.assertSome_ne_error nofun
    · exact fun _ => Check.assertSome_ne_error nofun
    · exact updateTime_ne_throws main _ _ _
    refine Silent.bind (silent_incrementExtraNonce _ _) fun _ => Silent.lift_bind ?_ fun _ => fun _ _ _ => nofun
    exact fun _ => Check.assertSome_ne_error nofun

/-! ## Runs -/

/-- A session after any calls, with the work handed out since the best block last changed. No request follows a failed
one while there is such work, and there is no more of it than there are extra nonces. -/
inductive Reached (P : Platform) (sha256Transform : List UInt8 → List UInt8) (blocks : BlockPtr → List CBlockIndex) :
    GetWorkSession → List (CBlock × Work) → Prop
  | start (pindexBest : BlockPtr) : Reached P sha256Transform blocks { pindexBest } []
  | bestBlock {session : GetWorkSession} {handed : List (CBlock × Work)}
      (reached : Reached P sha256Transform blocks session handed) (pindexBest : BlockPtr) :
      Reached P sha256Transform blocks { session with pindexBest } []
  | request {session after : GetWorkSession} {handed : List (CBlock × Work)} {call : GetWorkCall} {work : Work}
      {block : CBlock} (reached : Reached P sha256Transform blocks session handed)
      (fine : session.pindexPrev = none → handed = []) (few : handed.length < 2 ^ 32)
      (ran : request P sha256Transform blocks call session = (.ok work, after)) (pointed : after.template = some block) :
      Reached P sha256Transform blocks after ((block, work) :: handed)
  | failed {session after : GetWorkSession} {handed : List (CBlock × Work)} {call : GetWorkCall} {message : String}
      (reached : Reached P sha256Transform blocks session handed)
      (fine : session.pindexPrev = none → handed = [])
      (ran : request P sha256Transform blocks call session = (.error (.throws message), after)) :
      Reached P sha256Transform blocks after handed
  | submit {session : GetWorkSession} {handed : List (CBlock × Work)}
      (reached : Reached P sha256Transform blocks session handed) (call : GetWorkCall) (data : List UInt8) :
      Reached P sha256Transform blocks (submit P call data session).2 handed

theorem Reached.sound (main : P.fTestNet = false) (reached : Reached P sha256Transform blocks session handed) :
    Sound P blocks session handed ∧ handed.length ≤ 2 ^ 32 := by
  induction reached with
  | start pindexBest => exact ⟨Sound.fresh _ rfl rfl, Nat.zero_le _⟩
  | bestBlock _ pindexBest ih => exact ⟨ih.1.forget pindexBest, Nat.zero_le _⟩
  | request _ fine few ran pointed ih => exact ⟨ih.1.request main fine ran pointed, few⟩
  | failed _ fine ran ih =>
    rcases request_throws main ran with rfl | refreshed
    · exact ih
    · exact ⟨(ih.1.refresh main fine refreshed).1, ih.2⟩
  | submit _ call data ih => exact ⟨ih.1.submit call data, ih.2⟩

/-- The submission is matched to the block and the script saved for the merkle root of a work, and the block rebuilt from
it has the header of the work, with the time and the nonce that were sent. -/
def TakenBack (P : Platform) (session : GetWorkSession) (work : CBlockHeader) (call : GetWorkCall) (data : List UInt8) :
    Prop := ∃ position scriptSig rebuilt after, session.mapNewBlock work.hashMerkleRoot = some (position, scriptSig) ∧
  submit P call data session = (.ok (some rebuilt), after) ∧
  rebuilt.toCBlockHeader = { work with nTime := rebuilt.nTime, nNonce := rebuilt.nNonce } ∧
  byteReverse (formatHashBlocks rebuilt.toCBlockHeader.memory) = parseHex data ∧
  rebuilt.hashMerkleRoot = rebuilt.buildMerkleTree P ∧
  ∃ tx ∈ rebuilt.vtx.head?, ∃ txin ∈ tx.vin.head?, txin.scriptSig = scriptSig

theorem Sound.takenBack (main : P.fTestNet = false)
    (sound : Sound P blocks session handed) (member : (block, work) ∈ handed)
    (bound : block.hashMerkleRoot < 2 ^ 256) (connected : checkConnected call = .ok ())
    {data : List UInt8} (rework : Rework (parseHex work.data) (parseHex data)) :
    TakenBack P session block.toCBlockHeader call data := by
  obtain ⟨own, position, scriptSig, template, found, there, fits⟩ := sound.kept _ member
  obtain ⟨root, handedData⟩ := sound.data _ member
  rw [handedData, parseHex_hexStr] at rework
  have pdata := rework.byteReverse (by rw [length_byteReverse, CBlockHeader.length_formatHashBlocks])
  rw [byteReverse_byteReverse] at pdata
  have same := CBlockHeader.root_of_rework bound pdata
  -- the block as it is rebuilt
  let sent := byteReverse (parseHex data)
  let nTime := LittleEndian.decode ((sent.drop 68).take 4)
  let nNonce := LittleEndian.decode ((sent.drop 76).take 4)
  let rebuilt : CBlock := ({ template with nTime, nNonce }.setScriptSig scriptSig : CBlock).setMerkleRoot P
  have ran : GetWorkSession.submit P call data session = (.ok (some rebuilt),
      { session with vNewBlockTemplate := session.vNewBlockTemplate.set position rebuilt }) := by
    rw [GetWorkSession.submit, connected, lift_bind_ok, rejectIf, if_neg (not_not.mpr rework.length)]
    dsimp only
    rw [lift_bind_ok, get_bind, same, found]
    dsimp only
    rw [there]
    rfl
  obtain ⟨_, restored, restoredRoot⟩ := sound.saved found
  cases there.symm.trans restored
  obtain ⟨oldScript, txout, vtx, shape⟩ := fits.shape
  have rebuiltShape : rebuilt.vtx = generation scriptSig txout :: vtx :=
    @CBlock.setScriptSig_vtx { template with nTime, nNonce } _ _ _ shape scriptSig
  have rebuiltRoot : rebuilt.buildMerkleTree P = block.hashMerkleRoot := by
    rw [← restoredRoot]
    exact buildMerkleTree_congr (rebuiltShape.trans (setScriptSig_vtx shape scriptSig).symm)
  have rootField : rebuilt.hashMerkleRoot = rebuilt.buildMerkleTree P := buildMerkleTree_congr rfl
  have header : rebuilt.toCBlockHeader = { block.toCBlockHeader with nTime, nNonce } := by
    have plain := toCBlockHeader_setScriptSig scriptSig { template with nTime, nNonce }
    obtain ⟨version, prev, bits⟩ := fits.header main own
    have whole : rebuilt.toCBlockHeader = { (({ template with nTime, nNonce } : CBlock).setScriptSig
        scriptSig).toCBlockHeader with hashMerkleRoot := rebuilt.hashMerkleRoot } := rfl
    rw [whole, plain, rootField, rebuiltRoot]
    change CBlockHeader.mk template.nVersion template.hashPrevBlock _ _ template.nBits _ = _
    rw [version, prev, bits]
  refine ⟨position, scriptSig, rebuilt, _, found, ran, ?_, ?_, rootField, ?_⟩
  · rw [header]
  · rw [header, CBlockHeader.format_of_rework pdata, byteReverse_byteReverse]
  · rw [rebuiltShape]
    exact ⟨_, rfl, _, rfl, rfl⟩

/-- Different requests get different merkle roots. -/
theorem Sound.distinct (sound : Sound P blocks session handed)
    (few : handed.length ≤ 2 ^ 32) (injective : Function.Injective P.hashTx)
    (injective₂ : Function.Injective2 P.hashPair)
    (apart : ∀ tx : CTransaction, 64 < tx.getSerializeSize → ∀ a b, tx.getHash P ≠ P.hashPair a b) :
    handed.Pairwise fun a b => a.1.hashMerkleRoot ≠ b.1.hashMerkleRoot := by
  rw [List.pairwise_iff_getElem]
  intro i j inside inside' before
  obtain ⟨pindex, txout, vtx, head, -, shape⟩ := sound.numbered (List.getElem?_eq_getElem inside)
  obtain ⟨_, txout', vtx', head', -, shape'⟩ := sound.numbered (List.getElem?_eq_getElem inside')
  cases head.symm.trans head'
  rw [(sound.data _ (List.getElem_mem inside)).1, (sound.data _ (List.getElem_mem inside')).1]
  refine root_ne injective injective₂ apart shape shape' fun same => ?_
  have number : UInt32.ofNat i = UInt32.ofNat j := by grind
  have values := congrArg UInt32.toNat number
  rw [UInt32.toNat_ofNat_of_lt' (show i < 2 ^ 32 by omega), UInt32.toNat_ofNat_of_lt' (show j < 2 ^ 32 by omega)] at values
  omega

end GetWorkSession

open GetWorkSession

variable {P : Platform} {sha256Transform : List UInt8 → List UInt8} {blocks : BlockPtr → List CBlockIndex}

/-- In a run where no request follows a failed one, work that was handed out for the best block is taken back, and
different requests get different merkle roots. -/
theorem getwork_takes_back (main : P.fTestNet = false) {session : GetWorkSession} {handed : List (CBlock × Work)}
    (reached : Reached P sha256Transform blocks session handed) :
    ((∀ tx, P.hashTx tx < 2 ^ 256) → (∀ a b, P.hashPair a b < 2 ^ 256) → ∀ item ∈ handed, ∀ call data,
      checkConnected call = .ok () → Rework (parseHex item.2.data) (parseHex data) →
      TakenBack P session item.1.toCBlockHeader call data) ∧
    (Function.Injective P.hashTx → Function.Injective2 P.hashPair →
      (∀ tx : CTransaction, 64 < tx.getSerializeSize → ∀ a b, tx.getHash P ≠ P.hashPair a b) →
      handed.Pairwise fun a b => a.1.hashMerkleRoot ≠ b.1.hashMerkleRoot) := by
  obtain ⟨sound, few⟩ := reached.sound main
  refine ⟨fun leaves inner item member call data connected rework => ?_, sound.distinct few⟩
  have bound : item.1.hashMerkleRoot < 2 ^ 256 := by
    rw [(sound.data item member).1]
    exact buildMerkleTree_lt leaves inner item.1
  exact sound.takenBack main member bound connected rework

namespace TestNet

/-- The best block of the sessions below. -/
def bestBlock (_ : BlockPtr) : List CBlockIndex :=
  [{ phashBlock := some 5, nHeight := 9, nTime := 1400000000, nBits := 0x1d00ffff }]

/-- A call at a time, with a block that can be made. -/
def callAt (nTime : ℤ) (nTransactionsUpdated : ℕ) : GetWorkCall where
  nTime := nTime
  nTransactionsUpdated := nTransactionsUpdated
  nAdjustedTime := 1400000600 + nTime
  selection := .ok (some ⟨opTrue, 0, []⟩)

/-- A call for which there is no key. -/
def callWithoutKey (nTime : ℤ) (nTransactionsUpdated : ℕ) : GetWorkCall :=
  { callAt nTime nTransactionsUpdated with selection := .ok none }

/-- The main network with hashes of 256 bits that look at the inputs. -/
def smallHashes : Platform where
  __ := platform
  fTestNet := false
  hashTx tx := (tx.vin.map fun txin => LittleEndian.decode txin.scriptSig).sum % 2 ^ 256
  hashPair a b := (a + b) % 2 ^ 256

/-- A number for everything that is serialized. -/
def code (tx : SerializedTx) : ℕ := Encodable.encode (tx.nVersion,
  tx.vin.map fun txin => ((txin.prevout.hash, txin.prevout.n), txin.scriptSig.map UInt8.toNat, txin.nSequence),
  tx.vout.map fun txout => (txout.nValue, txout.scriptPubKey.map UInt8.toNat), tx.nLockTime,
  tx.strTxComment.map (List.map UInt8.toNat))

/-- The main network with hashes that determine what is hashed. -/
def injectiveHashes : Platform := { paired with fTestNet := false, hashTx := fun tx => 2 * code tx }

theorem code_injective : Function.Injective code := by
  have bytes : Function.Injective (List.map UInt8.toNat) := fun _ _ same =>
    List.map_injective_iff.mpr (fun _ _ => UInt8.toNat.inj) same
  rintro ⟨nVersion, vin, vout, nLockTime, comment⟩ ⟨nVersion', vin', vout', nLockTime', comment'⟩ same
  have fields := Encodable.encode_injective same
  simp only [Prod.mk.injEq] at fields
  obtain ⟨rfl, inputs, outputs, rfl, comments⟩ := fields
  have sameInputs : vin = vin' := by
    refine List.map_injective_iff.mpr (fun a b equal => ?_) inputs
    obtain ⟨⟨hash, n⟩, scriptSig, nSequence⟩ := a
    obtain ⟨⟨hash', n'⟩, scriptSig', nSequence'⟩ := b
    simp only [Prod.mk.injEq] at equal
    obtain ⟨⟨rfl, rfl⟩, script, rfl⟩ := equal
    rw [bytes script]
  have sameOutputs : vout = vout' := by
    refine List.map_injective_iff.mpr (fun a b equal => ?_) outputs
    obtain ⟨nValue, scriptPubKey⟩ := a
    obtain ⟨nValue', scriptPubKey'⟩ := b
    simp only [Prod.mk.injEq] at equal
    obtain ⟨rfl, script⟩ := equal
    rw [bytes script]
  rw [sameInputs, sameOutputs, Option.map_injective bytes comments]

def firstRequest (P : Platform) : Except Failure Work × GetWorkSession :=
  request P id bestBlock (callAt 0 0) { pindexBest := 0 }

def secondRequest (P : Platform) : Except Failure Work × GetWorkSession :=
  request P id bestBlock (callAt 61 1) (firstRequest P).2

/-- A session in which two works were handed out, from different templates. -/
theorem reached_second {P : Platform} (first : (firstRequest P).1.isOk = true)
    (second : (secondRequest P).1.isOk = true) (pointed : (firstRequest P).2.template.isSome = true)
    (pointed' : (secondRequest P).2.template.isSome = true) (made : (firstRequest P).2.pindexPrev ≠ none) :
    ∃ older newer, Reached P id bestBlock (secondRequest P).2 [newer, older] := by
  obtain ⟨work, first⟩ := Check.exists_of_isOk first
  obtain ⟨work', second⟩ := Check.exists_of_isOk second
  obtain ⟨block, pointed⟩ := Option.isSome_iff_exists.mp pointed
  obtain ⟨block', pointed'⟩ := Option.isSome_iff_exists.mp pointed'
  have reached := (Reached.start 0).request (fun _ => rfl) (by decide) (outcome_of_fst first) pointed
  exact ⟨_, _, reached.request (fun absent => absurd absent made) (show 1 < 2 ^ 32 by decide) (outcome_of_fst second) pointed'⟩

end TestNet

open TestNet

theorem getwork_takes_back_second :
    (∃ older newer, Reached smallHashes id bestBlock (secondRequest smallHashes).2 [newer, older] ∧
      ∀ item ∈ [newer, older], ∀ call data, checkConnected call = .ok () →
        Rework (parseHex item.2.data) (parseHex data) →
        TakenBack smallHashes (secondRequest smallHashes).2 item.1.toCBlockHeader call data) ∧
    ∃ older newer, Reached injectiveHashes id bestBlock (secondRequest injectiveHashes).2 [newer, older] ∧
      [newer, older].Pairwise fun a b => a.1.hashMerkleRoot ≠ b.1.hashMerkleRoot := by
  constructor
  · obtain ⟨older, newer, reached⟩ := @reached_second smallHashes (by decide) (by decide)
      (by decide) (by decide) (by decide)
    refine ⟨older, newer, reached, (getwork_takes_back rfl reached).1 ?_ ?_⟩
    · exact fun tx => Nat.mod_lt _ (Nat.two_pow_pos 256)
    · exact fun a b => Nat.mod_lt _ (Nat.two_pow_pos 256)
  · obtain ⟨older, newer, reached⟩ := @reached_second injectiveHashes (by decide) (by decide)
      (by decide) (by decide) (by decide)
    refine ⟨older, newer, reached, (getwork_takes_back rfl reached).2 ?_ ?_ ?_⟩
    · exact fun a b same => code_injective (Nat.mul_left_cancel (by decide) same)
    · exact injective_paired
    · intro tx _
      exact even_ne_hashPair (code tx.serialized)

/-- After a request that failed and another one, work for the same best block is not found. -/
theorem getwork_forgets :
    let first := request smallHashes id bestBlock (callAt 0 0) { pindexBest := 0 }
    let second := request smallHashes id bestBlock (callWithoutKey 61 1) first.2
    let third := request smallHashes id bestBlock (callAt 62 1) second.2
    first.1.isOk = true ∧ second.1.isOk = false ∧ third.1.isOk = true ∧ third.2.pindexBest = first.2.pindexBest ∧
      (first.1.toOption.map fun work => (submit smallHashes (callAt 63 1) work.data third.2).1.toOption) =
        some (some none) := by
  decide +kernel

end BitCrystal
