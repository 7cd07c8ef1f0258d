import BitCrystal.Model.Money
import BitCrystal.Model.ProcessBlock

/-! # getwork

All requests share the block of the current template, whose coinbase is rewritten for each. A submission is matched by
its merkle root to the block and the coinbase script saved for it. The static variables of `getwork` are a session.
What becomes of a rebuilt block in `CheckWork` is left out.
-/

namespace BitCrystal

open LittleEndian

/-- `hexmap` of `HexStr`. -/
def hexmap (n : UInt8) : UInt8 := if n < 10 then 48 + n else 87 + n

/-- `HexStr`. -/
def hexStr (vch : valtype) : List UInt8 := vch.flatMap fun val : UInt8 => [hexmap (val >>> 4), hexmap (val &&& 15)]

def phexdigit (c : UInt8) : Option UInt8 :=
  if 48 ≤ c ∧ c ≤ 57 then some (c - 48)
  else if 65 ≤ c ∧ c ≤ 70 then some (c - 55)
  else if 97 ≤ c ∧ c ≤ 102 then some (c - 87)
  else none

/-- `ParseHex`, which stops at the first character that is no digit. -/
def parseHex : List UInt8 → valtype
  | [] => []
  | c :: psz =>
    if isspace c then parseHex psz
    else match phexdigit c, psz with
      | some n, c :: psz =>
        match phexdigit c with
        | some low => (n <<< 4 ||| low) :: parseHex psz
        | none => []
      | _, _ => []

/-- `ByteReverse` of each word of a buffer. -/
def byteReverse : List UInt8 → List UInt8
  | a :: b :: c :: d :: words => d :: c :: b :: a :: byteReverse words
  | rest => rest

/-- `FormatHashBlocks`: the padding of SHA-256. -/
def formatHashBlocks (buffer : List UInt8) : List UInt8 :=
  let blocks := 1 + (buffer.length + 8) / 64
  buffer ++ 0x80 :: List.replicate (64 * blocks - buffer.length - 5) 0 ++ (encode 4 (buffer.length * 8)).reverse

/-- The header as it lies in memory. -/
def CBlockHeader.memory (header : CBlockHeader) : List UInt8 :=
  encodeInt 4 header.nVersion ++ encode 32 header.hashPrevBlock ++ encode 32 header.hashMerkleRoot ++
    encode 4 header.nTime ++ encode 4 header.nBits ++ encode 4 header.nNonce

/-- The buffers `pmidstate`, `pdata` and `phash1`. -/
structure HashBuffers where
  midstate : List UInt8
  data : List UInt8
  hash1 : List UInt8

def formatHashBuffers (sha256Transform : List UInt8 → List UInt8) (header : CBlockHeader) : HashBuffers :=
  let block := byteReverse (formatHashBlocks header.memory)
  { midstate := sha256Transform block
    data := block
    hash1 := byteReverse (formatHashBlocks (List.replicate 32 0)) }

/-- `UpdateTime`. -/
def CBlock.updateTime (P : Platform) (chain : List CBlockIndex) (nAdjustedTime : ℤ) (block : CBlock) : Check CBlock := do
  let nMedianTimePast ← getMedianTimePast chain
  let nTime := (max (nMedianTimePast + 1 : ℤ) nAdjustedTime % 2 ^ 32).toNat
  -- Updating time can change work required on testnet:
  if P.fTestNet then do
    let nBits ← getNextWorkRequired P chain nTime
    return { block with nTime, nBits }
  else return { block with nTime }

/-- `vtx[0].vin[0].scriptSig = scriptSig`. -/
def CBlock.setScriptSig (scriptSig : CScript) (block : CBlock) : CBlock :=
  match block.vtx with
  | [] => block
  | tx :: vtx => { block with vtx := { tx with vin := tx.vin.modifyHead fun txin => { txin with scriptSig } } :: vtx }

/-- `hashMerkleRoot = BuildMerkleTree()`. -/
def CBlock.setMerkleRoot (P : Platform) (block : CBlock) : CBlock :=
  { block with hashMerkleRoot := block.buildMerkleTree P }

/-- What a new block takes from the wallet and the memory pool. -/
structure Selection where
  scriptPubKey : CScript
  nFees : ℤ
  vtx : List CTransaction

/-- `CreateNewBlock`. The selection is `none` when there is no key, and an error when the block would not connect. -/
def createNewBlock (P : Platform) (chain : List CBlockIndex) (nAdjustedTime : ℤ) (selection : Check (Option Selection)) :
    Check (Option CBlock) := do
  match ← selection with
  | none => return none
  | some selection =>
    let pindexPrev ← assertSome .undefined chain.head?
    let hashPrevBlock ← assertSome .undefined pindexPrev.phashBlock
    let pblock : CBlock := { hashPrevBlock, hashMerkleRoot := 0, nTime := 0, nBits := 0, nNonce := 0, vtx := [] }
    let pblock ← pblock.updateTime P chain nAdjustedTime
    let nBits ← getNextWorkRequired P chain pblock.nTime
    let nValue ← getBlockValue (pindexPrev.nHeight + 1) selection.nFees nBits
    let txNew : CTransaction :=
      { vin := [{ prevout := .null, scriptSig := [0, 0] }], vout := [⟨nValue, selection.scriptPubKey⟩] }
    return some { pblock with nBits, vtx := txNew :: selection.vtx }

/-- What a call finds outside the session. -/
structure GetWorkCall where
  connected : Bool := true
  fInitialBlockDownload : Bool := false
  nTransactionsUpdated : ℕ := 0
  nTime : ℤ := 0
  nAdjustedTime : ℤ := 0
  selection : Check (Option Selection)

/-- The static variables. A pointer to a block is its position among the templates. -/
structure GetWorkSession where
  pindexBest : BlockPtr
  mapNewBlock : Uint256 → Option (ℕ × CScript) := fun _ => none
  vNewBlockTemplate : List CBlock := []
  nTransactionsUpdatedLast : ℕ := 0
  pindexPrev : Option BlockPtr := none
  nStart : ℤ := 0
  pblocktemplate : Option ℕ := none
  nExtraNonce : UInt32 := 0
  /-- Of `IncrementExtraNonce`. -/
  hashPrevBlock : Uint256 := 0

abbrev GetWorkAction := StateAction GetWorkSession Failure

/-- `/P2SH/`. -/
def COINBASE_FLAGS : CScript := CScript.pushData [0x2f, 0x50, 0x32, 0x53, 0x48, 0x2f]

def coinbaseScript (nHeight : ℕ) (nExtraNonce : UInt32) : CScript :=
  CScript.pushHeight nHeight ++ CScript.pushData (CBigNum.getvch nExtraNonce.toNat) ++ COINBASE_FLAGS

/-- The result of a request. -/
structure Work where
  midstate : List UInt8
  data : List UInt8
  hash1 : List UInt8
  target : List UInt8

namespace GetWorkSession

variable (P : Platform) (sha256Transform : List UInt8 → List UInt8) (blocks : BlockPtr → List CBlockIndex)

def incrementExtraNonce (pindexPrev : CBlockIndex) (pblock : CBlock) : GetWorkAction CBlock := do
  let session ← StateAction.get
  -- Update nExtraNonce
  let nExtraNonce := if session.hashPrevBlock ≠ pblock.hashPrevBlock then 0 else session.nExtraNonce
  let nExtraNonce := nExtraNonce + 1
  StateAction.modify fun session => { session with nExtraNonce, hashPrevBlock := pblock.hashPrevBlock }
  let nHeight := pindexPrev.nHeight + 1 -- Height first in coinbase required for block.version=2
  let scriptSig := coinbaseScript nHeight nExtraNonce
  StateAction.lift (rejectIf (100 < scriptSig.length) (.assertion "scriptSig.size() <= 100"))
  return (pblock.setScriptSig scriptSig).setMerkleRoot P

/-- The first part of a request: make a new template if there is a new block or, after a minute, a new transaction. -/
def refresh (call : GetWorkCall) : GetWorkAction Unit := fun session =>
  if session.pindexPrev ≠ some session.pindexBest ∨
      session.nTransactionsUpdatedLast ≠ call.nTransactionsUpdated ∧ 60 < call.nTime - session.nStart then
    let session : GetWorkSession :=
      if session.pindexPrev ≠ some session.pindexBest then
        -- Deallocate old blocks since they're obsolete now
        { session with mapNewBlock := fun _ => none, vNewBlockTemplate := [] }
      else session
    -- Clear pindexPrev so future getworks make a new block, despite any failures from here on
    let session : GetWorkSession :=
      { session with pindexPrev := none, nTransactionsUpdatedLast := call.nTransactionsUpdated, nStart := call.nTime }
    match createNewBlock P (blocks session.pindexBest) call.nAdjustedTime call.selection with
    | .error failure => (.error failure, session)
    | .ok none => (.error (.throws "Out of memory"), { session with pblocktemplate := none })
    | .ok (some block) =>
      (.ok (), { session with
        vNewBlockTemplate := session.vNewBlockTemplate ++ [block]
        pblocktemplate := some session.vNewBlockTemplate.length
        pindexPrev := some session.pindexBest })
  else (.ok (), session)

def checkConnected (call : GetWorkCall) : Check Unit := do
  rejectIf (¬ call.connected) (.throws "BitCrystal is not connected!")
  rejectIf call.fInitialBlockDownload (.throws "BitCrystal is downloading blocks...")

/-- `getwork` without parameters. -/
def request (call : GetWorkCall) : GetWorkAction Work := do
  StateAction.lift (checkConnected call)
  refresh P blocks call
  let session ← StateAction.get
  let pblocktemplate ← StateAction.lift (assertSome .undefined session.pblocktemplate)
  let pblock ← StateAction.lift (assertSome .undefined session.vNewBlockTemplate[pblocktemplate]?)
  let pindexPrev ← StateAction.lift (assertSome .undefined session.pindexPrev)
  let pindex ← StateAction.lift (assertSome .undefined (blocks pindexPrev).head?)
  -- Update nTime
  let pblock ← StateAction.lift (pblock.updateTime P (blocks pindexPrev) call.nAdjustedTime)
  let pblock ← incrementExtraNonce P pindex { pblock with nNonce := 0 }
  -- Save
  let scriptSig ← StateAction.lift (assertSome .undefined
    ((pblock.vtx.head?.bind fun tx => tx.vin.head?).map CTxIn.scriptSig))
  StateAction.modify fun session => { session with
    vNewBlockTemplate := session.vNewBlockTemplate.set pblocktemplate pblock
    mapNewBlock := Function.update session.mapNewBlock pblock.hashMerkleRoot (some (pblocktemplate, scriptSig)) }
  let buffers := formatHashBuffers sha256Transform pblock.toCBlockHeader
  return {
    midstate := hexStr buffers.midstate
    data := hexStr buffers.data
    hash1 := hexStr buffers.hash1
    target := hexStr (encode 32 (setCompact pblock.nBits).natAbs) }

/-- `getwork` with data: the block that is given to `CheckWork`, `none` where it returns `false` before. -/
def submit (call : GetWorkCall) (data : List UInt8) : GetWorkAction (Option CBlock) := do
  StateAction.lift (checkConnected call)
  let vchData := parseHex data
  StateAction.lift (rejectIf (vchData.length ≠ 128) (.throws "Invalid parameter"))
  let pdata := byteReverse vchData
  let session ← StateAction.get
  -- Get saved block
  match session.mapNewBlock (decode ((pdata.drop 36).take 32)) with
  | none => return none
  | some (position, scriptSig) =>
    let pblock ← StateAction.lift (assertSome .undefined session.vNewBlockTemplate[position]?)
    let pblock : CBlock :=
      { pblock with nTime := decode ((pdata.drop 68).take 4), nNonce := decode ((pdata.drop 76).take 4) }
    let pblock := (pblock.setScriptSig scriptSig).setMerkleRoot P
    StateAction.modify fun session =>
      { session with vNewBlockTemplate := session.vNewBlockTemplate.set position pblock }
    return some pblock

/-- The block that `pblocktemplate` points to. -/
def template (session : GetWorkSession) : Option CBlock := session.pblocktemplate.bind (session.vNewBlockTemplate[·]?)

end GetWorkSession

end BitCrystal
