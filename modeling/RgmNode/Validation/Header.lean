import RgmNode.Consensus.AuxPow

/-!
# Header checks and reading blocks back

`CheckBlockHeader`, `ContextualCheckBlockHeader`, `ReadBlockFromDisk` and the version that
`CreateNewBlock` gives to templates.  A `Reject` is the `CValidationState` after a failed check.

* `contextualCheckBlockHeader_ok_iff` — acceptance is the conjunction of the rules
-/

namespace RgmNode

/-- The reject codes of `consensus/validation.h`; `unset` is the code 0 of a reject that is
not sent to the peer. -/
inductive RejectCode where
  | unset
  | malformed
  | invalid
  | obsolete
  | duplicate
  | nonstandard
  | dust
  | insufficientfee
  | checkpoint
deriving DecidableEq, Repr

structure Reject where
  nDoS : Nat
  chRejectCode : RejectCode
  strRejectReason : String
  corruptionPossible : Bool
  strDebugMessage : String
deriving DecidableEq, Repr

/-- `state.DoS(level, ret, code, reason, corruption, debug)` -/
def Reject.dos (level : Nat) (code : RejectCode) (reason : String)
    (corruptionIn : Bool := false) (strDebugMessage : String := "") : Reject :=
  ⟨level, code, reason, corruptionIn, strDebugMessage⟩

/-- `state.Invalid(ret, code, reason, debug)` -/
def Reject.invalid (code : RejectCode) (reason : String) (strDebugMessage : String := "") :
    Reject :=
  Reject.dos 0 code reason false strDebugMessage

/-! ## 1. Checks without context -/

/-- `CheckBlockHeader`: proof of work under the parameters of height 0. -/
def checkBlockHeader (cr : Crypto) (cp : CChainParams) (block : CBlockHeader)
    (fCheckPOW : Bool := true) : Except Reject Unit :=
  if fCheckPOW then
    match checkAuxPowProofOfWork cr block (cp.getConsensus 0) with
    | .ok _ => .ok ()
    | .error _ => .error (.dos 50 .invalid "high-hash" false "proof of work failed")
  else .ok ()

/-! ## 2. Checks against the parent -/

/-- The parts of the node's state that the header checks read: whether checkpoints are
enforced and which entry `mapBlockIndex` holds under a hash. -/
structure HeaderContext where
  fCheckpointsEnabled : Bool
  find : Uint256 → Option CBlockIndex

/-- `Checkpoints::GetLastCheckpoint`: the last checkpoint whose block is known. -/
def getLastCheckpoint (mapCheckpoints : List (Nat × Uint256))
    (find : Uint256 → Option CBlockIndex) : Option CBlockIndex :=
  mapCheckpoints.reverse.findSome? fun c => find c.2

def forksBelowCheckpoint (cp : CChainParams) (ctx : HeaderContext) (nHeight : Nat) : Bool :=
  ctx.fCheckpointsEnabled &&
    match getLastCheckpoint cp.mapCheckpoints ctx.find with
    | some pcheckpoint => nHeight < pcheckpoint.nHeight
    | none => false

def hexDigit (n : Nat) : Char :=
  "0123456789abcdef".toList.getD n '0'

/-- `%08x` -/
def hex8 (x : UInt32) : String :=
  String.ofList ((List.range 8).reverse.map fun i => hexDigit (x.toNat / 16 ^ i % 16))

/-- `ContextualCheckBlockHeader`; every caller passes a parent that is not null. -/
def contextualCheckBlockHeader (cp : CChainParams) (ctx : HeaderContext) (block : CBlockHeader)
    (pindexPrev : CBlockIndex) (nAdjustedTime : Int) : Except Reject Unit :=
  let nHeight := pindexPrev.nHeight + 1
  let consensusParams := cp.getConsensus nHeight
  if !consensusParams.fAllowLegacyBlocks && block.isLegacy then
    .error (.dos 100 .invalid "late-legacy-block")
  else if consensusParams.fAllowLegacyBlocks && block.isAuxpow then
    .error (.dos 100 .invalid "early-auxpow-block")
  else if block.nBits ≠ getNextWorkRequired (some pindexPrev) block.toCPureBlockHeader
      consensusParams then
    .error (.dos 100 .invalid "bad-diffbits" false "incorrect proof of work")
  else if forksBelowCheckpoint cp ctx nHeight then
    .error (.dos 100 .checkpoint "bad-fork-prior-to-checkpoint")
  else if block.getBlockTime ≤ pindexPrev.getMedianTimePast then
    .error (.invalid .invalid "time-too-old" "block's timestamp is too early")
  else if block.getBlockTime > nAdjustedTime + 2 * 60 * 60 then
    .error (.invalid .invalid "time-too-new" "block timestamp too far in the future")
  else if (block.getBaseVersion < 3 ∧ nHeight ≥ consensusParams.bip66Height) ∨
      (block.getBaseVersion < 4 ∧ nHeight ≥ consensusParams.bip65Height) then
    .error (.invalid .obsolete
      ("bad-version(0x" ++ hex8 block.getBaseVersion.toUInt32 ++ ")")
      ("rejected nVersion=0x" ++ hex8 block.getBaseVersion.toUInt32 ++ " block"))
  else .ok ()

/-! ## 3. Reading back -/

/-- `ReadBlockFromDisk(block, pindex, params, fCheckPOW)`.  The block file is a function
from the entry to what `filein >> block` yields there, `none` where opening or
deserialising fails. -/
def readBlockFromDisk (cr : Crypto) (disk : CBlockIndex → Option CBlockHeader)
    (pindex : CBlockIndex) (consensusParams : Consensus.Params) (fCheckPOW : Bool := true) :
    Except String CBlockHeader :=
  match disk pindex with
  | none => .error "ReadBlockFromDisk: OpenBlockFile failed"
  | some block =>
    if fCheckPOW && (checkAuxPowProofOfWork cr block consensusParams).isOk = false then
      .error "ReadBlockFromDisk: Errors in block header"
    else if block.getHash cr ≠ pindex.getBlockHash then
      .error "ReadBlockOrHeader(CBlock&, CBlockIndex*): GetHash() doesn't match index"
    else .ok block

/-- The version `CreateNewBlock` puts into a template of height `nHeight`; `blockversion` is
the argument `-blockversion`, which only networks that mine on demand read.  `none` where an
assertion of `SetBaseVersion` fails. -/
def createNewBlockVersion (cp : CChainParams) (nHeight : Nat) (blockversion : Option Int32) :
    Option Int32 :=
  let consensus := cp.getConsensus nHeight
  let nChainId := if consensus.fAllowLegacyBlocks then 0 else consensus.nAuxpowChainId
  -- the block comes fresh from `CBlockTemplate`
  let pblock : CPureBlockHeader := ⟨0, 0, 0, 0, 0, 0⟩
  (pblock.setBaseVersion 4 nChainId).bind fun pblock =>
    if cp.fMineBlocksOnDemand then
      (pblock.setBaseVersion (blockversion.getD pblock.getBaseVersion) nChainId).map (·.nVersion)
    else some pblock.nVersion

/-! ## 4. What acceptance means -/

variable {cr : Crypto} {cp : CChainParams} {ctx : HeaderContext} {block : CBlockHeader}
  {pindexPrev : CBlockIndex} {nAdjustedTime : Int}

/-- The rules of `ContextualCheckBlockHeader`, one per check. -/
structure HeaderRules (cp : CChainParams) (ctx : HeaderContext) (block : CBlockHeader)
    (pindexPrev : CBlockIndex) (nAdjustedTime : Int) : Prop where
  legacy : (cp.getConsensus (pindexPrev.nHeight + 1)).fAllowLegacyBlocks = true ∨
    block.isLegacy = false
  auxpow : (cp.getConsensus (pindexPrev.nHeight + 1)).fAllowLegacyBlocks = false ∨
    block.isAuxpow = false
  diffbits : block.nBits = getNextWorkRequired (some pindexPrev) block.toCPureBlockHeader
    (cp.getConsensus (pindexPrev.nHeight + 1))
  checkpoint : forksBelowCheckpoint cp ctx (pindexPrev.nHeight + 1) = false
  timeTooOld : pindexPrev.getMedianTimePast < block.getBlockTime
  timeTooNew : block.getBlockTime ≤ nAdjustedTime + 7200
  bip66 : 3 ≤ block.getBaseVersion ∨
    pindexPrev.nHeight + 1 < (cp.getConsensus (pindexPrev.nHeight + 1)).bip66Height
  bip65 : 4 ≤ block.getBaseVersion ∨
    pindexPrev.nHeight + 1 < (cp.getConsensus (pindexPrev.nHeight + 1)).bip65Height

theorem contextualCheckBlockHeader_ok_iff :
    contextualCheckBlockHeader cp ctx block pindexPrev nAdjustedTime = .ok () ↔
      HeaderRules cp ctx block pindexPrev nAdjustedTime := by
  constructor
  · intro h
    simp only [contextualCheckBlockHeader] at h
    split at h
    · cases h
    next hLegacy =>
    split at h
    · cases h
    next hAuxpow =>
    split at h
    · cases h
    next hBits =>
    split at h
    · cases h
    next hCheckpoint =>
    split at h
    · cases h
    next hOld =>
    split at h
    · cases h
    next hNew =>
    split at h
    · cases h
    next hVersion =>
    simp only [Bool.and_eq_true, Bool.not_eq_true', not_and, Bool.not_eq_true, not_or,
      ge_iff_le, not_le] at hLegacy hAuxpow hCheckpoint hVersion
    refine ⟨?_, ?_, not_not.mp hBits, hCheckpoint, by omega, by omega, ?_, ?_⟩
    · cases hf : (cp.getConsensus (pindexPrev.nHeight + 1)).fAllowLegacyBlocks
      · exact .inr (hLegacy hf)
      · exact .inl rfl
    · cases hf : (cp.getConsensus (pindexPrev.nHeight + 1)).fAllowLegacyBlocks
      · exact .inl rfl
      · exact .inr (hAuxpow hf)
    · by_cases h3 : block.getBaseVersion < 3
      · exact .inr (hVersion.1 h3)
      · exact .inl (Int32.not_lt.mp h3)
    · by_cases h4 : block.getBaseVersion < 4
      · exact .inr (hVersion.2 h4)
      · exact .inl (Int32.not_lt.mp h4)
  · intro r
    have hVersion : ¬ ((block.getBaseVersion < 3 ∧ pindexPrev.nHeight + 1 ≥
        (cp.getConsensus (pindexPrev.nHeight + 1)).bip66Height) ∨
        (block.getBaseVersion < 4 ∧ pindexPrev.nHeight + 1 ≥
          (cp.getConsensus (pindexPrev.nHeight + 1)).bip65Height)) := by
      rintro (⟨hv, hh⟩ | ⟨hv, hh⟩)
      · exact r.bip66.elim (fun h => Int32.not_le.mpr hv h) (fun h => by omega)
      · exact r.bip65.elim (fun h => Int32.not_le.mpr hv h) (fun h => by omega)
    have hLegacy : (!(cp.getConsensus (pindexPrev.nHeight + 1)).fAllowLegacyBlocks &&
        block.isLegacy) = false := by
      rcases r.legacy with h | h <;> simp [h]
    have hAuxpow : ((cp.getConsensus (pindexPrev.nHeight + 1)).fAllowLegacyBlocks &&
        block.isAuxpow) = false := by
      rcases r.auxpow with h | h <;> simp [h]
    have hOld := r.timeTooOld
    have hNew := r.timeTooNew
    simp only [contextualCheckBlockHeader]
    rw [if_neg (by simp [hLegacy]), if_neg (by simp [hAuxpow]),
      if_neg (not_not.mpr r.diffbits), if_neg (by simp [r.checkpoint]),
      if_neg (by omega), if_neg (by omega), if_neg hVersion]

/-- Both parameter sets of every shipped network allow legacy blocks. -/
theorem fAllowLegacyBlocks_eq_true (net : Network) (h : Nat) :
    (net.params.getConsensus h).fAllowLegacyBlocks = true := by
  rw [getConsensus_shared net h (·.fAllowLegacyBlocks) (by cases net <;> rfl)]
  cases net <;> rfl

theorem isAuxpow_eq_false_of_accepted {net : Network}
    (h : contextualCheckBlockHeader net.params ctx block pindexPrev nAdjustedTime = .ok ()) :
    block.isAuxpow = false := by
  have r := (contextualCheckBlockHeader_ok_iff.mp h).auxpow
  rw [fAllowLegacyBlocks_eq_true net] at r
  exact r.resolve_left (by decide)

/-- A header with the auxpow flag is turned away by the rule for early auxpow blocks. -/
theorem early_auxpow_of_isAuxpow (net : Network) (h : block.isAuxpow = true) :
    contextualCheckBlockHeader net.params ctx block pindexPrev nAdjustedTime =
      .error (.dos 100 .invalid "early-auxpow-block") := by
  simp [contextualCheckBlockHeader, fAllowLegacyBlocks_eq_true net, h]

end RgmNode
