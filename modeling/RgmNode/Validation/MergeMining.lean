import RgmNode.Validation.Header

/-!
# Merge mining and the proof of work of stored blocks

The parameter tree switches to `auxpowConsensus` at `nAuxpowHeight`.  The set it switches to
still allows legacy blocks, and `ContextualCheckBlockHeader` reads "legacy blocks are allowed"
as "auxpow is not active yet".  It also asks for our chain id, a check that is made when a
block is read back but not when its header is accepted.
-/

namespace RgmNode

variable {cr : Crypto} {net : Network} {ctx : HeaderContext} {block : CBlockHeader}
  {pindexPrev : CBlockIndex} {nAdjustedTime : Int}

/-! ## 1. Activation -/

/-- A header that is merge mined for our chain on top of `pindexPrev` and meets every rule
that does not concern activation. -/
structure MergeMined (cr : Crypto) (net : Network) (ctx : HeaderContext) (block : CBlockHeader)
    (pindexPrev : CBlockIndex) (nAdjustedTime : Int) : Prop where
  flag : block.isAuxpow = true
  chainId : block.getChainId =
    (net.params.getConsensus (pindexPrev.nHeight + 1)).nAuxpowChainId
  auxpow : block.auxpow.isSome = true
  pow : checkAuxPowProofOfWork cr block (net.params.getConsensus (pindexPrev.nHeight + 1)) =
    .ok ()
  diffbits : block.nBits = getNextWorkRequired (some pindexPrev) block.toCPureBlockHeader
    (net.params.getConsensus (pindexPrev.nHeight + 1))
  timeTooOld : pindexPrev.getMedianTimePast < block.getBlockTime
  timeTooNew : block.getBlockTime ≤ nAdjustedTime + 7200
  version : 4 ≤ block.getBaseVersion
  checkpoint : forksBelowCheckpoint net.params ctx (pindexPrev.nHeight + 1) = false

/-- The activation rule for one header: from `nAuxpowHeight` on a merge-mined header is
accepted, below it every header with the auxpow flag is rejected. -/
def MergeMiningActivates (cr : Crypto) (net : Network) (ctx : HeaderContext)
    (block : CBlockHeader) (pindexPrev : CBlockIndex) (nAdjustedTime : Int) : Prop :=
  (net.params.consensus.nAuxpowHeight ≤ pindexPrev.nHeight + 1 →
    MergeMined cr net ctx block pindexPrev nAdjustedTime →
    contextualCheckBlockHeader net.params ctx block pindexPrev nAdjustedTime = .ok ()) ∧
  (pindexPrev.nHeight + 1 < net.params.consensus.nAuxpowHeight → block.isAuxpow = true →
    contextualCheckBlockHeader net.params ctx block pindexPrev nAdjustedTime ≠ .ok ())

/-- The rule is met exactly where it asks for a rejection: for no merge-mined header from
`nAuxpowHeight` on. -/
theorem mergeMiningActivates_iff (cr : Crypto) (net : Network) (ctx : HeaderContext)
    (block : CBlockHeader) (pindexPrev : CBlockIndex) (nAdjustedTime : Int) :
    MergeMiningActivates cr net ctx block pindexPrev nAdjustedTime ↔
      pindexPrev.nHeight + 1 < net.params.consensus.nAuxpowHeight ∨
        ¬ MergeMined cr net ctx block pindexPrev nAdjustedTime := by
  constructor
  · rintro ⟨accepts, -⟩
    by_cases hlt : pindexPrev.nHeight + 1 < net.params.consensus.nAuxpowHeight
    · exact .inl hlt
    · refine .inr fun hm => ?_
      have hok := accepts (not_lt.mp hlt) hm
      rw [early_auxpow_of_isAuxpow net hm.flag] at hok
      cases hok
  · intro h
    refine ⟨fun hle hm => ?_, fun _ hflag => ?_⟩
    · rcases h with hlt | hn
      · exact absurd hle (not_le.mpr hlt)
      · exact absurd hm hn
    · rw [early_auxpow_of_isAuxpow net hflag]
      simp

/-! ### A merge-mined header at the activation height -/

def zeroCrypto : Crypto := ⟨fun _ => 0, fun _ => 0, fun _ => 0, fun _ => 0⟩

/-- A chain of `n` blocks on top of a first one, all with the same header data. -/
def steadyChain (d : BlockIndexData) : Nat → CBlockIndex
  | 0 => .root d
  | n + 1 => .child (steadyChain d n) d

theorem nHeight_steadyChain (d : BlockIndexData) (n : Nat) : (steadyChain d n).nHeight = n := by
  induction n with
  | zero => rfl
  | succ n ih => rw [steadyChain, CBlockIndex.nHeight_child, ih]

theorem getBlockTime_steadyChain (d : BlockIndexData) (n : Nat) :
    (steadyChain d n).getBlockTime = d.nTime.toNat := by
  cases n <;> rfl

theorem mem_times_steadyChain {d : BlockIndexData} {n : Nat} {t : Int}
    (h : t ∈ (steadyChain d n).times) : t = d.nTime.toNat := by
  induction n with
  | zero => exact List.mem_singleton.mp h
  | succ n ih =>
    rw [steadyChain, CBlockIndex.times_child, List.mem_cons] at h
    exact h.elim id ih

theorem getMedianTimePast_steadyChain_le (d : BlockIndexData) (n : Nat) :
    (steadyChain d n).getMedianTimePast ≤ d.nTime.toNat :=
  CBlockIndex.getMedianTimePast_le fun _ ht =>
    (mem_times_steadyChain (List.mem_of_mem_take ht)).le

/-- A header on top of `steadyChain` that is late enough for the emergency rule of `main`,
which then asks for the least difficulty. -/
theorem getNextWorkRequired_steadyChain {d : BlockIndexData} {n h : Nat} {b : CPureBlockHeader}
    (hn : 363 ≤ n) (ht : (d.nTime.toNat : Int) + 10800 < b.getBlockTime) :
    getNextWorkRequired (some (steadyChain d n)) b (mainParams.getConsensus h) = 0x1e0fffff := by
  have hshared : ∀ {β : Type} (f : Consensus.Params → β),
      f mainParams.auxpowConsensus = f mainParams.consensus →
      f (mainParams.getConsensus h) = f mainParams.consensus :=
    fun f hf => getConsensus_shared .main h f hf
  rw [getNextWorkRequired_eq_limit (hshared (·.fPowNoRetargeting) rfl)]
  · rw [hshared (·.powLimit) rfl]
    decide
  · have hheight : (mainParams.getConsensus h).nEmergencyMinDiffHeight = 364 :=
      hshared (·.nEmergencyMinDiffHeight) rfl
    have htimeout : (mainParams.getConsensus h).nEmergencyMinDiffTimeout = 10800 :=
      hshared (·.nEmergencyMinDiffTimeout) rfl
    simp only [emergencyMinDifficulty, hheight, htimeout, nHeight_steadyChain,
      getBlockTime_steadyChain]
    simp only [ge_iff_le, gt_iff_lt, Bool.and_eq_true, decide_eq_true_eq]
    omega

def sampleData : BlockIndexData :=
  { hashBlock := 1, nVersion := 4, hashMerkleRoot := 0
    nTime := 1800000000, nBits := 0x1e0fffff, nNonce := 0 }

/-- The parent: a block of `main` one below the activation height. -/
def sampleParent : CBlockIndex := steadyChain sampleData 499999

/-- The coinbase script of the parent chain: the chain merkle root, the size of the tree
and a nonce. -/
def sampleAuxPow : CAuxPow :=
  { tx :=
      { nVersion := 1
        vin := [⟨COutPoint.null, List.replicate 32 0 ++ [1, 0, 0, 0, 0, 0, 0, 0],
          CTxIn.sequenceFinal, []⟩]
        vout := []
        nLockTime := 0 }
    hashBlock := 0
    vMerkleBranch := []
    nIndex := 0
    vChainMerkleBranch := []
    nChainIndex := 0
    parentBlock := ⟨1, 0, 0, 0, 0, 0⟩ }

def sampleMergeMined : CBlockHeader :=
  { nVersion := 0x52470104
    hashPrevBlock := 1
    hashMerkleRoot := 0
    nTime := 1800010801
    nBits := 0x1e0fffff
    nNonce := 0
    auxpow := some sampleAuxPow }

def noCheckpoints : HeaderContext := ⟨false, fun _ => none⟩

/-- At the activation height of `main` a merge-mined header that meets every other rule is
rejected as an early auxpow block. -/
theorem sampleMergeMined_rejected :
    sampleParent.nHeight + 1 = mainParams.consensus.nAuxpowHeight ∧
    MergeMined zeroCrypto .main noCheckpoints sampleMergeMined sampleParent 1800010801 ∧
    contextualCheckBlockHeader mainParams noCheckpoints sampleMergeMined sampleParent 1800010801 =
      .error (.dos 100 .invalid "early-auxpow-block") := by
  have hheight : sampleParent.nHeight + 1 = mainParams.consensus.nAuxpowHeight := by
    rw [sampleParent, nHeight_steadyChain]
    rfl
  have hparams : Network.main.params.getConsensus (sampleParent.nHeight + 1) =
      mainParams.auxpowConsensus := getConsensus_of_le .main _ hheight.ge
  refine ⟨hheight, ?_, early_auxpow_of_isAuxpow .main (by decide)⟩
  constructor
  · decide
  · rw [hparams]
    decide
  · decide
  · rw [hparams]
    decide +kernel
  · exact (getNextWorkRequired_steadyChain (by decide) (by decide)).symm
  · exact lt_of_le_of_lt (getMedianTimePast_steadyChain_le _ _) (by decide)
  · decide
  · decide
  · rfl

/-! ## 2. Reading accepted blocks back -/

theorem isLegacy_eq_false_of_version {h : CPureBlockHeader} (hv : 4 ≤ h.getBaseVersion) :
    h.isLegacy = false := by
  by_contra hl
  simp only [CPureBlockHeader.isLegacy, Bool.not_eq_false, Bool.or_eq_true, Bool.and_eq_true,
    beq_iff_eq] at hl
  unfold CPureBlockHeader.getBaseVersion at hv
  rcases hl with h1 | ⟨h2, -⟩
  · rw [h1] at hv
    exact absurd hv (by decide)
  · rw [h2] at hv
    exact absurd hv (by decide)

theorem four_le_getBaseVersion_of_accepted
    (h : contextualCheckBlockHeader net.params ctx block pindexPrev nAdjustedTime = .ok ()) :
    4 ≤ block.getBaseVersion := by
  refine (contextualCheckBlockHeader_ok_iff.mp h).bip65.resolve_right ?_
  have h1 : (net.params.getConsensus (pindexPrev.nHeight + 1)).bip65Height = 1 := by
    rw [getConsensus_shared net _ (·.bip65Height) (by cases net <;> rfl)]
    cases net <;> rfl
  omega

/-- An accepted header carries no auxpow, so its own hash has to meet the target. -/
theorem accepted_pow
    (hcheck : checkBlockHeader cr net.params block = .ok ())
    (hctx : contextualCheckBlockHeader net.params ctx block pindexPrev nAdjustedTime = .ok ()) :
    block.auxpow = none ∧
      checkProofOfWork (block.getPoWHash cr) block.nBits (net.params.getConsensus 0) = true := by
  have hflag := isAuxpow_eq_false_of_accepted hctx
  have hok : checkAuxPowProofOfWork cr block (net.params.getConsensus 0) = .ok () := by
    simp only [checkBlockHeader, if_true] at hcheck
    split at hcheck
    · next heq => exact heq
    · cases hcheck
  unfold checkAuxPowProofOfWork at hok
  split at hok
  · cases hok
  split at hok
  · next hnone =>
    refine ⟨hnone, ?_⟩
    simp only [hflag, Bool.false_eq_true, if_false] at hok
    split at hok
    · cases hok
    · next hpow => simpa using hpow
  · simp [hflag] at hok

/-- Both parameter sets of a network have the same limit of the target. -/
theorem checkProofOfWork_height_irrel (hash : Uint256) (nBits : UInt32) (h h' : Nat) :
    checkProofOfWork hash nBits (net.params.getConsensus h) =
      checkProofOfWork hash nBits (net.params.getConsensus h') := by
  have hlimit : ∀ k, (net.params.getConsensus k).powLimit = net.params.consensus.powLimit :=
    fun k => getConsensus_shared net k (·.powLimit) (by cases net <;> rfl)
  unfold checkProofOfWork
  rw [hlimit h, hlimit h']

theorem nAuxpowChainId_eq (net : Network) (h : Nat) :
    (net.params.getConsensus h).nAuxpowChainId = 0x5247 := by
  rw [getConsensus_shared net h (·.nAuxpowChainId) (by cases net <;> rfl)]
  cases net <;> rfl

/-- Where the chain id is enforced: on `main` and `test`, from `nAuxpowHeight` on. -/
theorem fStrictChainId_eq_true_iff (net : Network) (h : Nat) :
    (net.params.getConsensus h).fStrictChainId = true ↔
      net ≠ .regtest ∧ net.params.consensus.nAuxpowHeight ≤ h := by
  rcases Nat.lt_or_ge h net.params.consensus.nAuxpowHeight with hlt | hge
  · rw [getConsensus_of_lt net h hlt]
    cases net <;> simp [Network.params, mainParams, testNetParams, regTestParams,
      mainConsensus, testNetConsensus, regTestConsensus] at hlt ⊢ <;> omega
  · rw [getConsensus_of_le net h hge]
    cases net <;> simp [Network.params, mainParams, testNetParams, regTestParams,
      mainConsensus, testNetConsensus, regTestConsensus] at hge ⊢ <;> omega

/-- The proof-of-work check of an accepted header under the parameters of any height comes
down to the check of the chain id. -/
theorem checkAuxPow_accepted_iff (h : Nat)
    (hcheck : checkBlockHeader cr net.params block = .ok ())
    (hctx : contextualCheckBlockHeader net.params ctx block pindexPrev nAdjustedTime = .ok ()) :
    checkAuxPowProofOfWork cr block (net.params.getConsensus h) = .ok () ↔
      net = .regtest ∨ h < net.params.consensus.nAuxpowHeight ∨ block.getChainId = 0x5247 := by
  obtain ⟨hnone, hpow⟩ := accepted_pow hcheck hctx
  have hlegacy := isLegacy_eq_false_of_version (four_le_getBaseVersion_of_accepted hctx)
  have hflag := isAuxpow_eq_false_of_accepted hctx
  rw [checkProofOfWork_height_irrel _ _ 0 h] at hpow
  have hstrict := fStrictChainId_eq_true_iff net h
  simp only [checkAuxPowProofOfWork, hlegacy, hnone, hflag, hpow, nAuxpowChainId_eq]
  cases hs : (net.params.getConsensus h).fStrictChainId with
  | false =>
    rw [hs] at hstrict
    simp only [Bool.false_eq_true, false_iff, not_and, not_le] at hstrict
    simp only [Bool.not_false, Bool.true_and, Bool.false_and, Bool.false_eq_true, if_false,
      Bool.not_true, true_iff]
    by_cases hr : net = .regtest
    · exact .inl hr
    · exact .inr (.inl (hstrict hr))
  | true =>
    rw [hs] at hstrict
    obtain ⟨hr, hge⟩ := hstrict.mp rfl
    by_cases hid : block.getChainId = 0x5247
    · simp [hid]
    · simp [hid, hr, not_lt.mpr hge]

/-- On `main` and `test` the version of a template is 4, with chain id 0, at every height. -/
theorem createNewBlockVersion_eq_four {h : Nat} {blockversion : Option Int32} {v : Int32}
    (hv : createNewBlockVersion net.params h blockversion = some v) (hnet : net ≠ .regtest) :
    v = 4 := by
  have hdemand : net.params.fMineBlocksOnDemand = false := by
    cases net
    · rfl
    · rfl
    · exact absurd rfl hnet
  have hset : CPureBlockHeader.setBaseVersion ⟨0, 0, 0, 0, 0, 0⟩ 4 0 =
      some ⟨4, 0, 0, 0, 0, 0⟩ := by decide
  simp only [createNewBlockVersion, fAllowLegacyBlocks_eq_true, if_true, hset, hdemand,
    Option.bind_some, Bool.false_eq_true, if_false, Option.some.injEq] at hv
  exact hv.symm

/-- Which accepted headers can be read back with the parameters of their height, and what
this means for a header with the version of a template. -/
theorem readBlockFromDisk_accepted_iff (cr : Crypto) (net : Network) (ctx : HeaderContext)
    (block : CBlockHeader) (pindexPrev : CBlockIndex) (nAdjustedTime : Int)
    (disk : CBlockIndex → Option CBlockHeader) (blockversion : Option Int32)
    (hcheck : checkBlockHeader cr net.params block = .ok ())
    (hctx : contextualCheckBlockHeader net.params ctx block pindexPrev nAdjustedTime = .ok ())
    (hdisk : disk (.child pindexPrev (block.indexData cr)) = some block) :
    (readBlockFromDisk cr disk (.child pindexPrev (block.indexData cr))
        (net.params.getConsensus (pindexPrev.nHeight + 1)) = .ok block ↔
      net = .regtest ∨ pindexPrev.nHeight + 1 < net.params.consensus.nAuxpowHeight ∨
        block.getChainId = 0x5247) ∧
    (createNewBlockVersion net.params (pindexPrev.nHeight + 1) blockversion =
        some block.nVersion →
      (readBlockFromDisk cr disk (.child pindexPrev (block.indexData cr))
          (net.params.getConsensus (pindexPrev.nHeight + 1)) = .ok block ↔
        net = .regtest ∨ pindexPrev.nHeight + 1 < net.params.consensus.nAuxpowHeight)) := by
  have hread : readBlockFromDisk cr disk (.child pindexPrev (block.indexData cr))
      (net.params.getConsensus (pindexPrev.nHeight + 1)) = .ok block ↔
      net = .regtest ∨ pindexPrev.nHeight + 1 < net.params.consensus.nAuxpowHeight ∨
        block.getChainId = 0x5247 := by
    rw [← checkAuxPow_accepted_iff (pindexPrev.nHeight + 1) hcheck hctx]
    have hhash : block.getHash cr =
        CBlockIndex.getBlockHash (.child pindexPrev (block.indexData cr)) := rfl
    simp only [readBlockFromDisk, hdisk]
    cases checkAuxPowProofOfWork cr block (net.params.getConsensus (pindexPrev.nHeight + 1)) with
    | error e => simp [Except.isOk, Except.toBool]
    | ok u => simp [Except.isOk, Except.toBool, hhash]
  refine ⟨hread, fun htemplate => ?_⟩
  rw [hread]
  constructor
  · rintro (hr | hlt | hid)
    · exact .inl hr
    · exact .inr hlt
    · -- our chain id is not in a template of `main` or `test`
      by_contra hn
      rw [not_or] at hn
      have hv := createNewBlockVersion_eq_four htemplate hn.1
      unfold CPureBlockHeader.getChainId at hid
      rw [hv] at hid
      exact absurd hid (by decide)
  · rintro (hr | hlt)
    · exact .inl hr
    · exact .inr (.inl hlt)

/-- A block on top of the genesis block of `regtest`, with the version of a template. -/
def sampleRegtest : CBlockHeader :=
  { nVersion := 4
    hashPrevBlock := regTestConsensus.hashGenesisBlock
    hashMerkleRoot := 0
    nTime := 1772066001
    nBits := 0x207fffff
    nNonce := 0
    auxpow := none }

def regtestGenesis : CBlockIndex :=
  .root { regTestParams.genesis.indexData zeroCrypto with
    hashBlock := regTestConsensus.hashGenesisBlock }

theorem sampleRegtest_readBack :
    readBlockFromDisk zeroCrypto (fun _ => some sampleRegtest)
      (.child regtestGenesis (sampleRegtest.indexData zeroCrypto))
      (regTestParams.getConsensus (regtestGenesis.nHeight + 1)) = .ok sampleRegtest :=
  (readBlockFromDisk_accepted_iff zeroCrypto .regtest noCheckpoints sampleRegtest regtestGenesis
    1772066001 (fun _ => some sampleRegtest) none (by decide +kernel) (by decide +kernel)
    rfl).1.mpr (.inl rfl)

/-- A header with the version of a template, at the activation height of `main`. -/
def sampleTemplate : CBlockHeader :=
  { nVersion := 4
    hashPrevBlock := 1
    hashMerkleRoot := 0
    nTime := 1800010801
    nBits := 0x1e0fffff
    nNonce := 0
    auxpow := none }

/-- At the activation height of `main` a header with the version of a template is accepted,
and the block can then not be read back. -/
theorem sampleTemplate_notReadBack :
    sampleParent.nHeight + 1 = mainParams.consensus.nAuxpowHeight ∧
    createNewBlockVersion mainParams 500000 none = some sampleTemplate.nVersion ∧
    checkBlockHeader zeroCrypto mainParams sampleTemplate = .ok () ∧
    contextualCheckBlockHeader mainParams noCheckpoints sampleTemplate sampleParent 1800010801 =
      .ok () ∧
    readBlockFromDisk zeroCrypto (fun _ => some sampleTemplate)
      (.child sampleParent (sampleTemplate.indexData zeroCrypto))
      (mainParams.getConsensus 500000) =
      .error "ReadBlockFromDisk: Errors in block header" := by
  have hheight : sampleParent.nHeight + 1 = 500000 := by
    rw [sampleParent, nHeight_steadyChain]
  refine ⟨hheight, by decide +kernel, by decide +kernel, ?_, by decide +kernel⟩
  rw [contextualCheckBlockHeader_ok_iff]
  have hparams : mainParams.getConsensus (sampleParent.nHeight + 1) =
      mainParams.auxpowConsensus := getConsensus_of_le .main _ hheight.ge
  constructor
  · exact .inl (by rw [hparams]; rfl)
  · exact .inr rfl
  · exact (getNextWorkRequired_steadyChain (by decide) (by decide)).symm
  · rfl
  · exact lt_of_le_of_lt (getMedianTimePast_steadyChain_le _ _) (by decide)
  · decide
  · exact .inl (by decide)
  · exact .inl (by decide)

end RgmNode
