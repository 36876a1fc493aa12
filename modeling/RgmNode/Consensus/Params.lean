import RgmNode.Primitives.Header

/-!
# Consensus parameters of the three networks

`Consensus::Params`, the parameter tree of `CChainParams` and the networks `main`, `test`
and `regtest` of `chainparams.cpp`.  The sets of one network refer to each other by
pointers (`pLeft`, `pRight`); `ParamsRef` names the two sets that hold them.

The genesis hash is the value the constructor of each network asserts.

* `getConsensusFrom_eq` — the walk over the tree always ends: two steps reach the set that
  is in force at a height
-/

namespace RgmNode

namespace Consensus

structure Params where
  hashGenesisBlock : Uint256
  nSubsidyHalvingInterval : Nat
  bip34Height : Nat
  bip65Height : Nat
  bip66Height : Nat
  nQuantumSafeHeight : Nat
  nCoinbaseMaturity : Nat
  powLimit : Uint256
  fPowAllowMinDifficultyBlocks : Bool
  fPowAllowRGMMinDifficultyBlocks : Bool
  fPowNoRetargeting : Bool
  nPowTargetSpacing : Int
  nPowTargetTimespan : Int
  nLwmaAveragingWindow : Int
  fDigishieldDifficultyCalculation : Bool
  nAuxpowHeight : Nat
  nSegwitHeight : Nat
  /-- `vDeployments[DEPLOYMENT_SEGWIT].nTimeout` -/
  nSegwitTimeout : Int
  nEmergencyMinDiffHeight : Int
  nEmergencyMinDiffTimeout : Int
  nMinimumChainWork : Uint256
  nAuxpowChainId : Int32
  fStrictChainId : Bool
  fAllowLegacyBlocks : Bool
  nHeightEffective : Nat
deriving DecidableEq, Repr

end Consensus

/-- The two parameter sets of a network that the tree links. -/
inductive ParamsRef where
  | consensus
  | auxpowConsensus
deriving DecidableEq, Repr

structure CChainParams where
  consensus : Consensus.Params
  auxpowConsensus : Consensus.Params
  pConsensusRoot : ParamsRef
  pLeft : ParamsRef → Option ParamsRef
  pRight : ParamsRef → Option ParamsRef
  genesis : CPureBlockHeader
  fMineBlocksOnDemand : Bool
  /-- `checkpointData.mapCheckpoints`, by increasing height -/
  mapCheckpoints : List (Nat × Uint256)

namespace CChainParams

def deref (cp : CChainParams) : ParamsRef → Consensus.Params
  | .consensus => cp.consensus
  | .auxpowConsensus => cp.auxpowConsensus

/-- `Consensus::Params::GetConsensus`, called on the set `r`; `none` if `fuel` calls do not
reach a result. -/
def getConsensusFrom (cp : CChainParams) (nTargetHeight : Nat) :
    Nat → ParamsRef → Option ParamsRef
  | 0, _ => none
  | fuel + 1, r =>
    match decide (nTargetHeight < (cp.deref r).nHeightEffective), cp.pLeft r, cp.pRight r with
    | true, some l, _ => cp.getConsensusFrom nTargetHeight fuel l
    | _, _, some r' =>
      if (cp.deref r').nHeightEffective ≤ nTargetHeight then
        cp.getConsensusFrom nTargetHeight fuel r'
      else some r
    | _, _, none => some r

def getConsensus (cp : CChainParams) (nTargetHeight : Nat) : Consensus.Params :=
  cp.deref ((cp.getConsensusFrom nTargetHeight 2 cp.pConsensusRoot).getD cp.pConsensusRoot)

end CChainParams

/-! ## 1. The shipped networks -/

/-- `consensus.pLeft` and `auxpowConsensus.pLeft`, the same on every network. -/
def shippedLeft : ParamsRef → Option ParamsRef
  | .consensus => none
  | .auxpowConsensus => some .consensus

/-- `consensus.pRight` and `auxpowConsensus.pRight`. -/
def shippedRight : ParamsRef → Option ParamsRef
  | .consensus => some .auxpowConsensus
  | .auxpowConsensus => none

/-- `CreateGenesisBlock`: the header; every network asserts the same merkle root. -/
def createGenesisBlock (nTime nNonce nBits : UInt32) : CPureBlockHeader :=
  { nVersion := 1
    hashPrevBlock := 0
    hashMerkleRoot := 0xbd8e7111101c0d6a75516a1a3ea8c4292f5348169df0f1252adea9a4c0f684bc
    nTime, nBits, nNonce }

def mainConsensus : Consensus.Params :=
  { hashGenesisBlock := 0x165c122ffcd10871778d533cda132cbde2b487877ccb7b9edcfa2d4c71a5e7ef
    nSubsidyHalvingInterval := 2102400
    bip34Height := 1
    bip65Height := 1
    bip66Height := 1
    nQuantumSafeHeight := 50000
    nCoinbaseMaturity := 30
    powLimit := 0x00000fffffffffffffffffffffffffffffffffffffffffffffffffffffffffff
    fPowAllowMinDifficultyBlocks := false
    fPowAllowRGMMinDifficultyBlocks := false
    fPowNoRetargeting := false
    nPowTargetSpacing := 60
    nPowTargetTimespan := 60
    nLwmaAveragingWindow := 45
    fDigishieldDifficultyCalculation := true
    nAuxpowHeight := 500000
    nSegwitHeight := 50000
    nSegwitTimeout := 2 ^ 63 - 1
    nEmergencyMinDiffHeight := 364
    nEmergencyMinDiffTimeout := 3 * 60 * 60
    nMinimumChainWork := 0x40f9b113ab63
    nAuxpowChainId := 0x5247
    fStrictChainId := false
    fAllowLegacyBlocks := true
    nHeightEffective := 0 }

def mainParams : CChainParams :=
  { consensus := mainConsensus
    auxpowConsensus :=
      { mainConsensus with
        fAllowLegacyBlocks := true
        fStrictChainId := true
        nHeightEffective := mainConsensus.nAuxpowHeight }
    pConsensusRoot := .consensus
    pLeft := shippedLeft
    pRight := shippedRight
    genesis := createGenesisBlock 1772064000 132281 0x1e0ffff0
    fMineBlocksOnDemand := false
    mapCheckpoints :=
      [(0, mainConsensus.hashGenesisBlock),
       (363, 0x229cab6d14d6b63f277b687f614555360303a0a820c34f608647759e362c2b60)] }

def testNetConsensus : Consensus.Params :=
  { hashGenesisBlock := 0xd09e500329e656f4fe1e1dc2a398b2162b72d76163275bc6804f4bc1cf196035
    nSubsidyHalvingInterval := 2102400
    bip34Height := 1
    bip65Height := 1
    bip66Height := 1
    nQuantumSafeHeight := 5000
    nCoinbaseMaturity := 30
    powLimit := 0x0000ffffffffffffffffffffffffffffffffffffffffffffffffffffffffffff
    fPowAllowMinDifficultyBlocks := true
    fPowAllowRGMMinDifficultyBlocks := true
    fPowNoRetargeting := false
    nPowTargetSpacing := 60
    nPowTargetTimespan := 60
    nLwmaAveragingWindow := 45
    fDigishieldDifficultyCalculation := true
    nAuxpowHeight := 20000
    nSegwitHeight := 5000
    nSegwitTimeout := 2 ^ 63 - 1
    nEmergencyMinDiffHeight := -1
    nEmergencyMinDiffTimeout := 0
    nMinimumChainWork := 0
    nAuxpowChainId := 0x5247
    fStrictChainId := false
    fAllowLegacyBlocks := true
    nHeightEffective := 0 }

def testNetParams : CChainParams :=
  { consensus := testNetConsensus
    auxpowConsensus :=
      { testNetConsensus with
        fAllowLegacyBlocks := true
        fStrictChainId := true
        nHeightEffective := testNetConsensus.nAuxpowHeight }
    pConsensusRoot := .consensus
    pLeft := shippedLeft
    pRight := shippedRight
    genesis := createGenesisBlock 1772065000 43076 0x1f00ffff
    fMineBlocksOnDemand := false
    mapCheckpoints := [(0, testNetConsensus.hashGenesisBlock)] }

def regTestConsensus : Consensus.Params :=
  { hashGenesisBlock := 0x12e96208094ffa758734ff98aa977505c58b535b561c47fa5e77556e2f570dff
    nSubsidyHalvingInterval := 150
    bip34Height := 1
    bip65Height := 1
    bip66Height := 1
    nQuantumSafeHeight := 50
    nCoinbaseMaturity := 1
    powLimit := 0x7fffffffffffffffffffffffffffffffffffffffffffffffffffffffffffffff
    fPowAllowMinDifficultyBlocks := true
    fPowAllowRGMMinDifficultyBlocks := true
    fPowNoRetargeting := true
    nPowTargetSpacing := 1
    nPowTargetTimespan := 1
    nLwmaAveragingWindow := 1
    fDigishieldDifficultyCalculation := false
    nAuxpowHeight := 100
    nSegwitHeight := 50
    nSegwitTimeout := 2 ^ 63 - 1
    nEmergencyMinDiffHeight := -1
    nEmergencyMinDiffTimeout := 0
    nMinimumChainWork := 0
    nAuxpowChainId := 0x5247
    fStrictChainId := false
    fAllowLegacyBlocks := true
    nHeightEffective := 0 }

def regTestParams : CChainParams :=
  { consensus := regTestConsensus
    auxpowConsensus :=
      { regTestConsensus with
        fAllowLegacyBlocks := true
        fStrictChainId := false
        nHeightEffective := regTestConsensus.nAuxpowHeight }
    pConsensusRoot := .consensus
    pLeft := shippedLeft
    pRight := shippedRight
    genesis := createGenesisBlock 1772066000 1 0x207fffff
    fMineBlocksOnDemand := true
    mapCheckpoints := [(0, regTestConsensus.hashGenesisBlock)] }

/-- The networks `Params(chain)` knows. -/
inductive Network where
  | main
  | test
  | regtest
deriving DecidableEq, Repr

/-- `Params(chain)` -/
def Network.params : Network → CChainParams
  | .main => mainParams
  | .test => testNetParams
  | .regtest => regTestParams

/-! ## 2. Which set is in force -/

variable (net : Network) (h : Nat)

/-- The set in force at height `h`, by its place in the tree. -/
def refAt : ParamsRef :=
  if h < net.params.consensus.nAuxpowHeight then .consensus else .auxpowConsensus

theorem getConsensusFrom_eq (fuel : Nat) :
    net.params.getConsensusFrom h (fuel + 2) net.params.pConsensusRoot =
      some (refAt net h) := by
  -- the root is never left to the left, and the right set has no right branch
  have walk : ∀ cp : CChainParams, cp.pLeft = shippedLeft → cp.pRight = shippedRight →
      cp.consensus.nHeightEffective = 0 →
      cp.auxpowConsensus.nHeightEffective = cp.consensus.nAuxpowHeight →
      cp.getConsensusFrom h (fuel + 2) .consensus =
        some (if h < cp.consensus.nAuxpowHeight then .consensus else .auxpowConsensus) := by
    intro cp hl hr h0 ha
    simp only [CChainParams.getConsensusFrom, hl, hr, shippedLeft, shippedRight,
      CChainParams.deref, h0, ha, not_lt_zero, decide_false]
    by_cases hlt : h < cp.consensus.nAuxpowHeight
    · simp [hlt]
    · simp [hlt]
  cases net <;> exact walk _ rfl rfl rfl rfl

theorem getConsensus_eq : net.params.getConsensus h = net.params.deref (refAt net h) := by
  rw [CChainParams.getConsensus, getConsensusFrom_eq]
  rfl

theorem getConsensus_of_lt (hlt : h < net.params.consensus.nAuxpowHeight) :
    net.params.getConsensus h = net.params.consensus := by
  rw [getConsensus_eq, refAt, if_pos hlt]
  rfl

theorem getConsensus_of_le (hle : net.params.consensus.nAuxpowHeight ≤ h) :
    net.params.getConsensus h = net.params.auxpowConsensus := by
  rw [getConsensus_eq, refAt, if_neg (not_lt.mpr hle)]
  rfl

/-- What the two sets of a network share is independent of the height. -/
theorem getConsensus_shared {β : Sort*} (f : Consensus.Params → β)
    (hf : f net.params.auxpowConsensus = f net.params.consensus) :
    f (net.params.getConsensus h) = f net.params.consensus := by
  rcases Nat.lt_or_ge h net.params.consensus.nAuxpowHeight with hlt | hge
  · rw [getConsensus_of_lt net h hlt]
  · rw [getConsensus_of_le net h hge, hf]

end RgmNode
