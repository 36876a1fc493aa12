import RgmNode.Consensus.Chain
import RgmNode.Consensus.Params

/-!
# Proof of work and difficulty

`SetCompact` and `GetCompact` of `arith_uint256.cpp`, `pow.cpp` and the DigiShield retarget of
`rgm.cpp`.  Targets are natural numbers below `2 ^ 256`; a product with a 64-bit factor takes the
factor modulo `2 ^ 32`, since the overload of `operator*=` for `uint32_t` is the one C++ selects.

* `getNextWorkRequired_eq_limit` — what the emergency rule returns
-/

namespace RgmNode

namespace Arith

/-- The value, the sign flag and the overflow flag that `SetCompact` computes. -/
structure Compact where
  target : Nat
  fNegative : Bool
  fOverflow : Bool
deriving DecidableEq, Repr

def setCompact (nCompact : UInt32) : Compact :=
  let nSize := nCompact.toNat / 2 ^ 24
  let nWord := nCompact.toNat % 2 ^ 23
  let shifted := if nSize ≤ 3 then nWord / 2 ^ (8 * (3 - nSize)) else nWord
  { target := if nSize ≤ 3 then shifted else nWord * 2 ^ (8 * (nSize - 3)) % 2 ^ 256
    fNegative := shifted != 0 && nCompact &&& 0x00800000 != 0
    fOverflow := shifted != 0 &&
      (nSize > 34 || (shifted > 0xff && nSize > 33) || (shifted > 0xffff && nSize > 32)) }

/-- `bits()`: one more than the position of the highest bit set, zero for zero. -/
def bits (n : Nat) : Nat := if n = 0 then 0 else Nat.log2 n + 1

/-- `GetCompact` with `fNegative` false, as every caller in the tree uses it. -/
def getCompact (n : Nat) : UInt32 :=
  let nSize := (bits n + 7) / 8
  let nCompact :=
    if nSize ≤ 3 then (n % 2 ^ 64 * 2 ^ (8 * (3 - nSize))) % 2 ^ 32
    else n / 2 ^ (8 * (nSize - 3)) % 2 ^ 32
  -- the bit 0x00800000 is the sign: a mantissa that uses it moves down a byte
  let (nCompact, nSize) :=
    if nCompact / 2 ^ 23 % 2 = 1 then (nCompact / 2 ^ 8, nSize + 1) else (nCompact, nSize)
  UInt32.ofNat (nCompact + nSize * 2 ^ 24)

end Arith

open Arith

/-- `bn *= factor` on a 256-bit number with an `int64_t` factor. -/
def mulWord (bn : Nat) (factor : Int) : Nat := bn * (factor % 2 ^ 32).toNat % 2 ^ 256

def checkProofOfWork (hash : Uint256) (nBits : UInt32) (params : Consensus.Params) : Bool :=
  let bnTarget := setCompact nBits
  if bnTarget.fNegative || bnTarget.target == 0 || bnTarget.fOverflow ||
      bnTarget.target > params.powLimit.toNat then false
  else if hash.toNat > bnTarget.target then false
  else true

def allowMinDifficultyForBlock (pindexLast : CBlockIndex) (pblock : CPureBlockHeader)
    (params : Consensus.Params) : Bool :=
  params.fPowAllowMinDifficultyBlocks &&
    pblock.getBlockTime > pindexLast.getBlockTime + params.nPowTargetSpacing * 2

def allowRGMMinDifficultyForBlock (pindexLast : CBlockIndex) (pblock : CPureBlockHeader)
    (params : Consensus.Params) : Bool :=
  params.fPowAllowMinDifficultyBlocks && params.fPowAllowRGMMinDifficultyBlocks &&
    pblock.getBlockTime > pindexLast.getBlockTime + params.nPowTargetSpacing * 2

def calculateRGMNextWorkRequired (pindexLast : CBlockIndex) (nFirstBlockTime : Int)
    (params : Consensus.Params) : UInt32 :=
  let retargetTimespan := params.nPowTargetTimespan
  let nActualTimespan := pindexLast.getBlockTime - nFirstBlockTime
  -- DigiShield filters the amplitude and limits the step more tightly
  let (nModulatedTimespan, nMinTimespan, nMaxTimespan) :=
    if params.fDigishieldDifficultyCalculation then
      (retargetTimespan + (nActualTimespan - retargetTimespan).tdiv 8,
       retargetTimespan - retargetTimespan.tdiv 4,
       retargetTimespan + retargetTimespan.tdiv 2)
    else
      (nActualTimespan, retargetTimespan.tdiv 4, retargetTimespan * 4)
  let nModulatedTimespan :=
    if nModulatedTimespan < nMinTimespan then nMinTimespan
    else if nModulatedTimespan > nMaxTimespan then nMaxTimespan
    else nModulatedTimespan
  let bnPowLimit := params.powLimit.toNat
  let bnNew := mulWord (setCompact pindexLast.nBits).target nModulatedTimespan
    / retargetTimespan.toNat
  getCompact (if bnNew > bnPowLimit then bnPowLimit else bnNew)

/-- The loop of `LwmaCalculateNextWorkRequired`, from weight `i` down to one: the weighted
sum of the solve times and the running average of the targets. -/
def lwmaLoop (T N : Int) : Nat → CBlockIndex → Int → Nat → Int × Nat
  | 0, _, sumWeightedSolvetimes, avgTarget => (sumWeightedSolvetimes, avgTarget)
  | i + 1, block, sumWeightedSolvetimes, avgTarget =>
    match block.pprev with
    | none => (sumWeightedSolvetimes, avgTarget)
    | some prev =>
      let solvetime := block.getBlockTime - prev.getBlockTime
      let solvetime := if solvetime > 6 * T then 6 * T else solvetime
      let solvetime := if solvetime < -6 * T then -6 * T else solvetime
      let target := (setCompact block.nBits).target
      lwmaLoop T N i prev (sumWeightedSolvetimes + solvetime * (i + 1))
        ((mulWord avgTarget (N - 1) + target) % 2 ^ 256 / N.toNat)

def lwmaCalculateNextWorkRequired (pindexLast : CBlockIndex) (params : Consensus.Params) :
    UInt32 :=
  let bnPowLimit := params.powLimit.toNat
  if (pindexLast.nHeight : Int) < params.nLwmaAveragingWindow then getCompact bnPowLimit
  else
    let T := params.nPowTargetSpacing
    let N := params.nLwmaAveragingWindow
    let k := (T * N * (N + 1)).tdiv 2
    let (sumWeightedSolvetimes, avgTarget) :=
      lwmaLoop T N N.toNat pindexLast 0 (setCompact pindexLast.nBits).target
    let sumWeightedSolvetimes :=
      if sumWeightedSolvetimes < k.tdiv 10 then k.tdiv 10 else sumWeightedSolvetimes
    let nextTarget := mulWord avgTarget sumWeightedSolvetimes / k.toNat
    getCompact (if nextTarget = 0 ∨ nextTarget > bnPowLimit then bnPowLimit else nextTarget)

/-- The condition of the emergency branch of `GetNextWorkRequired`: the rule is active at
the next height and the new block's time is more than the timeout after its parent's. -/
def emergencyMinDifficulty (pindexLast : CBlockIndex) (pblock : CPureBlockHeader)
    (params : Consensus.Params) : Bool :=
  params.nEmergencyMinDiffHeight ≥ 0 &&
    (pindexLast.nHeight : Int) + 1 ≥ params.nEmergencyMinDiffHeight &&
    pblock.getBlockTime > pindexLast.getBlockTime + params.nEmergencyMinDiffTimeout

def getNextWorkRequired (pindexLast : Option CBlockIndex) (pblock : CPureBlockHeader)
    (params : Consensus.Params) : UInt32 :=
  let nProofOfWorkLimit := getCompact params.powLimit.toNat
  match pindexLast with
  | none => nProofOfWorkLimit
  | some pindexLast =>
    if params.fPowNoRetargeting then pindexLast.nBits
    else if emergencyMinDifficulty pindexLast pblock params then nProofOfWorkLimit
    else if allowMinDifficultyForBlock pindexLast pblock params &&
        (allowRGMMinDifficultyForBlock pindexLast pblock params ||
          params.fPowAllowMinDifficultyBlocks) then nProofOfWorkLimit
    else if params.fDigishieldDifficultyCalculation then
      let nFirstBlockTime :=
        match pindexLast.pprev with
        | some q => q.getBlockTime
        | none => pindexLast.getBlockTime
      calculateRGMNextWorkRequired pindexLast nFirstBlockTime params
    else lwmaCalculateNextWorkRequired pindexLast params

theorem getNextWorkRequired_eq_limit {p : CBlockIndex} {b : CPureBlockHeader}
    {params : Consensus.Params} (hr : params.fPowNoRetargeting = false)
    (he : emergencyMinDifficulty p b params = true) :
    getNextWorkRequired (some p) b params = getCompact params.powLimit.toNat := by
  simp [getNextWorkRequired, hr, he]

/-- The required work depends on the new block's time only. -/
theorem getNextWorkRequired_congr {p : Option CBlockIndex} {b b' : CPureBlockHeader}
    {params : Consensus.Params} (h : b.nTime = b'.nTime) :
    getNextWorkRequired p b params = getNextWorkRequired p b' params := by
  have ht : b.getBlockTime = b'.getBlockTime := by
    unfold CPureBlockHeader.getBlockTime
    rw [h]
  unfold getNextWorkRequired emergencyMinDifficulty allowMinDifficultyForBlock
    allowRGMMinDifficultyForBlock
  rw [ht]

end RgmNode
