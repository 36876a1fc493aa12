import RgmNode.Consensus.ActiveChain
import RgmNode.Validation.Header

/-!
# The block tree

The global state of `validation.cpp` that decides which chain is active: the block map with
the mutable members of its entries, the active chain, the candidates for its tip, the blocks
that wait for a parent, and the set of blocks that failed since the last restart.

`setDirtyBlockIndex` and the positions in the block files are only written by the functions
modelled here and are left out; so is `CheckBlockIndex`, which is off by default on `main`
and `test`.  A function that can fail an assertion returns `none` there: the process aborts.
-/

namespace RgmNode

/-! ## 1. Status of an entry -/

/-- `nStatus`: the validity level and the flags. -/
structure BlockStatus where
  /-- the bits of `BLOCK_VALID_MASK` -/
  validity : Nat
  haveData : Bool
  haveUndo : Bool
  failedValid : Bool
  failedChild : Bool
  optWitness : Bool
deriving DecidableEq, Repr

namespace BlockStatus

def blockValidTree : Nat := 2
def blockValidTransactions : Nat := 3
def blockValidScripts : Nat := 5

/-- The status `SetNull` gives to a new entry. -/
def null : BlockStatus := ⟨0, false, false, false, false, false⟩

/-- `nStatus & BLOCK_FAILED_MASK` -/
def failed (st : BlockStatus) : Bool := st.failedValid || st.failedChild

def isValid (st : BlockStatus) (nUpTo : Nat := blockValidTransactions) : Bool :=
  !st.failed && nUpTo ≤ st.validity

def raiseValidity (st : BlockStatus) (nUpTo : Nat) : BlockStatus :=
  if st.failed then st
  else if st.validity < nUpTo then { st with validity := nUpTo }
  else st

/-- `nStatus &= ~BLOCK_FAILED_MASK` -/
def clearFailed (st : BlockStatus) : BlockStatus :=
  { st with failedValid := false, failedChild := false }

section

variable (st : BlockStatus) (n : Nat)

include st n

@[simp] theorem failedValid_raiseValidity : (st.raiseValidity n).failedValid = st.failedValid := by
  unfold raiseValidity
  split
  · rfl
  · split <;> rfl

@[simp] theorem failedChild_raiseValidity : (st.raiseValidity n).failedChild = st.failedChild := by
  unfold raiseValidity
  split
  · rfl
  · split <;> rfl

@[simp] theorem haveData_raiseValidity : (st.raiseValidity n).haveData = st.haveData := by
  unfold raiseValidity
  split
  · rfl
  · split <;> rfl

theorem le_validity_raiseValidity : st.validity ≤ (st.raiseValidity n).validity := by
  unfold raiseValidity
  split
  · exact le_refl _
  · split
    · next hlt => exact hlt.le
    · exact le_refl _

end

end BlockStatus

/-! ## 2. Work -/

def getBlockProof (nBits : UInt32) : Nat :=
  let bnTarget := Arith.setCompact nBits
  if bnTarget.fNegative || bnTarget.fOverflow || bnTarget.target == 0 then 0
  else (2 ^ 256 - 1 - bnTarget.target) / (bnTarget.target + 1) + 1

/-- `nChainWork`, as `AddToBlockIndex` computes it -/
def CBlockIndex.nChainWork : CBlockIndex → Nat
  | .root d => getBlockProof d.nBits
  | .child p d => (CBlockIndex.nChainWork p + getBlockProof d.nBits) % 2 ^ 256

/-! ## 3. The state -/

/-- What does not change while the node runs: the hash functions, the network, whether
checkpoints are enforced, and where entries are allocated (a tie breaker). -/
structure NodeEnv where
  cr : Crypto
  net : Network
  fCheckpointsEnabled : Bool
  address : CBlockIndex → Nat

/-- `MIN_BLOCKS_TO_KEEP` -/
def minBlocksToKeep : Nat := 1440

structure ChainState where
  mapBlockIndex : List CBlockIndex
  nStatus : CBlockIndex → BlockStatus
  nTx : CBlockIndex → Nat
  nChainTx : CBlockIndex → Nat
  nSequenceId : CBlockIndex → Int
  nBlockSequenceId : Int
  chainActive : CChain
  setBlockIndexCandidates : List CBlockIndex
  mapBlocksUnlinked : List (CBlockIndex × CBlockIndex)
  gFailedBlocks : List CBlockIndex
  pindexBestInvalid : Option CBlockIndex
  pindexBestHeader : Option CBlockIndex

namespace ChainState

/-- `mapBlockIndex.find(hash)` -/
def find (s : ChainState) (hash : Uint256) : Option CBlockIndex :=
  s.mapBlockIndex.find? fun p => p.getBlockHash == hash

/-- `pindex->nStatus = f(pindex->nStatus)` -/
def modifyStatus (s : ChainState) (pindex : CBlockIndex) (f : BlockStatus → BlockStatus) :
    ChainState :=
  { s with nStatus := Function.update s.nStatus pindex (f (s.nStatus pindex)) }

/-- `setBlockIndexCandidates.insert(pindex)` -/
def insertCandidate (s : ChainState) (pindex : CBlockIndex) : ChainState :=
  { s with setBlockIndexCandidates := s.setBlockIndexCandidates.insert pindex }

/-- Erase each block of `ps` from the candidates. -/
def eraseCandidates (s : ChainState) (ps : List CBlockIndex) : ChainState :=
  { s with setBlockIndexCandidates := s.setBlockIndexCandidates.filter (· ∉ ps) }

/-- `nStatus |= BLOCK_FAILED_CHILD` for each block of `ps`. -/
def markFailedChild (s : ChainState) (ps : List CBlockIndex) : ChainState :=
  { s with nStatus := fun q =>
      if q ∈ ps then { s.nStatus q with failedChild := true } else s.nStatus q }

/-- `nStatus |= BLOCK_FAILED_VALID` -/
def markFailedValid (s : ChainState) (pindex : CBlockIndex) : ChainState :=
  s.modifyStatus pindex fun st => { st with failedValid := true }

/-- `gFailedBlocks.insert(pindex)` -/
def insertFailed (s : ChainState) (pindex : CBlockIndex) : ChainState :=
  { s with gFailedBlocks := s.gFailedBlocks.insert pindex }

/-- `CBlockIndexWorkComparator`: `pa` sorts before `pb`. -/
def workLess (env : NodeEnv) (s : ChainState) (pa pb : CBlockIndex) : Bool :=
  if pa.nChainWork > pb.nChainWork then false
  else if pa.nChainWork < pb.nChainWork then true
  -- then by earliest time received
  else if s.nSequenceId pa < s.nSequenceId pb then false
  else if s.nSequenceId pa > s.nSequenceId pb then true
  -- the pointer address is the tie breaker
  else env.address pa > env.address pb

/-- `workLess` against the tip; both callers make sure that there is one. -/
def worseThanTip (env : NodeEnv) (s : ChainState) (pindex : CBlockIndex) : Bool :=
  match s.chainActive.tip with
  | some tip => s.workLess env pindex tip
  | none => false

/-- `*setBlockIndexCandidates.rbegin()` -/
def bestCandidate (env : NodeEnv) (s : ChainState) : Option CBlockIndex :=
  s.setBlockIndexCandidates.foldl (fun best c =>
    match best with
    | none => some c
    | some b => if s.workLess env b c then some c else some b) none

end ChainState

end RgmNode
