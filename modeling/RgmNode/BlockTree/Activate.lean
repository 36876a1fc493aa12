import RgmNode.BlockTree.Accept

/-!
# Activating, invalidating and reconsidering blocks

`InvalidBlockFound`, `FindMostWorkChain`, `ActivateBestChain`, `InvalidateBlock` and
`ResetBlockFailureFlags`, and the step function of the block tree over all of its operations.
-/

namespace RgmNode

namespace ChainState

/-! ## 1. Failed blocks -/

/-- The update of `pindexBestInvalid` by a block that is known to be invalid. -/
def noteInvalid (s : ChainState) (pindexNew : CBlockIndex) : ChainState :=
  { s with pindexBestInvalid :=
      match s.pindexBestInvalid with
      | none => some pindexNew
      | some best => if pindexNew.nChainWork > best.nChainWork then some pindexNew else some best }

/-- `InvalidChainFound`, which asserts that there is a tip -/
def invalidChainFound (s : ChainState) (pindexNew : CBlockIndex) : Option ChainState :=
  if s.chainActive.tip.isSome then some (s.noteInvalid pindexNew) else none

def invalidBlockFound (s : ChainState) (pindex : CBlockIndex) (corruptionPossible : Bool) :
    Option ChainState :=
  if corruptionPossible then some s
  else (((s.markFailedValid pindex).insertFailed pindex).eraseCandidates [pindex]).invalidChainFound
    pindex

/-! ## 2. The best candidate -/

/-- The walk of `FindMostWorkChain` from a candidate to the active chain: the first block
that failed or has no data, `some none` if all of them can be connected, `none` where the
assertion on `nChainTx` fails. -/
def firstUnusable (s : ChainState) : CBlockIndex → Option (Option CBlockIndex)
  | .root d =>
    if s.chainActive.contains (.root d) then some none
    else if (s.nStatus (.root d)).failed || !(s.nStatus (.root d)).haveData then
      some (some (.root d))
    else some none
  | .child p d =>
    if s.chainActive.contains (.child p d) then some none
    else if s.nChainTx (.child p d) = 0 then none
    else if (s.nStatus (.child p d)).failed || !(s.nStatus (.child p d)).haveData then
      some (some (.child p d))
    else s.firstUnusable p

/-- `FindMostWorkChain` takes a candidate off the set, with every block between it and the
unusable block `pindexTest`. -/
def dropCandidateChain (s : ChainState) (pindexNew pindexTest : CBlockIndex) : ChainState :=
  let walked := Lineage.between pindexTest pindexNew
  let s' :=
    if (s.nStatus pindexTest).failed then (s.noteInvalid pindexNew).markFailedChild walked
    else { s with mapBlocksUnlinked :=
      s.mapBlocksUnlinked ++ walked.filterMap fun q =>
        (CBlockIndex.pprev q).map fun pprev => (pprev, q) }
  s'.eraseCandidates (pindexTest :: walked)

/-- `FindMostWorkChain`.  Every round takes at least one candidate off the set. -/
def findMostWorkChain (env : NodeEnv) : Nat → ChainState → Option (ChainState × Option CBlockIndex)
  | 0, _ => none
  | rounds + 1, s =>
    match s.bestCandidate env with
    | none => some (s, none)
    | some pindexNew =>
      match s.firstUnusable pindexNew with
      | none => none
      | some none => some (s, some pindexNew)
      | some (some pindexTest) =>
        findMostWorkChain env rounds (s.dropCandidateChain pindexNew pindexTest)

/-! ## 3. Connecting and disconnecting -/

/-- The result of `ConnectBlock` together with reading the block and flushing: a system
error leaves the tree as it is. -/
inductive ConnectVerdict where
  | ok
  | invalid (corruptionPossible : Bool)
  | systemError
deriving DecidableEq, Repr

/-- The answers of the coin database and the disk during one call. -/
structure Oracle where
  connect : CBlockIndex → ConnectVerdict
  disconnect : CBlockIndex → Bool

/-- `DisconnectTip`: whether it succeeds.  Without the genesis block there is no tip left
for `UpdateTip` to report. -/
def disconnectTip (o : Oracle) (s : ChainState) : Option (ChainState × Bool) :=
  match s.chainActive.tip with
  | none => none
  | some pindexDelete =>
    if o.disconnect pindexDelete then
      match pindexDelete.pprev with
      | none => none
      | some pprev => some ({ s with chainActive := s.chainActive.setTip (some pprev) }, true)
    else some (s, false)

/-- `DisconnectTip` as long as `more` holds; `false` if one of the calls fails. -/
def disconnectWhile (o : Oracle) (more : CChain → Bool) : Nat → ChainState →
    Option (ChainState × Bool)
  | 0, s => some (s, true)
  | n + 1, s =>
    if more s.chainActive then
      match s.disconnectTip o with
      | none => none
      | some (s, true) => disconnectWhile o more n s
      | some (s, false) => some (s, false)
    else some (s, true)

/-- `PruneBlockIndexCandidates`, which asserts that a candidate is left -/
def pruneBlockIndexCandidates (env : NodeEnv) (s : ChainState) : Option ChainState :=
  let s := { s with setBlockIndexCandidates :=
    s.setBlockIndexCandidates.filter fun c => !s.worseThanTip env c }
  if s.setBlockIndexCandidates.isEmpty then none else some s

/-- `ConnectTip`.  A block other than the genesis block gets its undo data and its validity
level from `ConnectBlock`. -/
def connectTip (o : Oracle) (s : ChainState) (pindexNew : CBlockIndex) :
    Option (ChainState × ConnectVerdict) :=
  if pindexNew.pprev = s.chainActive.tip then
    match o.connect pindexNew with
    | .ok =>
      let s := match pindexNew.pprev with
        | none => s
        | some _ => s.modifyStatus pindexNew fun st =>
          ({ st with haveUndo := true }).raiseValidity BlockStatus.blockValidScripts
      some ({ s with chainActive := s.chainActive.setTip (some pindexNew) }, .ok)
    | .invalid corruptionPossible =>
      (s.invalidBlockFound pindexNew corruptionPossible).map fun s =>
        (s, .invalid corruptionPossible)
    | .systemError => some (s, .systemError)
  else none

/-- How connecting a list of blocks ends: all are connected, the tip has more work than the
old one (time to release the lock), a block is invalid, or a system error occurred. -/
inductive ConnectResult where
  | connected
  | improved
  | invalidFound
  | systemError
deriving DecidableEq, Repr

/-- The tip has more work than the old one, or there was none. -/
def improvesOn (s : ChainState) (pindexOldTip : Option CBlockIndex) : Bool :=
  match pindexOldTip, s.chainActive.tip with
  | some old, some tip => tip.nChainWork > old.nChainWork
  | _, _ => true

/-- The loop over `vpindexToConnect`, lowest block first; `lowest` is
`vpindexToConnect.back()`. -/
def connectBatch (env : NodeEnv) (o : Oracle) (pindexOldTip : Option CBlockIndex)
    (lowest : CBlockIndex) : List CBlockIndex → ChainState → Option (ChainState × ConnectResult)
  | [], s => some (s, .connected)
  | pindexConnect :: rest, s =>
    match s.connectTip o pindexConnect with
    | none => none
    | some (s, .invalid corruptionPossible) =>
      if corruptionPossible then some (s, .invalidFound)
      else (s.invalidChainFound lowest).map fun s => (s, .invalidFound)
    | some (s, .systemError) => some (s, .systemError)
    | some (s, .ok) =>
      match s.pruneBlockIndexCandidates env with
      | none => none
      | some s =>
        if s.improvesOn pindexOldTip then some (s, .improved)
        else connectBatch env o pindexOldTip lowest rest s

/-- The blocks of heights `lo` to `hi` on the way to `pindexMostWork`, lowest first. -/
def blocksBetween (pindexMostWork : CBlockIndex) (lo hi : Nat) : List CBlockIndex :=
  (List.range (hi + 1 - lo)).filterMap fun k => pindexMostWork.getAncestor (lo + k)

/-- The connecting loop of `ActivateBestChainStep`, in batches of 32 blocks from height `lo`
on. -/
def connectTowards (env : NodeEnv) (o : Oracle) (pindexOldTip : Option CBlockIndex)
    (pindexMostWork : CBlockIndex) : Nat → Nat → ChainState → Option (ChainState × ConnectResult)
  | 0, _, s => some (s, .connected)
  | batches + 1, lo, s =>
    match blocksBetween pindexMostWork lo (min (lo + 31) pindexMostWork.nHeight) with
    | [] => some (s, .connected)
    | lowest :: rest =>
      match connectBatch env o pindexOldTip lowest (lowest :: rest) s with
      | some (s, .connected) => connectTowards env o pindexOldTip pindexMostWork batches (lo + 32) s
      | other => other

def activateBestChainStep (env : NodeEnv) (o : Oracle) (s : ChainState)
    (pindexMostWork : CBlockIndex) : Option (ChainState × ConnectResult) :=
  let pindexOldTip := s.chainActive.tip
  let pindexFork := s.chainActive.findFork pindexMostWork
  let more (c : CChain) : Bool := c.tip.isSome && c.tip != pindexFork
  match s.disconnectWhile o more s.chainActive.vChain.length with
  | none => none
  | some (s, false) => some (s, .systemError)
  | some (s, true) =>
    let lo := match pindexFork with
      | some fork => fork.nHeight + 1
      | none => 0
    connectTowards env o pindexOldTip pindexMostWork (pindexMostWork.nHeight + 1) lo s

/-- `ActivateBestChain`, with the cached `pindexMostWork`; it may be interrupted by a shutdown
after any number of rounds. -/
def activateBestChain (env : NodeEnv) (o : Oracle) : Nat → Option CBlockIndex → ChainState →
    Option ChainState
  | 0, _, s => some s
  | rounds + 1, cached, s =>
    let found := match cached with
      | some p => some (s, some p)
      | none => s.findMostWorkChain env (s.setBlockIndexCandidates.length + 1)
    match found with
    | none => none
    | some (s, none) => some s
    | some (s, some pindexMostWork) =>
      if s.chainActive.tip = some pindexMostWork then some s
      else
        match s.activateBestChainStep env o pindexMostWork with
        | none => none
        | some (s, .systemError) => some s
        | some (s, .invalidFound) => activateBestChain env o rounds none s
        | some (s, _) =>
          if s.chainActive.tip = some pindexMostWork then some s
          else activateBestChain env o rounds (some pindexMostWork) s

/-! ## 4. Invalidating and reconsidering -/

/-- The blocks that `InvalidateBlock` makes candidates again. -/
def becomesCandidate (env : NodeEnv) (s : ChainState) (p : CBlockIndex) : Bool :=
  (s.nStatus p).isValid BlockStatus.blockValidTransactions && s.nChainTx p ≠ 0 &&
    !s.worseThanTip env p

/-- Make them candidates, and forget that they failed. -/
def candidatesAgain (env : NodeEnv) (s : ChainState) : ChainState :=
  let again := s.mapBlockIndex.filter (s.becomesCandidate env)
  { s with
    setBlockIndexCandidates := again.foldl (fun set p => set.insert p) s.setBlockIndexCandidates
    gFailedBlocks := s.gFailedBlocks.filter (· ∉ again) }

/-- The blocks that `InvalidateBlock` disconnects above `pindex`, if it is in the chain. -/
def disconnectedAbove (chain : CChain) (pindex : CBlockIndex) : List CBlockIndex :=
  match chain.contains pindex, chain.tip with
  | true, some invalidWalkTip => Lineage.between pindex invalidWalkTip
  | _, _ => []

/-- `InvalidateBlock` marks the disconnected blocks and the block itself. -/
def markInvalidated (s : ChainState) (walked : List CBlockIndex) (pindex : CBlockIndex) :
    ChainState :=
  let s := (s.markFailedChild walked).eraseCandidates walked
  ((s.markFailedValid pindex).eraseCandidates [pindex]).insertFailed pindex

def invalidateBlock (env : NodeEnv) (o : Oracle) (s : ChainState) (pindex : CBlockIndex) :
    Option ChainState :=
  let walked := disconnectedAbove s.chainActive pindex
  match s.disconnectWhile o (·.contains pindex) s.chainActive.vChain.length with
  | none => none
  | some (s, false) => some s
  | some (s, true) =>
    ((s.markInvalidated walked pindex).candidatesAgain env).invalidChainFound pindex

def resetBlockFailureFlags (env : NodeEnv) (s : ChainState) (pindex : CBlockIndex) : ChainState :=
  -- the block and its descendants
  let cleared := s.mapBlockIndex.filter fun p =>
    !(s.nStatus p).isValid && p.getAncestor pindex.nHeight == some pindex
  let s := { s with nStatus := fun q =>
    if q ∈ cleared then (s.nStatus q).clearFailed else s.nStatus q }
  let again := cleared.filter fun p =>
    (s.nStatus p).isValid BlockStatus.blockValidTransactions && s.nChainTx p ≠ 0 &&
      match s.chainActive.tip with
      | some tip => s.workLess env tip p
      | none => false
  let s := { s with
    setBlockIndexCandidates := again.foldl (fun set p => set.insert p) s.setBlockIndexCandidates
    pindexBestInvalid :=
      match s.pindexBestInvalid with
      | some best => if best ∈ cleared then none else some best
      | none => none }
  -- and all its ancestors
  { s with nStatus := fun q => if q ≤ pindex then (s.nStatus q).clearFailed else s.nStatus q }

end ChainState

/-! ## 5. The block tree as a machine -/

inductive TreeOp where
  | header (block : CBlockHeader) (nAdjustedTime : Int)
  | block (block : CBlock) (nAdjustedTime : Int) (fRequested : Bool)
      (out : ChainState.BlockOutcome)
  | connectFails (pindex : CBlockIndex) (corruptionPossible : Bool)
  | activate (rounds : Nat) (o : ChainState.Oracle)
  | invalidate (pindex : CBlockIndex) (o : ChainState.Oracle)
  | reset (pindex : CBlockIndex)

/-- One operation; `none` once the process has aborted.  The blocks named by an RPC call or
found invalid are looked up in the block map. -/
def treeStep (env : NodeEnv) (s : ChainState) : TreeOp → Option ChainState
  | .header block t => (s.acceptBlockHeader env block t).map (·.1)
  | .block block t fRequested out => (s.acceptBlock env block t fRequested out).map (·.1)
  | .connectFails pindex corruptionPossible =>
    if pindex ∈ s.mapBlockIndex then s.invalidBlockFound pindex corruptionPossible else some s
  | .activate rounds o => s.activateBestChain env o rounds none
  | .invalidate pindex o =>
    if pindex ∈ s.mapBlockIndex then s.invalidateBlock env o pindex else some s
  | .reset pindex =>
    if pindex ∈ s.mapBlockIndex then some (s.resetBlockFailureFlags env pindex) else some s

end RgmNode
