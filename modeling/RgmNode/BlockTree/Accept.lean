import RgmNode.BlockTree.State

/-!
# Accepting headers and blocks

`AddToBlockIndex`, `AcceptBlockHeader`, `ReceivedBlockTransactions` and `AcceptBlock`.
-/

namespace RgmNode

open Function

namespace ChainState

def addToBlockIndex (env : NodeEnv) (s : ChainState) (block : CBlockHeader) :
    ChainState × CBlockIndex :=
  match s.find (block.getHash env.cr) with
  | some pindex => (s, pindex)
  | none =>
    let d := block.indexData env.cr
    let pindexNew : CBlockIndex :=
      match s.find block.hashPrevBlock with
      | some pprev => .child pprev d
      | none => .root d
    ({ s with
        mapBlockIndex := pindexNew :: s.mapBlockIndex
        nStatus := update s.nStatus pindexNew
          (BlockStatus.null.raiseValidity BlockStatus.blockValidTree)
        nTx := update s.nTx pindexNew 0
        nChainTx := update s.nChainTx pindexNew 0
        nSequenceId := update s.nSequenceId pindexNew 0
        pindexBestHeader :=
          match s.pindexBestHeader with
          | none => some pindexNew
          | some best =>
            if best.nChainWork < pindexNew.nChainWork then some pindexNew else some best },
     pindexNew)

/-- What a header or block arrival comes to: an entry; a reject with the block whose mark is
the cause, if it is a mark; or a system error. -/
inductive Arrival where
  | accepted (pindex : CBlockIndex)
  | rejected (r : Reject) (blame : Option CBlockIndex)
  | systemError
deriving DecidableEq, Repr

/-- The first block of `gFailedBlocks` that is `pindexPrev` or an ancestor of it.  The source goes
through the set in the order of the addresses; here the order is that of the list. -/
def failedAncestor (s : ChainState) (pindexPrev : CBlockIndex) : Option CBlockIndex :=
  s.gFailedBlocks.find? fun failedit => pindexPrev.getAncestor failedit.nHeight == some failedit

/-- The block map as the header checks read it. -/
def headerContext (env : NodeEnv) (s : ChainState) : HeaderContext :=
  ⟨env.fCheckpointsEnabled, s.find⟩

/-- The part of `AcceptBlockHeader` for a header that is not known yet. -/
def acceptNewHeader (env : NodeEnv) (s : ChainState) (block : CBlockHeader)
    (nAdjustedTime : Int) : Option (ChainState × Arrival) :=
  match checkBlockHeader env.cr env.net.params block with
  | .error r => some (s, .rejected r none)
  | .ok _ =>
    match s.find block.hashPrevBlock with
    | none => some (s, .rejected (.dos 10 .unset "bad-prevblk") none)
    | some pindexPrev =>
      if (s.nStatus pindexPrev).failed then
        some (s, .rejected (.dos 100 .invalid "bad-prevblk") (some pindexPrev))
      else
        match contextualCheckBlockHeader env.net.params (s.headerContext env) block pindexPrev
            nAdjustedTime with
        | .error r => some (s, .rejected r none)
        | .ok _ =>
          if (s.nStatus pindexPrev).isValid BlockStatus.blockValidScripts then
            let (s, pindex) := s.addToBlockIndex env block
            some (s, .accepted pindex)
          else
            match s.failedAncestor pindexPrev with
            | none =>
              let (s, pindex) := s.addToBlockIndex env block
              some (s, .accepted pindex)
            | some failedit =>
              -- assert(failedit->nStatus & BLOCK_FAILED_VALID)
              if (s.nStatus failedit).failedValid then
                some (s.markFailedChild (Lineage.between failedit pindexPrev),
                  .rejected (.dos 100 .invalid "bad-prevblk") (some failedit))
              else none

/-- `AcceptBlockHeader`; `none` where its assertion on `gFailedBlocks` fails. -/
def acceptBlockHeader (env : NodeEnv) (s : ChainState) (block : CBlockHeader)
    (nAdjustedTime : Int) : Option (ChainState × Arrival) :=
  let hash := block.getHash env.cr
  if hash ≠ (env.net.params.getConsensus 0).hashGenesisBlock then
    match s.find hash with
    | some pindex =>
      if (s.nStatus pindex).failed then
        some (s, .rejected (.invalid .unset "duplicate") (some pindex))
      else some (s, .accepted pindex)
    | none => s.acceptNewHeader env block nAdjustedTime
  else
    let (s, pindex) := s.addToBlockIndex env block
    some (s, .accepted pindex)

/-! ## Block data -/

def isWitnessEnabled (pindexPrev : Option CBlockIndex) (params : Consensus.Params) : Bool :=
  match pindexPrev with
  | none => false
  | some p => p.nHeight + 1 ≥ params.nSegwitHeight

/-- The block gets its transaction count and the next sequence id. -/
def assignSequence (s : ChainState) (pindex : CBlockIndex) : ChainState :=
  let before := match pindex.pprev with
    | some q => s.nChainTx q
    | none => 0
  { s with
    nChainTx := update s.nChainTx pindex (before + s.nTx pindex)
    nSequenceId := update s.nSequenceId pindex s.nBlockSequenceId
    nBlockSequenceId := s.nBlockSequenceId + 1 }

/-- One round of the loop of `ReceivedBlockTransactions`. -/
def linkBlock (env : NodeEnv) (s : ChainState) (pindex : CBlockIndex) : ChainState :=
  let s := s.assignSequence pindex
  if s.chainActive.tip = none ∨ s.worseThanTip env pindex = false then s.insertCandidate pindex
  else s

/-- Take the blocks that wait for `pindex` out of `mapBlocksUnlinked`. -/
def takeUnlinked (s : ChainState) (pindex : CBlockIndex) : ChainState × List CBlockIndex :=
  ({ s with mapBlocksUnlinked := s.mapBlocksUnlinked.filter (·.1 ≠ pindex) },
   (s.mapBlocksUnlinked.filter (·.1 = pindex)).map (·.2))

/-- The loop of `ReceivedBlockTransactions` over the blocks that became connectable.  Each
block after the first leaves `mapBlocksUnlinked` when it enters the queue, so as many rounds
as there are entries, plus one, are enough. -/
def linkQueue (env : NodeEnv) : Nat → List CBlockIndex → ChainState → ChainState
  | 0, _, s => s
  | _ + 1, [], s => s
  | rounds + 1, pindex :: queue, s =>
    linkQueue env rounds (queue ++ ((s.linkBlock env pindex).takeUnlinked pindex).2)
      ((s.linkBlock env pindex).takeUnlinked pindex).1

/-- The first part of `ReceivedBlockTransactions`: the data of a block is there. -/
def recordData (env : NodeEnv) (s : ChainState) (nTx : Nat) (pindexNew : CBlockIndex) :
    ChainState :=
  let witness := isWitnessEnabled pindexNew.pprev (env.net.params.getConsensus pindexNew.nHeight)
  { s with
    nTx := update s.nTx pindexNew nTx
    nChainTx := update s.nChainTx pindexNew 0 }.modifyStatus pindexNew fun st =>
      ({ st with haveData := true, optWitness := st.optWitness || witness }).raiseValidity
        BlockStatus.blockValidTransactions

/-- `ReceivedBlockTransactions` for a block with `nTx` transactions -/
def receivedBlockTransactions (env : NodeEnv) (s : ChainState) (nTx : Nat)
    (pindexNew : CBlockIndex) : ChainState :=
  let s := s.recordData env nTx pindexNew
  match pindexNew.pprev with
  | none => linkQueue env (s.mapBlocksUnlinked.length + 1) [pindexNew] s
  | some pprev =>
    if s.nChainTx pprev ≠ 0 then
      linkQueue env (s.mapBlocksUnlinked.length + 1) [pindexNew] s
    else if (s.nStatus pprev).isValid BlockStatus.blockValidTree then
      { s with mapBlocksUnlinked := s.mapBlocksUnlinked ++ [(pprev, pindexNew)] }
    else s

/-- What the parts of `AcceptBlock` outside this model answer: `CheckBlock` and
`ContextualCheckBlock` for the block, and whether `FindBlockPos` finds room. -/
structure BlockOutcome where
  check : Except Reject Unit
  foundPos : Bool

/-- An unrequested block is only processed if it may advance the tip. -/
def ignoresUnrequested (s : ChainState) (pindex : CBlockIndex) : Bool :=
  s.nTx pindex ≠ 0 ||
    (match s.chainActive.tip with
     | some tip => pindex.nChainWork ≤ tip.nChainWork
     | none => false) ||
    (pindex.nHeight : Int) > s.chainActive.height + minBlocksToKeep

def acceptBlock (env : NodeEnv) (s : ChainState) (block : CBlock) (nAdjustedTime : Int)
    (fRequested : Bool) (out : BlockOutcome) : Option (ChainState × Arrival) :=
  match s.acceptBlockHeader env block.toCBlockHeader nAdjustedTime with
  | none => none
  | some (s, .accepted pindex) =>
    if (s.nStatus pindex).haveData then some (s, .accepted pindex)
    else if !fRequested && s.ignoresUnrequested pindex then some (s, .accepted pindex)
    else
      match out.check with
      | .error r =>
        some (if r.corruptionPossible then s else s.markFailedValid pindex,
          .rejected r (some pindex))
      | .ok _ =>
        if out.foundPos then
          some (s.receivedBlockTransactions env block.vtx.length pindex, .accepted pindex)
        else some (s, .systemError)
  | some (s, notAccepted) => some (s, notAccepted)

/-! ## The first block -/

/-- The state before anything is loaded (`UnloadBlockIndex`). -/
def empty : ChainState :=
  { mapBlockIndex := []
    nStatus := fun _ => BlockStatus.null
    nTx := fun _ => 0
    nChainTx := fun _ => 0
    nSequenceId := fun _ => 0
    nBlockSequenceId := 1
    chainActive := CChain.empty
    setBlockIndexCandidates := []
    mapBlocksUnlinked := []
    gFailedBlocks := []
    pindexBestInvalid := none
    pindexBestHeader := none }

/-- The genesis block, which has one transaction. -/
def genesisHeader (env : NodeEnv) : CBlockHeader := { env.net.params.genesis with auxpow := none }

/-- `InitBlockIndex` on a new data directory -/
def initBlockIndex (env : NodeEnv) : ChainState :=
  (empty.addToBlockIndex env (genesisHeader env)).1.receivedBlockTransactions env 1
    (empty.addToBlockIndex env (genesisHeader env)).2

end ChainState

end RgmNode
