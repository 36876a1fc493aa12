import Mathlib.Algebra.Group.Nat.Defs
import Mathlib.Data.Fintype.Basic
import RgmNode.Lib.OrderedView

/-!
# The transaction request tracker

`TxRequestTracker::Impl` of `txrequest.cpp`: which peers announced which transactions, and from whom
to request each.  The announcements stand in one container with three ordered views, and every
operation finds its way by the neighbours of an announcement in one of them.

The container is a list of announcements in the order in which they were added, a view is
`OrderedView.view` of its key.  Equal keys keep that order, where `modify` of the source may link an
announcement anew among its equals, and a sequence is a natural number, of 59 bits in the source.
An iterator is the announcement it points at; an assertion that fails, an iterator that points
nowhere and a loop that does not end are `none`.

Peers and hashes are any linearly ordered types (`NodeId` by value and `uint256` by `memcmp` in the
source, `⊥` for `uint256::ZERO`).  The salted SipHash behind the priorities is a parameter.

1. Announcements and their views
2. The container with its statistics: `erase`, `modify`
3. The consistency checks: `SanityCheck`, `PostGetRequestableSanityCheck`
4. The helpers, from `promoteCandidateReady` to `setTimePoint`
5. The operations and `step`
-/

namespace RgmNode.TxRequest

open OrderedView

/-! ## 1. Announcements and their views -/

inductive State where
  | candidateDelayed
  | candidateReady
  | candidateBest
  | requested
  | completed
deriving DecidableEq, Repr

/-- The place of a state in the enumeration, by which states are compared. -/
def State.rank : State → Nat
  | .candidateDelayed => 0
  | .candidateReady => 1
  | .candidateBest => 2
  | .requested => 3
  | .completed => 4

/-- An announcement: what a peer offered, when it may be requested or when the request expires. -/
structure Announcement (Peer Hash : Type) where
  txhash : Hash
  time : Int
  peer : Peer
  sequence : Nat
  preferred : Bool
  state : State
deriving DecidableEq, Repr

variable {Peer Hash : Type}

namespace Announcement

variable (ann : Announcement Peer Hash)

def isSelected : Prop := ann.state = .candidateBest ∨ ann.state = .requested

def isWaiting : Prop := ann.state = .requested ∨ ann.state = .candidateDelayed

def isSelectable : Prop := ann.state = .candidateReady ∨ ann.state = .candidateBest

instance : Decidable ann.isSelected := inferInstanceAs (Decidable (_ ∨ _))

instance : Decidable ann.isWaiting := inferInstanceAs (Decidable (_ ∨ _))

instance : Decidable ann.isSelectable := inferInstanceAs (Decidable (_ ∨ _))

def setState (state : State) : Announcement Peer Hash := { ann with state := state }

end Announcement

/-- `PriorityComputer`: the upper bits of the salted hash of transaction and peer, below one bit for
preferred peers. -/
def computePriority (sipHash : Hash → Peer → UInt64) (txhash : Hash) (peer : Peer)
    (preferred : Bool) : Nat :=
  ((sipHash txhash peer >>> 1) ||| ((if preferred then 1 else 0 : UInt64) <<< 63)).toNat

def Announcement.priority (sipHash : Hash → Peer → UInt64) (ann : Announcement Peer Hash) : Nat :=
  computePriority sipHash ann.txhash ann.peer ann.preferred

/-- `GetWaitState`, as the place in its enumeration: future event, no event, past event. -/
def Announcement.getWaitState (ann : Announcement Peer Hash) : Nat :=
  if ann.isWaiting then 0 else if ann.isSelectable then 2 else 1

/-- The `ByPeer` view. -/
def Announcement.byPeer (ann : Announcement Peer Hash) : Peer ×ₗ Bool ×ₗ Hash :=
  toLex (ann.peer, toLex (decide (ann.state = .candidateBest), ann.txhash))

/-- The `ByTxHash` view: only announcements that are ready are ordered by priority. -/
def Announcement.byTxHash (sipHash : Hash → Peer → UInt64) (ann : Announcement Peer Hash) :
    Hash ×ₗ Nat ×ₗ Nat :=
  toLex (ann.txhash,
    toLex (ann.state.rank, if ann.state = .candidateReady then ann.priority sipHash else 0))

/-- The `ByTime` view. -/
def Announcement.byTime (ann : Announcement Peer Hash) : Nat ×ₗ Int :=
  toLex (ann.getWaitState, ann.time)

/-! ## 2. The container with its statistics -/

structure PeerInfo where
  total : Nat
  completed : Nat
  requested : Nat
deriving DecidableEq, Repr

/-- The tracker: the next sequence number, the announcements and the statistics of the peers. -/
structure Tracker (Peer Hash : Type) where
  currentSequence : Nat
  index : List (Announcement Peer Hash)
  peerinfo : Peer → Option PeerInfo

def Tracker.init : Tracker Peer Hash := ⟨0, [], fun _ => none⟩

section Container

variable [LinearOrder Peer] [LinearOrder Hash]

/-- `Erase`: take an announcement out and keep the statistics of its peer up to date; a peer without
announcements has no entry. -/
def Tracker.erase (t : Tracker Peer Hash) (it : Announcement Peer Hash) :
    Option (Tracker Peer Hash) :=
  if it ∈ t.index then
    (t.peerinfo it.peer).map fun info =>
      let completed := info.completed - (decide (it.state = .completed)).toNat
      let requested := info.requested - (decide (it.state = .requested)).toNat
      { t with
        index := t.index.filter (· ≠ it)
        peerinfo := Function.update t.peerinfo it.peer <|
          if info.total - 1 = 0 then none else some ⟨info.total - 1, completed, requested⟩ }
  else none

/-- `Modify`: change an announcement in place and keep the statistics of its peer up to date.  The
`ByPeer` view is unique: the container takes out an announcement that is changed into a second one
of the same key, and the iterator that is then read again points nowhere. -/
def Tracker.modify (t : Tracker Peer Hash) (it : Announcement Peer Hash)
    (modifier : Announcement Peer Hash → Announcement Peer Hash) : Option (Tracker Peer Hash) :=
  if it ∈ t.index ∧ ∀ ann ∈ t.index, ann ≠ it → ann.byPeer ≠ (modifier it).byPeer then
    (t.peerinfo it.peer).map fun info =>
      let completed := info.completed - (decide (it.state = .completed)).toNat
      let requested := info.requested - (decide (it.state = .requested)).toNat
      { t with
        index := t.index.map fun ann => if ann = it then modifier it else ann
        peerinfo := Function.update t.peerinfo it.peer <| some
          ⟨info.total, completed + (decide ((modifier it).state = .completed)).toNat,
            requested + (decide ((modifier it).state = .requested)).toNat⟩ }
  else none

def Tracker.eraseAll (t : Tracker Peer Hash) (its : List (Announcement Peer Hash)) :
    Option (Tracker Peer Hash) :=
  its.foldlM (fun t it => t.erase it) t

end Container

/-! ## 3. The consistency checks -/

section Checks

variable [DecidableEq Peer] [DecidableEq Hash]

/-- `RecomputePeerInfo`: the statistics that the announcements give. -/
def recomputePeerInfo (index : List (Announcement Peer Hash)) (peer : Peer) : Option PeerInfo :=
  let total := index.countP (·.peer = peer)
  if total = 0 then none
  else some
    ⟨total, index.countP fun ann => decide (ann.peer = peer ∧ ann.state = .completed),
      index.countP fun ann => decide (ann.peer = peer ∧ ann.state = .requested)⟩

structure TxHashInfo (Peer : Type) where
  candidateDelayed : Nat
  candidateReady : Nat
  candidateBest : Nat
  requested : Nat
  priorityCandidateBest : Nat
  priorityBestCandidateReady : Nat
  peers : List Peer

/-- `ComputeTxHashInfo`, the entry of one transaction. -/
def computeTxHashInfo (sipHash : Hash → Peer → UInt64) (index : List (Announcement Peer Hash))
    (txhash : Hash) : TxHashInfo Peer :=
  let anns := index.filter (·.txhash = txhash)
  { candidateDelayed := anns.countP (·.state = .candidateDelayed)
    candidateReady := anns.countP (·.state = .candidateReady)
    candidateBest := anns.countP (·.state = .candidateBest)
    requested := anns.countP (·.state = .requested)
    priorityCandidateBest := anns.foldl (fun best ann =>
      if ann.state = .candidateBest then ann.priority sipHash else best) (2 ^ 64 - 1)
    priorityBestCandidateReady := anns.foldl (fun best ann =>
      if ann.state = .candidateReady then max best (ann.priority sipHash) else best) 0
    peers := anns.map (·.peer) }

/-- The assertions of `SanityCheck` about one transaction. -/
structure TxHashInfo.Checked (info : TxHashInfo Peer) : Prop where
  /-- not only completed announcements -/
  live : 0 < info.candidateDelayed + info.candidateReady + info.candidateBest + info.requested
  /-- at most one selected announcement -/
  selected : info.candidateBest + info.requested ≤ 1
  /-- a selected one as soon as one is ready -/
  ready : 0 < info.candidateReady → info.candidateBest + info.requested = 1
  /-- the selected candidate is at least as good as those that are ready -/
  best : 0 < info.candidateReady → 0 < info.candidateBest →
    info.priorityBestCandidateReady ≤ info.priorityCandidateBest
  /-- no peer announced it twice -/
  peers : info.peers.Nodup

structure Tracker.SanityCheck (sipHash : Hash → Peer → UInt64) (t : Tracker Peer Hash) : Prop where
  peerinfo : t.peerinfo = recomputePeerInfo t.index
  txhashes : ∀ ann ∈ t.index, (computeTxHashInfo sipHash t.index ann.txhash).Checked

def Tracker.PostGetRequestableSanityCheck (t : Tracker Peer Hash) (now : Int) : Prop :=
  ∀ ann ∈ t.index, (ann.isWaiting → now < ann.time) ∧ (ann.isSelectable → ann.time ≤ now)

end Checks

/-! ## 4. The helpers -/

section Helpers

variable [LinearOrder Peer] [LinearOrder Hash] (sipHash : Hash → Peer → UInt64)

/-- `PromoteCandidateReady`: make a delayed candidate ready, and the selected one if no other is
selected or if it is better than the selected candidate. -/
def Tracker.promoteCandidateReady (t : Tracker Peer Hash) (it : Announcement Peer Hash) :
    Option (Tracker Peer Hash) :=
  if it.state = .candidateDelayed then do
    let t ← t.modify it (·.setState .candidateReady)
    let it := it.setState .candidateReady
    match next (·.byTxHash sipHash) t.index it with
    | none => t.modify it (·.setState .candidateBest)
    | some itNext =>
      if itNext.txhash ≠ it.txhash ∨ itNext.state = .completed then
        t.modify it (·.setState .candidateBest)
      else if itNext.state = .candidateBest then
        if itNext.priority sipHash < it.priority sipHash then do
          let t ← t.modify itNext (·.setState .candidateReady)
          t.modify it (·.setState .candidateBest)
        else some t
      else some t
  else none

/-- The announcement that `ChangeAndReselect` selects in the place of another: the one before it, if
it is ready and of the same transaction. -/
def Tracker.nextBest (t : Tracker Peer Hash) (it : Announcement Peer Hash) :
    Option (Announcement Peer Hash) :=
  (prev (·.byTxHash sipHash) t.index it).filter fun itPrev =>
    decide (itPrev.txhash = it.txhash ∧ itPrev.state = .candidateReady)

/-- `ChangeAndReselect`: change the state of an announcement to one that is not selected; if it was
selected, the next best one is selected. -/
def Tracker.changeAndReselect (t : Tracker Peer Hash) (it : Announcement Peer Hash)
    (newState : State) : Option (Tracker Peer Hash) :=
  if newState = .completed ∨ newState = .candidateDelayed then do
    let t ← (match if it.isSelected then t.nextBest sipHash it else none with
      | some itPrev => t.modify itPrev (·.setState .candidateBest)
      | none => some t : Option (Tracker Peer Hash))
    t.modify it (·.setState newState)
  else none

/-- `IsOnlyNonCompleted`: an announcement before it of the same transaction is not completed, for
completed ones come last. -/
def Tracker.isOnlyNonCompleted (t : Tracker Peer Hash) (it : Announcement Peer Hash) :
    Option Bool :=
  if it ∈ t.index ∧ it.state ≠ .completed then
    if (prev (·.byTxHash sipHash) t.index it).any fun itPrev =>
        decide (itPrev.txhash = it.txhash) then some false
    else if (next (·.byTxHash sipHash) t.index it).any fun itNext =>
        decide (itNext.txhash = it.txhash ∧ itNext.state ≠ .completed) then some false
    else some true
  else none

/-- `MakeCompleted`: complete an announcement; if none is left of its transaction that is not
completed, they are all deleted.  Also whether the announcement still exists.  Erasing one
announcement leaves the others in order, so the deleting loop goes over those that followed. -/
def Tracker.makeCompleted (t : Tracker Peer Hash) (it : Announcement Peer Hash) :
    Option (Tracker Peer Hash × Bool) :=
  if it ∈ t.index then
    if it.state = .completed then some (t, true)
    else (t.isOnlyNonCompleted sipHash it).bind fun only =>
      if only then
        (t.eraseAll (it :: (after (·.byTxHash sipHash) t.index it).takeWhile fun ann =>
          decide (ann.txhash = it.txhash))).map (·, false)
      else (t.changeAndReselect sipHash it .completed).map (·, true)
  else none

/-- The first loop of `SetTimePoint`: from old to new, make delayed candidates ready and complete
requests whose time has come.  `expired` collects those requests. -/
def Tracker.advance (now : Int) : Nat → Tracker Peer Hash → List (Peer × Hash) →
    Option (Tracker Peer Hash × List (Peer × Hash))
  | 0, _, _ => none
  | fuel + 1, t, expired =>
    match first Announcement.byTime t.index with
    | none => some (t, expired)
    | some it =>
      if it.state = .candidateDelayed ∧ it.time ≤ now then do
        let t ← t.promoteCandidateReady sipHash it
        advance now fuel t expired
      else if it.state = .requested ∧ it.time ≤ now then do
        let r ← t.makeCompleted sipHash it
        advance now fuel r.1 (expired ++ [(it.peer, it.txhash)])
      else some (t, expired)

/-- The second loop of `SetTimePoint`: if time went backwards, delay the candidates whose time is in
the future again. -/
def Tracker.retreat (now : Int) : Nat → Tracker Peer Hash → Option (Tracker Peer Hash)
  | 0, _ => none
  | fuel + 1, t =>
    match last Announcement.byTime t.index with
    | none => some t
    | some it =>
      if it.isSelectable ∧ now < it.time then do
        let t ← t.changeAndReselect sipHash it .candidateDelayed
        retreat now fuel t
      else some t

/-- `SetTimePoint`, each loop with a bound on its rounds: the tracker and the expired requests. -/
def Tracker.setTimePoint (fuel : Nat) (t : Tracker Peer Hash) (now : Int) :
    Option (Tracker Peer Hash × List (Peer × Hash)) := do
  let r ← t.advance sipHash now fuel []
  let t ← r.1.retreat sipHash now fuel
  return (t, r.2)

/-! ## 5. The operations -/

/-- The loop of `DisconnectedPeer`.  What comes next is decided before the announcement is deleted. -/
def Tracker.disconnect (peer : Peer) : Nat → Option (Announcement Peer Hash) → Tracker Peer Hash →
    Option (Tracker Peer Hash)
  | _, none, t => some t
  | 0, some _, _ => none
  | fuel + 1, some it, t =>
    if it.peer = peer then
      let itNext := (next Announcement.byPeer t.index it).filter (·.peer = peer)
      (t.makeCompleted sipHash it).bind fun r =>
        (if r.2 then r.1.erase (it.setState .completed) else some r.1).bind fun t =>
          disconnect peer fuel itNext t
    else some t

/-- `DisconnectedPeer`: forget the announcements of a peer. -/
def Tracker.disconnectedPeer [OrderBot Hash] (t : Tracker Peer Hash) (peer : Peer) :
    Option (Tracker Peer Hash) :=
  t.disconnect sipHash peer (t.index.length + 1)
    (lowerBound Announcement.byPeer (toLex (peer, toLex (false, ⊥))) t.index)

/-- `ForgetTxHash`: forget the announcements of a transaction. -/
def Tracker.forgetTxHash (t : Tracker Peer Hash) (txhash : Hash) : Option (Tracker Peer Hash) :=
  t.eraseAll (range (·.byTxHash sipHash)
    (toLex (txhash, toLex (State.candidateDelayed.rank, 0)))
    (·.txhash = txhash) t.index)

/-- The announcement that a key of the unique `ByPeer` view finds. -/
def Tracker.find (t : Tracker Peer Hash) (peer : Peer) (best : Bool) (txhash : Hash) :
    Option (Announcement Peer Hash) :=
  t.index.find? (·.byPeer = toLex (peer, toLex (best, txhash)))

/-- `ReceivedInv`: a new announcement starts delayed; a second one of the same peer and transaction
changes nothing. -/
def Tracker.receivedInv (t : Tracker Peer Hash) (peer : Peer) (txhash : Hash) (preferred : Bool)
    (reqtime : Int) : Tracker Peer Hash :=
  if (t.find peer true txhash).isSome then t
  else if (t.find peer false txhash).isSome then t
  else
    let info := (t.peerinfo peer).getD ⟨0, 0, 0⟩
    { currentSequence := t.currentSequence + 1
      index := t.index ++
        [⟨txhash, reqtime, peer, t.currentSequence, preferred, .candidateDelayed⟩]
      peerinfo := Function.update t.peerinfo peer (some { info with total := info.total + 1 }) }

/-- `GetRequestable`: move time, then the selected candidates of the peer in the order in which they
were announced.  Also the requests that have expired. -/
def Tracker.getRequestable [OrderBot Hash] (t : Tracker Peer Hash) (peer : Peer) (now : Int) :
    Option (Tracker Peer Hash × List Hash × List (Peer × Hash)) :=
  (t.setTimePoint sipHash (t.index.length + 1) now).map fun r =>
    let selected := range Announcement.byPeer (toLex (peer, toLex (true, ⊥)))
      (fun ann => decide (ann.peer = peer ∧ ann.state = .candidateBest)) r.1.index
    (r.1, (selected.insertionSort fun a b => a.sequence ≤ b.sequence).map (·.txhash), r.2)

/-- `RequestedTx` for a candidate that is not the selected one: the announcement that was selected
is no longer. -/
def Tracker.unselect (t : Tracker Peer Hash) (txhash : Hash) : Option (Tracker Peer Hash) :=
  match (lowerBound (·.byTxHash sipHash)
    (toLex (txhash, toLex (State.candidateBest.rank, 0))) t.index).filter
      fun ann => decide (ann.txhash = txhash) with
  | none => some t
  | some itOld =>
    if itOld.state = .candidateBest then t.modify itOld (·.setState .candidateReady)
    else if itOld.state = .requested then t.modify itOld (·.setState .completed)
    else some t

/-- `RequestedTx`: mark the candidate of a peer as requested until a time. -/
def Tracker.requestedTx (t : Tracker Peer Hash) (peer : Peer) (txhash : Hash) (expiry : Int) :
    Option (Tracker Peer Hash) :=
  match t.find peer true txhash with
  | some it => t.modify it ({ · with state := .requested, time := expiry })
  | none =>
    match t.find peer false txhash with
    | none => some t
    | some it =>
      if it.state ≠ .candidateDelayed ∧ it.state ≠ .candidateReady then some t
      else do
        let t ← t.unselect sipHash txhash
        t.modify it ({ · with state := .requested, time := expiry })

/-- `ReceivedResponse`: complete the announcement of a peer. -/
def Tracker.receivedResponse (t : Tracker Peer Hash) (peer : Peer) (txhash : Hash) :
    Option (Tracker Peer Hash) :=
  match (t.find peer false txhash).or (t.find peer true txhash) with
  | none => some t
  | some it => (t.makeCompleted sipHash it).map (·.1)

def Tracker.countInFlight (t : Tracker Peer Hash) (peer : Peer) : Nat :=
  match t.peerinfo peer with
  | some info => info.requested
  | none => 0

def Tracker.countCandidates (t : Tracker Peer Hash) (peer : Peer) : Nat :=
  match t.peerinfo peer with
  | some info => info.total - info.requested - info.completed
  | none => 0

/-- The calls that change the tracker. -/
inductive Op (Peer Hash : Type) where
  | receivedInv (peer : Peer) (txhash : Hash) (preferred : Bool) (reqtime : Int)
  | disconnectedPeer (peer : Peer)
  | forgetTxHash (txhash : Hash)
  | getRequestable (peer : Peer) (now : Int)
  | requestedTx (peer : Peer) (txhash : Hash) (expiry : Int)
  | receivedResponse (peer : Peer) (txhash : Hash)
deriving DecidableEq, Repr

def step [OrderBot Hash] (t : Tracker Peer Hash) : Op Peer Hash → Option (Tracker Peer Hash)
  | .receivedInv peer txhash preferred reqtime =>
    some (t.receivedInv peer txhash preferred reqtime)
  | .disconnectedPeer peer => t.disconnectedPeer sipHash peer
  | .forgetTxHash txhash => t.forgetTxHash sipHash txhash
  | .getRequestable peer now => (t.getRequestable sipHash peer now).map (·.1)
  | .requestedTx peer txhash expiry => t.requestedTx sipHash peer txhash expiry
  | .receivedResponse peer txhash => t.receivedResponse sipHash peer txhash

end Helpers

end RgmNode.TxRequest
