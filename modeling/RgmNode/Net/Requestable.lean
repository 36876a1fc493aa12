import RgmNode.Net.TrackerRun

/-!
# The tracker answers as documented

`txrequest.h` documents the tracker by a list of announcements, each a candidate from a time on, a
request until a time, or completed; the answer of `GetRequestable` is a function of that list
(`requestable`).  The documented machine has no selection: which candidate is the best is found anew
for every answer.
-/

namespace RgmNode.TxRequest

open OrderedView Transition List Announcement

variable {Peer Hash : Type} {sipHash : Hash → Peer → UInt64} {n : Nat} {now : Int}
  {l l' : List (Announcement Peer Hash)} {it a b : Announcement Peer Hash} {peer : Peer}
  {txhash : Hash}

/-! ## 1. The documented machine -/

inductive Status where
  | candidate (reqtime : Int)
  | requested (expiry : Int)
  | completed
deriving DecidableEq, Repr

/-- An announcement as documented. -/
structure Offer (Peer Hash : Type) where
  peer : Peer
  txhash : Hash
  preferred : Bool
  status : Status
deriving DecidableEq, Repr

namespace Offer

variable (o : Offer Peer Hash)

/-- A candidate whose time has come. -/
def isReady (now : Int) : Bool :=
  match o.status with
  | .candidate reqtime => decide (reqtime ≤ now)
  | _ => false

/-- A request that has not expired. -/
def isPending (now : Int) : Bool :=
  match o.status with
  | .requested expiry => decide (now < expiry)
  | _ => false

def isExpired (now : Int) : Bool :=
  match o.status with
  | .requested expiry => decide (expiry ≤ now)
  | _ => false

def isCandidate : Bool :=
  match o.status with
  | .candidate _ => true
  | _ => false

def complete : Offer Peer Hash := { o with status := .completed }

def expire (now : Int) : Offer Peer Hash := if o.isExpired now then o.complete else o

def priority (sipHash : Hash → Peer → UInt64) : Nat :=
  computePriority sipHash o.txhash o.peer o.preferred

variable [DecidableEq Peer] [DecidableEq Hash]

/-- A candidate is requested; any other request for the transaction is given up. -/
def request (peer : Peer) (txhash : Hash) (expiry : Int) : Offer Peer Hash :=
  if o.peer = peer ∧ o.txhash = txhash then { o with status := .requested expiry }
  else if o.txhash = txhash ∧ !o.isCandidate then o.complete
  else o

def respond (peer : Peer) (txhash : Hash) : Offer Peer Hash :=
  if o.peer = peer ∧ o.txhash = txhash then o.complete else o

end Offer

section Documented

variable [DecidableEq Peer] [DecidableEq Hash]

/-- If only completed announcements of a transaction remain, they are deleted. -/
def deleteCompleted (offers : List (Offer Peer Hash)) : List (Offer Peer Hash) :=
  offers.filter fun o => decide (∃ o' ∈ offers, o'.txhash = o.txhash ∧ o'.status ≠ .completed)

def documentedStep (offers : List (Offer Peer Hash)) : Op Peer Hash → List (Offer Peer Hash)
  | .receivedInv peer txhash preferred reqtime =>
    if ∃ o ∈ offers, o.peer = peer ∧ o.txhash = txhash then offers
    else offers ++ [⟨peer, txhash, preferred, .candidate reqtime⟩]
  | .disconnectedPeer peer => deleteCompleted (offers.filter (·.peer ≠ peer))
  | .forgetTxHash txhash => offers.filter (·.txhash ≠ txhash)
  | .getRequestable _ now => deleteCompleted (offers.map (·.expire now))
  | .requestedTx peer txhash expiry =>
    if ∃ o ∈ offers, o.peer = peer ∧ o.txhash = txhash ∧ o.isCandidate then
      offers.map (·.request peer txhash expiry)
    else offers
  | .receivedResponse peer txhash => deleteCompleted (offers.map (·.respond peer txhash))

/-- The transactions to request from a peer at a time, in the order in which they were announced:
those of which it has a candidate whose time has come, of which no request is pending, and of which
no candidate whose time has come has a higher priority. -/
def requestable (sipHash : Hash → Peer → UInt64) (offers : List (Offer Peer Hash)) (peer : Peer)
    (now : Int) : List Hash :=
  (offers.filter fun o => decide (o.peer = peer ∧ o.isReady now ∧
    (∀ o' ∈ offers, o'.txhash = o.txhash → ¬ o'.isPending now) ∧
    ∀ o' ∈ offers, o'.txhash = o.txhash → o'.isReady now →
      o'.priority sipHash ≤ o.priority sipHash)).map (·.txhash)

omit [DecidableEq Peer] [DecidableEq Hash] in
def expiredOffers (offers : List (Offer Peer Hash)) (now : Int) : List (Peer × Hash) :=
  (offers.filter (·.isExpired now)).map fun o => (o.peer, o.txhash)

end Documented

/-! ## 2. The tracker makes what is documented -/

/-- An announcement of the tracker as documented: the states of a candidate do not show. -/
def Announcement.offer (ann : Announcement Peer Hash) : Offer Peer Hash where
  peer := ann.peer
  txhash := ann.txhash
  preferred := ann.preferred
  status := match ann.state with
    | .requested => .requested ann.time
    | .completed => .completed
    | _ => .candidate ann.time

theorem offer_settled : a.settled.offer = a.offer := by
  obtain ⟨txhash, time, peer, sequence, preferred, state⟩ := a
  cases state <;> rfl

theorem map_offer_settle : (settle l).map (·.offer) = l.map (·.offer) := by
  rw [settle, map_map]
  exact map_congr_left fun a _ => offer_settled

theorem offer_status_ne_completed : a.offer.status ≠ .completed ↔ a.state ≠ .completed := by
  obtain ⟨txhash, time, peer, sequence, preferred, state⟩ := a
  cases state <;> simp [offer]

theorem offer_isCandidate : a.offer.isCandidate = true ↔ a.isCandidate := by
  obtain ⟨txhash, time, peer, sequence, preferred, state⟩ := a
  cases state <;> simp [offer, Offer.isCandidate, Announcement.isCandidate]

theorem offer_elapse : (a.elapse now).offer = a.offer.expire now := by
  obtain ⟨txhash, time, peer, sequence, preferred, state⟩ := a
  by_cases ht : time ≤ now <;> cases state <;>
    simp [elapse, offer, setState, Offer.expire, Offer.isExpired, Offer.complete, ht]

theorem offer_rewind : (a.rewind now).offer = a.offer := by
  rw [rewind]
  split
  · next hearly =>
    rcases hearly.1 with h | h <;> simp [offer, setState, h]
  · rfl

theorem exists_offer {p : Offer Peer Hash → Prop} {q : Announcement Peer Hash → Prop}
    (hpq : ∀ a, p a.offer ↔ q a) : (∃ o ∈ l.map (·.offer), p o) ↔ ∃ a ∈ l, q a := by
  constructor
  · rintro ⟨o, ho, h⟩
    obtain ⟨a, ha, rfl⟩ := mem_map.mp ho
    exact ⟨a, ha, (hpq a).mp h⟩
  · rintro ⟨a, ha, h⟩
    exact ⟨a.offer, mem_map_of_mem ha, (hpq a).mpr h⟩

theorem map_offer_map {f : Announcement Peer Hash → Announcement Peer Hash}
    {g : Offer Peer Hash → Offer Peer Hash} (hfg : ∀ a, (f a).offer = g a.offer) :
    (l.map f).map (·.offer) = (l.map (·.offer)).map g := by
  rw [map_map, map_map]
  exact map_congr_left fun a _ => hfg a

variable [LinearOrder Peer] [LinearOrder Hash]

theorem offer_request {expiry : Int} :
    (a.request peer txhash expiry).offer = a.offer.request peer txhash expiry := by
  obtain ⟨tx, time, p, sequence, preferred, state⟩ := a
  by_cases htx : tx = txhash <;> by_cases hp : p = peer <;> cases state <;>
    simp [Announcement.request, offer, setState, Offer.request,
      Offer.isCandidate, Offer.complete, State.unselected, htx, hp]

theorem offer_respond : (a.respond peer txhash).offer = a.offer.respond peer txhash := by
  by_cases h : a.peer = peer ∧ a.txhash = txhash
  · have h' : a.offer.peer = peer ∧ a.offer.txhash = txhash := h
    rw [Announcement.respond, if_pos h, Offer.respond, if_pos h']
    rfl
  · have h' : ¬ (a.offer.peer = peer ∧ a.offer.txhash = txhash) := h
    rw [Announcement.respond, if_neg h, Offer.respond, if_neg h']

omit [LinearOrder Peer] in
theorem map_offer_forgetFailed :
    (forgetFailed l).map (·.offer) = deleteCompleted (l.map (·.offer)) := by
  rw [deleteCompleted, filter_map]
  congr 1
  refine filter_congr fun a _ => decide_eq_decide.mpr (exists_offer fun b => ?_).symm
  exact and_congr_right fun _ => offer_status_ne_completed

theorem map_offer_effect (op : Op Peer Hash) :
    (op.effect n l).2.map (·.offer) = documentedStep (l.map (·.offer)) op := by
  cases op with
  | receivedInv peer txhash preferred reqtime =>
    have hexists : (∃ o ∈ l.map (·.offer), o.peer = peer ∧ o.txhash = txhash) ↔
        ∃ a ∈ l, a.peer = peer ∧ a.txhash = txhash := exists_offer fun _ => Iff.rfl
    rw [Op.effect, documentedStep]
    by_cases hknown : ∃ a ∈ l, a.peer = peer ∧ a.txhash = txhash
    · rw [if_pos hknown, if_pos (hexists.mpr hknown)]
    · rw [if_neg hknown, if_neg (mt hexists.mp hknown), map_append]
      rfl
  | disconnectedPeer peer =>
    rw [Op.effect, documentedStep, map_offer_forgetFailed, filter_map]
    rfl
  | forgetTxHash txhash =>
    rw [documentedStep, filter_map]
    rfl
  | getRequestable peer now =>
    have hrewind : ∀ l : List (Announcement Peer Hash),
        (l.map (·.rewind now)).map (·.offer) = l.map (·.offer) := by
      intro l
      rw [map_map]
      exact map_congr_left fun a _ => offer_rewind
    rw [Op.effect, documentedStep, hrewind, map_offer_forgetFailed,
      map_offer_map (g := (·.expire now)) fun _ => offer_elapse]
  | requestedTx peer txhash expiry =>
    have hexists : (∃ o ∈ l.map (·.offer), o.peer = peer ∧ o.txhash = txhash ∧
        o.isCandidate = true) ↔ ∃ a ∈ l, a.peer = peer ∧ a.txhash = txhash ∧ a.isCandidate :=
      exists_offer fun a => and_congr_right fun _ => and_congr_right fun _ => offer_isCandidate
    rw [Op.effect, documentedStep]
    by_cases hcandidate : ∃ a ∈ l, a.peer = peer ∧ a.txhash = txhash ∧ a.isCandidate
    · rw [if_pos hcandidate, if_pos (hexists.mpr hcandidate),
        map_offer_map (g := (·.request peer txhash expiry)) fun _ => offer_request]
    · rw [if_neg hcandidate, if_neg (mt hexists.mp hcandidate)]
  | receivedResponse peer txhash =>
    rw [Op.effect, documentedStep, map_offer_forgetFailed,
      map_offer_map (g := (·.respond peer txhash)) fun _ => offer_respond]

/-! ## 3. The selected candidate is the documented choice -/

/-- Announcements of one transaction by different peers have different priorities. -/
def Distinct (sipHash : Hash → Peer → UInt64) (offers : List (Offer Peer Hash)) : Prop :=
  ∀ o ∈ offers, ∀ o' ∈ offers, o.txhash = o'.txhash → o.priority sipHash = o'.priority sipHash →
    o.peer = o'.peer

omit [LinearOrder Peer] [LinearOrder Hash] in
/-- The selected candidate is the one of highest priority, while nothing is requested. -/
theorem best_iff (h : Sane sipHash l) (hd : Distinct sipHash (l.map (·.offer))) (ha : a ∈ l) :
    a.state = .candidateBest ↔ a.isSelectable ∧
      (∀ b ∈ l, b.txhash = a.txhash → b.state ≠ .requested) ∧
      ∀ b ∈ l, b.txhash = a.txhash → b.isSelectable →
        b.priority sipHash ≤ a.priority sipHash := by
  constructor
  · intro hbest
    obtain ⟨only, best⟩ := (h.selection a.txhash).selected ha rfl (.inl hbest)
    refine ⟨.inr hbest, fun b hb htx hreq => ?_, fun b hb htx hsel => ?_⟩
    · rw [only b hb htx (.inr hreq), hbest] at hreq
      cases hreq
    · rcases hsel with hready | hbbest
      · exact best hbest b hb htx hready
      · rw [only b hb htx (.inl hbbest)]
  · rintro ⟨hready | hbest, hnone, hhighest⟩
    · obtain ⟨s, hs, htx, hsel⟩ := (h.selection a.txhash).of_ready ha rfl hready
      have hsbest : s.state = .candidateBest := hsel.resolve_right (hnone s hs htx)
      have hle := ((h.selection a.txhash).selected hs htx hsel).2 hsbest a ha rfl hready
      have hprio := le_antisymm hle (hhighest s hs htx (.inr hsbest))
      have hpeer := hd a.offer (mem_map_of_mem ha) s.offer (mem_map_of_mem hs) htx.symm hprio
      rw [h.keyed.eq ha hs hpeer htx.symm, hsbest]
    · exact hbest

omit [LinearOrder Peer] [LinearOrder Hash] in
theorem offer_isReady (hdue : ¬ a.due now) (hearly : ¬ a.early now) :
    a.offer.isReady now = true ↔ a.isSelectable := by
  obtain ⟨txhash, time, peer, sequence, preferred, state⟩ := a
  cases state <;>
    simp_all [due, early, isWaiting,
      isSelectable, offer, Offer.isReady]

omit [LinearOrder Peer] [LinearOrder Hash] in
theorem offer_isPending (hdue : ¬ a.due now) :
    a.offer.isPending now = true ↔ a.state = .requested := by
  obtain ⟨txhash, time, peer, sequence, preferred, state⟩ := a
  cases state <;>
    simp_all [due, isWaiting, offer, Offer.isPending]

/-- At the point in time to which the tracker has moved, its selected candidates are the documented
answer. -/
theorem map_txhash_best (h : Sane sipHash l) (hd : Distinct sipHash (l.map (·.offer)))
    (hdue : ∀ a ∈ l, ¬ a.due now) (hearly : ∀ a ∈ l, ¬ a.early now) (peer : Peer) :
    (l.filter fun ann => decide (ann.peer = peer ∧ ann.state = .candidateBest)).map (·.txhash) =
      requestable sipHash (l.map (·.offer)) peer now := by
  rw [requestable, filter_map, map_map]
  congr 1
  refine filter_congr fun a ha => decide_eq_decide.mpr (and_congr_right fun _ => ?_)
  rw [best_iff h hd ha, forall_mem_map, forall_mem_map]
  refine and_congr (offer_isReady (hdue a ha) (hearly a ha)).symm (and_congr ?_ ?_)
  · exact forall₃_congr fun b hb _ => not_congr (offer_isPending (hdue b hb)).symm
  · exact forall₃_congr fun b hb _ => imp_congr (offer_isReady (hdue b hb) (hearly b hb)).symm Iff.rfl

/-! ## 4. The answer does not depend on the requests that expire -/

section Expire

variable {o o' : Offer Peer Hash} {offers : List (Offer Peer Hash)}

omit [LinearOrder Peer] [LinearOrder Hash]

theorem expire_live : (o.expire now).isReady now = o.isReady now ∧
    (o.expire now).isPending now = o.isPending now := by
  obtain ⟨peer, txhash, preferred, status⟩ := o
  cases status with
  | candidate reqtime => exact ⟨rfl, rfl⟩
  | requested expiry =>
    by_cases h : expiry ≤ now <;>
      simp [Offer.expire, Offer.isExpired, Offer.complete, Offer.isReady, Offer.isPending, h]
  | completed => exact ⟨rfl, rfl⟩

theorem expire_key : (o.expire now).peer = o.peer ∧ (o.expire now).txhash = o.txhash ∧
    (o.expire now).preferred = o.preferred := by
  rw [Offer.expire]
  split <;> exact ⟨rfl, rfl, rfl⟩

theorem expire_priority : (o.expire now).priority sipHash = o.priority sipHash := by
  obtain ⟨hpeer, htx, hpreferred⟩ : (o.expire now).peer = o.peer ∧
    (o.expire now).txhash = o.txhash ∧ (o.expire now).preferred = o.preferred := expire_key
  rw [Offer.priority, hpeer, htx, hpreferred, Offer.priority]

theorem status_ne_completed (h : o.isReady now = true ∨ o.isPending now = true) :
    o.status ≠ .completed := by
  intro hstatus
  simp [Offer.isReady, Offer.isPending, hstatus] at h

end Expire

/-- The announcements that are ready or pending survive. -/
theorem mem_getRequestable {offers : List (Offer Peer Hash)} {o : Offer Peer Hash} (ho : o ∈ offers)
    (h : o.isReady now = true ∨ o.isPending now = true) :
    o.expire now ∈ documentedStep offers (.getRequestable peer now) := by
  have hmem : o.expire now ∈ offers.map (·.expire now) := mem_map_of_mem ho
  have hkept : (o.expire now).isReady now = true ∨ (o.expire now).isPending now = true := by
    rwa [expire_live.1, expire_live.2]
  exact mem_filter.mpr ⟨hmem, decide_eq_true ⟨_, hmem, rfl, status_ne_completed hkept⟩⟩

/-- What is said of the announcements that are ready or pending may be said before or after. -/
theorem forall_getRequestable {offers : List (Offer Peer Hash)} {p : Offer Peer Hash → Prop}
    (hp : ∀ o, p (o.expire now) ↔ p o)
    (hneeded : ∀ o, o.isReady now = false → o.isPending now = false → p o) :
    (∀ o ∈ documentedStep offers (.getRequestable peer now), p o) ↔ ∀ o ∈ offers, p o := by
  constructor
  · intro h o ho
    by_cases hkept : o.isReady now = true ∨ o.isPending now = true
    · exact (hp o).mp (h _ (mem_getRequestable ho hkept))
    · rw [not_or, Bool.not_eq_true, Bool.not_eq_true] at hkept
      exact hneeded o hkept.1 hkept.2
  · intro h x hx
    obtain ⟨o, ho, rfl⟩ := mem_map.mp (mem_of_mem_filter hx)
    exact (hp o).mpr (h o ho)

/-- Expiring requests first does not change the answer. -/
theorem requestable_getRequestable (offers : List (Offer Peer Hash)) (peer' : Peer) :
    requestable sipHash (documentedStep offers (.getRequestable peer' now)) peer now =
      requestable sipHash offers peer now := by
  -- the condition on an announcement, over the announcements before the call
  let chosen (o : Offer Peer Hash) : Prop := o.peer = peer ∧ o.isReady now ∧
    (∀ o' ∈ offers, o'.txhash = o.txhash → ¬ o'.isPending now) ∧
    ∀ o' ∈ offers, o'.txhash = o.txhash → o'.isReady now →
      o'.priority sipHash ≤ o.priority sipHash
  have hchosen : ∀ o, chosen (o.expire now) ↔ chosen o := by
    intro o
    simp only [chosen, expire_key.1, expire_key.2.1, expire_live.1, expire_priority]
  have hafter : requestable sipHash (documentedStep offers (.getRequestable peer' now)) peer now =
      ((documentedStep offers (.getRequestable peer' now)).filter
        (chosen ·)).map (·.txhash) := by
    rw [requestable]
    congr 1
    refine filter_congr fun o _ => decide_eq_decide.mpr ?_
    refine and_congr_right fun _ => and_congr_right fun _ => and_congr ?_ ?_
    · refine forall_getRequestable (fun o' => ?_) fun o' _ hpending _ => ?_
      · rw [expire_key.2.1, expire_live.2]
      · rw [hpending]
        exact Bool.false_ne_true
    · refine forall_getRequestable (fun o' => ?_) fun o' hready _ _ h => ?_
      · rw [expire_key.2.1, expire_live.1, expire_priority]
      · rw [hready] at h
        cases h
  have hkept : (documentedStep offers (.getRequestable peer' now)).filter
      (chosen ·) = (offers.map (·.expire now)).filter
        (chosen ·) := by
    rw [documentedStep, deleteCompleted, filter_filter]
    refine filter_congr fun o ho => ?_
    by_cases hc : chosen o
    · have hlive : ∃ o' ∈ offers.map (·.expire now), o'.txhash = o.txhash ∧
          o'.status ≠ .completed := ⟨o, ho, rfl, status_ne_completed (.inl hc.2.1)⟩
      rw [decide_eq_true hc, decide_eq_true hlive]
      rfl
    · rw [decide_eq_false hc, Bool.false_and]
  rw [hafter, hkept, filter_map, map_map]
  have hmap : ∀ o : Offer Peer Hash, ((·.txhash) ∘ (·.expire now)) o = o.txhash :=
    fun o => expire_key.2.1
  rw [map_congr_left fun o _ => hmap o]
  congr 1
  exact filter_congr fun o _ => decide_eq_decide.mpr (hchosen o)

/-! ## 5. The tracker beside the documented machine -/

section Answer

variable [OrderBot Hash]

/-- The selected candidates of a peer, sorted, are in the order of the announcements. -/
theorem selected_eq (hk : Keyed l) (hseq : Sequenced n l) (peer : Peer) :
    (range byPeer (toLex (peer, toLex (true, ⊥)))
      (fun ann => decide (ann.peer = peer ∧ ann.state = .candidateBest)) l).insertionSort
        (fun a b => a.sequence ≤ b.sequence) =
      l.filter fun ann => decide (ann.peer = peer ∧ ann.state = .candidateBest) := by
  have hmem : ∀ a, a ∈ range byPeer (toLex (peer, toLex (true, ⊥)))
      (fun ann => decide (ann.peer = peer ∧ ann.state = .candidateBest)) l ↔
      a ∈ l ∧ decide (a.peer = peer ∧ a.state = .candidateBest) = true := by
    intro a
    refine mem_range ?_ ?_
    · intro b _ hb
      obtain ⟨hpeer, hbest⟩ := of_decide_eq_true hb
      refine Prod.Lex.toLex_le_toLex'.mpr ⟨hpeer.ge, fun _ => ?_⟩
      refine Prod.Lex.toLex_le_toLex'.mpr ⟨?_, fun _ => bot_le⟩
      rw [decide_eq_true hbest]
    · intro b _ c _ hlower hle hb
      obtain ⟨hpeer, -⟩ := of_decide_eq_true hb
      obtain ⟨hge, hbound⟩ := Prod.Lex.toLex_le_toLex'.mp hlower
      have hcpeer : c.peer = peer := le_antisymm ((byPeer_le.mp hle).1.trans hpeer.le) hge
      have htrue := (Prod.Lex.toLex_le_toLex'.mp (hbound hcpeer.symm)).1
      exact decide_eq_true ⟨hcpeer, of_decide_eq_true (Bool.eq_true_of_true_le htrue)⟩
  have hperm : (range byPeer (toLex (peer, toLex (true, ⊥)))
      (fun ann => decide (ann.peer = peer ∧ ann.state = .candidateBest)) l).Perm
      (l.filter fun ann => decide (ann.peer = peer ∧ ann.state = .candidateBest)) := by
    refine (perm_ext_iff_of_nodup (nodup_range hk.nodup) (hk.nodup.filter _)).mpr fun a => ?_
    rw [hmem a, mem_filter]
  have hincreasing : l.Pairwise fun a b => a.sequence < b.sequence :=
    pairwise_map.mp hseq.increasing
  refine ((perm_insertionSort _ _).trans hperm).eq_of_pairwise ?_
    (pairwise_insertionSort _ _) ?_
  · intro a b ha hb hab hba
    have ha := mem_of_mem_filter (((perm_insertionSort _ _).trans hperm).mem_iff.mp ha)
    have hb := mem_of_mem_filter hb
    have hnodup : (l.map (·.sequence)).Nodup := hseq.increasing.imp fun h => ne_of_lt h
    exact inj_on_of_nodup_map hnodup ha hb (le_antisymm hab hba)
  · exact (hincreasing.imp fun h => le_of_lt h).filter _

/-- The priority of a new announcement is not that of another one of the transaction. -/
def Fresh (sipHash : Hash → Peer → UInt64) (offers : List (Offer Peer Hash)) : Op Peer Hash → Prop
  | .receivedInv peer txhash preferred _ => ∀ o ∈ offers, o.txhash = txhash → o.peer ≠ peer →
      o.priority sipHash ≠ computePriority sipHash txhash peer preferred
  | _ => True

instance (sipHash : Hash → Peer → UInt64) (offers : List (Offer Peer Hash)) (op : Op Peer Hash) :
    Decidable (Fresh sipHash offers op) :=
  match op with
  | .receivedInv _ _ _ _ => inferInstanceAs (Decidable (∀ o ∈ offers, _))
  | .disconnectedPeer _ | .forgetTxHash _ | .getRequestable _ _ | .requestedTx _ _ _
  | .receivedResponse _ _ => .isTrue trivial

omit [LinearOrder Peer] [LinearOrder Hash] [OrderBot Hash] in
theorem Distinct.of_mem {offers offers' : List (Offer Peer Hash)} (h : Distinct sipHash offers)
    (hmem : ∀ o ∈ offers', ∃ o' ∈ offers, o'.peer = o.peer ∧ o'.txhash = o.txhash ∧
      o'.preferred = o.preferred) : Distinct sipHash offers' := by
  intro o ho o' ho' htx hprio
  obtain ⟨p, hp, hpeer, hptx, hpref⟩ := hmem o ho
  obtain ⟨p', hp', hpeer', hptx', hpref'⟩ := hmem o' ho'
  rw [Offer.priority, Offer.priority, ← hpeer, ← hptx, ← hpref, ← hpeer', ← hptx', ← hpref'] at hprio
  rw [← hpeer, ← hpeer']
  exact h p hp p' hp' (hptx.trans (htx.trans hptx'.symm)) hprio

omit [OrderBot Hash] in
theorem Distinct.step {offers : List (Offer Peer Hash)} (h : Distinct sipHash offers)
    {op : Op Peer Hash} (hfresh : Fresh sipHash offers op) :
    Distinct sipHash (documentedStep offers op) := by
  cases op with
  | receivedInv peer txhash preferred reqtime =>
    rw [documentedStep]
    split
    · exact h
    · intro o ho o' ho' htx hprio
      rw [mem_append, mem_singleton] at ho ho'
      by_contra hpeer
      rcases ho with ho | rfl <;> rcases ho' with ho' | rfl
      · exact hpeer (h o ho o' ho' htx hprio)
      · exact hfresh o ho htx hpeer hprio
      · exact hfresh o' ho' htx.symm (Ne.symm hpeer) hprio.symm
      · exact hpeer rfl
  | disconnectedPeer peer =>
    refine h.of_mem fun o ho => ⟨o, ?_, rfl, rfl, rfl⟩
    exact mem_of_mem_filter (mem_of_mem_filter ho)
  | forgetTxHash txhash =>
    exact h.of_mem fun o ho => ⟨o, mem_of_mem_filter ho, rfl, rfl, rfl⟩
  | getRequestable peer now =>
    refine h.of_mem fun x hx => ?_
    obtain ⟨o, ho, rfl⟩ := mem_map.mp (mem_of_mem_filter hx)
    exact ⟨o, ho, expire_key.1.symm, expire_key.2.1.symm, expire_key.2.2.symm⟩
  | requestedTx peer txhash expiry =>
    rw [documentedStep]
    split
    · refine h.of_mem fun x hx => ?_
      obtain ⟨o, ho, rfl⟩ := mem_map.mp hx
      refine ⟨o, ho, ?_⟩
      rw [Offer.request]
      split
      · exact ⟨rfl, rfl, rfl⟩
      · split <;> exact ⟨rfl, rfl, rfl⟩
    · exact h
  | receivedResponse peer txhash =>
    refine h.of_mem fun x hx => ?_
    obtain ⟨o, ho, rfl⟩ := mem_map.mp (mem_of_mem_filter hx)
    refine ⟨o, ho, ?_⟩
    rw [Offer.respond]
    split <;> exact ⟨rfl, rfl, rfl⟩

/-- The announcements of the tracker after a call are the documented ones. -/
theorem map_offer_step {t t' : Tracker Peer Hash} (h : Tracked sipHash t) {op : Op Peer Hash}
    (hstep : step sipHash t op = some t') :
    t'.index.map (·.offer) = documentedStep (t.index.map (·.offer)) op := by
  obtain ⟨t₁, ht₁, -, heffect⟩ := h.step op
  obtain rfl : t₁ = t' := Option.some.inj (ht₁.symm.trans hstep)
  have hsettle : settle t₁.index = (op.effect t.currentSequence (settle t.index)).2 :=
    congrArg Prod.snd heffect
  rw [← map_offer_settle, hsettle, map_offer_effect, map_offer_settle]

omit [LinearOrder Peer] [LinearOrder Hash] [OrderBot Hash] in
theorem expiredOffers_map_offer : expiredOffers (l.map (·.offer)) now = expired now l := by
  rw [expiredOffers, filter_map, map_map]
  congr 1
  refine filter_congr fun a _ => ?_
  obtain ⟨txhash, time, peer, sequence, preferred, state⟩ := a
  cases state <;> simp [offer, Offer.isExpired, overdue]

theorem getRequestable_of {t : Tracker Peer Hash} (h : Tracked sipHash t)
    (hd : Distinct sipHash (t.index.map (·.offer))) (peer : Peer) (now : Int) :
    ∃ t' done, t.getRequestable sipHash peer now =
        some (t', requestable sipHash (t.index.map (·.offer)) peer now, done) ∧
      done.Perm (expiredOffers (t.index.map (·.offer)) now) := by
  obtain ⟨l', done, hrun, -, -, hdone⟩ := setTimePoint_of now h.sane
    (Nat.lt_succ_self _)
  rw [← eq_of_peerinfo h.peerinfo] at hrun
  have hanswer : t.getRequestable sipHash peer now = some (.of t.currentSequence l',
      ((range byPeer (toLex (peer, toLex (true, ⊥)))
        (fun ann => decide (ann.peer = peer ∧ ann.state = .candidateBest)) l').insertionSort
          fun a b => a.sequence ≤ b.sequence).map (·.txhash), done) := by
    rw [Tracker.getRequestable, hrun]
    rfl
  have hstep : step sipHash t (.getRequestable peer now) = some (.of t.currentSequence l') := by
    rw [step, hanswer]
    rfl
  obtain ⟨t₁, ht₁, htracked, -⟩ := h.step (.getRequestable peer now)
  cases ht₁.symm.trans hstep
  have hoffers := map_offer_step h hstep
  rw [index_of] at hoffers
  have hd' : Distinct sipHash (l'.map (·.offer)) := hoffers ▸ hd.step trivial
  have hpost := post_of_getRequestable h hstep
  have hbest := map_txhash_best htracked.sane hd'
    (fun a ha hdue => absurd ((hpost a ha).1 hdue.1) (not_lt.mpr hdue.2))
    (fun a ha hearly => absurd ((hpost a ha).2 hearly.1) (not_le.mpr hearly.2)) peer
  rw [index_of, hoffers, requestable_getRequestable] at hbest
  refine ⟨.of t.currentSequence l', done, ?_, by rwa [expiredOffers_map_offer]⟩
  have hsorted := selected_eq htracked.sane.keyed htracked.sequenced peer
  rw [index_of] at hsorted
  rw [hanswer, hsorted, hbest]

variable (sipHash) in
def sideBySide (s : Tracker Peer Hash × List (Offer Peer Hash)) (op : Op Peer Hash) :
    Option (Tracker Peer Hash × List (Offer Peer Hash)) :=
  (step sipHash s.1 op).map (·, documentedStep s.2 op)

theorem simulates_of_runs {s : Tracker Peer Hash × List (Offer Peer Hash)}
    (hr : Runs (sideBySide sipHash) (fun s op => Fresh sipHash s.2 op) (Tracker.init, []) s) :
    Tracked sipHash s.1 ∧ s.1.index.map (·.offer) = s.2 ∧ Distinct sipHash s.2 := by
  refine hr.invariant (fun s => Tracked sipHash s.1 ∧ s.1.index.map (·.offer) = s.2 ∧
    Distinct sipHash s.2) ?_ ⟨tracked_init, rfl, nofun⟩
  rintro s op s' ⟨htracked, hoffers, hd⟩ hfresh hstep
  obtain ⟨t', ht', rfl⟩ := Option.map_eq_some_iff.mp hstep
  obtain ⟨t₁, ht₁, htracked', -⟩ := htracked.step op
  cases ht₁.symm.trans ht'
  refine ⟨htracked', ?_, hd.step hfresh⟩
  rw [map_offer_step htracked ht', hoffers]

/-- After any calls at any times, `GetRequestable` of the tracker answers what the documented machine
answers after the same calls, and reports the requests that have expired for it. -/
theorem getRequestable_documented {s : Tracker Peer Hash × List (Offer Peer Hash)}
    (hr : Runs (sideBySide sipHash) (fun s op => Fresh sipHash s.2 op) (Tracker.init, []) s)
    (peer : Peer) (now : Int) :
    ∃ t' done, s.1.getRequestable sipHash peer now =
        some (t', requestable sipHash s.2 peer now, done) ∧
      done.Perm (expiredOffers s.2 now) := by
  obtain ⟨htracked, hoffers, hd⟩ := simulates_of_runs hr
  rw [← hoffers] at hd ⊢
  exact getRequestable_of htracked hd peer now

end Answer

/-- Of two peers the better one is asked, the other one is not. -/
theorem getRequestable_documented_two_peers :
    ∃ s, Runs (sideBySide examplePriority) (fun s op => Fresh examplePriority s.2 op)
        (Tracker.init, []) s ∧
      (∃ t' done, s.1.getRequestable examplePriority 2 25 = some (t', [7], done)) ∧
      ∃ t' done, s.1.getRequestable examplePriority 1 25 = some (t', [], done) := by
  have hsome : ((runGuarded (sideBySide examplePriority) (fun s op => Fresh examplePriority s.2 op)
      (Tracker.init, []) (exampleCalls.take 2)).any fun s =>
        decide (requestable examplePriority s.2 2 25 = [7] ∧
          requestable examplePriority s.2 1 25 = [])) = true := by
    decide +kernel
  obtain ⟨s, hr, hs⟩ := exists_runs_of_any hsome
  obtain ⟨h2, h1⟩ := of_decide_eq_true hs
  obtain ⟨t₂, done₂, hrun₂, -⟩ := getRequestable_documented hr 2 25
  obtain ⟨t₁, done₁, hrun₁, -⟩ := getRequestable_documented hr 1 25
  rw [h2] at hrun₂
  rw [h1] at hrun₁
  exact ⟨s, hr, ⟨t₂, done₂, hrun₂⟩, t₁, done₁, hrun₁⟩

end RgmNode.TxRequest
