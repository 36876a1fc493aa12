import RgmNode.Net.Requestable

/-!
# Requests are not duplicated

A session is the tracker with what a caller knows: the last answer of `GetRequestable`, as long as
only `ForgetTxHash` and `RequestedTx` calls followed it, and the requests that are outstanding.  A
`RequestedTx` call makes a request if there is a candidate announcement; without one it is documented
to have no effect.  A request stays outstanding until the peer responds or disconnects, the
transaction is forgotten, or a call of `GetRequestable` passes its expiry.

In a disciplined session `RequestedTx` is called only for what the last answer named.
-/

namespace RgmNode.TxRequest

open OrderedView Transition List Offer Option

variable {Peer Hash : Type} {sipHash : Hash → Peer → UInt64} {now : Int} {peer : Peer}
  {txhash : Hash} [LinearOrder Peer] [LinearOrder Hash]

/-! ## 1. Announcements that were requested are remembered -/

section Taken

variable {offers : List (Offer Peer Hash)} {o : Offer Peer Hash}

def Taken (peer : Peer) (txhash : Hash) (offers : List (Offer Peer Hash)) : Prop :=
  ∃ o ∈ offers, o.peer = peer ∧ o.txhash = txhash ∧ o.isCandidate = false

def Dropped (txhash : Hash) (offers : List (Offer Peer Hash)) : Prop :=
  ∀ o ∈ offers, o.txhash ≠ txhash

omit [LinearOrder Peer] in
theorem mem_deleteCompleted (ho : o ∈ offers) :
    o ∈ deleteCompleted offers ∨ Dropped o.txhash (deleteCompleted offers) := by
  by_cases hlive : ∃ o' ∈ offers, o'.txhash = o.txhash ∧ o'.status ≠ .completed
  · exact .inl (mem_filter.mpr ⟨ho, decide_eq_true hlive⟩)
  · refine .inr fun o' ho' htx => hlive ?_
    rw [← htx]
    exact of_decide_eq_true (mem_filter.mp ho').2

omit [LinearOrder Peer] in
theorem mem_deleteCompleted_of_status (ho : o ∈ offers) (hstatus : o.status ≠ .completed) :
    o ∈ deleteCompleted offers :=
  mem_filter.mpr ⟨ho, decide_eq_true ⟨o, ho, rfl, hstatus⟩⟩

omit [LinearOrder Peer] in
theorem taken_deleteCompleted (h : Taken peer txhash offers) :
    Taken peer txhash (deleteCompleted offers) ∨ Dropped txhash (deleteCompleted offers) := by
  obtain ⟨o, ho, hpeer, rfl, hcandidate⟩ := h
  exact (mem_deleteCompleted ho).imp_left fun hmem => ⟨o, hmem, hpeer, rfl, hcandidate⟩

omit [LinearOrder Peer] [LinearOrder Hash] in
theorem taken_map {f : Offer Peer Hash → Offer Peer Hash} (h : Taken peer txhash offers)
    (hf : ∀ o, (f o).peer = o.peer ∧ (f o).txhash = o.txhash ∧
      (o.isCandidate = false → (f o).isCandidate = false)) :
    Taken peer txhash (offers.map f) := by
  obtain ⟨o, ho, hpeer, htx, hcandidate⟩ := h
  obtain ⟨hfpeer, hftx, hfcandidate⟩ := hf o
  exact ⟨f o, mem_map_of_mem ho, hfpeer.trans hpeer, hftx.trans htx, hfcandidate hcandidate⟩

theorem request_key {expiry : Int} : (o.request peer txhash expiry).peer = o.peer ∧
    (o.request peer txhash expiry).txhash = o.txhash := by
  rw [request]
  split
  · exact ⟨rfl, rfl⟩
  · split <;> exact ⟨rfl, rfl⟩

/-- A call leaves an announcement that was requested, drops its transaction or is the end of its
peer. -/
theorem taken_step (h : Taken peer txhash offers) (op : Op Peer Hash) :
    Taken peer txhash (documentedStep offers op) ∨ Dropped txhash (documentedStep offers op) ∨
      op = .disconnectedPeer peer := by
  cases op with
  | receivedInv peer' txhash' preferred reqtime =>
    rw [documentedStep]
    split
    · exact .inl h
    · obtain ⟨o, ho, hrest⟩ := h
      exact .inl ⟨o, mem_append_left _ ho, hrest⟩
  | disconnectedPeer peer' =>
    by_cases hpeer : peer' = peer
    · exact .inr (.inr (by rw [hpeer]))
    · obtain ⟨o, ho, hopeer, hrest⟩ := h
      have hkept : Taken peer txhash (offers.filter (·.peer ≠ peer')) := by
        refine ⟨o, mem_filter.mpr ⟨ho, decide_eq_true ?_⟩, hopeer, hrest⟩
        rw [hopeer]
        exact Ne.symm hpeer
      exact (taken_deleteCompleted hkept).imp_right .inl
  | forgetTxHash txhash' =>
    by_cases htx : txhash' = txhash
    · refine .inr (.inl fun o ho => ?_)
      rw [← htx]
      simpa using of_mem_filter ho
    · obtain ⟨o, ho, hopeer, hotx, hrest⟩ := h
      refine .inl ⟨o, mem_filter.mpr ⟨ho, decide_eq_true ?_⟩, hopeer, hotx, hrest⟩
      rw [hotx]
      exact Ne.symm htx
  | getRequestable peer' now =>
    refine (taken_deleteCompleted (taken_map h fun o => ?_)).imp_right .inl
    refine ⟨expire_key.1, expire_key.2.1, fun hcandidate => ?_⟩
    rw [expire]
    split
    · rfl
    · exact hcandidate
  | requestedTx peer' txhash' expiry =>
    rw [documentedStep]
    split
    · refine .inl (taken_map h fun o => ⟨request_key.1, request_key.2, fun hcandidate => ?_⟩)
      rw [request]
      split
      · rfl
      · split
        · rfl
        · exact hcandidate
    · exact .inl h
  | receivedResponse peer' txhash' =>
    refine (taken_deleteCompleted (taken_map h fun o => ?_)).imp_right .inl
    rw [respond]
    split
    · exact ⟨rfl, rfl, fun _ => rfl⟩
    · exact ⟨rfl, rfl, id⟩

end Taken

/-! ## 2. Sessions -/

structure Request (Peer Hash : Type) where
  peer : Peer
  txhash : Hash
  expiry : Int
deriving DecidableEq, Repr

/-- What a request survives: a response of the peer, its end, `ForgetTxHash` and its expiry end it. -/
def Request.Survives (q : Request Peer Hash) : Op Peer Hash → Prop
  | .getRequestable _ now => now < q.expiry
  | .forgetTxHash txhash => q.txhash ≠ txhash
  | .disconnectedPeer peer => q.peer ≠ peer
  | .receivedResponse peer txhash => ¬ (q.peer = peer ∧ q.txhash = txhash)
  | .receivedInv _ _ _ _ | .requestedTx _ _ _ => True

instance (q : Request Peer Hash) (op : Op Peer Hash) : Decidable (q.Survives op) :=
  match op with
  | .getRequestable _ now => inferInstanceAs (Decidable (now < q.expiry))
  | .forgetTxHash txhash => inferInstanceAs (Decidable (q.txhash ≠ txhash))
  | .disconnectedPeer peer => inferInstanceAs (Decidable (q.peer ≠ peer))
  | .receivedResponse peer txhash =>
    inferInstanceAs (Decidable (¬ (q.peer = peer ∧ q.txhash = txhash)))
  | .receivedInv _ _ _ _ | .requestedTx _ _ _ => .isTrue trivial

def Tracker.HasCandidate (t : Tracker Peer Hash) (peer : Peer) (txhash : Hash) : Prop :=
  ∃ a ∈ t.index, a.peer = peer ∧ a.txhash = txhash ∧ a.isCandidate

instance (t : Tracker Peer Hash) : Decidable (t.HasCandidate peer txhash) :=
  inferInstanceAs (Decidable (∃ a ∈ t.index, _))

def Tracker.requests (t : Tracker Peer Hash) : Op Peer Hash → List (Request Peer Hash)
  | .requestedTx peer txhash expiry =>
    if t.HasCandidate peer txhash then [⟨peer, txhash, expiry⟩] else []
  | _ => []

/-- The tracker with the last answer and the outstanding requests. -/
structure Session (Peer Hash : Type) where
  tracker : Tracker Peer Hash
  answer : Option (Peer × List Hash)
  outstanding : List (Request Peer Hash)

namespace Session

def init : Session Peer Hash := ⟨.init, none, []⟩

variable [OrderBot Hash] (sipHash)

/-- The answer that a caller may still act on after a call. -/
def answerAfter (s : Session Peer Hash) : Op Peer Hash → Option (Peer × List Hash)
  | .getRequestable peer now =>
    (s.tracker.getRequestable sipHash peer now).map fun r => (peer, r.2.1)
  | .requestedTx _ _ _ | .forgetTxHash _ => s.answer
  | .receivedInv _ _ _ _ | .disconnectedPeer _ | .receivedResponse _ _ => none

def step (s : Session Peer Hash) (op : Op Peer Hash) : Option (Session Peer Hash) :=
  (TxRequest.step sipHash s.tracker op).map fun t =>
    ⟨t, s.answerAfter sipHash op,
      s.outstanding.filter (·.Survives op) ++ s.tracker.requests op⟩

end Session

/-- `RequestedTx` is called only for what the last answer named. -/
def Disciplined (s : Session Peer Hash) : Op Peer Hash → Prop
  | .requestedTx peer txhash _ => ∃ r ∈ s.answer, r.1 = peer ∧ txhash ∈ r.2
  | _ => True

instance (s : Session Peer Hash) (op : Op Peer Hash) : Decidable (Disciplined s op) :=
  match op with
  | .requestedTx peer txhash _ =>
    inferInstanceAs (Decidable (∃ r ∈ s.answer, r.1 = peer ∧ txhash ∈ r.2))
  | .receivedInv _ _ _ _ | .disconnectedPeer _ | .forgetTxHash _ | .getRequestable _ _
  | .receivedResponse _ _ => .isTrue trivial

/-! ## 3. The outstanding requests are those of the tracker -/

section Outstanding

variable {offers : List (Offer Peer Hash)} {q : Request Peer Hash} {op : Op Peer Hash}

def Marked (q : Request Peer Hash) (offers : List (Offer Peer Hash)) : Prop :=
  ∃ o ∈ offers, o.peer = q.peer ∧ o.txhash = q.txhash ∧ o.status = .requested q.expiry

/-- The transaction is requested from no other peer, and the announcement of the peer has not failed
while there are any. -/
structure Free (peer : Peer) (txhash : Hash) (offers : List (Offer Peer Hash)) : Prop where
  only : ∀ o ∈ offers, o.txhash = txhash → ∀ expiry, o.status = .requested expiry → o.peer = peer
  live : (∃ o ∈ offers, o.peer = peer ∧ o.txhash = txhash ∧ o.status ≠ .completed) ∨
    Dropped txhash offers

/-- A request that survives a call stays marked, unless another one is made for its transaction. -/
theorem marked_step (h : Marked q offers) (hs : q.Survives op)
    (hother : ∀ peer txhash expiry, op = .requestedTx peer txhash expiry →
      (∃ o ∈ offers, o.peer = peer ∧ o.txhash = txhash ∧ o.isCandidate) → q.txhash ≠ txhash) :
    Marked q (documentedStep offers op) := by
  obtain ⟨o, ho, hpeer, htx, hstatus⟩ := h
  have hlive : o.status ≠ .completed := by
    rw [hstatus]
    exact nofun
  suffices hkept : o ∈ documentedStep offers op from ⟨o, hkept, hpeer, htx, hstatus⟩
  cases op with
  | receivedInv peer txhash preferred reqtime =>
    rw [documentedStep]
    split
    · exact ho
    · exact mem_append_left _ ho
  | disconnectedPeer peer =>
    have hkept : o ∈ offers.filter (·.peer ≠ peer) :=
      mem_filter.mpr ⟨ho, decide_eq_true (hpeer ▸ hs)⟩
    exact mem_deleteCompleted_of_status hkept hlive
  | forgetTxHash txhash =>
    exact mem_filter.mpr ⟨ho, decide_eq_true (htx ▸ hs)⟩
  | getRequestable peer now =>
    have hexpired : o.isExpired now = false := by
      rw [isExpired, hstatus]
      exact decide_eq_false (not_le.mpr hs)
    have hsame : o.expire now = o := by
      rw [expire, hexpired]
      rfl
    have hkept : o ∈ offers.map (·.expire now) := mem_map.mpr ⟨o, ho, hsame⟩
    exact mem_deleteCompleted_of_status hkept hlive
  | requestedTx peer txhash expiry =>
    rw [documentedStep]
    split
    · next hcandidate =>
      have hne := hother peer txhash expiry rfl hcandidate
      rw [← htx] at hne
      have hsame : o.request peer txhash expiry = o := by
        rw [request, if_neg fun hkey => hne hkey.2, if_neg fun hkey => hne hkey.1]
      exact mem_map.mpr ⟨o, ho, hsame⟩
    · exact ho
  | receivedResponse peer txhash =>
    have hsame : o.respond peer txhash = o := by
      rw [respond, if_neg fun hkey => hs ⟨hpeer ▸ hkey.1, htx ▸ hkey.2⟩]
    have hkept : o ∈ offers.map (·.respond peer txhash) := mem_map.mpr ⟨o, ho, hsame⟩
    exact mem_deleteCompleted_of_status hkept hlive

/-- A transaction that is free for a peer stays so while others are forgotten or requested from the
peer. -/
theorem free_step (h : Free peer txhash offers)
    (hop : (∃ txhash', op = .forgetTxHash txhash') ∨
      ∃ txhash' expiry, op = .requestedTx peer txhash' expiry) :
    Free peer txhash (documentedStep offers op) := by
  rcases hop with ⟨txhash', rfl⟩ | ⟨txhash', expiry, rfl⟩
  · refine ⟨fun o ho => h.only o (mem_of_mem_filter ho), ?_⟩
    by_cases htx : txhash = txhash'
    · refine .inr fun o ho => ?_
      rw [htx]
      simpa using of_mem_filter ho
    · refine h.live.imp ?_ fun hdropped o ho => hdropped o (mem_of_mem_filter ho)
      rintro ⟨o, ho, hpeer, hotx, hstatus⟩
      exact ⟨o, mem_filter.mpr ⟨ho, decide_eq_true (hotx ▸ htx)⟩, hpeer, hotx, hstatus⟩
  · rw [documentedStep]
    split
    · refine ⟨fun x hx => ?_, h.live.imp ?_ fun hdropped x hx => ?_⟩
      · obtain ⟨o, ho, rfl⟩ := mem_map.mp hx
        rw [request]
        split
        · next hkey => exact fun _ _ _ => hkey.1
        · split
          · exact fun _ _ hstatus => by cases hstatus
          · exact h.only o ho
      · rintro ⟨o, ho, hpeer, hotx, hstatus⟩
        refine ⟨o.request peer txhash' expiry, mem_map_of_mem ho, ?_⟩
        rw [request]
        split
        · exact ⟨hpeer, hotx, fun hdone => by cases hdone⟩
        · next hkey =>
          rw [if_neg fun hother => hkey ⟨hpeer, hother.1⟩]
          exact ⟨hpeer, hotx, hstatus⟩
      · obtain ⟨o, ho, rfl⟩ := mem_map.mp hx
        rw [request_key.2]
        exact hdropped o ho
    · exact h

end Outstanding

/-- What the answer of `GetRequestable` names is a selected candidate. -/
theorem best_of_answer [OrderBot Hash] {t t' : Tracker Peer Hash} {txhashes : List Hash}
    {done : List (Peer × Hash)}
    (hrun : t.getRequestable sipHash peer now = some (t', txhashes, done)) (h : txhash ∈ txhashes) :
    ∃ a ∈ t'.index, a.peer = peer ∧ a.txhash = txhash ∧ a.state = .candidateBest := by
  obtain ⟨r, -, hr⟩ := map_eq_some_iff.mp hrun
  obtain ⟨ht', hrest⟩ := Prod.mk.inj hr
  obtain ⟨hanswer, -⟩ := Prod.mk.inj hrest
  rw [← hanswer] at h
  rw [← ht']
  obtain ⟨a, ha, rfl⟩ := mem_map.mp h
  obtain ⟨hmem, hbest⟩ := of_mem_range ((mem_insertionSort _).mp ha)
  obtain ⟨hpeer, hbest⟩ := of_decide_eq_true hbest
  exact ⟨a, hmem, hpeer, rfl, hbest⟩

omit [LinearOrder Peer] [LinearOrder Hash] in
theorem state_of_offer_status {a : Announcement Peer Hash} {expiry : Int}
    (h : a.offer.status = .requested expiry) : a.state = .requested := by
  cases hstate : a.state <;> simp [Announcement.offer, hstate] at h ⊢

omit [LinearOrder Peer] [LinearOrder Hash] in
/-- A transaction with a selected candidate is free for its peer. -/
theorem free_of_best {l : List (Announcement Peer Hash)} {a : Announcement Peer Hash}
    (h : Sane sipHash l) (ha : a ∈ l) (hbest : a.state = .candidateBest) :
    Free a.peer a.txhash (l.map (·.offer)) := by
  refine ⟨fun o ho htx expiry hstatus => ?_, .inl ⟨a.offer, mem_map_of_mem ha, rfl, rfl, ?_⟩⟩
  · obtain ⟨b, hb, rfl⟩ := mem_map.mp ho
    have hreq := state_of_offer_status hstatus
    rw [((h.selection a.txhash).selected ha rfl (.inl hbest)).1 b hb htx (.inr hreq), hbest] at hreq
    cases hreq
  · rw [offer_status_ne_completed, hbest]
    exact nofun

/-! ## 4. Runs of a disciplined session -/

section Runs

variable {s s' : Session Peer Hash} {op : Op Peer Hash}

/-- What holds in every state of a disciplined session. -/
structure Coherent (sipHash : Hash → Peer → UInt64) (s : Session Peer Hash) : Prop where
  tracked : Tracked sipHash s.tracker
  marked : ∀ q ∈ s.outstanding, Marked q (s.tracker.index.map (·.offer))
  once : (s.outstanding.map (·.txhash)).Nodup
  free : ∀ r ∈ s.answer, ∀ txhash ∈ r.2, Free r.1 txhash (s.tracker.index.map (·.offer))

variable {t : Tracker Peer Hash}

omit [LinearOrder Peer] [LinearOrder Hash] in
theorem hasCandidate_iff : t.HasCandidate peer txhash ↔
    ∃ o ∈ t.index.map (·.offer), o.peer = peer ∧ o.txhash = txhash ∧ o.isCandidate = true :=
  (exists_offer fun _ => and_congr_right fun _ => and_congr_right fun _ => offer_isCandidate).symm

omit [LinearOrder Hash] in
theorem not_taken_of_candidate (h : Tracked sipHash t) (hcandidate : t.HasCandidate peer txhash) :
    ¬ Taken peer txhash (t.index.map (·.offer)) := by
  rintro ⟨o, ho, hpeer, htx, htaken⟩
  obtain ⟨b, hb, rfl⟩ := mem_map.mp ho
  obtain ⟨a, ha, hapeer, hatx, hacand⟩ := hcandidate
  obtain rfl := h.sane.keyed.eq ha hb (hapeer.trans hpeer.symm) (hatx.trans htx.symm)
  rw [offer_isCandidate.mpr hacand] at htaken
  cases htaken

omit [LinearOrder Hash] in
/-- A request that is made is the only one for its transaction. -/
theorem Coherent.ne_of_candidate (h : Coherent sipHash s)
    (hfree : Free peer txhash (s.tracker.index.map (·.offer)))
    (hcandidate : s.tracker.HasCandidate peer txhash) :
    ∀ q ∈ s.outstanding, q.txhash ≠ txhash := by
  intro q hq htx
  obtain ⟨o, ho, -, hotx, hstatus⟩ := h.marked q hq
  refine not_taken_of_candidate h.tracked hcandidate
    ⟨o, ho, hfree.only o ho (hotx.trans htx) _ hstatus, hotx.trans htx, ?_⟩
  rw [isCandidate, hstatus]

omit [LinearOrder Hash] in
theorem Coherent.ne_of_disciplined (h : Coherent sipHash s) {expiry : Int}
    (hd : Disciplined s (.requestedTx peer txhash expiry))
    (hcandidate : s.tracker.HasCandidate peer txhash) :
    ∀ q ∈ s.outstanding, q.txhash ≠ txhash := by
  obtain ⟨r, hr, rfl, htx⟩ := hd
  exact h.ne_of_candidate (h.free r hr _ htx) hcandidate

variable [OrderBot Hash]

theorem Session.step_eq_some (h : Tracked sipHash s.tracker) (hstep : s.step sipHash op = some s') :
    ∃ t, TxRequest.step sipHash s.tracker op = some t ∧ Tracked sipHash t ∧
      t.index.map (·.offer) = documentedStep (s.tracker.index.map (·.offer)) op ∧
      s' = ⟨t, s.answerAfter sipHash op,
        s.outstanding.filter (·.Survives op) ++ s.tracker.requests op⟩ := by
  obtain ⟨t, ht, rfl⟩ := map_eq_some_iff.mp hstep
  obtain ⟨t₁, ht₁, htracked, -⟩ := h.step op
  obtain rfl : t₁ = t := some.inj (ht₁.symm.trans ht)
  exact ⟨t₁, ht, htracked, map_offer_step h ht, rfl⟩

omit [OrderBot Hash] in
theorem mem_requests {q : Request Peer Hash} (h : q ∈ t.requests op) :
    op = .requestedTx q.peer q.txhash q.expiry ∧ t.HasCandidate q.peer q.txhash := by
  cases op with
  | requestedTx peer txhash expiry =>
    rw [Tracker.requests] at h
    split at h
    · next hcandidate =>
      obtain rfl := mem_singleton.mp h
      exact ⟨rfl, hcandidate⟩
    · cases h
  | receivedInv _ _ _ _ | disconnectedPeer _ | forgetTxHash _ | getRequestable _ _
  | receivedResponse _ _ => cases h

omit [OrderBot Hash] in
theorem nodup_requests : ((t.requests op).map (·.txhash)).Nodup := by
  cases op with
  | requestedTx peer txhash expiry =>
    rw [Tracker.requests]
    split
    · exact nodup_singleton _
    · exact nodup_nil
  | receivedInv _ _ _ _ | disconnectedPeer _ | forgetTxHash _ | getRequestable _ _
  | receivedResponse _ _ => exact nodup_nil

omit [OrderBot Hash] in
theorem marked_requestedTx (h : t.HasCandidate peer txhash) (expiry : Int) :
    Marked ⟨peer, txhash, expiry⟩
      (documentedStep (t.index.map (·.offer)) (.requestedTx peer txhash expiry)) := by
  have hcandidate := hasCandidate_iff.mp h
  obtain ⟨o, ho, hpeer, htx, -⟩ := id hcandidate
  rw [documentedStep, if_pos hcandidate]
  refine ⟨o.request peer txhash expiry, mem_map_of_mem ho, ?_⟩
  rw [request, if_pos ⟨hpeer, htx⟩]
  exact ⟨hpeer, htx, rfl⟩

theorem Coherent.step (h : Coherent sipHash s) (hd : Disciplined s op)
    (hstep : s.step sipHash op = some s') : Coherent sipHash s' := by
  obtain ⟨t, ht, htracked, hoffers, rfl⟩ := Session.step_eq_some h.tracked hstep
  refine ⟨htracked, fun q hq => ?_, ?_, ?_⟩
  · rw [hoffers]
    rcases mem_append.mp hq with hq | hq
    · obtain ⟨hqold, hsurvives⟩ := mem_filter.mp hq
      refine marked_step (h.marked q hqold) (of_decide_eq_true hsurvives) ?_
      rintro peer txhash expiry rfl hcandidate
      exact h.ne_of_disciplined hd (hasCandidate_iff.mpr hcandidate) q hqold
    · obtain ⟨rfl, hcandidate⟩ := mem_requests hq
      exact marked_requestedTx hcandidate _
  · rw [map_append]
    refine (h.once.sublist (filter_sublist.map _)).append nodup_requests ?_
    intro txhash hold hnew
    obtain ⟨q, hq, hqtx⟩ := mem_map.mp hold
    obtain ⟨q', hq', rfl⟩ := mem_map.mp hnew
    obtain ⟨rfl, hcandidate⟩ := mem_requests hq'
    exact h.ne_of_disciplined hd hcandidate q (mem_of_mem_filter hq) hqtx
  · rw [hoffers]
    cases op with
    | getRequestable peer now =>
      rintro r hr txhash htx
      obtain ⟨⟨t', txhashes, done⟩, hrun, rfl⟩ := map_eq_some_iff.mp hr
      obtain rfl : t' = t := by
        rw [TxRequest.step, hrun] at ht
        exact some.inj ht
      obtain ⟨a, ha, rfl, rfl, hbest⟩ := best_of_answer hrun htx
      rw [← hoffers]
      exact free_of_best htracked.sane ha hbest
    | requestedTx peer txhash' expiry =>
      intro r hr txhash htx
      obtain ⟨r', hr', rfl, -⟩ := hd
      obtain rfl := mem_unique hr' hr
      exact free_step (h.free r' hr txhash htx) (.inr ⟨txhash', expiry, rfl⟩)
    | forgetTxHash txhash' =>
      exact fun r hr txhash htx => free_step (h.free r hr txhash htx) (.inl ⟨txhash', rfl⟩)
    | receivedInv _ _ _ _ | disconnectedPeer _ | receivedResponse _ _ =>
      intro r hr
      cases hr

theorem coherent_of_runs (hr : Runs (Session.step sipHash) Disciplined Session.init s) :
    Coherent sipHash s :=
  hr.invariant (Coherent sipHash) (fun _ _ _ h hd hstep => h.step hd hstep)
    ⟨tracked_init, nofun, nodup_nil, nofun⟩

/-- Between two requests to a peer for one transaction the peer disconnected or the transaction was
dropped. -/
theorem ended_of_requested_again {s₁ s₂ : Session Peer Hash}
    (h : Tracked sipHash s₁.tracker) (htaken : Taken peer txhash (s₁.tracker.index.map (·.offer)))
    (hr : Runs (Session.step sipHash) Disciplined s₁ s₂)
    (hagain : s₂.tracker.HasCandidate peer txhash) :
    ∃ u op v, Runs (Session.step sipHash) Disciplined s₁ u ∧ Disciplined u op ∧
      u.step sipHash op = some v ∧
      (op = .disconnectedPeer peer ∨ Dropped txhash (v.tracker.index.map (·.offer))) ∧
      Runs (Session.step sipHash) Disciplined v s₂ := by
  refine (hr.kept_or_ended
    (fun s => Tracked sipHash s.tracker ∧ Taken peer txhash (s.tracker.index.map (·.offer)))
    (fun op v => op = .disconnectedPeer peer ∨ Dropped txhash (v.tracker.index.map (·.offer)))
    ?_ ⟨h, htaken⟩).resolve_left ?_
  · rintro t op u ⟨htracked, htaken⟩ - hstep
    obtain ⟨t', -, htracked', hoffers, rfl⟩ := Session.step_eq_some htracked hstep
    rw [hoffers]
    rcases taken_step htaken op with hkept | hdropped | hgone
    · exact .inl ⟨htracked', hkept⟩
    · exact .inr (.inr hdropped)
    · exact .inr (.inl hgone)
  · exact fun hkept => not_taken_of_candidate hkept.1 hagain hkept.2

end Runs

end RgmNode.TxRequest
