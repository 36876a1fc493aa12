import Mathlib.Order.Nat
import RgmNode.Lib.Transition
import RgmNode.Net.Operations

/-!
# The tracker keeps its invariants

Every call succeeds in every state that calls lead to, and the consistency checks of the source hold
there.

* `sanityCheck_of_tracked` — the invariant gives every assertion of `SanityCheck`
-/

namespace RgmNode.TxRequest

open OrderedView Transition List Announcement

variable {Peer Hash : Type} {sipHash : Hash → Peer → UInt64} {n : Nat} {now : Int}
  {l l' : List (Announcement Peer Hash)} {it a b : Announcement Peer Hash} {peer : Peer}
  {txhash : Hash}

/-! ## 1. The assertions of `SanityCheck` -/

/-- The selected announcements are the selected candidates and the requests. -/
theorem countP_selected : l.countP (·.state = .candidateBest) +
    l.countP (·.state = .requested) =
      l.countP fun ann => decide ann.state.Selected := by
  induction l with
  | nil => rfl
  | cons a l ih =>
    simp only [countP_cons, ← ih]
    cases a.state <;> simp [State.Selected] <;> omega

theorem length_le_one (hl : l.Nodup) (h : ∀ a ∈ l, ∀ b ∈ l, a = b) : l.length ≤ 1 := by
  match l, hl, h with
  | [], _, _ => exact Nat.zero_le _
  | [a], _, _ => exact le_rfl
  | a :: b :: l, hl, h =>
    have hab := h a (by simp) b (by simp)
    exact absurd hl (by simp [hab])

/-- The priority found last is that of the only candidate that is selected. -/
theorem foldl_best (ha : a ∈ l) (hbest : a.state = .candidateBest)
    (honly : ∀ b ∈ l, b.state = .candidateBest → b = a) (init : Nat) :
    l.foldl (fun best ann => if ann.state = .candidateBest then ann.priority sipHash else best)
      init = a.priority sipHash := by
  induction l using List.reverseRecOn with
  | nil => cases ha
  | append_singleton l b ih =>
    rw [foldl_append, foldl_cons, foldl_nil]
    split
    · next hb => rw [honly b (by simp) hb]
    · next hb =>
      have hal : a ∈ l := by
        refine (mem_append.mp ha).resolve_right fun hab => hb ?_
        rw [← mem_singleton.mp hab, hbest]
      exact ih hal fun c hc => honly c (mem_append_left _ hc)

theorem foldl_ready_le {bound : Nat}
    (h : ∀ a ∈ l, a.state = .candidateReady → a.priority sipHash ≤ bound) {init : Nat}
    (hinit : init ≤ bound) :
    l.foldl (fun best ann => if ann.state = .candidateReady then
      max best (ann.priority sipHash) else best) init ≤ bound := by
  induction l generalizing init with
  | nil => exact hinit
  | cons a l ih =>
    rw [foldl_cons]
    refine ih (fun b hb => h b (mem_cons_of_mem _ hb)) ?_
    split
    · next ha => exact max_le hinit (h a mem_cons_self ha)
    · exact hinit

theorem checked_of_sane [DecidableEq Peer] [DecidableEq Hash] (h : Sane sipHash l) (ha : a ∈ l) :
    (computeTxHashInfo sipHash l a.txhash).Checked := by
  have hmem : ∀ b, b ∈ l.filter (·.txhash = a.txhash) ↔
      b ∈ l ∧ b.txhash = a.txhash := fun b => by rw [mem_filter, decide_eq_true_iff]
  have hnodup := h.keyed.nodup.filter (·.txhash = a.txhash)
  have hchoice := h.selection a.txhash
  have hselected : (l.filter (·.txhash = a.txhash)).countP
      (fun ann => decide ann.state.Selected) ≤ 1 := by
    rw [countP_eq_length_filter]
    refine length_le_one (hnodup.filter _) fun b hb c hc => ?_
    obtain ⟨hb, hbsel⟩ := mem_filter.mp hb
    obtain ⟨hc, hcsel⟩ := mem_filter.mp hc
    obtain ⟨hb, hbtx⟩ := (hmem b).mp hb
    obtain ⟨hc, hctx⟩ := (hmem c).mp hc
    exact (hchoice.selected hc hctx (of_decide_eq_true hcsel)).1 b hb hbtx (of_decide_eq_true hbsel)
  have hpos : ∀ {s : State} {b : Announcement Peer Hash}, b ∈ l → b.txhash = a.txhash →
      b.state = s → 0 < (l.filter (·.txhash = a.txhash)).countP
        (·.state = s) :=
    fun {s b} hb hbtx hstate => countP_pos_iff.mpr ⟨b, (hmem b).mpr ⟨hb, hbtx⟩,
      decide_eq_true hstate⟩
  refine ⟨?_, ?_, ?_, ?_, ?_⟩
  · obtain ⟨b, hb, hbtx, hstate⟩ := h.live ha
    simp only [computeTxHashInfo]
    cases hcase : b.state with
    | candidateDelayed | candidateReady | candidateBest | requested =>
      have := hpos hb hbtx hcase; omega
    | completed => exact absurd hcase hstate
  · simp only [computeTxHashInfo]
    rw [countP_selected]
    exact hselected
  · intro hready
    obtain ⟨b, hb, hbready⟩ := countP_pos_iff.mp hready
    obtain ⟨hb, hbtx⟩ := (hmem b).mp hb
    obtain ⟨s, hs, hstx, hsel⟩ := hchoice.of_ready hb hbtx (of_decide_eq_true hbready)
    simp only [computeTxHashInfo]
    rw [countP_selected]
    exact le_antisymm hselected
      (countP_pos_iff.mpr ⟨s, (hmem s).mpr ⟨hs, hstx⟩, decide_eq_true hsel⟩)
  · intro _ hbest
    obtain ⟨s, hs, hsbest⟩ := countP_pos_iff.mp hbest
    have hsbest := of_decide_eq_true hsbest
    obtain ⟨hsl, hstx⟩ := (hmem s).mp hs
    obtain ⟨only, best⟩ := hchoice.selected hsl hstx (.inl hsbest)
    simp only [computeTxHashInfo]
    rw [foldl_best hs hsbest fun b hb hbbest =>
      only b ((hmem b).mp hb).1 ((hmem b).mp hb).2 (.inl hbbest)]
    exact foldl_ready_le (fun b hb => best hsbest b ((hmem b).mp hb).1 ((hmem b).mp hb).2)
      (Nat.zero_le _)
  · refine (nodup_map_iff_inj_on hnodup).mpr fun b hb c hc hpeer => ?_
    obtain ⟨hb, hbtx⟩ := (hmem b).mp hb
    obtain ⟨hc, hctx⟩ := (hmem c).mp hc
    exact h.keyed.eq hb hc hpeer (hbtx.trans hctx.symm)

/-! ## 2. What a call does -/

theorem isCandidate_settled : a.settled.isCandidate ↔ a.isCandidate := by
  show a.state.settled ≠ .requested ∧ a.state.settled ≠ .completed ↔
    a.state ≠ .requested ∧ a.state ≠ .completed
  cases a.state <;> decide

theorem exists_settle {p : Announcement Peer Hash → Prop} (hp : ∀ a, p a.settled ↔ p a) :
    (∃ a ∈ settle l, p a) ↔ ∃ a ∈ l, p a := by
  constructor
  · rintro ⟨a', ha', h⟩
    obtain ⟨a, ha, rfl⟩ := mem_map.mp ha'
    exact ⟨a, ha, (hp a).mp h⟩
  · rintro ⟨a, ha, h⟩
    exact ⟨a.settled, mem_map_of_mem ha, (hp a).mpr h⟩

variable [LinearOrder Peer] [LinearOrder Hash]
  {f : Announcement Peer Hash → Announcement Peer Hash}

/-- What a call makes of the next sequence number and of the announcements, up to the selection. -/
def Op.effect (n : Nat) (l : List (Announcement Peer Hash)) :
    Op Peer Hash → Nat × List (Announcement Peer Hash)
  | .receivedInv peer txhash preferred reqtime =>
    if ∃ a ∈ l, a.peer = peer ∧ a.txhash = txhash then (n, l)
    else (n + 1, l ++ [⟨txhash, reqtime, peer, n, preferred, .candidateDelayed⟩])
  | .disconnectedPeer peer => (n, forgetFailed (l.filter (·.peer ≠ peer)))
  | .forgetTxHash txhash => (n, l.filter (·.txhash ≠ txhash))
  | .getRequestable _ now => (n, (forgetFailed (l.map (·.elapse now))).map (·.rewind now))
  | .requestedTx peer txhash expiry =>
    if ∃ a ∈ l, a.peer = peer ∧ a.txhash = txhash ∧ a.isCandidate then
      (n, l.map (·.request peer txhash expiry))
    else (n, l)
  | .receivedResponse peer txhash => (n, forgetFailed (l.map (·.respond peer txhash)))

theorem request_settled {expiry : Int} :
    a.settled.request peer txhash expiry = (a.request peer txhash expiry).settled := by
  by_cases hkey : a.peer = peer ∧ a.txhash = txhash
  · have hkey' : a.settled.peer = peer ∧ a.settled.txhash = txhash := hkey
    rw [request, if_pos hkey', request, if_pos hkey]
    rfl
  · have hkey' : ¬ (a.settled.peer = peer ∧ a.settled.txhash = txhash) := hkey
    rw [request, if_neg hkey', request, if_neg hkey]
    by_cases htx : a.txhash = txhash
    · have htx' : a.settled.txhash = txhash := htx
      have hstate : a.state.settled.unselected = a.state.unselected.settled := by
        cases a.state <;> rfl
      rw [if_pos htx', if_pos htx]
      simp only [settled, setState, hstate]
    · have htx' : ¬ a.settled.txhash = txhash := htx
      rw [if_neg htx', if_neg htx]

theorem respond_settled : a.settled.respond peer txhash = (a.respond peer txhash).settled := by
  by_cases h : a.peer = peer ∧ a.txhash = txhash
  · have h' : a.settled.peer = peer ∧ a.settled.txhash = txhash := h
    rw [respond, if_pos h', respond, if_pos h]
    rfl
  · have h' : ¬ (a.settled.peer = peer ∧ a.settled.txhash = txhash) := h
    rw [respond, if_neg h', respond, if_neg h]

/-- A call succeeds, keeps the invariant and has its effect. -/
theorem step_of [OrderBot Hash] (h : Sane sipHash l) (op : Op Peer Hash) :
    ∃ n' l', step sipHash (.of n l) op = some (.of n' l') ∧ Sane sipHash l' ∧
      (n', settle l') = op.effect n (settle l) := by
  cases op with
  | receivedInv peer txhash preferred reqtime =>
    have hexists : (∃ a ∈ settle l, a.peer = peer ∧ a.txhash = txhash) ↔
        ∃ a ∈ l, a.peer = peer ∧ a.txhash = txhash := exists_settle fun _ => Iff.rfl
    rw [step, receivedInv_of, Op.effect]
    by_cases hknown : ∃ a ∈ l, a.peer = peer ∧ a.txhash = txhash
    · exact ⟨n, l, by rw [if_pos hknown], h, by rw [if_pos (hexists.mpr hknown)]⟩
    · refine ⟨n + 1, _, by rw [if_neg hknown], h.append rfl hknown, ?_⟩
      rw [if_neg (mt hexists.mp hknown), settle, map_append]
      rfl
  | disconnectedPeer peer =>
    obtain ⟨l', hrun, hsane, hsettle⟩ := disconnectedPeer_of (n := n) h peer
    refine ⟨n, l', hrun, hsane, ?_⟩
    rw [hsettle, Op.effect, settle_filter fun _ => rfl]
  | forgetTxHash txhash =>
    refine ⟨n, _, forgetTxHash_of h txhash, h.forget txhash, ?_⟩
    rw [Op.effect, settle_filter fun _ => rfl]
  | getRequestable peer now =>
    obtain ⟨l', done, hrun, hsane, hsettle, -⟩ :=
      setTimePoint_of (n := n) now h (Nat.lt_succ_self l.length)
    refine ⟨n, l', ?_, hsane, by rw [hsettle, Op.effect]⟩
    rw [step, Tracker.getRequestable, index_of, hrun, Option.map_some, Option.map_some]
  | requestedTx peer txhash expiry =>
    have hexists : (∃ a ∈ settle l, a.peer = peer ∧ a.txhash = txhash ∧ a.isCandidate) ↔
        ∃ a ∈ l, a.peer = peer ∧ a.txhash = txhash ∧ a.isCandidate :=
      exists_settle fun a => and_congr_right fun _ => and_congr_right fun _ => isCandidate_settled
    rw [step, requestedTx_of h, Op.effect]
    by_cases hcandidate : ∃ a ∈ l, a.peer = peer ∧ a.txhash = txhash ∧ a.isCandidate
    · obtain ⟨it, hit, rfl, rfl, -⟩ := id hcandidate
      refine ⟨n, _, by rw [if_pos hcandidate], h.request hit expiry, ?_⟩
      rw [if_pos (hexists.mpr hcandidate), settle_map fun _ => request_settled]
    · exact ⟨n, l, by rw [if_neg hcandidate], h, by rw [if_neg (mt hexists.mp hcandidate)]⟩
  | receivedResponse peer txhash =>
    obtain ⟨l', hrun, hsane, hsettle⟩ := receivedResponse_of (n := n) h peer txhash
    refine ⟨n, l', hrun, hsane, ?_⟩
    rw [hsettle, Op.effect, settle_map fun _ => respond_settled]

/-! ## 3. All states that calls lead to -/

omit [LinearOrder Peer] [LinearOrder Hash] in
theorem elapse_sequence : (a.elapse now).sequence = a.sequence := by
  rw [elapse]
  split
  · split <;> rfl
  · rfl

omit [LinearOrder Peer] [LinearOrder Hash] in
theorem rewind_sequence : (a.rewind now).sequence = a.sequence := by
  rw [rewind]
  split <;> rfl

theorem request_sequence {expiry : Int} :
    (a.request peer txhash expiry).sequence = a.sequence := by
  rw [request]
  split
  · rfl
  · split <;> rfl

theorem respond_sequence : (a.respond peer txhash).sequence = a.sequence := by
  rw [respond]
  split <;> rfl

omit [LinearOrder Peer] [LinearOrder Hash] in
theorem map_sequence (hf : ∀ a, (f a).sequence = a.sequence) :
    (l.map f).map (·.sequence) = l.map (·.sequence) := by
  rw [map_map]
  exact map_congr_left fun a _ => hf a

/-- The announcements stand in the order of their sequence numbers. -/
structure Sequenced (n : Nat) (l : List (Announcement Peer Hash)) : Prop where
  increasing : (l.map (·.sequence)).Pairwise (· < ·)
  bounded : ∀ s ∈ l.map (·.sequence), s < n

omit [LinearOrder Peer] [LinearOrder Hash] in
theorem Sequenced.sublist (h : Sequenced n l)
    (hsub : (l'.map (·.sequence)).Sublist (l.map (·.sequence))) : Sequenced n l' :=
  ⟨h.increasing.sublist hsub, fun s hs => h.bounded s (hsub.subset hs)⟩

omit [LinearOrder Peer] in
theorem Sequenced.forgetFailed (h : Sequenced n l) : Sequenced n (forgetFailed l) :=
  h.sublist (filter_sublist.map _)

omit [LinearOrder Peer] [LinearOrder Hash] in
theorem Sequenced.map (h : Sequenced n l) (hf : ∀ a, (f a).sequence = a.sequence) :
    Sequenced n (l.map f) :=
  h.sublist (by rw [map_sequence hf])

theorem Sequenced.effect (h : Sequenced n l) (op : Op Peer Hash) :
    Sequenced (op.effect n l).1 (op.effect n l).2 := by
  cases op with
  | receivedInv peer txhash preferred reqtime =>
    rw [Op.effect]
    split
    · exact h
    · refine ⟨?_, ?_⟩
      · rw [map_append, pairwise_append]
        refine ⟨h.increasing, pairwise_singleton _ _, fun s hs s' hs' => ?_⟩
        rw [map_singleton, mem_singleton] at hs'
        rw [hs']
        exact h.bounded s hs
      · intro s hs
        rw [map_append, mem_append] at hs
        rcases hs with hs | hs
        · exact (h.bounded s hs).trans (Nat.lt_succ_self n)
        · rw [map_singleton, mem_singleton] at hs
          rw [hs]
          exact Nat.lt_succ_self n
  | disconnectedPeer peer => exact (h.sublist (filter_sublist.map _)).forgetFailed
  | forgetTxHash txhash => exact h.sublist (filter_sublist.map _)
  | getRequestable peer now =>
    exact ((h.map fun _ => elapse_sequence).forgetFailed).map fun _ => rewind_sequence
  | requestedTx peer txhash expiry =>
    rw [Op.effect]
    split
    · exact h.map fun _ => request_sequence
    · exact h
  | receivedResponse peer txhash => exact (h.map fun _ => respond_sequence).forgetFailed

omit [LinearOrder Peer] [LinearOrder Hash] in
theorem sequenced_settle : Sequenced n (settle l) ↔ Sequenced n l := by
  have hsame : (settle l).map (·.sequence) = l.map (·.sequence) := map_sequence fun _ => rfl
  exact ⟨fun h => h.sublist (by rw [hsame]), fun h => h.sublist (by rw [hsame])⟩

/-- What holds in every state that calls lead to. -/
structure Tracked (sipHash : Hash → Peer → UInt64) (t : Tracker Peer Hash) : Prop where
  peerinfo : t.peerinfo = recomputePeerInfo t.index
  sane : Sane sipHash t.index
  sequenced : Sequenced t.currentSequence t.index

variable {t t' : Tracker Peer Hash}

omit [LinearOrder Hash] in
theorem eq_of_peerinfo (h : t.peerinfo = recomputePeerInfo t.index) :
    t = .of t.currentSequence t.index := by
  cases t
  rw [Tracker.of, ← h]

omit [LinearOrder Hash] in
theorem tracked_init : Tracked sipHash (Tracker.init : Tracker Peer Hash) where
  peerinfo := rfl
  sane := ⟨nodup_nil, fun _ => .idle nofun nofun⟩
  sequenced := ⟨List.Pairwise.nil, nofun⟩

section Runs

variable [OrderBot Hash]

theorem Tracked.step (h : Tracked sipHash t) (op : Op Peer Hash) :
    ∃ t', TxRequest.step sipHash t op = some t' ∧ Tracked sipHash t' ∧
      (t'.currentSequence, settle t'.index) = op.effect t.currentSequence (settle t.index) := by
  obtain ⟨n', l', hrun, hsane, heffect⟩ := step_of h.sane op
  rw [← eq_of_peerinfo h.peerinfo] at hrun
  refine ⟨.of n' l', hrun, ⟨rfl, hsane, ?_⟩, heffect⟩
  have hseq := (sequenced_settle.mpr h.sequenced).effect op
  rw [← heffect] at hseq
  exact sequenced_settle.mp hseq

theorem tracked_of_runs {G : Tracker Peer Hash → Op Peer Hash → Prop}
    (hr : Runs (step sipHash) G Tracker.init t) : Tracked sipHash t := by
  refine hr.invariant (Tracked sipHash) (fun t op t' h _ hstep => ?_) tracked_init
  obtain ⟨t₁, ht₁, htracked, -⟩ := h.step op
  cases ht₁.symm.trans hstep
  exact htracked

omit [OrderBot Hash] in
theorem sanityCheck_of_tracked (h : Tracked sipHash t) : t.SanityCheck sipHash :=
  ⟨h.peerinfo, fun _ ha => checked_of_sane h.sane ha⟩

omit [LinearOrder Peer] [LinearOrder Hash] [OrderBot Hash] in
/-- After moving to a point in time nothing is due and nothing is early. -/
theorem not_due_rewind (h : ¬ a.due now) : ¬ (a.rewind now).due now := by
  rw [rewind]
  split
  · next hearly =>
    rintro ⟨-, htime⟩
    exact absurd htime (not_le.mpr hearly.2)
  · exact h

theorem post_of_getRequestable (h : Tracked sipHash t)
    (hstep : step sipHash t (.getRequestable peer now) = some t') :
    t'.PostGetRequestableSanityCheck now := by
  obtain ⟨t₁, ht₁, -, heffect⟩ := h.step (.getRequestable peer now)
  obtain rfl : t₁ = t' := Option.some.inj (ht₁.symm.trans hstep)
  have hsettle : settle t₁.index =
      (forgetFailed ((settle t.index).map (·.elapse now))).map (·.rewind now) :=
    congrArg Prod.snd heffect
  intro a ha
  have hsettled : a.settled ∈ settle t₁.index := mem_map_of_mem ha
  rw [hsettle] at hsettled
  obtain ⟨b, hb, hab⟩ := mem_map.mp hsettled
  obtain ⟨c, -, rfl⟩ := mem_map.mp (mem_of_mem_filter hb)
  have hdue : ¬ a.due now := by
    rw [← due_settled, ← hab]
    exact not_due_rewind not_due_elapse
  have hearly : ¬ a.early now := by
    rw [← early_settled, ← hab]
    exact not_early_rewind
  exact ⟨fun hwaiting => not_le.mp fun htime => hdue ⟨hwaiting, htime⟩,
    fun hselectable => not_lt.mp fun htime => hearly ⟨hselectable, htime⟩⟩

/-- After any calls, with any peers, transactions and times: the consistency check holds, every
further call succeeds without a failed assertion, the check after `GetRequestable` holds for the
time passed to it, and the loops of `SetTimePoint` end, with the same result whatever bound on their
rounds is above the number of announcements. -/
theorem tracker_invariants (hr : Runs (step sipHash) (fun _ _ => True) Tracker.init t) :
    t.SanityCheck sipHash ∧
    (∀ op, ∃ t', step sipHash t op = some t') ∧
    (∀ peer now t', step sipHash t (.getRequestable peer now) = some t' →
      t'.PostGetRequestableSanityCheck now) ∧
    ∀ now, ∃ r, ∀ fuel, t.index.length < fuel → t.setTimePoint sipHash fuel now = some r := by
  have h := tracked_of_runs hr
  refine ⟨sanityCheck_of_tracked h, fun op => ?_, fun peer now t' => post_of_getRequestable h,
    fun now => ?_⟩
  · obtain ⟨t', hstep, -⟩ := h.step op
    exact ⟨t', hstep⟩
  · obtain ⟨l', done, hrun, -⟩ := setTimePoint_of now h.sane
      (Nat.lt_succ_self _)
    rw [← eq_of_peerinfo h.peerinfo] at hrun
    exact ⟨_, fun fuel hfuel => setTimePoint_mono hfuel hrun⟩

end Runs

/-- Priorities for the examples: the higher peer is the better one. -/
def examplePriority (_ peer : Nat) : UInt64 := .ofNat (2 * peer)

/-- Two peers announce a transaction; it is requested from the better one, and the request expires. -/
def exampleCalls : List (Op Nat Nat) :=
  [.receivedInv 1 7 false 10, .receivedInv 2 7 false 20, .getRequestable 2 25,
    .requestedTx 2 7 30, .getRequestable 1 40]

/-- The other peer is selected then; the checks hold, also after the clock is set back. -/
theorem tracker_invariants_two_peers : ∃ t,
    Runs (step examplePriority) (fun _ _ => True) Tracker.init t ∧
      t.index.map (·.state) = [.candidateBest, .completed] ∧ t.SanityCheck examplePriority ∧
      ∃ t', step examplePriority t (.getRequestable 1 5) = some t' ∧
        t'.PostGetRequestableSanityCheck 5 := by
  have hsome : ((runList (step examplePriority) Tracker.init exampleCalls).any fun t =>
      decide (t.index.map (·.state) = [.candidateBest, .completed])) = true := by
    decide +kernel
  obtain ⟨t, hrun, hstate⟩ := (Option.any_eq_true _ _).mp hsome
  have hr : Runs (step examplePriority) (fun _ _ => True) Tracker.init t :=
    runs_of_runList (fun _ _ _ => trivial) hrun
  obtain ⟨hsanity, hcalls, hpost, -⟩ := tracker_invariants hr
  obtain ⟨t', hstep⟩ := hcalls (.getRequestable 1 5)
  exact ⟨t, hr, of_decide_eq_true hstate, hsanity, t', hstep, hpost 1 5 t' hstep⟩

end RgmNode.TxRequest
