import RgmNode.Net.TxRequest

/-!
# The selected announcement of a transaction

What the helpers of the tracker do to the announcements.  The statistics of the peers are a function
of the announcements (`Tracker.of`), so a tracker is its list of announcements; within one call the
announcements stay the same but for their states, so a helper is described by the states that it
assigns.

`Selection` is the invariant: of every transaction some announcement is not completed, at most one
is selected, and as soon as a candidate is ready one is selected that is at least as good.  A helper
may move the selection among the candidates that are ready; everything else that it changes is said
up to that (`State.settled`).

* `modify_of`, `erase_of`, `eraseAll_of` — the container keeps its statistics
* `promoteCandidateReady_of`, `changeAndReselect_of`, `makeCompleted_of` — each helper succeeds, keeps
  the invariant and changes the one announcement it is called for
-/

namespace RgmNode.TxRequest

open OrderedView List Announcement Tracker Function

variable {Peer Hash : Type} {sipHash : Hash → Peer → UInt64} {n : Nat}
  {l : List (Announcement Peer Hash)} {it a b : Announcement Peer Hash}

/-! ## 1. Announcements with assigned states -/

/-- No peer announced a transaction twice. -/
def Keyed (l : List (Announcement Peer Hash)) : Prop :=
  (l.map fun ann => (ann.peer, ann.txhash)).Nodup

theorem Keyed.nodup (hk : Keyed l) : l.Nodup := hk.of_map

theorem Keyed.eq (hk : Keyed l) (ha : a ∈ l) (hb : b ∈ l) (hpeer : a.peer = b.peer)
    (htx : a.txhash = b.txhash) : a = b :=
  inj_on_of_nodup_map hk ha hb (Prod.ext hpeer htx)

theorem Keyed.sublist {l' : List (Announcement Peer Hash)} (hk : Keyed l) (h : l'.Sublist l) :
    Keyed l' :=
  List.Nodup.sublist (h.map _) hk

theorem map_eq_self {f : Announcement Peer Hash → Announcement Peer Hash}
    (h : ∀ a ∈ l, f a = a) : l.map f = l :=
  (map_congr_left h).trans (map_id l)

def assign (σ : Announcement Peer Hash → State) (l : List (Announcement Peer Hash)) :
    List (Announcement Peer Hash) :=
  l.map fun ann => ann.setState (σ ann)

variable {σ : Announcement Peer Hash → State}

@[simp] theorem assign_state : assign state l = l := map_id l

theorem assign_congr {σ' : Announcement Peer Hash → State} (h : ∀ a ∈ l, σ a = σ' a) :
    assign σ l = assign σ' l :=
  map_congr_left fun a ha => by rw [h a ha]

theorem mem_assign : b ∈ assign σ l ↔ ∃ ann ∈ l, ann.setState (σ ann) = b := mem_map

theorem Keyed.assign (hk : Keyed l) : Keyed (assign σ l) := by
  rw [Keyed, TxRequest.assign, map_map]
  exact hk

theorem Keyed.eq_of_setState (hk : Keyed l) {s s' : State} (ha : a ∈ l) (hb : b ∈ l)
    (h : a.setState s = b.setState s') : a = b :=
  hk.eq ha hb (congrArg (·.peer) h) (congrArg (·.txhash) h)

/-! ## 2. The selection -/

def State.Selected (s : State) : Prop := s = .candidateBest ∨ s = .requested

instance (s : State) : Decidable s.Selected := inferInstanceAs (Decidable (_ ∨ _))

theorem State.Selected.rank {s : State} (h : s.Selected) : 1 < s.rank ∧ s.rank < 4 := by
  rcases h with rfl | rfl <;> decide

theorem State.rank_lt_four {s : State} : s.rank < 4 ↔ s ≠ .completed := by
  cases s <;> decide

theorem State.selected_of_rank {s : State} (h1 : 1 < s.rank) (h4 : s.rank < 4) : s.Selected := by
  cases s <;> revert h1 h4 <;> decide

/-- What the states `σ` say about the announcements of one transaction.  Either one announcement is
selected, and if it is a candidate then none that is ready is better, or none is selected, none is
ready and, if there are any, one is delayed. -/
inductive Choice (sipHash : Hash → Peer → UInt64) (l : List (Announcement Peer Hash))
    (σ : Announcement Peer Hash → State) (txhash : Hash) : Prop where
  | chosen (s : Announcement Peer Hash) (mem : s ∈ l) (htx : s.txhash = txhash)
    (selected : (σ s).Selected)
    (only : ∀ a ∈ l, a.txhash = txhash → (σ a).Selected → a = s)
    (best : σ s = .candidateBest → ∀ a ∈ l, a.txhash = txhash → σ a = .candidateReady →
      a.priority sipHash ≤ s.priority sipHash)
  | idle (idle : ∀ a ∈ l, a.txhash = txhash → σ a = .candidateDelayed ∨ σ a = .completed)
    (live : ∀ a ∈ l, a.txhash = txhash → ∃ b ∈ l, b.txhash = txhash ∧ σ b = .candidateDelayed)

/-- Every transaction has its choice. -/
def Selection (sipHash : Hash → Peer → UInt64) (l : List (Announcement Peer Hash))
    (σ : Announcement Peer Hash → State) : Prop :=
  ∀ txhash, Choice sipHash l σ txhash

variable {σ' : Announcement Peer Hash → State} {txhash : Hash}

/-- The choice moves to another list: only completed announcements may be missing there, and only
delayed ones may be new. -/
theorem Choice.transfer {l' : List (Announcement Peer Hash)}
    {f : Announcement Peer Hash → Announcement Peer Hash} (h : Choice sipHash l σ txhash)
    (hf : ∀ a ∈ l, (f a).txhash = a.txhash ∧ (f a).priority sipHash = a.priority sipHash)
    (hkeep : ∀ a ∈ l, a.txhash = txhash → σ a ≠ .completed → f a ∈ l' ∧ σ' (f a) = σ a)
    (hback : ∀ b ∈ l', b.txhash = txhash →
      σ' b = .candidateDelayed ∨ ∃ a ∈ l, f a = b ∧ σ' b = σ a) :
    Choice sipHash l' σ' txhash := by
  cases h with
  | chosen s mem htx selected only best =>
    obtain ⟨hmem, hs⟩ := hkeep s mem htx (State.rank_lt_four.mp selected.rank.2)
    refine .chosen (f s) hmem ((hf s mem).1.trans htx) (hs ▸ selected) ?_ ?_
    · intro b hb hbtx hsel
      rcases hback b hb hbtx with hdelayed | ⟨a, ha, rfl, hstate⟩
      · rw [hdelayed] at hsel
        exact absurd hsel (by decide)
      · rw [only a ha ((hf a ha).1.symm.trans hbtx) (hstate ▸ hsel)]
    · intro hbest b hb hbtx hready
      rcases hback b hb hbtx with hdelayed | ⟨a, ha, rfl, hstate⟩
      · rw [hready] at hdelayed
        cases hdelayed
      · rw [(hf a ha).2, (hf s mem).2]
        exact best (hs ▸ hbest) a ha ((hf a ha).1.symm.trans hbtx) (hstate ▸ hready)
  | idle idle live =>
    refine .idle (fun b hb hbtx => ?_) fun b hb hbtx => ?_
    · rcases hback b hb hbtx with hdelayed | ⟨a, ha, rfl, hstate⟩
      · exact .inl hdelayed
      · rw [hstate]
        exact idle a ha ((hf a ha).1.symm.trans hbtx)
    · rcases hback b hb hbtx with hdelayed | ⟨a, ha, rfl, -⟩
      · exact ⟨b, hb, hbtx, hdelayed⟩
      · obtain ⟨c, hc, hctx, hdelayed⟩ := live a ha ((hf a ha).1.symm.trans hbtx)
        obtain ⟨hmem, hstate⟩ := hkeep c hc hctx (by rw [hdelayed]; decide)
        exact ⟨f c, hmem, (hf c hc).1.trans hctx, hstate.trans hdelayed⟩

theorem Choice.congr (h : Choice sipHash l σ txhash)
    (heq : ∀ a ∈ l, a.txhash = txhash → σ' a = σ a) : Choice sipHash l σ' txhash :=
  h.transfer (fun _ _ => ⟨rfl, rfl⟩) (fun a ha htx _ => ⟨ha, heq a ha htx⟩)
    fun a ha htx => .inr ⟨a, ha, rfl, heq a ha htx⟩

/-- One announcement is the choice if no other is selected, and none that is ready is better. -/
theorem Choice.of_others (hc : c ∈ l) (htx : c.txhash = txhash) (hsel : (σ c).Selected)
    (hothers : ∀ a ∈ l, a ≠ c → a.txhash = txhash → ¬ (σ a).Selected ∧
      (σ a = .candidateReady → σ c = .candidateBest → a.priority sipHash ≤ c.priority sipHash)) :
    Choice sipHash l σ txhash := by
  refine .chosen c hc htx hsel (fun a ha hatx hasel => ?_) fun hbest a ha hatx hready => ?_
  · by_contra hac
    exact (hothers a ha hac hatx).1 hasel
  · by_cases hac : a = c
    · rw [hac]
    · exact (hothers a ha hac hatx).2 hready hbest

section

variable (h : Choice sipHash l σ txhash) (ha : a ∈ l) (htx : a.txhash = txhash)

include h ha htx

/-- If one announcement is selected, it is the choice. -/
theorem Choice.selected (hsel : (σ a).Selected) :
    (∀ b ∈ l, b.txhash = txhash → (σ b).Selected → b = a) ∧
      (σ a = .candidateBest → ∀ b ∈ l, b.txhash = txhash → σ b = .candidateReady →
        b.priority sipHash ≤ a.priority sipHash) := by
  cases h with
  | chosen s _ _ _ only best =>
    obtain rfl := only a ha htx hsel
    exact ⟨only, best⟩
  | idle idle _ =>
    rcases hsel with hsel | hsel <;> rcases idle a ha htx with h | h <;> rw [hsel] at h <;> cases h

/-- If one candidate is ready, some announcement is the choice. -/
theorem Choice.of_ready (hready : σ a = .candidateReady) :
    ∃ s ∈ l, s.txhash = txhash ∧ (σ s).Selected := by
  cases h with
  | chosen s mem htx selected _ _ => exact ⟨s, mem, htx, selected⟩
  | idle idle _ => rcases idle a ha htx with h | h <;> rw [hready] at h <;> cases h

/-- Not all announcements of a transaction are completed. -/
theorem Choice.live : ∃ b ∈ l, b.txhash = txhash ∧ σ b ≠ .completed := by
  cases h with
  | chosen s mem htx selected _ _ =>
    refine ⟨s, mem, htx, ?_⟩
    rcases selected with h | h <;> rw [h] <;> decide
  | idle _ live =>
    obtain ⟨b, hb, hbtx, hdelayed⟩ := live a ha htx
    exact ⟨b, hb, hbtx, by rw [hdelayed]; decide⟩

end

/-- A change within one transaction leaves the choices of the others. -/
theorem Selection.change (h : Selection sipHash l σ) (txhash : Hash)
    (hchoice : Choice sipHash l σ' txhash) (hother : ∀ a ∈ l, a.txhash ≠ txhash → σ' a = σ a) :
    Selection sipHash l σ' := by
  intro txhash'
  by_cases heq : txhash' = txhash
  · rwa [heq]
  · refine (h txhash').congr fun a ha hatx => hother a ha ?_
    rwa [hatx]

/-- The choice in terms of the announcements with their new states. -/
theorem Choice.map {f : Announcement Peer Hash → Announcement Peer Hash}
    (h : Choice sipHash l σ txhash)
    (hf : ∀ a ∈ l, (f a).txhash = a.txhash ∧ (f a).peer = a.peer ∧ (f a).preferred = a.preferred ∧
      (f a).state = σ a) :
    Choice sipHash (l.map f) state txhash := by
  have hpriority : ∀ a ∈ l, (f a).priority sipHash = a.priority sipHash := by
    intro a ha
    obtain ⟨htx, hpeer, hpreferred, -⟩ := hf a ha
    rw [priority, priority, htx, hpeer, hpreferred]
  refine h.transfer (fun a ha => ⟨(hf a ha).1, hpriority a ha⟩)
    (fun a ha _ _ => ⟨mem_map_of_mem ha, (hf a ha).2.2.2⟩) fun b hb _ => ?_
  obtain ⟨a, ha, rfl⟩ := mem_map.mp hb
  exact .inr ⟨a, ha, rfl, (hf a ha).2.2.2⟩

/-! ## 3. The order of the announcements of a transaction -/

section Order

variable [LinearOrder Hash]

theorem byTxHash_le : a.byTxHash sipHash ≤ b.byTxHash sipHash ↔
    a.txhash ≤ b.txhash ∧ (a.txhash = b.txhash → a.state.rank ≤ b.state.rank ∧
      (a.state.rank = b.state.rank →
        (if a.state = .candidateReady then a.priority sipHash else 0) ≤
          if b.state = .candidateReady then b.priority sipHash else 0)) := by
  rw [byTxHash, byTxHash, Prod.Lex.toLex_le_toLex', Prod.Lex.toLex_le_toLex']

section

variable (h : a.byTxHash sipHash ≤ b.byTxHash sipHash)

include h

theorem txhash_le : a.txhash ≤ b.txhash :=
  (byTxHash_le.mp h).1

theorem rank_le (htx : a.txhash = b.txhash) : a.state.rank ≤ b.state.rank :=
  ((byTxHash_le.mp h).2 htx).1

theorem priority_le (htx : a.txhash = b.txhash) (ha : a.state = .candidateReady)
    (hb : b.state = .candidateReady) : a.priority sipHash ≤ b.priority sipHash := by
  have hle := ((byTxHash_le.mp h).2 htx).2 (by rw [ha, hb])
  rwa [if_pos ha, if_pos hb] at hle

end

theorem txhash_eq_of_between {c : Announcement Peer Hash}
    (hab : a.byTxHash sipHash ≤ b.byTxHash sipHash) (hbc : b.byTxHash sipHash ≤ c.byTxHash sipHash)
    (htx : a.txhash = c.txhash) : b.txhash = a.txhash :=
  le_antisymm ((txhash_le hbc).trans htx.ge) (txhash_le hab)

end Order

/-! ## 4. The container keeps its statistics -/

variable [LinearOrder Peer] [LinearOrder Hash]

def Tracker.of (n : Nat) (l : List (Announcement Peer Hash)) : Tracker Peer Hash :=
  ⟨n, l, recomputePeerInfo l⟩

omit [LinearOrder Hash] in
@[simp] theorem index_of : (of n l).index = l := rfl

/-- Change one announcement and leave the others. -/
def exchange (it b : Announcement Peer Hash) (l : List (Announcement Peer Hash)) :
    List (Announcement Peer Hash) :=
  l.map fun ann => if ann = it then b else ann

theorem perm_cons_filter (hl : l.Nodup) (hit : it ∈ l) :
    l.Perm (it :: l.filter (· ≠ it)) := by
  have h := perm_cons_erase hit
  rw [hl.erase_eq_filter it] at h
  refine h.trans (.of_eq (congrArg _ (filter_congr fun ann _ => ?_)))
  by_cases hann : ann = it <;> simp [hann]

theorem exchange_perm (hl : l.Nodup) (hit : it ∈ l) :
    (exchange it b l).Perm (b :: l.filter (· ≠ it)) := by
  have h := (perm_cons_filter hl hit).map fun ann => if ann = it then b else ann
  rw [map_cons, if_pos rfl] at h
  refine h.trans (.of_eq (congrArg _ (map_eq_self fun ann hann => if_neg ?_)))
  simpa using of_mem_filter hann

theorem map_exchange {f : Announcement Peer Hash → Announcement Peer Hash}
    (hf : f (f it) = f it) : (exchange it (f it) l).map f = l.map f := by
  rw [exchange, map_map]
  refine map_congr_left fun a _ => ?_
  by_cases ha : a = it
  · rw [comp_apply, if_pos ha, hf, ha]
  · rw [comp_apply, if_neg ha]

omit [LinearOrder Hash] in
theorem recomputePeerInfo_perm {l' : List (Announcement Peer Hash)} (h : l.Perm l') :
    recomputePeerInfo l = recomputePeerInfo l' := by
  funext peer
  simp only [recomputePeerInfo, h.countP_eq]

omit [LinearOrder Hash] in
theorem recomputePeerInfo_cons (peer : Peer) :
    recomputePeerInfo (a :: l) peer =
      if a.peer = peer then
        let info := (recomputePeerInfo l peer).getD ⟨0, 0, 0⟩
        some ⟨info.total + 1, info.completed + (decide (a.state = .completed)).toNat,
          info.requested + (decide (a.state = .requested)).toNat⟩
      else recomputePeerInfo l peer := by
  simp only [recomputePeerInfo, countP_cons]
  by_cases hpeer : a.peer = peer
  · by_cases hnone : l.countP (·.peer = peer) = 0
    · have habsent : ∀ ann ∈ l, ¬ ann.peer = peer := by simpa using hnone
      have hsub : ∀ state : State,
          l.countP (fun ann => decide (ann.peer = peer ∧ ann.state = state)) = 0 := fun state =>
        countP_eq_zero.mpr fun ann hann hboth =>
          habsent ann hann (of_decide_eq_true hboth).1
      rw [hsub, hsub, hnone]
      simp [hpeer, Bool.toNat, Bool.cond_decide]
    · simp [hpeer, hnone, Bool.toNat, Bool.cond_decide]
  · simp [hpeer]

theorem modify_of (hk : Keyed l) (hit : it ∈ l)
    {modifier : Announcement Peer Hash → Announcement Peer Hash}
    (hpeer : (modifier it).peer = it.peer) (htx : (modifier it).txhash = it.txhash) :
    (of n l).modify it modifier = some (.of n (exchange it (modifier it) l)) := by
  have hunique : ∀ ann ∈ l, ann ≠ it → ann.byPeer ≠ (modifier it).byPeer := by
    intro ann hann hne heq
    simp only [byPeer, EmbeddingLike.apply_eq_iff_eq, Prod.mk.injEq] at heq
    exact hne (hk.eq hann hit (heq.1.trans hpeer) (heq.2.2.trans htx))
  have hinfo := recomputePeerInfo_perm (perm_cons_filter hk.nodup hit)
  have hinfo' := recomputePeerInfo_perm (exchange_perm (b := modifier it) hk.nodup hit)
  rw [Tracker.modify, if_pos ⟨hit, hunique⟩]
  simp only [of, hinfo, hinfo', recomputePeerInfo_cons, if_pos, Option.map_some,
    Option.some.injEq, Tracker.mk.injEq, true_and]
  refine ⟨rfl, ?_⟩
  funext peer
  by_cases hp : peer = it.peer
  · subst hp
    simp [recomputePeerInfo_cons, hpeer]
  · have hne : ¬ it.peer = peer := fun h => hp h.symm
    simp [recomputePeerInfo_cons, hpeer, hp, hne]

/-- `Erase` takes the announcement out and changes nothing else. -/
theorem erase_of (hl : l.Nodup) (hit : it ∈ l) :
    (of n l).erase it = some (.of n (l.filter (· ≠ it))) := by
  have hinfo := recomputePeerInfo_perm (perm_cons_filter hl hit)
  have hindex : it ∈ (of n l).index := hit
  rw [erase, if_pos hindex]
  simp only [of, hinfo, recomputePeerInfo_cons, if_pos, Option.map_some,
    Option.some.injEq, Tracker.mk.injEq, true_and]
  funext peer
  by_cases hp : peer = it.peer
  · subst hp
    cases hrest : recomputePeerInfo (l.filter (· ≠ it)) it.peer with
    | none => simp
    | some info =>
      have htotal : info.total ≠ 0 := by
        simp only [recomputePeerInfo] at hrest
        split at hrest
        · cases hrest
        · next hne => cases hrest; exact hne
      simp [htotal]
  · have hne : ¬ it.peer = peer := fun h => hp h.symm
    simp [recomputePeerInfo_cons, hp, hne]

theorem eraseAll_of {its : List (Announcement Peer Hash)} (hl : l.Nodup) (hits : its.Nodup)
    (hsub : ∀ it ∈ its, it ∈ l) :
    (of n l).eraseAll its = some (.of n (l.filter (· ∉ its))) := by
  induction its generalizing l with
  | nil => simp [eraseAll]
  | cons it its ih =>
    rw [nodup_cons] at hits
    rw [forall_mem_cons] at hsub
    have hsub' : ∀ ann ∈ its, ann ∈ l.filter (· ≠ it) := by
      intro ann hann
      refine mem_filter.mpr ⟨hsub.2 ann hann, decide_eq_true ?_⟩
      rintro rfl
      exact hits.1 hann
    have hrest := ih (hl.filter _) hits.2 hsub'
    rw [eraseAll] at hrest ⊢
    rw [foldlM_cons, erase_of hl hsub.1, Option.bind_eq_bind, Option.bind_some, hrest,
      filter_filter]
    congr 3
    funext ann
    simp [Bool.and_comm]

theorem modify_assign (hk : Keyed l) (hit : it ∈ l) {s : State} (hs : σ it = s) (s' : State) :
    (of n (assign σ l)).modify (it.setState s) (·.setState s') =
      some (.of n (assign (update σ it s') l)) := by
  subst hs
  rw [modify_of hk.assign (mem_assign.mpr ⟨it, hit, rfl⟩) rfl rfl]
  congr 2
  rw [exchange, assign, map_map]
  refine map_congr_left fun ann hann => ?_
  by_cases hne : ann = it
  · subst hne
    simp [setState]
  · have hne' : ¬ ann.setState (σ ann) = it.setState (σ it) :=
      fun h => hne (hk.eq_of_setState hann hit h)
    simp only [comp_apply, if_neg hne', update_of_ne hne]

theorem modify_state (hk : Keyed l) (hit : it ∈ l) (s : State) :
    (of n l).modify it (·.setState s) =
      some (.of n (assign (update state it s) l)) := by
  have h := modify_assign (n := n) (σ := state) hk hit rfl s
  rwa [assign_state] at h

end RgmNode.TxRequest
