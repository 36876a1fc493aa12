import RgmNode.Net.Clock

/-!
# The operations of the tracker

Every call succeeds on announcements that satisfy the invariant, keeps it, and has a closed form up
to the selection.

* `forgetTxHash_of`, `receivedInv_of`, `requestedTx_of` — what these calls make of the announcements
-/

namespace RgmNode.TxRequest

open OrderedView List Tracker Function

variable {Peer Hash : Type} {sipHash : Hash → Peer → UInt64} {n : Nat} {now : Int}
  {l l' : List (Announcement Peer Hash)} {it a b : Announcement Peer Hash} {peer : Peer}
  {txhash : Hash}

/-! ## 1. `ForgetTxHash` -/

variable [LinearOrder Peer] [LinearOrder Hash]

omit [LinearOrder Peer] in
theorem bound_le_byTxHash {s : State} :
    (toLex (txhash, toLex (s.rank, 0)) : Hash ×ₗ Nat ×ₗ Nat) ≤ a.byTxHash sipHash ↔
      txhash ≤ a.txhash ∧ (txhash = a.txhash → s.rank ≤ a.state.rank) := by
  rw [Announcement.byTxHash, Prod.Lex.toLex_le_toLex', Prod.Lex.toLex_le_toLex']
  simp

theorem forgetTxHash_of (h : Sane sipHash l) (txhash : Hash) :
    (of n l).forgetTxHash sipHash txhash =
      some (.of n (l.filter (·.txhash ≠ txhash))) := by
  have hmem : ∀ a, a ∈ range (·.byTxHash sipHash)
      (toLex (txhash, toLex (State.candidateDelayed.rank, 0)))
      (·.txhash = txhash) l ↔ a ∈ l ∧ a.txhash = txhash := by
    intro a
    rw [OrderedView.mem_range, decide_eq_true_iff]
    · intro b _ hb
      rw [decide_eq_true_iff] at hb
      exact bound_le_byTxHash.mpr ⟨hb.ge, fun _ => Nat.zero_le _⟩
    · intro b _ c _ hlower hle hb
      rw [decide_eq_true_iff] at hb ⊢
      exact le_antisymm ((txhash_le hle).trans hb.le) (bound_le_byTxHash.mp hlower).1
  rw [forgetTxHash, index_of, eraseAll_of h.keyed.nodup (nodup_range h.keyed.nodup)
    fun a ha => ((hmem a).mp ha).1]
  congr 2
  refine filter_congr fun a ha => decide_eq_decide.mpr (not_congr ?_)
  rw [hmem a]
  exact ⟨And.right, fun htx => ⟨ha, htx⟩⟩

/-! ## 2. `ReceivedInv` -/

theorem find_eq_some {best : Bool} (h : (of n l).find peer best txhash = some a) :
    a ∈ l ∧ a.peer = peer ∧ a.txhash = txhash ∧ decide (a.state = .candidateBest) = best := by
  have hkey := find?_some h
  simp only [Announcement.byPeer, EmbeddingLike.apply_eq_iff_eq, Prod.mk.injEq,
    decide_eq_true_eq] at hkey
  exact ⟨mem_of_find?_eq_some h, hkey.1, hkey.2.2, hkey.2.1⟩

theorem find_eq_none {best : Bool} (h : (of n l).find peer best txhash = none) (ha : a ∈ l)
    (hpeer : a.peer = peer) (htx : a.txhash = txhash) :
    decide (a.state = .candidateBest) ≠ best := by
  intro hbest
  have hkey := find?_eq_none.mp h a ha
  simp only [Announcement.byPeer, hpeer, htx, hbest, decide_true, not_true] at hkey

theorem absent_of_find (hbest : (of n l).find peer true txhash = none)
    (hother : (of n l).find peer false txhash = none) :
    ¬ ∃ a ∈ l, a.peer = peer ∧ a.txhash = txhash := by
  rintro ⟨a, ha, hpeer, htx⟩
  have hnot := find_eq_none hbest ha hpeer htx
  exact find_eq_none hother ha hpeer htx (eq_false_of_ne_true hnot)

theorem receivedInv_of (preferred : Bool) (reqtime : Int) :
    (of n l).receivedInv peer txhash preferred reqtime =
      if ∃ a ∈ l, a.peer = peer ∧ a.txhash = txhash then .of n l
      else .of (n + 1) (l ++ [⟨txhash, reqtime, peer, n, preferred, .candidateDelayed⟩]) := by
  rw [receivedInv]
  split
  · next hfind =>
    obtain ⟨a, ha⟩ := Option.isSome_iff_exists.mp hfind
    obtain ⟨hmem, hpeer, htx, -⟩ := find_eq_some ha
    rw [if_pos ⟨a, hmem, hpeer, htx⟩]
  · next hbest =>
    split
    · next hfind =>
      obtain ⟨a, ha⟩ := Option.isSome_iff_exists.mp hfind
      obtain ⟨hmem, hpeer, htx, -⟩ := find_eq_some ha
      rw [if_pos ⟨a, hmem, hpeer, htx⟩]
    · next hother =>
      rw [Option.not_isSome_iff_eq_none] at hbest hother
      rw [if_neg (absent_of_find hbest hother), of, of, mk.injEq]
      refine ⟨rfl, rfl, ?_⟩
      rw [recomputePeerInfo_perm perm_append_comm]
      funext p
      rw [singleton_append, recomputePeerInfo_cons]
      by_cases hp : p = peer
      · subst hp
        simp
      · simp [hp, Ne.symm hp]

omit [LinearOrder Peer] [LinearOrder Hash] in
/-- A new delayed candidate leaves the selection. -/
theorem Sane.append (h : Sane sipHash l) {ann : Announcement Peer Hash}
    (hstate : ann.state = .candidateDelayed)
    (hnew : ¬ ∃ a ∈ l, a.peer = ann.peer ∧ a.txhash = ann.txhash) : Sane sipHash (l ++ [ann]) where
  keyed := by
    rw [Keyed, map_append, nodup_append]
    refine ⟨h.keyed, nodup_singleton _, ?_⟩
    intro key hkey key' hkey' heq
    obtain ⟨a, ha, rfl⟩ := mem_map.mp hkey
    rw [map_singleton, mem_singleton] at hkey'
    rw [hkey', Prod.mk.injEq] at heq
    exact hnew ⟨a, ha, heq⟩
  selection txhash := by
    refine (h.selection txhash).transfer (fun _ _ => ⟨rfl, rfl⟩)
      (fun a ha _ _ => ⟨mem_append_left _ ha, rfl⟩) fun a ha _ => ?_
    rcases mem_append.mp ha with ha | ha
    · exact .inr ⟨a, ha, rfl, rfl⟩
    · exact .inl (mem_singleton.mp ha ▸ hstate)

/-! ## 3. `RequestedTx` -/

/-- A candidate loses the selection, a request is given up. -/
def State.unselected : State → State
  | .candidateBest => .candidateReady
  | .requested => .completed
  | s => s

theorem State.unselected_of_not_selected {s : State} (h : ¬ s.Selected) : s.unselected = s := by
  revert h
  cases s <;> decide

theorem State.not_selected_unselected {s : State} : ¬ s.unselected.Selected := by
  cases s <;> decide

/-- Not requested yet, or again. -/
def Announcement.isCandidate (ann : Announcement Peer Hash) : Prop :=
  ann.state ≠ .requested ∧ ann.state ≠ .completed

instance : Decidable a.isCandidate := inferInstanceAs (Decidable (_ ∧ _))

/-- What a request for a transaction from a peer makes of an announcement. -/
def Announcement.request (peer : Peer) (txhash : Hash) (expiry : Int)
    (ann : Announcement Peer Hash) : Announcement Peer Hash :=
  if ann.peer = peer ∧ ann.txhash = txhash then { ann with state := .requested, time := expiry }
  else if ann.txhash = txhash then ann.setState ann.state.unselected
  else ann

/-- The selected announcement of a transaction is found at the bound. -/
theorem unselect_of (h : Sane sipHash l) (txhash : Hash) :
    (of n l).unselect sipHash txhash = some (.of n (assign (fun ann =>
      if ann.txhash = txhash then ann.state.unselected else ann.state) l)) := by
  -- if none is selected, nothing changes
  have hnone (hsel : ∀ a ∈ l, a.txhash = txhash → ¬ a.state.Selected) :
      some (of n l) = some (.of n (assign (fun ann =>
        if ann.txhash = txhash then ann.state.unselected else ann.state) l)) := by
    conv_lhs => rw [← assign_state (l := l)]
    refine congrArg (some ∘ of n) (assign_congr fun a ha => ?_)
    split
    · next htx => exact (State.unselected_of_not_selected (hsel a ha htx)).symm
    · rfl
  -- if one is selected, it is the only one
  have hone (c : Announcement Peer Hash) (hc : c ∈ l) (htx : c.txhash = txhash)
      (hsel : c.state.Selected) :
      (of n l).modify c (·.setState c.state.unselected) = some (.of n (assign (fun ann =>
        if ann.txhash = txhash then ann.state.unselected else ann.state) l)) := by
    rw [modify_state h.keyed hc]
    refine congrArg (some ∘ of n) (assign_congr fun a ha => ?_)
    by_cases hac : a = c
    · rw [hac, update_self, if_pos htx]
    · rw [update_of_ne hac]
      split
      · next hatx =>
        refine (State.unselected_of_not_selected fun hasel => hac ?_).symm
        exact ((h.selection txhash).selected hc htx hsel).1 a ha hatx hasel
      · rfl
  have hbound : ∀ a ∈ l, a.txhash = txhash → a.state.Selected →
      (toLex (txhash, toLex (State.candidateBest.rank, 0)) : Hash ×ₗ Nat ×ₗ Nat) ≤
        a.byTxHash sipHash :=
    fun a _ hatx hsel => bound_le_byTxHash.mpr ⟨hatx.ge, fun _ => hsel.rank.1⟩
  rw [unselect, index_of]
  cases hlower : lowerBound (·.byTxHash sipHash)
      (toLex (txhash, toLex (State.candidateBest.rank, 0))) l with
  | none =>
    refine hnone fun a ha hatx hsel => ?_
    exact absurd (hbound a ha hatx hsel) (not_le.mpr (lowerBound_eq_none hlower ha))
  | some c =>
    obtain ⟨hc, hle, hleast⟩ := lowerBound_eq_some hlower
    obtain ⟨htx, hrank⟩ := bound_le_byTxHash.mp hle
    by_cases hctx : c.txhash = txhash
    · have hfilter : Option.filter (·.txhash = txhash) (some c) = some c := by
        simp [hctx]
      have hrank := hrank hctx.symm
      simp only [hfilter]
      cases hstate : c.state with
      | candidateDelayed => rw [hstate] at hrank; cases hrank
      | candidateReady => rw [hstate] at hrank; exact absurd hrank (by decide)
      | candidateBest =>
        have hmodify := hone c hc hctx (.inl hstate)
        rw [hstate] at hmodify
        exact hmodify
      | requested =>
        have hmodify := hone c hc hctx (.inr hstate)
        rw [hstate] at hmodify
        exact hmodify
      | completed =>
        refine hnone fun a ha hatx hsel => ?_
        have hle := rank_le (hleast a ha (hbound a ha hatx hsel)) (hctx.trans hatx.symm)
        rw [hstate] at hle
        exact absurd hsel.rank.2 (not_lt.mpr hle)
    · have hfilter : Option.filter (·.txhash = txhash) (some c) = none := by
        simp [hctx]
      rw [hfilter]
      refine hnone fun a ha hatx hsel => hctx ?_
      exact le_antisymm ((txhash_le (hleast a ha (hbound a ha hatx hsel))).trans hatx.le) htx

theorem request_other (htx : a.txhash ≠ txhash) (expiry : Int) :
    a.request peer txhash expiry = a := by
  rw [Announcement.request, if_neg fun h => htx h.2, if_neg htx]

/-- The transaction has its request as its choice. -/
theorem Sane.request (h : Sane sipHash l) (hit : it ∈ l) (expiry : Int) :
    Sane sipHash (l.map (·.request it.peer it.txhash expiry)) := by
  have hsame : ∀ a : Announcement Peer Hash, (a.request it.peer it.txhash expiry).txhash = a.txhash ∧
      (a.request it.peer it.txhash expiry).peer = a.peer ∧
      (a.request it.peer it.txhash expiry).preferred = a.preferred := by
    intro a
    rw [Announcement.request]
    split
    · exact ⟨rfl, rfl, rfl⟩
    · split <;> exact ⟨rfl, rfl, rfl⟩
  refine ⟨?_, fun txhash => ?_⟩
  · rw [Keyed, map_map]
    refine (congrArg List.Nodup (map_congr_left fun a _ => ?_)).mpr h.keyed
    exact Prod.ext (hsame a).2.1 (hsame a).1
  · have hselection : Selection sipHash l fun a => (a.request it.peer it.txhash expiry).state := by
      have hitstate : (it.request it.peer it.txhash expiry).state = .requested := by
        rw [Announcement.request, if_pos ⟨rfl, rfl⟩]
      refine h.selection.change it.txhash (.of_others hit rfl (.inr hitstate) ?_) ?_
      · intro a ha hne htx
        have hkey : ¬ (a.peer = it.peer ∧ a.txhash = it.txhash) :=
          fun hkey => hne (h.keyed.eq ha hit hkey.1 htx)
        refine ⟨?_, fun _ hbest => absurd (hitstate.symm.trans hbest) (by decide)⟩
        simp only [Announcement.request, if_neg hkey, if_pos htx]
        exact State.not_selected_unselected
      · intro a _ htx
        rw [request_other htx]
    exact (hselection txhash).map fun a _ =>
      ⟨(hsame a).1, (hsame a).2.1, (hsame a).2.2, rfl⟩

/-- `RequestedTx` in closed form: without a candidate of that peer nothing changes. -/
theorem requestedTx_of (h : Sane sipHash l) (peer : Peer) (txhash : Hash) (expiry : Int) :
    (of n l).requestedTx sipHash peer txhash expiry = some (.of n
      (if ∃ a ∈ l, a.peer = peer ∧ a.txhash = txhash ∧ a.isCandidate then
        l.map (·.request peer txhash expiry) else l)) := by
  rw [requestedTx]
  cases hbest : (of n l).find peer true txhash with
  | some it =>
    obtain ⟨hit, hpeer, htx, hstate⟩ := find_eq_some hbest
    have hstate := of_decide_eq_true hstate
    have hcandidate : it.isCandidate := by
      rw [Announcement.isCandidate, hstate]
      decide
    rw [if_pos ⟨it, hit, hpeer, htx, hcandidate⟩]
    simp only [modify_of h.keyed hit]
    refine congrArg (some ∘ of n) (map_congr_left fun a ha => ?_)
    subst hpeer htx
    by_cases hait : a = it
    · rw [if_pos hait, hait, Announcement.request, if_pos ⟨rfl, rfl⟩]
    · rw [if_neg hait, Announcement.request]
      split
      · next hkey => exact absurd (h.keyed.eq ha hit hkey.1 hkey.2) hait
      · split
        · next hatx =>
          have hsel : ¬ a.state.Selected := fun hsel =>
            hait (((h.selection it.txhash).selected hit rfl (.inl hstate)).1 a ha hatx hsel)
          rw [State.unselected_of_not_selected hsel]
          rfl
        · rfl
  | none =>
    cases hother : (of n l).find peer false txhash with
    | none =>
      rw [if_neg]
      rintro ⟨a, ha, hpeer, htx, -⟩
      exact absent_of_find hbest hother ⟨a, ha, hpeer, htx⟩
    | some it =>
      obtain ⟨hit, hpeer, htx, hstate⟩ := find_eq_some hother
      simp only
      split
      · next hneither =>
        rw [if_neg]
        rintro ⟨a, ha, hapeer, hatx, hcandidate⟩
        obtain rfl := h.keyed.eq ha hit (hapeer.trans hpeer.symm) (hatx.trans htx.symm)
        revert hneither hstate hcandidate
        rw [Announcement.isCandidate]
        cases a.state <;> decide
      · next heither =>
        have hcandidate : it.isCandidate := by
          revert heither hstate
          rw [Announcement.isCandidate]
          cases it.state <;> decide
        have hunselected : it.state.unselected = it.state := by
          revert heither hstate
          cases it.state <;> decide
        subst hpeer htx
        have hit' : it ∈ assign (fun ann => if ann.txhash = it.txhash then ann.state.unselected
            else ann.state) l :=
          mem_assign.mpr ⟨it, hit, by rw [if_pos rfl, hunselected]; rfl⟩
        rw [if_pos ⟨it, hit, rfl, rfl, hcandidate⟩, unselect_of h, Option.bind_eq_bind,
          Option.bind_some, modify_of h.keyed.assign hit' rfl rfl]
        rw [exchange, TxRequest.assign, map_map]
        refine congrArg (some ∘ of n) (map_congr_left fun a ha => ?_)
        by_cases hait : a = it
        · subst hait
          rw [comp_apply, if_pos (by rw [if_pos rfl, hunselected]; rfl),
            Announcement.request, if_pos ⟨rfl, rfl⟩]
        · have hkey : ¬ (a.peer = it.peer ∧ a.txhash = it.txhash) :=
            fun hkey => hait (h.keyed.eq ha hit hkey.1 hkey.2)
          have hne : ¬ a.setState (if a.txhash = it.txhash then a.state.unselected
              else a.state) = it :=
            fun heq => hkey ⟨congrArg (·.peer) heq, congrArg (·.txhash) heq⟩
          rw [comp_apply, if_neg hne, Announcement.request, if_neg hkey]
          split <;> rfl

/-! ## 4. `ReceivedResponse` -/

def Announcement.respond (peer : Peer) (txhash : Hash) (ann : Announcement Peer Hash) :
    Announcement Peer Hash :=
  if ann.peer = peer ∧ ann.txhash = txhash then ann.setState .completed else ann

/-- `ReceivedResponse` completes the announcement of that peer, if there is one. -/
theorem receivedResponse_of (h : Sane sipHash l) (peer : Peer) (txhash : Hash) :
    ∃ l', (of n l).receivedResponse sipHash peer txhash = some (.of n l') ∧
      Sane sipHash l' ∧ settle l' = forgetFailed (settle (l.map (·.respond peer txhash))) := by
  rw [receivedResponse]
  cases hfind : ((of n l).find peer false txhash).or
      ((of n l).find peer true txhash) with
  | none =>
    obtain ⟨hother, hbest⟩ := Option.or_eq_none_iff.mp hfind
    have hmap : l.map (·.respond peer txhash) = l := map_eq_self fun a ha =>
      if_neg fun hkey => absent_of_find hbest hother ⟨a, ha, hkey⟩
    exact ⟨l, rfl, h, by rw [hmap, forgetFailed_settle fun a ha => h.live ha]⟩
  | some it =>
    obtain ⟨hit, hpeer, htx⟩ : it ∈ l ∧ it.peer = peer ∧ it.txhash = txhash := by
      rcases Option.or_eq_some_iff.mp hfind with hfind | ⟨-, hfind⟩
      · obtain ⟨hit, hpeer, htx, -⟩ := find_eq_some hfind
        exact ⟨hit, hpeer, htx⟩
      · obtain ⟨hit, hpeer, htx, -⟩ := find_eq_some hfind
        exact ⟨hit, hpeer, htx⟩
    obtain ⟨l', still, hrun, hsane, hsettle, -⟩ := makeCompleted_of (n := n) h hit
    refine ⟨l', by simp only [hrun, Option.map_some], hsane, hsettle.trans ?_⟩
    congr 2
    refine map_congr_left fun a ha => ?_
    subst hpeer htx
    by_cases hait : a = it
    · rw [if_pos hait, hait, Announcement.respond, if_pos ⟨rfl, rfl⟩]
    · rw [if_neg hait, Announcement.respond, if_neg fun hkey => hait ?_]
      exact h.keyed.eq ha hit hkey.1 hkey.2

/-! ## 5. `DisconnectedPeer` -/

/-- A completed announcement may be erased if its transaction has others. -/
theorem Sane.erase (h : Sane sipHash l) (hstate : it.state = .completed) :
    Sane sipHash (l.filter (· ≠ it)) where
  keyed := h.keyed.sublist filter_sublist
  selection txhash := by
    refine (h.selection txhash).transfer (fun _ _ => ⟨rfl, rfl⟩)
      (fun a ha _ hastate => ⟨mem_filter.mpr ⟨ha, decide_eq_true ?_⟩, rfl⟩)
      fun a ha _ => .inr ⟨a, mem_of_mem_filter ha, rfl, rfl⟩
    rintro rfl
    exact hastate hstate

/-- Without a completed announcement the same transactions are forgotten. -/
theorem forgetFailed_erase (hstate : it.state = .completed) :
    forgetFailed (l.filter (· ≠ it)) =
      (forgetFailed l).filter (· ≠ it) := by
  simp only [forgetFailed, filter_filter]
  refine filter_congr fun a _ => ?_
  rw [Bool.and_comm]
  congr 1
  refine decide_eq_decide.mpr ⟨?_, ?_⟩
  · rintro ⟨b, hb, hbtx, hbstate⟩
    exact ⟨b, mem_of_mem_filter hb, hbtx, hbstate⟩
  · rintro ⟨b, hb, hbtx, hbstate⟩
    refine ⟨b, mem_filter.mpr ⟨hb, decide_eq_true ?_⟩, hbtx, hbstate⟩
    rintro rfl
    exact hbstate hstate

/-- The changed announcement is the only one of its kind. -/
theorem exchange_filter (hk : Keyed l) (hit : it ∈ l) {s : State} :
    (exchange it (it.setState s) l).filter (· ≠ it.setState s) =
      l.filter (· ≠ it) := by
  rw [exchange, filter_map]
  have hfilter : l.filter ((· ≠ it.setState s) ∘ fun ann =>
      if ann = it then it.setState s else ann) = l.filter (· ≠ it) := by
    refine filter_congr fun a ha => decide_eq_decide.mpr (not_congr ?_)
    by_cases hait : a = it
    · simp [hait]
    · show (if a = it then it.setState s else a) = it.setState s ↔ a = it
      rw [if_neg hait]
      refine ⟨fun heq => ?_, fun heq => absurd heq hait⟩
      exact hk.eq ha hit (congrArg (·.peer) heq) (congrArg (·.txhash) heq)
  rw [hfilter]
  refine map_eq_self fun a ha => if_neg ?_
  simpa using of_mem_filter ha

/-- One round of the loop: the announcement is gone, and what it kept alive with it. -/
theorem disconnect_round (h : Sane sipHash l) (hit : it ∈ l) :
    ∃ l₁ still l₂, (of n l).makeCompleted sipHash it = some (.of n l₁, still) ∧
      (if still then (of n l₁).erase (it.setState .completed) else some (.of n l₁)) =
        some (.of n l₂) ∧
      Sane sipHash l₂ ∧
      settle l₂ = forgetFailed (settle (l.filter (· ≠ it))) ∧
      ∀ a, a.peer = it.peer → (a ∈ l₂ ↔ a ∈ l ∧ a ≠ it) := by
  obtain ⟨l₁, still, hrun, h₁, hsettle, hother, hstill, hgone⟩ := makeCompleted_of (n := n) h hit
  have herased : settle (l₁.filter (· ≠ it.setState .completed)) =
      forgetFailed (settle (l.filter (· ≠ it))) := by
    have hsettled : ∀ a : Announcement Peer Hash, decide (a.settled ≠ it.setState .completed) =
        decide (a ≠ it.setState .completed) :=
      fun a => decide_eq_decide.mpr (not_congr (settled_eq_iff rfl))
    rw [settle_filter hsettled, hsettle, ← forgetFailed_erase rfl, ← settle_filter hsettled,
      exchange_filter h.keyed hit]
  have hmem : ∀ a, a.peer = it.peer →
      (a ∈ l₁.filter (· ≠ it.setState .completed) ↔ a ∈ l ∧ a ≠ it) := by
    intro a hpeer
    rw [mem_filter, decide_eq_true_iff]
    constructor
    · rintro ⟨ha, hne⟩
      have htx : a.txhash ≠ it.txhash := by
        intro htx
        cases still with
        | true => exact hne (h₁.keyed.eq ha (hstill rfl) hpeer htx)
        | false => exact hgone rfl a ha htx
      refine ⟨(hother a htx).mp ha, ?_⟩
      rintro rfl
      exact htx rfl
    · rintro ⟨ha, hne⟩
      have htx : a.txhash ≠ it.txhash := fun htx => hne (h.keyed.eq ha hit hpeer htx)
      refine ⟨(hother a htx).mpr ha, ?_⟩
      rintro rfl
      exact htx rfl
  cases still with
  | true =>
    exact ⟨l₁, true, _, hrun, erase_of h₁.keyed.nodup (hstill rfl), h₁.erase rfl, herased, hmem⟩
  | false =>
    have hsame : l₁.filter (· ≠ it.setState .completed) = l₁ := by
      refine filter_eq_self.mpr fun a ha => decide_eq_true ?_
      rintro rfl
      exact hgone rfl _ ha rfl
    rw [hsame] at herased hmem
    exact ⟨l₁, false, l₁, hrun, rfl, h₁, herased, hmem⟩

theorem byPeer_le : a.byPeer ≤ b.byPeer ↔ a.peer ≤ b.peer ∧ (a.peer = b.peer →
    (toLex (decide (a.state = .candidateBest), a.txhash) : Bool ×ₗ Hash) ≤
      toLex (decide (b.state = .candidateBest), b.txhash)) := by
  rw [Announcement.byPeer, Announcement.byPeer, Prod.Lex.toLex_le_toLex']

/-- Where the loop stands: at the first announcement of the peer, or at its end. -/
def DisconnectAt (peer : Peer) (l : List (Announcement Peer Hash)) :
    Option (Announcement Peer Hash) → Prop
  | none => ∀ a ∈ l, a.peer ≠ peer
  | some it => it ∈ l ∧ it.peer = peer ∧ ∀ a ∈ l, a.peer = peer → it.byPeer ≤ a.byPeer

/-- What the loop continues with is the first of what is left. -/
theorem disconnectAt_next (hk : Keyed l) (hat : DisconnectAt peer l (some it))
    (hmem : ∀ a, a.peer = peer → (a ∈ l' ↔ a ∈ l ∧ a ≠ it)) :
    DisconnectAt peer l' ((next Announcement.byPeer l it).filter fun ann =>
      decide (ann.peer = peer)) := by
  obtain ⟨hit, hpeer, hleast⟩ := hat
  -- every announcement of the peer that is left lies at or after the next one
  have hafter : ∀ a ∈ l', a.peer = peer →
      ∃ b, next Announcement.byPeer l it = some b ∧ b.peer = peer ∧ b.byPeer ≤ a.byPeer := by
    intro a ha hapeer
    obtain ⟨hal, hne⟩ := (hmem a hapeer).mp ha
    have hnle : ¬ a.byPeer ≤ it.byPeer := by
      intro hle
      have heq := le_antisymm hle (hleast a hal hapeer)
      simp only [Announcement.byPeer, EmbeddingLike.apply_eq_iff_eq, Prod.mk.injEq] at heq
      exact hne (hk.eq hal hit heq.1 heq.2.2)
    obtain ⟨b, hb, hle⟩ := next_of_not_le hit hal hnle
    refine ⟨b, hb, le_antisymm ?_ ?_, hle⟩
    · exact (byPeer_le.mp hle).1.trans hapeer.le
    · exact hpeer.ge.trans (byPeer_le.mp (next_le hit hb)).1
  cases hnext : (next Announcement.byPeer l it).filter fun ann => decide (ann.peer = peer) with
  | none =>
    intro a ha hapeer
    obtain ⟨b, hb, hbpeer, -⟩ := hafter a ha hapeer
    exact absurd (decide_eq_true hbpeer) (Option.filter_eq_none_iff.mp hnext b hb)
  | some b =>
    obtain ⟨hb, hbpeer⟩ := Option.filter_eq_some_iff.mp hnext
    have hbpeer := of_decide_eq_true hbpeer
    refine ⟨(hmem b hbpeer).mpr ⟨mem_of_next hb hit, next_ne hk.nodup hit hb⟩, hbpeer, ?_⟩
    intro a ha hapeer
    obtain ⟨b', hb', -, hle⟩ := hafter a ha hapeer
    cases hb.symm.trans hb'
    exact hle

theorem settle_of_absent (h : Sane sipHash l) (hnone : ∀ a ∈ l, a.peer ≠ peer) :
    settle l = forgetFailed (settle (l.filter (·.peer ≠ peer))) := by
  have hfilter : l.filter (·.peer ≠ peer) = l :=
    filter_eq_self.mpr fun a ha => decide_eq_true (hnone a ha)
  rw [hfilter, forgetFailed_settle fun a ha => h.live ha]

theorem disconnect_of (h : Sane sipHash l) {at' : Option (Announcement Peer Hash)}
    (hat : DisconnectAt peer l at') {fuel : Nat}
    (hfuel : l.countP (·.peer = peer) ≤ fuel) :
    ∃ l', (of n l).disconnect sipHash peer fuel at' = some (.of n l') ∧ Sane sipHash l' ∧
      settle l' = forgetFailed (settle (l.filter (·.peer ≠ peer))) := by
  induction fuel generalizing l at' with
  | zero =>
    have hnone : ∀ a ∈ l, a.peer ≠ peer := by
      simpa using countP_eq_zero.mp (Nat.le_zero.mp hfuel)
    cases at' with
    | none => exact ⟨l, by rw [disconnect], h, settle_of_absent h hnone⟩
    | some it => exact absurd hat.2.1 (hnone it hat.1)
  | succ fuel ih =>
    cases at' with
    | none => exact ⟨l, by rw [disconnect], h, settle_of_absent h hat⟩
    | some it =>
      obtain ⟨hit, hpeer, -⟩ := id hat
      obtain ⟨l₁, still, l₂, hrun₁, hrun₂, h₂, hsettle, hmem⟩ := disconnect_round h hit
      rw [hpeer] at hmem
      have hsettled : ∀ a : Announcement Peer Hash, decide (a.settled.peer = peer) =
        decide (a.peer = peer) := fun _ => rfl
      have hless : l₂.countP (·.peer = peer) <
          l.countP (·.peer = peer) := by
        calc l₂.countP (·.peer = peer)
            = (settle l₂).countP (·.peer = peer) := (countP_settle hsettled).symm
          _ ≤ (settle (l.filter (· ≠ it))).countP
                (·.peer = peer) := by
              rw [hsettle]
              exact filter_sublist.countP_le
          _ = (l.filter (· ≠ it)).countP (·.peer = peer) :=
              countP_settle hsettled
          _ < l.countP (·.peer = peer) := by
              rw [(perm_cons_filter h.keyed.nodup hit).countP_eq,
                countP_cons_of_pos (by simpa using hpeer)]
              exact Nat.lt_succ_self _
      obtain ⟨l', hrun, hsane, hl'⟩ := ih h₂ (disconnectAt_next h.keyed hat hmem)
        (Nat.lt_succ_iff.mp (hless.trans_le hfuel))
      refine ⟨l', ?_, hsane, hl'.trans ?_⟩
      · rw [disconnect, if_pos hpeer, hrun₁]
        simp only [hrun₂, Option.bind_some]
        exact hrun
      · have hrest : (l.filter (· ≠ it)).filter
            (·.peer ≠ peer) = l.filter (·.peer ≠ peer) := by
          rw [filter_filter]
          refine filter_congr fun a _ => ?_
          by_cases hapeer : a.peer = peer
          · simp [hapeer]
          · have hne : a ≠ it := by
              rintro rfl
              exact hapeer hpeer
            simp [hapeer, hne]
        rw [settle_filter fun _ => rfl, hsettle, forgetFailed_filter_forgetFailed,
          ← settle_filter fun _ => rfl, hrest]

/-- `DisconnectedPeer` takes out the announcements of the peer, and the transactions that they kept
alive. -/
theorem disconnectedPeer_of [OrderBot Hash] (h : Sane sipHash l) (peer : Peer) :
    ∃ l', (of n l).disconnectedPeer sipHash peer = some (.of n l') ∧ Sane sipHash l' ∧
      settle l' = forgetFailed (settle (l.filter (·.peer ≠ peer))) := by
  have hbound : ∀ a : Announcement Peer Hash, a.peer = peer →
      (toLex (peer, toLex (false, ⊥)) : Peer ×ₗ Bool ×ₗ Hash) ≤ a.byPeer := by
    intro a hpeer
    refine Prod.Lex.toLex_le_toLex'.mpr ⟨hpeer.ge, fun _ => ?_⟩
    exact Prod.Lex.toLex_le_toLex'.mpr ⟨Bool.false_le _, fun _ => bot_le⟩
  rw [disconnectedPeer, index_of]
  cases hlower : lowerBound Announcement.byPeer (toLex (peer, toLex (false, ⊥))) l with
  | none =>
    refine ⟨l, by rw [disconnect], h, settle_of_absent h fun a ha hpeer => ?_⟩
    exact absurd (hbound a hpeer) (not_le.mpr (lowerBound_eq_none hlower ha))
  | some it =>
    obtain ⟨hit, hle, hleast⟩ := lowerBound_eq_some hlower
    by_cases hpeer : it.peer = peer
    · have hat : DisconnectAt peer l (some it) :=
        ⟨hit, hpeer, fun a ha hapeer => hleast a ha (hbound a hapeer)⟩
      exact disconnect_of h hat (countP_le_length.trans (Nat.le_succ _))
    · have hnone : ∀ a ∈ l, a.peer ≠ peer := by
        intro a ha hapeer
        refine hpeer (le_antisymm ?_ (Prod.Lex.toLex_le_toLex'.mp hle).1)
        exact (byPeer_le.mp (hleast a ha (hbound a hapeer))).1.trans hapeer.le
      exact ⟨l, by rw [disconnect, if_neg hpeer], h, settle_of_absent h hnone⟩

end RgmNode.TxRequest
