import RgmNode.Net.Selection

/-!
# The helpers keep the selection

Each helper of the tracker succeeds on announcements that satisfy the invariant (`Sane`), keeps it,
and changes the one announcement it is called for; beyond that it may move the selection among the
candidates of that transaction (`settle` forgets which of them is selected).
-/

namespace RgmNode.TxRequest

open OrderedView List Announcement Tracker Function

variable {Peer Hash : Type} {sipHash : Hash → Peer → UInt64} {n : Nat}
  {l : List (Announcement Peer Hash)} {it a b c : Announcement Peer Hash}
  {σ : Announcement Peer Hash → State} {s : State}

/-! ## 1. Announcements up to the selection -/

/-- The state up to the selection among the candidates that are ready. -/
def State.settled : State → State
  | .candidateBest => .candidateReady
  | s => s

theorem State.settled_ne_completed {s : State} : s.settled ≠ .completed ↔ s ≠ .completed := by
  cases s <;> decide

def Announcement.settled (ann : Announcement Peer Hash) : Announcement Peer Hash :=
  ann.setState ann.state.settled

def settle (l : List (Announcement Peer Hash)) : List (Announcement Peer Hash) :=
  l.map Announcement.settled

structure Sane (sipHash : Hash → Peer → UInt64) (l : List (Announcement Peer Hash)) : Prop where
  keyed : Keyed l
  selection : Selection sipHash l Announcement.state

theorem Sane.live (h : Sane sipHash l) (ha : a ∈ l) :
    ∃ b ∈ l, b.txhash = a.txhash ∧ b.state ≠ .completed :=
  (h.selection a.txhash).live ha rfl

theorem Sane.assign (hk : Keyed l) (hs : Selection sipHash l σ) : Sane sipHash (assign σ l) where
  keyed := hk.assign
  selection txhash := (hs txhash).map fun _ _ => ⟨rfl, rfl, rfl, rfl⟩

theorem settle_assign {σ' : Announcement Peer Hash → State}
    (h : ∀ a ∈ l, (σ a).settled = (σ' a).settled) :
    settle (assign σ l) = settle (assign σ' l) := by
  rw [settle, settle, TxRequest.assign, TxRequest.assign, map_map, map_map]
  refine map_congr_left fun a ha => ?_
  simp only [comp_apply, settled, setState, h a ha]

theorem settle_filter {p : Announcement Peer Hash → Bool} (hp : ∀ a, p a.settled = p a) :
    settle (l.filter p) = (settle l).filter p := by
  rw [settle, settle, filter_map]
  congr 1
  exact filter_congr fun a _ => (hp a).symm

theorem settled_of_completed (hstate : a.state = .completed) : a.settled = a := by
  have hsettled : a.state.settled = a.state := by rw [hstate]; rfl
  rw [settled, hsettled]
  rfl

theorem settled_eq_iff (hstate : b.state = .completed) : a.settled = b ↔ a = b := by
  constructor
  · rintro rfl
    have hcompleted : a.state = .completed := by
      change a.state.settled = .completed at hstate
      revert hstate
      cases a.state <;> decide
    exact (settled_of_completed hcompleted).symm
  · rintro rfl
    exact settled_of_completed hstate

section Forget

variable [DecidableEq Hash]

/-- Forget the transactions of which all announcements are completed. -/
def forgetFailed (l : List (Announcement Peer Hash)) : List (Announcement Peer Hash) :=
  l.filter fun ann => decide (∃ b ∈ l, b.txhash = ann.txhash ∧ b.state ≠ .completed)

theorem forgetFailed_map {f : Announcement Peer Hash → Announcement Peer Hash}
    (hf : ∀ a ∈ l, (f a).txhash = a.txhash) :
    forgetFailed (l.map f) = (l.filter fun ann =>
      decide (∃ b ∈ l, b.txhash = ann.txhash ∧ (f b).state ≠ .completed)).map f := by
  rw [forgetFailed, filter_map]
  congr 1
  refine filter_congr fun a ha => decide_eq_decide.mpr ?_
  constructor
  · rintro ⟨b', hb', htx, hstate⟩
    obtain ⟨b, hb, rfl⟩ := mem_map.mp hb'
    rw [hf b hb, hf a ha] at htx
    exact ⟨b, hb, htx, hstate⟩
  · rintro ⟨b, hb, htx, hstate⟩
    refine ⟨f b, mem_map_of_mem hb, ?_, hstate⟩
    rw [hf b hb, hf a ha, htx]

/-- What is forgotten early is forgotten late, if completed announcements stay completed. -/
theorem forgetFailed_map_forgetFailed {f : Announcement Peer Hash → Announcement Peer Hash}
    (htx : ∀ a, (f a).txhash = a.txhash)
    (hstate : ∀ a, a.state = .completed → (f a).state = .completed) :
    forgetFailed ((forgetFailed l).map f) = forgetFailed (l.map f) := by
  rw [forgetFailed_map fun a _ => htx a, forgetFailed_map fun a _ => htx a, forgetFailed,
    filter_filter]
  congr 1
  refine filter_congr fun a _ => ?_
  rw [← Bool.decide_and]
  refine decide_eq_decide.mpr ⟨?_, ?_⟩
  · rintro ⟨⟨b, hb, hbtx, hbstate⟩, -⟩
    exact ⟨b, mem_of_mem_filter hb, hbtx, hbstate⟩
  · rintro ⟨b, hb, hbtx, hbstate⟩
    have hlive : b.state ≠ .completed := fun h => hbstate (hstate b h)
    exact ⟨⟨b, mem_filter.mpr ⟨hb, decide_eq_true ⟨b, hb, rfl, hlive⟩⟩, hbtx, hbstate⟩,
      b, hb, hbtx, hlive⟩

theorem forgetFailed_filter_forgetFailed {p : Announcement Peer Hash → Bool} :
    forgetFailed ((forgetFailed l).filter p) = forgetFailed (l.filter p) := by
  simp only [forgetFailed, filter_filter]
  refine filter_congr fun a _ => ?_
  rw [Bool.and_comm (p a), ← Bool.and_assoc, ← Bool.decide_and]
  congr 1
  refine decide_eq_decide.mpr ⟨?_, ?_⟩
  · rintro ⟨⟨b, hb, hbtx, hbstate⟩, -⟩
    obtain ⟨hb, hp⟩ := mem_filter.mp hb
    exact ⟨b, mem_filter.mpr ⟨hb, (Bool.and_eq_true_iff.mp hp).1⟩, hbtx, hbstate⟩
  · rintro ⟨b, hb, hbtx, hbstate⟩
    obtain ⟨hb, hp⟩ := mem_filter.mp hb
    have hlive := decide_eq_true (p := ∃ c ∈ l, c.txhash = b.txhash ∧ c.state ≠ .completed)
      ⟨b, hb, rfl, hbstate⟩
    exact ⟨⟨b, mem_filter.mpr ⟨hb, Bool.and_eq_true_iff.mpr ⟨hp, hlive⟩⟩, hbtx, hbstate⟩,
      b, hb, hbtx, hbstate⟩

/-- Nothing is forgotten if every transaction has an announcement that is not completed. -/
theorem forgetFailed_settle
    (hlive : ∀ a ∈ l, ∃ b ∈ l, b.txhash = a.txhash ∧ b.state ≠ .completed) :
    forgetFailed (settle l) = settle l := by
  refine filter_eq_self.mpr fun a ha => decide_eq_true ?_
  obtain ⟨c, hc, rfl⟩ := mem_map.mp ha
  obtain ⟨b, hb, htx, hstate⟩ := hlive c hc
  exact ⟨b.settled, mem_map_of_mem hb, htx, State.settled_ne_completed.mpr hstate⟩

/-- Without the announcements of one transaction the others keep their choices. -/
theorem Selection.forget (hs : Selection sipHash l state) (txhash : Hash) :
    Selection sipHash (l.filter (·.txhash ≠ txhash)) state := by
  have hmem : ∀ a, a ∈ l.filter (·.txhash ≠ txhash) ↔
      a ∈ l ∧ a.txhash ≠ txhash := fun a => by rw [mem_filter, decide_eq_true_iff]
  intro txhash'
  by_cases heq : txhash' = txhash
  · refine .idle ?_ ?_ <;> intro a ha htx <;> exact absurd (htx.trans heq) ((hmem a).mp ha).2
  · exact (hs txhash').transfer (fun _ _ => ⟨rfl, rfl⟩)
      (fun a ha htx _ => ⟨(hmem a).mpr ⟨ha, htx ▸ heq⟩, rfl⟩)
      fun a ha _ => .inr ⟨a, ((hmem a).mp ha).1, rfl, rfl⟩

theorem Sane.forget (h : Sane sipHash l) (txhash : Hash) :
    Sane sipHash (l.filter (·.txhash ≠ txhash)) where
  keyed := h.keyed.sublist filter_sublist
  selection := h.selection.forget txhash

end Forget

/-! ## 2. `PromoteCandidateReady` -/

variable [LinearOrder Peer] [LinearOrder Hash]

theorem mem_changed (ha : a ∈ l) (hne : a ≠ it) :
    a ∈ assign (update state it s) l :=
  mem_assign.mpr ⟨a, ha, by rw [update_of_ne hne]; rfl⟩

theorem of_mem_changed (h : a ∈ assign (update state it s) l)
    (hne : a ≠ it.setState s) : a ∈ l ∧ a ≠ it := by
  obtain ⟨ann, hann, rfl⟩ := mem_assign.mp h
  by_cases hit : ann = it
  · subst hit
    rw [update_self] at hne
    exact absurd rfl hne
  · rw [update_of_ne hit]
    exact ⟨hann, hit⟩

variable (sipHash) in
/-- The announcement after a candidate that has just become ready. -/
def promotedNext (l : List (Announcement Peer Hash)) (it : Announcement Peer Hash) :
    Option (Announcement Peer Hash) :=
  next (·.byTxHash sipHash) (assign (update state it .candidateReady) l)
    (it.setState .candidateReady)

/-- An announcement of the same transaction that is selected or ready and better comes after one
that has just become ready. -/
theorem next_of_promoted (hit : it ∈ l) (hc : c ∈ l) (hne : c ≠ it) (htx : c.txhash = it.txhash)
    (habove : 1 < c.state.rank ∨
      c.state = .candidateReady ∧ it.priority sipHash < c.priority sipHash) :
    ∃ itNext, promotedNext sipHash l it = some itNext ∧
      itNext.txhash = it.txhash ∧ itNext.state.rank ≤ c.state.rank := by
  have hit' : it.setState .candidateReady ∈ assign (update state it .candidateReady) l :=
    mem_assign.mpr ⟨it, hit, by rw [update_self]⟩
  have hnle : ¬ c.byTxHash sipHash ≤ (it.setState .candidateReady).byTxHash sipHash := by
    intro hle
    rcases habove with hrank | ⟨hready, hprio⟩
    · exact absurd (rank_le hle htx) (not_le.mpr hrank)
    · exact absurd (priority_le hle htx hready rfl) (not_le.mpr hprio)
  obtain ⟨itNext, hnext, hle⟩ := next_of_not_le hit' (mem_changed hc hne) hnle
  have hle' := next_le hit' hnext
  have hnexttx : itNext.txhash = (it.setState .candidateReady).txhash :=
    txhash_eq_of_between hle' hle htx.symm
  exact ⟨itNext, hnext, hnexttx, rank_le hle (hnexttx.trans htx.symm)⟩

theorem update_state_of_txhash_ne (h : a.txhash ≠ it.txhash) :
    update state it s a = a.state :=
  update_of_ne (fun heq => h (congrArg (·.txhash) heq)) _ _

section

variable (hs : Selection sipHash l Announcement.state)

include hs

/-- The other transactions keep their choices. -/
theorem Selection.alter
    (hchoice : Choice sipHash l (update state it s) it.txhash) :
    Selection sipHash l (update state it s) :=
  hs.change it.txhash hchoice fun _ _ htx => update_state_of_txhash_ne htx

/-- The promoted candidate is selected if no selected announcement comes after it. -/
theorem Selection.promote_alone (hit : it ∈ l)
    (hnone : ∀ itNext, promotedNext sipHash l it = some itNext →
      itNext.txhash ≠ it.txhash ∨ itNext.state = .completed) :
    Selection sipHash l (update state it .candidateBest) := by
  have habove : ∀ c ∈ l, c ≠ it → c.txhash = it.txhash → (1 < c.state.rank ∨
      c.state = .candidateReady ∧ it.priority sipHash < c.priority sipHash) →
      c.state = .completed := by
    intro c hc hne htx habove
    obtain ⟨itNext, hnext, hnexttx, hle⟩ := next_of_promoted hit hc hne htx habove
    have hcompleted := (hnone itNext hnext).resolve_left (not_not.mpr hnexttx)
    rw [hcompleted] at hle
    by_contra hc'
    exact absurd (State.rank_lt_four.mpr hc') (not_lt.mpr hle)
  have hitsel : (update state it .candidateBest it).Selected := by
    rw [update_self]
    exact .inl rfl
  refine hs.alter (.of_others hit rfl hitsel fun c hc hne htx => ?_)
  rw [update_of_ne hne]
  refine ⟨fun hsel => ?_, fun hready _ => ?_⟩
  · rw [habove c hc hne htx (.inl hsel.rank.1)] at hsel
    exact absurd hsel (by decide)
  · by_contra hlt
    have hcompleted := habove c hc hne htx (.inr ⟨hready, not_le.mp hlt⟩)
    rw [hready] at hcompleted
    cases hcompleted

/-- Another announcement stays selected, if the changed one does not compete with it. -/
theorem Selection.alter_other (hc : c ∈ l) (hne : c ≠ it) (htx : c.txhash = it.txhash)
    (hsel : c.state.Selected) (hnot : ¬ s.Selected)
    (hready : s = .candidateReady → c.state = .candidateBest →
      it.priority sipHash ≤ c.priority sipHash) :
    Selection sipHash l (update state it s) := by
  obtain ⟨only, best⟩ := (hs it.txhash).selected hc htx hsel
  refine hs.alter (.of_others hc htx (by rwa [update_of_ne hne]) fun a ha hac hatx => ?_)
  by_cases hait : a = it
  · rw [hait, update_self, update_of_ne hne]
    exact ⟨hnot, hready⟩
  · rw [update_of_ne hait, update_of_ne hne]
    exact ⟨fun hasel => hac (only a ha hatx hasel),
      fun hready hbest => best hbest a ha hatx hready⟩

/-- The promoted candidate takes the place of a selected candidate that is not as good. -/
theorem Selection.promote_above (hit : it ∈ l) (hc : c ∈ l) (hne : c ≠ it)
    (htx : c.txhash = it.txhash) (hbest : c.state = .candidateBest)
    (hprio : c.priority sipHash < it.priority sipHash) :
    Selection sipHash l (update (update (update state it
      .candidateReady) c .candidateReady) it .candidateBest) := by
  obtain ⟨only, best⟩ := (hs it.txhash).selected hc htx (.inl hbest)
  have hother : ∀ a, a ≠ it → a ≠ c → update (update (update
      state it .candidateReady) c .candidateReady) it .candidateBest a = a.state := by
    intro a hait hac
    rw [update_of_ne hait, update_of_ne hac, update_of_ne hait]
  refine hs.change it.txhash (.of_others hit rfl ?_ fun a ha hait hatx => ?_) ?_
  · rw [update_self]
    exact .inl rfl
  · by_cases hac : a = c
    · rw [hac, update_of_ne hne, update_self]
      exact ⟨by decide, fun _ _ => hprio.le⟩
    · rw [hother a hait hac]
      exact ⟨fun hsel => hac (only a ha hatx hsel),
        fun hready _ => (best hbest a ha hatx hready).trans hprio.le⟩
  · intro a _ hatx
    refine hother a (fun h => hatx (congrArg (·.txhash) h)) fun h => hatx ?_
    rw [h, htx]

end

variable (sipHash) in
/-- A helper ends with the announcements, of which one has a new state, up to the selection. -/
def Settles (n : Nat) (l : List (Announcement Peer Hash)) (it : Announcement Peer Hash) (s : State)
    (r : Option (Tracker Peer Hash)) : Prop :=
  ∃ σ, r = some (.of n (assign σ l)) ∧ Selection sipHash l σ ∧
    ∀ a ∈ l, (σ a).settled = (update Announcement.state it s a).settled

section

variable (hs : Selection sipHash l state)

include hs

theorem settles_alone (hk : Keyed l) (hit : it ∈ l)
    (hnone : ∀ itNext, promotedNext sipHash l it = some itNext →
      itNext.txhash ≠ it.txhash ∨ itNext.state = .completed) :
    Settles sipHash n l it .candidateReady
      ((of n (assign (update state it .candidateReady) l)).modify
        (it.setState .candidateReady) (·.setState .candidateBest)) := by
  refine ⟨update state it .candidateBest, ?_, hs.promote_alone hit hnone, fun a _ => ?_⟩
  · rw [modify_assign hk hit (update_self ..), update_idem]
  · by_cases ha : a = it
    · rw [ha, update_self, update_self]
      rfl
    · rw [update_of_ne ha, update_of_ne ha]

theorem settles_above (hk : Keyed l) (hit : it ∈ l) (hc : c ∈ l) (hne : c ≠ it)
    (htx : c.txhash = it.txhash) (hbest : c.state = .candidateBest)
    (hprio : c.priority sipHash < it.priority sipHash) :
    Settles sipHash n l it .candidateReady
      (((of n (assign (update state it .candidateReady) l)).modify c
        (·.setState .candidateReady)).bind fun t =>
          t.modify (it.setState .candidateReady) (·.setState .candidateBest)) := by
  refine ⟨_, ?_, hs.promote_above hit hc hne htx hbest hprio, fun a _ => ?_⟩
  · have hready : update (update state it .candidateReady) c .candidateReady it =
        .candidateReady := by
      rw [update_of_ne hne.symm, update_self]
    have hfirst := modify_assign (n := n) hk hc (update_of_ne hne .candidateReady state)
      .candidateReady
    rw [show c.setState c.state = c from rfl] at hfirst
    rw [hfirst, Option.bind_some, modify_assign hk hit hready]
  · by_cases hait : a = it
    · rw [hait, update_self, update_self]
      rfl
    · rw [update_of_ne hait]
      by_cases hac : a = c
      · rw [hac, update_self, update_of_ne hne, hbest]
        rfl
      · rw [update_of_ne hac]

theorem settles_below (hc : c ∈ l) (hne : c ≠ it) (htx : c.txhash = it.txhash)
    (hsel : c.state.Selected)
    (hprio : c.state = .candidateBest → it.priority sipHash ≤ c.priority sipHash) :
    Settles sipHash n l it .candidateReady
      (some (.of n (assign (update state it .candidateReady) l))) :=
  ⟨_, rfl, hs.alter_other hc hne htx hsel (by decide) fun _ => hprio, fun _ _ => rfl⟩

/-- If the next announcement is ready too, another one is selected that is as good. -/
theorem settles_ready (hdelayed : it.state = .candidateDelayed) (hc : c ∈ l)
    (htx : c.txhash = it.txhash) (hready : c.state = .candidateReady)
    (hprio : it.priority sipHash ≤ c.priority sipHash) :
    Settles sipHash n l it .candidateReady
      (some (.of n (assign (update state it .candidateReady) l))) := by
  obtain ⟨s, hmem, hstx, hsel⟩ := (hs it.txhash).of_ready hc htx hready
  have hsne : s ≠ it := by
    rintro rfl
    rw [hdelayed] at hsel
    rcases hsel with h | h <;> cases h
  refine settles_below hs hmem hsne hstx hsel fun hbest => ?_
  exact hprio.trans (((hs it.txhash).selected hmem hstx hsel).2 hbest c hc htx hready)

/-- Making a candidate ready may move the selection of its transaction and changes nothing else. -/
theorem promoteCandidateReady_of (hk : Keyed l) (hit : it ∈ l)
    (hdelayed : it.state = .candidateDelayed) :
    Settles sipHash n l it .candidateReady
      ((of n l).promoteCandidateReady sipHash it) := by
  have hit' : it.setState .candidateReady ∈ assign (update state it .candidateReady) l :=
    mem_assign.mpr ⟨it, hit, by rw [update_self]⟩
  rw [promoteCandidateReady, if_pos hdelayed, modify_state hk hit, Option.bind_eq_bind,
    Option.bind_some]
  simp only [index_of]
  split
  · next hnone =>
    exact settles_alone hs hk hit fun itNext h => by cases hnone.symm.trans h
  · next c hnext =>
    obtain ⟨hc, hne⟩ :=
      of_mem_changed (mem_of_next hnext hit') (next_ne hk.assign.nodup hit' hnext)
    have hle := next_le hit' hnext
    split
    · next hother =>
      refine settles_alone hs hk hit fun itNext h => ?_
      cases hnext.symm.trans h
      exact hother
    · next hsame =>
      rw [not_or, not_not] at hsame
      have htx : c.txhash = it.txhash := hsame.1
      split
      · next hbest =>
        split
        · next hprio => exact settles_above hs hk hit hc hne htx hbest hprio
        · next hprio => exact settles_below hs hc hne htx (.inl hbest) fun _ => not_lt.mp hprio
      · next hbest =>
        cases hstate : c.state with
        | candidateDelayed =>
          have hrank := rank_le hle htx.symm
          rw [hstate] at hrank
          cases hrank
        | candidateReady =>
          have hprio := priority_le hle htx.symm rfl hstate
          exact settles_ready hs hdelayed hc htx hstate hprio
        | candidateBest => exact absurd hstate hbest
        | requested =>
          refine settles_below hs hc hne htx (.inr hstate) fun h => ?_
          rw [hstate] at h
          cases h
        | completed => exact absurd hstate hsame.2

end

/-! ## 3. `ChangeAndReselect` -/

theorem nextBest_eq_some (h : (of n l).nextBest sipHash it = some b) (hit : it ∈ l) :
    prev (·.byTxHash sipHash) l it = some b ∧ b ∈ l ∧ b ≠ it ∧ b.txhash = it.txhash ∧
      b.state = .candidateReady := by
  obtain ⟨hprev, hcond⟩ := Option.filter_eq_some_iff.mp h
  obtain ⟨htx, hready⟩ := of_decide_eq_true hcond
  exact ⟨hprev, mem_of_prev hprev hit, prev_ne hprev, htx, hready⟩

variable (sipHash) in
/-- A ready candidate of the transaction comes before the selected announcement. -/
theorem prev_of_ready (hit : it ∈ l) (hsel : it.state.Selected) (hc : c ∈ l)
    (htx : c.txhash = it.txhash) (hready : c.state = .candidateReady) :
    ∃ b, prev (·.byTxHash sipHash) l it = some b ∧ c.byTxHash sipHash ≤ b.byTxHash sipHash := by
  refine prev_of_not_le hit hc fun hle => ?_
  have hrank := rank_le hle htx.symm
  rw [hready] at hrank
  exact absurd hsel.rank.1 (not_lt.mpr hrank)

/-- The candidate that is selected next is the best one that is ready. -/
theorem priority_le_nextBest (hit : it ∈ l) (hsel : it.state.Selected)
    (h : (of n l).nextBest sipHash it = some b) (hc : c ∈ l) (htx : c.txhash = it.txhash)
    (hready : c.state = .candidateReady) : c.priority sipHash ≤ b.priority sipHash := by
  obtain ⟨hprev, -, -, hbtx, hbready⟩ := nextBest_eq_some h hit
  obtain ⟨b', hprev', hle⟩ := prev_of_ready sipHash hit hsel hc htx hready
  cases hprev.symm.trans hprev'
  exact priority_le hle (htx.trans hbtx.symm) hready hbready

section

variable (hs : Selection sipHash l state) (hit : it ∈ l) (hsel : it.state.Selected)

include hs hit hsel

theorem not_ready_of_nextBest (h : (of n l).nextBest sipHash it = none) (hc : c ∈ l)
    (htx : c.txhash = it.txhash) : c.state ≠ .candidateReady := by
  intro hready
  obtain ⟨b, hprev, hle⟩ := prev_of_ready sipHash hit hsel hc htx hready
  have hle' := le_prev hit hprev
  have hbtx : b.txhash = c.txhash := txhash_eq_of_between hle hle' htx
  have hlower := rank_le hle hbtx.symm
  have hupper := (rank_le hle' (hbtx.trans htx)).trans_lt hsel.rank.2
  rw [hready] at hlower
  -- the one before is ready itself, for the only selected one is `it`
  have hbready : b.state = .candidateReady := by
    by_contra hb
    have hbsel : b.state.Selected := by
      refine State.selected_of_rank (lt_of_le_of_ne hlower fun heq => hb ?_) hupper
      revert heq
      cases b.state <;> decide
    exact prev_ne hprev (((hs it.txhash).selected hit rfl hsel).1 b (mem_of_prev hprev hit)
      (hbtx.trans htx) hbsel)
  refine absurd (Option.filter_eq_none_iff.mp h b hprev) (not_not.mpr ?_)
  exact decide_eq_true ⟨hbtx.trans htx, hbready⟩

/-- The selection moves on to the best candidate that is ready. -/
theorem Selection.reselect (hnext : (of n l).nextBest sipHash it = some b)
    (hnew : s = .completed ∨ s = .candidateDelayed) :
    Selection sipHash l
      (update (update state b .candidateBest) it s) := by
  obtain ⟨-, hb, hne, hbtx, -⟩ := nextBest_eq_some hnext hit
  have hother : ∀ a, a ≠ it → a ≠ b → update (update state b .candidateBest) it s a = a.state := by
    intro a hait hab
    rw [update_of_ne hait, update_of_ne hab]
  have hitstate : ¬ s.Selected ∧ s ≠ .candidateReady := by
    rcases hnew with rfl | rfl <;> decide
  refine hs.change it.txhash (.of_others hb hbtx ?_ fun a ha hab hatx => ?_) ?_
  · rw [update_of_ne hne, update_self]
    exact .inl rfl
  · by_cases hait : a = it
    · rw [hait, update_self]
      exact ⟨hitstate.1, fun hready => absurd hready hitstate.2⟩
    · rw [hother a hait hab]
      exact ⟨fun hasel => hait (((hs it.txhash).selected hit rfl hsel).1 a ha hatx hasel),
        fun hready _ => priority_le_nextBest hit hsel hnext ha hatx hready⟩
  · intro a _ hatx
    refine hother a (fun h => hatx (congrArg (·.txhash) h)) fun h => hatx ?_
    rw [h, hbtx]

end

section

variable (hs : Selection sipHash l Announcement.state) (hit : it ∈ l)
  (hnew : s = .completed ∨ s = .candidateDelayed)
  (hlive : s = .completed → ∃ b ∈ l, b ≠ it ∧ b.txhash = it.txhash ∧ b.state ≠ .completed)

include hs hit hnew hlive

/-- A transaction is idle after the change if none of its other announcements is selected or
ready. -/
theorem Selection.alter_idle
    (hidle : ∀ a ∈ l, a ≠ it → a.txhash = it.txhash →
      a.state = .candidateDelayed ∨ a.state = .completed) :
    Selection sipHash l (update state it s) := by
  refine hs.alter (.idle ?_ ?_)
  · intro a ha hatx
    by_cases hait : a = it
    · rw [hait, update_self]
      exact hnew.symm
    · rw [update_of_ne hait]
      exact hidle a ha hait hatx
  · intro _ _ _
    rcases hnew with rfl | rfl
    · obtain ⟨b, hb, hne, hbtx, hstate⟩ := hlive rfl
      refine ⟨b, hb, hbtx, ?_⟩
      rw [update_of_ne hne]
      exact (hidle b hb hne hbtx).resolve_right hstate
    · exact ⟨it, hit, rfl, update_self ..⟩

/-- Without a candidate that is ready the transaction is idle afterwards. -/
theorem Selection.unselect (hsel : it.state.Selected)
    (hnext : (of n l).nextBest sipHash it = none) :
    Selection sipHash l (update state it s) := by
  refine hs.alter_idle hit hnew hlive fun a ha hait hatx => ?_
  have hready := not_ready_of_nextBest hs hit hsel hnext ha hatx
  have hasel : ¬ a.state.Selected := fun hasel =>
    hait (((hs it.txhash).selected hit rfl hsel).1 a ha hatx hasel)
  revert hready hasel
  cases a.state <;> decide

/-- A change of an announcement that is not selected leaves the selection. -/
theorem Selection.keep (hsel : ¬ it.state.Selected) :
    Selection sipHash l (update state it s) := by
  have hitstate : ¬ s.Selected ∧ s ≠ .candidateReady := by
    rcases hnew with rfl | rfl <;> decide
  cases hs it.txhash with
  | chosen c hc htx hcsel =>
    have hne : c ≠ it := by
      rintro rfl
      exact hsel hcsel
    exact hs.alter_other hc hne htx hcsel hitstate.1 fun hready => absurd hready hitstate.2
  | idle idle live => exact hs.alter_idle hit hnew hlive fun a ha _ hatx => idle a ha hatx

/-- Taking an announcement out of the selection may select another candidate of its transaction and
changes nothing else. -/
theorem changeAndReselect_of (hk : Keyed l) :
    ∃ σ, (of n l).changeAndReselect sipHash it s = some (.of n (assign σ l)) ∧
      Selection sipHash l σ ∧
      (∀ a ∈ l, (σ a).settled = (update state it s a).settled) ∧
      ∀ a, a.txhash ≠ it.txhash → σ a = a.state := by
  rw [changeAndReselect, if_pos hnew]
  by_cases hsel : it.isSelected
  · rw [if_pos hsel]
    cases hnext : (of n l).nextBest sipHash it with
    | none =>
      refine ⟨_, ?_, hs.unselect hit hnew hlive hsel hnext, fun _ _ => rfl,
        fun _ htx => update_state_of_txhash_ne htx⟩
      rw [Option.bind_eq_bind, Option.bind_some, modify_state hk hit]
    | some b =>
      obtain ⟨-, hb, hne, hbtx, hready⟩ := nextBest_eq_some hnext hit
      refine ⟨_, ?_, hs.reselect hit hsel hnext hnew, ?_, ?_⟩
      · have hstate : update state b .candidateBest it = it.state :=
          update_of_ne hne.symm _ _
        have hsecond := modify_assign (n := n) hk hit hstate s
        rw [show it.setState it.state = it from rfl] at hsecond
        simp only [modify_state hk hb, Option.bind_eq_bind, Option.bind_some, hsecond]
      · intro a _
        by_cases hait : a = it
        · rw [hait, update_self, update_self]
        · rw [update_of_ne hait, update_of_ne hait]
          by_cases hab : a = b
          · rw [hab, update_self, hready]
            rfl
          · rw [update_of_ne hab]
      · intro a htx
        rw [update_of_ne fun h => htx (congrArg (·.txhash) h), update_of_ne]
        rintro rfl
        exact htx hbtx
  · rw [if_neg hsel]
    refine ⟨_, ?_, hs.keep hit hnew hlive hsel, fun _ _ => rfl,
        fun _ htx => update_state_of_txhash_ne htx⟩
    rw [Option.bind_eq_bind, Option.bind_some, modify_state hk hit]

end

/-! ## 4. `MakeCompleted` -/

theorem isOnlyNonCompleted_of (hl : l.Nodup) (hit : it ∈ l) (hstate : it.state ≠ .completed) :
    (of n l).isOnlyNonCompleted sipHash it =
      some (decide (∀ a ∈ l, a ≠ it → a.txhash = it.txhash → a.state = .completed)) := by
  have hindex : it ∈ (of n l).index := hit
  rw [isOnlyNonCompleted, if_pos ⟨hindex, hstate⟩]
  split
  · next hprev =>
    obtain ⟨b, hb, htx⟩ := (Option.any_eq_true _ _).mp hprev
    have htx := of_decide_eq_true htx
    have hrank := (rank_le (le_prev hit hb) htx).trans_lt (State.rank_lt_four.mpr hstate)
    rw [decide_eq_false fun h => State.rank_lt_four.mp hrank
      (h b (mem_of_prev hb hit) (prev_ne hb) htx)]
  · next hprev =>
    split
    · next hnext =>
      obtain ⟨b, hb, hcond⟩ := (Option.any_eq_true _ _).mp hnext
      obtain ⟨htx, hnot⟩ := of_decide_eq_true hcond
      rw [decide_eq_false fun h => hnot (h b (mem_of_next hb hit) (next_ne hl hit hb) htx)]
    · next hnext =>
      rw [decide_eq_true]
      intro a ha hne htx
      rcases neighbours (·.byTxHash sipHash) hit ha hne with ⟨b, hb, hle⟩ | ⟨b, hb, hle⟩
      · have hbtx := txhash_eq_of_between hle (le_prev hit hb) htx
        exact absurd ((Option.any_eq_true _ _).mpr ⟨b, hb, decide_eq_true (hbtx.trans htx)⟩) hprev
      · have hbtx := txhash_eq_of_between (next_le hit hb) hle htx.symm
        have hbstate : b.state = .completed := by
          by_contra hbstate
          exact hnext ((Option.any_eq_true _ _).mpr ⟨b, hb, decide_eq_true ⟨hbtx, hbstate⟩⟩)
        have hrank := rank_le hle (hbtx.trans htx.symm)
        rw [hbstate] at hrank
        by_contra hastate
        exact absurd (State.rank_lt_four.mpr hastate) (not_lt.mpr hrank)

variable (sipHash) in
/-- The deleting loop of `MakeCompleted` goes over the announcements of the transaction. -/
theorem mem_deleted (hit : it ∈ l) (hstate : it.state ≠ .completed)
    (honly : ∀ a ∈ l, a ≠ it → a.txhash = it.txhash → a.state = .completed) :
    (a ∈ it :: (after (·.byTxHash sipHash) l it).takeWhile fun ann =>
      decide (ann.txhash = it.txhash)) ↔ a ∈ l ∧ a.txhash = it.txhash := by
  constructor
  · intro ha
    rcases mem_cons.mp ha with rfl | ha
    · exact ⟨hit, rfl⟩
    · exact ⟨(mem_iff_before_or_after _ hit).mpr (.inr (.inr ((takeWhile_sublist _).subset ha))),
        by simpa using mem_takeWhile_imp ha⟩
  · rintro ⟨ha, htx⟩
    rcases (mem_iff_before_or_after (·.byTxHash sipHash) hit).mp ha with hbefore | rfl | hafter
    · -- completed announcements come last
      have hrank := (rank_le (le_of_mem_before hit hbefore) htx).trans_lt
        (State.rank_lt_four.mpr hstate)
      exact absurd (honly a ha (ne_of_mem_before hbefore) htx) (State.rank_lt_four.mp hrank)
    · exact mem_cons_self
    · refine mem_cons_of_mem _ (mem_takeWhile_of_sorted (pairwise_after _ hit) hafter ?_)
      intro b hb hle
      exact decide_eq_true (txhash_eq_of_between (le_of_mem_after hit hb) hle htx.symm)

theorem exchange_setState : exchange it (it.setState s) l =
    assign (update state it s) l := by
  refine map_congr_left fun a _ => ?_
  by_cases ha : a = it
  · rw [if_pos ha, ha, update_self]
  · rw [if_neg ha, update_of_ne ha]
    rfl

/-- The announcements after the last one of a transaction that was not completed is. -/
theorem forgetFailed_only (h : Sane sipHash l)
    (honly : ∀ a ∈ l, a ≠ it → a.txhash = it.txhash → a.state = .completed) :
    forgetFailed (settle (exchange it (it.setState .completed) l)) =
      settle (l.filter (·.txhash ≠ it.txhash)) := by
  have hexchange : ∀ a ∈ l, ((settled ∘ fun ann =>
      if ann = it then it.setState .completed else ann) a).txhash = a.txhash := by
    intro a _
    by_cases ha : a = it
    · rw [comp_apply, if_pos ha, ha]
      rfl
    · rw [comp_apply, if_neg ha]
      rfl
  rw [settle, exchange, map_map, forgetFailed_map hexchange]
  have hfilter : (l.filter fun ann => decide (∃ b ∈ l, b.txhash = ann.txhash ∧
      (settled (if b = it then it.setState .completed else b)).state ≠ .completed)) =
      l.filter (·.txhash ≠ it.txhash) := by
    refine filter_congr fun a ha => decide_eq_decide.mpr ⟨?_, ?_⟩
    · rintro ⟨b, hb, htx, hstate⟩ hatx
      have hstate := State.settled_ne_completed.mp hstate
      by_cases hbit : b = it
      · rw [if_pos hbit] at hstate
        exact hstate rfl
      · rw [if_neg hbit] at hstate
        exact hstate (honly b hb hbit (htx.trans hatx))
    · intro hatx
      obtain ⟨b, hb, htx, hstate⟩ := h.live ha
      have hbit : b ≠ it := by
        rintro rfl
        exact hatx htx.symm
      refine ⟨b, hb, htx, ?_⟩
      rw [if_neg hbit]
      exact State.settled_ne_completed.mpr hstate
  refine (congrArg _ hfilter).trans (map_congr_left fun a ha => ?_)
  have hne : a ≠ it := by
    rintro rfl
    simpa using of_mem_filter ha
  rw [comp_apply, if_neg hne]

/-- Completing an announcement: the transaction is forgotten if that was the last announcement that
was not completed; otherwise the selection may move on. -/
theorem makeCompleted_of (h : Sane sipHash l) (hit : it ∈ l) :
    ∃ l' still, (of n l).makeCompleted sipHash it = some (.of n l', still) ∧
      Sane sipHash l' ∧
      settle l' = forgetFailed (settle (exchange it (it.setState .completed) l)) ∧
      (∀ a, a.txhash ≠ it.txhash → (a ∈ l' ↔ a ∈ l)) ∧
      (still = true → it.setState .completed ∈ l') ∧
      (still = false → ∀ a ∈ l', a.txhash ≠ it.txhash) := by
  have hindex : it ∈ (of n l).index := hit
  rw [makeCompleted, if_pos hindex]
  by_cases hstate : it.state = .completed
  · have hsame : it.setState .completed = it := by rw [← hstate]; rfl
    refine ⟨l, true, if_pos hstate, h, ?_, fun _ _ => Iff.rfl, fun _ => hsame ▸ hit,
      nofun⟩
    have hexchange : exchange it it l = l := map_eq_self fun a _ => by
      by_cases ha : a = it
      · rw [if_pos ha, ha]
      · rw [if_neg ha]
    rw [hsame, hexchange, forgetFailed_settle fun a ha => h.live ha]
  · rw [if_neg hstate, isOnlyNonCompleted_of h.keyed.nodup hit hstate, Option.bind_some, index_of]
    by_cases honly : ∀ a ∈ l, a ≠ it → a.txhash = it.txhash → a.state = .completed
    · rw [decide_eq_true honly, if_pos rfl]
      have hmem := fun a => mem_deleted (a := a) sipHash hit hstate honly
      have hnodup := (nodup_cons_after (·.byTxHash sipHash) h.keyed.nodup hit).sublist
        ((takeWhile_sublist (·.txhash = it.txhash)).cons_cons it)
      have hfilter : (l.filter fun ann =>
          decide (ann ∉ it :: (after (·.byTxHash sipHash) l it).takeWhile (·.txhash = it.txhash))) =
          l.filter (·.txhash ≠ it.txhash) := by
        refine filter_congr fun a ha => decide_eq_decide.mpr (not_congr ?_)
        rw [hmem a]
        exact ⟨And.right, fun htx => ⟨ha, htx⟩⟩
      refine ⟨_, false, ?_, h.forget it.txhash, (forgetFailed_only h honly).symm, ?_, ?_, ?_⟩
      · rw [eraseAll_of h.keyed.nodup hnodup fun a ha => ((hmem a).mp ha).1, hfilter,
          Option.map_some]
      · intro a htx
        rw [mem_filter, decide_eq_true_iff, and_iff_left htx]
      · nofun
      · intro _ a ha
        simpa using of_mem_filter ha
    · rw [decide_eq_false honly]
      push Not at honly
      obtain ⟨b, hb, hne, htx, hbstate⟩ := honly
      obtain ⟨σ, hσ, hsel, hsettled, hother⟩ := changeAndReselect_of h.selection hit
        (.inl rfl : State.completed = .completed ∨ _) (fun _ => ⟨b, hb, hne, htx, hbstate⟩) h.keyed
      have hsane := Sane.assign h.keyed hsel
      refine ⟨assign σ l, true, ?_, hsane, ?_, ?_, ?_, nofun⟩
      · rw [hσ]
        rfl
      · have hlive : ∀ a ∈ assign σ l, ∃ b ∈ assign σ l, b.txhash = a.txhash ∧
            b.state ≠ .completed := fun a ha => hsane.live ha
        rw [exchange_setState, ← settle_assign hsettled, forgetFailed_settle hlive]
      · intro a htx
        rw [mem_assign]
        constructor
        · rintro ⟨c, hc, rfl⟩
          rwa [hother c htx]
        · intro ha
          exact ⟨a, ha, by rw [hother a htx]; rfl⟩
      · intro _
        refine mem_assign.mpr ⟨it, hit, ?_⟩
        have hit' := hsettled it hit
        rw [update_self] at hit'
        have : σ it = .completed := by
          revert hit'
          cases σ it <;> decide
        rw [this]

end RgmNode.TxRequest
