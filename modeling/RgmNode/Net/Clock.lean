import RgmNode.Net.Settling

/-!
# Moving the tracker to a point in time

The two loops of `SetTimePoint` end, and what they do together has a closed form: `elapse` for every
announcement whose time has come, transactions without hope forgotten, `rewind` for every candidate
whose time is in the future.  The order in which the loops meet the announcements does not show.
-/

namespace RgmNode.TxRequest

open OrderedView List Announcement Tracker

variable {Peer Hash : Type} {sipHash : Hash → Peer → UInt64} {n : Nat} {now : Int}
  {l l' : List (Announcement Peer Hash)} {it a b : Announcement Peer Hash}

/-! ## 1. What the time does to an announcement -/

def Announcement.overdue (now : Int) (ann : Announcement Peer Hash) : Prop :=
  ann.state = .requested ∧ ann.time ≤ now

/-- An announcement that waited for a time that has come. -/
def Announcement.due (now : Int) (ann : Announcement Peer Hash) : Prop :=
  ann.isWaiting ∧ ann.time ≤ now

/-- A candidate that is ready too early. -/
def Announcement.early (now : Int) (ann : Announcement Peer Hash) : Prop :=
  ann.isSelectable ∧ now < ann.time

instance : Decidable (a.overdue now) := inferInstanceAs (Decidable (_ ∧ _))

instance : Decidable (a.due now) := inferInstanceAs (Decidable (_ ∧ _))

instance : Decidable (a.early now) := inferInstanceAs (Decidable (_ ∧ _))

/-- A delayed candidate becomes ready at its time, a request is completed when it expires. -/
def Announcement.elapse (now : Int) (ann : Announcement Peer Hash) : Announcement Peer Hash :=
  if ann.time ≤ now then
    match ann.state with
    | .candidateDelayed => ann.setState .candidateReady
    | .requested => ann.setState .completed
    | _ => ann
  else ann

/-- A candidate whose time is in the future is delayed. -/
def Announcement.rewind (now : Int) (ann : Announcement Peer Hash) : Announcement Peer Hash :=
  if ann.early now then ann.setState .candidateDelayed else ann

theorem elapse_of_delayed (h : a.state = .candidateDelayed) (ht : a.time ≤ now) :
    a.elapse now = a.setState .candidateReady := by
  rw [elapse, if_pos ht, h]

theorem elapse_of_requested (h : a.state = .requested) (ht : a.time ≤ now) :
    a.elapse now = a.setState .completed := by
  rw [elapse, if_pos ht, h]

theorem elapse_of_not_due (h : ¬ a.due now) : a.elapse now = a := by
  rw [elapse]
  split
  · next ht =>
    split
    · next hs => exact absurd ⟨.inr hs, ht⟩ h
    · next hs => exact absurd ⟨.inl hs, ht⟩ h
    · rfl
  · rfl

@[simp] theorem elapse_txhash : (a.elapse now).txhash = a.txhash := by
  rw [elapse]
  split
  · split <;> rfl
  · rfl

theorem elapse_completed (h : a.state = .completed) : (a.elapse now).state = .completed := by
  rw [elapse, h]
  split <;> exact h

theorem not_due_elapse : ¬ (a.elapse now).due now := by
  by_cases hdue : a.due now
  · rcases hdue with ⟨hs | hs, ht⟩
    · rw [elapse_of_requested hs ht]
      rintro ⟨h | h, -⟩ <;> cases h
    · rw [elapse_of_delayed hs ht]
      rintro ⟨h | h, -⟩ <;> cases h
  · rwa [elapse_of_not_due hdue]

@[simp] theorem elapse_elapse : (a.elapse now).elapse now = a.elapse now :=
  elapse_of_not_due not_due_elapse

theorem due_of_overdue (h : a.overdue now) : a.due now := ⟨.inl h.1, h.2⟩

@[simp] theorem due_settled : a.settled.due now ↔ a.due now := by
  refine and_congr_left' ?_
  change a.state.settled = .requested ∨ a.state.settled = .candidateDelayed ↔
    a.state = .requested ∨ a.state = .candidateDelayed
  cases a.state <;> decide

@[simp] theorem overdue_settled : a.settled.overdue now ↔ a.overdue now := by
  refine and_congr_left' ?_
  change a.state.settled = .requested ↔ a.state = .requested
  cases a.state <;> decide

@[simp] theorem early_settled : a.settled.early now ↔ a.early now := by
  refine and_congr_left' ?_
  change a.state.settled = .candidateReady ∨ a.state.settled = .candidateBest ↔
    a.state = .candidateReady ∨ a.state = .candidateBest
  cases a.state <;> decide

theorem elapse_settled : a.settled.elapse now = (a.elapse now).settled := by
  obtain ⟨txhash, time, peer, sequence, preferred, state⟩ := a
  by_cases ht : time ≤ now <;> cases state <;>
    simp [elapse, settled, setState, State.settled, ht]

theorem rewind_settled : a.settled.rewind now = (a.rewind now).settled := by
  by_cases h : a.early now
  · rw [rewind, if_pos (early_settled.mpr h), rewind, if_pos h]
    rfl
  · rw [rewind, if_neg (mt early_settled.mp h), rewind, if_neg h]

theorem not_early_rewind : ¬ (a.rewind now).early now := by
  rw [rewind]
  split
  · rintro ⟨h | h, -⟩ <;> cases h
  · next h => exact h

@[simp] theorem rewind_rewind : (a.rewind now).rewind now = a.rewind now :=
  if_neg not_early_rewind

def expired (now : Int) (l : List (Announcement Peer Hash)) : List (Peer × Hash) :=
  (l.filter (·.overdue now)).map fun ann => (ann.peer, ann.txhash)

theorem expired_settle : expired now (settle l) = expired now l := by
  rw [expired, settle, filter_map, map_map]
  congr 1
  refine filter_congr fun a _ => ?_
  simp

theorem settle_map {f : Announcement Peer Hash → Announcement Peer Hash}
    (hf : ∀ a, f a.settled = (f a).settled) : settle (l.map f) = (settle l).map f := by
  rw [settle, settle, map_map, map_map]
  exact map_congr_left fun a _ => (hf a).symm

theorem settle_map_elapse : settle (l.map (·.elapse now)) = (settle l).map (·.elapse now) :=
  settle_map fun _ => elapse_settled

theorem settle_map_rewind : settle (l.map (·.rewind now)) = (settle l).map (·.rewind now) :=
  settle_map fun _ => rewind_settled

theorem countP_settle {p : Announcement Peer Hash → Bool} (hp : ∀ a, p a.settled = p a) :
    (settle l).countP p = l.countP p := by
  rw [settle, countP_map]
  exact countP_congr fun a _ => by rw [Function.comp_apply, hp a]

theorem expired_perm (h : l.Perm l') : (expired now l).Perm (expired now l') :=
  (h.filter _).map _

theorem expired_eq_nil (hdue : ∀ a ∈ l, ¬ a.due now) : expired now l = [] := by
  rw [expired, filter_eq_nil_iff.mpr, map_nil]
  intro a ha hover
  exact hdue a ha (due_of_overdue (of_decide_eq_true hover))

/-! ## 2. The ends of the view by time -/

theorem byTime_le : a.byTime ≤ b.byTime ↔
    a.getWaitState ≤ b.getWaitState ∧ (a.getWaitState = b.getWaitState → a.time ≤ b.time) := by
  rw [byTime, byTime, Prod.Lex.toLex_le_toLex']

theorem getWaitState_eq_zero : a.getWaitState = 0 ↔ a.isWaiting := by
  rw [getWaitState]
  split
  · next h => exact ⟨fun _ => h, fun _ => rfl⟩
  · next h => split <;> exact ⟨nofun, fun hw => absurd hw h⟩

theorem getWaitState_eq_two : a.getWaitState = 2 ↔ a.isSelectable := by
  rw [getWaitState]
  split
  · next h =>
    refine ⟨nofun, fun hsel => ?_⟩
    rcases h with h | h <;> rcases hsel with h' | h' <;> rw [h] at h' <;> cases h'
  · split
    · next h => exact ⟨fun _ => h, fun _ => rfl⟩
    · next h => exact ⟨nofun, fun hsel => absurd hsel h⟩

theorem getWaitState_le_two : a.getWaitState ≤ 2 := by
  rw [getWaitState]
  split
  · exact Nat.zero_le _
  · split <;> decide

theorem not_due_of_first (h : first byTime l = some it) (hit : ¬ it.due now)
    (ha : a ∈ l) : ¬ a.due now := by
  rintro ⟨hwaiting, htime⟩
  obtain ⟨hstate, hle⟩ := byTime_le.mp (first_le h ha)
  rw [getWaitState_eq_zero.mpr hwaiting, Nat.le_zero] at hstate
  rw [getWaitState_eq_zero.mpr hwaiting] at hle
  exact hit ⟨getWaitState_eq_zero.mp hstate, (hle hstate).trans htime⟩

theorem not_early_of_last (h : last byTime l = some it) (hit : ¬ it.early now)
    (ha : a ∈ l) : ¬ a.early now := by
  rintro ⟨hselectable, htime⟩
  obtain ⟨hstate, hle⟩ := byTime_le.mp (le_last h ha)
  rw [getWaitState_eq_two.mpr hselectable] at hstate hle
  have hstate := le_antisymm getWaitState_le_two hstate
  exact hit ⟨getWaitState_eq_two.mp hstate, htime.trans_le (hle hstate.symm)⟩

/-! ## 3. One announcement whose time has come -/

section Forget

variable [DecidableEq Hash]

/-- A request that has expired is not completed, so its transaction is not forgotten. -/
theorem expired_forgetFailed : expired now (forgetFailed l) = expired now l := by
  rw [expired, forgetFailed, filter_filter]
  congr 1
  refine filter_congr fun a ha => ?_
  by_cases hover : a.overdue now
  · have hlive : ∃ b ∈ l, b.txhash = a.txhash ∧ b.state ≠ .completed :=
      ⟨a, ha, rfl, by rw [hover.1]; decide⟩
    rw [decide_eq_true hover, decide_eq_true hlive]
    rfl
  · rw [decide_eq_false hover, Bool.false_and]

theorem settle_map_elapse_of_not_due (h : Sane sipHash l) (hdue : ∀ a ∈ l, ¬ a.due now) :
    settle l = forgetFailed (settle (l.map (·.elapse now))) := by
  have hmap : l.map (·.elapse now) = l := map_eq_self fun a ha => elapse_of_not_due (hdue a ha)
  rw [hmap, forgetFailed_settle fun a ha => h.live ha]

end Forget

variable [LinearOrder Peer] [LinearOrder Hash]

/-- A round counts fewer announcements that are left to do, if the one it was about is not. -/
theorem countP_exchange_lt {p : Announcement Peer Hash → Bool} (hp : ∀ a, p a.settled = p a)
    (hl : l.Nodup) (hit : it ∈ l) (hpit : p it = true) (hb : p b = false)
    (h : (settle l').Sublist (settle (exchange it b l))) : l'.countP p < l.countP p :=
  calc l'.countP p
      = (settle l').countP p := (countP_settle hp).symm
    _ ≤ (settle (exchange it b l)).countP p := h.countP_le
    _ = (exchange it b l).countP p := countP_settle hp
    _ = (l.filter (· ≠ it)).countP p := by
        rw [(exchange_perm hl hit).countP_eq, countP_cons_of_neg (by rw [hb]; decide)]
    _ < l.countP p := by
        rw [(perm_cons_filter hl hit).countP_eq, countP_cons_of_pos hpit]
        exact Nat.lt_succ_self _

theorem countP_due_lt (hl : l.Nodup) (hit : it ∈ l) (hdue : it.due now)
    (h : settle l' = forgetFailed (settle (exchange it (it.elapse now) l))) :
    l'.countP (·.due now) < l.countP (·.due now) :=
  countP_exchange_lt (fun _ => decide_eq_decide.mpr due_settled) hl hit (decide_eq_true hdue)
    (decide_eq_false not_due_elapse) (by rw [h]; exact filter_sublist)

/-- The time may pass for one announcement first and then for all. -/
theorem forgetFailed_elapse (h : settle l' = forgetFailed (settle (exchange it (it.elapse now) l))) :
    forgetFailed (settle (l'.map (·.elapse now))) = forgetFailed (settle (l.map (·.elapse now))) := by
  have hexchange : (exchange it (it.elapse now) l).map (·.elapse now) = _ :=
    map_exchange elapse_elapse
  rw [settle_map_elapse, h, forgetFailed_map_forgetFailed (fun _ => elapse_txhash)
    (fun _ => elapse_completed), ← settle_map_elapse, hexchange]

/-- The expired requests without one announcement whose time has come. -/
theorem expired_perm_cons (hl : l.Nodup) (hit : it ∈ l)
    (h : settle l' = forgetFailed (settle (exchange it (it.elapse now) l))) :
    (expired now l).Perm (expired now [it] ++ expired now l') := by
  have hl' : expired now l' = expired now (exchange it (it.elapse now) l) := by
    rw [← expired_settle, h, expired_forgetFailed, expired_settle]
  have hrest : (expired now (exchange it (it.elapse now) l)).Perm
      (expired now (l.filter (· ≠ it))) := by
    refine (expired_perm (exchange_perm hl hit)).trans (.of_eq ?_)
    rw [expired, filter_cons_of_neg, expired]
    simpa using fun hover => not_due_elapse (due_of_overdue hover)
  have hall : (expired now l).Perm
      (expired now [it] ++ expired now (l.filter (· ≠ it))) := by
    refine (expired_perm (perm_cons_filter hl hit)).trans (.of_eq ?_)
    rw [expired, expired, expired, ← map_append, ← filter_append]
    rfl
  rw [hl']
  exact hall.trans (hrest.symm.append_left _)

/-! ## 4. The loops -/

variable {fuel : Nat} {t : Tracker Peer Hash}

variable (now) in
theorem advance_of (h : Sane sipHash l) (acc : List (Peer × Hash))
    (hfuel : l.countP (·.due now) < fuel) :
    ∃ l' done, (of n l).advance sipHash now fuel acc = some (.of n l', acc ++ done) ∧
      Sane sipHash l' ∧ settle l' = forgetFailed (settle (l.map (·.elapse now))) ∧
      done.Perm (expired now l) := by
  induction fuel generalizing l acc with
  | zero => exact absurd hfuel (Nat.not_lt_zero _)
  | succ fuel ih =>
    -- what is left to do once one round has led to `l₁`
    have hround : ∀ (it : Announcement Peer Hash) (l₁ : List (Announcement Peer Hash))
        (acc : List (Peer × Hash)), it ∈ l → it.due now → Sane sipHash l₁ →
        settle l₁ = forgetFailed (settle (exchange it (it.elapse now) l)) →
        ∃ l' done, (of n l₁).advance sipHash now fuel (acc ++ expired now [it]) =
            some (.of n l', acc ++ done) ∧
          Sane sipHash l' ∧ settle l' = forgetFailed (settle (l.map (·.elapse now))) ∧
          done.Perm (expired now l) := by
      intro it l₁ acc hit hdue h₁ hsettle
      have hless := countP_due_lt h.keyed.nodup hit hdue hsettle
      obtain ⟨l', done, hrun, hsane, hl', hdone⟩ := ih h₁ (acc ++ expired now [it])
        (hless.trans_le (Nat.lt_succ_iff.mp hfuel))
      refine ⟨l', expired now [it] ++ done, by rw [hrun, append_assoc], hsane,
        hl'.trans (forgetFailed_elapse hsettle), ?_⟩
      exact (hdone.append_left _).trans (expired_perm_cons h.keyed.nodup hit hsettle).symm
    rw [advance, index_of]
    cases hfirst : first byTime l with
    | none =>
      obtain rfl := first_eq_none.mp hfirst
      exact ⟨[], [], by simp, h, rfl, .refl _⟩
    | some it =>
      have hit := mem_of_first hfirst
      simp only
      split
      · next hdelayed =>
        obtain ⟨σ, hσ, hsel, hsettled⟩ :=
          promoteCandidateReady_of (n := n) h.selection h.keyed hit hdelayed.1
        have h₁ := Sane.assign h.keyed hsel
        have hsettle : settle (assign σ l) =
            forgetFailed (settle (exchange it (it.elapse now) l)) := by
          rw [elapse_of_delayed hdelayed.1 hdelayed.2, exchange_setState, ← settle_assign hsettled,
            forgetFailed_settle fun a ha => h₁.live ha]
        have hempty : expired now [it] = [] := by
          rw [expired, filter_cons_of_neg, filter_nil, map_nil]
          simp [overdue, hdelayed.1]
        have hrest := hround it (assign σ l) acc hit ⟨.inr hdelayed.1, hdelayed.2⟩ h₁ hsettle
        rw [hempty, append_nil] at hrest
        rw [hσ, Option.bind_eq_bind, Option.bind_some]
        exact hrest
      · next hdelayed =>
        split
        · next hrequested =>
          obtain ⟨l₁, still, hrun, h₁, hsettle, -⟩ := makeCompleted_of (n := n) h hit
          rw [← elapse_of_requested hrequested.1 hrequested.2] at hsettle
          have hover : it.overdue now := hrequested
          have hone : expired now [it] = [(it.peer, it.txhash)] := by
            rw [expired, filter_cons_of_pos (by simpa using hover)]
            rfl
          have hrest := hround it l₁ acc hit ⟨.inl hrequested.1, hrequested.2⟩ h₁ hsettle
          rw [hone] at hrest
          rw [hrun, Option.bind_eq_bind, Option.bind_some]
          exact hrest
        · next hrequested =>
          have hnone : ∀ a ∈ l, ¬ a.due now := fun a ha => by
            refine not_due_of_first hfirst ?_ ha
            rintro ⟨hstate | hstate, htime⟩
            · exact hrequested ⟨hstate, htime⟩
            · exact hdelayed ⟨hstate, htime⟩
          refine ⟨l, [], by rw [append_nil], h, settle_map_elapse_of_not_due h hnone, ?_⟩
          rw [expired_eq_nil hnone]

variable (now) in
theorem retreat_of (h : Sane sipHash l)
    (hfuel : l.countP (·.early now) < fuel) :
    ∃ l', (of n l).retreat sipHash now fuel = some (.of n l') ∧ Sane sipHash l' ∧
      settle l' = settle (l.map (·.rewind now)) := by
  induction fuel generalizing l with
  | zero => exact absurd hfuel (Nat.not_lt_zero _)
  | succ fuel ih =>
    rw [retreat, index_of]
    cases hlast : last byTime l with
    | none =>
      obtain rfl := last_eq_none.mp hlast
      exact ⟨[], rfl, h, rfl⟩
    | some it =>
      have hit := mem_of_last hlast
      simp only
      split
      · next hearly =>
        obtain ⟨σ, hσ, hsel, hsettled, -⟩ := changeAndReselect_of h.selection hit
          (.inr rfl : State.candidateDelayed = .completed ∨ _) nofun
          h.keyed
        have hrewind : it.rewind now = it.setState .candidateDelayed := if_pos hearly
        have hsettle : settle (assign σ l) = settle (exchange it (it.rewind now) l) := by
          rw [hrewind, exchange_setState, settle_assign hsettled]
        have hless := countP_exchange_lt (p := (·.early now))
          (fun _ => decide_eq_decide.mpr early_settled) h.keyed.nodup hit (decide_eq_true hearly)
          (decide_eq_false not_early_rewind) (by rw [hsettle])
        obtain ⟨l', hrun, hsane, hl'⟩ := ih (Sane.assign h.keyed hsel)
          (hless.trans_le (Nat.lt_succ_iff.mp hfuel))
        refine ⟨l', by rw [hσ, Option.bind_eq_bind, Option.bind_some, hrun], hsane, hl'.trans ?_⟩
        have hexchange : (exchange it (it.rewind now) l).map (·.rewind now) = _ :=
          map_exchange rewind_rewind
        rw [settle_map_rewind, hsettle, ← settle_map_rewind, hexchange]
      · next hearly =>
        have hmap : l.map (·.rewind now) = l := map_eq_self fun a ha =>
          if_neg (not_early_of_last hlast hearly ha)
        exact ⟨l, rfl, h, by rw [hmap]⟩

variable (now) in
theorem setTimePoint_of (h : Sane sipHash l) (hfuel : l.length < fuel) :
    ∃ l' done, (of n l).setTimePoint sipHash fuel now = some (.of n l', done) ∧
      Sane sipHash l' ∧
      settle l' = (forgetFailed ((settle l).map (·.elapse now))).map (·.rewind now) ∧
      done.Perm (expired now l) := by
  obtain ⟨l₁, done, hrun₁, h₁, hl₁, hdone⟩ := advance_of (n := n) now h [] <|
    countP_le_length.trans_lt hfuel
  have hlength : l₁.length ≤ l.length := by
    have hsub : (settle l₁).length ≤ (settle (l.map (·.elapse now))).length := by
      rw [hl₁]
      exact length_filter_le _ _
    simpa [settle] using hsub
  obtain ⟨l₂, hrun₂, h₂, hl₂⟩ := retreat_of (n := n) now h₁ <|
    (countP_le_length.trans hlength).trans_lt hfuel
  refine ⟨l₂, done, ?_, h₂, ?_, hdone⟩
  · simp only [setTimePoint, hrun₁, hrun₂, nil_append, Option.bind_eq_bind,
      Option.bind_some, Option.pure_def]
  · rw [hl₂, settle_map_rewind, hl₁, settle_map_elapse]

/-! ## 5. Larger bounds -/

theorem advance_succ {acc : List (Peer × Hash)} {r : Tracker Peer Hash × List (Peer × Hash)}
    (h : t.advance sipHash now fuel acc = some r) :
    t.advance sipHash now (fuel + 1) acc = some r := by
  induction fuel generalizing t acc with
  | zero => cases h
  | succ fuel ih =>
    rw [advance] at h ⊢
    cases hfirst : first byTime t.index with
    | none =>
      rw [hfirst] at h
      exact h
    | some it =>
      rw [hfirst] at h
      simp only at h ⊢
      split at h
      · next hdelayed =>
        rw [if_pos hdelayed]
        obtain ⟨t', ht', hrest⟩ := Option.bind_eq_some_iff.mp h
        exact Option.bind_eq_some_iff.mpr ⟨t', ht', ih hrest⟩
      · next hdelayed =>
        rw [if_neg hdelayed]
        split at h
        · next hrequested =>
          rw [if_pos hrequested]
          obtain ⟨r', hr', hrest⟩ := Option.bind_eq_some_iff.mp h
          exact Option.bind_eq_some_iff.mpr ⟨r', hr', ih hrest⟩
        · next hrequested =>
          rw [if_neg hrequested]
          exact h

theorem retreat_succ {t' : Tracker Peer Hash} (h : t.retreat sipHash now fuel = some t') :
    t.retreat sipHash now (fuel + 1) = some t' := by
  induction fuel generalizing t with
  | zero => cases h
  | succ fuel ih =>
    rw [retreat] at h ⊢
    cases hlast : last byTime t.index with
    | none =>
      rw [hlast] at h
      exact h
    | some it =>
      rw [hlast] at h
      simp only at h ⊢
      split at h
      · next hearly =>
        rw [if_pos hearly]
        obtain ⟨t₁, ht₁, hrest⟩ := Option.bind_eq_some_iff.mp h
        exact Option.bind_eq_some_iff.mpr ⟨t₁, ht₁, ih hrest⟩
      · next hearly =>
        rw [if_neg hearly]
        exact h

theorem setTimePoint_mono {fuel' : Nat} (hle : fuel ≤ fuel')
    {r : Tracker Peer Hash × List (Peer × Hash)} (h : t.setTimePoint sipHash fuel now = some r) :
    t.setTimePoint sipHash fuel' now = some r := by
  induction hle with
  | refl => exact h
  | step _ ih =>
    obtain ⟨r₁, hr₁, hrest⟩ := Option.bind_eq_some_iff.mp ih
    obtain ⟨t₂, ht₂, hpure⟩ := Option.bind_eq_some_iff.mp hrest
    exact Option.bind_eq_some_iff.mpr ⟨r₁, advance_succ hr₁,
      Option.bind_eq_some_iff.mpr ⟨t₂, retreat_succ ht₂, hpure⟩⟩

end RgmNode.TxRequest
