import RgmNode.Consensus.Chain

/-!
# Version bits

`GetStateFor` and `GetStateSinceHeightFor` of `versionbits.cpp`.  The state of a block is that of
its period.  The code walks back to a period whose state is cached, or whose median time is before
the start.  That is right because the median time never falls along a chain.

* `getMedianTimePast_mono` — the median time along a chain
* `Sound` — what is cached is the state by periods; `getStateFor_eq`
-/

namespace RgmNode

open Lineage List Function

namespace CBlockIndex

/-- `GetAncestor(nHeight - k)`, which is null if that is negative -/
def goBack (p : CBlockIndex) (k : Nat) : Option CBlockIndex :=
  if k ≤ p.nHeight then p.getAncestor (p.nHeight - k) else none

/-- Every header from an entry back to its root is later than the median time before it. -/
def Timed (p : CBlockIndex) : Prop :=
  ∀ (q : CBlockIndex) (d : BlockIndexData), .child q d ≤ p → q.getMedianTimePast < d.nTime.toNat

theorem Timed.mono {p q : CBlockIndex} (hp : p.Timed) (hle : q ≤ p) : q.Timed :=
  fun r d h => hp r d (h.trans hle)

theorem getMedianTimePast_mono {p q : CBlockIndex} (hp : p.Timed) (hle : q ≤ p) :
    q.getMedianTimePast ≤ p.getMedianTimePast := by
  induction hle with
  | refl => exact le_refl _
  | @step r d hqr ih =>
    refine (ih (hp.mono (.step (.refl r)))).trans ?_
    exact Median.median_le_window 10 (times_ne_nil r) (hp r d (le_refl _)).le

theorem goBack_eq_some_iff {p q : CBlockIndex} {k : Nat} :
    p.goBack k = some q ↔ q ≤ p ∧ q.nHeight + k = p.nHeight := by
  unfold goBack getAncestor
  split
  · rw [ancestorAt_eq_some_iff]
    refine and_congr_right fun _ => ?_
    show q.nHeight = _ ↔ _
    omega
  · refine ⟨nofun, fun h => ?_⟩
    omega

end CBlockIndex

inductive ThresholdState
  | defined | started | lockedIn | active | failed
deriving DecidableEq, Repr

/-- `AbstractThresholdConditionChecker` with its parameters -/
structure ThresholdConditionChecker where
  condition : CBlockIndex → Bool
  beginTime : Int
  endTime : Int
  period : Nat
  threshold : Int
  period_pos : 0 < period

abbrev ThresholdConditionCache := Option CBlockIndex → Option ThresholdState

namespace ThresholdConditionChecker

variable (c : ThresholdConditionChecker)

/-! ## 1. The code -/

/-- `pindexCount`, with `n` rounds to go -/
def count : Nat → Option CBlockIndex → Nat
  | n + 1, some p => (if c.condition p then 1 else 0) + count n p.pprev
  | _, _ => 0

/-- The `switch` -/
def stateNext (state : ThresholdState) (pindexPrev : CBlockIndex) : ThresholdState :=
  match state with
  | .defined =>
    if pindexPrev.getMedianTimePast ≥ c.endTime then .failed
    else if pindexPrev.getMedianTimePast ≥ c.beginTime then .started
    else .defined
  | .started =>
    if pindexPrev.getMedianTimePast ≥ c.endTime then .failed
    else if (c.count c.period (some pindexPrev) : Int) ≥ c.threshold then .lockedIn
    else .started
  | .lockedIn => .active
  | .failed => .failed
  | .active => .active

/-- The walk backwards: `vToCompute`, the last one first, the state found and the cache -/
def walkBack (pindexPrev : Option CBlockIndex) (cache : ThresholdConditionCache)
    (vToCompute : List CBlockIndex) :
    List CBlockIndex × ThresholdState × ThresholdConditionCache :=
  match cache pindexPrev, pindexPrev with
  | some state, _ => (vToCompute, state, cache)
  | none, none => (vToCompute, .defined, update cache none (some .defined))
  | none, some p =>
    if p.getMedianTimePast < c.beginTime then
      (vToCompute, .defined, update cache (some p) (some .defined))
    else walkBack (p.goBack c.period) cache (p :: vToCompute)
termination_by (pindexPrev.map (·.nHeight + 1)).getD 0
decreasing_by
  have := c.period_pos
  cases h : p.goBack c.period with
  | none => exact Nat.succ_pos _
  | some q =>
    have := (CBlockIndex.goBack_eq_some_iff.mp h).2
    show q.nHeight + 1 < p.nHeight + 1
    omega

def walkForward (vToCompute : List CBlockIndex) (s : ThresholdState × ThresholdConditionCache) :
    ThresholdState × ThresholdConditionCache :=
  vToCompute.foldl (fun (state, cache) p =>
    (c.stateNext state p, update cache (some p) (some (c.stateNext state p)))) s

def getStateFor (pindexPrev : Option CBlockIndex) (cache : ThresholdConditionCache) :
    ThresholdState × ThresholdConditionCache :=
  let (vToCompute, s) :=
    c.walkBack (pindexPrev.bind fun p => p.goBack ((p.nHeight + 1) % c.period)) cache []
  c.walkForward vToCompute s

/-- The loop of `GetStateSinceHeightFor` -/
def sinceLoop (initialState : ThresholdState) (pindexPrev : CBlockIndex)
    (cache : ThresholdConditionCache) : Nat :=
  match h : pindexPrev.goBack c.period with
  | none => pindexPrev.nHeight + 1
  | some previousPeriodParent =>
    let (state, cache) := c.getStateFor (some previousPeriodParent) cache
    if state = initialState then sinceLoop initialState previousPeriodParent cache
    else pindexPrev.nHeight + 1
termination_by pindexPrev.nHeight
decreasing_by
  have := (CBlockIndex.goBack_eq_some_iff.mp h).2
  have := c.period_pos
  omega

/-- `GetStateSinceHeightFor`; `none` where the code would use a null pointer -/
def getStateSinceHeightFor (pindexPrev : Option CBlockIndex) (cache : ThresholdConditionCache) :
    Option Nat :=
  let (initialState, cache) := c.getStateFor pindexPrev cache
  if initialState = .defined then some 0
  else
    (pindexPrev.bind fun p => p.goBack ((p.nHeight + 1) % c.period)).map fun p =>
      c.sinceLoop initialState p cache

/-! ## 2. The states of the periods -/

/-- The block before period `j` of a chain -/
def parentOf (p : CBlockIndex) (j : Nat) : Option CBlockIndex :=
  if j = 0 then none else p.getAncestor (j * c.period - 1)

/-- The state of period `j` of a chain -/
def periodState (p : CBlockIndex) : Nat → ThresholdState
  | 0 => .defined
  | j + 1 =>
    match c.parentOf p (j + 1) with
    | some q => c.stateNext (periodState p j) q
    | none => .defined

/-- The period of the block after `pindexPrev` -/
def periodOf (p : CBlockIndex) : Nat := (p.nHeight + 1) / c.period

/-- The state of the block after `pindexPrev` -/
def stateOf : Option CBlockIndex → ThresholdState
  | none => .defined
  | some p => c.periodState p (c.periodOf p)

/-- The states after some queries have filled the cache -/
def queried (qs : List (Option CBlockIndex)) : ThresholdConditionCache :=
  qs.foldl (fun cache p => (c.getStateFor p cache).2) fun _ => none

def Sound (cache : ThresholdConditionCache) : Prop :=
  ∀ p state, cache p = some state → state = c.stateOf p

variable {c} {p q : CBlockIndex} {j : Nat} {cache : ThresholdConditionCache}

theorem begun_of_le {i : Nat} (hij : i ≤ j) (hle : j * c.period ≤ p.nHeight + 1) :
    i * c.period ≤ p.nHeight + 1 :=
  (Nat.mul_le_mul_right _ hij).trans hle

theorem of_parentOf (hq : c.parentOf p j = some q) :
    q ≤ p ∧ q.nHeight + 1 = j * c.period := by
  unfold parentOf at hq
  split at hq
  · cases hq
  · next hj =>
    obtain ⟨hqp, hheight⟩ := ancestorAt_eq_some_iff.mp hq
    have hpos : 0 < j * c.period := mul_pos (pos_of_ne_zero hj) c.period_pos
    refine ⟨hqp, ?_⟩
    show q.height + 1 = _
    omega

theorem exists_parentOf (hj : 0 < j) (hle : j * c.period ≤ p.nHeight + 1) :
    ∃ q, c.parentOf p j = some q := by
  rw [parentOf, if_neg (ne_of_gt hj)]
  exact exists_ancestorAt (Nat.sub_le_of_le_add hle)

theorem count_eq_countP (n : Nat) :
    c.count n (some q) = (q.path.reverse.take n).countP c.condition := by
  induction q generalizing n with
  | root d =>
    cases n <;>
      simp [count, Lineage.path, CBlockIndex.pprev, parent?, countP_cons]
  | child q d ih =>
    cases n with
    | zero => rfl
    | succ n =>
      simp [count, Lineage.path, CBlockIndex.pprev, parent?, countP_cons, ih n,
        add_comm]

/-- The count at the end of a period is the number of its blocks that signal. -/
theorem count_period (hq : c.parentOf p (j + 1) = some q) :
    c.count c.period (some q) =
      ((p.path.drop (j * c.period)).take c.period).countP c.condition := by
  obtain ⟨hqp, hheight⟩ := of_parentOf hq
  have hpath : q.path = p.path.take (q.height + 1) := by
    refine ext_getElem? fun n => ?_
    rw [getElem?_take, getElem?_path, getElem?_path]
    split
    · next hn => exact (ancestorAt_of_le hqp (Nat.le_of_lt_succ hn)).symm
    · next hn => exact ancestorAt_eq_none (by omega)
  have hfirst : q.height + 1 = c.period + j * c.period := by
    rw [add_comm c.period, ← Nat.succ_mul]
    exact hheight
  rw [count_eq_countP, take_reverse, countP_reverse, length_path, hpath, hfirst,
    Nat.add_sub_cancel_left, drop_take, Nat.add_sub_cancel]

theorem periodOf_parent (hq : q.nHeight + 1 = j * c.period) : c.periodOf q = j := by
  rw [periodOf, hq, Nat.mul_div_cancel _ c.period_pos]

theorem periodState_of_le (hqp : q ≤ p) (hle : j * c.period ≤ q.nHeight + 1) :
    c.periodState p j = c.periodState q j := by
  induction j with
  | zero => rfl
  | succ j ih =>
    have hparent : c.parentOf p (j + 1) = c.parentOf q (j + 1) := by
      exact ancestorAt_of_le hqp (Nat.sub_le_of_le_add hle)
    rw [periodState, periodState, hparent, ih (begun_of_le (Nat.le_succ j) hle)]

theorem stateOf_parentOf (hle : j * c.period ≤ p.nHeight + 1) :
    c.stateOf (c.parentOf p j) = c.periodState p j := by
  cases j with
  | zero => rfl
  | succ j =>
    obtain ⟨q, hq⟩ := exists_parentOf (Nat.succ_pos j) hle
    obtain ⟨hqp, hheight⟩ := of_parentOf hq
    rw [hq, stateOf, periodOf_parent hheight, periodState_of_le hqp hheight.ge]

theorem goBack_period (hle : (j + 1) * c.period ≤ p.nHeight + 1)
    (hq : c.parentOf p (j + 1) = some q) : q.goBack c.period = c.parentOf p j := by
  obtain ⟨hqp, hheight⟩ := of_parentOf hq
  rw [Nat.succ_mul] at hheight
  rcases eq_zero_or_pos j with rfl | hj
  · rw [CBlockIndex.goBack, if_neg (by omega)]
    rfl
  · obtain ⟨r, hr⟩ := exists_parentOf hj (begun_of_le (Nat.le_succ j) hle)
    obtain ⟨hrp, hrheight⟩ := of_parentOf hr
    rw [hr, CBlockIndex.goBack_eq_some_iff]
    exact ⟨le_of_le_of_height hrp hqp (by unfold CBlockIndex.nHeight at *; omega), by omega⟩

theorem goBack_first : p.goBack ((p.nHeight + 1) % c.period) = c.parentOf p (c.periodOf p) := by
  have hdiv := Nat.div_add_mod (p.nHeight + 1) c.period
  rw [mul_comm] at hdiv
  rcases eq_zero_or_pos (c.periodOf p) with hzero | hpos
  · rw [parentOf, if_pos hzero, CBlockIndex.goBack, if_neg]
    rw [periodOf] at hzero
    rw [hzero] at hdiv
    omega
  · obtain ⟨q, hq⟩ := exists_parentOf hpos (Nat.div_mul_le_self _ c.period)
    obtain ⟨hqp, hheight⟩ := of_parentOf hq
    rw [hq, CBlockIndex.goBack_eq_some_iff]
    rw [periodOf] at hheight
    exact ⟨hqp, by omega⟩

theorem periodState_of_early (hc : c.beginTime ≤ c.endTime) (hp : p.Timed)
    (hle : j * c.period ≤ p.nHeight + 1) (hq : c.parentOf p j = some q)
    (hearly : q.getMedianTimePast < c.beginTime) {i : Nat} (hij : i ≤ j) :
    c.periodState p i = .defined := by
  induction i with
  | zero => rfl
  | succ i ih =>
    obtain ⟨hqp, hheight⟩ := of_parentOf hq
    obtain ⟨r, hr⟩ := exists_parentOf (Nat.succ_pos i) (begun_of_le hij hle)
    obtain ⟨hrp, hrheight⟩ := of_parentOf hr
    have hrq : r ≤ q := by
      refine le_of_le_of_height hrp hqp (Nat.le_of_succ_le_succ ?_)
      exact (hrheight.trans_le (Nat.mul_le_mul_right _ hij)).trans_eq hheight.symm
    have hmedian := (CBlockIndex.getMedianTimePast_mono (hp.mono hqp) hrq).trans_lt hearly
    rw [periodState, hr, ih (Nat.le_of_succ_le hij)]
    dsimp only [stateNext]
    rw [if_neg (by omega), if_neg (by omega)]

theorem Sound.update (h : c.Sound cache) {k : Option CBlockIndex} {state : ThresholdState}
    (hstate : state = c.stateOf k) : c.Sound (update cache k (some state)) := by
  intro k' state' hk'
  rcases eq_or_ne k' k with rfl | hne
  · rw [update_self] at hk'
    rw [← Option.some.inj hk', hstate]
  · rw [update_of_ne hne] at hk'
    exact h k' state' hk'

theorem walk_none (hcache : c.Sound cache) (v : List CBlockIndex) :
    ∃ w s cache', c.walkBack none cache v = (w ++ v, s) ∧
      c.walkForward w s = (.defined, cache') ∧ c.Sound cache' := by
  unfold walkBack
  cases hknown : cache none with
  | some state => exact ⟨[], (state, cache), cache, rfl, by rw [hcache _ _ hknown]; rfl, hcache⟩
  | none => exact ⟨[], _, _, rfl, rfl, hcache.update rfl⟩

/-- From period `j` the walks back and forward end with its state. -/
theorem walk_eq (hc : c.beginTime ≤ c.endTime) (hp : p.Timed)
    (hle : j * c.period ≤ p.nHeight + 1) (hcache : c.Sound cache) (v : List CBlockIndex) :
    ∃ w s cache', c.walkBack (c.parentOf p j) cache v = (w ++ v, s) ∧
      c.walkForward w s = (c.periodState p j, cache') ∧ c.Sound cache' := by
  have hstate := stateOf_parentOf hle
  induction j generalizing v with
  | zero => exact walk_none hcache v
  | succ j ih =>
    obtain ⟨q, hq⟩ := exists_parentOf (Nat.succ_pos j) hle
    rw [hq] at hstate ⊢
    unfold walkBack
    cases hknown : cache (some q) with
    | some state =>
      exact ⟨[], (state, cache), cache, rfl, by rw [← hstate, ← hcache _ _ hknown]; rfl, hcache⟩
    | none =>
      dsimp only
      split
      · next hearly =>
        have hdefined := periodState_of_early hc hp hle hq hearly (le_refl _)
        rw [hdefined] at hstate ⊢
        exact ⟨[], _, _, rfl, rfl, hcache.update hstate.symm⟩
      · have hless := begun_of_le (Nat.le_succ j) hle
        obtain ⟨w, s, cache', hback, hforward, hsound⟩ :=
          ih hless (q :: v) (stateOf_parentOf hless)
        have hnext : c.periodState p (j + 1) = c.stateNext (c.periodState p j) q := by
          rw [periodState, hq]
        refine ⟨w ++ [q], s, _, ?_, ?_, hsound.update (hstate.trans hnext).symm⟩
        · rw [goBack_period hle hq, hback, append_assoc]
          rfl
        · rw [walkForward, foldl_append]
          change c.walkForward [q] (c.walkForward w s) = _
          rw [hforward, hnext]
          rfl

/-- Every entry that is asked for, or its parent, is in a chain with increasing median times. -/
def Asked (p : Option CBlockIndex) : Prop := ∀ q ∈ p, q.Timed

theorem getStateFor_eq (hc : c.beginTime ≤ c.endTime) {p : Option CBlockIndex} (hp : Asked p)
    (hcache : c.Sound cache) :
    (c.getStateFor p cache).1 = c.stateOf p ∧ c.Sound (c.getStateFor p cache).2 := by
  have hwalk : ∃ w s cache',
      c.walkBack (p.bind fun p => p.goBack ((p.nHeight + 1) % c.period)) cache [] = (w ++ [], s) ∧
        c.walkForward w s = (c.stateOf p, cache') ∧ c.Sound cache' := by
    cases p with
    | none => exact walk_none hcache []
    | some p =>
      rw [Option.bind_some, goBack_first]
      exact walk_eq hc (hp p rfl) (Nat.div_mul_le_self _ _) hcache []
  obtain ⟨w, s, cache', hback, hforward, hsound⟩ := hwalk
  rw [getStateFor, hback, append_nil]
  dsimp only
  rw [hforward]
  exact ⟨rfl, hsound⟩

theorem sound_queried (hc : c.beginTime ≤ c.endTime) {qs : List (Option CBlockIndex)}
    (hqs : ∀ p ∈ qs, Asked p) : c.Sound (c.queried qs) := by
  unfold queried
  have hempty : c.Sound fun _ => none := nofun
  generalize (fun _ => none : ThresholdConditionCache) = cache at hempty ⊢
  induction qs generalizing cache with
  | nil => exact hempty
  | cons p qs ih =>
    obtain ⟨hp, hqs⟩ := forall_mem_cons.mp hqs
    exact ih hqs _ (getStateFor_eq hc hp hempty).2

/-- `first` is the first height of the run of periods with the state of period `j` that ends there. -/
def StartsRun (c : ThresholdConditionChecker) (p : CBlockIndex) (j first : Nat) : Prop :=
  ∃ i ≤ j, first = i * c.period ∧ (∀ k, i ≤ k → k ≤ j → c.periodState p k = c.periodState p j) ∧
    (i = 0 ∨ c.periodState p (i - 1) ≠ c.periodState p j)

theorem sinceLoop_eq (hc : c.beginTime ≤ c.endTime) (hp : p.Timed) (hcache : c.Sound cache)
    {i : Nat} (hij : i + 1 ≤ j) (hle : j * c.period ≤ p.nHeight + 1)
    (hsame : ∀ k, i + 1 ≤ k → k ≤ j → c.periodState p k = c.periodState p j)
    (hactive : c.periodState p j ≠ .defined) (hq : c.parentOf p (i + 1) = some q) :
    StartsRun c p j (c.sinceLoop (c.periodState p j) q cache) := by
  induction i generalizing q cache with
  | zero =>
    unfold sinceLoop
    split
    · exact ⟨1, hij, (of_parentOf hq).2, hsame, .inr hactive.symm⟩
    · next hback =>
      rw [goBack_period (begun_of_le hij hle) hq] at hback
      cases hback
  | succ i ih =>
    have hprev := begun_of_le (Nat.le_of_succ_le hij) hle
    unfold sinceLoop
    split
    · next hback =>
      obtain ⟨r, hr⟩ := exists_parentOf (Nat.succ_pos i) hprev
      rw [goBack_period (begun_of_le hij hle) hq, hr] at hback
      cases hback
    · next r hback =>
      rw [goBack_period (begun_of_le hij hle) hq] at hback
      obtain ⟨hstate, hsound⟩ := getStateFor_eq hc
        (fun _ h => Option.some.inj h ▸ hp.mono (of_parentOf hback).1) hcache
      rw [← hback, stateOf_parentOf hprev, hback] at hstate
      dsimp only
      split
      · next heq =>
        have hsame' : ∀ k, i + 1 ≤ k → k ≤ j → c.periodState p k = c.periodState p j := by
          intro k hik hkj
          rcases eq_or_lt_of_le hik with rfl | hlt
          · rw [← hstate, heq]
          · exact hsame k hlt hkj
        exact ih hsound (Nat.le_of_succ_le hij) hsame' hback
      · next hne => exact ⟨i + 2, hij, (of_parentOf hq).2, hsame, .inr (hstate ▸ hne)⟩

/-- No period is defined after one that is not. -/
theorem periodState_defined (hle : j * c.period ≤ p.nHeight + 1)
    (h : c.periodState p j = .defined) {k : Nat} (hk : k ≤ j) : c.periodState p k = .defined := by
  induction j with
  | zero => rw [Nat.le_zero.mp hk, h]
  | succ j ih =>
    rcases eq_or_lt_of_le hk with rfl | hlt
    · exact h
    · refine ih (begun_of_le (Nat.le_succ j) hle) ?_ (Nat.le_of_lt_succ hlt)
      obtain ⟨q, hq⟩ := exists_parentOf (Nat.succ_pos j) hle
      rw [periodState, hq] at h
      revert h
      cases c.periodState p j with
      | defined => exact fun _ => rfl
      | started =>
        dsimp only [stateNext]
        split_ifs <;> exact nofun
      | lockedIn | active | failed => exact nofun

end ThresholdConditionChecker

open ThresholdConditionChecker

/-- After any queries the state of a block is the one by periods, and the height since which it has
that state is where the run of periods starts. -/
theorem cached_states (c : ThresholdConditionChecker) (hc : c.beginTime ≤ c.endTime)
    (qs : List (Option CBlockIndex)) (hqs : ∀ p ∈ qs, Asked p) (p : Option CBlockIndex)
    (hp : Asked p) :
    (c.getStateFor p (c.queried qs)).1 = c.stateOf p ∧
      ∃ first, c.getStateSinceHeightFor p (c.queried qs) = some first ∧
        (p = none → first = 0) ∧ ∀ q, p = some q → StartsRun c q (c.periodOf q) first := by
  obtain ⟨hstate, hsound⟩ := getStateFor_eq hc hp (sound_queried hc hqs)
  refine ⟨hstate, ?_⟩
  rw [getStateSinceHeightFor]
  dsimp only
  rw [hstate]
  cases p with
  | none => exact ⟨0, rfl, fun _ => rfl, nofun⟩
  | some p =>
    have hle : c.periodOf p * c.period ≤ p.nHeight + 1 := Nat.div_mul_le_self _ _
    split
    · next hdefined =>
      have hall : ∀ k ≤ c.periodOf p, c.periodState p k = .defined :=
        fun k => periodState_defined hle hdefined
      refine ⟨0, rfl, nofun, fun q hq => ?_⟩
      cases hq
      refine ⟨0, Nat.zero_le _, (Nat.zero_mul _).symm, fun k _ hk => ?_, .inl rfl⟩
      rw [hall k hk, hall _ (le_refl _)]
    · next hactive =>
      obtain ⟨i, hi⟩ : ∃ i, c.periodOf p = i + 1 := by
        refine Nat.exists_eq_succ_of_ne_zero fun hzero => hactive ?_
        rw [stateOf, hzero]
        rfl
      obtain ⟨r, hr⟩ := exists_parentOf (hi ▸ Nat.succ_pos i) hle
      rw [Option.bind_some, goBack_first, hr]
      refine ⟨_, rfl, nofun, fun q hq => ?_⟩
      cases hq
      refine sinceLoop_eq hc (hp p rfl) hsound hi.ge hle (fun k hik hk => ?_) hactive (hi ▸ hr)
      rw [le_antisymm hk (hi ▸ hik)]

namespace VersionBitsExample

/-- Periods of one block, a condition that always holds -/
def checker : ThresholdConditionChecker := ⟨fun _ => true, 5, 100, 1, 1, Nat.one_pos⟩

def chain : CBlockIndex := .child (.root ⟨0, 1, 0, 10, 0, 0⟩) ⟨1, 1, 0, 20, 0, 0⟩

theorem timed_chain : chain.Timed := by
  intro q d h
  rcases le_child_iff.mp h with heq | h
  · obtain ⟨rfl, rfl⟩ := Lineage.child.inj heq
    decide +kernel
  · cases le_root_iff.mp h

end VersionBitsExample

open VersionBitsExample in
/-- The second block after the start is locked in. -/
theorem cached_states_chain :
    (checker.getStateFor (some chain) (checker.queried [none])).1 = .lockedIn :=
  ((cached_states checker (by decide) [none] (fun _ h q hq => by
    rw [mem_singleton.mp h] at hq; cases hq) (some chain)
    fun _ h => Option.some.inj h ▸ timed_chain).1).trans (by decide +kernel)

/-- If the headers of a chain are later than the median times before them, the median time of a
block is not before that of its parent, whatever the heights of the two. -/
theorem getMedianTimePast_parent_le (p : CBlockIndex) (hp : p.Timed) (q : CBlockIndex)
    (d : BlockIndexData) (hle : .child q d ≤ p) :
    q.getMedianTimePast ≤ CBlockIndex.getMedianTimePast (.child q d) :=
  CBlockIndex.getMedianTimePast_mono (hp.mono hle) (.step (.refl q))

open VersionBitsExample in
theorem getMedianTimePast_parent_le_chain :
    CBlockIndex.getMedianTimePast (.root ⟨0, 1, 0, 10, 0, 0⟩) ≤ chain.getMedianTimePast :=
  getMedianTimePast_parent_le chain timed_chain _ _ (le_refl _)

end RgmNode
