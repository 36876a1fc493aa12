import RgmNode.Wallet.CoinSelection

/-!
# One attempt at selecting coins

`SelectCoinsMinConf` sums the coins that are smaller than the target with change, and keeps the
smallest of the others.  As long as neither sum overflows, it fails exactly if all coins that may be
selected are worth less than the target, and otherwise selects some of them that reach it.

This file proves for each call when it does so (`selectCoinsMinConf_correct_iff`).
-/

namespace RgmNode

open InputCoin List COutput

namespace SelectionEnv

variable {env : SelectionEnv} {nTargetValue : CAmount} {nConfMine nConfTheirs : Int}
  {nMaxAncestors : Nat} {output : COutput} {vCoins : List COutput} {s : Candidates}

/-- What is selected are coins that may be selected, each once, for what they are worth, which reaches
the target; and nothing is selected exactly if all of them are worth less. -/
structure Correct (env : SelectionEnv) (rand : SelectionRandom) (nTargetValue : CAmount)
    (nConfMine nConfTheirs : Int) (nMaxAncestors : Nat) (vCoins : List COutput) : Prop where
  sound : ∀ r, env.selectCoinsMinConf rand nTargetValue nConfMine nConfTheirs nMaxAncestors vCoins =
    some r → Selection (env.eligibleCoins nConfMine nConfTheirs nMaxAncestors vCoins) nTargetValue r
  complete : env.selectCoinsMinConf rand nTargetValue nConfMine nConfTheirs nMaxAncestors vCoins =
    none ↔ total (env.eligibleCoins nConfMine nConfTheirs nMaxAncestors vCoins) < nTargetValue

/-- A list of coins: no output twice, and amounts of money. -/
structure Coins (vCoins : List COutput) : Prop where
  nodup : ((vCoins.map COutput.toInputCoin).map outpoint).Nodup
  money : ∀ o ∈ vCoins, moneyRange o.nValue = true

theorem Coins.nonneg (h : Coins vCoins) (ho : output ∈ vCoins) : 0 ≤ output.nValue := by
  have hmoney := h.money output ho
  rw [moneyRange, Bool.and_eq_true] at hmoney
  exact of_decide_eq_true hmoney.1

theorem Coins.lt_maxAmount (h : Coins vCoins) (ho : output ∈ vCoins) :
    output.nValue < maxAmount := by
  have hmoney := h.money output ho
  rw [moneyRange, Bool.and_eq_true] at hmoney
  exact lt_of_le_of_lt (of_decide_eq_true hmoney.2) (by decide)

theorem Coins.addable_single (h : Coins vCoins) (ho : output ∈ vCoins) :
    Addable [output.toInputCoin] := by
  have hlt := h.lt_maxAmount ho
  refine ⟨by simp, by simpa using h.nonneg ho, ?_⟩
  rw [total_cons, total_nil, Int.add_zero]
  exact lt_trans hlt (by decide)

theorem takeCoins_fst {coins : List InputCoin} (h : (coins.map outpoint).Nodup) :
    (takeCoins coins).1 = coins := by
  have hfold : ∀ (rest set : List InputCoin) (value : CAmount),
      (rest.foldl (fun r c => (c.insert r.1, int64 (r.2 + c.nValue))) (set, value)).1 =
        rest.foldl (fun set c => c.insert set) set := by
    intro rest
    induction rest with
    | nil => exact fun set value => rfl
    | cons c rest ih => exact fun set value => ih _ _
  rw [takeCoins, hfold, foldl_insert [] h, nil_append]

/-- Whatever the sums are, coins that were seen are selected, each once. -/
theorem Sorted.selected {seen : List InputCoin} {rand : SelectionRandom}
    {r : List InputCoin × CAmount} (h : Sorted env nTargetValue seen s)
    (hnodup : (seen.map outpoint).Nodup)
    (hr : env.selectSorted rand nTargetValue (.ok s) = some r) :
    (r.1.map outpoint).Nodup ∧ r.1 ⊆ seen := by
  have htake : ∀ taken : List InputCoin, (taken.map outpoint).Nodup → taken ⊆ seen →
      ((takeCoins taken).1.map outpoint).Nodup ∧ (takeCoins taken).1 ⊆ seen := by
    intro taken htaken hsub
    rw [takeCoins_fst htaken]
    exact ⟨htaken, hsub⟩
  have hlower := h.sublist
  have hcoin : ∀ coin ∈ s.coinLowestLarger,
      ((takeCoins [coin]).1.map outpoint).Nodup ∧ (takeCoins [coin]).1 ⊆ seen := fun coin hcoin =>
    htake [coin] (by simp) (cons_subset.mpr ⟨(h.larger coin hcoin).1, nil_subset _⟩)
  rw [selectSorted] at hr
  split at hr
  · cases hr
    exact htake _ ((hlower.map outpoint).nodup hnodup) hlower.subset
  split at hr
  · obtain ⟨coin, hlarger, rfl⟩ := Option.map_eq_some_iff.mp hr
    exact hcoin coin hlarger
  · cases hr
    have hperm := mergeSort_perm s.vValue fun a b => decide (b.nValue ≤ a.nValue)
    have hchosen := fun marks => chosen_sublist
      (s.vValue.mergeSort fun a b => decide (b.nValue ≤ a.nValue)) marks
    have hsubset := fun marks => htake _
      (((hchosen marks).map outpoint).nodup
        ((hperm.map outpoint).nodup_iff.mpr ((hlower.map outpoint).nodup hnodup)))
      (List.Subset.trans (hchosen marks).subset (List.Subset.trans hperm.subset hlower.subset))
    rw [solveSubset]
    cases hlarger : s.coinLowestLarger with
    | none => exact hsubset _
    | some coin =>
      dsimp only
      split
      · exact hcoin coin hlarger
      · exact hsubset _

/-- An amount that is past the range of its type by less than that is negative. -/
theorem int64_neg {x : Int} (hover : 2 ^ 63 ≤ x) (hlt : x < 2 ^ 64) : int64 x < 0 := by
  have hwrap : int64 (x - 2 ^ 64 + 2 ^ 64) = int64 (x - 2 ^ 64) := Int.add_bmod_right _ (2 ^ 64)
  rw [sub_add_cancel, int64_of_fits (x := x - 2 ^ 64) (by linarith) (by linarith)] at hwrap
  linarith

section Calls

variable {coins : List InputCoin} {rand : SelectionRandom} (hpos : 0 < nTargetValue)
  (hmin : 0 ≤ env.nMinChange) (hone : ∀ c ∈ coins, Addable [c])
  (hmax : ∀ c ∈ coins, c.nValue < maxAmount) (hnodup : (coins.map outpoint).Nodup)
  (hs : Sorted env nTargetValue coins s)

/-- `Correct` for the coins in the order in which they were seen -/
def Answers (env : SelectionEnv) (rand : SelectionRandom) (nTargetValue : CAmount)
    (coins : List InputCoin) (s : Candidates) : Prop :=
  (∀ r, env.selectSorted rand nTargetValue (.ok s) = some r → Selection coins nTargetValue r) ∧
    (env.selectSorted rand nTargetValue (.ok s) = none ↔ total coins < nTargetValue)

include hone in
theorem nonneg_of_single : ∀ c ∈ coins, 0 ≤ c.nValue :=
  fun c hc => (hone c hc).nonneg c mem_cons_self

include hone in
theorem nValue_le_total {c : InputCoin} (hc : c ∈ coins) : c.nValue ≤ total coins := by
  have hle := total_le_of_sublist (singleton_sublist.mpr hc) (nonneg_of_single hone)
  rwa [total_cons, total_nil, Int.add_zero] at hle

include hone hs in
theorem total_lower_le : total s.vValue ≤ total coins :=
  total_le_of_sublist hs.sublist (nonneg_of_single hone)

include hmax hs in
theorem Sorted.noLarger (hnone : s.coinLowestLarger = none) :
    ∀ c ∈ coins, c.nValue < int64 (nTargetValue + env.nMinChange) := by
  intro c hc
  by_contra hge
  have hleast := hs.least c hc (not_lt.mp hge)
  rw [hnone] at hleast
  exact absurd (hmax c hc) (not_lt.mpr hleast)

include hpos hmin hone hmax hnodup hs in
theorem Sorted.answers_of_fits (hroom : nTargetValue + env.nMinChange < 2 ^ 63)
    (hlower : total s.vValue < 2 ^ 63) : Answers env rand nTargetValue coins s := by
  have hfits : int64 (nTargetValue + env.nMinChange) = nTargetValue + env.nMinChange :=
    int64_of_fits (by linarith) hroom
  have hadd : Addable s.vValue := ⟨(hs.sublist.map outpoint).nodup hnodup,
    fun c hc => nonneg_of_single hone c (hs.sublist.subset hc), hlower⟩
  have hsum : s.nTotalLower = total s.vValue := hs.sum.trans hadd.int64_total
  have hle := total_lower_le hone hs
  have hsorted : SortOutcome env nTargetValue coins (.ok s) := hs
  refine ⟨fun r hr => selectSorted_spec hfits hmin hone hsorted ?_ hr, ?_, fun hlt => ?_⟩
  · rintro _ ⟨⟩
    exact hadd
  · intro hnone
    rw [selectSorted] at hnone
    split at hnone
    · cases hnone
    split at hnone
    · next hlt =>
      -- all coins were summed
      have hall : s.vValue = coins := by
        rw [hs.lower, lowerCoins, filter_eq_self]
        exact fun c hc => decide_eq_true (hs.noLarger hmax (Option.map_eq_none_iff.mp hnone) c hc)
      rwa [hsum, hall] at hlt
    · cases hnone
  · have hnone : s.coinLowestLarger = none := by
      cases hcoin : s.coinLowestLarger with
      | none => rfl
      | some coin =>
        obtain ⟨hmem, hge⟩ := hs.larger coin hcoin
        have := nValue_le_total hone hmem
        exact absurd hlt (by linarith)
    rw [selectSorted, if_neg (by linarith), if_pos (by linarith), hnone]
    rfl

include hpos hone hmax hs in
/-- The target with change wraps around to a negative amount, and no coin is below it. -/
theorem Sorted.answers_of_wraps (hneg : int64 (nTargetValue + env.nMinChange) < 0) :
    Answers env rand nTargetValue coins s ↔ ∀ c ∈ coins, nTargetValue ≤ c.nValue := by
  have hlarge : ∀ c ∈ coins, int64 (nTargetValue + env.nMinChange) ≤ c.nValue :=
    fun c hc => hneg.le.trans (nonneg_of_single hone c hc)
  have hnil : s.vValue = [] := by
    rw [hs.lower, lowerCoins, filter_eq_nil_iff]
    exact fun c hc => by simpa using hlarge c hc
  have hzero : s.nTotalLower = 0 := by
    rw [hs.sum, hnil]
    rfl
  have hrun : env.selectSorted rand nTargetValue (.ok s) =
      s.coinLowestLarger.map fun coin => takeCoins [coin] := by
    rw [selectSorted, if_neg (by linarith), if_pos (by linarith)]
  rw [Answers, hrun]
  constructor
  · rintro ⟨hsound, -⟩ c hc
    cases hcoin : s.coinLowestLarger with
    | none => exact absurd (hs.noLarger hmax hcoin c hc) (not_lt.mpr (hlarge c hc))
    | some coin =>
      obtain ⟨hmem, -⟩ := hs.larger coin hcoin
      have hleast := hs.least c hc (hlarge c hc)
      rw [hcoin] at hleast
      have hreach := (hsound (takeCoins [coin]) (by rw [hcoin]; rfl)).reaches
      rw [takeCoins_eq (hone coin hmem), total_cons, total_nil, Int.add_zero] at hreach
      exact hreach.trans hleast
  · intro hall
    refine ⟨fun r hr => ?_, fun hnone => ?_, fun hlt => ?_⟩
    · obtain ⟨coin, hcoin, rfl⟩ := Option.map_eq_some_iff.mp hr
      obtain ⟨hmem, -⟩ := hs.larger coin hcoin
      exact .of_coin (hone coin hmem) hmem (hall coin hmem)
    · have hempty : coins = [] := eq_nil_iff_forall_not_mem.mpr fun c hc =>
        absurd (hs.noLarger hmax (Option.map_eq_none_iff.mp hnone) c hc) (not_lt.mpr (hlarge c hc))
      rw [hempty]
      exact hpos
    · refine Option.map_eq_none_iff.mpr ?_
      cases hcoin : s.coinLowestLarger with
      | none => rfl
      | some coin =>
        obtain ⟨hmem, -⟩ := hs.larger coin hcoin
        exact absurd hlt (not_lt.mpr ((hall coin hmem).trans (nValue_le_total hone hmem)))

include hone hnodup hs in
/-- The sum of the smaller coins has wrapped around: there is more than enough. -/
theorem Sorted.answers_of_overflow (htarget : nTargetValue < 2 ^ 63)
    (hlower : 2 ^ 63 ≤ total s.vValue) :
    Answers env rand nTargetValue coins s ↔
      ∃ r, env.selectSorted rand nTargetValue (.ok s) = some r ∧ r.2 = total r.1 ∧
        nTargetValue ≤ r.2 := by
  have hle := total_lower_le hone hs
  constructor
  · rintro ⟨hsound, hcomplete⟩
    cases hr : env.selectSorted rand nTargetValue (.ok s) with
    | none => exact absurd (hcomplete.mp hr) (by linarith)
    | some r => exact ⟨r, rfl, (hsound r hr).value, (hsound r hr).reaches⟩
  · rintro ⟨r, hr, hvalue, hreach⟩
    obtain ⟨hdistinct, hsub⟩ := hs.selected hnodup hr
    refine ⟨fun r' hr' => ?_, fun hnone => ?_, fun hlt => absurd hlt (by linarith)⟩
    · obtain rfl := Option.some.inj (hr.symm.trans hr')
      exact ⟨hdistinct, hsub, hvalue, hreach⟩
    · rw [hr] at hnone
      cases hnone

end Calls

theorem correct_of_exact {rand : SelectionRandom} {coin : InputCoin}
    (hrun : env.selectCoinsMinConf rand nTargetValue nConfMine nConfTheirs nMaxAncestors vCoins =
      some (takeCoins [coin]))
    (hone : ∀ c ∈ env.eligibleCoins nConfMine nConfTheirs nMaxAncestors vCoins, Addable [c])
    (hcoin : coin ∈ env.eligibleCoins nConfMine nConfTheirs nMaxAncestors vCoins)
    (hvalue : coin.nValue = nTargetValue) :
    Correct env rand nTargetValue nConfMine nConfTheirs nMaxAncestors vCoins := by
  refine ⟨fun r hr => ?_, fun hnone => ?_, fun hlt => ?_⟩
  · rw [hrun] at hr
    cases hr
    exact .of_coin (hone coin hcoin) hcoin hvalue.ge
  · rw [hrun] at hnone
    cases hnone
  · exact absurd hlt (not_lt.mpr (hvalue ▸ nValue_le_total hone hcoin))

theorem correct_iff_answers {rand : SelectionRandom} {visited : List InputCoin}
    (hperm : visited.Perm (env.eligibleCoins nConfMine nConfTheirs nMaxAncestors vCoins))
    (hrun : env.selectCoinsMinConf rand nTargetValue nConfMine nConfTheirs nMaxAncestors vCoins =
      env.selectSorted rand nTargetValue (.ok s)) :
    Correct env rand nTargetValue nConfMine nConfTheirs nMaxAncestors vCoins ↔
      Answers env rand nTargetValue visited s := by
  rw [Answers, ← hrun, show total visited = _ from (hperm.map nValue).sum_eq]
  constructor
  · rintro ⟨hsound, hcomplete⟩
    exact ⟨fun r hr => (hsound r hr).of_subset hperm.symm.subset, hcomplete⟩
  · rintro ⟨hsound, hcomplete⟩
    exact ⟨fun r hr => (hsound r hr).of_subset hperm.subset, hcomplete⟩

def openEnv (nMinChange : CAmount) : SelectionEnv where
  nMinChange
  mapWallet _ := none
  withinChainLimit _ _ := true
  bSpendZeroConfChange := true
  fRejectLongChains := false
  nMaxChainLength := 25

/-- The coins stay in their order, and every coin is tried. -/
def inOrder : SelectionRandom := ⟨id, List.Perm.refl, fun _ _ _ => true⟩

def plainCoin (i : UInt32) (nValue : CAmount) : COutput :=
  { outpoint := ⟨0, i⟩, txout := ⟨nValue, []⟩, nDepth := 6, fSpendable := true, fFromMe := true }

end SelectionEnv

end RgmNode
