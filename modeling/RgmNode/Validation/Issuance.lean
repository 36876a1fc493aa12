import Mathlib.Algebra.Order.BigOperators.Group.Finset
import Mathlib.Tactic.Linarith
import RgmNode.Validation.Connect

/-!
# Issuance

How much `GetRGMBlockSubsidy` pays out over a chain.  Within one halving interval every
block pays the same base reward, and every thousandth block four more of it; the interval is
no multiple of a thousand, so the number of golden blocks differs from epoch to epoch.

* `issued_epoch` — what one epoch pays
* `issued_epochs` — what the first epochs pay together
-/

namespace RgmNode

open Nat Finset

/-! ## 1. The reward of one block -/

/-- The reward of an ordinary block after `halvings` halvings. -/
def baseSubsidy (halvings : Nat) : Nat := (50 * 100000000) >>> halvings

/-- A block with this height pays five times the base reward. -/
def IsGolden (nHeight : Nat) : Prop := nHeight % 1000 = 0 ∧ 0 < nHeight

instance (nHeight : Nat) : Decidable (IsGolden nHeight) := inferInstanceAs (Decidable (_ ∧ _))

theorem baseSubsidy_eq_div (halvings : Nat) :
    baseSubsidy halvings = 50 * 100000000 / 2 ^ halvings :=
  shiftRight_eq_div_pow _ _

theorem baseSubsidy_eq_zero {halvings : Nat} (h : 33 ≤ halvings) : baseSubsidy halvings = 0 := by
  rw [baseSubsidy_eq_div]
  apply div_eq_of_lt
  calc 50 * 100000000 < 2 ^ 33 := by decide
    _ ≤ 2 ^ halvings := Nat.pow_le_pow_right (by decide) h

section Params

variable {params : Consensus.Params}

/-- The limit of 64 halvings changes nothing: the shifted reward is 0 long before. -/
theorem getRGMBlockSubsidy_eq (nHeight : Nat) :
    getRGMBlockSubsidy nHeight params =
      baseSubsidy (nHeight / params.nSubsidyHalvingInterval) *
        (1 + if IsGolden nHeight then 4 else 0) := by
  unfold getRGMBlockSubsidy
  dsimp only
  split
  · next h =>
    rw [baseSubsidy_eq_zero (by omega)]
    simp
  · change (if IsGolden nHeight then (baseSubsidy _ : CAmount) * 5 else baseSubsidy _) = _
    by_cases hgolden : IsGolden nHeight
    · rw [if_pos hgolden, if_pos hgolden]
      rfl
    · rw [if_neg hgolden, if_neg hgolden]
      ring

theorem getRGMBlockSubsidy_nonneg (nHeight : Nat) : 0 ≤ getRGMBlockSubsidy nHeight params := by
  rw [getRGMBlockSubsidy_eq]
  split
  · exact mul_nonneg (Int.natCast_nonneg _) (by decide)
  · exact mul_nonneg (Int.natCast_nonneg _) (by decide)

theorem getRGMBlockSubsidy_eq_zero {nHeight : Nat} (hpos : 0 < params.nSubsidyHalvingInterval)
    (h : 33 * params.nSubsidyHalvingInterval ≤ nHeight) :
    getRGMBlockSubsidy nHeight params = 0 := by
  rw [getRGMBlockSubsidy_eq, baseSubsidy_eq_zero ((le_div_iff_mul_le hpos).mpr h)]
  simp

/-! ## 2. Epochs -/

def goldenBelow (nHeight : Nat) : Nat := (nHeight - 1) / 1000

theorem goldenBelow_succ (nHeight : Nat) :
    goldenBelow (nHeight + 1) = goldenBelow nHeight + if IsGolden nHeight then 1 else 0 := by
  unfold goldenBelow
  split
  · next h => obtain ⟨hmod, hpos⟩ := h; omega
  · next h =>
    have h : ¬ (nHeight % 1000 = 0 ∧ 0 < nHeight) := h
    omega

variable (params) in
def issued (nHeight : Nat) : CAmount := ∑ h ∈ range nHeight, getRGMBlockSubsidy h params

theorem issued_succ (nHeight : Nat) :
    issued params (nHeight + 1) = issued params nHeight + getRGMBlockSubsidy nHeight params :=
  sum_range_succ _ _

theorem issued_mono {a b : Nat} (h : a ≤ b) : issued params a ≤ issued params b := by
  apply sum_le_sum_of_subset_of_nonneg (range_mono h)
  intro nHeight _ _
  exact getRGMBlockSubsidy_nonneg nHeight

theorem issued_eq_of_le {nHeight : Nat} (hpos : 0 < params.nSubsidyHalvingInterval)
    (h : 33 * params.nSubsidyHalvingInterval ≤ nHeight) :
    issued params nHeight = issued params (33 * params.nSubsidyHalvingInterval) := by
  induction nHeight, h using le_induction with
  | base => rfl
  | succ n hle ih => rw [issued_succ, ih, getRGMBlockSubsidy_eq_zero hpos hle, add_zero]

/-- What an epoch has paid after its first `k` blocks. -/
theorem issued_within_epoch (epoch : Nat) {k : Nat} (hk : k ≤ params.nSubsidyHalvingInterval) :
    issued params (params.nSubsidyHalvingInterval * epoch + k) +
        4 * baseSubsidy epoch * goldenBelow (params.nSubsidyHalvingInterval * epoch) =
      issued params (params.nSubsidyHalvingInterval * epoch) +
        baseSubsidy epoch *
          (k + 4 * goldenBelow (params.nSubsidyHalvingInterval * epoch + k)) := by
  induction k with
  | zero =>
    rw [add_zero]
    ring
  | succ k ih =>
    have hdiv : (params.nSubsidyHalvingInterval * epoch + k) / params.nSubsidyHalvingInterval =
        epoch := by
      rw [mul_add_div (by omega), div_eq_of_lt (by omega), add_zero]
    have hrec := ih (by omega)
    rw [← add_assoc, issued_succ, getRGMBlockSubsidy_eq, hdiv, goldenBelow_succ]
    split
    · push_cast at hrec ⊢
      linarith
    · push_cast at hrec ⊢
      linarith

variable (params) in
def epochIssue (epoch : Nat) : Nat :=
  baseSubsidy epoch * (params.nSubsidyHalvingInterval +
    4 * (goldenBelow (params.nSubsidyHalvingInterval * (epoch + 1)) -
      goldenBelow (params.nSubsidyHalvingInterval * epoch)))

theorem issued_epoch (epoch : Nat) :
    issued params (params.nSubsidyHalvingInterval * (epoch + 1)) =
      issued params (params.nSubsidyHalvingInterval * epoch) + epochIssue params epoch := by
  have hle : goldenBelow (params.nSubsidyHalvingInterval * epoch) ≤
      goldenBelow (params.nSubsidyHalvingInterval * (epoch + 1)) :=
    Nat.div_le_div_right (Nat.sub_le_sub_right (Nat.mul_le_mul_left _ (Nat.le_succ _)) 1)
  have hwhole := issued_within_epoch epoch (le_refl params.nSubsidyHalvingInterval)
  rw [← mul_succ] at hwhole
  unfold epochIssue
  push_cast [cast_sub hle]
  linarith

theorem issued_epochs (epochs : Nat) :
    issued params (params.nSubsidyHalvingInterval * epochs) =
      ((List.range epochs).map (epochIssue params)).sum := by
  induction epochs with
  | zero => simp [issued]
  | succ epoch ih =>
    rw [issued_epoch, ih, List.range_succ]
    simp

end Params

/-! ## 3. The main network -/

def issuance (net : Network) (nHeight : Nat) : CAmount :=
  ∑ h ∈ range (nHeight + 1), getRGMBlockSubsidy h (net.params.getConsensus h)

/-- The two parameter sets of a network have the same halving interval. -/
theorem issuance_eq_issued (net : Network) (nHeight : Nat) :
    issuance net nHeight = issued net.params.consensus (nHeight + 1) := by
  apply sum_congr rfl
  intro h _
  have hshared : (net.params.getConsensus h).nSubsidyHalvingInterval =
      net.params.consensus.nSubsidyHalvingInterval :=
    getConsensus_shared net h _ (by cases net <;> rfl)
  rw [getRGMBlockSubsidy_eq, getRGMBlockSubsidy_eq, hshared]

def mainSupply : CAmount := 21108085783232708

theorem issued_main_supply :
    issued mainConsensus (33 * mainConsensus.nSubsidyHalvingInterval) = mainSupply := by
  rw [mul_comm, issued_epochs]
  decide +kernel

theorem issuance_le_mainSupply (nHeight : Nat) : issuance .main nHeight ≤ mainSupply := by
  have hpos : 0 < mainConsensus.nSubsidyHalvingInterval := by decide
  rw [issuance_eq_issued, ← issued_main_supply]
  rcases le_total (nHeight + 1) (33 * mainConsensus.nSubsidyHalvingInterval) with hle | hle
  · exact issued_mono hle
  · exact (issued_eq_of_le hpos hle).le

theorem mainSupply_le_maxMoney : mainSupply ≤ maxMoney := by decide

/-- No chain of the main network issues more than the supply, and from the end of the last
epoch on it is issued exactly; every sum on the way is an amount of money. -/
theorem issuance_bounded_exact (nHeight : Nat) :
    issuance .main nHeight ≤ 21108085783232708 ∧
      issuance .main nHeight ≤ maxMoney ∧
      (∀ h ≤ nHeight, moneyRange (issuance .main h) = true) ∧
      (33 * mainConsensus.nSubsidyHalvingInterval - 1 ≤ nHeight →
        issuance .main nHeight = 21108085783232708) := by
  have hpos : 0 < mainConsensus.nSubsidyHalvingInterval := by decide
  have hbound := issuance_le_mainSupply
  refine ⟨hbound nHeight, (hbound nHeight).trans mainSupply_le_maxMoney, ?_, ?_⟩
  · intro h _
    have hnonneg : 0 ≤ issuance .main h :=
      sum_nonneg fun _ _ => getRGMBlockSubsidy_nonneg _
    simp only [moneyRange, Bool.and_eq_true, decide_eq_true_eq]
    exact ⟨hnonneg, (hbound h).trans mainSupply_le_maxMoney⟩
  · intro hlast
    have hle : 33 * mainConsensus.nSubsidyHalvingInterval ≤ nHeight + 1 := by omega
    rw [issuance_eq_issued]
    exact (issued_eq_of_le hpos hle).trans issued_main_supply

/-- The last block of the last epoch completes the supply. -/
theorem issuance_last_epoch : issuance .main (33 * 2102400 - 1) = 21108085783232708 :=
  (issuance_bounded_exact (33 * 2102400 - 1)).2.2.2 (by decide)

end RgmNode
