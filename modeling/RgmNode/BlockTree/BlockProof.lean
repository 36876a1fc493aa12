import RgmNode.BlockTree.State
import RgmNode.Consensus.CompactTarget

/-!
# The work of a block

`GetBlockProof` (`chain.cpp`) with the division of `arith_uint256.cpp` that it calls.  The quotient
of `2 ^ 256` cannot be formed in 256 bits, so the source divides the complement of the target.
-/

namespace RgmNode

open Arith Nat

/-- `(~bnTarget / (bnTarget + 1)) + 1`, as the operators compute it; `none` if the division throws -/
def proofOf (bnTarget : Nat) : Option Nat :=
  (divide (2 ^ 256 - 1 - bnTarget) ((bnTarget + 1) % 2 ^ 256)).map fun q => (q + 1) % 2 ^ 256

/-- A target that is shifted is even, and the others are small. -/
theorem target_lt {nBits : UInt32} {t : Nat} (ht : (setCompact nBits).target = t) :
    t < 2 ^ 256 - 1 := by
  subst ht
  have hword : nBits.toNat % 2 ^ 23 < 2 ^ 23 := mod_lt _ (Nat.two_pow_pos 23)
  unfold setCompact
  dsimp only
  split
  · exact lt_of_le_of_lt (div_le_self _ _) (lt_trans hword (by decide))
  · next hlarge =>
    obtain ⟨k, hk⟩ : 2 ∣ 2 ^ (8 * (nBits.toNat / 2 ^ 24 - 3)) := dvd_pow_self 2 (by omega)
    rw [hk, ← mul_assoc, mul_comm _ 2, mul_assoc]
    omega

/-- The identity that avoids the number `2 ^ 256` -/
theorem complement_div {t : Nat} (ht : t < 2 ^ 256) :
    (2 ^ 256 - 1 - t) / (t + 1) + 1 = 2 ^ 256 / (t + 1) := by
  conv_rhs => rw [show 2 ^ 256 = 2 ^ 256 - 1 - t + (t + 1) by omega]
  exact (add_div_right _ (succ_pos t)).symm

/-- For a target that is read without sign or overflow and is not zero, the operators compute the
work, which is the exact quotient; a smaller target does not give less.  The division they call is
exact for all operands. -/
theorem blockProof_exact (nBits : UInt32) (t : Nat) (ht : setCompact nBits = ⟨t, false, false⟩)
    (hne : t ≠ 0) :
    proofOf t = some (getBlockProof nBits) ∧
    getBlockProof nBits = 2 ^ 256 / (t + 1) ∧
    (∀ num b : Uint256, b ≠ 0 → divide num.toNat b.toNat = some (num.toNat / b.toNat)) ∧
    ∀ (nBits' : UInt32) (t' : Nat), setCompact nBits' = ⟨t', false, false⟩ → t' ≠ 0 → t' ≤ t →
      getBlockProof nBits ≤ getBlockProof nBits' := by
  have hproof : ∀ {nBits t}, setCompact nBits = ⟨t, false, false⟩ → t ≠ 0 →
      getBlockProof nBits = 2 ^ 256 / (t + 1) := by
    intro nBits t ht hne
    have hlt := target_lt (congrArg Compact.target ht)
    rw [getBlockProof, ht, if_neg (by simpa using hne)]
    exact complement_div (by omega)
  have hlt : t < 2 ^ 256 - 1 := target_lt (congrArg Compact.target ht)
  refine ⟨?_, hproof ht hne, fun num b hb => divide_eq num.isLt ?_, ?_⟩
  · have hquotient : 2 ^ 256 / (t + 1) < 2 ^ 256 := div_lt_self (by decide) (by omega)
    rw [proofOf, mod_eq_of_lt (show t + 1 < 2 ^ 256 by omega),
      divide_eq (by omega) (succ_pos t), Option.map_some, complement_div (by omega),
      mod_eq_of_lt hquotient, hproof ht hne]
  · refine pos_of_ne_zero fun hzero => hb ?_
    exact BitVec.eq_of_toNat_eq hzero
  · intro nBits' t' ht' hne' hle
    rw [hproof ht hne, hproof ht' hne']
    exact div_le_div_left (succ_le_succ hle) (succ_pos t')

theorem blockProof_exact_genesis :
    getBlockProof 0x1e0ffff0 = 2 ^ 256 / ((setCompact 0x1e0ffff0).target + 1) :=
  (blockProof_exact 0x1e0ffff0 (setCompact 0x1e0ffff0).target (by decide) (by decide +kernel)).2.1

end RgmNode
