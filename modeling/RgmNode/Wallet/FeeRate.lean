import RgmNode.Validation.TxInputs
import RgmNode.Wallet.CoinSelection

/-!
# Fee rates

`CFeeRate` (`amount.cpp`).  Arithmetic on amounts wraps around as that of an `int64_t`.

* `CFeeRate.getFee_le` — no fee comes near the range of its type
-/

namespace RgmNode

open Int

structure CFeeRate where
  nSatoshisPerK : CAmount

def CFeeRate.getFee (rate : CFeeRate) (nBytes : Nat) : CAmount :=
  let nFee := (int64 (rate.nSatoshisPerK * nBytes)).tdiv 1000
  if nFee = 0 ∧ nBytes ≠ 0 then
    if 0 < rate.nSatoshisPerK then 1 else if rate.nSatoshisPerK < 0 then -1 else nFee
  else nFee

def CFeeRate.getFeePerK (rate : CFeeRate) : CAmount := rate.getFee 1000

/-- `CFeeRate(nFeePaid, nBytes)` -/
def CFeeRate.ofFee (nFeePaid : CAmount) (nBytes : Nat) : CFeeRate :=
  if 0 < nBytes then ⟨(int64 (nFeePaid * 1000)).tdiv nBytes⟩ else ⟨0⟩

/-- No fee or sum of fees comes near the range of its type. -/
def maxFee : CAmount := 2 ^ 62

theorem int64_lt (x : Int) : int64 x < 2 ^ 63 := by
  have h : x.bmod (2 ^ 64) < (((2 ^ 64 : Nat) : Int) + 1) / 2 := bmod_lt (by decide)
  exact h

theorem CFeeRate.getFee_le (rate : CFeeRate) (nBytes : Nat) : rate.getFee nBytes ≤ maxFee := by
  have hlt := int64_lt (rate.nSatoshisPerK * nBytes)
  have hdiv : (int64 (rate.nSatoshisPerK * nBytes)).tdiv 1000 ≤ maxFee := by
    rcases le_total 0 (int64 (rate.nSatoshisPerK * nBytes)) with hnonneg | hneg
    · rw [tdiv_eq_ediv_of_nonneg hnonneg]
      refine Int.ediv_le_of_le_mul (by decide) (le_of_lt (lt_trans hlt (by decide)))
    · have hdiv := Int.tdiv_nonneg (neg_nonneg_of_nonpos hneg) (by decide : (0 : Int) ≤ 1000)
      rw [Int.neg_tdiv] at hdiv
      exact le_trans (nonpos_of_neg_nonneg hdiv) (by decide)
  rw [getFee]
  split
  · split
    · decide
    · split
      · decide
      · exact hdiv
  · exact hdiv

theorem CFeeRate.getFee_nonneg {rate : CFeeRate} {nBytes : Nat} (hrate : 0 ≤ rate.nSatoshisPerK)
    (hlt : rate.nSatoshisPerK < 2 ^ 31) (hbytes : nBytes < 2 ^ 32) : 0 ≤ rate.getFee nBytes := by
  have hbytes' : (nBytes : Int) ≤ 2 ^ 32 := by exact_mod_cast hbytes.le
  have hmul : rate.nSatoshisPerK * nBytes ≤ rate.nSatoshisPerK * 2 ^ 32 :=
    mul_le_mul_of_nonneg_left hbytes' hrate
  have hnonneg : 0 ≤ rate.nSatoshisPerK * (nBytes : Int) :=
    mul_nonneg hrate (natCast_nonneg _)
  have hfits : int64 (rate.nSatoshisPerK * nBytes) = rate.nSatoshisPerK * nBytes :=
    int64_of_fits (by linarith) (by linarith)
  have hdiv : 0 ≤ (rate.nSatoshisPerK * (nBytes : Int)).tdiv 1000 :=
    Int.tdiv_nonneg hnonneg (by decide)
  rw [getFee, hfits]
  split
  · split
    · decide
    · rw [if_neg (not_lt.mpr hrate)]
      exact hdiv
  · exact hdiv

def maxBlockSerializedSize : Nat := 4000000

namespace CFeeRate

/-- Neither product overflows, and the fee for the size is the fee that was paid for it but for what
the two divisions cut off. -/
def Recovers (f : CAmount) (s : Nat) : Prop :=
  int64 (f * 1000) = f * 1000 ∧
  int64 ((ofFee f s).nSatoshisPerK * s) = (ofFee f s).nSatoshisPerK * s ∧
  (ofFee f s).getFee s ≤ f ∧ f - s / 1000 - 1 ≤ (ofFee f s).getFee s

instance (f : CAmount) (s : Nat) : Decidable (Recovers f s) := inferInstanceAs (Decidable (_ ∧ _))

theorem recovers_of_lt {f : Int} {s : Nat} (hf : 0 ≤ f) (hlt : f * 1000 < 2 ^ 63) (hs : 1 ≤ s) :
    Recovers f s := by
  have hfits : int64 (f * 1000) = f * 1000 := int64_of_fits (by omega) hlt
  have hrate : (ofFee f s).nSatoshisPerK = f * 1000 / (s : Int) := by
    rw [ofFee, if_pos (show 0 < s from hs), hfits]
    exact tdiv_eq_ediv_of_nonneg (by omega)
  -- what the first division cuts off is less than the size
  have hcut := emod_add_mul_ediv (f * 1000) s
  have hrest := emod_lt_of_pos (f * 1000) (natCast_pos.mpr hs)
  have hrest' := emod_nonneg (f * 1000) (b := s) (by omega)
  have hnonneg : 0 ≤ f * 1000 / (s : Int) := ediv_nonneg (by omega) (by omega)
  rw [mul_comm (s : Int)] at hcut
  have hproduct : 0 ≤ f * 1000 / (s : Int) * s := mul_nonneg hnonneg (by omega)
  have hpaid : 0 < f * 1000 / (s : Int) → 1 ≤ f := by
    intro hpos
    have hle := mul_le_mul_of_nonneg_right (show 1 ≤ f * 1000 / (s : Int) from hpos)
      (natCast_nonneg s)
    omega
  have hfits' : int64 (f * 1000 / (s : Int) * s) = f * 1000 / (s : Int) * s :=
    int64_of_fits (by omega) (by omega)
  have hfee : (f * 1000 / (s : Int) * s).tdiv 1000 = f * 1000 / (s : Int) * s / 1000 :=
    tdiv_eq_ediv_of_nonneg hproduct
  refine ⟨hfits, ?_, ?_⟩
  · rw [hrate, hfits']
  · rw [getFee, hrate, hfits', hfee]
    generalize f * 1000 / (s : Int) = rate at *
    generalize rate * (s : Int) = paid at *
    show (_ : Int) ≤ f ∧ f - (s : Int) / 1000 - 1 ≤ (_ : Int)
    split
    · next hzero =>
      obtain ⟨hzero : paid / 1000 = 0, -⟩ := hzero
      split
      · next hpos =>
        have := hpaid hpos
        omega
      · rw [if_neg (show ¬ rate < 0 by omega)]
        omega
    · omega

/-- The fee is recovered exactly if a thousand times the fee is in the range of an `int64_t`. -/
theorem recovers_iff (f : CAmount) (s : Nat) (hf : moneyRange f = true) (hs : 1 ≤ s)
    (_hs' : s ≤ maxBlockSerializedSize) : Recovers f s ↔ f * 1000 < 2 ^ 63 := by
  constructor
  · intro h
    rw [← h.1]
    exact int64_lt _
  · intro hlt
    exact recovers_of_lt (moneyRange_iff.mp hf).1 hlt hs

/-- One coin for a transaction of 225 bytes -/
theorem recovers_coin : Recovers 100000000 225 :=
  (recovers_iff 100000000 225 (by decide) (by decide) (by decide)).mpr (by decide)

/-- A fee of a hundred million coins: the product wraps around, and the fee that comes back is
negative. -/
theorem not_recovers_large :
    moneyRange 10000000000000000 = true ∧ ¬ Recovers 10000000000000000 1000 ∧
      (ofFee 10000000000000000 1000).getFee 1000 = -8446744073709551 := by
  decide

end CFeeRate

end RgmNode
