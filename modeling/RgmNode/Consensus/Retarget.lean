import RgmNode.Consensus.CompactTarget

/-!
# The DigiShield retarget

`CalculateRGMNextWorkRequired` on the 256-bit arithmetic it rests on.
-/

namespace RgmNode

open Arith

/-- `nModulatedTimespan` with the step limited, in the DigiShield branch -/
def digishieldTimespan (retargetTimespan nActualTimespan : Int) : Int :=
  let nModulatedTimespan := retargetTimespan + (nActualTimespan - retargetTimespan).tdiv 8
  let nMinTimespan := retargetTimespan - retargetTimespan.tdiv 4
  let nMaxTimespan := retargetTimespan + retargetTimespan.tdiv 2
  if nModulatedTimespan < nMinTimespan then nMinTimespan
  else if nModulatedTimespan > nMaxTimespan then nMaxTimespan
  else nModulatedTimespan

/-- The parameters of a network with DigiShield and a target of a minute -/
structure DigiShield (params : Consensus.Params) : Prop where
  enabled : params.fDigishieldDifficultyCalculation = true
  timespan : params.nPowTargetTimespan = 60
  powLimit : params.powLimit.toNat < 2 ^ 240
  powLimit_pos : 0 < params.powLimit.toNat

theorem digishieldTimespan_eq (d : Int) : digishieldTimespan 60 d =
    if 60 + (d - 60).tdiv 8 < 45 then 45
    else if 60 + (d - 60).tdiv 8 > 90 then 90 else 60 + (d - 60).tdiv 8 := rfl

theorem digishieldTimespan_bounds (d : Int) :
    45 ≤ digishieldTimespan 60 d ∧ digishieldTimespan 60 d ≤ 90 := by
  rw [digishieldTimespan_eq]
  split_ifs <;> omega

theorem digishieldTimespan_mono {d d' : Int} (h : d ≤ d') :
    digishieldTimespan 60 d ≤ digishieldTimespan 60 d' := by
  have hdiv : (d - 60).tdiv 8 ≤ (d' - 60).tdiv 8 :=
    Int.tdiv_le_tdiv (by decide) (Int.sub_le_sub_right h 60)
  rw [digishieldTimespan_eq, digishieldTimespan_eq]
  split_ifs <;> omega

/-- The new target before it is encoded: the old one times the timespan, over a minute -/
def retargeted (params : Consensus.Params) (t m : Nat) : Nat :=
  if t * m / 60 > params.powLimit.toNat then params.powLimit.toNat else t * m / 60

theorem retargeted_mono (params : Consensus.Params) (t : Nat) {m m' : Nat} (hle : m ≤ m') :
    retargeted params t m ≤ retargeted params t m' := by
  have hmul : t * m ≤ t * m' := Nat.mul_le_mul_left t hle
  unfold retargeted
  split_ifs <;> omega

section

variable {params : Consensus.Params} (hparams : DigiShield params) {pindexLast : CBlockIndex}
  {nFirstBlockTime : Int} {t m : Nat}

include hparams

/-- The product fits in 256 bits and the factor in 32. -/
theorem calculateRGMNextWorkRequired_eq (ht : (setCompact pindexLast.nBits).target = t)
    (hlimit : t ≤ params.powLimit.toNat)
    (hm : (m : Int) = digishieldTimespan 60 (pindexLast.getBlockTime - nFirstBlockTime)) :
    t * m < 2 ^ 256 ∧
      calculateRGMNextWorkRequired pindexLast nFirstBlockTime params =
        getCompact (retargeted params t m) := by
  obtain ⟨hmin, hmax⟩ := digishieldTimespan_bounds (pindexLast.getBlockTime - nFirstBlockTime)
  have hpow := hparams.powLimit
  have hfits : t * m < 2 ^ 256 := by
    calc t * m ≤ 2 ^ 240 * 90 := Nat.mul_le_mul (by omega) (by omega)
      _ < 2 ^ 256 := by decide
  have hword : ((m : Int) % 2 ^ 32).toNat = m := by omega
  have hmul : mulWord t m = t * m := by rw [mulWord, hword, Nat.mod_eq_of_lt hfits]
  refine ⟨hfits, ?_⟩
  unfold calculateRGMNextWorkRequired
  rw [hparams.enabled, hparams.timespan, ht]
  change getCompact
    (if mulWord t (digishieldTimespan 60 (pindexLast.getBlockTime - nFirstBlockTime)) / 60 >
        params.powLimit.toNat then params.powLimit.toNat
      else mulWord t (digishieldTimespan 60 (pindexLast.getBlockTime - nFirstBlockTime)) / 60) = _
  rw [← hm, hmul]
  rfl

theorem retargeted_bounds (h2 : 2 ≤ t) (hlimit : t ≤ params.powLimit.toNat) (hmin : 45 ≤ m)
    (hmax : m ≤ 90) :
    0 < retargeted params t m ∧ retargeted params t m < 2 ^ 256 ∧
      retargeted params t m ≤ params.powLimit.toNat ∧ retargeted params t m ≤ 3 * t / 2 ∧
      min (3 * t / 4) params.powLimit.toNat ≤ retargeted params t m := by
  have hpow := hparams.powLimit
  have hlow : t * 45 ≤ t * m := Nat.mul_le_mul_left t hmin
  have hhigh : t * m ≤ t * 90 := Nat.mul_le_mul_left t hmax
  unfold retargeted
  split <;> omega

end

/-- The parameters of the main and the test network, before and after merge mining -/
def digishieldParams : List Consensus.Params :=
  [mainParams.consensus, mainParams.auxpowConsensus, testNetParams.consensus,
    testNetParams.auxpowConsensus]

theorem digiShield_of_mem {params : Consensus.Params} (h : params ∈ digishieldParams) :
    DigiShield params := by
  simp only [digishieldParams, List.mem_cons, List.not_mem_nil, or_false] at h
  rcases h with rfl | rfl | rfl | rfl <;>
    exact ⟨rfl, rfl, by decide +kernel, by decide +kernel⟩

/-- The retarget computes product and quotient without overflow.  The new target is valid, at most
half as large again as the old one, at least three quarters of it up to its encoding, and grows
with the difference of the block times. -/
theorem retarget_bounded (params : Consensus.Params) (hparams : params ∈ digishieldParams)
    (pindexLast : CBlockIndex) (nFirstBlockTime : Int) (t : Nat)
    (ht : (setCompact pindexLast.nBits).target = t) (h2 : 2 ≤ t)
    (hlimit : t ≤ params.powLimit.toNat) :
    (∃ m quotient : Nat,
      (m : Int) = digishieldTimespan params.nPowTargetTimespan
        (pindexLast.getBlockTime - nFirstBlockTime) ∧ m < 2 ^ 32 ∧ t * m < 2 ^ 256 ∧
      value (mulLimbs m (limbs 8 t) 0) = t * m ∧
      divide (t * m) params.nPowTargetTimespan.toNat = some quotient ∧
      calculateRGMNextWorkRequired pindexLast nFirstBlockTime params =
        getCompact (if quotient > params.powLimit.toNat then params.powLimit.toNat
          else quotient)) ∧
    (let next := setCompact (calculateRGMNextWorkRequired pindexLast nFirstBlockTime params);
      next.fNegative = false ∧ next.fOverflow = false ∧ next.target ≠ 0 ∧
      next.target ≤ params.powLimit.toNat ∧ next.target ≤ 3 * t / 2 ∧
      truncation (min (3 * t / 4) params.powLimit.toNat) ≤ next.target) ∧
    ∀ (pindexLast' : CBlockIndex) (nFirstBlockTime' : Int),
      pindexLast'.nBits = pindexLast.nBits →
      pindexLast.getBlockTime - nFirstBlockTime ≤
        pindexLast'.getBlockTime - nFirstBlockTime' →
      (setCompact (calculateRGMNextWorkRequired pindexLast nFirstBlockTime params)).target ≤
        (setCompact (calculateRGMNextWorkRequired pindexLast' nFirstBlockTime' params)).target := by
  have hshield := digiShield_of_mem hparams
  have hspan : ∀ d : Int, ∃ m : Nat, (m : Int) = digishieldTimespan 60 d ∧ 45 ≤ m ∧ m ≤ 90 := by
    intro d
    have hbounds := digishieldTimespan_bounds d
    exact ⟨(digishieldTimespan 60 d).toNat, by omega, by omega, by omega⟩
  obtain ⟨m, hm, hmin, hmax⟩ := hspan (pindexLast.getBlockTime - nFirstBlockTime)
  obtain ⟨hfits, heq⟩ := calculateRGMNextWorkRequired_eq hshield ht hlimit hm
  obtain ⟨hpos, hlt, hle, hhalf, hquarter⟩ := retargeted_bounds hshield h2 hlimit hmin hmax
  refine ⟨⟨m, t * m / 60, ?_, by omega, hfits, ?_, ?_, heq⟩, ?_, ?_⟩
  · rw [hshield.timespan]
    exact hm
  · have hword : ((m : Int) % 2 ^ 32).toNat = m := by omega
    have hmul := mulWord_eq_value t m (by omega)
    rw [mulWord, hword, Nat.mod_eq_of_lt hfits] at hmul
    exact hmul.symm
  · rw [hshield.timespan]
    exact divide_eq hfits (by decide)
  · have hdecoded := setCompact_getCompact hlt
    have hkept := lt_of_lt_of_le (Nat.two_pow_pos _) (two_pow_le_truncation hpos hlt)
    have hcut := truncation_le hlt
    rw [heq]
    refine ⟨by rw [hdecoded], by rw [hdecoded], ne_of_gt hkept, hcut.trans hle,
      hcut.trans hhalf, ?_⟩
    exact truncation_mono hquarter hlt
  · intro pindexLast' nFirstBlockTime' hbits hdiff
    obtain ⟨m', hm', hmin', hmax'⟩ := hspan (pindexLast'.getBlockTime - nFirstBlockTime')
    obtain ⟨-, heq'⟩ := calculateRGMNextWorkRequired_eq hshield (hbits ▸ ht) hlimit hm'
    have hspans := digishieldTimespan_mono hdiff
    rw [heq, heq']
    refine truncation_mono (retargeted_mono params t ?_)
      (retargeted_bounds hshield h2 hlimit hmin' hmax').2.1
    omega

/-- A block at the target of the first block of the main network, long after its parent -/
theorem retarget_bounded_genesis :
    (setCompact (calculateRGMNextWorkRequired (.root ⟨0, 1, 0, 1772064000, 0x1e0ffff0, 0⟩) 0
      mainParams.consensus)).target ≤ mainParams.consensus.powLimit.toNat :=
  (retarget_bounded mainParams.consensus List.mem_cons_self
    (.root ⟨0, 1, 0, 1772064000, 0x1e0ffff0, 0⟩) 0 (setCompact 0x1e0ffff0).target rfl
    (by decide +kernel) (by decide +kernel)).2.1.2.2.2.1

end RgmNode
