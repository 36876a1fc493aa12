import RgmNode.Consensus.Pow

/-!
# Arithmetic of 256 bits

The operators of `arith_uint256.cpp`: the product limb by limb, the long division, and the compact
encoding, which keeps the highest bytes.  Shifts, subtraction and comparison, which `base_uint` has
on limbs too, are those of the values.

* `value_mulLimbs`, `divide_eq` — the loops compute product and quotient
-/

namespace RgmNode

namespace Arith

/-! ## 1. Multiplication and division -/

/-- `pn`, the limbs of 32 bits, the lowest first -/
def limbs : Nat → Nat → List Nat
  | 0, _ => []
  | width + 1, n => n % 2 ^ 32 :: limbs width (n / 2 ^ 32)

def value : List Nat → Nat
  | [] => 0
  | p :: pn => p + 2 ^ 32 * value pn

/-- The loop of `operator*=(uint32_t)`, with `carry` -/
def mulLimbs (b32 : Nat) : List Nat → Nat → List Nat
  | [], _ => []
  | p :: pn, carry =>
    let n := (carry + b32 * p) % 2 ^ 64
    n % 2 ^ 32 :: mulLimbs b32 pn (n / 2 ^ 32)

/-- The loop of `operator/=`, with `shift + 1` rounds to go -/
def divLoop : Nat → Nat → Nat → Nat → Nat
  | 0, _, _, quotient => quotient
  | shift + 1, num, div, quotient =>
    if div ≤ num then divLoop shift (num - div) (div / 2) (quotient ||| 2 ^ shift)
    else divLoop shift num (div / 2) quotient

/-- `operator/=`, which throws if the divisor is zero -/
def divide (num b : Nat) : Option Nat :=
  if bits b = 0 then none
  else if bits num < bits b then some 0
  else
    let shift := bits num - bits b
    some (divLoop (shift + 1) num (b * 2 ^ shift % 2 ^ 256) 0)

theorem value_limbs (width n : Nat) : value (limbs width n) = n % 2 ^ (32 * width) := by
  induction width generalizing n with
  | zero => exact (Nat.mod_one n).symm
  | succ width ih =>
    rw [limbs, value, ih, Nat.mul_succ, add_comm (32 * width), pow_add, Nat.mod_mul]

theorem limbs_lt {width n p : Nat} (hp : p ∈ limbs width n) : p < 2 ^ 32 := by
  induction width generalizing n with
  | zero => cases hp
  | succ width ih =>
    rcases List.mem_cons.mp hp with rfl | hp
    · exact Nat.mod_lt _ (Nat.two_pow_pos 32)
    · exact ih hp

theorem value_mulLimbs {b32 carry : Nat} {pn : List Nat} (hb : b32 < 2 ^ 32)
    (hcarry : carry < 2 ^ 32) (hpn : ∀ p ∈ pn, p < 2 ^ 32) :
    value (mulLimbs b32 pn carry) = (carry + b32 * value pn) % 2 ^ (32 * pn.length) := by
  induction pn generalizing carry with
  | nil => exact (Nat.mod_one _).symm
  | cons p pn ih =>
    obtain ⟨hp, hpn⟩ := List.forall_mem_cons.mp hpn
    -- the sum fits in 64 bits, since all factors are below `2 ^ 32`
    have hproduct : b32 * p ≤ (2 ^ 32 - 1) * (2 ^ 32 - 1) :=
      Nat.mul_le_mul (Nat.le_sub_one_of_lt hb) (Nat.le_sub_one_of_lt hp)
    have hn : carry + b32 * p < 2 ^ 64 := by omega
    have hnext : (carry + b32 * p) / 2 ^ 32 < 2 ^ 32 := by omega
    have hsum : carry + b32 * (p + 2 ^ 32 * value pn) =
        carry + b32 * p + 2 ^ 32 * (b32 * value pn) := by ring
    rw [mulLimbs, Nat.mod_eq_of_lt hn, value, value, ih hnext hpn, hsum, List.length_cons,
      Nat.mul_succ, add_comm (32 * pn.length), pow_add, Nat.mod_mul,
      Nat.add_mul_mod_self_left, Nat.add_mul_div_left _ _ (Nat.two_pow_pos 32)]

theorem mulWord_eq_value (bn : Nat) (factor : Int) (hbn : bn < 2 ^ 256) :
    mulWord bn factor = value (mulLimbs (factor % 2 ^ 32).toNat (limbs 8 bn) 0) := by
  have hfactor : (factor % 2 ^ 32).toNat < 2 ^ 32 := by omega
  rw [value_mulLimbs hfactor (Nat.two_pow_pos 32) fun _ => limbs_lt, value_limbs,
    Nat.mod_eq_of_lt (a := bn) hbn, zero_add, mul_comm]
  rfl

theorem lt_two_pow_bits (n : Nat) : n < 2 ^ bits n := by
  unfold bits
  split
  · next hzero =>
    rw [hzero]
    exact one_pos
  · exact Nat.lt_log2_self

theorem two_pow_bits_le {n : Nat} (hn : 0 < n) : 0 < bits n ∧ 2 ^ (bits n - 1) ≤ n := by
  rw [bits, if_neg (ne_of_gt hn)]
  exact ⟨Nat.succ_pos _, Nat.log2_self_le (ne_of_gt hn)⟩

theorem bits_mono {m n : Nat} (h : m ≤ n) : bits m ≤ bits n := by
  rcases eq_zero_or_pos m with rfl | hm
  · exact Nat.zero_le _
  · have hlt := lt_of_le_of_lt ((two_pow_bits_le hm).2.trans h) (lt_two_pow_bits n)
    have := (Nat.pow_lt_pow_iff_right (by decide)).mp hlt
    omega

theorem bits_le {n k : Nat} (h : n < 2 ^ k) : bits n ≤ k := by
  rcases eq_zero_or_pos n with rfl | hn
  · exact Nat.zero_le _
  · have hlt := lt_of_le_of_lt (two_pow_bits_le hn).2 h
    have := (Nat.pow_lt_pow_iff_right (by decide)).mp hlt
    omega

/-- Each round finds one bit of the quotient. -/
theorem divLoop_eq {b k num quotient : Nat} (hb : 0 < b) (hnum : num < b * 2 ^ k)
    (hquotient : 2 ^ k ∣ quotient) :
    divLoop k num (b * 2 ^ k / 2) quotient = quotient + num / b := by
  induction k generalizing num quotient with
  | zero =>
    rw [pow_zero, mul_one] at hnum
    rw [divLoop, Nat.div_eq_of_lt hnum, add_zero]
  | succ k ih =>
    have hhalf : b * 2 ^ (k + 1) / 2 = b * 2 ^ k := by
      rw [pow_succ, ← Nat.mul_assoc, Nat.mul_div_cancel _ Nat.two_pos]
    have hdouble : b * 2 ^ (k + 1) = b * 2 ^ k + b * 2 ^ k := by ring
    have hdvd : 2 ^ k ∣ quotient := (pow_dvd_pow 2 (Nat.le_succ k)).trans hquotient
    rw [divLoop, hhalf]
    split
    · next hle =>
      obtain ⟨a, rfl⟩ := hquotient
      have hor : 2 ^ (k + 1) * a ||| 2 ^ k = 2 ^ (k + 1) * a + 2 ^ k :=
        (Nat.two_pow_add_eq_or_of_lt (Nat.pow_lt_pow_right (by decide) (Nat.lt_succ_self k)) a).symm
      have hrest : num / b = 2 ^ k + (num - b * 2 ^ k) / b := by
        conv_lhs => rw [← Nat.add_sub_cancel' hle]
        rw [Nat.mul_add_div hb]
      rw [hor, ih (by omega) (Nat.dvd_add hdvd (dvd_refl _)), hrest, add_assoc]
    · next hlt => exact ih (not_le.mp hlt) hdvd

theorem divide_eq {num b : Nat} (hnum : num < 2 ^ 256) (hb : 0 < b) :
    divide num b = some (num / b) := by
  obtain ⟨hbits, hlow⟩ := two_pow_bits_le hb
  have hhigh := lt_two_pow_bits num
  rw [divide, if_neg (ne_of_gt hbits)]
  split
  · next hless =>
    have hlt : num < b := lt_of_lt_of_le hhigh
      ((Nat.pow_le_pow_right two_pos (by omega)).trans hlow)
    rw [Nat.div_eq_of_lt hlt]
  · next hmore =>
    have hshift : bits b + (bits num - bits b) = bits num := by omega
    have hfits : b * 2 ^ (bits num - bits b) < 2 ^ 256 := by
      have hlt := mul_lt_mul_of_pos_right (lt_two_pow_bits b)
        (Nat.two_pow_pos (bits num - bits b))
      rw [← pow_add, hshift] at hlt
      exact lt_of_lt_of_le hlt (Nat.pow_le_pow_right two_pos (bits_le hnum))
    have hrange : num < b * 2 ^ (bits num - bits b + 1) := by
      refine lt_of_lt_of_le hhigh ?_
      have hsplit : bits num = bits b - 1 + (bits num - bits b + 1) := by omega
      conv_lhs => rw [hsplit, pow_add]
      exact Nat.mul_le_mul_right _ hlow
    have hhalf : b * 2 ^ (bits num - bits b) = b * 2 ^ (bits num - bits b + 1) / 2 := by
      rw [pow_succ, ← Nat.mul_assoc, Nat.mul_div_cancel _ Nat.two_pos]
    dsimp only
    rw [Nat.mod_eq_of_lt hfits, hhalf, divLoop_eq hb hrange (dvd_zero _), zero_add]

/-! ## 2. The compact form -/

/-- The size of the compact form: the number of bytes with room for a sign -/
def size (n : Nat) : Nat := bits n / 8 + 1

/-- The mantissa: the three highest bytes -/
def mantissa (n : Nat) : Nat := n * 2 ^ 24 / 2 ^ (8 * size n)

/-- The number of low bits that the compact form drops -/
def dropped (n : Nat) : Nat := 8 * (size n - 3)

/-- What is left of a number in compact form -/
def truncation (n : Nat) : Nat := (setCompact (getCompact n)).target

variable {m n : Nat}

theorem lt_two_pow_size (n : Nat) : n < 2 ^ (8 * size n - 1) := by
  refine lt_of_lt_of_le (lt_two_pow_bits n) (Nat.pow_le_pow_right two_pos ?_)
  unfold size
  omega

theorem mantissa_lt (n : Nat) : mantissa n < 2 ^ 23 := by
  have hsize : 8 * size n - 1 + 24 = 23 + 8 * size n := by
    unfold size
    omega
  have hlt := mul_lt_mul_of_pos_right (lt_two_pow_size n) (Nat.two_pow_pos 24)
  rw [← pow_add, hsize, pow_add] at hlt
  refine Nat.div_lt_of_lt_mul ?_
  rwa [mul_comm (2 ^ (8 * size n))]

theorem three_bytes {nSize : Nat} (hfits : n < 2 ^ (8 * nSize)) :
    (if nSize ≤ 3 then (n % 2 ^ 64 * 2 ^ (8 * (3 - nSize))) % 2 ^ 32
      else n / 2 ^ (8 * (nSize - 3)) % 2 ^ 32) = n * 2 ^ 24 / 2 ^ (8 * nSize) := by
  have hlt : n * 2 ^ 24 / 2 ^ (8 * nSize) < 2 ^ 32 := by
    refine Nat.div_lt_of_lt_mul ?_
    exact Nat.mul_lt_mul_of_lt_of_lt hfits (by decide)
  split
  · next hsmall =>
    have hle : 2 ^ (8 * nSize) ≤ 2 ^ 64 := Nat.pow_le_pow_right two_pos (by omega)
    have hpow : 2 ^ 24 = 2 ^ (8 * (3 - nSize)) * 2 ^ (8 * nSize) := by
      rw [← pow_add]
      congr 1
      omega
    rw [hpow, ← Nat.mul_assoc, Nat.mul_div_cancel _ (Nat.two_pow_pos _)] at hlt ⊢
    rw [Nat.mod_eq_of_lt (lt_of_lt_of_le hfits hle), Nat.mod_eq_of_lt hlt]
  · next hlarge =>
    have hpow : 2 ^ (8 * nSize) = 2 ^ (8 * (nSize - 3)) * 2 ^ 24 := by
      rw [← pow_add]
      congr 1
      omega
    rw [hpow, Nat.mul_div_mul_right _ _ (Nat.two_pow_pos 24)] at hlt ⊢
    rw [Nat.mod_eq_of_lt hlt]

/-- The sign bit is set exactly if all bits of the highest byte are used. -/
theorem toNat_getCompact (hpos : 0 < n) (hn : n < 2 ^ 256) :
    (getCompact n).toNat = mantissa n + size n * 2 ^ 24 := by
  obtain ⟨hbits, hlow⟩ := two_pow_bits_le hpos
  have hhigh := lt_two_pow_bits n
  have hle : bits n ≤ 256 := bits_le hn
  have hm := mantissa_lt n
  have hs : size n ≤ 33 := by
    unfold size
    omega
  have hfits : n < 2 ^ (8 * ((bits n + 7) / 8)) :=
    lt_of_lt_of_le hhigh (Nat.pow_le_pow_right two_pos (by omega))
  have hword : mantissa n + size n * 2 ^ 24 < 2 ^ 32 := by omega
  rw [getCompact]
  rw [three_bytes hfits]
  by_cases hfull : bits n % 8 = 0
  · -- all bits of the highest byte are used: the mantissa moves down a byte
    have hsize : 8 * ((bits n + 7) / 8) = bits n := by omega
    have hbyte : n * 2 ^ 24 / 2 ^ bits n / 2 ^ 8 = mantissa n := by
      rw [Nat.div_div_eq_div_mul, ← pow_add, mantissa, size]
      congr 2
      omega
    have hsign : 2 ^ 23 ≤ n * 2 ^ 24 / 2 ^ bits n := by
      rw [Nat.le_div_iff_mul_le (Nat.two_pow_pos _), ← Nat.pow_add,
        show 23 + bits n = bits n - 1 + 24 by omega, pow_add]
      exact Nat.mul_le_mul_right _ hlow
    have hthree : n * 2 ^ 24 / 2 ^ bits n < 2 ^ 24 := by
      refine Nat.div_lt_of_lt_mul ?_
      exact mul_lt_mul_of_pos_right hhigh (Nat.two_pow_pos 24)
    have hset : n * 2 ^ 24 / 2 ^ bits n / 2 ^ 23 % 2 = 1 := by omega
    rw [hsize, if_pos hset, hbyte, show (bits n + 7) / 8 + 1 = size n by unfold size; omega,
      UInt32.toNat_ofNat_of_lt' hword]
  · have hsize : (bits n + 7) / 8 = size n := by
      unfold size
      omega
    unfold mantissa at hm hword ⊢
    have hclear : ¬ n * 2 ^ 24 / 2 ^ (8 * size n) / 2 ^ 23 % 2 = 1 := by
      rw [Nat.div_eq_of_lt hm]
      decide
    rw [hsize, if_neg hclear, UInt32.toNat_ofNat_of_lt' hword]

theorem setCompact_getCompact (hn : n < 2 ^ 256) :
    setCompact (getCompact n) = ⟨n / 2 ^ dropped n * 2 ^ dropped n, false, false⟩ := by
  rcases eq_zero_or_pos n with rfl | hpos
  · decide
  have hm := mantissa_lt n
  have hs : size n ≤ 33 := by
    have := bits_le hn
    unfold size
    omega
  have hnat := toNat_getCompact hpos hn
  have hsize : (getCompact n).toNat / 2 ^ 24 = size n := by omega
  have hword : (getCompact n).toNat % 2 ^ 23 = mantissa n := by omega
  have hsign : getCompact n &&& 0x00800000 = 0 := by
    rw [← UInt32.toNat_inj]
    show (getCompact n).toNat &&& 2 ^ 23 = 0
    have hclear : (getCompact n).toNat / 2 ^ 23 % 2 = 0 := by omega
    refine Nat.eq_of_testBit_eq fun i => ?_
    rw [Nat.testBit_and, Nat.testBit_two_pow, Nat.zero_testBit]
    rcases eq_or_ne 23 i with rfl | hi
    · rw [Nat.testBit_eq_decide_div_mod_eq, hclear]
      rfl
    · rw [decide_eq_false hi, Bool.and_false]
  -- with the largest size the mantissa has two bytes
  have htop : ¬ (mantissa n > 0xffff ∧ size n > 32) := by
    rintro ⟨hwide, hlarge⟩
    rw [mantissa, show size n = 33 by omega] at hwide
    omega
  have htarget : (if size n ≤ 3 then mantissa n / 2 ^ (8 * (3 - size n))
      else mantissa n * 2 ^ (8 * (size n - 3)) % 2 ^ 256) = n / 2 ^ dropped n * 2 ^ dropped n := by
    unfold mantissa dropped
    split
    · next hsmall =>
      have hpow : 2 ^ 24 = 2 ^ (8 * (3 - size n)) * 2 ^ (8 * size n) := by
        rw [← pow_add]
        congr 1
        omega
      rw [hpow, ← Nat.mul_assoc, Nat.mul_div_cancel _ (Nat.two_pow_pos _),
        Nat.mul_div_cancel _ (Nat.two_pow_pos _), Nat.sub_eq_zero_of_le hsmall, Nat.mul_zero,
        pow_zero, Nat.div_one, Nat.mul_one]
    · next hlarge =>
      have hpow : 2 ^ (8 * size n) = 2 ^ (8 * (size n - 3)) * 2 ^ 24 := by
        rw [← pow_add]
        congr 1
        omega
      rw [hpow, Nat.mul_div_mul_right _ _ (Nat.two_pow_pos 24)]
      exact Nat.mod_eq_of_lt (lt_of_le_of_lt (Nat.div_mul_le_self _ _) hn)
  rw [setCompact, hsize, hword, hsign, Compact.mk.injEq, ← htarget]
  refine ⟨by split <;> rfl, Bool.and_false _, ?_⟩
  rcases Nat.lt_or_ge 3 (size n) with hlarge | hsmall
  · simp only [not_le.mpr hlarge, show ¬ size n > 34 by omega, show ¬ size n > 33 by omega]
    simpa using fun _ hwide => not_lt.mp fun h => htop ⟨hwide, h⟩
  · simp [show ¬ size n > 34 by omega, show ¬ size n > 33 by omega, show ¬ size n > 32 by omega]

theorem truncation_eq (hn : n < 2 ^ 256) : truncation n = n / 2 ^ dropped n * 2 ^ dropped n := by
  rw [truncation, setCompact_getCompact hn]

theorem truncation_le (hn : n < 2 ^ 256) : truncation n ≤ n := by
  rw [truncation_eq hn]
  exact Nat.div_mul_le_self n _

theorem two_pow_le_truncation (hpos : 0 < n) (hn : n < 2 ^ 256) :
    2 ^ (bits n - 1) ≤ truncation n := by
  obtain ⟨hbits, hlow⟩ := two_pow_bits_le hpos
  have hle : dropped n ≤ bits n - 1 := by
    unfold dropped size
    omega
  rw [truncation_eq hn]
  calc 2 ^ (bits n - 1) = 2 ^ (bits n - 1) / 2 ^ dropped n * 2 ^ dropped n :=
        (Nat.div_mul_cancel (Nat.pow_dvd_pow 2 hle)).symm
    _ ≤ n / 2 ^ dropped n * 2 ^ dropped n := Nat.mul_le_mul_right _ (Nat.div_le_div_right hlow)

/-- Numbers keep their order: a number with a smaller size is below the highest bit. -/
theorem truncation_mono (hle : m ≤ n) (hn : n < 2 ^ 256) : truncation m ≤ truncation n := by
  have hm : m < 2 ^ 256 := lt_of_le_of_lt hle hn
  have hbits := bits_mono hle
  rcases eq_or_lt_of_le (Nat.div_le_div_right hbits : bits m / 8 ≤ bits n / 8) with hsame | hless
  · have hdropped : dropped m = dropped n := by
      unfold dropped size
      rw [hsame]
    rw [truncation_eq hm, truncation_eq hn, hdropped]
    exact Nat.mul_le_mul_right _ (Nat.div_le_div_right hle)
  · have hpos : 0 < n := by
      refine pos_of_ne_zero ?_
      rintro rfl
      exact Nat.not_lt_zero _ hless
    calc truncation m ≤ m := truncation_le hm
      _ ≤ 2 ^ bits m := (lt_two_pow_bits m).le
      _ ≤ 2 ^ (bits n - 1) := Nat.pow_le_pow_right two_pos (by omega)
      _ ≤ truncation n := two_pow_le_truncation hpos hn

/-- What is dropped is less than a unit of a mantissa of sixteen bits. -/
theorem error_truncation (hpos : 0 < n) (hn : n < 2 ^ 256) : (n - truncation n) * 2 ^ 15 < n := by
  obtain ⟨hbits, hlow⟩ := two_pow_bits_le hpos
  have hsplit := Nat.div_add_mod' n (2 ^ dropped n)
  have hrest : n - truncation n = n % 2 ^ dropped n := by
    rw [truncation_eq hn]
    omega
  rw [hrest]
  rcases eq_zero_or_pos (dropped n) with hzero | hdropped
  · rw [hzero, pow_zero, Nat.mod_one]
    exact hpos
  · calc n % 2 ^ dropped n * 2 ^ 15 < 2 ^ dropped n * 2 ^ 15 :=
          mul_lt_mul_of_pos_right (Nat.mod_lt _ (Nat.two_pow_pos _)) (Nat.two_pow_pos 15)
      _ = 2 ^ (dropped n + 15) := (pow_add 2 _ _).symm
      _ ≤ 2 ^ (bits n - 1) := by
          refine Nat.pow_le_pow_right two_pos ?_
          unfold dropped size at hdropped ⊢
          omega
      _ ≤ n := hlow

theorem getCompact_truncation (hn : n < 2 ^ 256) : getCompact (truncation n) = getCompact n := by
  rcases eq_zero_or_pos n with rfl | hpos
  · decide
  have hle := truncation_le hn
  have hlow := two_pow_le_truncation hpos hn
  have hbits : bits (truncation n) = bits n := by
    have hlt := (Nat.pow_lt_pow_iff_right (by decide)).mp
      (lt_of_le_of_lt hlow (lt_two_pow_bits (truncation n)))
    have := bits_mono hle
    omega
  have hsize : size (truncation n) = size n := by rw [size, size, hbits]
  have hmantissa : mantissa (truncation n) = mantissa n := by
    rw [mantissa, mantissa, hsize, truncation_eq hn, dropped]
    rcases Nat.lt_or_ge 3 (size n) with hlarge | hsmall
    · have hpow : 2 ^ (8 * size n) = 2 ^ (8 * (size n - 3)) * 2 ^ 24 := by
        rw [← pow_add]
        congr 1
        omega
      rw [hpow, Nat.mul_div_mul_right _ _ (Nat.two_pow_pos 24),
        Nat.mul_div_mul_right _ _ (Nat.two_pow_pos 24), Nat.mul_div_cancel _ (Nat.two_pow_pos _)]
    · rw [Nat.sub_eq_zero_of_le hsmall, pow_zero, Nat.div_one, Nat.mul_one]
  rw [← UInt32.toNat_inj, toNat_getCompact hpos hn,
    toNat_getCompact (lt_of_lt_of_le (Nat.two_pow_pos _) hlow) (lt_of_le_of_lt hle hn),
    hsize, hmantissa]

theorem getCompact_mono (hle : m ≤ n) (hn : n < 2 ^ 256) : getCompact m ≤ getCompact n := by
  rcases eq_zero_or_pos m with rfl | hpos
  · exact UInt32.le_iff_toNat_le.mpr (Nat.zero_le _)
  have hmantissa := mantissa_lt m
  have hsizes : size m ≤ size n := Nat.succ_le_succ (Nat.div_le_div_right (bits_mono hle))
  rw [UInt32.le_iff_toNat_le, toNat_getCompact hpos (lt_of_le_of_lt hle hn),
    toNat_getCompact (lt_of_lt_of_le hpos hle) hn]
  rcases eq_or_lt_of_le hsizes with hsame | hless
  · have hsmaller : mantissa m ≤ mantissa n := by
      rw [mantissa, hsame]
      exact Nat.div_le_div_right (Nat.mul_le_mul_right _ hle)
    omega
  · omega

/-- A number in compact form, read again, has no sign and does not overflow.  It is the number
rounded down with an error of less than one in `2 ^ 15`; larger numbers have larger encodings that
stand for larger numbers, and what was read has the same encoding. -/
theorem compact_rounds (x : Uint256) :
    (setCompact (getCompact x.toNat)).fNegative = false ∧
    (setCompact (getCompact x.toNat)).fOverflow = false ∧
    (setCompact (getCompact x.toNat)).target ≤ x.toNat ∧
    (0 < x.toNat → (x.toNat - (setCompact (getCompact x.toNat)).target) * 2 ^ 15 < x.toNat) ∧
    (∀ x' : Uint256, x ≤ x' → getCompact x.toNat ≤ getCompact x'.toNat ∧
      (setCompact (getCompact x.toNat)).target ≤ (setCompact (getCompact x'.toNat)).target) ∧
    getCompact (setCompact (getCompact x.toNat)).target = getCompact x.toNat := by
  have hx := x.isLt
  have hread := setCompact_getCompact hx
  refine ⟨by rw [hread], by rw [hread], truncation_le hx, fun hpos => error_truncation hpos hx,
    fun x' hle => ?_, getCompact_truncation hx⟩
  exact ⟨getCompact_mono hle x'.isLt, truncation_mono hle x'.isLt⟩

end Arith

end RgmNode
