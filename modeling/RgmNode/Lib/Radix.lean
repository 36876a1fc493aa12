import Mathlib.Data.Nat.Digits.Lemmas
import Mathlib.Data.List.DropRight

/-!
# Numbers in a buffer of digits

A buffer holds a number in base `b`, the lowest digit first, with zeros at its upper end.

* `rdropWhile_zero` — without these zeros it holds the digits of the number
-/

namespace Radix

variable {b : Nat}

theorem rdropWhile_zero (hb : 1 < b) {ds : List Nat} (hds : ∀ d ∈ ds, d < b) :
    ds.rdropWhile (· == 0) = Nat.digits b (Nat.ofDigits b ds) := by
  induction ds using List.reverseRecOn with
  | nil => simp
  | append_singleton ds d ih =>
    obtain ⟨hds', hd⟩ := List.forall_mem_append.mp hds
    by_cases hzero : d = 0
    · subst hzero
      have hvalue : Nat.ofDigits b (ds ++ [0]) = Nat.ofDigits b ds := by
        simp [Nat.ofDigits_append]
      rw [List.rdropWhile_concat_pos _ _ _ rfl, ih hds', hvalue]
    · rw [List.rdropWhile_concat_neg _ _ _ (by simpa using hzero), Nat.digits_ofDigits b hb _ hds]
      intro _
      rwa [List.getLast_append_singleton]

/-- A number of `l` digits of base `a` fits `size` digits of base `b`, if the sizes are in a ratio
that is large enough. -/
theorem pow_le_pow_of_ratio {a p q l size : Nat} (hb : 0 < b) (hq : q ≠ 0)
    (hratio : a ^ q ≤ b ^ p) (h : p * l ≤ q * size) : a ^ l ≤ b ^ size := by
  have hpow : (a ^ l) ^ q ≤ (b ^ size) ^ q :=
    calc (a ^ l) ^ q = (a ^ q) ^ l := Nat.pow_right_comm a l q
      _ ≤ (b ^ p) ^ l := Nat.pow_le_pow_left hratio l
      _ = b ^ (p * l) := (pow_mul b p l).symm
      _ ≤ b ^ (q * size) := Nat.pow_le_pow_right hb h
      _ = (b ^ size) ^ q := by rw [mul_comm, pow_mul]
  exact (Nat.pow_le_pow_iff_left hq).mp hpow

end Radix
