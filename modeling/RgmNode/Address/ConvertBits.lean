import RgmNode.Lib.BitGroups
import RgmNode.Primitives.Bytes

/-!
# Regrouping bits

`ConvertBits` of `bech32.h`, between groups of `frombits` and of `tobits` bits.  Both directions
are compared as rows of bits, of which the buffer `val` holds the last `bits`.
-/

namespace RgmNode

open BitGroups List

/-! ## 1. The code -/

/-- The inner loop: the groups that `bits` buffered bits give, and the bits that are left. -/
def drainBits (tobits val bits : Nat) : Bytes × Nat :=
  if 0 < tobits ∧ tobits ≤ bits then
    let rest := drainBits tobits val (bits - tobits)
    (UInt8.ofNat (val >>> (bits - tobits) &&& (2 ^ tobits - 1)) :: rest.1, rest.2)
  else ([], bits)
termination_by bits

/-- The loop over the input, with what is pushed to `out`, and `val` and `bits` after it.
`val` is an `int`, of which only the low bits are read. -/
def convertLoop (frombits tobits : Nat) : Bytes → Nat → Nat → Bytes × Nat × Nat
  | [], val, bits => ([], val, bits)
  | x :: xs, val, bits =>
    let val := (val <<< frombits ||| x.toNat) % 2 ^ 32
    let drained := drainBits tobits val (bits + frombits)
    let rest := convertLoop frombits tobits xs val drained.2
    (drained.1 ++ rest.1, rest.2)

/-- `ConvertBits<frombits, tobits, pad>`: whether it succeeds, and `out`. -/
def convertBits (frombits tobits : Nat) (pad : Bool) (xs : Bytes) : Bool × Bytes :=
  let ⟨out, val, bits⟩ := convertLoop frombits tobits xs 0 0
  let last := val <<< (tobits - bits) &&& (2 ^ tobits - 1)
  if pad then
    (true, if bits ≠ 0 then out ++ [UInt8.ofNat last] else out)
  else
    (!(decide (frombits ≤ bits) || last != 0), out)

/-! ## 2. The loops keep the row of bits -/

variable {frombits tobits : Nat} {xs : Bytes}

theorem toNat_ofNat_and {v : Nat} (hto : tobits ≤ 8) :
    (UInt8.ofNat (v &&& (2 ^ tobits - 1))).toNat = v % 2 ^ tobits := by
  have hpow : 2 ^ tobits ≤ 2 ^ 8 := Nat.pow_le_pow_right two_pos hto
  have hlt : v % 2 ^ tobits < 2 ^ 8 := lt_of_lt_of_le (Nat.mod_lt _ (Nat.two_pow_pos _)) hpow
  rw [Nat.and_two_pow_sub_one_eq_mod, UInt8.toNat_ofNat_of_lt' hlt]

theorem drainBits_spec (hpos : 0 < tobits) (hto : tobits ≤ 8) (val n : Nat) :
    groups tobits (drainBits tobits val n).1 ++ bits (drainBits tobits val n).2 val = bits n val ∧
      (drainBits tobits val n).2 < tobits ∧ Fits tobits (drainBits tobits val n).1 := by
  induction n using Nat.strong_induction_on with
  | _ n ih =>
    rw [drainBits]
    split
    · next h =>
      obtain ⟨hrow, hlt, hfits⟩ := ih (n - tobits) (Nat.sub_lt_of_pos_le hpos h.2)
      refine ⟨?_, hlt, forall_mem_cons.mpr ⟨?_, hfits⟩⟩
      · rw [groups_cons, toNat_ofNat_and hto, bits_mod (le_refl _), append_assoc, hrow,
          ← bits_add, Nat.add_sub_cancel' h.2]
      · rw [toNat_ofNat_and hto]
        exact Nat.mod_lt _ (Nat.two_pow_pos _)
    · next h =>
      have hlt : n < tobits := Nat.lt_of_not_le fun hle => h ⟨hpos, hle⟩
      exact ⟨rfl, hlt, fun v hv => absurd hv not_mem_nil⟩

/-- What is pushed and what stays in the buffer are the row that came in. -/
theorem convertLoop_spec (hpos : 0 < tobits) (hto : tobits ≤ 8) (hfrom : frombits ≤ 8)
    (hxs : Fits frombits xs) {n : Nat} (hn : n < tobits) (val : Nat) :
    groups tobits (convertLoop frombits tobits xs val n).1 ++
        bits (convertLoop frombits tobits xs val n).2.2
          (convertLoop frombits tobits xs val n).2.1 = bits n val ++ groups frombits xs ∧
      (convertLoop frombits tobits xs val n).2.2 < tobits ∧
      Fits tobits (convertLoop frombits tobits xs val n).1 := by
  induction xs generalizing val n with
  | nil =>
    rw [groups_nil, append_nil]
    exact ⟨rfl, hn, fun v hv => absurd hv not_mem_nil⟩
  | cons x xs ih =>
    obtain ⟨hx, hxs⟩ := forall_mem_cons.mp hxs
    obtain ⟨hdrained, hlt, hfits⟩ := drainBits_spec hpos hto
      ((val <<< frombits ||| x.toNat) % 2 ^ 32) (n + frombits)
    obtain ⟨hrow, hlt', hfits'⟩ := ih hxs hlt ((val <<< frombits ||| x.toNat) % 2 ^ 32)
    refine ⟨?_, hlt', forall_mem_append.mpr ⟨hfits, hfits'⟩⟩
    -- the buffer never holds more than sixteen bits, so the wrap at 32 does not show
    have hwidth : n + frombits ≤ 32 := by omega
    rw [bits_mod hwidth, bits_shiftLeft_or hx] at hdrained
    rw [convertLoop, groups_append, append_assoc, hrow, ← append_assoc, hdrained,
      append_assoc, groups_cons]

/-! ## 3. The two directions -/

/-- The bits that are left, moved to the upper end of a group. -/
theorem bits_last {n : Nat} (hn : n < tobits) (val : Nat) :
    bits tobits (val <<< (tobits - n)) =
      bits n val ++ replicate (tobits - n) false := by
  have hshift := bits_shiftLeft (a := n) (b := tobits - n) (v := val)
  rwa [Nat.add_sub_cancel' (le_of_lt hn)] at hshift

/-- With padding the row is kept, and less than a group of zeros follows. -/
theorem convertBits_pad (tobits : Nat) (hpos : 0 < tobits) (hto : tobits ≤ 8) (hfrom : frombits ≤ 8)
    (hxs : Fits frombits xs) :
    ∃ out z, convertBits frombits tobits true xs = (true, out) ∧ z < tobits ∧
      groups tobits out = groups frombits xs ++ replicate z false ∧ Fits tobits out := by
  obtain ⟨hrow, hlt, hfits⟩ := convertLoop_spec hpos hto hfrom hxs hpos 0
  rw [bits, nil_append] at hrow
  rw [convertBits]
  generalize convertLoop frombits tobits xs 0 0 = result at hrow hlt hfits ⊢
  obtain ⟨out, val, n⟩ := result
  dsimp only at hrow hlt hfits ⊢
  rw [if_pos rfl]
  split
  · next hn =>
    refine ⟨_, tobits - n, rfl, Nat.sub_lt hpos (pos_of_ne_zero hn), ?_, ?_⟩
    · rw [groups_append, groups_cons, groups_nil, append_nil, toNat_ofNat_and hto,
        bits_mod (le_refl _), bits_last hlt, ← append_assoc, hrow]
    · refine forall_mem_append.mpr ⟨hfits, forall_mem_singleton.mpr ?_⟩
      rw [toNat_ofNat_and hto]
      exact Nat.mod_lt _ (Nat.two_pow_pos _)
  · next hn =>
    refine ⟨_, 0, rfl, hpos, ?_, hfits⟩
    obtain rfl := Decidable.not_not.mp hn
    rw [← hrow, bits, replicate_zero, append_nil, append_nil]

/-- The check on the bits that are left: they are zeros. -/
theorem last_eq_zero_iff {n : Nat} (hn : n < tobits) (val : Nat) :
    val <<< (tobits - n) &&& (2 ^ tobits - 1) = 0 ↔ bits n val = replicate n false := by
  rw [Nat.and_two_pow_sub_one_eq_mod, ← bits_eq_replicate_iff, bits_last hn]
  have hall : replicate tobits false =
      replicate n false ++ replicate (tobits - n) false := by
    rw [← replicate_add, Nat.add_sub_cancel' (le_of_lt hn)]
  rw [hall, append_left_inj]

/-- Without padding, what is accepted is a row with less than an input group of zeros after it,
and every such row is accepted. -/
theorem convertBits_exact (hpos : 0 < tobits) (hto : tobits ≤ 8) (hfrom : frombits ≤ tobits)
    (hxs : Fits frombits xs) (out : Bytes) :
    convertBits frombits tobits false xs = (true, out) ↔
      Fits tobits out ∧ ∃ z < frombits,
        groups frombits xs = groups tobits out ++ replicate z false := by
  obtain ⟨hrow, hlt, hfits⟩ :=
    convertLoop_spec hpos hto (le_trans hfrom hto) hxs hpos 0
  rw [bits, nil_append] at hrow
  rw [convertBits]
  generalize convertLoop frombits tobits xs 0 0 = result at hrow hlt hfits ⊢
  obtain ⟨pushed, val, n⟩ := result
  dsimp only at hrow hlt hfits ⊢
  rw [← hrow]
  constructor
  · intro h
    obtain ⟨hok, rfl⟩ := Prod.mk.inj h
    simp only [Bool.not_eq_true', Bool.or_eq_false_iff, decide_eq_false_iff_not, not_le,
      bne_eq_false_iff_eq] at hok
    exact ⟨hfits, n, hok.1, by rw [(last_eq_zero_iff hlt val).mp hok.2]⟩
  · rintro ⟨hout, z, hz, hgroups⟩
    have hz' : (replicate z false).length < tobits := by
      rw [length_replicate]
      exact lt_of_lt_of_le hz hfrom
    obtain ⟨rfl, hzeros⟩ :=
      regroup_unique hfits hout (by rw [length_bits]; exact hlt) hz' hgroups
    obtain rfl : n = z := by
      have hlen := congrArg length hzeros
      rwa [length_bits, length_replicate] at hlen
    rw [(last_eq_zero_iff hlt val).mpr hzeros, decide_eq_false (not_le.mpr hz)]
    rfl

end RgmNode
