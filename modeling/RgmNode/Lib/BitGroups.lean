import Mathlib.Data.Nat.Bitwise
import Mathlib.Data.List.Basic

/-!
# Bytes as groups of bits

A list of bytes that each stand for `n` bits is read as one row of bits, the highest bit of
each group first.  Two regroupings of one row are compared there.

* `groups_inj` — the row determines the groups
-/

namespace BitGroups

open List Nat

/-- The low `n` bits of a number, the highest first. -/
def bits : Nat → Nat → List Bool
  | 0, _ => []
  | n + 1, v => v.testBit n :: bits n v

variable {a b n v x : Nat}

@[simp]
theorem length_bits (n v : Nat) : (bits n v).length = n := by
  induction n with
  | zero => rfl
  | succ n ih => rw [bits, length_cons, ih]

theorem bits_congr {u : Nat} (h : ∀ i < n, v.testBit i = u.testBit i) : bits n v = bits n u := by
  induction n with
  | zero => rfl
  | succ n ih =>
    rw [bits, bits, h n (lt_succ_self n), ih fun i hi => h i (lt_succ_of_lt hi)]

theorem testBit_eq_of_bits_eq {u : Nat} (h : bits n v = bits n u) :
    ∀ i < n, v.testBit i = u.testBit i := by
  induction n with
  | zero => exact fun i hi => absurd hi (not_lt_zero i)
  | succ n ih =>
    obtain ⟨hhead, htail⟩ := cons.inj h
    intro i hi
    rcases Nat.lt_succ_iff_lt_or_eq.mp hi with hlt | rfl
    · exact ih htail i hlt
    · exact hhead

theorem bits_add (a b v : Nat) : bits (a + b) v = bits a (v >>> b) ++ bits b v := by
  induction a with
  | zero => rw [zero_add, bits, nil_append]
  | succ a ih => rw [succ_add, bits, bits, ih, testBit_shiftRight, add_comm b a,
      cons_append]

theorem bits_mod (h : n ≤ a) : bits n (v % 2 ^ a) = bits n v := by
  refine bits_congr fun i hi => ?_
  rw [testBit_mod_two_pow, decide_eq_true (lt_of_lt_of_le hi h), Bool.true_and]

/-- A group appended at the low end. -/
theorem bits_shiftLeft_or (h : x < 2 ^ b) :
    bits (a + b) (v <<< b ||| x) = bits a v ++ bits b x := by
  rw [bits_add]
  congr 1
  · rw [shiftRight_or_distrib, shiftLeft_shiftRight, shiftRight_eq_div_pow,
      div_eq_of_lt h, or_zero]
  · refine bits_congr fun i hi => ?_
    rw [testBit_or, testBit_shiftLeft, decide_eq_false (not_le.mpr hi),
      Bool.false_and, Bool.false_or]

theorem bits_zero (n : Nat) : bits n 0 = replicate n false := by
  induction n with
  | zero => rfl
  | succ n ih => rw [bits, ih, zero_testBit, replicate_succ]

theorem bits_shiftLeft : bits (a + b) (v <<< b) = bits a v ++ replicate b false := by
  have hadd := bits_shiftLeft_or (a := a) (v := v) (Nat.two_pow_pos b)
  rwa [or_zero, bits_zero] at hadd

theorem eq_of_bits_eq {u : Nat} (hv : v < 2 ^ n) (hu : u < 2 ^ n) (h : bits n v = bits n u) :
    v = u := by
  refine eq_of_testBit_eq fun i => ?_
  rcases lt_or_ge i n with hi | hi
  · exact testBit_eq_of_bits_eq h i hi
  · have hpow := Nat.pow_le_pow_right Nat.two_pos hi
    rw [testBit_lt_two_pow (lt_of_lt_of_le hv hpow),
      testBit_lt_two_pow (lt_of_lt_of_le hu hpow)]

/-- A row is zero exactly if the number is, up to what the row does not show. -/
theorem bits_eq_replicate_iff : bits n v = replicate n false ↔ v % 2 ^ n = 0 := by
  rw [← bits_zero, ← bits_mod (le_refl n)]
  constructor
  · exact eq_of_bits_eq (mod_lt _ (Nat.two_pow_pos n)) (Nat.two_pow_pos n)
  · intro h
    rw [h]

/-! ## Lists of groups -/

/-- The row of a list of bytes of which each stands for `n` bits. -/
def groups (n : Nat) (vs : List UInt8) : List Bool := vs.flatMap fun v => bits n v.toNat

@[simp]
theorem groups_nil (n : Nat) : groups n [] = [] := rfl

theorem groups_cons (n : Nat) (v : UInt8) (vs : List UInt8) :
    groups n (v :: vs) = bits n v.toNat ++ groups n vs := rfl

@[simp]
theorem groups_append (n : Nat) (vs us : List UInt8) :
    groups n (vs ++ us) = groups n vs ++ groups n us := flatMap_append

theorem length_groups (n : Nat) (vs : List UInt8) : (groups n vs).length = n * vs.length := by
  induction vs with
  | nil => rfl
  | cons v vs ih =>
    rw [groups_cons, length_append, length_bits, ih, length_cons, mul_succ, add_comm]

/-- Every byte fits its group. -/
def Fits (n : Nat) (vs : List UInt8) : Prop := ∀ v ∈ vs, v.toNat < 2 ^ n

variable {vs us : List UInt8} {p q : List Bool}

/-- The row determines the groups, whatever short padding follows. -/
theorem regroup_unique (hvs : Fits n vs) (hus : Fits n us) (hp : p.length < n) (hq : q.length < n)
    (h : groups n vs ++ p = groups n us ++ q) : vs = us ∧ p = q := by
  -- the numbers of groups agree, since the paddings are shorter than a group
  have hlen : vs.length = us.length := by
    have hrow := congrArg length h
    rw [length_append, length_append, length_groups, length_groups] at hrow
    have hn : 0 < n := lt_of_le_of_lt (zero_le _) hp
    have hdiv := congrArg (· / n) hrow
    simpa only [mul_add_div hn, div_eq_of_lt hp, div_eq_of_lt hq, add_zero] using hdiv
  have hgroups : (groups n vs).length = (groups n us).length := by
    rw [length_groups, length_groups, hlen]
  obtain ⟨hrow, hpad⟩ := append_inj h hgroups
  refine ⟨?_, hpad⟩
  clear h hgroups hpad
  induction vs generalizing us with
  | nil => exact (length_eq_zero_iff.mp hlen.symm).symm
  | cons v vs ih =>
    cases us with
    | nil => cases hlen
    | cons u us =>
      obtain ⟨hv, hvs⟩ := forall_mem_cons.mp hvs
      obtain ⟨hu, hus⟩ := forall_mem_cons.mp hus
      obtain ⟨hhead, htail⟩ := append_inj hrow (by rw [length_bits, length_bits])
      rw [UInt8.toNat_inj.mp (eq_of_bits_eq hv hu hhead), ih hvs hus (succ.inj hlen) htail]

theorem groups_inj (hn : 0 < n) (hvs : Fits n vs) (hus : Fits n us)
    (h : groups n vs = groups n us) : vs = us := by
  have hpadded : groups n vs ++ [] = groups n us ++ [] := by rw [h]
  exact (regroup_unique (p := []) (q := []) hvs hus hn hn hpadded).1

end BitGroups
