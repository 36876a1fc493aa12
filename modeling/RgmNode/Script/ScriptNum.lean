import Mathlib.Data.List.Basic
import RgmNode.Script.StrictDer

/-!
# Script numbers

A number on the stack is its absolute value, least significant byte first, with the sign in
the highest bit.  Of the strings of a number one has no byte that it does not need, and it is
the one that `serialize` writes.
-/

namespace RgmNode.CScriptNum

open List LittleEndian Nat

variable {vch low : Bytes} {last : UInt8} {n : Int} {k m : Nat}

/-- From the end of a string: as long as the highest byte is needed neither for the number nor
for the sign, the sign moves to the byte below. -/
def dropRedundant (last : UInt8) : Bytes → Bytes
  | [] => if last &&& 0x7f ≠ 0 then [last] else []
  | next :: below =>
    if last &&& 0x7f ≠ 0 ∨ next &&& 0x80 ≠ 0 then last :: next :: below
    else dropRedundant (next + last) below

/-- The minimal form of a string. -/
def minimalForm (vch : Bytes) : Bytes :=
  match vch.reverse with
  | [] => []
  | last :: below => (dropRedundant last below).reverse

/-- The number with the sign of the highest byte. -/
def signed (last : UInt8) (m : Nat) : Int := if 128 ≤ last.toNat then -m else m

theorem natAbs_signed : (signed last m).natAbs = m := by
  rw [signed]
  split <;> omega

theorem magnitude_eq_zero_iff (b : UInt8) : b &&& 0x7f = 0 ↔ b.toNat % 128 = 0 := by
  rw [← UInt8.toNat_inj]
  exact (and_two_pow_sub_one_eq_mod b.toNat 7).symm ▸ Iff.rfl

theorem sign_ne_zero_iff (b : UInt8) : b &&& 0x80 ≠ 0 ↔ 128 ≤ b.toNat := by
  rw [Ne, Der.signBit_iff]
  exact Nat.not_lt

theorem signByte {b : UInt8} (h : b.toNat % 128 = 0) : (if 128 ≤ b.toNat then 0x80 else 0) = b := by
  have hall : ∀ x < 256, x % 128 = 0 → (if 128 ≤ x then 0x80 else 0) = UInt8.ofNat x := by
    decide +kernel
  simpa using hall b.toNat b.toNat_lt h

theorem magnitude_or_sign (b : UInt8) :
    (if 128 ≤ b.toNat then UInt8.ofNat (b.toNat % 128) ||| 0x80 else UInt8.ofNat (b.toNat % 128)) =
      b := by
  have hall : ∀ x < 256, (if 128 ≤ x then UInt8.ofNat (x % 128) ||| 0x80
      else UInt8.ofNat (x % 128)) = UInt8.ofNat x := by decide +kernel
  simpa using hall b.toNat b.toNat_lt

theorem decode_concat (low : Bytes) (last : UInt8) :
    decode (low ++ [last]) = decode low + 256 ^ low.length * last.toNat := by
  rw [decode_append, decode, decode, Nat.add_zero]

theorem setVch_concat (low : Bytes) (last : UInt8) :
    setVch (low ++ [last]) =
      signed last (decode low + 256 ^ low.length * (last.toNat % 128)) := by
  have hlast : last.toNat < 256 := last.toNat_lt
  have hpow : (2 : Int) ^ (8 * low.length) = 256 ^ low.length := by rw [pow_mul]; norm_num
  rw [setVch, getLastD_concat, length_append, length_singleton, Nat.add_sub_cancel, hpow,
    decode_concat, signed]
  by_cases hsign : 128 ≤ last.toNat
  · have hmod : last.toNat = 128 + last.toNat % 128 := by omega
    rw [if_pos ((sign_ne_zero_iff last).mpr hsign), if_pos hsign]
    generalize last.toNat % 128 = d at hmod
    rw [hmod]
    push_cast
    ring
  · rw [if_neg (mt (sign_ne_zero_iff last).mp hsign), if_neg hsign,
      mod_eq_of_lt (Nat.lt_of_not_le hsign)]

theorem dropRedundant_spec (last : UInt8) (below : Bytes) :
    isMinimal (dropRedundant last below).reverse = true ∧
      (dropRedundant last below).length ≤ below.length + 1 ∧
      setVch (dropRedundant last below).reverse = setVch (below.reverse ++ [last]) := by
  fun_induction dropRedundant last below with
  | case1 last h => exact ⟨by simp [isMinimal, h], le_refl 1, rfl⟩
  | case2 last h =>
    rw [not_not, magnitude_eq_zero_iff] at h
    refine ⟨rfl, zero_le 1, ?_⟩
    rw [setVch_concat, h]
    simp [setVch, signed, decode]
  | case3 last next below h =>
    refine ⟨?_, le_refl _, by rw [reverse_cons]⟩
    rw [isMinimal]
    rcases h with h | h <;> simp [h]
  | case4 last next below h ih =>
    refine ⟨ih.1, le_succ_of_le ih.2.1, ih.2.2.trans ?_⟩
    obtain ⟨hlast, hnext⟩ := not_or.mp h
    rw [not_not, magnitude_eq_zero_iff] at hlast
    rw [sign_ne_zero_iff] at hnext
    have hbyte : (next + last).toNat = next.toNat + last.toNat := by
      have := last.toNat_lt
      rw [UInt8.toNat_add]
      omega
    have hsign : 128 ≤ next.toNat + last.toNat ↔ 128 ≤ last.toNat := by omega
    have hlow : (next.toNat + last.toNat) % 128 = next.toNat := by omega
    rw [setVch_concat, setVch_concat, signed, hbyte, hlow, hlast, reverse_cons, decode_concat]
    simp only [signed, hsign, mul_zero, add_zero]

theorem minimalForm_spec (vch : Bytes) :
    isMinimal (minimalForm vch) = true ∧ (minimalForm vch).length ≤ vch.length ∧
      setVch (minimalForm vch) = setVch vch := by
  obtain rfl | ⟨low, last, rfl⟩ := eq_nil_or_concat' vch
  · exact ⟨rfl, le_refl 0, rfl⟩
  · simpa [minimalForm] using dropRedundant_spec last low.reverse

theorem absBytes_cons {width : Nat} (b : UInt8) (h : b.toNat + 256 * m ≠ 0) :
    absBytes (width + 1) (b.toNat + 256 * m) = b :: absBytes width m := by
  have hb : b.toNat < 256 := b.toNat_lt
  have hhigh : (b.toNat + 256 * m) / 256 = m := by omega
  have hlow : UInt8.ofNat (b.toNat + 256 * m) = b := by
    apply UInt8.toNat_inj.mp
    rw [UInt8.toNat_ofNat']
    omega
  rw [absBytes, hhigh, hlow]
  exact h

theorem decode_concat_ne_zero (low : Bytes) (hlast : last ≠ 0) :
    decode (low ++ [last]) ≠ 0 := by
  have hpos : 0 < last.toNat := pos_of_ne_zero fun h => hlast (UInt8.toNat_inj.mp h)
  have hmul : 0 < 256 ^ low.length * last.toNat := Nat.mul_pos (Nat.pow_pos (by decide)) hpos
  rw [decode_concat]
  omega

/-- The bytes of a number are those it is read from, if the highest is not zero. -/
theorem absBytes_decode {width : Nat} (hlen : low.length < width) (hlast : last ≠ 0) :
    absBytes width (decode (low ++ [last])) = low ++ [last] := by
  induction low generalizing width with
  | nil =>
    obtain ⟨width, rfl⟩ := Nat.exists_eq_add_of_lt hlen
    have hne : decode [last] ≠ 0 := decode_concat_ne_zero [] hlast
    rw [nil_append, decode] at *
    rw [absBytes_cons last hne]
    cases width <;> rfl
  | cons b low ih =>
    obtain ⟨width, rfl⟩ := exists_eq_succ_of_ne_zero (ne_zero_of_lt hlen)
    have hne : decode (low ++ [last]) ≠ 0 := decode_concat_ne_zero low hlast
    rw [cons_append, decode, absBytes_cons b (by omega), ih (lt_of_succ_lt_succ hlen)]

/-- The sign goes into the highest byte, or into one more. -/
theorem serialize_signed {d : UInt8} (hlen : low.length < 8) (hd : d ≠ 0) :
    serialize (signed last (decode (low ++ [d]))) =
      if 128 ≤ d.toNat then low ++ [d] ++ [if 128 ≤ last.toNat then 0x80 else 0]
      else low ++ [if 128 ≤ last.toNat then d ||| 0x80 else d] := by
  have hneg : signed last (decode (low ++ [d])) < 0 ↔ 128 ≤ last.toNat := by
    have := decode_concat_ne_zero low hd
    rw [signed]
    split <;> omega
  rw [serialize, natAbs_signed, absBytes_decode hlen hd, getLastD_concat, dropLast_concat]
  simp only [sign_ne_zero_iff, hneg]
  split
  · rfl
  · split <;> rfl

theorem serialize_setVch (hmin : isMinimal vch = true) (hlen : vch.length ≤ 8) :
    serialize (setVch vch) = vch := by
  obtain rfl | ⟨low, last, rfl⟩ := eq_nil_or_concat' vch
  · rfl
  rw [length_append] at hlen
  rw [setVch_concat]
  by_cases hmag : last.toNat % 128 = 0
  · -- the highest byte holds the sign alone
    rw [hmag, mul_zero, add_zero]
    have hzero := (magnitude_eq_zero_iff last).mpr hmag
    obtain rfl | ⟨low, next, rfl⟩ := eq_nil_or_concat' low
    · simp [isMinimal, hzero] at hmin
    have hnext : next &&& 0x80 ≠ 0 := by simpa [isMinimal, hzero] using hmin
    have hne : next ≠ 0 := by
      rintro rfl
      exact hnext rfl
    rw [length_append] at hlen
    rw [serialize_signed (lt_of_succ_lt hlen) hne, if_pos ((sign_ne_zero_iff next).mp hnext),
      signByte hmag]
  · have hd : (UInt8.ofNat (last.toNat % 128)).toNat = last.toNat % 128 := by
      rw [UInt8.toNat_ofNat']
      omega
    have hne : UInt8.ofNat (last.toNat % 128) ≠ 0 := fun h => hmag (hd ▸ UInt8.toNat_inj.mpr h)
    rw [← hd, ← decode_concat, serialize_signed hlen hne, hd, if_neg (by omega), magnitude_or_sign]

theorem natAbs_setVch_lt (hlen : vch.length ≤ k + 1) : (setVch vch).natAbs < 2 ^ (8 * k + 7) := by
  obtain rfl | ⟨low, last, rfl⟩ := eq_nil_or_concat' vch
  · exact Nat.two_pow_pos _
  have hmag : last.toNat % 128 < 128 := mod_lt _ (by decide)
  rw [length_append] at hlen
  rw [setVch_concat, natAbs_signed]
  calc decode low + 256 ^ low.length * (last.toNat % 128)
      < 256 ^ low.length * (last.toNat % 128 + 1) := by
        rw [add_comm]
        exact Nat.add_lt_add_left (decode_lt low) _
    _ ≤ 256 ^ k * 128 :=
        Nat.mul_le_mul (Nat.pow_le_pow_right (by decide) (Nat.le_of_succ_le_succ hlen)) hmag
    _ = 2 ^ (8 * k + 7) := by rw [pow_add, pow_mul]; rfl

theorem exists_setVch (hn : n.natAbs < 2 ^ (8 * k + 7)) :
    ∃ vch, vch.length = k + 1 ∧ setVch vch = n := by
  have hhigh : n.natAbs / 256 ^ k < 128 := by
    rw [pow_add, pow_mul] at hn
    exact Nat.div_lt_of_lt_mul hn
  have hmod := mod_add_div n.natAbs (256 ^ k)
  refine ⟨encode k n.natAbs ++ [UInt8.ofNat (n.natAbs / 256 ^ k + if n < 0 then 128 else 0)],
    by rw [length_append, length_encode, length_singleton], ?_⟩
  rw [setVch_concat, decode_encode, length_encode, signed, UInt8.toNat_ofNat']
  generalize n.natAbs / 256 ^ k = high at *
  have hbyte : (high + if n < 0 then 128 else 0) % 2 ^ 8 % 128 = high := by
    split <;> omega
  rw [hbyte]
  split <;> omega

theorem ofVch_eq_some_iff {fRequireMinimal : Bool} :
    ofVch vch fRequireMinimal k = some n ↔
      vch.length ≤ k ∧ (fRequireMinimal = true → isMinimal vch = true) ∧ setVch vch = n := by
  rw [ofVch]
  split
  · next h => simp [not_le.mpr h]
  · next h => cases fRequireMinimal <;> simp [not_lt.mp h]

/-- The integers below a bound and the strings that the check of minimality lets through give
each other back; without the check a string has the number of its minimal form. -/
theorem serialize_bijective (k : Nat) (hlow : 1 ≤ k) (hhigh : k ≤ 8) :
    (∀ n : Int, |n| < 2 ^ (8 * k - 1) →
      (serialize n).length ≤ k ∧ ofVch (serialize n) true k = some n) ∧
    (∀ vch n, ofVch vch true k = some n → |n| < 2 ^ (8 * k - 1) ∧ serialize n = vch) ∧
    ∀ vch n, ofVch vch false k = some n → ofVch (minimalForm vch) true k = some n := by
  obtain ⟨k, rfl⟩ := Nat.exists_eq_add_of_le' hlow
  have hbound : ∀ n : Int, |n| < 2 ^ (8 * (k + 1) - 1) ↔ n.natAbs < 2 ^ (8 * k + 7) := by
    intro n
    rw [Int.abs_eq_natAbs]
    exact_mod_cast Iff.rfl
  simp only [hbound, ofVch_eq_some_iff]
  refine ⟨fun n hn => ?_, ?_, ?_⟩
  · obtain ⟨vch, hlen, rfl⟩ := exists_setVch hn
    obtain ⟨hmin, hle, hvalue⟩ := minimalForm_spec vch
    rw [hlen] at hle
    rw [← hvalue, serialize_setVch hmin (hle.trans hhigh)]
    exact ⟨hle, hle, fun _ => hmin, rfl⟩
  · rintro vch _ ⟨hle, hmin, rfl⟩
    exact ⟨natAbs_setVch_lt hle, serialize_setVch (hmin trivial) (hle.trans hhigh)⟩
  · rintro vch _ ⟨hle, -, rfl⟩
    obtain ⟨hmin, hshort, hvalue⟩ := minimalForm_spec vch
    exact ⟨hshort.trans hle, fun _ => hmin, hvalue⟩

theorem serialize_bijective_two :
    ofVch [0x05, 0x00] false 2 = some 5 ∧ ofVch (minimalForm [0x05, 0x00]) true 2 = some 5 :=
  ⟨by decide, (serialize_bijective 2 (by decide) (by decide)).2.2 _ _ (by decide)⟩

end RgmNode.CScriptNum
