import Mathlib.Tactic.Ring

/-!
# Variable-length integers

Seven bits to a byte, most significant group first; every byte but the last has its high bit
set.  One is subtracted between two groups, so that every number has one encoding.  The
writer works on a signed number as a machine does: it stops at any number up to 127, a
negative one included.
-/

namespace VarInt

open List Nat

/-- The rounds of the writer; `out` is what is written so far, and `room` the number of bytes
that are left. -/
def writeLoop : Nat → Int → List UInt8 → List UInt8
  | 0, _, out => out
  | room + 1, n, out =>
    let byte := UInt8.ofNat ((n % 128).toNat + if out.isEmpty then 0 else 128)
    if n ≤ 127 then byte :: out else writeLoop room (n / 128 - 1) (byte :: out)

/-- The bytes of a number of `w` bits. -/
def write (w : Nat) (n : Int) : List UInt8 := writeLoop ((w + 6) / 7) n []

/-- The rounds of the reader; `n` is what is read so far. -/
def readLoop (w : Nat) : Nat → List UInt8 → Option (Nat × List UInt8)
  | _, [] => none
  | n, b :: s =>
    let m := (n * 128 + b.toNat % 128) % 2 ^ w
    if 128 ≤ b.toNat then readLoop w ((m + 1) % 2 ^ w) s else some (m, s)

/-- A number of `w` bits, and the rest of the stream. -/
def read (w : Nat) (s : List UInt8) : Option (Nat × List UInt8) := readLoop w 0 s

/-- The number of bytes of `write`, if there is room for them. -/
def size (n : Nat) : Nat := if n ≤ 127 then 1 else size (n / 128 - 1) + 1

/-- The rounds of a reader that no width bounds. -/
def valueLoop : Nat → List UInt8 → Option (Nat × List UInt8)
  | _, [] => none
  | n, b :: s =>
    let m := n * 128 + b.toNat % 128
    if 128 ≤ b.toNat then valueLoop (m + 1) s else some (m, s)

/-- The number that a stream starts with, however large, and the rest of the stream. -/
def value (s : List UInt8) : Option (Nat × List UInt8) := valueLoop 0 s

variable {w room n m acc : Nat} {s out rest : List UInt8}

/-- A group with the high bit set is taken up, and the reader goes on. -/
theorem readLoop_more {d : Nat} (hd : d < 128) (hfit : acc * 128 + d + 1 < 2 ^ w) :
    readLoop w acc (UInt8.ofNat (d + 128) :: rest) = readLoop w (acc * 128 + d + 1) rest := by
  have hbyte : (UInt8.ofNat (d + 128)).toNat = d + 128 := by
    rw [UInt8.toNat_ofNat']
    omega
  have hgroup : (d + 128) % 128 = d := by omega
  have hlow : (acc * 128 + d) % 2 ^ w = acc * 128 + d := mod_eq_of_lt (by omega)
  rw [readLoop, hbyte, hgroup, hlow, if_pos (by omega), mod_eq_of_lt hfit]

theorem readLoop_last {d : Nat} (hd : d < 128) (hfit : acc * 128 + d < 2 ^ w) :
    readLoop w acc (UInt8.ofNat d :: rest) = some (acc * 128 + d, rest) := by
  have hbyte : (UInt8.ofNat d).toNat = d := by
    rw [UInt8.toNat_ofNat']
    omega
  rw [readLoop, hbyte, mod_eq_of_lt hd, mod_eq_of_lt hfit, if_neg (by omega)]

/-- The quotient that is left after a group was written fits one byte less. -/
theorem next_lt (hroom : n < 2 ^ (7 * (room + 1 + 1))) (hbig : 127 < n) :
    n / 128 - 1 < 2 ^ (7 * (room + 1)) := by
  have hpow : 2 ^ (7 * (room + 1 + 1)) = 2 ^ (7 * (room + 1)) * 128 := by
    rw [Nat.mul_add 7 (room + 1) 1, Nat.pow_add]
  omega

theorem natCast_next (hbig : 127 < n) : (n : Int) / 128 - 1 = ((n / 128 - 1 : Nat) : Int) := by
  omega

theorem writeLoop_succ :
    writeLoop (room + 1) n out =
      let byte := UInt8.ofNat (n % 128 + if out.isEmpty then 0 else 128)
      if n ≤ 127 then byte :: out else writeLoop room ((n / 128 - 1 : Nat) : Int) (byte :: out) := by
  have hgroup : ((n : Int) % 128).toNat = n % 128 := by omega
  rw [writeLoop, hgroup]
  by_cases hsmall : n ≤ 127
  · rw [if_pos (by omega), if_pos hsmall]
  · rw [if_neg (by omega), if_neg hsmall, natCast_next (by omega)]

/-- Before bytes that are already written, the reader comes to them with one more than the
number. -/
theorem readLoop_writeLoop (hroom : n < 2 ^ (7 * (room + 1))) (hfit : n + 1 < 2 ^ w)
    (hout : out ≠ []) :
    readLoop w 0 (writeLoop (room + 1) n out ++ rest) = readLoop w (n + 1) (out ++ rest) := by
  have hmark : (if out.isEmpty then 0 else 128) = 128 := if_neg (by simpa using hout)
  induction room generalizing n out with
  | zero =>
    have hsmall : n ≤ 127 := by omega
    rw [writeLoop_succ, hmark, if_pos hsmall, cons_append, readLoop_more (by omega) (by omega)]
    congr 1
    omega
  | succ room ih =>
    rw [writeLoop_succ, hmark]
    by_cases hsmall : n ≤ 127
    · rw [if_pos hsmall, cons_append, readLoop_more (by omega) (by omega)]
      congr 1
      omega
    · -- the groups before this one are read first, and give the quotient
      rw [if_neg hsmall, ih (next_lt hroom (by omega)) (by omega) (cons_ne_nil _ _) rfl,
        cons_append, readLoop_more (by omega) (by omega)]
      congr 1
      omega

/-- A number that fits the width is read back, and what stands behind it is left. -/
theorem read_write (hw : 0 < w) (hfit : n < 2 ^ w) :
    read w (write w n ++ rest) = some (n, rest) := by
  obtain ⟨room, hroom⟩ : ∃ room, (w + 6) / 7 = room + 1 := ⟨(w + 6) / 7 - 1, by omega⟩
  have hlt : n < 2 ^ (7 * (room + 1)) :=
    lt_of_lt_of_le hfit (Nat.pow_le_pow_right (by decide) (by omega))
  rw [read, write, hroom, writeLoop_succ]
  by_cases hsmall : n ≤ 127
  · rw [if_pos hsmall, cons_append, nil_append]
    exact (readLoop_last (mod_lt n (by decide)) (by omega)).trans (by
      rw [zero_mul, zero_add, mod_eq_of_lt (by omega)])
  · rw [if_neg hsmall]
    cases room with
    | zero => omega
    | succ room =>
      rw [readLoop_writeLoop (next_lt hlt (by omega)) (by omega) (cons_ne_nil _ _),
        cons_append]
      refine (readLoop_last (mod_lt n (by decide)) (by omega)).trans ?_
      congr 2
      omega

/-- A negative number is written as its low seven bits are. -/
theorem write_neg {n : Int} (h : n < 0) : write w n = write w (n % 128) := by
  rw [write, write]
  cases (w + 6) / 7 with
  | zero => rfl
  | succ room =>
    have hlow : n % 128 % 128 = n % 128 := Int.emod_emod_of_dvd n (dvd_refl 128)
    have hneg : n ≤ 127 := by omega
    have hsmall : n % 128 ≤ 127 := by omega
    rw [writeLoop, writeLoop, hlow, if_pos hneg, if_pos hsmall]

theorem size_le (h : n < 2 ^ (7 * (room + 1))) : size n ≤ room + 1 := by
  induction room generalizing n with
  | zero =>
    have hsmall : n ≤ 127 := by omega
    rw [size, if_pos hsmall]
  | succ room ih =>
    rw [size]
    split
    · omega
    · next hbig => exact succ_le_succ (ih (next_lt h (by omega)))

theorem length_writeLoop : (writeLoop room n out).length = min room (size n) + out.length := by
  induction room generalizing n out with
  | zero => rw [writeLoop, zero_min, zero_add]
  | succ room ih =>
    rw [writeLoop_succ, size]
    by_cases hsmall : n ≤ 127
    · rw [if_pos hsmall, if_pos hsmall, length_cons]
      omega
    · rw [if_neg hsmall, if_neg hsmall, ih, length_cons]
      omega

/-- A byte is written again from the state that the reader is in after it. -/
theorem writeLoop_group {b : UInt8} (hmark : 128 ≤ b.toNat ↔ out ≠ []) :
    writeLoop (room + 1) ((acc * 128 + b.toNat % 128 : Nat) : Int) out =
      if acc = 0 then b :: out else writeLoop room ((acc - 1 : Nat) : Int) (b :: out) := by
  have hgroup : (acc * 128 + b.toNat % 128) % 128 = b.toNat % 128 := by omega
  have hquot : (acc * 128 + b.toNat % 128) / 128 = acc := by omega
  have hbyte : UInt8.ofNat (b.toNat % 128 + if out.isEmpty then 0 else 128) = b := by
    apply UInt8.toNat_inj.mp
    have hb : b.toNat < 256 := b.toNat_lt
    rw [UInt8.toNat_ofNat']
    cases out with
    | nil =>
      have hlow : ¬128 ≤ b.toNat := fun h => hmark.mp h rfl
      rw [isEmpty_nil, if_pos rfl]
      omega
    | cons c out =>
      have hhigh : 128 ≤ b.toNat := hmark.mpr (cons_ne_nil c out)
      rw [isEmpty_cons, if_neg Bool.false_ne_true]
      omega
  rw [writeLoop_succ, hgroup, hquot, hbyte]
  by_cases hacc : acc = 0
  · rw [if_pos (by omega), if_pos hacc]
  · rw [if_neg (by omega), if_neg hacc]

/-- What the reader consumed is written again, and the writer comes to its front with one less
than the reader started from. -/
theorem writeLoop_of_valueLoop (h : valueLoop acc s = some (m, rest)) :
    ∃ c, s = c ++ rest ∧ c ≠ [] ∧ ∀ room, writeLoop (room + c.length) m [] =
      if acc = 0 then c else writeLoop room ((acc - 1 : Nat) : Int) c := by
  induction s generalizing acc with
  | nil => cases h
  | cons b s ih =>
    rw [valueLoop] at h
    split at h
    · next hb =>
      obtain ⟨c, rfl, hc, hwrite⟩ := ih h
      refine ⟨b :: c, rfl, cons_ne_nil b c, fun room => ?_⟩
      rw [length_cons, ← add_assoc, add_right_comm, hwrite, if_neg (succ_ne_zero _),
        Nat.add_sub_cancel, writeLoop_group (iff_of_true hb hc)]
    · next hb =>
      cases h
      exact ⟨[b], rfl, cons_ne_nil b [], fun room => writeLoop_group (by simpa using hb)⟩

theorem length_write (hw : 0 < w) (hfit : n < 2 ^ w) :
    (write w n).length = size n ∧ size n ≤ (w + 6) / 7 := by
  obtain ⟨room, hroom⟩ : ∃ room, (w + 6) / 7 = room + 1 := ⟨(w + 6) / 7 - 1, by omega⟩
  have hsize : size n ≤ room + 1 :=
    size_le (lt_of_lt_of_le hfit (Nat.pow_le_pow_right (by decide) (by omega)))
  rw [write, length_writeLoop, hroom, min_eq_right hsize]
  exact ⟨rfl, hsize⟩

/-- A number that fits the width has no other encoding. -/
theorem eq_write_of_value (hw : 0 < w) (h : value s = some (m, rest)) (hfit : m < 2 ^ w) :
    s = write w m ++ rest := by
  obtain ⟨c, rfl, -, hwrite⟩ := writeLoop_of_valueLoop h
  have hone : writeLoop (1 + c.length) m [] = c := hwrite 1
  have hsize : c.length = size m := by
    have hlen := congrArg length hone
    rw [length_writeLoop, length_nil] at hlen
    omega
  have hroom : (w + 6) / 7 = (w + 6) / 7 - c.length + c.length := by
    have := (length_write hw hfit).2
    omega
  rw [write, hroom, hwrite, if_pos rfl]

end VarInt
