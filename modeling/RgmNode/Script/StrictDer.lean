import RgmNode.Script.Interpreter

/-!
# Strict DER

The bytes that `IsValidSignatureEncoding` accepts, as a grammar: two integers in their shortest
form, with their lengths, and the type of the hash.
-/

namespace RgmNode.Der

open List UInt8 Nat

variable {v w : Bytes} {b : UInt8}

/-- The number of big-endian bytes -/
def bigEndian : Bytes → Nat
  | [] => 0
  | b :: v => b.toNat * 256 ^ v.length + bigEndian v

/-- A shortest form of an integer that is not negative. -/
structure Integer (v : Bytes) : Prop where
  nonempty : v ≠ []
  nonneg : v.getD 0 0 < 0x80
  minimal : ∀ w ≠ [], w.getD 0 0 < 0x80 → bigEndian w = bigEndian v → v.length ≤ w.length

theorem bigEndian_cons_lt (ih : bigEndian v < 256 ^ v.length) {n : Nat} (hb : b.toNat < n) :
    bigEndian (b :: v) < n * 256 ^ v.length :=
  calc b.toNat * 256 ^ v.length + bigEndian v
      < (b.toNat + 1) * 256 ^ v.length := by rw [Nat.succ_mul]; exact Nat.add_lt_add_left ih _
    _ ≤ n * 256 ^ v.length := mul_le_mul_right _ hb

theorem bigEndian_lt (v : Bytes) : bigEndian v < 256 ^ v.length := by
  induction v with
  | nil => exact one_pos
  | cons b v ih =>
    rw [length_cons, pow_succ']
    exact bigEndian_cons_lt ih b.toNat_lt

/-- A zero in front is needed only before a sign bit. -/
theorem integer_cons_iff :
    Integer (b :: v) ↔ b < 0x80 ∧ ∀ c t, v = c :: t → b ≠ 0 ∨ 0x80 ≤ c := by
  constructor
  · refine fun h => ⟨h.nonneg, ?_⟩
    rintro c t rfl
    by_contra! hpad
    obtain ⟨rfl, hc⟩ := hpad
    have hle := h.minimal (c :: t) (cons_ne_nil _ _) (UInt8.not_le.mp hc)
      (by simp [bigEndian])
    simp at hle
  · rintro ⟨hb, hpad⟩
    refine ⟨cons_ne_nil _ _, hb, fun w hw hneg heq => ?_⟩
    obtain _ | ⟨x, w⟩ := w
    · exact absurd rfl hw
    obtain _ | ⟨c, t⟩ := v
    · simp
    have hroom : bigEndian (x :: w) < 128 * 256 ^ w.length :=
      bigEndian_cons_lt (bigEndian_lt w) (lt_iff_toNat_lt.mp hneg)
    -- the highest bit of the number is in the first byte, or the highest of the second
    have hbits : 128 * 256 ^ t.length ≤ bigEndian (b :: c :: t) := by
      rw [bigEndian, bigEndian, length_cons, pow_succ']
      rcases hpad c t rfl with hzero | hc
      · have hpos : 0 < b.toNat := pos_of_ne_zero fun h => hzero (UInt8.toNat_inj.mp h)
        have := mul_le_mul_right (256 * 256 ^ t.length) hpos
        omega
      · have := mul_le_mul_right (256 ^ t.length) (le_iff_toNat_le.mp hc)
        simp only [toNat_ofNat] at this
        omega
    have hpow : 256 ^ t.length < 256 ^ w.length := by omega
    exact succ_le_succ ((Nat.pow_lt_pow_iff_right (by decide)).mp hpow)

theorem signBit_iff (b : UInt8) : b &&& 0x80 = 0 ↔ b < 0x80 := by
  have hall : ∀ n < 256, ofNat n &&& 0x80 = 0 ↔ ofNat n < 0x80 := by decide +kernel
  simpa using hall b.toNat b.toNat_lt

/-- The checks on one integer, wherever it stands. -/
theorem isValidDerInteger_iff (before : Bytes) {after : Bytes} {tag len : UInt8} :
    isValidDerInteger (before ++ tag :: len :: (v ++ after)) (before.length + 2) v.length = true ↔
      tag = 0x02 ∧ Integer v := by
  have hget : ∀ k, (before ++ tag :: len :: (v ++ after)).getD (before.length + k) 0 =
      (tag :: len :: (v ++ after)).getD k 0 := fun k => by
    rw [getD_eq_getElem?_getD, getElem?_append_right (le_add_right _ _),
      Nat.add_sub_cancel_left, ← getD_eq_getElem?_getD]
  rw [isValidDerInteger, Nat.add_sub_cancel, hget 3, ← Nat.add_zero before.length]
  obtain _ | ⟨b, v⟩ := v
  · simp
    exact fun _ h => h.nonempty rfl
  · rw [integer_cons_iff]
    cases v <;> simp [signBit_iff, and_assoc]

/-- The bytes of a signature: two integers, and the type of its hash. -/
structure Signature (sig r s : Bytes) (hashtype : UInt8) : Prop where
  bytes : sig = 0x30 :: UInt8.ofNat (r.length + s.length + 4) ::
    0x02 :: UInt8.ofNat r.length :: (r ++ 0x02 :: UInt8.ofNat s.length :: (s ++ [hashtype]))
  size : 9 ≤ sig.length ∧ sig.length ≤ 73
  integers : Integer r ∧ Integer s

theorem getD_lenS {r tail : Bytes} {t total tagR lenR tagS lenS : UInt8} :
    (t :: total :: tagR :: lenR :: (r ++ tagS :: lenS :: tail)).getD (5 + r.length) 0 = lenS := by
  rw [add_comm]
  simp

/-- The checks on bytes with two length fields that fit. -/
theorem isValidSignatureEncoding_parts {sig r s : Bytes}
    {t total tagR lenR tagS lenS hashtype : UInt8}
    (hsig : sig = t :: total :: tagR :: lenR :: (r ++ tagS :: lenS :: (s ++ [hashtype])))
    (hR : lenR.toNat = r.length) (hS : lenS.toNat = s.length) :
    isValidSignatureEncoding sig = true ↔
      (9 ≤ sig.length ∧ sig.length ≤ 73) ∧ t = 0x30 ∧ total.toNat = r.length + s.length + 4 ∧
        (tagR = 0x02 ∧ Integer r) ∧ tagS = 0x02 ∧ Integer s := by
  have hr : isValidDerInteger sig 4 r.length = true ↔ tagR = 0x02 ∧ Integer r := by
    rw [hsig]
    exact isValidDerInteger_iff [t, total]
  have hs : isValidDerInteger sig (r.length + 6) s.length = true ↔ tagS = 0x02 ∧ Integer s := by
    rw [hsig]
    exact isValidDerInteger_iff (t :: total :: tagR :: lenR :: r)
  have hlenS : sig.getD (5 + r.length) 0 = lenS := hsig ▸ getD_lenS
  have hlen : sig.length = r.length + s.length + 7 := by
    rw [hsig]
    simp
    omega
  have hfirst : sig.getD 0 0 = t ∧ sig.getD 1 0 = total ∧ sig.getD 3 0 = lenR := by
    rw [hsig]
    exact ⟨rfl, rfl, rfl⟩
  rw [isValidSignatureEncoding, hfirst.1, hfirst.2.1, hfirst.2.2, hR, hlenS, hS, hlen]
  simp only [Bool.and_eq_true, decide_eq_true_eq, hr, hs, and_assoc]
  have hinside : 5 + r.length < r.length + s.length + 7 := by omega
  simp [hinside]

variable {sig r s r' s' : Bytes} {hashtype hashtype' : UInt8}

theorem Signature.lengths (h : Signature sig r s hashtype) :
    (ofNat r.length).toNat = r.length ∧ (ofNat s.length).toNat = s.length ∧
      (ofNat (r.length + s.length + 4)).toNat = r.length + s.length + 4 := by
  have hlen := congrArg length h.bytes
  simp only [length_append, length_cons, length_nil] at hlen
  have hsize := h.size.2
  simp only [toNat_ofNat']
  omega

theorem Signature.unique (h : Signature sig r s hashtype) (h' : Signature sig r' s' hashtype') :
    (r', s', hashtype') = (r, s, hashtype) := by
  obtain ⟨hr, hs, -⟩ := h.lengths
  obtain ⟨hr', hs', -⟩ := h'.lengths
  have heq := h'.bytes.symm.trans h.bytes
  simp only [cons.injEq, true_and] at heq
  obtain ⟨-, hlenR, hfromR⟩ := heq
  obtain ⟨rfl, hafterR⟩ := append_inj hfromR (by rw [← hr', hlenR, hr])
  obtain ⟨hlenS, hfromS⟩ := cons.inj (cons.inj hafterR).2
  obtain ⟨rfl, hlast⟩ := append_inj hfromS (by rw [← hs', hlenS, hs])
  rw [singleton_inj.mp hlast]

theorem exists_parts (hlo : 9 ≤ sig.length) (hinside : 5 + (sig.getD 3 0).toNat < sig.length)
    (hlen : (sig.getD 3 0).toNat + (sig.getD (5 + (sig.getD 3 0).toNat) 0).toNat + 7 =
      sig.length) :
    ∃ t total tagR lenR r tagS lenS s hashtype,
      sig = t :: total :: tagR :: lenR :: (r ++ tagS :: lenS :: (s ++ [hashtype])) ∧
        lenR.toNat = r.length ∧ lenS.toNat = s.length := by
  obtain _ | ⟨t, _ | ⟨total, _ | ⟨tagR, _ | ⟨lenR, rest⟩⟩⟩⟩ := sig
  iterate 4 exact absurd hlo (by simp)
  have hlenR : (t :: total :: tagR :: lenR :: rest).getD 3 0 = lenR := rfl
  rw [hlenR] at hinside hlen
  obtain ⟨r, after, rfl, hr⟩ : ∃ r after, rest = r ++ after ∧ lenR.toNat = r.length :=
    ⟨rest.take lenR.toNat, rest.drop lenR.toNat, (take_append_drop _ _).symm, by
      simp at hinside ⊢; omega⟩
  obtain _ | ⟨tagS, _ | ⟨lenS, tail⟩⟩ := after
  iterate 2 exact absurd hinside (by simp; omega)
  rw [hr, getD_lenS] at hlen
  obtain rfl | ⟨s, hashtype, rfl⟩ := eq_nil_or_concat tail
  · exact absurd hlen (by simp; omega)
  rw [concat_eq_append] at hlen ⊢
  refine ⟨t, total, tagR, lenR, r, tagS, lenS, s, hashtype, rfl, hr, ?_⟩
  simp at hlen
  omega

theorem exists_signature (h : isValidSignatureEncoding sig = true) :
    ∃ r s hashtype, Signature sig r s hashtype := by
  have hchecks := h
  simp only [isValidSignatureEncoding, Bool.and_eq_true, decide_eq_true_eq] at hchecks
  obtain ⟨⟨⟨⟨⟨⟨⟨hlo, -⟩, -⟩, -⟩, hinside⟩, hlen⟩, -⟩, -⟩ := hchecks
  obtain ⟨t, total, tagR, lenR, r, tagS, lenS, s, hashtype, hsig, hr, hs⟩ :=
    exists_parts hlo hinside hlen
  obtain ⟨hsize, rfl, htotal, ⟨rfl, hintR⟩, rfl, hintS⟩ :=
    (isValidSignatureEncoding_parts hsig hr hs).mp h
  refine ⟨r, s, hashtype, ?_, hsize, hintR, hintS⟩
  rw [← htotal, ← hr, ← hs, UInt8.ofNat_toNat, UInt8.ofNat_toNat, UInt8.ofNat_toNat]
  exact hsig

/-- `IsValidSignatureEncoding` accepts the bytes that are a signature in one way. -/
theorem isValidSignatureEncoding_iff (sig : Bytes) :
    isValidSignatureEncoding sig = true ↔
      ∃! p : Bytes × Bytes × UInt8, Signature sig p.1 p.2.1 p.2.2 := by
  constructor
  · intro h
    obtain ⟨r, s, hashtype, hsig⟩ := exists_signature h
    exact ⟨(r, s, hashtype), hsig, fun _ => hsig.unique⟩
  · rintro ⟨⟨r, s, hashtype⟩, h, -⟩
    obtain ⟨hr, hs, htotal⟩ := h.lengths
    exact (isValidSignatureEncoding_parts h.bytes hr hs).mpr
      ⟨h.size, rfl, htotal, ⟨rfl, h.integers.1⟩, rfl, h.integers.2⟩

end RgmNode.Der
