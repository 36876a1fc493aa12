import Mathlib.Data.List.Iterate
import RgmNode.Address.Bech32

/-!
# Single errors in Bech32 strings

A string with one wrong character has a checksum that differs from the right one by the word of a
single symbol, moved up by the symbols that follow.  Such a word is never zero, and up to the greatest
length it is never the difference of the two constants either, so that a wrong version symbol is
found as well.
-/

namespace RgmNode.Bech32

open BitGroups List

/-! ## 1. The word of one wrong symbol -/

/-- A symbol as a word -/
def symbol (d : UInt8) : BitVec 32 := d.toBitVec.setWidth 32

theorem foldl_replicate (n : Nat) (c : BitVec 32) :
    (List.replicate n 0).foldl polyModStep c = shift^[n] c := by
  induction n generalizing c with
  | zero => rfl
  | succ n ih =>
    have hstep : polyModStep c 0 = shift c := by
      rw [polyModStep_eq]
      exact BitVec.xor_zero
    rw [replicate_succ, foldl_cons, hstep, ih, Function.iterate_succ_apply]

/-- Another symbol changes the word by the difference, moved up by what follows. -/
theorem polyMod_replace (pre post : Bytes) (d d' : UInt8) :
    polyMod (pre ++ d' :: post) =
      shift^[post.length] (symbol d ^^^ symbol d') ^^^ polyMod (pre ++ d :: post) := by
  have hstep : ∀ c, polyModStep c d' = (symbol d ^^^ symbol d') ^^^ polyModStep c d := by
    intro c
    rw [polyModStep_eq, polyModStep_eq]
    calc shift c ^^^ symbol d'
        = (symbol d ^^^ symbol d) ^^^ (shift c ^^^ symbol d') := by
          rw [BitVec.xor_self, BitVec.zero_xor]
      _ = (symbol d ^^^ symbol d') ^^^ (shift c ^^^ symbol d) := by ac_rfl
  rw [polyMod, polyMod, foldl_append, foldl_append, foldl_cons, foldl_cons,
    hstep, foldl_polyModStep, foldl_replicate]

def constDifference : BitVec 32 := 0x2bc830a2#32

theorem checksumConst_xor (vs us : Bytes) :
    checksumConst vs ^^^ checksumConst us = 0#32 ∨
      checksumConst vs ^^^ checksumConst us = constDifference := by
  have hcases : ∀ vs, checksumConst vs = 1#32 ∨ checksumConst vs = 0x2bc830a3#32 := by
    intro vs
    unfold checksumConst
    split
    · exact .inl rfl
    · split
      · exact .inr rfl
      · exact .inl rfl
  rcases hcases vs with hvs | hvs <;> rcases hcases us with hus | hus <;> rw [hvs, hus] <;> decide

/-- The words of one symbol, moved up by less than 90: all are computed. -/
theorem iterate_shift_fin (v : Fin 32) (hv : v ≠ 0) :
    0#32 ∉ List.iterate shift (BitVec.ofNat 32 v) 90 ∧
      constDifference ∉ List.iterate shift (BitVec.ofNat 32 v) 90 := by
  revert v
  decide +kernel

theorem symbol_eq_ofNat (d : UInt8) : symbol d = BitVec.ofNat 32 d.toNat :=
  BitVec.eq_of_toNat_eq (by
    exact (Nat.mod_eq_of_lt (lt_trans d.toNat_lt (by decide))).symm)

theorem symbol_xor (d d' : UInt8) : symbol d ^^^ symbol d' = symbol (d ^^^ d') := by
  rw [symbol, symbol, symbol, UInt8.toBitVec_xor, BitVec.setWidth_xor]

/-- One wrong symbol is not lost, and does not make up for the other constant. -/
theorem shifts_ne {d d' : UInt8} (hd : d.toNat < 2 ^ 5) (hd' : d'.toNat < 2 ^ 5) (hne : d ≠ d')
    {n : Nat} (hn : n < 90) :
    shift^[n] (symbol d ^^^ symbol d') ≠ 0#32 ∧
      shift^[n] (symbol d ^^^ symbol d') ≠ constDifference := by
  have hlt : (d ^^^ d').toNat < 32 := by
    exact Nat.xor_lt_two_pow hd hd'
  have hzero : (⟨(d ^^^ d').toNat, hlt⟩ : Fin 32) ≠ 0 := by
    intro heq
    have hval : (d ^^^ d').toNat = 0 := congrArg Fin.val heq
    exact hne (UInt8.xor_eq_zero_iff.mp (UInt8.toNat_inj.mp hval))
  obtain ⟨hnot, hnot'⟩ := iterate_shift_fin ⟨(d ^^^ d').toNat, hlt⟩ hzero
  rw [symbol_xor, symbol_eq_ofNat]
  exact ⟨fun heq => hnot (mem_iterate.mpr ⟨n, hn, heq.symm⟩),
    fun heq => hnot' (mem_iterate.mpr ⟨n, hn, heq.symm⟩)⟩

/-! ## 2. Strings with one wrong character -/

/-- After one change of a symbol a right checksum is wrong. -/
theorem verifyChecksum_set {hrp all : Bytes} {k : Nat} {d : UInt8} (hall : Fits 5 all)
    (hlen : all.length ≤ 90) (hk : k < all.length) (hd : d.toNat < 2 ^ 5)
    (hne : all.get ⟨k, hk⟩ ≠ d) (hverify : verifyChecksum hrp all = true) :
    verifyChecksum hrp (all.set k d) = false := by
  rw [← Bool.not_eq_true]
  intro hverify'
  rw [verifyChecksum, beq_iff_eq] at hverify hverify'
  obtain ⟨hzero, hconst⟩ := shifts_ne (hall _ (get_mem all ⟨k, hk⟩)) hd hne
    (n := (all.drop (k + 1)).length) (by rw [length_drop]; omega)
  have hsplit : hrpExpand hrp ++ all =
      (hrpExpand hrp ++ all.take k) ++ all.get ⟨k, hk⟩ :: all.drop (k + 1) := by
    rw [append_assoc, get_eq_getElem, getElem_cons_drop, take_append_drop]
  rw [set_eq_take_append_cons_drop, if_pos hk, ← append_assoc,
    polyMod_replace _ _ (all.get ⟨k, hk⟩), ← hsplit, hverify] at hverify'
  have hword : shift^[(all.drop (k + 1)).length] (symbol (all.get ⟨k, hk⟩) ^^^ symbol d) =
      checksumConst (all.take k ++ d :: all.drop (k + 1)) ^^^ checksumConst all := by
    rw [← hverify', BitVec.xor_assoc, BitVec.xor_self, BitVec.xor_zero]
  rcases checksumConst_xor (all.take k ++ d :: all.drop (k + 1)) all with hsame | hother
  · exact hzero (hword.trans hsame)
  · exact hconst (hword.trans hother)

theorem exists_charOf {c : UInt8} (hc : c ∈ charset) : ∃ v, v.toNat < 2 ^ 5 ∧ charOf v = c := by
  obtain ⟨k, hk, rfl⟩ := mem_iff_getElem.mp hc
  have hlen : charset.length = 32 := by decide
  have hsize : UInt8.size = 256 := rfl
  have hval : (UInt8.ofNat k).toNat = k := UInt8.toNat_ofNat_of_lt' (by omega)
  refine ⟨UInt8.ofNat k, by omega, ?_⟩
  rw [charOf, hval, getD_eq_getElem _ _ hk]

/-- A string is decoded to what was encoded; with one character after the separator changed to
another one of the charset it is not decoded. -/
theorem bech32_detects_single_error {hrp values : Bytes} (hne : hrp ≠ []) (hhrp : Plain hrp)
    (hvne : values ≠ []) (hvalues : Fits 5 values) (hlen : (encode hrp values).length ≤ 90) :
    decode (encode hrp values) = (hrp, values) ∧
      ∀ pos c, hrp.length < pos → pos < (encode hrp values).length → c ∈ charset →
        (encode hrp values)[pos]? ≠ some c →
        decode ((encode hrp values).set pos c) = ([], []) := by
  have hcount : (values ++ createChecksum hrp values).length = values.length + 6 := by
    rw [length_append, length_createChecksum]
  rw [length_encode] at hlen ⊢
  refine ⟨decode_encode hne hhrp hvalues hvne hlen, fun pos c hpos hend hc hother => ?_⟩
  obtain ⟨d, hd, rfl⟩ := exists_charOf hc
  obtain ⟨k, rfl⟩ := Nat.exists_eq_add_of_lt hpos
  have hall := fits_append hvalues (fits_createChecksum hrp values)
  have hverify := verifyChecksum_createChecksum hrp hvne
  rw [encode] at hother ⊢
  generalize values ++ createChecksum hrp values = all at *
  have hk : k < all.length := by omega
  -- the change is one of the symbols
  have hset : (hrp ++ Base58.one :: all.map charOf).set (hrp.length + k + 1) (charOf d) =
      hrp ++ Base58.one :: (all.set k d).map charOf := by
    rw [set_append_right _ _ (by omega), map_set]
    congr 1
    rw [Nat.add_assoc, Nat.add_sub_cancel_left, set_cons_succ]
  have hne' : all.get ⟨k, hk⟩ ≠ d := by
    rintro rfl
    refine hother ?_
    rw [getElem?_append_right (by omega), Nat.add_assoc, Nat.add_sub_cancel_left,
      getElem?_cons_succ, getElem?_map, getElem?_eq_getElem hk]
    rfl
  have hfits : Fits 5 (all.set k d) := by
    intro v hv
    rcases mem_or_eq_of_mem_set hv with hold | rfl
    · exact hall v hold
    · exact hd
  rw [hset, decode_chars hne hhrp hfits (by rw [length_set]; omega)
    (by rw [length_set]; omega), verifyChecksum_set hall (by omega) hk hd hne' hverify]
  rfl

/-- An address of version 0 of which the version symbol is changed, so that the other constant is
used. -/
theorem bech32_detects_wrong_version :
    decode (encode (ascii "rgm") [0, 14, 20]) = (ascii "rgm", [0, 14, 20]) ∧
      decode ((encode (ascii "rgm") [0, 14, 20]).set 4 (charOf 1)) = ([], []) := by
  have hplain : Plain (ascii "rgm") := by
    unfold Plain
    decide +kernel
  have hfits : Fits 5 [0, 14, 20] := by
    unfold Fits
    decide +kernel
  have h := bech32_detects_single_error (by decide) hplain (by decide) hfits (by decide +kernel)
  exact ⟨h.1, h.2 4 (charOf 1) (by decide) (by decide +kernel) (by decide +kernel)
    (by decide +kernel)⟩

end RgmNode.Bech32
