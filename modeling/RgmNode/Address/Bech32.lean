import RgmNode.Address.Base58
import RgmNode.Address.ConvertBits

/-!
# Bech32

`bech32::Encode` and `bech32::Decode` of `bech32.cpp`.  The checksum is the remainder of a
polynomial over the field of 32 elements; as a function on words it is linear in exclusive or,
so that the six symbols of a checksum are determined by what they follow.
-/

namespace RgmNode.Bech32

open BitGroups List UInt8 Nat

/-! ## 1. The code -/

def charset : Bytes := ascii "qpzry9x8gf2tvdw0s3jn54khce6mua7l"

def charsetRev : List Int :=
  [-1, -1, -1, -1, -1, -1, -1, -1, -1, -1, -1, -1, -1, -1, -1, -1,
   -1, -1, -1, -1, -1, -1, -1, -1, -1, -1, -1, -1, -1, -1, -1, -1,
   -1, -1, -1, -1, -1, -1, -1, -1, -1, -1, -1, -1, -1, -1, -1, -1,
   15, -1, 10, 17, 21, 20, 26, 30,  7,  5, -1, -1, -1, -1, -1, -1,
   -1, 29, -1, 24, 13, 25,  9,  8, 23, -1, 18, 22, 31, 27, 19, -1,
    1,  0,  3, 16, 11, 28, 12, 14,  6,  4,  2, -1, -1, -1, -1, -1,
   -1, 29, -1, 24, 13, 25,  9,  8, 23, -1, 18, 22, 31, 27, 19, -1,
    1,  0,  3, 16, 11, 28, 12, 14,  6,  4,  2, -1, -1, -1, -1, -1]

/-- `c ^= generator`, if the bit of `c0` is set -/
def xorIf (c0 bit : BitVec 8) (generator c : BitVec 32) : BitVec 32 :=
  if c0 &&& bit ≠ 0#8 then c ^^^ generator else c

/-- The body of the loop of `PolyMod` -/
def polyModStep (c : BitVec 32) (d : UInt8) : BitVec 32 :=
  let c0 := (c >>> 25).setWidth 8
  let c := (c &&& 0x1ffffff#32) <<< 5 ^^^ d.toBitVec.setWidth 32
  xorIf c0 16#8 0x2a1462b3#32 <| xorIf c0 8#8 0x3d4233dd#32 <| xorIf c0 4#8 0x1ea119fa#32 <|
    xorIf c0 2#8 0x26508e6d#32 <| xorIf c0 1#8 0x3b6a57b2#32 c

def polyMod (v : Bytes) : BitVec 32 := v.foldl polyModStep 1

def lowerCase (c : UInt8) : UInt8 := if 0x41 ≤ c ∧ c ≤ 0x5a then c - 0x41 + 0x61 else c

/-- Expand the HRP into values for checksum computation. -/
def hrpExpand (hrp : Bytes) : Bytes :=
  hrp.map (fun c : UInt8 => c >>> 5) ++ 0 :: hrp.map (fun c : UInt8 => c &&& 0x1f)

/-- BIP-350: witness v0 uses bech32 (const 1), v1+ uses bech32m. -/
def checksumConst (values : Bytes) : BitVec 32 :=
  match values with
  | [] => 1
  | version :: _ => if version ≠ 0 then 0x2bc830a3#32 else 1

def verifyChecksum (hrp values : Bytes) : Bool :=
  polyMod (hrpExpand hrp ++ values) == checksumConst values

def createChecksum (hrp values : Bytes) : Bytes :=
  let enc := hrpExpand hrp ++ values ++ List.replicate 6 0
  let mod := polyMod enc ^^^ checksumConst values
  (List.range 6).map fun i => UInt8.ofBitVec ((mod >>> (5 * (5 - i)) &&& 31#32).setWidth 8)

def charOf (value : UInt8) : UInt8 := charset.getD value.toNat 0

def encode (hrp values : Bytes) : Bytes :=
  hrp ++ Base58.one :: (values ++ createChecksum hrp values).map charOf

def isLower (c : UInt8) : Bool := decide (0x61 ≤ c) && decide (c ≤ 0x7a)

def isUpper (c : UInt8) : Bool := decide (0x41 ≤ c) && decide (c ≤ 0x5a)

/-- The first loop of `Decode`: `ok`, `lower` and `upper` -/
def scanCase : Bytes → Bool → Bool → Bool × Bool × Bool
  | [], lower, upper => (true, lower, upper)
  | c :: str, lower, upper =>
    if c < 33 ∨ 126 < c then (false, lower || isLower c, upper || isUpper c)
    else scanCase str (lower || isLower c) (upper || isUpper c)

/-- `str.rfind(c)` -/
def rfind (c : UInt8) : Bytes → Option Nat
  | [] => none
  | x :: str =>
    match rfind c str with
    | some pos => some (pos + 1)
    | none => if x = c then some 0 else none

/-- The loop over the characters after the separator; `none` if one is not valid. -/
def readValues : Bytes → Option Bytes
  | [] => some []
  | c :: str =>
    let rev := charsetRev.getD (if c < 128 then c.toNat else 0) (-1)
    if rev = -1 then none else (readValues str).map (UInt8.ofNat rev.toNat :: ·)

/-- Decode a Bech32 string: the human-readable part and the values, empty in case of failure. -/
def decode (str : Bytes) : Bytes × Bytes :=
  let ⟨ok, lower, upper⟩ := scanCase str false false
  let ok := if lower && upper then false else ok
  match rfind Base58.one str with
  | none => ([], [])
  | some pos =>
    if ok ∧ str.length ≤ 90 ∧ 1 ≤ pos ∧ pos + 7 ≤ str.length then
      match readValues (str.drop (pos + 1)) with
      | none => ([], [])
      | some values =>
        let hrp := (str.take pos).map lowerCase
        if verifyChecksum hrp values then (hrp, values.take (values.length - 6)) else ([], [])
    else ([], [])

/-! ## 2. The checksum is linear -/

/-- What the bit at `k` of a word adds to the next. -/
def select (k : Nat) (generator c : BitVec 32) : BitVec 32 :=
  if c.getLsbD k then generator else 0#32

theorem select_xor (k : Nat) (generator a b : BitVec 32) :
    select k generator (a ^^^ b) = select k generator a ^^^ select k generator b := by
  unfold select
  rw [BitVec.getLsbD_xor]
  cases a.getLsbD k <;> cases b.getLsbD k <;> simp

/-- A word is moved up by one symbol and reduced. -/
def shift (c : BitVec 32) : BitVec 32 :=
  (c &&& 0x1ffffff#32) <<< 5 ^^^ select 25 0x3b6a57b2#32 c ^^^ select 26 0x26508e6d#32 c ^^^
    select 27 0x1ea119fa#32 c ^^^ select 28 0x3d4233dd#32 c ^^^ select 29 0x2a1462b3#32 c

theorem xorIf_bit {k : Nat} (hk : k < 8) (generator c c' : BitVec 32) :
    xorIf ((c >>> 25).setWidth 8) (BitVec.twoPow 8 k) generator c' =
      c' ^^^ select (25 + k) generator c := by
  have hbit : (BitVec.setWidth 8 (c >>> 25)).getLsbD k = c.getLsbD (25 + k) := by
    simp [hk]
  have hpow : BitVec.twoPow 8 k ≠ 0#8 := by
    intro h
    have hset := congrArg (fun v => BitVec.getLsbD v k) h
    simp [hk] at hset
  rw [xorIf, select, BitVec.and_twoPow, hbit]
  cases c.getLsbD (25 + k) with
  | true => rw [if_pos rfl, if_pos rfl, if_pos hpow]
  | false =>
    rw [if_neg Bool.false_ne_true, if_neg Bool.false_ne_true, if_neg (not_not_intro rfl),
      BitVec.xor_zero]

theorem polyModStep_eq (c : BitVec 32) (d : UInt8) :
    polyModStep c d = shift c ^^^ d.toBitVec.setWidth 32 := by
  have h16 : 16#8 = BitVec.twoPow 8 4 := by decide
  have h8 : 8#8 = BitVec.twoPow 8 3 := by decide
  have h4 : 4#8 = BitVec.twoPow 8 2 := by decide
  have h2 : 2#8 = BitVec.twoPow 8 1 := by decide
  have h1 : 1#8 = BitVec.twoPow 8 0 := by decide
  rw [polyModStep, h16, h8, h4, h2, h1, xorIf_bit (by decide), xorIf_bit (by decide),
    xorIf_bit (by decide), xorIf_bit (by decide), xorIf_bit (by decide), shift]
  ac_rfl

theorem shift_xor (a b : BitVec 32) : shift (a ^^^ b) = shift a ^^^ shift b := by
  have hand : (a ^^^ b) &&& 0x1ffffff#32 = (a &&& 0x1ffffff#32) ^^^ (b &&& 0x1ffffff#32) := by
    refine BitVec.eq_of_getLsbD_eq fun i hi => ?_
    rw [BitVec.getLsbD_and, BitVec.getLsbD_xor, BitVec.getLsbD_xor, BitVec.getLsbD_and,
      BitVec.getLsbD_and, Bool.and_xor_distrib_right]
  unfold shift
  rw [hand, BitVec.shiftLeft_xor_distrib]
  simp only [select_xor]
  ac_rfl

/-- What follows a word acts on it as zeros do, and adds what it gives alone. -/
theorem foldl_polyModStep (a : BitVec 32) (b : BitVec 32) (v : Bytes) :
    v.foldl polyModStep (a ^^^ b) =
      (List.replicate v.length 0).foldl polyModStep a ^^^ v.foldl polyModStep b := by
  induction v generalizing a b with
  | nil => rfl
  | cons d v ih =>
    have hstep : polyModStep (a ^^^ b) d = polyModStep a 0 ^^^ polyModStep b d := by
      rw [polyModStep_eq, polyModStep_eq, polyModStep_eq, shift_xor]
      simp [BitVec.xor_assoc]
    rw [length_cons, replicate_succ, foldl_cons, foldl_cons, foldl_cons, hstep, ih]

/-- The symbols of a checksum add themselves, as one word. -/
theorem polyMod_append (v cs : Bytes) :
    polyMod (v ++ cs) =
      polyMod (v ++ List.replicate cs.length 0) ^^^ cs.foldl polyModStep 0#32 := by
  rw [polyMod, polyMod, foldl_append, foldl_append, ← foldl_polyModStep, BitVec.xor_zero]

/-! ## 3. The word of six symbols -/

theorem toNat_setWidth (d : UInt8) : (d.toBitVec.setWidth 32).toNat = d.toNat := by
  rw [BitVec.toNat_setWidth]
  exact mod_eq_of_lt (lt_trans d.toNat_lt (by decide))

/-- A word of at most five symbols is only moved up. -/
theorem toNat_polyModStep {c : BitVec 32} {d : UInt8} (hc : c.toNat < 2 ^ 25)
    (hd : d.toNat < 2 ^ 5) : (polyModStep c d).toNat = c.toNat <<< 5 ||| d.toNat := by
  have hbit : ∀ k, 25 ≤ k → c.getLsbD k = false := fun k hk =>
    testBit_lt_two_pow (lt_of_lt_of_le hc (Nat.pow_le_pow_right two_pos hk))
  have hselect : ∀ k generator, 25 ≤ k → select k generator c = 0#32 := fun k generator hk => by
    rw [select, hbit k hk, if_neg Bool.false_ne_true]
  have hmask : c &&& 0x1ffffff#32 = c := by
    refine BitVec.eq_of_toNat_eq ?_
    exact (and_two_pow_sub_one_eq_mod c.toNat 25).trans (mod_eq_of_lt hc)
  have hlt : c.toNat <<< 5 < 2 ^ 32 := by
    omega
  rw [polyModStep_eq, shift, hmask, hselect 25 _ (by decide), hselect 26 _ (by decide),
    hselect 27 _ (by decide), hselect 28 _ (by decide), hselect 29 _ (by decide)]
  simp only [BitVec.xor_zero]
  rw [BitVec.toNat_xor, BitVec.toNat_shiftLeft, mod_eq_of_lt hlt, toNat_setWidth]
  refine eq_of_testBit_eq fun i => ?_
  rw [testBit_xor, testBit_or, testBit_shiftLeft]
  rcases lt_or_ge i 5 with hi | hi
  · rw [decide_eq_false (not_le.mpr hi), Bool.false_and, Bool.false_xor, Bool.false_or]
  · rw [testBit_lt_two_pow (lt_of_lt_of_le hd (Nat.pow_le_pow_right two_pos hi)),
      Bool.xor_false, Bool.or_false]

/-- Up to six symbols, a word is the row of its symbols. -/
theorem bits_foldl_polyModStep {cs : Bytes} (hcs : Fits 5 cs) (hlen : cs.length ≤ 6) :
    (cs.foldl polyModStep 0#32).toNat < 2 ^ (5 * cs.length) ∧
      bits (5 * cs.length) (cs.foldl polyModStep 0#32).toNat = groups 5 cs := by
  induction cs using List.reverseRecOn with
  | nil => exact ⟨by decide, rfl⟩
  | append_singleton cs d ih =>
    rw [length_append] at hlen
    obtain ⟨hcs, hd⟩ := forall_mem_append.mp hcs
    have hd : d.toNat < 2 ^ 5 := hd d mem_cons_self
    obtain ⟨hlt, hrow⟩ := ih hcs (le_of_succ_le hlen)
    have hshort : (cs.foldl polyModStep 0#32).toNat < 2 ^ 25 :=
      lt_of_lt_of_le hlt (Nat.pow_le_pow_right two_pos
        (mul_le_mul_left 5 (le_of_succ_le_succ hlen)))
    rw [foldl_append, foldl_cons, foldl_nil, toNat_polyModStep hshort hd, length_append,
      length_singleton, mul_succ, bits_shiftLeft_or hd, hrow, groups_append, groups_cons,
      groups_nil]
    refine ⟨?_, rfl⟩
    rw [← shiftLeft_add_eq_or_of_lt hd, pow_add]
    omega

theorem select_lt {k : Nat} {generator : BitVec 32} (hg : generator.toNat < 2 ^ 30)
    (c : BitVec 32) : (select k generator c).toNat < 2 ^ 30 := by
  unfold select
  split
  · exact hg
  · decide

theorem polyModStep_lt (c : BitVec 32) (d : UInt8) : (polyModStep c d).toNat < 2 ^ 30 := by
  have hmask : ((c &&& 0x1ffffff#32) <<< 5).toNat < 2 ^ 30 := by
    have hlow : (c &&& 0x1ffffff#32).toNat < 2 ^ 25 := by
      exact lt_of_le_of_lt and_le_right (by decide)
    rw [BitVec.toNat_shiftLeft]
    omega
  have hd : (d.toBitVec.setWidth 32).toNat < 2 ^ 30 := by
    exact lt_trans d.toNat_lt (by decide)
  rw [polyModStep_eq]
  refine xor_lt_two_pow ?_ hd
  exact xor_lt_two_pow (xor_lt_two_pow (xor_lt_two_pow (xor_lt_two_pow
    (xor_lt_two_pow hmask (select_lt (by decide) c)) (select_lt (by decide) c))
    (select_lt (by decide) c)) (select_lt (by decide) c)) (select_lt (by decide) c)

theorem polyMod_lt (v : Bytes) : (polyMod v).toNat < 2 ^ 30 := by
  rw [polyMod]
  induction v using List.reverseRecOn with
  | nil => decide
  | append_singleton v d _ =>
    rw [foldl_append, foldl_cons]
    exact polyModStep_lt _ d

theorem checksumConst_lt (values : Bytes) : (checksumConst values).toNat < 2 ^ 30 := by
  unfold checksumConst
  split
  · decide
  · split <;> decide

/-- The word that a checksum has to give. -/
def checksumWord (hrp values : Bytes) : BitVec 32 :=
  polyMod (hrpExpand hrp ++ values ++ List.replicate 6 0) ^^^ checksumConst values

theorem checksumWord_lt (hrp values : Bytes) : (checksumWord hrp values).toNat < 2 ^ 30 := by
  exact xor_lt_two_pow (polyMod_lt _) (checksumConst_lt values)

theorem toNat_symbol (word : BitVec 32) (k : Nat) :
    (ofBitVec ((word >>> k &&& 31#32).setWidth 8)).toNat = (word.toNat >>> k) % 2 ^ 5 := by
  have hand : (word >>> k &&& 31#32).toNat = (word.toNat >>> k) % 2 ^ 5 := by
    exact and_two_pow_sub_one_eq_mod _ 5
  have hlt : (word.toNat >>> k) % 2 ^ 5 < 2 ^ 8 :=
    lt_trans (mod_lt _ (by decide)) (by decide)
  rw [toNat_ofBitVec, BitVec.toNat_setWidth, hand, mod_eq_of_lt hlt]

theorem length_createChecksum (hrp values : Bytes) : (createChecksum hrp values).length = 6 := by
  rw [createChecksum, length_map, length_range]

theorem fits_createChecksum (hrp values : Bytes) : Fits 5 (createChecksum hrp values) := by
  intro v hv
  obtain ⟨i, -, rfl⟩ := mem_map.mp hv
  rw [toNat_symbol]
  exact mod_lt _ (by decide)

theorem groups_createChecksum (hrp values : Bytes) :
    groups 5 (createChecksum hrp values) = bits 30 (checksumWord hrp values).toNat := by
  have hsix : createChecksum hrp values = [0, 1, 2, 3, 4, 5].map fun i =>
    ofBitVec ((checksumWord hrp values >>> (5 * (5 - i)) &&& 31#32).setWidth 8) := rfl
  rw [hsix, bits_add 5 25, bits_add 5 20, bits_add 5 15, bits_add 5 10, bits_add 5 5]
  simp only [map_cons, map_nil, groups_cons, groups_nil, toNat_symbol, bits_mod (le_refl 5)]
  simp

variable {c : UInt8} {hrp values str vs : Bytes}

/-- Exactly one checksum is accepted after given values. -/
theorem verifyChecksum_iff {cs : Bytes} (hne : values ≠ []) (hcs : Fits 5 cs) (hlen : cs.length = 6) :
    verifyChecksum hrp (values ++ cs) = true ↔ cs = createChecksum hrp values := by
  have hconst : checksumConst (values ++ cs) = checksumConst values := by
    cases values with
    | nil => exact absurd rfl hne
    | cons version values => rfl
  obtain ⟨hlt, hrow⟩ := bits_foldl_polyModStep hcs (le_of_eq hlen)
  rw [hlen] at hlt hrow
  -- the polynomial is right exactly if the checksum gives the word that is missing
  have hword : verifyChecksum hrp (values ++ cs) = true ↔
      cs.foldl polyModStep 0#32 = checksumWord hrp values := by
    rw [verifyChecksum, beq_iff_eq, hconst, ← append_assoc, polyMod_append, hlen, checksumWord]
    constructor
    · intro h
      rw [← h, ← BitVec.xor_assoc, BitVec.xor_self, BitVec.zero_xor]
    · intro h
      rw [h, ← BitVec.xor_assoc, BitVec.xor_self, BitVec.zero_xor]
  rw [hword]
  constructor
  · intro h
    refine groups_inj (by decide) hcs (fits_createChecksum hrp values) ?_
    rw [groups_createChecksum, ← hrow, h]
  · intro h
    refine BitVec.eq_of_toNat_eq (eq_of_bits_eq hlt (checksumWord_lt hrp values) ?_)
    rw [← groups_createChecksum, ← h]
    exact hrow

theorem verifyChecksum_createChecksum (hrp : Bytes) (hne : values ≠ []) :
    verifyChecksum hrp (values ++ createChecksum hrp values) = true :=
  (verifyChecksum_iff hne (fits_createChecksum hrp values)
    (length_createChecksum hrp values)).mpr rfl

/-! ## 4. The parts of a string -/

theorem rfind_eq_none (h : c ∉ str) : rfind c str = none := by
  induction str with
  | nil => rfl
  | cons x str ih =>
    obtain ⟨hx, hstr⟩ := not_or.mp (mt mem_cons.mpr h)
    rw [rfind, ih hstr]
    exact if_neg fun heq => hx heq.symm

theorem rfind_append (pre : Bytes) {post : Bytes} (h : c ∉ post) :
    rfind c (pre ++ c :: post) = some pre.length := by
  induction pre with
  | nil =>
    rw [nil_append, rfind, rfind_eq_none h]
    exact if_pos rfl
  | cons x pre ih => rw [cons_append, rfind, ih, length_cons]

theorem of_rfind {pos : Nat} (h : rfind c str = some pos) :
    str = str.take pos ++ c :: str.drop (pos + 1) := by
  induction str generalizing pos with
  | nil => cases h
  | cons x str ih =>
    rw [rfind] at h
    cases hrest : rfind c str with
    | some p =>
      rw [hrest] at h
      cases h
      rw [take_succ_cons, drop_succ_cons, cons_append, ← ih hrest]
    | none =>
      rw [hrest] at h
      dsimp only at h
      split at h
      · next hx =>
        cases h
        rw [hx]
        rfl
      · cases h

/-- The characters of the 32 values: printable, not of upper case, none of them a separator, and
read back by the other table. -/
theorem charOf_fin (v : Fin 32) :
    charsetRev.getD (if charOf (ofNat v) < 128 then (charOf (ofNat v)).toNat else 0)
        (-1) = (v.val : Int) ∧
      ¬ (charOf (ofNat v) < 33 ∨ 126 < charOf (ofNat v)) ∧
      isUpper (charOf (ofNat v)) = false ∧ charOf (ofNat v) ≠ Base58.one ∧
      Base58.isSpace (charOf (ofNat v)) = false := by
  revert v
  decide +kernel

/-- The characters that are accepted are those of the 32 values, in either case. -/
theorem charsetRev_fin (c : Fin 128) :
    charsetRev.getD c (-1) = -1 ∨ (charsetRev.getD c (-1)).toNat < 32 ∧
      charset.getD (charsetRev.getD c (-1)).toNat 0 = lowerCase (ofNat c) := by
  revert c
  decide +kernel

theorem charOf_spec {v : UInt8} (h : v.toNat < 2 ^ 5) :
    charsetRev.getD (if charOf v < 128 then (charOf v).toNat else 0) (-1) = (v.toNat : Int) ∧
      ¬ (charOf v < 33 ∨ 126 < charOf v) ∧ isUpper (charOf v) = false ∧
      charOf v ≠ Base58.one ∧ Base58.isSpace (charOf v) = false := by
  have hfin := charOf_fin ⟨v.toNat, h⟩
  rwa [UInt8.ofNat_toNat] at hfin

theorem readValues_map_charOf (h : Fits 5 vs) : readValues (vs.map charOf) = some vs := by
  induction vs with
  | nil => rfl
  | cons v vs ih =>
    obtain ⟨hv, hvs⟩ := forall_mem_cons.mp h
    rw [map_cons, readValues, (charOf_spec hv).1, if_neg (by omega), ih hvs, Option.map_some,
      Int.toNat_natCast, UInt8.ofNat_toNat]

theorem of_readValues (h : readValues str = some vs) :
    vs.map charOf = str.map lowerCase ∧ Fits 5 vs := by
  induction str generalizing vs with
  | nil =>
    cases h
    exact ⟨rfl, fun v hv => absurd hv not_mem_nil⟩
  | cons c str ih =>
    rw [readValues] at h
    split at h
    · next hc =>
      have hlt : c.toNat < 128 := lt_iff_toNat_lt.mp hc
      split at h
      · cases h
      · next hrev =>
        obtain ⟨vs', hvs', rfl⟩ := Option.map_eq_some_iff.mp h
        obtain ⟨hmap, hfits⟩ := ih hvs'
        obtain hnone | ⟨hsmall, hchar⟩ := charsetRev_fin ⟨c.toNat, hlt⟩
        · exact absurd hnone hrev
        · have hvalue : (ofNat (charsetRev.getD c.toNat (-1)).toNat).toNat =
              (charsetRev.getD c.toNat (-1)).toNat :=
            toNat_ofNat_of_lt' (lt_trans hsmall (by decide))
          rw [UInt8.ofNat_toNat] at hchar
          refine ⟨?_, forall_mem_cons.mpr ⟨?_, hfits⟩⟩
          · rw [map_cons, map_cons, hmap, charOf, hvalue, hchar]
          · rw [hvalue]
            exact hsmall
    -- a character above 127 is looked up at 0, where there is none
    · have hzero : charsetRev.getD 0 (-1) = -1 := rfl
      cases h

/-- A text that is printable and has no upper case. -/
def Plain (str : Bytes) : Prop := ∀ c ∈ str, ¬ (c < 33 ∨ 126 < c) ∧ isUpper c = false

theorem scanCase_of_plain (h : Plain str) (lower : Bool) :
    ∃ lower', scanCase str lower false = (true, lower', false) := by
  induction str generalizing lower with
  | nil => exact ⟨lower, rfl⟩
  | cons c str ih =>
    obtain ⟨⟨hprint, hcase⟩, hstr⟩ := forall_mem_cons.mp h
    rw [scanCase, if_neg hprint, hcase]
    exact ih hstr _

theorem lowerCase_of_not_isUpper (h : isUpper c = false) : lowerCase c = c := by
  refine if_neg fun hupper => ?_
  rw [isUpper, decide_eq_true hupper.1, decide_eq_true hupper.2] at h
  cases h

theorem map_lowerCase_of_plain (h : Plain str) : str.map lowerCase = str := by
  refine (map_congr_left fun c hc => ?_).trans (map_id str)
  exact lowerCase_of_not_isUpper (h c hc).2

theorem fits_append {us : Bytes} (hvs : Fits 5 vs) (hus : Fits 5 us) : Fits 5 (vs ++ us) :=
  forall_mem_append.mpr ⟨hvs, hus⟩

theorem plain_map_charOf (h : Fits 5 vs) : Plain (vs.map charOf) := by
  refine forall_mem_map.mpr fun v hv => ?_
  obtain ⟨-, hprint, hcase, -⟩ := charOf_spec (h v hv)
  exact ⟨hprint, hcase⟩

theorem plain_encode (hhrp : Plain hrp) (hvalues : Fits 5 values) : Plain (encode hrp values) := by
  refine forall_mem_append.mpr ⟨hhrp, forall_mem_cons.mpr ⟨by decide, ?_⟩⟩
  exact plain_map_charOf (fits_append hvalues (fits_createChecksum hrp values))

theorem length_encode (hrp values : Bytes) :
    (encode hrp values).length = hrp.length + values.length + 7 := by
  rw [encode, length_append, length_cons, length_map, length_append, length_createChecksum]
  omega

/-! ## 5. The round trips -/

/-- A text with a separator is decoded if its checksum is right. -/
theorem decode_chars {all : Bytes} (hne : hrp ≠ []) (hhrp : Plain hrp) (hall : Fits 5 all)
    (hsix : 6 ≤ all.length) (hlen : hrp.length + all.length + 1 ≤ 90) :
    decode (hrp ++ Base58.one :: all.map charOf) =
      if verifyChecksum hrp all then (hrp, all.take (all.length - 6)) else ([], []) := by
  have hplain : Plain (hrp ++ Base58.one :: all.map charOf) :=
    forall_mem_append.mpr ⟨hhrp, forall_mem_cons.mpr ⟨by decide, plain_map_charOf hall⟩⟩
  obtain ⟨lower, hscan⟩ := scanCase_of_plain hplain false
  have hsep : Base58.one ∉ all.map charOf := by
    intro hmem
    obtain ⟨v, hv, heq⟩ := mem_map.mp hmem
    exact (charOf_spec (hall v hv)).2.2.2.1 heq
  have hdrop : (hrp ++ Base58.one :: all.map charOf).drop (hrp.length + 1) = all.map charOf := by
    simp
  have hhead : 1 ≤ hrp.length := length_pos_iff.mpr hne
  rw [decode, hscan, rfind_append hrp hsep]
  dsimp only
  rw [Bool.and_false, if_pos, hdrop, readValues_map_charOf hall]
  · dsimp only
    rw [take_left, map_lowerCase_of_plain hhrp]
  · rw [length_append, length_cons, length_map]
    exact ⟨rfl, by omega, hhead, by omega⟩

theorem decode_encode (hne : hrp ≠ []) (hhrp : Plain hrp) (hvalues : Fits 5 values)
    (hvne : values ≠ []) (hlen : hrp.length + values.length + 7 ≤ 90) :
    decode (encode hrp values) = (hrp, values) := by
  have hall := fits_append hvalues (fits_createChecksum hrp values)
  have hcount : (values ++ createChecksum hrp values).length = values.length + 6 := by
    rw [length_append, length_createChecksum]
  rw [encode, decode_chars hne hhrp hall (by omega) (by omega),
    if_pos (verifyChecksum_createChecksum hrp hvne), hcount, Nat.add_sub_cancel, take_left]

/-- What is decoded was, but for its case, encoded. -/
theorem encode_decode (h : decode str = (hrp, values)) (hne : values ≠ []) :
    encode hrp values = str.map lowerCase ∧ Fits 5 values := by
  rw [decode] at h
  dsimp only at h
  generalize (if ((scanCase str false false).2.1 && (scanCase str false false).2.2) = true
    then false else (scanCase str false false).1) = ok at h
  split at h
  · exact absurd (Prod.mk.inj h).2.symm hne
  · next pos hpos =>
    split at h
    · next hcond =>
      split at h
      · exact absurd (Prod.mk.inj h).2.symm hne
      · next all hread =>
        obtain ⟨hmap, hfits⟩ := of_readValues hread
        split at h
        · next hverify =>
          cases h
          have hlen : 6 ≤ all.length := by
            have hsame := congrArg List.length hmap
            rw [length_map, length_map, length_drop] at hsame
            omega
          obtain ⟨hdata, hcs⟩ := forall_mem_append.mp
            ((take_append_drop (all.length - 6) all).symm ▸ hfits :
              Fits 5 (all.take (all.length - 6) ++ all.drop (all.length - 6)))
          have hsix : (all.drop (all.length - 6)).length = 6 := by
            rw [length_drop]
            omega
          rw [← take_append_drop (all.length - 6) all, verifyChecksum_iff hne hcs hsix] at hverify
          refine ⟨?_, hdata⟩
          rw [encode, ← hverify, take_append_drop, hmap]
          conv_rhs => rw [of_rfind hpos, map_append]
          rfl
        · exact absurd (Prod.mk.inj h).2.symm hne
    · exact absurd (Prod.mk.inj h).2.symm hne

end RgmNode.Bech32
