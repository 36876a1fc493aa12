import RgmNode.Lib.Radix
import RgmNode.Primitives.Bytes

/-!
# Base 58

`EncodeBase58`, `DecodeBase58` and the forms with a checksum, of `base58.cpp`.  Both directions
convert a number between the bases 256 and 58, digit by digit, in a buffer whose size is
estimated from the length of the input; an assertion says that the estimate was large enough.
-/

namespace RgmNode

open List UInt8

/-- A text of the source as the bytes of a `std::string`. -/
def ascii (s : String) : Bytes := s.toList.map fun c => UInt8.ofNat c.toNat

namespace Base58

/-! ## 1. The code -/

/-- All alphanumeric characters except for "0", "I", "O", and "l" -/
def pszBase58 : Bytes := ascii "123456789ABCDEFGHJKLMNPQRSTUVWXYZabcdefghijkmnopqrstuvwxyz"

/-- The character `'1'` -/
def one : UInt8 := 0x31

/-- `isspace` in the C locale -/
def isSpace (c : UInt8) : Bool := c == 0x20 || (decide (0x09 ≤ c) && decide (c ≤ 0x0d))

/-- The vectors `b256` and `b58`, from their last digit on, and how many digits are in use. -/
structure Buffer where
  digits : List Nat
  length : Nat

def Buffer.empty (size : Nat) : Buffer := ⟨List.replicate size 0, 0⟩

/-- The loop over a buffer in base `radix` that multiplies it by `base` and adds `carry`; with
`carry` and `i` after it. -/
def mulAddLoop (base radix length : Nat) : List Nat → Nat → Nat → List Nat × Nat × Nat
  | [], carry, i => ([], carry, i)
  | d :: ds, carry, i =>
    if carry ≠ 0 ∨ i < length then
      let rest := mulAddLoop base radix length ds ((carry + base * d) / radix) (i + 1)
      ((carry + base * d) % radix :: rest.1, rest.2)
    else (d :: ds, carry, i)

/-- One digit of the input; `none` where the assertion fails. -/
def Buffer.push (base radix : Nat) (buf : Buffer) (digit : Nat) : Option Buffer :=
  let ⟨digits, carry, i⟩ := mulAddLoop base radix buf.length buf.digits digit 0
  if carry = 0 then some ⟨digits, i⟩ else none

/-- The digits in use, the highest first, without leading zeros. -/
def Buffer.top (buf : Buffer) : List Nat :=
  (buf.digits.take buf.length).reverse.dropWhile (· == 0)

/-- The loop over the characters, up to a space: `some none` at a character that is none of the
58, and else the buffer and what follows. -/
def decodeLoop : Bytes → Buffer → Option (Option (Buffer × Bytes))
  | [], buf => some (some (buf, []))
  | c :: psz, buf =>
    if isSpace c then some (some (buf, c :: psz))
    else
      match pszBase58.idxOf? c with
      | none => some none
      | some carry => (buf.push 58 256 carry).bind (decodeLoop psz)

/-- `DecodeBase58` of a C string: `some none` for `false`; `none` where an assertion fails. -/
def decodeBase58 (psz : Bytes) : Option (Option Bytes) :=
  let psz := psz.dropWhile isSpace
  let zeroes := (psz.takeWhile (· == one)).length
  let psz := psz.dropWhile (· == one)
  let size := psz.length * 733 / 1000 + 1
  (decodeLoop psz (.empty size)).map fun result => result.bind fun ⟨b256, psz⟩ =>
    if (psz.dropWhile isSpace).isEmpty then
      some (List.replicate zeroes 0 ++ b256.top.map UInt8.ofNat)
    else none

def encodeLoop : Bytes → Buffer → Option Buffer
  | [], buf => some buf
  | b :: bs, buf => (buf.push 256 58 b.toNat).bind (encodeLoop bs)

def charOf (d : Nat) : UInt8 := pszBase58.getD d 0

/-- `EncodeBase58`; `none` where an assertion fails. -/
def encodeBase58 (vch : Bytes) : Option Bytes :=
  let zeroes := (vch.takeWhile (· == 0)).length
  let vch := vch.dropWhile (· == 0)
  let size := vch.length * 138 / 100 + 1
  (encodeLoop vch (.empty size)).map fun b58 =>
    List.replicate zeroes one ++ b58.top.map charOf

def checksum (cr : Crypto) (vch : Bytes) : Bytes := (cr.hash256 vch).bytes.take 4

def encodeBase58Check (cr : Crypto) (vchIn : Bytes) : Option Bytes :=
  encodeBase58 (vchIn ++ checksum cr vchIn)

/-- `DecodeBase58Check` of a `std::string`, which is read as a C string. -/
def decodeBase58Check (cr : Crypto) (str : Bytes) : Option (Option Bytes) :=
  (decodeBase58 (str.takeWhile (· != 0))).map fun result => result.bind fun vchRet =>
    if vchRet.length < 4 then none
    else if checksum cr (vchRet.take (vchRet.length - 4)) ≠ vchRet.drop (vchRet.length - 4) then none
    else some (vchRet.take (vchRet.length - 4))

/-! ## 2. A buffer holds a number -/

/-- The buffer holds `n`: all that is not in use is zero. -/
structure Buffer.Holds (radix n : Nat) (buf : Buffer) : Prop where
  lt : ∀ d ∈ buf.digits, d < radix
  unused : ∀ d ∈ buf.digits.drop buf.length, d = 0
  value : Nat.ofDigits radix buf.digits = n

variable {ds : List Nat} {radix base d : Nat} {buf : Buffer} {c : UInt8} {psz : Bytes}

theorem ofDigits_zeros (h : ∀ d ∈ ds, d = 0) : Nat.ofDigits radix ds = 0 := by
  induction ds with
  | nil => rfl
  | cons d ds ih =>
    obtain ⟨hd, hds⟩ := forall_mem_cons.mp h
    rw [Nat.ofDigits_cons, hd, ih hds, Nat.mul_zero]

theorem Buffer.holds_empty (hradix : 0 < radix) (size : Nat) :
    (Buffer.empty size).Holds radix 0 where
  lt d hd := by
    rw [eq_of_mem_replicate hd]
    exact hradix
  unused d hd := eq_of_mem_replicate (mem_of_mem_drop hd)
  value := ofDigits_zeros fun d hd => eq_of_mem_replicate hd

/-- The loop multiplies and adds, the carry included, and leaves zeros above what it touched. -/
theorem mulAddLoop_spec {length : Nat} (base carry i : Nat) (hradix : 0 < radix)
    (hds : ∀ d ∈ ds, d < radix) (hunused : ∀ d ∈ ds.drop (length - i), d = 0) :
    let r := mulAddLoop base radix length ds carry i
    Nat.ofDigits radix r.1 + radix ^ ds.length * r.2.1 = base * Nat.ofDigits radix ds + carry ∧
      r.1.length = ds.length ∧ (∀ d ∈ r.1, d < radix) ∧ i ≤ r.2.2 ∧
      ∀ d ∈ r.1.drop (r.2.2 - i), d = 0 := by
  induction ds generalizing carry i with
  | nil =>
    refine ⟨?_, rfl, hds, le_refl i, fun d hd => ?_⟩
    · simp [mulAddLoop]
    · rw [mulAddLoop, drop_nil] at hd
      exact absurd hd not_mem_nil
  | cons d ds ih =>
    rw [mulAddLoop]
    split
    · next hgo =>
      obtain ⟨hd, hds⟩ := forall_mem_cons.mp hds
      have hrest : ∀ d ∈ ds.drop (length - (i + 1)), d = 0 := by
        intro x hx
        refine hunused x ?_
        rcases Nat.lt_or_ge i length with hi | hi
        · rw [← Nat.succ_sub_succ, Nat.succ_sub hi]
          exact hx
        · rw [Nat.sub_eq_zero_of_le hi]
          exact mem_cons_of_mem d (mem_of_mem_drop hx)
      obtain ⟨hvalue, hlen, hlt, hle, hzeros⟩ :=
        ih ((carry + base * d) / radix) (i + 1) hds hrest
      refine ⟨?_, ?_, forall_mem_cons.mpr ⟨Nat.mod_lt _ hradix, hlt⟩, Nat.le_of_succ_le hle, ?_⟩
      · have hsplit := Nat.mod_add_div (carry + base * d) radix
        rw [length_cons, pow_succ']
        generalize mulAddLoop base radix length ds ((carry + base * d) / radix) (i + 1) = rest
          at hvalue
        calc (carry + base * d) % radix + radix * Nat.ofDigits radix rest.1 +
              radix * radix ^ ds.length * rest.2.1
            = (carry + base * d) % radix +
              radix * (Nat.ofDigits radix rest.1 + radix ^ ds.length * rest.2.1) := by ring
          _ = (carry + base * d) % radix + radix * ((carry + base * d) / radix) +
              base * (radix * Nat.ofDigits radix ds) := by rw [hvalue]; ring
          _ = base * (d + radix * Nat.ofDigits radix ds) + carry := by rw [hsplit]; ring
      · dsimp only
        rw [length_cons, hlen, length_cons]
      · dsimp only
        rw [← Nat.succ_sub_succ, Nat.succ_sub hle]
        exact hzeros
    · next hstop =>
      obtain ⟨hcarry, hi⟩ := not_or.mp hstop
      rw [Nat.sub_eq_zero_of_le (not_lt.mp hi), drop_zero] at hunused
      refine ⟨?_, rfl, hds, le_refl i, ?_⟩
      · rw [ofDigits_zeros hunused, not_not.mp hcarry]
        simp
      · dsimp only
        rwa [Nat.sub_self]

theorem Buffer.push_spec {n digit : Nat} (hradix : 0 < radix) (h : buf.Holds radix n)
    (hroom : base * n + digit < radix ^ buf.digits.length) :
    ∃ buf', buf.push base radix digit = some buf' ∧ buf'.Holds radix (base * n + digit) ∧
      buf'.digits.length = buf.digits.length := by
  obtain ⟨hvalue, hlen, hlt, -, hzeros⟩ :=
    mulAddLoop_spec base digit 0 hradix h.lt h.unused
  rw [push]
  generalize mulAddLoop base radix buf.length buf.digits digit 0 = r at hvalue hlen hlt hzeros ⊢
  obtain ⟨digits, carry, i⟩ := r
  dsimp only at hvalue hlen hlt hzeros ⊢
  rw [h.value] at hvalue
  have hcarry : carry = 0 := by
    rcases eq_zero_or_pos carry with hzero | hpos
    · exact hzero
    · have hle := Nat.le_mul_of_pos_right (radix ^ buf.digits.length) hpos
      omega
  subst hcarry
  exact ⟨_, rfl, ⟨hlt, hzeros, by rw [← hvalue]; simp⟩, hlen⟩

/-- Without leading zeros, the buffer shows the digits of the number. -/
theorem Buffer.Holds.top_eq {n : Nat} (hradix : 1 < radix) (h : buf.Holds radix n) :
    buf.top = (Nat.digits radix n).reverse := by
  have hunused : ∀ d ∈ (buf.digits.drop buf.length).reverse, (d == 0) = true := fun d hd =>
    beq_iff_eq.mpr (h.unused d (mem_reverse.mp hd))
  have hall : buf.digits.reverse.dropWhile (· == 0) = buf.top := by
    conv_lhs => rw [← take_append_drop buf.length buf.digits, reverse_append]
    exact dropWhile_append_of_pos hunused
  rw [← h.value, ← Radix.rdropWhile_zero hradix h.lt, rdropWhile, reverse_reverse, hall]

/-! ## 3. The loops over the input -/

/-- The number that digits of base `base` stand for, the highest first. -/
def number (base : Nat) (ds : List Nat) : Nat := Nat.ofDigits base ds.reverse

theorem number_concat (base : Nat) (ds : List Nat) (d : Nat) :
    number base (ds ++ [d]) = base * number base ds + d := by
  rw [number, reverse_append, reverse_singleton, singleton_append, add_comm]
  rfl

theorem number_lt (hbase : 1 < base) (hds : ∀ d ∈ ds, d < base) :
    number base ds < base ^ ds.length := by
  have hlt := Nat.ofDigits_lt_base_pow_length hbase
    fun d hd => hds d (mem_reverse.mp hd)
  rwa [length_reverse] at hlt

/-- One more digit fits, as long as all of the input does. -/
theorem Buffer.push_number (rest : List Nat) (hbase : 1 < base) (hradix : 0 < radix)
    (h : buf.Holds radix (number base ds)) (hds : ∀ x ∈ ds ++ d :: rest, x < base)
    (hroom : base ^ (ds ++ d :: rest).length ≤ radix ^ buf.digits.length) :
    ∃ buf', buf.push base radix d = some buf' ∧ buf'.Holds radix (number base (ds ++ [d])) ∧
      buf'.digits.length = buf.digits.length := by
  have hsub : ∀ x ∈ ds ++ [d], x < base := by
    intro x hx
    refine hds x ?_
    rcases mem_append.mp hx with hmem | hmem
    · exact mem_append_left _ hmem
    · rw [mem_singleton.mp hmem]
      exact mem_append_right _ mem_cons_self
  have hlen : (ds ++ [d]).length ≤ (ds ++ d :: rest).length := by
    rw [length_append, length_append]
    exact Nat.add_le_add_left (Nat.succ_le_succ (Nat.zero_le _)) _
  have hfits : base * number base ds + d < radix ^ buf.digits.length := by
    rw [← number_concat]
    exact lt_of_lt_of_le (number_lt hbase hsub)
      (le_trans (Nat.pow_le_pow_right (le_of_lt hbase) hlen) hroom)
  rw [number_concat]
  exact push_spec hradix h hfits

theorem encodeLoop_spec (ds : List Nat) {bs : Bytes} (h : buf.Holds 58 (number 256 ds))
    (hds : ∀ d ∈ ds, d < 256) (hroom : 256 ^ (ds.length + bs.length) ≤ 58 ^ buf.digits.length) :
    ∃ buf', encodeLoop bs buf = some buf' ∧
      buf'.Holds 58 (number 256 (ds ++ bs.map toNat)) := by
  induction bs generalizing ds buf with
  | nil =>
    rw [map_nil, append_nil]
    exact ⟨buf, rfl, h⟩
  | cons b bs ih =>
    have hall : ∀ x ∈ ds ++ b.toNat :: bs.map toNat, x < 256 := by
      refine forall_mem_append.mpr ⟨hds, forall_mem_cons.mpr ⟨b.toNat_lt, ?_⟩⟩
      exact forall_mem_map.mpr fun x _ => x.toNat_lt
    have hroom' : 256 ^ (ds ++ b.toNat :: bs.map toNat).length ≤ 58 ^ buf.digits.length := by
      rwa [length_append, length_cons, length_map]
    obtain ⟨buf', hpush, hholds, hlen⟩ :=
      Buffer.push_number _ (by decide) (by decide) h hall hroom'
    have hds' : ∀ d ∈ ds ++ [b.toNat], d < 256 :=
      forall_mem_append.mpr ⟨hds, forall_mem_singleton.mpr b.toNat_lt⟩
    obtain ⟨buf'', hloop, hholds'⟩ := ih _ hholds hds' (by
      rw [hlen, length_append, length_singleton, add_assoc, add_comm 1]
      exact hroom)
    rw [append_assoc] at hholds'
    exact ⟨buf'', by rw [encodeLoop, hpush, Option.bind_some, hloop], hholds'⟩

/-- The digits of a text up to a space, and what follows; `none` if a character is no digit. -/
def digitsOf : Bytes → Option (List Nat × Bytes)
  | [] => some ([], [])
  | c :: psz =>
    if isSpace c then some ([], c :: psz)
    else (pszBase58.idxOf? c).bind fun d => (digitsOf psz).map fun r => (d :: r.1, r.2)

theorem lt_of_idxOf? (h : pszBase58.idxOf? c = some d) : d < 58 := by
  obtain ⟨hlt, -⟩ := findIdx?_eq_some_iff_findIdx_eq.mp h
  exact hlt

theorem decodeLoop_spec (ds : List Nat) (h : buf.Holds 256 (number 58 ds)) (hds : ∀ d ∈ ds, d < 58)
    (hroom : 58 ^ (ds.length + psz.length) ≤ 256 ^ buf.digits.length) :
    (digitsOf psz = none ∧ decodeLoop psz buf = some none) ∨
      ∃ ds' rest buf', digitsOf psz = some (ds', rest) ∧
        decodeLoop psz buf = some (some (buf', rest)) ∧
        buf'.Holds 256 (number 58 (ds ++ ds')) := by
  induction psz generalizing ds buf with
  | nil =>
    refine .inr ⟨[], [], buf, rfl, rfl, ?_⟩
    rwa [append_nil]
  | cons c psz ih =>
    rw [digitsOf, decodeLoop]
    split
    · refine .inr ⟨[], c :: psz, buf, rfl, rfl, ?_⟩
      rwa [append_nil]
    · cases hdigit : pszBase58.idxOf? c with
      | none => exact .inl ⟨rfl, rfl⟩
      | some d =>
        have hd : d < 58 := lt_of_idxOf? hdigit
        have hds' : ∀ x ∈ ds ++ [d], x < 58 :=
          forall_mem_append.mpr ⟨hds, forall_mem_singleton.mpr hd⟩
        have hlen' : (ds ++ [d]).length ≤ ds.length + (c :: psz).length := by
          rw [length_append, length_singleton, length_cons]
          omega
        have hroom' : 58 ^ (ds ++ [d]).length ≤ 256 ^ buf.digits.length :=
          le_trans (Nat.pow_le_pow_right (by decide) hlen') hroom
        obtain ⟨buf', hpush, hholds, hlen⟩ :=
          Buffer.push_number [] (by decide) (by decide) h hds' hroom'
        have hnext : 58 ^ ((ds ++ [d]).length + psz.length) ≤ 256 ^ buf'.digits.length := by
          rw [hlen, length_append, length_singleton, add_assoc, add_comm 1]
          exact hroom
        dsimp only
        rw [hpush]
        rcases ih _ hholds hds' hnext with ⟨hnone, hloop⟩ | ⟨ds'', rest, buf'', hsome, hloop, hholds'⟩
        · exact .inl ⟨by rw [hnone]; rfl, hloop⟩
        · rw [append_assoc] at hholds'
          exact .inr ⟨d :: ds'', rest, buf'', by rw [hsome]; rfl, hloop, hholds'⟩

/-! ## 4. What the functions compute -/

/-- `EncodeBase58` gives a `1` for each leading zero, and the digits of the rest. -/
theorem encodeBase58_eq (vch : Bytes) :
    encodeBase58 vch = some (replicate (vch.takeWhile (· == 0)).length one ++
      (Nat.digits 58
        (number 256 ((vch.dropWhile (· == 0)).map toNat))).reverse.map charOf) := by
  have hroom : 256 ^ (([] : List Nat).length + (vch.dropWhile (· == 0)).length) ≤
      58 ^ (Buffer.empty ((vch.dropWhile (· == 0)).length * 138 / 100 + 1)).digits.length := by
    rw [length_nil, Buffer.empty, length_replicate]
    exact Radix.pow_le_pow_of_ratio (p := 138) (q := 100) (by decide) (by decide) (by norm_num)
      (by omega)
  obtain ⟨buf, hloop, hholds⟩ := encodeLoop_spec [] (Buffer.holds_empty (by decide) _)
    (fun d hd => absurd hd not_mem_nil) hroom
  rw [encodeBase58, hloop, Option.map_some, hholds.top_eq (by decide), nil_append]

/-- The bytes that a text of digits stands for, with `zeroes` zeros in front. -/
def bytesOf (zeroes : Nat) (ds : List Nat) : Bytes :=
  List.replicate zeroes 0 ++ (Nat.digits 256 (number 58 ds)).reverse.map UInt8.ofNat

/-- `DecodeBase58` gives a zero for each leading `1`, and the digits of the rest. -/
theorem decodeBase58_eq (psz : Bytes) :
    decodeBase58 psz = some ((digitsOf ((psz.dropWhile isSpace).dropWhile (· == one))).bind fun r =>
      if (r.2.dropWhile isSpace).isEmpty then
        some (bytesOf ((psz.dropWhile isSpace).takeWhile (· == one)).length r.1)
      else none) := by
  rw [decodeBase58]
  generalize (psz.dropWhile isSpace).dropWhile (· == one) = text
  have hroom : 58 ^ (([] : List Nat).length + text.length) ≤
      256 ^ (Buffer.empty (text.length * 733 / 1000 + 1)).digits.length := by
    rw [length_nil, Buffer.empty, length_replicate]
    -- 52 / 71 lies between the ratio of the logarithms and 733 / 1000
    exact Radix.pow_le_pow_of_ratio (p := 52) (q := 71) (by decide) (by decide) (by norm_num)
      (by omega)
  rcases decodeLoop_spec [] (Buffer.holds_empty (by decide) _)
    (fun d hd => absurd hd not_mem_nil) hroom with
    ⟨hnone, hloop⟩ | ⟨ds, rest, buf, hsome, hloop, hholds⟩
  · rw [hloop, hnone]
    rfl
  · rw [hloop, hsome, Option.map_some, Option.bind_some, Option.bind_some]
    dsimp only
    rw [hholds.top_eq (by decide), nil_append, bytesOf]

/-! ## 5. The round trip -/

/-- The alphabet has no character twice, and neither a space nor a NUL. -/
theorem charOf_fin (d : Fin 58) :
    pszBase58.idxOf? (charOf d) = some d.val ∧ isSpace (charOf d) = false ∧ charOf d ≠ 0 := by
  revert d
  decide +kernel

theorem idxOf?_charOf (h : d < 58) : pszBase58.idxOf? (charOf d) = some d :=
  (charOf_fin ⟨d, h⟩).1

theorem charOf_of_idxOf? (h : pszBase58.idxOf? c = some d) : charOf d = c := by
  obtain ⟨hlt, hget, -⟩ := findIdx?_eq_some_iff_getElem.mp h
  rw [charOf, getD_eq_getElem?_getD, getElem?_eq_getElem hlt]
  exact beq_iff_eq.mp hget

theorem isSpace_charOf (h : d < 58) : isSpace (charOf d) = false :=
  (charOf_fin ⟨d, h⟩).2.1

theorem charOf_ne_zero (h : d < 58) : charOf d ≠ 0 := (charOf_fin ⟨d, h⟩).2.2

theorem charOf_zero : charOf 0 = one := by decide +kernel

theorem charOf_eq_one_iff (h : d < 58) : charOf d = one ↔ d = 0 := by
  constructor
  · intro hone
    have hidx := idxOf?_charOf h
    rw [hone, ← charOf_zero] at hidx
    exact (Option.some.inj hidx).symm
  · rintro rfl
    exact charOf_zero

theorem digitsOf_map_charOf (hds : ∀ d ∈ ds, d < 58) :
    digitsOf (ds.map charOf) = some (ds, []) := by
  induction ds with
  | nil => rfl
  | cons d ds ih =>
    obtain ⟨hd, hds⟩ := forall_mem_cons.mp hds
    rw [map_cons, digitsOf, isSpace_charOf hd, if_neg Bool.false_ne_true, idxOf?_charOf hd,
      Option.bind_some, ih hds, Option.map_some]

section Runs

variable {x : UInt8} {l : Bytes}

theorem replicate_append_dropWhile (x : UInt8) (l : Bytes) :
    replicate (l.takeWhile (· == x)).length x ++ l.dropWhile (· == x) = l := by
  have hrun : replicate (l.takeWhile (· == x)).length x = l.takeWhile (· == x) := by
    refine (eq_replicate_iff.mpr ⟨rfl, fun b hb => ?_⟩).symm
    have hx : (b == x) = true := mem_takeWhile_imp (p := (· == x)) hb
    exact beq_iff_eq.mp hx
  rw [hrun, takeWhile_append_dropWhile]

theorem head?_dropWhile_ne (x : UInt8) (l : Bytes) : (l.dropWhile (· == x)).head? ≠ some x := by
  intro h
  have hnot := head?_dropWhile_not (· == x) l
  rw [h] at hnot
  simp at hnot

/-- A run of one character ends where another stands. -/
theorem run_append (n : Nat) (h : l.head? ≠ some x) :
    (replicate n x ++ l).takeWhile (· == x) = replicate n x ∧
      (replicate n x ++ l).dropWhile (· == x) = l := by
  have hrun : ∀ c ∈ replicate n x, (c == x) = true := fun c hc =>
    beq_iff_eq.mpr (eq_of_mem_replicate hc)
  have hsplit : l.takeWhile (· == x) = [] ∧ l.dropWhile (· == x) = l := by
    cases l with
    | nil => exact ⟨rfl, rfl⟩
    | cons c l =>
      have hc : c ≠ x := fun heq => h (congrArg some heq)
      simp [hc]
  rw [takeWhile_append_of_pos hrun, hsplit.1, append_nil, dropWhile_append_of_pos hrun, hsplit.2]
  exact ⟨rfl, rfl⟩

end Runs

theorem head?_map_charOf (hds : ∀ d ∈ ds, d < 58) :
    (ds.map charOf).head? ≠ some one ↔ ds.head? ≠ some 0 := by
  cases ds with
  | nil => simp
  | cons d ds => simp [charOf_eq_one_iff (hds d mem_cons_self)]

/-- A text of ones and of digits that do not start with zero. -/
theorem decodeBase58_text {zeroes : Nat} (hds : ∀ d ∈ ds, d < 58) (hhead : ds.head? ≠ some 0) :
    decodeBase58 (replicate zeroes one ++ ds.map charOf) = some (some (bytesOf zeroes ds)) := by
  have hspace : (replicate zeroes one ++ ds.map charOf).dropWhile isSpace =
      replicate zeroes one ++ ds.map charOf := by
    refine dropWhile_eq_self_iff.mpr fun hlen => ?_
    have hmem := getElem_mem hlen
    rcases mem_append.mp hmem with h | h
    · rw [eq_of_mem_replicate h]
      decide
    · obtain ⟨d, hd, heq⟩ := mem_map.mp h
      rw [← heq, isSpace_charOf (hds d hd)]
      exact Bool.false_ne_true
  obtain ⟨hones, hrest⟩ := run_append zeroes ((head?_map_charOf hds).mpr hhead)
  rw [decodeBase58_eq, hspace, hones, hrest, digitsOf_map_charOf hds, length_replicate]
  rfl

theorem head?_reverse_digits (base n : Nat) :
    (Nat.digits base n).reverse.head? ≠ some 0 := by
  rw [head?_reverse]
  intro h
  rcases eq_zero_or_pos n with rfl | hn
  · rw [Nat.digits_zero] at h
    cases h
  · have hne := pos_iff_ne_zero.mp hn
    rw [getLast?_eq_some_getLast (Nat.digits_ne_nil_iff_ne_zero.mpr hne)] at h
    exact Nat.getLast_digit_ne_zero base hne (Option.some.inj h)

theorem number_digits (base n : Nat) : number base (Nat.digits base n).reverse = n := by
  rw [number, reverse_reverse, Nat.ofDigits_digits]

/-- Digits that do not start with zero are those of their number. -/
theorem digits_number (hbase : 1 < base) (hds : ∀ d ∈ ds, d < base) (hhead : ds.head? ≠ some 0) :
    (Nat.digits base (number base ds)).reverse = ds := by
  have hlast : ∀ hne : ds.reverse ≠ [], ds.reverse.getLast hne ≠ 0 := by
    intro hne hzero
    cases ds with
    | nil => exact hne rfl
    | cons d ds =>
      rw [getLast_reverse] at hzero
      exact hhead (congrArg some hzero)
  rw [number, Nat.digits_ofDigits base hbase _ (fun d hd => hds d (mem_reverse.mp hd)) hlast,
    reverse_reverse]

theorem head?_map_toNat (vch : Bytes) :
    (vch.map toNat).head? ≠ some 0 ↔ vch.head? ≠ some 0 := by
  cases vch with
  | nil => simp
  | cons b vch =>
    have hzero : b.toNat = 0 ↔ b = 0 := UInt8.toNat_inj (b := 0)
    simp [hzero]

theorem decodeBase58_encodeBase58 (vch : Bytes) :
    ∃ str, encodeBase58 vch = some str ∧ decodeBase58 str = some (some vch) := by
  have hlt : ∀ d ∈ (Nat.digits 58
      (number 256 ((vch.dropWhile (· == 0)).map toNat))).reverse, d < 58 := fun d hd =>
    Nat.digits_lt_base (by decide) (mem_reverse.mp hd)
  have hbytes := digits_number (by decide) (forall_mem_map.mpr fun b _ => b.toNat_lt)
    ((head?_map_toNat _).mpr (head?_dropWhile_ne 0 vch))
  have hback : ofNat ∘ toNat = id := funext fun b => UInt8.ofNat_toNat
  refine ⟨_, encodeBase58_eq vch, ?_⟩
  rw [decodeBase58_text hlt (head?_reverse_digits _ _), bytesOf, number_digits, hbytes, map_map,
    hback, map_id, replicate_append_dropWhile]

/-- The bytes that a text of ones and digits stands for are encoded as that text. -/
theorem encodeBase58_bytesOf {zeroes : Nat} (hds : ∀ d ∈ ds, d < 58) (hhead : ds.head? ≠ some 0) :
    encodeBase58 (bytesOf zeroes ds) = some (replicate zeroes one ++ ds.map charOf) := by
  have hback : ((Nat.digits 256 (number 58 ds)).reverse.map ofNat).map toNat =
      (Nat.digits 256 (number 58 ds)).reverse := by
    rw [map_map]
    refine (map_congr_left fun d hd => ?_).trans (map_id _)
    exact Nat.mod_eq_of_lt (Nat.digits_lt_base (by decide) (mem_reverse.mp hd))
  have hbytes : ((Nat.digits 256 (number 58 ds)).reverse.map ofNat).head? ≠ some 0 :=
    (head?_map_toNat _).mp (hback.symm ▸ head?_reverse_digits 256 _)
  obtain ⟨hzeros, hrest⟩ := run_append zeroes hbytes
  rw [encodeBase58_eq, bytesOf, hzeros, hrest, hback, number_digits, digits_number (by decide) hds
    hhead, length_replicate]

/-- The encoding is a C string. -/
theorem encodeBase58_ne_zero {vch str : Bytes} (h : encodeBase58 vch = some str) :
    ∀ c ∈ str, c ≠ 0 := by
  rw [encodeBase58_eq, Option.some.injEq] at h
  subst h
  refine forall_mem_append.mpr ⟨fun c hc => ?_, forall_mem_map.mpr fun d hd => ?_⟩
  · rw [eq_of_mem_replicate hc]
    decide
  · exact charOf_ne_zero (Nat.digits_lt_base (by decide) (mem_reverse.mp hd))

theorem decodeBase58Check_encodeBase58Check (cr : Crypto) (vch : Bytes) :
    ∃ str, encodeBase58Check cr vch = some str ∧
      decodeBase58Check cr str = some (some vch) := by
  obtain ⟨str, hencode, hdecode⟩ := decodeBase58_encodeBase58 (vch ++ checksum cr vch)
  have hfour : (checksum cr vch).length = 4 := by
    rfl
  have hcut : (vch ++ checksum cr vch).length - 4 = vch.length := by
    rw [length_append, hfour, Nat.add_sub_cancel]
  have hlong : ¬ (vch ++ checksum cr vch).length < 4 := by
    rw [length_append]
    exact Nat.not_lt.mpr (Nat.le_add_left 4 _)
  have hcstr : str.takeWhile (· != 0) = str :=
    takeWhile_eq_self_iff.mpr fun c hc =>
      bne_iff_ne.mpr (encodeBase58_ne_zero hencode c hc)
  refine ⟨str, hencode, ?_⟩
  rw [decodeBase58Check, hcstr, hdecode, Option.map_some, Option.bind_some, if_neg hlong, hcut,
    take_left, drop_left, if_neg (not_not_intro rfl)]

/-! ## 6. The length of what is decoded -/

theorem digitsOf_of_no_space {rest : Bytes} (hspace : ∀ x ∈ psz, isSpace x = false)
    (h : digitsOf psz = some (ds, rest)) : psz = ds.map charOf ∧ rest = [] := by
  induction psz generalizing ds with
  | nil =>
    cases h
    exact ⟨rfl, rfl⟩
  | cons c psz ih =>
    obtain ⟨hc, hspace⟩ := forall_mem_cons.mp hspace
    rw [digitsOf, hc, if_neg Bool.false_ne_true, Option.bind_eq_some_iff] at h
    obtain ⟨d, hd, h⟩ := h
    obtain ⟨⟨ds', rest'⟩, hds', h⟩ := Option.map_eq_some_iff.mp h
    cases h
    obtain ⟨hpsz, hrest⟩ := ih hspace hds'
    exact ⟨by rw [map_cons, charOf_of_idxOf? hd, ← hpsz], hrest⟩

theorem pow_le_number (hd : d ≠ 0) (ds : List Nat) : base ^ ds.length ≤ number base (d :: ds) := by
  rw [number, reverse_cons, Nat.ofDigits_append, length_reverse]
  exact Nat.le_trans (Nat.le_mul_of_pos_right _ (Nat.pos_of_ne_zero hd)) (Nat.le_add_left _ _)

/-- A text that neither starts with a one nor has spaces decodes to about its length. -/
theorem pow_lt_of_decodeBase58 {data : Bytes} (hc : c ≠ one)
    (hspace : ∀ x ∈ c :: psz, isSpace x = false) (h : decodeBase58 (c :: psz) = some (some data)) :
    58 ^ psz.length < 256 ^ data.length := by
  have hc' : ¬ isSpace c = true := by
    rw [hspace c mem_cons_self]
    exact Bool.false_ne_true
  have hdrop : (c :: psz).dropWhile (· == one) = c :: psz := by simp [hc]
  have htake : (c :: psz).takeWhile (· == one) = [] := by simp [hc]
  rw [decodeBase58_eq, dropWhile_cons_of_neg hc', hdrop, htake, Option.some.injEq,
    Option.bind_eq_some_iff] at h
  obtain ⟨⟨ds, rest⟩, hdigits, h⟩ := h
  obtain ⟨htext, rfl⟩ := digitsOf_of_no_space hspace hdigits
  obtain rfl : bytesOf 0 ds = data := Option.some.inj h
  cases ds with
  | nil => cases htext
  | cons d ds =>
    obtain ⟨rfl, rfl⟩ := cons.inj htext
    have hd : d ≠ 0 := fun hzero => hc (by rw [hzero, charOf_zero])
    have hlt := Nat.lt_base_pow_length_digits (b := 256) (m := number 58 (d :: ds)) (by decide)
    rw [bytesOf, replicate_zero, nil_append, length_map, length_map, length_reverse]
    exact lt_of_le_of_lt (pow_le_number hd ds) hlt

/-! ## 7. Both directions -/

theorem exists_map_charOf (h : ∀ x ∈ psz, x ∈ pszBase58) :
    ∃ ds : List Nat, psz = ds.map charOf ∧ ∀ d ∈ ds, d < 58 := by
  induction psz with
  | nil => exact ⟨[], rfl, fun d hd => absurd hd not_mem_nil⟩
  | cons c psz ih =>
    obtain ⟨hc, hpsz⟩ := forall_mem_cons.mp h
    obtain ⟨ds, rfl, hds⟩ := ih hpsz
    obtain ⟨d, hd⟩ := Option.ne_none_iff_exists'.mp (mt idxOf?_eq_none_iff.mp (not_not_intro hc))
    exact ⟨d :: ds, by rw [map_cons, charOf_of_idxOf? hd],
      forall_mem_cons.mpr ⟨lt_of_idxOf? hd, hds⟩⟩

theorem encodeBase58_decodeBase58 (h : ∀ x ∈ psz, x ∈ pszBase58) :
    ∃ vch, decodeBase58 psz = some (some vch) ∧ encodeBase58 vch = some psz := by
  have hrest : ∀ x ∈ psz.dropWhile (· == one), x ∈ pszBase58 := fun x hx =>
    h x ((dropWhile_suffix _).subset hx)
  obtain ⟨ds, htext, hds⟩ := exists_map_charOf hrest
  have hhead : ds.head? ≠ some 0 :=
    (head?_map_charOf hds).mp (htext ▸ head?_dropWhile_ne one psz)
  refine ⟨bytesOf (psz.takeWhile (· == one)).length ds, ?_, ?_⟩
  · rw [← decodeBase58_text hds hhead, ← htext, replicate_append_dropWhile]
  · rw [encodeBase58_bytesOf hds hhead, ← htext, replicate_append_dropWhile]

/-- Bytes and texts of base 58 give each other back, and no assertion fails.  Below `2 ^ 30`
characters the sizes of the buffers are those of an `int`. -/
theorem base58_lossless :
    (∀ vch : Bytes, vch ≠ [] → vch.length < 2 ^ 30 →
      (vch.dropWhile (· == 0)).length * 138 / 100 + 1 < 2 ^ 31 ∧
        ∃ str, encodeBase58 vch = some str ∧ decodeBase58 str = some (some vch)) ∧
    (∀ str : Bytes, str ≠ [] → str.length < 2 ^ 30 → (∀ c ∈ str, c ∈ pszBase58) →
      (str.dropWhile (· == one)).length * 733 / 1000 + 1 < 2 ^ 31 ∧
        ∃ vch, decodeBase58 str = some (some vch) ∧ encodeBase58 vch = some str) ∧
    (∀ vch, encodeBase58 vch ≠ none) ∧ ∀ psz, decodeBase58 psz ≠ none := by
  refine ⟨fun vch _ hlen => ⟨?_, decodeBase58_encodeBase58 vch⟩,
    fun str _ hlen hstr => ⟨?_, encodeBase58_decodeBase58 hstr⟩, fun vch => ?_, fun psz => ?_⟩
  · have hle := (dropWhile_suffix (p := (· == 0)) (l := vch)).length_le
    omega
  · have hle := (dropWhile_suffix (p := (· == one)) (l := str)).length_le
    omega
  · rw [encodeBase58_eq]
    exact Option.some_ne_none _
  · rw [decodeBase58_eq]
    exact Option.some_ne_none _

theorem base58_lossless_zero_one :
    ∃ str, encodeBase58 [0, 1] = some str ∧ decodeBase58 str = some (some [0, 1]) :=
  (base58_lossless.1 [0, 1] (by decide) (by decide)).2

end Base58

end RgmNode
