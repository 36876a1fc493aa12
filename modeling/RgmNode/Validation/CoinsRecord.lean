import RgmNode.Validation.CoinsDB

/-!
# The record of coins, loop by loop

`CCoins::Serialize` and `CalcMaskSize` count outputs in `unsigned int`.  Up to `2 ^ 32 - 6` outputs
their loops give what `CCoins.serialize` says; with more of them the index of the outer loop of
`CalcMaskSize` wraps below the number of outputs, and the loop does not end.
-/

namespace RgmNode

open List Nat

namespace CCoins

/-! ## 1. The code -/

/-- `2+b*8+i` -/
def maskIndex (b i : Nat) : Nat := (2 + b * 8 + i) % 2 ^ 32

/-- The inner loop: which of the outputs of the byte `b` are there, from the `i`th on. -/
def availLoop (vout : List CTxOut) (b : Nat) : Nat → Nat → List Bool
  | 0, _ => []
  | left + 1, i =>
    if maskIndex b i < vout.length then
      (vout[maskIndex b i]?.any fun o => !o.isNull) :: availLoop vout b left (i + 1)
    else []

/-- `CalcMaskSize`, for a number of rounds: the bytes of the mask up to the last that is not zero,
and how many are not zero. -/
def calcMaskLoop (vout : List CTxOut) : Nat → Nat → Nat → Nat → Option (Nat × Nat)
  | 0, _, _, _ => none
  | rounds + 1, b, nLastUsedByte, nNonzeroBytes =>
    if maskIndex b 0 < vout.length then
      let next := (b + 1) % 2 ^ 32
      if (availLoop vout b 8 0).any id then
        calcMaskLoop vout rounds next next ((nNonzeroBytes + 1) % 2 ^ 32)
      else calcMaskLoop vout rounds next nLastUsedByte nNonzeroBytes
    else some (nLastUsedByte, nNonzeroBytes)

/-- `chAvail` of a byte of the mask -/
def maskByte (vout : List CTxOut) (b : Nat) : UInt8 := UInt8.ofNat (packAvail (availLoop vout b 8 0))

/-- `Serialize`; `none` if the rounds do not suffice or the assertion fails -/
def serializeRecord (ops : PubKeyOps) (rounds : Nat) (c : CCoins) : Option Bytes :=
  (calcMaskLoop c.vout rounds 0 0 0).bind fun (nMaskSize, nMaskCode) =>
    if c.avail 0 || c.avail 1 || nMaskCode != 0 then
      -- by the assertion nothing is taken from zero
      let nCode : Nat := (8 * (nMaskCode - if c.avail 0 || c.avail 1 then 0 else 1) +
        c.fCoinBase.toNat + 2 * (c.avail 0).toNat + 4 * (c.avail 1).toNat) % 2 ^ 32
      some (VarInt.write 32 c.nVersion.toInt ++ (VarInt.write 32 nCode ++
        ((List.range nMaskSize).map (maskByte c.vout) ++
          ((c.vout.filter fun o => !o.isNull).flatMap (writeTxOut ops) ++
            VarInt.write 32 c.nHeight))))
    else none

/-! ## 2. The loops end -/

variable {vout : List CTxOut} {b : Nat}

/-- The inner loop takes up to eight outputs. -/
theorem availLoop_eq {left i : Nat} (h : 2 + b * 8 + i + left ≤ 2 ^ 32) :
    availLoop vout b left i = ((vout.drop (2 + b * 8 + i)).take left).map fun o => !o.isNull := by
  induction left generalizing i with
  | zero => simp [availLoop]
  | succ left ih =>
    have hindex : maskIndex b i = 2 + b * 8 + i := mod_eq_of_lt (by omega)
    rw [availLoop, hindex, ih (by omega)]
    split
    · next hlt =>
      rw [drop_eq_getElem_cons hlt, take_succ_cons, getElem?_eq_getElem hlt]
      rfl
    · next hge =>
      rw [drop_eq_nil_of_le (not_lt.mp hge)]
      rfl

theorem packAvail_eq_zero {fs : List Bool} (h : fs.any id = false) : packAvail fs = 0 := by
  induction fs with
  | nil => rfl
  | cons f fs ih =>
    obtain ⟨hf, hfs⟩ := Bool.or_eq_false_iff.mp h
    obtain rfl : f = false := hf
    simp [packAvail, ih hfs]

theorem length_availLoop_le (left i : Nat) : (availLoop vout b left i).length ≤ left := by
  induction left generalizing i with
  | zero => exact le_refl 0
  | succ left ih =>
    rw [availLoop]
    split
    · exact succ_le_succ (ih (i + 1))
    · exact zero_le _

/-- A byte is counted exactly if it is not zero. -/
theorem any_availLoop_iff : (availLoop vout b 8 0).any id = true ↔ maskByte vout b ≠ 0 := by
  constructor
  · intro h
    obtain ⟨f, hf, htrue⟩ := any_eq_true.mp h
    obtain rfl : f = true := htrue
    exact ofNat_packAvail_ne_zero (length_availLoop_le 8 0) hf
  · intro h
    by_contra hnone
    refine h ?_
    rw [maskByte, packAvail_eq_zero (eq_false_of_ne_true hnone)]
    rfl

variable {rounds : Nat}

/-- The bytes of the mask from the byte `b` on, as far as there are outputs. -/
theorem maskBytes_step (hsize : vout.length ≤ 2 ^ 32 - 6) (h : 2 + b * 8 < vout.length) :
    maskBytes (rounds + 1) (vout.drop (2 + b * 8)) =
      maskByte vout b :: maskBytes rounds (vout.drop (2 + (b + 1) * 8)) := by
  have hbits : availLoop vout b 8 0 = ((vout.drop (2 + b * 8)).take 8).map fun o => !o.isNull :=
    availLoop_eq (by omega)
  have hrest : (vout.drop (2 + b * 8)).drop 8 = vout.drop (2 + (b + 1) * 8) := by
    rw [drop_drop]
    congr 1
    omega
  rw [maskByte, hbits, ← hrest, drop_eq_getElem_cons h]
  rfl

theorem length_drop_succ (h : (vout.drop (2 + b * 8)).length ≤ rounds + 1) :
    (vout.drop (2 + (b + 1) * 8)).length ≤ rounds := by
  rw [length_drop] at h ⊢
  omega

theorem map_maskByte (hsize : vout.length ≤ 2 ^ 32 - 6)
    (hrounds : (vout.drop (2 + b * 8)).length ≤ rounds) :
    (List.range' b (maskBytes rounds (vout.drop (2 + b * 8))).length).map (maskByte vout) =
      maskBytes rounds (vout.drop (2 + b * 8)) := by
  induction rounds generalizing b with
  | zero => rfl
  | succ rounds ih =>
    by_cases hmore : 2 + b * 8 < vout.length
    · rw [maskBytes_step hsize hmore, length_cons, List.range'_succ, map_cons,
        ih (length_drop_succ hrounds)]
    · rw [drop_eq_nil_of_le (not_lt.mp hmore)]
      rfl

/-- `CalcMaskSize` from the byte `b` on, for outputs of which the last is there: the last byte is
one that is not zero. -/
theorem calcMaskLoop_eq (hsize : vout.length ≤ 2 ^ 32 - 6)
    (hlast : ∀ hne : vout ≠ [], (vout.getLast hne).isNull = false)
    {fuel nLastUsedByte nNonzeroBytes : Nat} (hrounds : (vout.drop (2 + b * 8)).length ≤ rounds)
    (hb : b < 2 ^ 29) (hcount : nNonzeroBytes ≤ b)
    (hfuel : (maskBytes rounds (vout.drop (2 + b * 8))).length < fuel) :
    calcMaskLoop vout fuel b nLastUsedByte nNonzeroBytes =
      some (if maskBytes rounds (vout.drop (2 + b * 8)) = [] then nLastUsedByte
          else b + (maskBytes rounds (vout.drop (2 + b * 8))).length,
        nNonzeroBytes + (maskBytes rounds (vout.drop (2 + b * 8))).countP (· != 0)) := by
  induction fuel generalizing b rounds nLastUsedByte nNonzeroBytes with
  | zero => exact absurd hfuel (not_lt_zero _)
  | succ fuel ih =>
    have hindex : maskIndex b 0 = 2 + b * 8 := mod_eq_of_lt (by omega)
    rw [calcMaskLoop, hindex]
    split
    · next hmore =>
      cases rounds with
      | zero =>
        rw [length_drop] at hrounds
        omega
      | succ rounds =>
        have hnext : (b + 1) % 2 ^ 32 = b + 1 := mod_eq_of_lt (by omega)
        have hrest := length_drop_succ hrounds
        have hstep : maskBytes (rounds + 1) _ = _ := maskBytes_step hsize hmore
        have hend := getLast_maskBytes hrounds
          (fun hne => by rw [getLast_drop]; exact hlast _)
        have hloop : ∀ last count, count ≤ b + 1 → calcMaskLoop vout fuel (b + 1) last count =
            some (if maskBytes rounds (vout.drop (2 + (b + 1) * 8)) = [] then last
              else b + 1 + (maskBytes rounds (vout.drop (2 + (b + 1) * 8))).length,
              count + (maskBytes rounds (vout.drop (2 + (b + 1) * 8))).countP (· != 0)) := by
          intro last count hle
          rw [hstep, length_cons] at hfuel
          exact ih hrest (by omega) hle (by omega)
        rw [hstep] at hend ⊢
        generalize maskBytes rounds (vout.drop (2 + (b + 1) * 8)) = bytes at hend hloop ⊢
        rw [if_neg (cons_ne_nil _ _), length_cons, hnext]
        split
        · next hany =>
          have hbyte : (maskByte vout b != 0) = true := by simpa using any_availLoop_iff.mp hany
          have hadd : (maskByte vout b :: bytes).countP (· != 0) = bytes.countP (· != 0) + 1 :=
            countP_cons_of_pos hbyte
          rw [mod_eq_of_lt (by omega), hloop _ _ (by omega), hadd]
          cases bytes with
          | nil => rw [if_pos rfl, countP_nil, length_nil, add_zero]
          | cons byte bytes =>
            rw [if_neg (cons_ne_nil _ _), add_right_comm b, add_assoc b,
              add_right_comm nNonzeroBytes, add_assoc nNonzeroBytes]
        · next hnone =>
          have hbyte : maskByte vout b = 0 := by
            by_contra hne
            exact hnone (any_availLoop_iff.mpr hne)
          have hadd : (maskByte vout b :: bytes).countP (· != 0) = bytes.countP (· != 0) :=
            countP_cons_of_neg (by simp [hbyte])
          rw [hloop _ _ (by omega), hadd]
          cases bytes with
          | nil => exact absurd hbyte (hend (cons_ne_nil _ _))
          | cons byte bytes =>
            rw [if_neg (cons_ne_nil _ _), add_right_comm b, add_assoc b]
    · next hend =>
      rw [drop_eq_nil_of_le (not_lt.mp hend)]
      cases rounds <;> rfl

/-- The index of the outer loop is two more than a multiple of eight, so that it never reaches
more outputs than that. -/
theorem calcMaskLoop_eq_none (hsize : 2 ^ 32 - 6 < vout.length) (rounds : Nat)
    {nLastUsedByte nNonzeroBytes : Nat} :
    calcMaskLoop vout rounds b nLastUsedByte nNonzeroBytes = none := by
  induction rounds generalizing b nLastUsedByte nNonzeroBytes with
  | zero => rfl
  | succ rounds ih =>
    have hindex : maskIndex b 0 < vout.length := by
      rw [maskIndex]
      omega
    rw [calcMaskLoop, if_pos hindex]
    split
    · exact ih
    · exact ih

/-! ## 3. Records -/

variable {ops : PubKeyOps} {c : CCoins}

theorem Usual.calcMaskLoop_eq (h : c.Usual) (hrounds : 2 ^ 29 ≤ rounds) :
    calcMaskLoop c.vout rounds 0 0 0 = some (c.mask.length, c.mask.countP (· != 0)) := by
  have hdrop : (c.vout.drop (2 + 0 * 8)).length ≤ c.vout.length := length_drop ▸ sub_le _ _
  have hfuel : (maskBytes c.vout.length (c.vout.drop (2 + 0 * 8))).length < rounds := by
    have hle := length_maskBytes_le c.vout.length (c.vout.drop (2 + 0 * 8))
    have hsize := h.size
    rw [length_drop] at hle
    omega
  rw [CCoins.calcMaskLoop_eq h.size (fun hne => h.last hne) hdrop (by decide) (le_refl 0) hfuel,
    h.mask_eq, zero_add, zero_add, zero_mul, add_zero]
  split
  · next hnil => rw [hnil, length_nil]
  · rfl

theorem serializeRecord_eq (h : c.Usual) (hrounds : 2 ^ 29 ≤ rounds) :
    c.serializeRecord ops rounds = some (c.serialize ops) := by
  have hassert : (c.avail 0 || c.avail 1 || c.mask.countP (· != 0) != 0) = true := by
    cases hsome : c.avail 0 || c.avail 1 with
    | true => rfl
    | false => simpa using ne_of_gt (h.count_pos hsome)
  have hcode := mod_eq_of_lt h.headerCode_lt
  have hmask : (List.range c.mask.length).map (maskByte c.vout) = c.mask := by
    rw [h.mask_eq, range_eq_range']
    exact map_maskByte h.size (length_drop ▸ sub_le _ _)
  rw [headerCode] at hcode
  rw [serializeRecord, h.calcMaskLoop_eq hrounds, Option.bind_some]
  simp only [hassert, if_true, hcode, hmask]
  rfl

/-- What is asked of coins to be stored: an output that is there and none that is spent at the
end, amounts in the range of money and scripts that can be run. -/
structure WellFormed (c : CCoins) : Prop where
  unspent : c.isPruned = false
  cleaned : c.cleanup = c
  version : 0 ≤ c.nVersion.toInt
  /-- the height is an `int` -/
  height : c.nHeight < 2 ^ 31
  outputs : ∀ o ∈ c.vout, o = CTxOut.null ∨
    moneyRange o.nValue = true ∧ o.scriptPubKey.length ≤ maxScriptSize

theorem WellFormed.usual (h : c.WellFormed) (hsize : c.vout.length ≤ 2 ^ 32 - 6) : c.Usual := by
  refine ⟨h.cleaned, h.unspent, h.version, h.height, hsize, fun o ho => ?_⟩
  refine (h.outputs o ho).imp_right fun hrange => ?_
  have hmoney : 0 ≤ o.nValue ∧ o.nValue ≤ maxMoney := by simpa [moneyRange] using hrange.1
  exact ⟨hmoney.1, hmoney.2, hrange.2⟩

/-- Coins with up to `2 ^ 32 - 6` outputs are written, and their record is read back to its last
byte; with more outputs the writer does not return. -/
theorem coins_round_trip (hops : ops.Lawful) (h : c.WellFormed) :
    (c.vout.length ≤ 2 ^ 32 - 6 → ∀ rounds, 2 ^ 29 ≤ rounds →
      ∃ record, c.serializeRecord ops rounds = some record ∧
        ∀ rest, unserialize ops (record ++ rest) = some (c, rest)) ∧
    (2 ^ 32 - 6 < c.vout.length → ∀ rounds, c.serializeRecord ops rounds = none) := by
  constructor
  · intro hsize rounds hrounds
    have husual := h.usual hsize
    exact ⟨c.serialize ops, serializeRecord_eq husual hrounds,
      fun rest => unserialize_serialize hops husual rest⟩
  · intro hsize rounds
    rw [serializeRecord, calcMaskLoop_eq_none hsize rounds]
    rfl

def emptyScriptOutput (v : CAmount) : CTxOut := ⟨v, []⟩

theorem coins_round_trip_gap :
    let ops : PubKeyOps := ⟨fun _ => false, fun _ => none⟩
    let c : CCoins := ⟨true, [CTxOut.null, emptyScriptOutput 5, CTxOut.null, emptyScriptOutput 7],
      12, 1⟩
    ∃ record, c.serializeRecord ops (2 ^ 29) = some record ∧
      unserialize ops (record ++ [9]) = some (c, [9]) := by
  intro ops c
  have hops : ops.Lawful := ⟨nofun⟩
  have hformed : c.WellFormed := ⟨by decide, by decide, by decide, by decide, by decide⟩
  obtain ⟨record, hwrite, hread⟩ :=
    (coins_round_trip hops hformed).1 (by decide) (2 ^ 29) (le_refl _)
  exact ⟨record, hwrite, hread [9]⟩

end CCoins

end RgmNode
