import Mathlib.Data.List.AList
import RgmNode.Validation.Coins
import RgmNode.Validation.Compressor

/-!
# The coin database

The serialisation of `CCoins` (`coins.h`) and the lowest view, `CCoinsViewDB` (`txdb.cpp`): a
store of records, of which LevelDB is taken to give back what was written.  A record names the
outputs that are there in a mask, and drops the others.

* `CCoins.Storable` — coins that come back from their record
-/

namespace RgmNode

open List CTxOut UInt8 Nat

namespace CCoins

/-! ## 1. Records -/

/-- `Clear` -/
def cleared : CCoins := ⟨false, [], 0, 0⟩

/-- The outputs that are there, the first in the lowest bit (`chAvail`). -/
def packAvail : List Bool → Nat
  | [] => 0
  | f :: fs => f.toNat + 2 * packAvail fs

def unpackAvail (chAvail : UInt8) : List Bool :=
  (List.range 8).map fun p => chAvail.toNat.testBit p

def maskBytes : Nat → List CTxOut → Bytes
  | 0, _ => []
  | _ + 1, [] => []
  | rounds + 1, o :: outs =>
    UInt8.ofNat (packAvail (((o :: outs).take 8).map fun o => !o.isNull)) ::
      maskBytes rounds ((o :: outs).drop 8)

/-- The mask of the outputs after the second, up to its last byte that is not zero
(`CalcMaskSize`). -/
def mask (c : CCoins) : Bytes :=
  (maskBytes c.vout.length (c.vout.drop 2)).rdropWhile (· == 0)

/-- The output `i` is there. -/
def avail (c : CCoins) (i : Nat) : Bool := (c.vout[i]?).any fun o => !o.isNull

/-- The header code: how many bytes of the mask are not zero, whether it is a coinbase, and
whether the first two outputs are there. -/
def headerCode (c : CCoins) : Nat :=
  8 * (c.mask.countP (· != 0) - if c.avail 0 || c.avail 1 then 0 else 1) + c.fCoinBase.toNat +
    2 * (c.avail 0).toNat + 4 * (c.avail 1).toNat

/-- `Serialize`; coins that are pruned are never written -/
def serialize (ops : PubKeyOps) (c : CCoins) : Bytes :=
  VarInt.write 32 c.nVersion.toInt ++ (VarInt.write 32 c.headerCode ++ (c.mask ++
    ((c.vout.filter fun o => !o.isNull).flatMap (writeTxOut ops) ++ VarInt.write 32 c.nHeight)))

/-- The mask is read until `nMaskCode` of its bytes are not zero. -/
def readMask : Bytes → Nat → Option (List Bool × Bytes)
  | s, 0 => some ([], s)
  | [], _ + 1 => none
  | chAvail :: s, nMaskCode + 1 =>
    (readMask s (if chAvail = 0 then nMaskCode + 1 else nMaskCode)).map fun r =>
      (unpackAvail chAvail ++ r.1, r.2)

/-- An output that is there is read, another is null. -/
def readOutput (ops : PubKeyOps) (f : Bool) : Reader CTxOut :=
  if f then readTxOut ops else pure CTxOut.null

def readOutputs (ops : PubKeyOps) : List Bool → Reader (List CTxOut)
  | [] => return []
  | f :: vAvail => do
    let o ← readOutput ops f
    let outs ← readOutputs ops vAvail
    return o :: outs

def unserialize (ops : PubKeyOps) : Reader CCoins := do
  let nVersion ← readVarInt 32
  let nCode ← readVarInt 32
  let first := nCode.testBit 1
  let second := nCode.testBit 2
  let nMaskCode := nCode / 8 + if first || second then 0 else 1
  let vAvail ← (fun s => readMask s nMaskCode : Reader (List Bool))
  let vout ← readOutputs ops (first :: second :: vAvail)
  let nHeight ← readVarInt 32
  return cleanup ⟨nCode.testBit 0, vout, nHeight, (UInt32.ofNat nVersion).toInt32⟩

/-- What a record of the coins is read as; bytes after the record do not matter. -/
def readBack (ops : PubKeyOps) (record : Bytes) : Option CCoins :=
  (unserialize ops record).map (·.1)

def Storable (ops : PubKeyOps) (c : CCoins) : Prop := readBack ops (c.serialize ops) = some c

instance (ops : PubKeyOps) (c : CCoins) : Decidable (c.Storable ops) :=
  inferInstanceAs (Decidable (_ = _))

end CCoins

/-! ## 2. The database -/

structure CCoinsViewDB where
  records : AList fun _ : Uint256 => Bytes
  /-- what is stored under `DB_BEST_BLOCK`; null before it is written -/
  hashBestChain : Uint256

/-- `GetCoins`: a record that cannot be read counts as none -/
def CCoinsViewDB.getCoins (ops : PubKeyOps) (db : CCoinsViewDB) (txid : Uint256) : Option CCoins :=
  (db.records.lookup txid).bind (CCoins.readBack ops)

/-! ## 3. The round trip -/

namespace CCoins

theorem packAvail_lt (fs : List Bool) : packAvail fs < 2 ^ fs.length := by
  induction fs with
  | nil => decide
  | cons f fs ih =>
    have hbit : f.toNat ≤ 1 := Bool.toNat_le f
    rw [packAvail, length_cons]
    omega

theorem testBit_packAvail (fs : List Bool) (p : Nat) :
    (packAvail fs).testBit p = fs[p]?.getD false := by
  induction fs generalizing p with
  | nil => simp [packAvail]
  | cons f fs ih =>
    cases p with
    | zero => cases f <;> simp [packAvail, testBit_zero]
    | succ p =>
      have hhalf : (f.toNat + 2 * packAvail fs) / 2 = packAvail fs := by
        have hbit : f.toNat ≤ 1 := Bool.toNat_le f
        omega
      rw [packAvail, testBit_succ, hhalf, ih, getElem?_cons_succ]

variable {fs : List Bool} {rounds : Nat} {outs : List CTxOut} {c : CCoins}

/-- A byte of the mask has the bits it was made of, and no others. -/
theorem unpackAvail_packAvail (h : fs.length ≤ 8) :
    unpackAvail (ofNat (packAvail fs)) = fs ++ replicate (8 - fs.length) false := by
  have hsmall : packAvail fs < 2 ^ 8 :=
    lt_of_lt_of_le (packAvail_lt fs) (Nat.pow_le_pow_right (by decide) h)
  have hbyte : (ofNat (packAvail fs)).toNat = packAvail fs := by
    exact mod_eq_of_lt hsmall
  refine ext_getElem (by simp [unpackAvail]; omega) fun p hp hp' => ?_
  have hget : (unpackAvail (ofNat (packAvail fs)))[p] = fs[p]?.getD false := by
    simp only [unpackAvail, getElem_map, getElem_range, hbyte, testBit_packAvail]
  rw [hget, getElem_append]
  split
  · next hlt => simp [hlt]
  · next hge => simp [getElem?_eq_none (not_lt.mp hge)]

/-- The bits of the mask are the outputs that are there, and some that are not. -/
theorem flatMap_maskBytes (h : outs.length ≤ rounds) :
    ∃ k, (maskBytes rounds outs).flatMap unpackAvail =
      (outs.map fun o => !o.isNull) ++ replicate k false := by
  induction rounds generalizing outs with
  | zero =>
    obtain rfl : outs = [] := eq_nil_of_length_eq_zero (le_zero.mp h)
    exact ⟨0, rfl⟩
  | succ rounds ih =>
    cases outs with
    | nil => exact ⟨0, rfl⟩
    | cons o outs =>
      have hrest : ((o :: outs).drop 8).length ≤ rounds := by
        rw [length_drop] at *
        omega
      obtain ⟨k, hk⟩ := ih hrest
      have hlen : (((o :: outs).take 8).map fun o => !o.isNull).length ≤ 8 := by
        rw [length_map]
        exact length_take_le 8 _
      rw [maskBytes, flatMap_cons, unpackAvail_packAvail hlen, hk]
      by_cases hlong : 8 ≤ (o :: outs).length
      · have hfull : 8 - (((o :: outs).take 8).map fun o => !o.isNull).length = 0 := by
          rw [length_map, length_take_of_le hlong]
        refine ⟨k, ?_⟩
        rw [hfull, replicate_zero, append_nil, ← append_assoc, ← map_append, take_append_drop]
      · have hdrop : (o :: outs).drop 8 = [] := drop_eq_nil_of_le (by omega)
        have htake : (o :: outs).take 8 = o :: outs := take_of_length_le (by omega)
        refine ⟨8 - ((o :: outs).map fun o => !o.isNull).length + k, ?_⟩
        rw [hdrop, htake, map_nil, nil_append, append_assoc, replicate_add]

theorem packAvail_pos (h : true ∈ fs) : 0 < packAvail fs := by
  induction fs with
  | nil => cases h
  | cons f fs ih =>
    rw [packAvail]
    cases h with
    | head => exact lt_of_lt_of_le one_pos (le_add_right _ _)
    | tail _ h =>
      have := ih h
      omega

/-- A byte of the mask that stands for an output that is there is not zero. -/
theorem ofNat_packAvail_ne_zero (hlen : fs.length ≤ 8) (h : true ∈ fs) :
    ofNat (packAvail fs) ≠ 0 := by
  intro hzero
  have hsmall : packAvail fs < 2 ^ 8 :=
    lt_of_lt_of_le (packAvail_lt fs) (Nat.pow_le_pow_right (by decide) hlen)
  have htoNat := congrArg toNat hzero
  rw [toNat_ofNat', mod_eq_of_lt hsmall] at htoNat
  exact ne_of_gt (packAvail_pos h) htoNat

theorem maskBytes_ne_nil (hne : outs ≠ []) (h : outs.length ≤ rounds) :
    maskBytes rounds outs ≠ [] := by
  cases rounds with
  | zero => exact absurd (eq_nil_of_length_eq_zero (le_zero.mp h)) hne
  | succ rounds =>
    cases outs with
    | nil => exact absurd rfl hne
    | cons o outs => exact cons_ne_nil _ _

/-- The mask of outputs of which the last is there ends with a byte that is not zero. -/
theorem getLast_maskBytes (h : outs.length ≤ rounds)
    (hlast : ∀ hne : outs ≠ [], (outs.getLast hne).isNull = false)
    (hne : maskBytes rounds outs ≠ []) : (maskBytes rounds outs).getLast hne ≠ 0 := by
  induction rounds generalizing outs with
  | zero => exact absurd rfl hne
  | succ rounds ih =>
    cases outs with
    | nil => exact absurd rfl hne
    | cons o outs =>
      by_cases hmore : (o :: outs).drop 8 = []
      · -- the last byte is the only one
        have htake : (o :: outs).take 8 = o :: outs :=
          take_of_length_le (drop_eq_nil_iff.mp hmore)
        have hrest : maskBytes rounds ((o :: outs).drop 8) = [] := by
          rw [hmore]
          cases rounds <;> rfl
        simp only [maskBytes, hrest, getLast_singleton, htake]
        refine ofNat_packAvail_ne_zero ?_ ?_
        · rw [length_map]
          exact drop_eq_nil_iff.mp hmore
        · refine mem_map.mpr ⟨_, getLast_mem (cons_ne_nil o outs), ?_⟩
          rw [hlast (cons_ne_nil o outs)]
          rfl
      · have hrounds : ((o :: outs).drop 8).length ≤ rounds := by
          rw [length_drop] at *
          omega
        have htail := maskBytes_ne_nil hmore hrounds
        simp only [maskBytes, getLast_cons htail]
        refine ih hrounds (fun hne' => ?_) htail
        rw [getLast_drop]
        exact hlast _

/-- There is a byte for every eight outputs, and one for the rest of them. -/
theorem length_maskBytes_le (rounds : Nat) (outs : List CTxOut) :
    (maskBytes rounds outs).length ≤ (outs.length + 7) / 8 := by
  induction rounds generalizing outs with
  | zero => exact zero_le _
  | succ rounds ih =>
    cases outs with
    | nil => exact zero_le _
    | cons o outs =>
      have hrest := ih ((o :: outs).drop 8)
      rw [length_drop, length_cons] at hrest
      rw [maskBytes, length_cons, length_cons]
      omega

theorem readMask_append {bs : Bytes} (hlast : ∀ hne : bs ≠ [], bs.getLast hne ≠ 0)
    (rest : Bytes) :
    readMask (bs ++ rest) (bs.countP (· != 0)) = some (bs.flatMap unpackAvail, rest) := by
  induction bs with
  | nil =>
    cases rest <;> rfl
  | cons b bs ih =>
    have htail : ∀ hne : bs ≠ [], bs.getLast hne ≠ 0 := by
      intro hne
      have := hlast (cons_ne_nil b bs)
      rwa [getLast_cons hne] at this
    rw [cons_append]
    by_cases hb : b = 0
    · -- a zero is not the last byte, so that there is one to come that is not zero
      subst hb
      have hne : bs ≠ [] := by
        rintro rfl
        exact hlast (cons_ne_nil 0 []) rfl
      have hpos : 0 < bs.countP (· != 0) :=
        countP_pos_iff.mpr ⟨_, getLast_mem hne, by simpa using htail hne⟩
      obtain ⟨n, hn⟩ := exists_eq_succ_of_ne_zero (ne_of_gt hpos)
      rw [countP_cons_of_neg (by simp), hn, readMask, if_pos rfl, ← succ_eq_add_one, ← hn,
        ih htail]
      rfl
    · rw [countP_cons_of_pos (by simpa using hb), readMask, if_neg hb, ih htail]
      rfl

/-- An output that is null, or whose amount and script are in range. -/
def UsualOutput (o : CTxOut) : Prop :=
  o = CTxOut.null ∨
    0 ≤ o.nValue ∧ o.nValue ≤ 10 ^ 18 ∧ o.scriptPubKey.length ≤ maxScriptSize

variable {ops : PubKeyOps}

theorem isNull_of_nonneg {o : CTxOut} (h : 0 ≤ o.nValue) : o.isNull = false := by
  have hne : o.nValue ≠ -1 := by
    intro heq
    rw [heq] at h
    exact absurd h (by decide)
  simpa [isNull] using hne

theorem readOutput_null (s : Bytes) : readOutput ops false s = some (null, s) := rfl

theorem readOutputs_append (hops : ops.Lawful) (husual : ∀ o ∈ outs, UsualOutput o) (k : Nat)
    (rest : Bytes) :
    readOutputs ops ((outs.map fun o => !o.isNull) ++ replicate k false)
        ((outs.filter fun o => !o.isNull).flatMap (writeTxOut ops) ++ rest) =
      some (outs ++ replicate k null, rest) := by
  induction outs with
  | nil =>
    rw [map_nil, filter_nil, flatMap_nil, nil_append, nil_append]
    induction k with
    | zero => rfl
    | succ k ihk =>
      rw [replicate_succ, readOutputs, bind_apply_of_eq (readOutput_null rest),
        bind_apply_of_eq ihk]
      rfl
  | cons o outs ih =>
    have hrest := ih fun o' ho' => husual o' (mem_cons_of_mem o ho')
    rw [map_cons, cons_append, readOutputs]
    rcases husual o mem_cons_self with rfl | ⟨hlow, hhigh, hscript⟩
    · have habsent : ¬ (!null.isNull) = true := by decide
      rw [filter_cons, if_neg habsent, show (!null.isNull) = false from rfl,
        bind_apply_of_eq (readOutput_null _), bind_apply_of_eq hrest]
      rfl
    · have hthere : (!o.isNull) = true := by rw [isNull_of_nonneg hlow]; rfl
      have hread : readOutput ops true (writeTxOut ops o ++ _) = some (o, _) :=
        readTxOut_writeTxOut hops hlow hhigh hscript
          ((outs.filter fun o => !o.isNull).flatMap (writeTxOut ops) ++ rest)
      rw [filter_cons, if_pos hthere, hthere, flatMap_cons, append_assoc,
        bind_apply_of_eq hread, bind_apply_of_eq hrest]
      rfl

theorem testBit_code (m : Nat) (coinBase first second : Bool) :
    (8 * m + coinBase.toNat + 2 * first.toNat + 4 * second.toNat).testBit 0 = coinBase ∧
    (8 * m + coinBase.toNat + 2 * first.toNat + 4 * second.toNat).testBit 1 = first ∧
    (8 * m + coinBase.toNat + 2 * first.toNat + 4 * second.toNat).testBit 2 = second ∧
    (8 * m + coinBase.toNat + 2 * first.toNat + 4 * second.toNat) / 8 = m := by
  cases coinBase <;> cases first <;> cases second <;>
    simp [testBit_succ, testBit_zero] <;> omega

theorem rdropWhile_append_null (outs : List CTxOut) (k : Nat) :
    (outs ++ replicate k null).rdropWhile isNull =
      outs.rdropWhile isNull := by
  induction k with
  | zero => rw [replicate_zero, append_nil]
  | succ k ih =>
    rw [replicate_succ', ← append_assoc, rdropWhile_concat_pos _ _ _ (by decide), ih]

/-- Coins that the rules for blocks let into the view: with an output that is there at the end,
and numbers that fit the types of the source.  Up to the given number of outputs the header code
fits its word. -/
structure Usual (c : CCoins) : Prop where
  cleaned : c.cleanup = c
  unpruned : c.isPruned = false
  version : 0 ≤ c.nVersion.toInt
  height : c.nHeight < 2 ^ 31
  size : c.vout.length ≤ 2 ^ 32 - 6
  outputs : ∀ o ∈ c.vout, UsualOutput o

theorem Usual.last (h : c.Usual) (hne : c.vout ≠ []) : (c.vout.getLast hne).isNull = false := by
  have hself : c.vout.rdropWhile isNull = c.vout := congrArg CCoins.vout h.cleaned
  exact eq_false_of_ne_true (rdropWhile_eq_self_iff.mp hself hne)

/-- The mask of usual coins has no zeros to drop. -/
theorem Usual.mask_eq (h : c.Usual) : c.mask = maskBytes c.vout.length (c.vout.drop 2) := by
  refine rdropWhile_eq_self_iff.mpr fun hne => ?_
  have hlast := getLast_maskBytes (length_drop ▸ sub_le _ _)
    (fun hne' => by rw [getLast_drop]; exact h.last _) hne
  simpa using hlast

/-- What is read for the mask: the outputs that are there, and some that are not. -/
theorem Usual.avail_eq (h : c.Usual) :
    ∃ k, c.avail 0 :: c.avail 1 :: c.mask.flatMap unpackAvail =
      (c.vout.map fun o => !o.isNull) ++ replicate k false := by
  have hrounds : (c.vout.drop 2).length ≤ c.vout.length := length_drop ▸ sub_le _ _
  obtain ⟨k, hk⟩ := flatMap_maskBytes hrounds
  rw [h.mask_eq, hk]
  unfold avail
  match c.vout with
  | [] => exact ⟨k + 1 + 1, rfl⟩
  | [o] => exact ⟨k + 1, rfl⟩
  | o :: o' :: outs => exact ⟨k, rfl⟩

theorem mask_last (c : CCoins) (hne : c.mask ≠ []) : c.mask.getLast hne ≠ 0 := by
  intro hzero
  exact rdropWhile_last_not (· == 0) (maskBytes c.vout.length (c.vout.drop 2)) hne
    (beq_iff_eq.mpr hzero)

/-- Where the first two outputs are not there, the mask says which one is. -/
theorem Usual.count_pos (h : c.Usual) (hnone : (c.avail 0 || c.avail 1) = false) :
    0 < c.mask.countP (· != 0) := by
  obtain ⟨h0, h1⟩ := Bool.or_eq_false_iff.mp hnone
  obtain ⟨o, ho, hthere⟩ : ∃ o ∈ c.vout, o.isNull = false := by
    simpa [isPruned] using h.unpruned
  obtain ⟨i, hi, rfl⟩ := getElem_of_mem ho
  have havail : c.avail i = true := by simp [avail, hi, hthere]
  have hdrop : c.vout.drop 2 ≠ [] := by
    intro hnil
    have hlen := drop_eq_nil_iff.mp hnil
    obtain rfl | rfl : i = 0 ∨ i = 1 := by omega
    · rw [h0] at havail
      cases havail
    · rw [h1] at havail
      cases havail
  have hne : c.mask ≠ [] := by
    rw [h.mask_eq]
    exact maskBytes_ne_nil hdrop (length_drop ▸ sub_le _ _)
  exact countP_pos_iff.mpr ⟨_, getLast_mem hne, by simpa using c.mask_last hne⟩

/-- The number of bytes of the mask that are not zero is read back from the header code. -/
theorem Usual.maskCode_eq (h : c.Usual) :
    (c.mask.countP (· != 0) - if c.avail 0 || c.avail 1 then 0 else 1) +
      (if c.avail 0 || c.avail 1 then 0 else 1) = c.mask.countP (· != 0) := by
  cases hsome : c.avail 0 || c.avail 1 with
  | true => rfl
  | false => exact Nat.sub_add_cancel (h.count_pos hsome)

theorem Usual.headerCode_lt (h : c.Usual) : c.headerCode < 2 ^ 32 := by
  have hcount : c.mask.countP (· != 0) ≤ (c.vout.length - 2 + 7) / 8 := by
    rw [h.mask_eq, ← length_drop]
    exact countP_le_length.trans (length_maskBytes_le _ _)
  have hsize := h.size
  have hcb : c.fCoinBase.toNat ≤ 1 := Bool.toNat_le _
  have h0 : (c.avail 0).toNat ≤ 1 := Bool.toNat_le _
  have h1 : (c.avail 1).toNat ≤ 1 := Bool.toNat_le _
  unfold headerCode
  omega

theorem Usual.version_eq (h : c.Usual) :
    ∃ n : Nat, c.nVersion.toInt = n ∧ n < 2 ^ 32 ∧ (UInt32.ofNat n).toInt32 = c.nVersion := by
  obtain ⟨n, hn⟩ := Int.eq_ofNat_of_zero_le h.version
  have hlt : c.nVersion.toInt < 2 ^ 31 := c.nVersion.toInt_lt
  have hsmall : n < 2 ^ 31 := by omega
  refine ⟨n, hn, by omega, Int32.toInt_inj.mp ?_⟩
  rw [UInt32.toInt32_ofNat', Int32.toInt_ofNat_of_lt hsmall, hn]

/-- The record of usual coins is read back, and what stands behind it is left. -/
theorem unserialize_serialize (hops : ops.Lawful) (h : c.Usual) (rest : Bytes) :
    unserialize ops (c.serialize ops ++ rest) = some (c, rest) := by
  obtain ⟨n, hversion, hn, hback⟩ := h.version_eq
  obtain ⟨k, hk⟩ := h.avail_eq
  obtain ⟨hbit0, hbit1, hbit2, hdiv⟩ := testBit_code
    (c.mask.countP (· != 0) - if c.avail 0 || c.avail 1 then 0 else 1)
    c.fCoinBase (c.avail 0) (c.avail 1)
  have hheight : c.nHeight < 2 ^ 32 := lt_trans h.height (by decide)
  have hmask := readMask_append c.mask_last
    ((c.vout.filter fun o => !o.isNull).flatMap (writeTxOut ops) ++
      (VarInt.write 32 c.nHeight ++ rest))
  have hread : unserialize ops (c.serialize ops ++ rest) =
      some (cleanup ⟨c.fCoinBase, c.vout ++ replicate k null, c.nHeight,
        c.nVersion⟩, rest) := by
    rw [unserialize, serialize, hversion]
    simp only [append_assoc]
    rw [bind_apply_of_eq (readVarInt_write (by decide) hn _),
      bind_apply_of_eq (readVarInt_write (by decide) h.headerCode_lt _)]
    simp only [headerCode, hbit0, hbit1, hbit2, hdiv, h.maskCode_eq]
    rw [bind_apply_of_eq hmask, hk, bind_apply_of_eq (readOutputs_append hops h.outputs k _),
      bind_apply_of_eq (readVarInt_write (by decide) hheight rest), hback]
    rfl
  have hclean : cleanup ⟨c.fCoinBase, c.vout ++ replicate k null, c.nHeight,
      c.nVersion⟩ = c := by
    rw [cleanup, rdropWhile_append_null]
    exact h.cleaned
  rw [hread, hclean]

/-! ## 4. What is read is cleaned up -/

/-- Coins without spent outputs at the end are pruned only if they have no outputs at all. -/
theorem vout_cleanup_of_isPruned (h : c.cleanup.isPruned = true) : c.cleanup.vout = [] := by
  have hall : ∀ o ∈ c.cleanup.vout, o.isNull = true := by simpa [isPruned] using h
  have hself : c.cleanup.vout.rdropWhile isNull = c.cleanup.vout :=
    rdropWhile_idempotent _ _
  rw [← hself]
  exact rdropWhile_eq_nil_iff.mpr hall

end CCoins

theorem CCoinsViewDB.vout_of_isPruned {ops : PubKeyOps} {db : CCoinsViewDB} {txid : Uint256}
    {c : CCoins} (hget : db.getCoins ops txid = some c) (h : c.isPruned = true) : c.vout = [] := by
  obtain ⟨record, -, hread⟩ := Option.bind_eq_some_iff.mp hget
  obtain ⟨⟨c', rest⟩, hun, rfl⟩ := Option.map_eq_some_iff.mp hread
  have hclean : ∃ c₀ : CCoins, c' = c₀.cleanup := by
    obtain ⟨_, _, -, hun⟩ := exists_of_bind_apply hun
    obtain ⟨_, _, -, hun⟩ := exists_of_bind_apply hun
    obtain ⟨_, _, -, hun⟩ := exists_of_bind_apply hun
    obtain ⟨_, _, -, hun⟩ := exists_of_bind_apply hun
    obtain ⟨_, _, -, hun⟩ := exists_of_bind_apply hun
    cases hun
    exact ⟨_, rfl⟩
  obtain ⟨c₀, rfl⟩ := hclean
  exact CCoins.vout_cleanup_of_isPruned h

end RgmNode
