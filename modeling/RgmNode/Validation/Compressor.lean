import RgmNode.Lib.VarInt
import RgmNode.Primitives.Stream
import RgmNode.Validation.Coins

/-!
# Compressed outputs

`CTxOutCompressor` and `CScriptCompressor` (`compressor.h`, `compressor.cpp`), the form in
which outputs stand in the coin database and in undo data.  Amounts lose their trailing
zeros, and the usual scripts their fixed bytes.  What an uncompressed public key is on the
curve is left to a parameter.
-/

namespace RgmNode

open List Nat Opcode

/-! ## 1. Amounts -/

/-- The zeros at the end of a number are taken off, `rounds` of them at most: what is left,
and how many they were. -/
def stripZeros : Nat → Nat → Nat × Nat
  | 0, n => (n, 0)
  | rounds + 1, n =>
    if n % 10 = 0 then ((stripZeros rounds (n / 10)).1, (stripZeros rounds (n / 10)).2 + 1)
    else (n, 0)

/-- `CompressAmount`, on `uint64_t` -/
def compressAmount (n : Nat) : Nat :=
  if n = 0 then 0
  else
    let (n, e) := stripZeros 9 n
    if e < 9 then
      let d := n % 10
      let n := n / 10
      (1 + (n * 9 + d - 1) * 10 + e) % 2 ^ 64
    else (1 + (n - 1) * 10 + 9) % 2 ^ 64

def decompressAmount (x : Nat) : Nat :=
  if x = 0 then 0
  else
    let x := x - 1
    let e := x % 10
    let x := x / 10
    let n := if e < 9 then x / 9 * 10 + (x % 9 + 1) else x + 1
    n * 10 ^ e % 2 ^ 64

theorem stripZeros_spec (rounds n : Nat) :
    n = (stripZeros rounds n).1 * 10 ^ (stripZeros rounds n).2 ∧
      (stripZeros rounds n).2 ≤ rounds ∧
      ((stripZeros rounds n).2 < rounds → (stripZeros rounds n).1 % 10 ≠ 0) := by
  induction rounds generalizing n with
  | zero => simp [stripZeros]
  | succ rounds ih =>
    obtain ⟨hmul, hle, hlast⟩ := ih (n / 10)
    rw [stripZeros]
    split
    · next hzero =>
      refine ⟨?_, succ_le_succ hle, fun hlt => hlast (lt_of_succ_lt_succ hlt)⟩
      calc n = n / 10 * 10 := by omega
        _ = _ := by rw [pow_succ, ← mul_assoc, ← hmul]
    · next hzero => exact ⟨by simp, zero_le _, fun _ => hzero⟩

theorem decompressAmount_short {m e : Nat} (he : e < 9) (hm : m % 10 ≠ 0) :
    decompressAmount (1 + (m / 10 * 9 + m % 10 - 1) * 10 + e) = m * 10 ^ e % 2 ^ 64 := by
  have hpred : 1 + (m / 10 * 9 + m % 10 - 1) * 10 + e - 1 =
      (m / 10 * 9 + m % 10 - 1) * 10 + e := by omega
  have hlow : ((m / 10 * 9 + m % 10 - 1) * 10 + e) % 10 = e := by omega
  have hhigh : ((m / 10 * 9 + m % 10 - 1) * 10 + e) / 10 = m / 10 * 9 + m % 10 - 1 := by omega
  have hback : (m / 10 * 9 + m % 10 - 1) / 9 * 10 + ((m / 10 * 9 + m % 10 - 1) % 9 + 1) = m := by
    omega
  rw [decompressAmount, if_neg (by omega)]
  simp only [hpred, hlow, hhigh, if_pos he, hback]

theorem decompressAmount_long {m : Nat} (hm : m ≠ 0) :
    decompressAmount (1 + (m - 1) * 10 + 9) = m * 10 ^ 9 % 2 ^ 64 := by
  have hpred : 1 + (m - 1) * 10 + 9 - 1 = (m - 1) * 10 + 9 := by omega
  have hlow : ((m - 1) * 10 + 9) % 10 = 9 := by omega
  have hhigh : ((m - 1) * 10 + 9) / 10 = m - 1 := by omega
  have hback : m - 1 + 1 = m := by omega
  rw [decompressAmount, if_neg (by omega)]
  simp only [hpred, hlow, hhigh, if_neg (lt_irrefl 9), hback]

/-- `CompressAmount` without the bound of its word -/
def amountCode (n : Nat) : Nat :=
  if n = 0 then 0
  else
    let (n, e) := stripZeros 9 n
    if e < 9 then 1 + (n / 10 * 9 + n % 10 - 1) * 10 + e else 1 + (n - 1) * 10 + 9

theorem compressAmount_eq_mod (n : Nat) : compressAmount n = amountCode n % 2 ^ 64 := by
  unfold compressAmount amountCode
  split
  · rfl
  · dsimp only
    split <;> rfl

theorem compressAmount_lt (n : Nat) : compressAmount n < 2 ^ 64 :=
  compressAmount_eq_mod n ▸ mod_lt _ (by decide)

theorem amountCode_lt {n : Nat} (h : n ≤ 10 ^ 18) : amountCode n < 2 ^ 64 := by
  have hmul := (stripZeros_spec 9 n).1
  have hle : (stripZeros 9 n).1 ≤ n :=
    (Nat.le_mul_of_pos_right _ (Nat.pow_pos (by decide))).trans_eq hmul.symm
  unfold amountCode
  dsimp only
  split
  · decide
  · split <;> omega

theorem decompressAmount_amountCode {n : Nat} (h : n ≤ 10 ^ 18) :
    decompressAmount (amountCode n) = n := by
  by_cases hn : n = 0
  · subst hn
    rfl
  obtain ⟨hmul, hle, hlast⟩ := stripZeros_spec 9 n
  rw [amountCode, if_neg hn]
  generalize stripZeros 9 n = stripped at hmul hle hlast ⊢
  obtain ⟨m, e⟩ := stripped
  have hm : m ≠ 0 := by
    rintro rfl
    exact hn (hmul.trans (zero_mul _))
  have hfit : m * 10 ^ e % 2 ^ 64 = n := by
    rw [← hmul]
    exact mod_eq_of_lt (by omega)
  dsimp only
  by_cases hshort : e < 9
  · rw [if_pos hshort, decompressAmount_short hshort (hlast hshort), hfit]
  · obtain rfl : e = 9 := by
      omega
    rw [if_neg hshort, decompressAmount_long hm, hfit]

/-- What is written for an amount in the range of money fits its word, and gives it back. -/
theorem decompressAmount_compressAmount {n : Nat} (h : n ≤ 10 ^ 18) :
    decompressAmount (compressAmount n) = n := by
  rw [compressAmount_eq_mod, mod_eq_of_lt (amountCode_lt h), decompressAmount_amountCode h]

theorem toNat_le_of_moneyRange {n : CAmount} (h : moneyRange n = true) :
    (n.toNat : Int) = n ∧ n.toNat ≤ 10 ^ 18 := by
  obtain ⟨hlow, hhigh⟩ := moneyRange_iff.mp h
  have hcast : (n.toNat : Int) = n := Int.toNat_of_nonneg hlow
  have hmax : (n.toNat : Int) ≤ 10 ^ 18 := hcast.trans_le hhigh
  exact ⟨hcast, by exact_mod_cast hmax⟩

/-- The codes of the amounts in the range of money fit 64 bits, give the amounts back, and are
different for different amounts. -/
theorem amount_code_lossless (n : CAmount) (hn : moneyRange n = true) :
    amountCode n.toNat < 2 ^ 64 ∧ compressAmount n.toNat = amountCode n.toNat ∧
      (decompressAmount (compressAmount n.toNat) : Int) = n ∧
      ∀ m : CAmount, moneyRange m = true → m ≠ n →
        compressAmount m.toNat ≠ compressAmount n.toNat := by
  have hback : ∀ {m : CAmount}, moneyRange m = true →
      (decompressAmount (compressAmount m.toNat) : Int) = m := fun hm => by
    rw [decompressAmount_compressAmount (toNat_le_of_moneyRange hm).2]
    exact (toNat_le_of_moneyRange hm).1
  have hfit := amountCode_lt (toNat_le_of_moneyRange hn).2
  refine ⟨hfit, ?_, hback hn, fun m hm hne heq => hne ?_⟩
  · rw [compressAmount_eq_mod, Nat.mod_eq_of_lt hfit]
  · rw [← hback hm, heq, hback hn]

/-- All the money there is -/
theorem amount_code_lossless_maxMoney :
    (decompressAmount (compressAmount maxMoney.toNat) : Int) = maxMoney :=
  (amount_code_lossless maxMoney (by decide)).2.2.1

/-! ## 2. Scripts -/

/-- What secp256k1 says about public keys. -/
structure PubKeyOps where
  /-- `CPubKey::IsFullyValid` -/
  isFullyValid : Bytes → Bool
  /-- `CPubKey::Decompress`; `none` where it fails -/
  decompress : Bytes → Option Bytes

def parity (y : Bytes) : UInt8 := y.getLast?.getD 0 &&& 1

/-- A point of the curve is given by its first coordinate and the parity of the second. -/
structure PubKeyOps.Lawful (ops : PubKeyOps) : Prop where
  decompress_eq : ∀ x y : Bytes, x.length = 32 → y.length = 32 →
    ops.isFullyValid (0x04 :: (x ++ y)) = true →
    ops.decompress ((0x02 ||| parity y) :: x) = some (0x04 :: (x ++ y))

/-- The bytes of a script between a fixed beginning and a fixed end. -/
def CScript.between (lead trail : Bytes) (k : Nat) (s : CScript) : Option Bytes :=
  if s.length = lead.length + k + trail.length ∧ s.take lead.length = lead ∧
      s.drop (lead.length + k) = trail then
    some ((s.drop lead.length).take k)
  else none

open CScript

theorem CScript.between_eq_some_iff {lead trail b : Bytes} {k : Nat} {s : CScript} :
    s.between lead trail k = some b ↔ b.length = k ∧ s = lead ++ b ++ trail := by
  unfold between
  constructor
  · intro h
    split at h
    · next hs =>
      obtain ⟨hlen, hlead, htrail⟩ := hs
      cases h
      refine ⟨by simp; omega, ?_⟩
      calc s = s.take lead.length ++ ((s.drop lead.length).take k ++
            (s.drop lead.length).drop k) := by
            rw [take_append_drop, take_append_drop]
        _ = _ := by rw [drop_drop, hlead, htrail, append_assoc]
    · cases h
  · rintro ⟨rfl, rfl⟩
    rw [if_pos ⟨by simp; omega, by simp, by simp [drop_append]⟩]
    simp

namespace ScriptCompressor

def nSpecialScripts : Nat := 6

def isToKeyID (s : CScript) : Option Bytes :=
  s.between [dup, Opcode.hash160, 20] [equalVerify, checkSig] 20

def isToScriptID (s : CScript) : Option Bytes :=
  s.between [Opcode.hash160, 20] [equal] 20

/-- `IsToPubKey`: an uncompressed key has to be valid, since only such a one can be restored -/
def isToPubKey (ops : PubKeyOps) (s : CScript) : Option Bytes :=
  match s.between [33] [checkSig] 33 with
  | some pubkey =>
    if pubkey.head? = some 0x02 ∨ pubkey.head? = some 0x03 then some pubkey else none
  | none =>
    match s.between [65] [checkSig] 65 with
    | some pubkey =>
      if pubkey.head? = some 0x04 ∧ ops.isFullyValid pubkey = true then some pubkey else none
    | none => none

def compress (ops : PubKeyOps) (s : CScript) : Option Bytes :=
  match isToKeyID s with
  | some hash => some (0x00 :: hash)
  | none =>
    match isToScriptID s with
    | some hash => some (0x01 :: hash)
    | none =>
      match isToPubKey ops s with
      | some (chHeader :: coordinates) =>
        if chHeader = 0x02 ∨ chHeader = 0x03 then some (chHeader :: coordinates.take 32)
        else if chHeader = 0x04 then
          some ((0x04 ||| parity coordinates) :: coordinates.take 32)
        else none
      | _ => none

def getSpecialSize (nSize : Nat) : Nat :=
  if nSize = 0 ∨ nSize = 1 then 20
  else if nSize = 2 ∨ nSize = 3 ∨ nSize = 4 ∨ nSize = 5 then 32
  else 0

def decompress (ops : PubKeyOps) (nSize : Nat) (b : Bytes) : Option CScript :=
  match nSize with
  | 0 => some ([dup, Opcode.hash160, 20] ++ b ++ [equalVerify, checkSig])
  | 1 => some ([Opcode.hash160, 20] ++ b ++ [equal])
  | 2 => some ([33] ++ (0x02 :: b) ++ [checkSig])
  | 3 => some ([33] ++ (0x03 :: b) ++ [checkSig])
  | 4 => (ops.decompress (0x02 :: b)).map fun pubkey => [65] ++ pubkey ++ [checkSig]
  | 5 => (ops.decompress (0x03 :: b)).map fun pubkey => [65] ++ pubkey ++ [checkSig]
  | _ => none

end ScriptCompressor

/-- `CScriptCompressor::Serialize` -/
def writeScript (ops : PubKeyOps) (s : CScript) : Bytes :=
  match ScriptCompressor.compress ops s with
  | some compr => compr
  | none => VarInt.write 32 (s.length + ScriptCompressor.nSpecialScripts : Nat) ++ s

/-- `VARINT` of an unsigned number of `w` bits -/
def readVarInt (w : Nat) : Reader Nat := fun s => VarInt.read w s

/-- `CScriptCompressor::Unserialize` into an empty script, which stays empty if the key cannot
be restored; a script that is too long becomes one that fails. -/
def readScript (ops : PubKeyOps) : Reader CScript := do
  let nSize ← readVarInt 32
  if nSize < ScriptCompressor.nSpecialScripts then
    let vch ← readBytes (ScriptCompressor.getSpecialSize nSize)
    return (ScriptCompressor.decompress ops nSize vch).getD []
  else
    let nSize := nSize - ScriptCompressor.nSpecialScripts
    let script ← readBytes nSize
    return if maxScriptSize < nSize then [ret] else script

/-! ## 3. Outputs -/

/-- A 64-bit word as the signed number it is the two's complement of. -/
def toInt64 (x : Nat) : Int := if x < 2 ^ 63 then x else (x : Int) - 2 ^ 64

/-- `CTxOutCompressor`, writing -/
def writeTxOut (ops : PubKeyOps) (o : CTxOut) : Bytes :=
  VarInt.write 64 (compressAmount (o.nValue % 2 ^ 64).toNat : Nat) ++ writeScript ops o.scriptPubKey

/-- `CTxOutCompressor`, reading -/
def readTxOut (ops : PubKeyOps) : Reader CTxOut := do
  let nVal ← readVarInt 64
  let scriptPubKey ← readScript ops
  return ⟨toInt64 (decompressAmount nVal), scriptPubKey⟩

/-! ## 4. Round trips -/

theorem readVarInt_write {w n : Nat} (hw : 0 < w) (h : n < 2 ^ w) (rest : Bytes) :
    readVarInt w (VarInt.write w n ++ rest) = some (n, rest) :=
  VarInt.read_write hw h

/-- Numbers of 64 bits are read back from what is written, which has at most ten bytes; and the
bytes of a number of 64 bits are what is written for it. -/
theorem readVarInt_unique_code :
    (∀ (n : UInt64) (rest : Bytes),
      readVarInt 64 (VarInt.write 64 n.toNat ++ rest) = some (n.toNat, rest) ∧
        (VarInt.write 64 n.toNat).length = VarInt.size n.toNat ∧ VarInt.size n.toNat ≤ 10) ∧
    ∀ (s rest : Bytes) (n : Nat), VarInt.value s = some (n, rest) → n < 2 ^ 64 →
      readVarInt 64 s = some (n, rest) ∧ s = VarInt.write 64 n ++ rest := by
  refine ⟨fun n rest => ⟨readVarInt_write (by decide) n.toNat_lt rest,
    VarInt.length_write (by decide) n.toNat_lt⟩, fun s rest n hvalue hfit => ?_⟩
  have hs := VarInt.eq_write_of_value (by decide) hvalue hfit
  refine ⟨?_, hs⟩
  rw [hs]
  exact readVarInt_write (by decide) hfit rest

/-- The two bytes that 16511 is written with. -/
theorem readVarInt_unique_code_16511 :
    VarInt.value [0xff, 0x7f, 1] = some (16511, [1]) ∧
      readVarInt 64 [0xff, 0x7f, 1] = some (16511, [1]) :=
  ⟨by decide, (readVarInt_unique_code.2 [0xff, 0x7f, 1] [1] 16511 (by decide) (by decide)).1⟩

theorem readVarInt_byte {b : UInt8} (hb : b.toNat < 128) (rest : Bytes) :
    readVarInt 32 (b :: rest) = some (b.toNat, rest) := by
  have hread : VarInt.readLoop 32 0 (UInt8.ofNat b.toNat :: rest) = some (0 * 128 + b.toNat, rest) :=
    VarInt.readLoop_last hb (by omega)
  rwa [UInt8.ofNat_toNat, zero_mul, zero_add] at hread

namespace ScriptCompressor

variable {ops : PubKeyOps}

theorem parity_cases (y : Bytes) : parity y = 0 ∨ parity y = 1 := by
  have hbit : (parity y).toNat = (y.getLast?.getD 0).toNat % 2 := by
    exact and_one_is_mod _
  obtain h | h := mod_two_eq_zero_or_one (y.getLast?.getD 0).toNat
  · exact Or.inl (UInt8.toNat_inj.mp (hbit.trans h))
  · exact Or.inr (UInt8.toNat_inj.mp (hbit.trans h))

/-- Only the second coordinate counts. -/
theorem parity_append {x y : Bytes} (hy : y ≠ []) : parity (x ++ y) = parity y := by
  have hlast : (x ++ y).getLast? = y.getLast? := by
    rw [getLast?_append, getLast?_eq_some_getLast hy, Option.some_or]
  rw [parity, parity, hlast]

/-- The keys that are recognised: one that is compressed, or one that is valid. -/
theorem isToPubKey_cases {s pubkey : Bytes} (h : isToPubKey ops s = some pubkey) :
    (∃ chHeader x, pubkey = chHeader :: x ∧ (chHeader = 0x02 ∨ chHeader = 0x03) ∧
        x.length = 32 ∧ s = [33] ++ (chHeader :: x) ++ [checkSig]) ∨
      ∃ x y, pubkey = 0x04 :: (x ++ y) ∧ x.length = 32 ∧ y.length = 32 ∧
        ops.isFullyValid (0x04 :: (x ++ y)) = true ∧
        s = [65] ++ (0x04 :: (x ++ y)) ++ [checkSig] := by
  unfold isToPubKey at h
  split at h
  · next k hk =>
    obtain ⟨hlen, rfl⟩ := between_eq_some_iff.mp hk
    split at h
    · next hhead =>
      cases h
      cases pubkey with
      | nil => cases hlen
      | cons chHeader x =>
        refine Or.inl ⟨chHeader, x, rfl, ?_, succ.inj hlen, rfl⟩
        simpa using hhead
    · cases h
  split at h
  · next k hk =>
    obtain ⟨hlen, rfl⟩ := between_eq_some_iff.mp hk
    split at h
    · next hkey =>
      cases h
      cases pubkey with
      | nil => cases hlen
      | cons chHeader xy =>
        obtain rfl : chHeader = 0x04 := by simpa using hkey.1
        have hxy : xy.length = 64 := succ.inj hlen
        have hsplit : xy.take 32 ++ xy.drop 32 = xy := take_append_drop 32 xy
        refine Or.inr ⟨xy.take 32, xy.drop 32, ?_, by simp [hxy], by simp [hxy], ?_, ?_⟩
        · rw [hsplit]
        · rw [hsplit]
          exact hkey.2
        · rw [hsplit]
    · cases h
  · cases h

/-- What `compress` writes: a number below `nSpecialScripts`, and as many bytes as it says. -/
theorem decompress_of_compress (hops : ops.Lawful) {s : CScript} {compr : Bytes}
    (h : compress ops s = some compr) :
    ∃ tag b, compr = tag :: b ∧ tag.toNat < nSpecialScripts ∧
      b.length = getSpecialSize tag.toNat ∧ decompress ops tag.toNat b = some s := by
  unfold compress at h
  split at h
  · next hash hid =>
    obtain ⟨hlen, rfl⟩ := between_eq_some_iff.mp hid
    cases h
    exact ⟨_, _, rfl, by decide, hlen, rfl⟩
  split at h
  · next hash hid =>
    obtain ⟨hlen, rfl⟩ := between_eq_some_iff.mp hid
    cases h
    exact ⟨_, _, rfl, by decide, hlen, rfl⟩
  split at h
  · next chHeader coordinates hkey =>
    obtain ⟨chHeader, x, hpub, hhead, hx, rfl⟩ | ⟨x, y, hpub, hx, hy, hvalid, rfl⟩ :=
      isToPubKey_cases hkey
    · cases hpub
      rw [if_pos hhead, take_of_length_le (le_of_eq hx)] at h
      cases h
      obtain rfl | rfl := hhead
      · exact ⟨_, _, rfl, by decide, hx, rfl⟩
      · exact ⟨_, _, rfl, by decide, hx, rfl⟩
    · cases hpub
      have hback := hops.decompress_eq x y hx hy hvalid
      rw [parity_append (by rintro rfl; cases hy), take_left' hx] at h
      cases h
      -- the tag is 4 or 5, by the parity of the second coordinate
      obtain hp | hp := parity_cases y
      · rw [hp] at hback ⊢
        refine ⟨_, _, rfl, by decide, hx, ?_⟩
        exact congrArg (Option.map _) hback
      · rw [hp] at hback ⊢
        refine ⟨_, _, rfl, by decide, hx, ?_⟩
        exact congrArg (Option.map _) hback
  · cases h

end ScriptCompressor

variable {ops : PubKeyOps}

theorem readScript_writeScript (hops : ops.Lawful) {s : CScript} (h : s.length ≤ maxScriptSize)
    (rest : Bytes) : readScript ops (writeScript ops s ++ rest) = some (s, rest) := by
  unfold writeScript
  split
  · next compr hcompr =>
    obtain ⟨tag, b, rfl, htag, hlen, hback⟩ :=
      ScriptCompressor.decompress_of_compress hops hcompr
    have hbyte : tag.toNat < 128 := lt_trans htag (by decide)
    rw [readScript, cons_append, bind_apply_of_eq (readVarInt_byte hbyte _), if_pos htag,
      bind_apply_of_eq (readBytes_append' hlen), hback]
    rfl
  · have hsize : s.length + ScriptCompressor.nSpecialScripts < 2 ^ 32 := by
      have hmax : maxScriptSize + ScriptCompressor.nSpecialScripts < 2 ^ 32 := by decide
      omega
    rw [readScript, append_assoc, bind_apply_of_eq (readVarInt_write (by decide) hsize _),
      if_neg (Nat.not_lt.mpr (Nat.le_add_left _ _)), Nat.add_sub_cancel,
      bind_apply_of_eq (readBytes_append s rest), if_neg (not_lt.mpr h)]
    rfl

/-- An amount in the range of money goes through its 64-bit word. -/
theorem toInt64_decompressAmount {n : Int} (hlow : 0 ≤ n) (hhigh : n ≤ 10 ^ 18) :
    toInt64 (decompressAmount (compressAmount (n % 2 ^ 64).toNat)) = n := by
  have hword : n % 2 ^ 64 = n := Int.emod_eq_of_lt hlow (by omega)
  rw [hword, decompressAmount_compressAmount (by omega), toInt64, if_pos (by omega)]
  exact Int.toNat_of_nonneg hlow

/-- An output with an amount in the range of money and a script that can be run is read
back. -/
theorem readTxOut_writeTxOut (hops : ops.Lawful) {o : CTxOut} (hlow : 0 ≤ o.nValue)
    (hhigh : o.nValue ≤ 10 ^ 18) (hscript : o.scriptPubKey.length ≤ maxScriptSize)
    (rest : Bytes) : readTxOut ops (writeTxOut ops o ++ rest) = some (o, rest) := by
  rw [readTxOut, writeTxOut, append_assoc,
    bind_apply_of_eq (readVarInt_write (by decide) (compressAmount_lt _) _),
    bind_apply_of_eq (readScript_writeScript hops hscript rest),
    toInt64_decompressAmount hlow hhigh]
  rfl

end RgmNode
