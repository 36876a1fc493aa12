import RgmNode.Primitives.Transaction

/-!
# Scripts

Reading and building of `CScript` values (`script/script.h`, `script/script.cpp`): numbers on
the stack, pushes, `GetOp`, `FindAndDelete`, and the shapes the consensus rules recognise.
-/

namespace RgmNode

open List UInt8 LittleEndian

def maxScriptElementSize : Nat := 520
def maxOpsPerScript : Nat := 201
def maxPubkeysPerMultisig : Nat := 20
def maxScriptSize : Nat := 10000
def locktimeThreshold : Nat := 500000000

/-! ## 1. Opcodes that scripts are built from -/

namespace Opcode

def op0 : UInt8 := 0x00
def pushData1 : UInt8 := 0x4c
def pushData2 : UInt8 := 0x4d
def pushData4 : UInt8 := 0x4e
def op1 : UInt8 := 0x51
def op16 : UInt8 := 0x60
def ret : UInt8 := 0x6a
def dup : UInt8 := 0x76
def equal : UInt8 := 0x87
def equalVerify : UInt8 := 0x88
def hash160 : UInt8 := 0xa9
def codeSeparator : UInt8 := 0xab
def checkSig : UInt8 := 0xac
def checkSigVerify : UInt8 := 0xad
def checkMultiSig : UInt8 := 0xae
def checkMultiSigVerify : UInt8 := 0xaf

/-- `DecodeOP_N`, for `OP_0` and `OP_1` to `OP_16` -/
def decodeOpN (opcode : UInt8) : Nat := if opcode = op0 then 0 else opcode.toNat - 0x50

/-- `EncodeOP_N`, for 0 to 16 -/
def encodeOpN (n : Nat) : UInt8 := if n = 0 then op0 else UInt8.ofNat (0x50 + n)

end Opcode

/-! ## 2. Numbers on the stack -/

namespace CScriptNum

/-- The most significant byte is needed, or holds the sign that the byte below it cannot. -/
def isMinimal (vch : Bytes) : Bool :=
  match vch.reverse with
  | [] => true
  | last :: below =>
    if last &&& 0x7f ≠ 0 then true
    else
      match below with
      | [] => false
      | next :: _ => next &&& 0x80 ≠ 0

/-- `set_vch` -/
def setVch (vch : Bytes) : Int :=
  let result : Int := LittleEndian.decode vch
  if vch.getLastD 0 &&& 0x80 ≠ 0 then
    -(result - 0x80 * 2 ^ (8 * (vch.length - 1)))
  else result

/-- The constructor from a stack element; `none` where it throws. -/
def ofVch (vch : Bytes) (fRequireMinimal : Bool) (nMaxNumSize : Nat := 4) : Option Int :=
  if nMaxNumSize < vch.length then none
  else if fRequireMinimal && !isMinimal vch then none
  else some (setVch vch)

/-- The bytes of an absolute value, least significant first; eight hold every `int64_t`. -/
def absBytes : Nat → Nat → Bytes
  | 0, _ => []
  | _ + 1, 0 => []
  | width + 1, absvalue => UInt8.ofNat absvalue :: absBytes width (absvalue / 256)

def serialize (value : Int) : Bytes :=
  let result := absBytes 8 value.natAbs
  let last := result.getLastD 0
  if last &&& 0x80 ≠ 0 then result ++ [if value < 0 then 0x80 else 0]
  else if value < 0 then result.dropLast ++ [last ||| 0x80]
  else result

end CScriptNum

/-- `CastToBool`: false for zeros, also for a negative zero. -/
def castToBool : Bytes → Bool
  | [] => false
  | [b] => b ≠ 0 && b ≠ 0x80
  | b :: rest => b ≠ 0 || castToBool rest

/-! ## 3. Instructions -/

namespace CScript

/-- `operator<<(vector)` -/
def pushData (b : Bytes) : CScript :=
  if b.length < 0x4c then UInt8.ofNat b.length :: b
  else if b.length ≤ 0xff then Opcode.pushData1 :: UInt8.ofNat b.length :: b
  else if b.length ≤ 0xffff then Opcode.pushData2 :: LittleEndian.encode 2 b.length ++ b
  else Opcode.pushData4 :: LittleEndian.encode 4 b.length ++ b

/-- The bytes of the length operand of `OP_PUSHDATA1`, `OP_PUSHDATA2` and `OP_PUSHDATA4`. -/
def operandWidth (opcode : UInt8) : Nat :=
  if opcode = Opcode.pushData1 then 1 else if opcode = Opcode.pushData2 then 2 else 4

/-- The length of a push and the script behind it; on failure where the reader stands. -/
def pushSize (opcode : UInt8) (pc : CScript) : Except CScript (Nat × CScript) :=
  if opcode < Opcode.pushData1 then .ok (opcode.toNat, pc)
  else if pc.length < operandWidth opcode then .error pc
  else .ok (LittleEndian.decode (pc.take (operandWidth opcode)), pc.drop (operandWidth opcode))

/-- `GetOp2`: the opcode, the data it pushes and the script behind it; on failure where the
reader stands. -/
def getOp : CScript → Except CScript (UInt8 × Bytes × CScript)
  | [] => .error []
  | opcode :: pc =>
    if opcode ≤ Opcode.pushData4 then
      match pushSize opcode pc with
      | .error pc => .error pc
      | .ok (nSize, pc) =>
        if pc.length < nSize then .error pc else .ok (opcode, pc.take nSize, pc.drop nSize)
    else .ok (opcode, [], pc)

/-- The opcode `pushData` uses for `n` bytes. -/
def pushOpcode (n : Nat) : UInt8 :=
  if n < 0x4c then UInt8.ofNat n
  else if n ≤ 0xff then Opcode.pushData1
  else if n ≤ 0xffff then Opcode.pushData2
  else Opcode.pushData4

variable {opcode : UInt8} {rest b : Bytes} {s : CScript}

open Opcode

theorem getOp_of_pushSize (operand : Bytes) (hop : opcode ≤ pushData4)
    (hsize : pushSize opcode (operand ++ b ++ rest) = .ok (b.length, b ++ rest)) :
    getOp (opcode :: (operand ++ b ++ rest)) = .ok (opcode, b, rest) := by
  simp only [getOp, hop, if_true, hsize]
  rw [if_neg (by simp), take_left, drop_left]

/-- An operand of `w` bytes is read back as the length it encodes. -/
theorem pushSize_operand {w : Nat} (hop : ¬ opcode < pushData1)
    (hw : operandWidth opcode = w) (hb : b.length < 256 ^ w) :
    pushSize opcode (encode w b.length ++ b ++ rest) =
      .ok (b.length, b ++ rest) := by
  have hlen : (encode w b.length).length = w := length_encode
  rw [pushSize, if_neg hop, hw, if_neg (by simp [hlen]), append_assoc,
    take_left' hlen, drop_left' hlen, decode_encode, Nat.mod_eq_of_lt hb]

theorem getOp_pushData (hb : b.length ≤ 0xffffffff) :
    getOp (pushData b ++ rest) = .ok (pushOpcode b.length, b, rest) := by
  unfold pushData pushOpcode
  split
  · next h =>
    have hop : (ofNat b.length).toNat = b.length := by simp; omega
    have hlt : ofNat b.length < pushData1 := by
      rw [lt_iff_toNat_lt, hop]; exact h
    have hle : ofNat b.length ≤ pushData4 := by
      rw [le_iff_toNat_le, hop]; show b.length ≤ 78; omega
    refine getOp_of_pushSize [] hle ?_
    simp only [pushSize, hlt, if_true, hop, nil_append]
  · split
    · next h =>
      have hcode : ([ofNat b.length] : Bytes) = encode 1 b.length := by
        simp [encode]
      refine getOp_of_pushSize [ofNat b.length] (by decide) ?_
      rw [hcode]
      exact pushSize_operand (by decide) (by decide) (by omega)
    · split
      · exact getOp_of_pushSize _ (by decide) (pushSize_operand (by decide) (by decide) (by omega))
      · exact getOp_of_pushSize _ (by decide) (pushSize_operand (by decide) (by decide) (by omega))

theorem length_pushData_le (b : Bytes) : (pushData b).length ≤ b.length + 5 := by
  unfold pushData
  split
  · simp
  split
  · simp
  split <;>
  · simp
    omega

section

variable {rest : CScript} {data : Bytes} (h : getOp s = .ok (opcode, data, rest))

include h

/-- An instruction is its opcode and what belongs to it; only pushes have more than the opcode. -/
theorem getOp_eq_ok :
    ∃ body, s = opcode :: (body ++ rest) ∧ (¬ opcode ≤ pushData4 → body = [] ∧ data = []) := by
  cases s with
  | nil => cases h
  | cons op pc =>
    simp only [getOp] at h
    split at h
    · next hle =>
      split at h
      · cases h
      next nSize pc' hsize =>
      have hpc : ∃ operand, pc = operand ++ pc' := by
        unfold pushSize at hsize
        split at hsize
        · obtain ⟨-, rfl⟩ := hsize
          exact ⟨[], rfl⟩
        · split at hsize
          · cases hsize
          · obtain ⟨-, rfl⟩ := hsize
            exact ⟨_, (take_append_drop _ pc).symm⟩
      obtain ⟨operand, rfl⟩ := hpc
      split at h
      · cases h
      · obtain ⟨rfl, -, rfl⟩ := h
        refine ⟨operand ++ pc'.take nSize, ?_, fun hlt => absurd hle hlt⟩
        rw [append_assoc, take_append_drop]
    · obtain ⟨rfl, rfl, rfl⟩ := h
      exact ⟨[], rfl, fun _ => ⟨rfl, rfl⟩⟩

theorem length_getOp : rest.length < s.length := by
  obtain ⟨body, rfl, -⟩ := getOp_eq_ok h
  rw [length_cons, length_append]
  omega

end

/-! ## 4. Loops over the instructions

Each loop has the length of the script as its number of rounds: by `length_getOp` every round
takes a byte. -/

/-- The bytes of `s` before `rest`, a script behind it. -/
def upTo (s rest : CScript) : Bytes := s.take (s.length - rest.length)

@[simp] theorem upTo_append (b rest : Bytes) : upTo (b ++ rest) rest = b := by simp [upTo]

def isPushOnlyLoop : Nat → CScript → Bool
  | _, [] => true
  | 0, _ :: _ => false
  | rounds + 1, pc =>
    match getOp pc with
    | .ok (opcode, _, pc) => opcode ≤ Opcode.op16 && isPushOnlyLoop rounds pc
    | .error _ => false

def isPushOnly (s : CScript) : Bool := isPushOnlyLoop s.length s

/-- Skip every copy of `b` at the front. -/
def skipCopies (b : CScript) : Nat → CScript → CScript
  | 0, pc => pc
  | rounds + 1, pc => if b.isPrefixOf pc then skipCopies b rounds (pc.drop b.length) else pc

def findAndDeleteLoop (b : CScript) : Nat → CScript → CScript
  | 0, pc => pc
  | rounds + 1, pc =>
    let pc := skipCopies b pc.length pc
    match getOp pc with
    | .ok (_, _, rest) => upTo pc rest ++ findAndDeleteLoop b rounds rest
    | .error _ => pc

/-- `FindAndDelete`: delete the copies of `b` that start at an instruction. -/
def findAndDelete (s b : CScript) : CScript :=
  if b.isEmpty then s else findAndDeleteLoop b (s.length + 1) s

/-- `GetSigOpCount(fAccurate)` from `pc` on, after the instruction `lastOpcode` -/
def sigOpCountLoop (fAccurate : Bool) : Nat → UInt8 → CScript → Nat
  | 0, _, _ => 0
  | rounds + 1, lastOpcode, pc =>
    match getOp pc with
    | .error _ => 0
    | .ok (opcode, _, pc) =>
      let n :=
        if opcode = Opcode.checkSig || opcode = Opcode.checkSigVerify then 1
        else if opcode = Opcode.checkMultiSig || opcode = Opcode.checkMultiSigVerify then
          if fAccurate && Opcode.op1 ≤ lastOpcode && lastOpcode ≤ Opcode.op16 then
            Opcode.decodeOpN lastOpcode
          else maxPubkeysPerMultisig
        else 0
      n + sigOpCountLoop fAccurate rounds opcode pc

def getSigOpCount (s : CScript) (fAccurate : Bool) : Nat :=
  sigOpCountLoop fAccurate s.length 0xff s

/-! ## 5. Recognised shapes -/

def isPayToScriptHash (s : CScript) : Bool :=
  s.length = 23 && s[0]? = some Opcode.hash160 && s[1]? = some 0x14 &&
    s[22]? = some Opcode.equal

/-- `IsWitnessProgram`: the version and the program -/
def isWitnessProgram : CScript → Option (Nat × Bytes)
  | version :: size :: program =>
    if program.length + 2 < 4 || 42 < program.length + 2 then none
    else if version ≠ Opcode.op0 && (version < Opcode.op1 || Opcode.op16 < version) then none
    else if size.toNat = program.length then some (Opcode.decodeOpN version, program)
    else none
  | _ => none

/-- `OP_HASH160 <hash> OP_EQUAL` -/
def payToScriptHash (hash : Uint160) : CScript :=
  [Opcode.hash160] ++ pushData hash.bytes ++ [Opcode.equal]

/-- `OP_DUP OP_HASH160 <hash> OP_EQUALVERIFY OP_CHECKSIG` -/
def payToPubkeyHash (hash : Bytes) : CScript :=
  [Opcode.dup, Opcode.hash160] ++ pushData hash ++ [Opcode.equalVerify, Opcode.checkSig]

/-- The 22 bytes of a witness program of version 2 for a post-quantum key. -/
def payToPQKeyHash (program : Bytes) : CScript := [0x52] ++ pushData program

theorem isPayToScriptHash_iff :
    s.isPayToScriptHash = true ↔ ∃ hash : Bytes, hash.length = 20 ∧
      s = [hash160, 0x14] ++ hash ++ [equal] := by
  simp only [isPayToScriptHash, Bool.and_eq_true, decide_eq_true_eq]
  constructor
  · rintro ⟨⟨⟨hlen, h0⟩, h1⟩, h22⟩
    match s, hlen, h0, h1, h22 with
    | a :: b :: rest, hlen, h0, h1, h22 =>
      have hrest : rest.length = 21 := by simpa using hlen
      have hlast : rest[20]? = some equal := by simpa using h22
      refine ⟨rest.take 20, by simp [hrest], ?_⟩
      have hsplit : rest = rest.take 20 ++ [equal] := by
        conv_lhs => rw [← take_append_drop 20 rest]
        congr 1
        have hdrop : (rest.drop 20).length = 1 := by simp [hrest]
        obtain ⟨x, hx⟩ := length_eq_one_iff.mp hdrop
        have hx0 : (rest.drop 20)[0]? = some equal := by simpa using hlast
        rw [hx] at hx0 ⊢
        simpa using hx0
      simp only [getElem?_cons_zero, Option.some.injEq] at h0
      simp only [getElem?_cons_succ, getElem?_cons_zero, Option.some.injEq] at h1
      rw [h0, h1]
      simpa using hsplit
  · rintro ⟨hash, hlen, rfl⟩
    simp [hlen]

theorem payToScriptHash_eq (hash : Uint160) :
    payToScriptHash hash = hash160 :: 0x14 :: (hash.bytes ++ [equal]) := by
  simp [payToScriptHash, pushData]

theorem isPayToScriptHash_iff_exists :
    s.isPayToScriptHash = true ↔ ∃ hash : Uint160, s = payToScriptHash hash := by
  rw [isPayToScriptHash_iff]
  constructor
  · rintro ⟨hash, hlen, rfl⟩
    refine ⟨Uint160.ofBytes hash, ?_⟩
    rw [payToScriptHash_eq, Uint160.bytes_ofBytes hlen]
    rfl
  · rintro ⟨hash, rfl⟩
    exact ⟨hash.bytes, by simp, payToScriptHash_eq hash⟩

theorem isPayToScriptHash_payToScriptHash (hash : Uint160) :
    (payToScriptHash hash).isPayToScriptHash = true :=
  isPayToScriptHash_iff_exists.mpr ⟨hash, rfl⟩

theorem isWitnessProgram_payToScriptHash (hash : Uint160) :
    (payToScriptHash hash).isWitnessProgram = none := by
  rw [payToScriptHash_eq, isWitnessProgram, if_neg (by simp), if_pos (by decide)]

theorem isWitnessProgram_eq_some {program : CScript} {version : Nat}
    (h : s.isWitnessProgram = some (version, program)) :
    ∃ opcode, s = opcode :: ofNat program.length :: program ∧
      version = decodeOpN opcode ∧
      (opcode = op0 ∨ op1 ≤ opcode ∧ opcode ≤ op16) := by
  unfold isWitnessProgram at h
  split at h
  · next opcode size rest =>
    split at h
    · cases h
    split at h
    · cases h
    next hop =>
    split at h
    · next hsize =>
      cases h
      refine ⟨opcode, ?_, rfl, ?_⟩
      · rw [← hsize, UInt8.ofNat_toNat]
      · simp only [Bool.and_eq_true, Bool.or_eq_true, decide_eq_true_eq] at hop
        by_cases h0 : opcode = op0
        · exact .inl h0
        · refine .inr ⟨?_, ?_⟩
          · exact UInt8.not_lt.mp fun hlt => hop ⟨h0, .inl hlt⟩
          · exact UInt8.not_lt.mp fun hlt => hop ⟨h0, .inr hlt⟩
    · cases h
  · cases h

end CScript

end RgmNode
