import RgmNode.Script.SigHash

/-!
# The legacy signature serializer

`CTransactionSignatureSerializer` of `script/interpreter.cpp` writes the bytes of an edited copy of
the transaction without making the copy.  The script code is written in the chunks between its
separators, behind a length that is counted before.
-/

namespace RgmNode

open List CScript Nat SigHashType Opcode

/-! ## 1. The copy that is signed -/

namespace CTransactionSignatureSerializer

/-- The instructions of a script that parses to its end, each with its opcode. -/
inductive Parses : CScript → List (UInt8 × Bytes) → Prop where
  | nil : Parses [] []
  | cons {pc rest data : Bytes} {opcode : UInt8} {l : List (UInt8 × Bytes)} :
    CScript.getOp pc = .ok (opcode, data, rest) → Parses rest l →
      Parses pc ((opcode, CScript.upTo pc rest) :: l)

/-- The script code without its separators. -/
def signedScript (instructions : List (UInt8 × Bytes)) : CScript :=
  (instructions.filter (·.1 ≠ codeSeparator)).flatMap Prod.snd

/-- The other scripts are blank, and the other sequences zero if they may change. -/
def signedInput (script : CScript) (nIn : Nat) (nHashType : Int32) (i : Nat) (txin : CTxIn) :
    CTxIn :=
  let free := SigHashType.isSingle nHashType || SigHashType.isNone nHashType
  if i = nIn then { txin with scriptSig := script }
  else { txin with scriptSig := [], nSequence := if free then 0 else txin.nSequence }

/-- With `SIGHASH_ANYONECANPAY` there is no other input.  With `SIGHASH_NONE` there is no output,
and with `SIGHASH_SINGLE` none behind that of the input, and null ones before it. -/
def signedCopy (tx : CTransaction) (script : CScript) (nIn : Nat) (nHashType : Int32) :
    CTransaction :=
  { tx with
    vin :=
      if SigHashType.anyoneCanPay nHashType then
        tx.vin[nIn]?.toList.map (signedInput script nIn nHashType nIn)
      else tx.vin.mapIdx (signedInput script nIn nHashType)
    vout :=
      if SigHashType.isNone nHashType then []
      else if SigHashType.isSingle nHashType then
        List.replicate nIn CTxOut.null ++ tx.vout[nIn]?.toList
      else tx.vout }

/-! ## 2. The script code -/

variable {s : CTransactionSignatureSerializer} {pc : CScript} {l : List (UInt8 × Bytes)}
  {rounds : Nat}

theorem signedScript_cons (opcode : UInt8) (b : Bytes) (l : List (UInt8 × Bytes)) :
    signedScript ((opcode, b) :: l) =
      if opcode = codeSeparator then signedScript l else b ++ signedScript l := by
  unfold signedScript
  by_cases h : opcode = codeSeparator <;> simp [h]

theorem upTo_cons_append {opcode : UInt8} {body rest : Bytes} :
    upTo (opcode :: (body ++ rest)) rest = opcode :: body :=
  upTo_append (opcode :: body) rest

theorem writeChunks_eq (h : Parses pc l) (hrounds : pc.length < rounds) (pending : Bytes) :
    writeChunks rounds (pending ++ pc) pc = pending ++ signedScript l := by
  induction h generalizing rounds pending with
  | nil =>
    obtain ⟨rounds, rfl⟩ := exists_eq_succ_of_ne_zero (ne_zero_of_lt hrounds)
    have hstop : getOp [] = .error [] := rfl
    simp only [writeChunks, hstop, append_nil, signedScript, filter_nil, flatMap_nil]
    split
    · next hempty => exact hempty.symm
    · simp [upTo]
  | @cons pc rest data opcode l hop _ ih =>
    obtain ⟨rounds, rfl⟩ := exists_eq_succ_of_ne_zero (ne_zero_of_lt hrounds)
    have hlt := length_getOp hop
    obtain ⟨body, rfl, hbody⟩ := getOp_eq_ok hop
    simp only [writeChunks, hop, signedScript_cons, upTo_cons_append]
    split
    · next hsep =>
      -- a separator is one byte, which the chunk before it leaves out
      obtain ⟨rfl, -⟩ := hbody (by rw [hsep]; decide)
      have hchunk : (pending ++ opcode :: ([] ++ rest)).length - rest.length - 1 =
          pending.length := by
        simp
        omega
      rw [hchunk, take_left]
      exact congrArg _ (ih (by omega) [])
    · have hrest := ih (show rest.length < rounds by omega) (pending ++ opcode :: body)
      rw [append_assoc, append_assoc] at hrest
      exact hrest

/-- The length that is counted before is that of what is written. -/
theorem length_signedScript (h : Parses pc l) (hrounds : pc.length ≤ rounds) :
    (signedScript l).length + countSeparators rounds pc = pc.length := by
  induction h generalizing rounds with
  | nil => cases rounds <;> rfl
  | @cons pc rest data opcode l hop _ ih =>
    have hlt := length_getOp hop
    obtain ⟨rounds, rfl⟩ := exists_eq_succ_of_ne_zero (n := rounds) (by omega)
    have hrest := ih (show rest.length ≤ rounds by omega)
    obtain ⟨body, rfl, hbody⟩ := getOp_eq_ok hop
    simp only [countSeparators, hop, signedScript_cons, upTo_cons_append]
    split
    · next hsep =>
      obtain ⟨rfl, -⟩ := hbody (by rw [hsep]; decide)
      simp
      omega
    · simp
      omega

theorem serializeScriptCode_eq (h : Parses s.scriptCode l) (hsize : s.scriptCode.length < 2 ^ 32) :
    s.serializeScriptCode = serBytes (signedScript l) := by
  have hlength := length_signedScript h (le_refl _)
  have hchunks := writeChunks_eq h (lt_succ_self _) []
  have hcount : s.scriptCode.length -
      countSeparators s.scriptCode.length s.scriptCode = (signedScript l).length := by
    omega
  rw [serializeScriptCode, mod_eq_of_lt (by omega), hcount]
  exact congrArg _ hchunks

/-! ## 3. Inputs and outputs -/

theorem flatMap_range {α : Type} {xs : List α} {n : Nat} {f : Nat → Bytes} {g : α → Bytes}
    (hn : n = xs.length) (h : ∀ i (hi : i < xs.length), f i = g xs[i]) :
    (List.range n).flatMap f = xs.flatMap g := by
  have hmap : (List.range n).map f = xs.map g :=
    ext_getElem (by simp [hn]) fun i _ hi => by simpa using h i (by simpa using hi)
  rw [flatMap_def, hmap, ← flatMap_def]

theorem serializeInput_eq (h : Parses s.scriptCode l) (hsize : s.scriptCode.length < 2 ^ 32)
    {i j : Nat} (hi : i < s.txTo.vin.length)
    (hindex : (if anyoneCanPay s.nHashType then s.nIn.toNat else j) = i) :
    s.serializeInput j =
      (signedInput (signedScript l) s.nIn.toNat s.nHashType i s.txTo.vin[i]).serialize := by
  have hinput : s.txTo.input i = s.txTo.vin[i] := by
    rw [CTransaction.input, getD_eq_getElem?_getD, getElem?_eq_getElem hi, Option.getD_some]
  simp only [serializeInput, hindex, hinput, serializeScriptCode_eq h hsize, signedInput]
  by_cases heq : i = s.nIn.toNat
  · simp [heq, CTxIn.serialize]
  · simp [heq, CTxIn.serialize]

theorem flatMap_serializeOutput_single (hsingle : isSingle s.nHashType = true)
    (hn : s.nIn.toNat < s.txTo.vout.length) :
    (List.range (s.nIn.toNat + 1)).flatMap s.serializeOutput =
      (List.replicate s.nIn.toNat CTxOut.null ++ s.txTo.vout[s.nIn.toNat]?.toList).flatMap
        CTxOut.serialize := by
  rw [range_succ, flatMap_append, flatMap_append]
  congr 1
  · refine flatMap_range length_replicate.symm fun i hi => ?_
    have hne : i ≠ s.nIn.toNat := by
      rw [length_replicate] at hi
      exact hi.ne
    simp [serializeOutput, hsingle, hne]
  · simp [serializeOutput, hn]

/-- For a transaction with fewer than `2 ^ 32` inputs and outputs, and an input and output that
are there, the bytes are those of the edited copy and the hash type. -/
theorem hashed_eq_signedCopy (h : Parses s.scriptCode l) (hsize : s.scriptCode.length < 2 ^ 32)
    (hvin : s.txTo.vin.length < 2 ^ 32) (hvout : s.txTo.vout.length < 2 ^ 32)
    (hin : s.nIn.toNat < s.txTo.vin.length)
    (hsingle : SigHashType.isSingle s.nHashType = true → s.nIn.toNat < s.txTo.vout.length) :
    s.hashed = (signedCopy s.txTo (signedScript l) s.nIn.toNat s.nHashType).serializeNoWitness ++
      serInt32 s.nHashType := by
  rw [hashed, serialize, CTransaction.serializeNoWitness, serVector, serVector]
  congr 1
  congr 1
  congr 1
  · congr 1
    dsimp only [signedCopy]
    cases hany : SigHashType.anyoneCanPay s.nHashType with
    | true =>
      have hfirst := serializeInput_eq (j := 0) h hsize hin (if_pos hany)
      simp [hfirst, getElem?_eq_getElem hin]
    | false =>
      simp only [Bool.false_eq_true, if_false, length_mapIdx, Nat.mod_eq_of_lt hvin]
      rw [flatMap_range (length_mapIdx).symm fun i hi => ?_]
      rw [length_mapIdx] at hi
      rw [getElem_mapIdx]
      exact serializeInput_eq h hsize hi (if_neg (by rw [hany]; decide))
  · dsimp only [signedCopy]
    split
    · rfl
    split
    · next hone =>
      have hlt := hsingle hone
      have hnext : (s.nIn + 1).toNat = s.nIn.toNat + 1 := by
        rw [UInt32.toNat_add, UInt32.toNat_one]
        exact Nat.mod_eq_of_lt (by omega)
      rw [hnext, flatMap_serializeOutput_single hone hlt]
      simp [getElem?_eq_getElem hlt]
    · next hall =>
      rw [Nat.mod_eq_of_lt hvout, flatMap_range rfl fun i hi => ?_]
      simp [serializeOutput, hall, hi]

/-- The second of two inputs, with its output and a script code that begins with a separator. -/
def secondInput : CTransactionSignatureSerializer where
  txTo := ⟨1, [⟨COutPoint.null, [], 7, []⟩, ⟨COutPoint.null, [], 8, []⟩], [⟨5, []⟩, ⟨6, []⟩], 0⟩
  scriptCode := [codeSeparator, Opcode.op1]
  nIn := 1
  nHashType := 3

theorem hashed_eq_signedCopy_second : ∃ l, signedScript l = [Opcode.op1] ∧
    secondInput.hashed = (signedCopy secondInput.txTo (signedScript l) secondInput.nIn.toNat
      secondInput.nHashType).serializeNoWitness ++ serInt32 secondInput.nHashType := by
  have hsep : CScript.getOp [codeSeparator, Opcode.op1] =
      .ok (codeSeparator, [], [Opcode.op1]) := rfl
  have hone : CScript.getOp [Opcode.op1] = .ok (Opcode.op1, [], []) := rfl
  refine ⟨_, ?_, hashed_eq_signedCopy (.cons hsep (.cons hone .nil)) (by decide) (by decide)
    (by decide) (by decide) fun _ => by decide⟩
  rfl

end CTransactionSignatureSerializer

end RgmNode
