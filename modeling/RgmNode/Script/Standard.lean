import RgmNode.Script.Pushes

/-!
# Standard output types

`Solver` of `script/standard.cpp`: the type of an output script and the keys or hashes in it.
-/

namespace RgmNode

open CScript Opcode

inductive TxnOutType where
  | nonStandard | pubKey | pubKeyHash | scriptHash | multiSig | nullData
  | witnessV0KeyHash | witnessV0ScriptHash | witnessUnknown | witnessV2PQKeyHash
deriving DecidableEq, Repr

/-- What `Solver` returns and sets; it may leave the type as it was. -/
structure Solution where
  solved : Bool
  typeRet : Option TxnOutType
  vSolutions : List Bytes
deriving DecidableEq, Repr

/-! ## 1. Templates -/

/-- The opcodes of a template: the pseudo opcodes of `opcodetype`, or one to be met exactly. -/
inductive TemplateOp where
  | smallInteger | pubKeys | pubKeyHash | pubKey
  | exact (opcode : UInt8)
deriving DecidableEq, Repr

def isPubKeySize (vch : Bytes) : Bool := 33 ≤ vch.length && vch.length ≤ 65

/-- Whether an instruction meets a template opcode, and what it adds to the solutions. -/
def matchOp (opcode : UInt8) (vch : Bytes) : TemplateOp → Option (List Bytes)
  | .pubKey => if isPubKeySize vch then some [vch] else none
  | .pubKeyHash => if vch.length = 20 then some [vch] else none
  | .smallInteger =>
    if opcode = Opcode.op0 || (Opcode.op1 ≤ opcode && opcode ≤ Opcode.op16) then
      some [[UInt8.ofNat (Opcode.decodeOpN opcode)]]
    else none
  | .exact expected => if opcode = expected ∧ vch = [] then some [] else none
  | .pubKeys => none

/-- The pushes of public keys from the instruction `opcode`, `vch` on, and the first
instruction that is not one. -/
def takePubKeys : Nat → UInt8 → Bytes → CScript → List Bytes × UInt8 × Bytes × CScript
  | 0, opcode, vch, pc => ([], opcode, vch, pc)
  | rounds + 1, opcode, vch, pc =>
    if isPubKeySize vch then
      match pc.getOp with
      | .error pc => ([vch], 0xff, [], pc)
      | .ok (opcode, vch', pc) =>
        let (keys, next) := takePubKeys rounds opcode vch' pc
        (vch :: keys, next)
    else ([], opcode, vch, pc)

/-- The comparison of a script with a template; the solutions if they match. -/
def matchTemplate : List TemplateOp → CScript → Option (List Bytes)
  | [], pc => if pc.isEmpty then some [] else none
  | [.pubKeys], _ => none
  | .pubKeys :: op2 :: template, pc =>
    match pc.getOp with
    | .error _ => none
    | .ok (opcode, vch, pc) =>
      let (keys, opcode, vch, pc) := takePubKeys (pc.length + 1) opcode vch pc
      match matchOp opcode vch op2, matchTemplate template pc with
      | some found, some rest => some (keys ++ found ++ rest)
      | _, _ => none
  | op2 :: template, pc =>
    match pc.getOp with
    | .error _ => none
    | .ok (opcode, vch, pc) =>
      match matchOp opcode vch op2, matchTemplate template pc with
      | some found, some rest => some (found ++ rest)
      | _, _ => none

def pubKeyTemplate : List TemplateOp := [.pubKey, .exact Opcode.checkSig]

def pubKeyHashTemplate : List TemplateOp :=
  [.exact Opcode.dup, .exact Opcode.hash160, .pubKeyHash, .exact Opcode.equalVerify,
    .exact Opcode.checkSig]

def multiSigTemplate : List TemplateOp :=
  [.smallInteger, .pubKeys, .smallInteger, .exact Opcode.checkMultiSig]

/-- The first byte of an element, which is how the two counts of a multisig are kept. -/
def firstByte (vch : Bytes) : Nat := (vch.getD 0 0).toNat

/-- The additional checks for `TX_MULTISIG`. -/
def multiSigCounts (vSolutions : List Bytes) : Bool :=
  let m := firstByte (vSolutions.headD [])
  let n := firstByte (vSolutions.getLastD [])
  1 ≤ m && 1 ≤ n && m ≤ n && vSolutions.length = n + 2

/-- The scan of the templates, in the order of their types. -/
def solveTemplates (scriptPubKey : CScript) : Solution :=
  match matchTemplate pubKeyTemplate scriptPubKey with
  | some vSolutions => ⟨true, some .pubKey, vSolutions⟩
  | none =>
    match matchTemplate pubKeyHashTemplate scriptPubKey with
    | some vSolutions => ⟨true, some .pubKeyHash, vSolutions⟩
    | none =>
      match matchTemplate multiSigTemplate scriptPubKey with
      | some vSolutions => ⟨multiSigCounts vSolutions, some .multiSig, vSolutions⟩
      | none => ⟨false, some .nonStandard, []⟩

/-! ## 2. `Solver` -/

/-- The part of `Solver` for witness programs. -/
def solveWitnessProgram (version : Nat) (program : Bytes) : Solution :=
  if version = 0 ∧ program.length = 20 then ⟨true, some .witnessV0KeyHash, [program]⟩
  else if version = 0 ∧ program.length = 32 then ⟨true, some .witnessV0ScriptHash, [program]⟩
  else if version = 2 ∧ program.length = 20 then ⟨true, some .witnessV2PQKeyHash, [program]⟩
  else if version ≠ 0 then
    ⟨true, some .witnessUnknown, [[UInt8.ofNat version], program]⟩
  else ⟨false, none, []⟩

def solver (scriptPubKey : CScript) : Solution :=
  if scriptPubKey.isPayToScriptHash then
    ⟨true, some .scriptHash, [(scriptPubKey.drop 2).take 20]⟩
  else
    match scriptPubKey.isWitnessProgram with
    | some (version, program) => solveWitnessProgram version program
    | none =>
      if scriptPubKey.head? = some Opcode.ret ∧ CScript.isPushOnly (scriptPubKey.drop 1) = true then
        ⟨true, some .nullData, []⟩
      else solveTemplates scriptPubKey

/-! ## 3. What a type says about the script -/

section Shapes

variable {script : CScript} {program : Bytes}

theorem solver_payToPQKeyHash (h : program.length = 20) :
    solver (payToPQKeyHash program) = ⟨true, some .witnessV2PQKeyHash, [program]⟩ := by
  simp [solver, isPayToScriptHash_payToPQKeyHash h,
    isWitnessProgram_payToPQKeyHash h, solveWitnessProgram, h]

theorem solver_payToScriptHash (hash : Uint160) :
    solver (payToScriptHash hash) = ⟨true, some .scriptHash, [hash.bytes]⟩ := by
  rw [solver, if_pos (isPayToScriptHash_payToScriptHash hash), payToScriptHash_eq]
  simp

/-- The script that `P2WPKH` stands for is one for a public key hash. -/
theorem solver_payToPubkeyHash {hash : Bytes} (hlen : hash.length = 20) :
    solver (payToPubkeyHash hash) = ⟨true, some .pubKeyHash, [hash]⟩ := by
  have hscript : payToPubkeyHash hash = [dup, hash160] ++
      (pushData hash ++ [equalVerify, checkSig]) := by
    simp [payToPubkeyHash]
  have hdata : pushData hash = 0x14 :: hash := by simp [pushData, hlen]
  have hp2sh : (payToPubkeyHash hash).isPayToScriptHash = false := by
    simp [isPayToScriptHash, hscript, hdata, hlen]
  have hprog : (payToPubkeyHash hash).isWitnessProgram = none := by
    rw [hscript, List.cons_append, List.cons_append, isWitnessProgram, if_neg, if_pos]
    · decide
    · simp [hdata, hlen]
  have hget : getOp (pushData hash ++ [equalVerify, checkSig]) =
      .ok (pushOpcode hash.length, hash, [equalVerify, checkSig]) :=
    getOp_pushData (by omega)
  have hkey : matchTemplate pubKeyTemplate (payToPubkeyHash hash) = none := by
    rfl
  have hhash : matchTemplate pubKeyHashTemplate (payToPubkeyHash hash) = some [hash] := by
    rw [hscript]
    have hdup : ∀ rest, getOp (dup :: rest) = .ok (dup, [], rest) :=
      fun _ => rfl
    have hhash160 : ∀ rest, getOp (hash160 :: rest) = .ok (hash160, [], rest) := fun _ => rfl
    simp [pubKeyHashTemplate, matchTemplate, hdup, hhash160, hget, matchOp, hlen]
    rfl
  have hnull : (payToPubkeyHash hash).head? ≠ some ret := by
    rw [hscript]
    simp [dup, ret]
  simp [solver, hp2sh, hprog, hnull, solveTemplates, hkey, hhash]

theorem typeRet_solveTemplates (script : CScript) :
    (solveTemplates script).typeRet = some .pubKey ∨
      (solveTemplates script).typeRet = some .pubKeyHash ∨
      (solveTemplates script).typeRet = some .multiSig ∨
      (solveTemplates script).typeRet = some .nonStandard := by
  unfold solveTemplates
  split
  · exact .inl rfl
  split
  · exact .inr (.inl rfl)
  split
  · exact .inr (.inr (.inl rfl))
  · exact .inr (.inr (.inr rfl))

/-- A type no template gives comes from the shape of the script. -/
theorem solver_of_witness_type {t : TxnOutType} (h : (solver script).typeRet = some t)
    (ht : t = .witnessV0KeyHash ∨ t = .witnessV0ScriptHash ∨ t = .witnessV2PQKeyHash) :
    ∃ version program, script.isWitnessProgram = some (version, program) ∧
      solver script = solveWitnessProgram version program := by
  unfold solver at h ⊢
  split at h
  · cases h
    rcases ht with ht | ht | ht <;> cases ht
  next hp2sh =>
  rw [if_neg hp2sh]
  split at h
  · next version program hprog => exact ⟨version, program, hprog, rfl⟩
  · split at h
    · cases h
      rcases ht with ht | ht | ht <;> cases ht
    · rcases typeRet_solveTemplates script with ht' | ht' | ht' | ht' <;>
      · rw [ht'] at h
        cases h
        rcases ht with ht | ht | ht <;> cases ht

/-- The outputs for a key hash with a witness have a hash of 20 bytes. -/
theorem solver_of_keyHash_type (h : (solver script).typeRet = some .witnessV0KeyHash) :
    ∃ program : Bytes, program.length = 20 ∧
      solver script = ⟨true, some .witnessV0KeyHash, [program]⟩ := by
  obtain ⟨version, program, -, hsolve⟩ := solver_of_witness_type h (.inl rfl)
  rw [hsolve] at h ⊢
  unfold solveWitnessProgram at h ⊢
  split at h
  · next hprog => exact ⟨program, hprog.2, if_pos hprog⟩
  split at h
  · cases h
  split at h
  · cases h
  split at h <;> cases h

/-- A type that comes from a template: the script has no other shape. -/
theorem solver_of_template_type {t : TxnOutType} (h : (solver script).typeRet = some t)
    (ht : t = .pubKey ∨ t = .pubKeyHash ∨ t = .multiSig) :
    script.isPayToScriptHash = false ∧ script.isWitnessProgram = none ∧
      solver script = solveTemplates script := by
  unfold solver at h ⊢
  split
  · next hp2sh =>
    rw [if_pos hp2sh] at h
    cases h
    rcases ht with ht | ht | ht <;> cases ht
  next hp2sh =>
  rw [if_neg hp2sh] at h
  cases hprog : script.isWitnessProgram with
  | some p =>
    rw [hprog] at h
    simp only [solveWitnessProgram] at h
    repeat' split at h
    all_goals cases h
    all_goals rcases ht with ht | ht | ht <;> cases ht
  | none =>
    rw [hprog] at h
    refine ⟨by simpa using hp2sh, rfl, if_neg fun hnull => ?_⟩
    rw [if_pos hnull] at h
    cases h
    rcases ht with ht | ht | ht <;> cases ht

theorem matchTemplate_of_solver_multiSig {scriptPubKey : CScript}
    (htype : (solver scriptPubKey).typeRet = some .multiSig) :
    matchTemplate multiSigTemplate scriptPubKey = some (solver scriptPubKey).vSolutions ∧
      (solver scriptPubKey).solved = multiSigCounts (solver scriptPubKey).vSolutions := by
  obtain ⟨-, -, hsolver⟩ := solver_of_template_type htype (.inr (.inr rfl))
  rw [hsolver] at htype ⊢
  unfold solveTemplates at htype ⊢
  split
  · next hpk =>
    rw [hpk] at htype
    cases htype
  next hpk =>
  rw [hpk] at htype
  split
  · next hpkh =>
    rw [hpkh] at htype
    cases htype
  next hpkh =>
  rw [hpkh] at htype
  split
  · next hmulti => exact ⟨hmulti, rfl⟩
  · next hmulti =>
    rw [hmulti] at htype
    cases htype

/-- A multisig output that is solved needs a signature. -/
theorem one_le_of_solver_multiSig {vSolutions : List Bytes}
    (h : solver script = ⟨true, some .multiSig, vSolutions⟩) :
    1 ≤ firstByte (vSolutions.headD []) := by
  obtain ⟨-, hcounts⟩ := matchTemplate_of_solver_multiSig (show (solver script).typeRet = _ by rw [h])
  rw [h] at hcounts
  have hall := hcounts.symm
  simp only [multiSigCounts, Bool.and_eq_true, decide_eq_true_eq] at hall
  exact hall.1.1.1

theorem solver_of_witnessScriptHash_type
    (h : (solver script).typeRet = some .witnessV0ScriptHash) :
    ∃ program : Bytes, program.length = 32 ∧ script.isWitnessProgram = some (0, program) ∧
      solver script = ⟨true, some .witnessV0ScriptHash, [program]⟩ := by
  obtain ⟨version, program, hprog, hsolve⟩ := solver_of_witness_type h (.inr (.inl rfl))
  rw [hsolve] at h ⊢
  unfold solveWitnessProgram at h ⊢
  split at h
  · cases h
  next hkey =>
  split at h
  · next hscript =>
    obtain ⟨rfl, hlen⟩ := hscript
    exact ⟨program, hlen, hprog, by rw [if_neg hkey, if_pos ⟨rfl, hlen⟩]⟩
  split at h
  · cases h
  split at h <;> cases h

theorem solver_scriptHash_iff :
    (solver script).typeRet = some .scriptHash ↔
      ∃ hash : Uint160, script = payToScriptHash hash := by
  constructor
  · intro h
    unfold solver at h
    split at h
    · next hp2sh => exact isPayToScriptHash_iff_exists.mp hp2sh
    split at h
    · unfold solveWitnessProgram at h
      split at h
      · cases h
      split at h
      · cases h
      split at h
      · cases h
      split at h <;> cases h
    split at h
    · cases h
    · rcases typeRet_solveTemplates script with ht | ht | ht | ht <;> rw [ht] at h <;> cases h
  · rintro ⟨hash, rfl⟩
    rw [solver_payToScriptHash]

theorem solver_pqKeyHash_iff :
    (solver script).typeRet = some .witnessV2PQKeyHash ↔
      ∃ program : Bytes, program.length = 20 ∧ script = payToPQKeyHash program := by
  constructor
  · intro h
    obtain ⟨version, program, hprog, hsolve⟩ := solver_of_witness_type h (.inr (.inr rfl))
    rw [hsolve] at h
    unfold solveWitnessProgram at h
    split at h
    · cases h
    split at h
    · cases h
    split at h
    · next h2 =>
      obtain ⟨rfl, hlen⟩ := h2
      exact ⟨program, hlen, eq_payToPQKeyHash hprog hlen⟩
    split at h <;> cases h
  · rintro ⟨program, hlen, rfl⟩
    rw [solver_payToPQKeyHash hlen]

end Shapes

end RgmNode
