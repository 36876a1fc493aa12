import RgmNode.Lib.Checks
import RgmNode.Script.SigHash
import RgmNode.Script.Pushes

/-!
# Verification of an input

`VerifyWitnessProgram` and `VerifyScript` of `script/interpreter.cpp`.
-/

namespace RgmNode

open Checks List CScript

/-- The arguments of `VerifyScript` that stay the same throughout. -/
structure VerifyContext where
  cr : Crypto
  sg : Schemes
  flags : ScriptFlags
  checker : SignatureChecker

namespace VerifyContext

variable (vc : VerifyContext)

/-- `EvalScript` in this context -/
def eval (sigversion : SigVersion) (stack : List Bytes) (script : CScript) :
    Except ScriptError (List Bytes) :=
  (evalScript ⟨vc.cr, vc.sg, vc.flags, vc.checker, sigversion⟩ stack script).mapError Prod.fst

/-- `EvalScript`, and a true element on top of the stack -/
def evalTrue (stack : List Bytes) (script : CScript) : Except ScriptError (List Bytes) := do
  let stack ← vc.eval .base stack script
  require (stack.head?.any castToBool = true) .evalFalse
  return stack

/-! ## 1. Witness programs -/

/-- A witness script has to leave one true element. -/
def runWitnessScript (script : CScript) (witness : List Bytes) : Except ScriptError Unit := do
  require (∀ v ∈ witness, v.length ≤ maxScriptElementSize) .pushSize
  let stack ← vc.eval .witnessV0 witness.reverse script
  require (stack.length = 1 ∧ stack.head?.any castToBool = true) .evalFalse

/-- The branch for a post-quantum key: a signature and a public key. -/
def verifyPQKeyHash (witness : List Bytes) (program : Bytes) : Except ScriptError Unit :=
  match witness with
  | [sig, pubkey] => do
    require (pubkey.length = 1312) .witnessProgramMismatch
    require ((vc.cr.hash160 pubkey).bytes = program) .witnessProgramMismatch
    require (pqVerify vc.sg pubkey vc.checker.getSigHash.bytes sig = true)
      .witnessProgramMismatch
  | _ => .error .witnessProgramMismatch

def verifyWitnessProgram (witness : List Bytes) (witversion : Nat) (program : Bytes) :
    Except ScriptError Unit :=
  if witversion = 0 then
    if program.length = 32 then
      match witness.getLast? with
      | none => .error .witnessProgramWitnessEmpty
      | some script => do
        require ((vc.cr.sha256 script).bytes = program) .witnessProgramMismatch
        vc.runWitnessScript script witness.dropLast
    else if program.length = 20 then do
      require (witness.length = 2) .witnessProgramMismatch
      vc.runWitnessScript (CScript.payToPubkeyHash program) witness
    else .error .witnessProgramWrongLength
  else if witversion = 2 ∧ program.length = 20 then vc.verifyPQKeyHash witness program
  else if .discourageUpgradableWitnessProgram ∈ vc.flags then
    .error .discourageUpgradableWitnessProgram
  else .ok ()

/-! ## 2. Scripts -/

/-- The stack after a part of `VerifyScript`, and whether there was a witness program. -/
structure Progress where
  stack : List Bytes
  hadWitness : Bool

/-- `stack.resize(1)`: the bottom of the stack -/
def bottom (stack : List Bytes) : List Bytes := stack.drop (stack.length - 1)

/-- The witness program `script`, if it is one: `expected` is the only `scriptSig` allowed. -/
def verifyProgram (script scriptSig expected : CScript) (malleated : ScriptError)
    (witness : List Bytes) (before : Progress) : Except ScriptError Progress :=
  match if .witness ∈ vc.flags then script.isWitnessProgram else none with
  | none => .ok before
  | some (version, program) => do
    require (scriptSig = expected) malleated
    vc.verifyWitnessProgram witness version program
    return ⟨bottom before.stack, true⟩

/-- The part of `VerifyScript` for `OP_HASH160 <hash> OP_EQUAL`; `stackCopy` is the stack that
`scriptSig` left. -/
def verifyScriptHash (scriptSig scriptPubKey : CScript) (witness stackCopy : List Bytes)
    (before : Progress) : Except ScriptError Progress :=
  if .p2sh ∈ vc.flags ∧ scriptPubKey.isPayToScriptHash = true then
    match stackCopy with
    -- `assert(!stack.empty())`
    | [] => .error .unknownError
    | pubKey2 :: stack => do
      require (scriptSig.isPushOnly = true) .sigPushOnly
      let stack ← vc.evalTrue stack pubKey2
      vc.verifyProgram pubKey2 scriptSig (CScript.pushData pubKey2) .witnessMalleatedP2SH
        witness ⟨stack, before.hadWitness⟩
  else .ok before

/-- The checks at the end of `VerifyScript`. -/
def verifyEnd (witness : List Bytes) (after : Progress) : Except ScriptError Unit := do
  require (.cleanStack ∈ vc.flags → after.stack.length = 1) .cleanStack
  require (.witness ∈ vc.flags → after.hadWitness = false → witness = []) .witnessUnexpected

def verifyScript (scriptSig scriptPubKey : CScript) (witness : List Bytes) :
    Except ScriptError Unit := do
  require (.sigPushOnly ∈ vc.flags → scriptSig.isPushOnly = true) .sigPushOnly
  let stackCopy ← vc.eval .base [] scriptSig
  let stack ← vc.evalTrue stackCopy scriptPubKey
  let bare ← vc.verifyProgram scriptPubKey scriptSig [] .witnessMalleated witness ⟨stack, false⟩
  let after ← vc.verifyScriptHash scriptSig scriptPubKey witness stackCopy bare
  vc.verifyEnd witness after

end VerifyContext

/-! ## 3. Witness programs of version 2 -/

namespace VerifyContext

variable {vc : VerifyContext} {scriptSig script : CScript} {witness stack stack' : List Bytes}
  {program : Bytes} {before after : Progress}

variable {sigversion : SigVersion} {scriptPubKey : CScript}

theorem eval_eq_ok_iff :
    vc.eval sigversion stack script = .ok stack' ↔
      evalScript ⟨vc.cr, vc.sg, vc.flags, vc.checker, sigversion⟩ stack script = .ok stack' := by
  unfold eval
  cases evalScript ⟨vc.cr, vc.sg, vc.flags, vc.checker, sigversion⟩ stack script with
  | error e => exact ⟨nofun, nofun⟩
  | ok s => exact ⟨(by rintro ⟨⟩; rfl), (by rintro ⟨⟩; rfl)⟩

theorem evalTrue_eq_ok_iff :
    vc.evalTrue stack script = .ok stack' ↔
      vc.eval .base stack script = .ok stack' ∧ stack'.head?.any castToBool = true := by
  rw [evalTrue, bind_eq_ok_iff]
  constructor
  · rintro ⟨s, hs, h⟩
    obtain ⟨htrue, ⟨⟩⟩ := require_bind_eq_ok_iff.mp h
    exact ⟨hs, htrue⟩
  · rintro ⟨hs, htrue⟩
    exact ⟨stack', hs, require_bind_eq_ok_iff.mpr ⟨htrue, rfl⟩⟩

theorem eval_of_verifyScript (h : vc.verifyScript scriptSig scriptPubKey witness = .ok ()) :
    ∃ stackCopy stack, vc.eval .base [] scriptSig = .ok stackCopy ∧
      vc.evalTrue stackCopy scriptPubKey = .ok stack := by
  obtain ⟨-, h⟩ := require_bind_eq_ok_iff.mp h
  obtain ⟨stackCopy, hcopy, h⟩ := bind_eq_ok_iff.mp h
  obtain ⟨stack, hstack, -⟩ := bind_eq_ok_iff.mp h
  exact ⟨stackCopy, stack, hcopy, hstack⟩

/-- What a witness has to be for a post-quantum key hash: the public key is the one that was
hashed, and its signature is accepted for the signature hash of the input. -/
def PQSpend (vc : VerifyContext) (program : Bytes) (witness : List Bytes) : Prop :=
  ∃ sig pubkey, witness = [sig, pubkey] ∧ pubkey.length = 1312 ∧
    (vc.cr.hash160 pubkey).bytes = program ∧
    pqVerify vc.sg pubkey vc.checker.getSigHash.bytes sig = true

theorem verifyPQKeyHash_eq_ok_iff :
    vc.verifyPQKeyHash witness program = .ok () ↔ vc.PQSpend program witness := by
  unfold verifyPQKeyHash PQSpend
  split
  · next sig pubkey =>
    simp only [require_bind_eq_ok_iff, require_eq_ok_iff]
    constructor
    · rintro ⟨hlen, hhash, hver⟩
      exact ⟨sig, pubkey, rfl, hlen, hhash, hver⟩
    · rintro ⟨_, _, ⟨⟩, hlen, hhash, hver⟩
      exact ⟨hlen, hhash, hver⟩
  · next hshape =>
    refine ⟨(by rintro ⟨⟩), ?_⟩
    rintro ⟨sig, pubkey, rfl, -⟩
    exact absurd rfl (hshape sig pubkey)

theorem verifyProgram_eq_ok_iff {expected : CScript} {malleated : ScriptError} {version : Nat}
    (hflag : .witness ∈ vc.flags) (hprog : script.isWitnessProgram = some (version, program)) :
    vc.verifyProgram script scriptSig expected malleated witness before = .ok after ↔
      scriptSig = expected ∧ vc.verifyWitnessProgram witness version program = .ok () ∧
        after = ⟨bottom before.stack, true⟩ := by
  simp only [verifyProgram, hflag, if_true, hprog]
  rw [require_bind_eq_ok_iff, bind_eq_ok_iff]
  constructor
  · rintro ⟨hsig, _, hver, ⟨⟩⟩
    exact ⟨hsig, hver, rfl⟩
  · rintro ⟨hsig, hver, rfl⟩
    exact ⟨hsig, (), hver, rfl⟩

theorem verifyWitnessProgram_two (hlen : program.length = 20) :
    vc.verifyWitnessProgram witness 2 program = vc.verifyPQKeyHash witness program := by
  simp [verifyWitnessProgram, hlen]

theorem length_bottom (h : stack ≠ []) : (bottom stack).length = 1 := by
  have hpos : 0 < stack.length := length_pos_iff.mpr h
  rw [bottom, length_drop]
  omega

/-- The two pushes of a witness program leave the program on top. -/
theorem eval_payToPQKeyHash_iff (hlen : program.length = 20) (hstack : stack.length ≤ 998) :
    vc.eval sigversion stack (payToPQKeyHash program) = .ok stack' ↔
      stack' = program :: [2] :: stack := by
  have hpush : Pushable vc.flags stack.length [[2], program] := by
    refine ⟨?_, ?_, .inr ?_⟩
    · simp [hlen, maxScriptElementSize]
    · intro _ hmem
      rcases mem_cons.mp hmem with h | h
      · exact absurd h (by decide)
      · obtain rfl := mem_singleton.mp h
        cases hlen
    · simp only [length_cons, length_nil]
      omega
  have hsize : (pushAll [[2], program]).length ≤ maxScriptSize := by
    rw [← payToPQKeyHash_eq_pushAll hlen, payToPQKeyHash_eq hlen]
    simp [hlen, maxScriptSize]
  rw [eval_eq_ok_iff, payToPQKeyHash_eq_pushAll hlen, evalScript_pushAll_iff]
  exact ⟨fun h => h.2.2, fun h => ⟨hsize, hpush, h⟩⟩

theorem verifyScriptHash_of_not {stackCopy : List Bytes}
    (h : scriptPubKey.isPayToScriptHash = false) :
    vc.verifyScriptHash scriptSig scriptPubKey witness stackCopy before = .ok before := by
  unfold verifyScriptHash
  rw [if_neg (by simp [h])]

theorem verifyEnd_of_witness (hstack : after.stack.length = 1) (hwit : after.hadWitness = true) :
    vc.verifyEnd witness after = .ok () := by
  rw [verifyEnd, require_bind_eq_ok_iff, require_eq_ok_iff]
  exact ⟨fun _ => hstack, fun _ hno => by rw [hwit] at hno; cases hno⟩

/-- An input that spends a post-quantum key hash is valid exactly if its `scriptSig` is empty,
its witness is a key with this hash and a signature of it, and the hash counts as true. -/
theorem verifyScript_payToPQKeyHash_iff (hlen : program.length = 20)
    (hflag : .witness ∈ vc.flags) :
    vc.verifyScript scriptSig (payToPQKeyHash program) witness = .ok () ↔
      scriptSig = [] ∧ castToBool program = true ∧ vc.PQSpend program witness := by
  have hprog := isWitnessProgram_payToPQKeyHash hlen
  have hnot := isPayToScriptHash_payToPQKeyHash hlen
  unfold verifyScript
  constructor
  · intro h
    obtain ⟨-, h⟩ := require_bind_eq_ok_iff.mp h
    obtain ⟨stackCopy, hcopy, h⟩ := bind_eq_ok_iff.mp h
    obtain ⟨stack, htrue, h⟩ := bind_eq_ok_iff.mp h
    obtain ⟨bare, hbare, -⟩ := bind_eq_ok_iff.mp h
    obtain ⟨rfl, hver, -⟩ := (verifyProgram_eq_ok_iff hflag hprog).mp hbare
    rw [verifyWitnessProgram_two hlen, verifyPQKeyHash_eq_ok_iff] at hver
    obtain ⟨⟩ := hcopy
    obtain ⟨hstack, htop⟩ := evalTrue_eq_ok_iff.mp htrue
    obtain rfl := (eval_payToPQKeyHash_iff hlen (by simp)).mp hstack
    exact ⟨rfl, by simpa using htop, hver⟩
  · rintro ⟨rfl, hbool, hspend⟩
    have hstack : vc.eval .base [] (payToPQKeyHash program) = .ok [program, [2]] :=
      (eval_payToPQKeyHash_iff hlen (by simp)).mpr rfl
    rw [require_bind_eq_ok_iff]
    refine ⟨fun _ => rfl, bind_eq_ok_iff.mpr ⟨[], rfl, bind_eq_ok_iff.mpr ⟨_,
      evalTrue_eq_ok_iff.mpr ⟨hstack, by simpa using hbool⟩, bind_eq_ok_iff.mpr ⟨_,
      (verifyProgram_eq_ok_iff hflag hprog).mpr ⟨rfl, ?_, rfl⟩, ?_⟩⟩⟩⟩
    · rw [verifyWitnessProgram_two hlen]
      exact verifyPQKeyHash_eq_ok_iff.mpr hspend
    · rw [verifyScriptHash_of_not hnot]
      exact verifyEnd_of_witness (length_bottom (by simp)) rfl

end VerifyContext

end RgmNode
