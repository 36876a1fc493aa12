import RgmNode.Script.Verify

/-!
# Script hashes

How `VerifyScript` treats `OP_HASH160 <hash> OP_EQUAL`: the script that was hashed comes from the
input and is run in its turn.
-/

namespace RgmNode

open Checks CScript List

namespace VerifyContext

variable {vc : VerifyContext} {scriptSig redeem : CScript} {witness stack out : List Bytes}
  {hash : Uint160} {program : Bytes}

/-! ## 1. The output script -/

/-- The three instructions, run on a stack with an element on top. -/
theorem evalFrom_payToScriptHash_iff {ctx : EvalContext} {below : List Bytes} {code : CScript}
    {m : Machine} :
    evalFrom ctx (payToScriptHash hash) ⟨redeem :: below, [], [], 0, code⟩ = .ok m ↔
      below.length ≤ 998 ∧
        m = ⟨boolBytes (ctx.cr.hash160 redeem = hash) :: below, [], [], 2, code⟩ := by
  have hscript : payToScriptHash hash =
      Opcode.hash160 :: (pushOne hash.bytes ++ [Opcode.equal]) := by
    rw [pushOne_eq_pushData (by simp), payToScriptHash]
    simp
  have heq : ((ctx.cr.hash160 redeem).bytes = hash.bytes) ↔ ctx.cr.hash160 redeem = hash :=
    ⟨Uint160.bytes_injective, congrArg Uint160.bytes⟩
  have hne81 : hash.bytes ≠ [0x81] := fun h => by
    have := congrArg length h
    simp at this
  rw [hscript, evalFrom_op rfl (by decide) (by decide) (show 0 < 201 by decide), resume_eq_ok_iff]
  simp only [show instruction Opcode.hash160 = .hash .hash160 from rfl, execute, HashOp.apply,
    Machine.withStack, Except.ok.injEq, exists_eq_left']
  rw [evalFrom_pushOne rfl (by simp), resume_pushResult_iff,
    evalFrom_op rfl (by decide) (by decide) (show 1 < 201 by decide), resume_nil_eq_ok_iff]
  simp only [show instruction Opcode.equal = .equal false from rfl, execute, Machine.push,
    Machine.withStack, pushBool, heq]
  constructor
  · rintro ⟨-, ⟨-, -, hroom⟩, ⟨⟩, -⟩
    simp only [length_cons, length_nil] at hroom
    exact ⟨by omega, rfl⟩
  · rintro ⟨hroom, rfl⟩
    refine ⟨?_, ⟨by simp [maxScriptElementSize], fun _ => hne81, ?_⟩, rfl, ?_⟩ <;>
    · simp
      omega

/-- The output script compares the hash of the top element. -/
theorem evalTrue_payToScriptHash_iff :
    vc.evalTrue stack (payToScriptHash hash) = .ok out ↔
      ∃ redeem below, stack = redeem :: below ∧ vc.cr.hash160 redeem = hash ∧
        below.length ≤ 998 ∧ out = [1] :: below := by
  have hsize : (payToScriptHash hash).length ≤ maxScriptSize := by
    simp [payToScriptHash_eq, maxScriptSize]
  rw [evalTrue_eq_ok_iff, eval_eq_ok_iff, evalScript_eq_ok_iff, and_iff_right hsize]
  cases stack with
  | nil =>
    have hfail : ∀ ctx m, evalFrom ctx (payToScriptHash hash)
        ⟨[], [], [], 0, payToScriptHash hash⟩ ≠ .ok m := by
      intro ctx m
      nth_rewrite 1 [payToScriptHash_eq]
      rintro ⟨_, ⟨⟩, -⟩
    constructor
    · rintro ⟨⟨m, hrun, -⟩, -⟩
      exact absurd hrun (hfail _ m)
    · rintro ⟨_, _, ⟨⟩, -⟩
  | cons redeem below =>
    simp only [evalFrom_payToScriptHash_iff]
    constructor
    · rintro ⟨⟨m, ⟨hroom, rfl⟩, -, rfl⟩, htrue⟩
      have hhash : vc.cr.hash160 redeem = hash := by
        by_contra hne
        simp [hne, boolBytes, castToBool] at htrue
      exact ⟨redeem, below, rfl, hhash, hroom, by simp [hhash, boolBytes]⟩
    · rintro ⟨_, _, ⟨⟩, hhash, hroom, rfl⟩
      exact ⟨⟨_, ⟨hroom, rfl⟩, rfl, by simp [hhash, boolBytes]⟩, rfl⟩

/-! ## 2. The script that was hashed -/

/-- An input that spends a script hash is valid exactly if it only pushes, the last push is a
script with this hash, and that script accepts what was pushed before it. -/
theorem verifyScript_payToScriptHash_iff (hp2sh : .p2sh ∈ vc.flags) :
    vc.verifyScript scriptSig (payToScriptHash hash) witness = .ok () ↔
      scriptSig.isPushOnly = true ∧ ∃ redeem below stack after,
        vc.eval .base [] scriptSig = .ok (redeem :: below) ∧ vc.cr.hash160 redeem = hash ∧
        below.length ≤ 998 ∧ vc.evalTrue below redeem = .ok stack ∧
        vc.verifyProgram redeem scriptSig (pushData redeem) .witnessMalleatedP2SH witness
          ⟨stack, false⟩ = .ok after ∧
        vc.verifyEnd witness after = .ok () := by
  have hbare : ∀ before, vc.verifyProgram (payToScriptHash hash) scriptSig []
      .witnessMalleated witness before = .ok before := fun before => by
    simp [verifyProgram, isWitnessProgram_payToScriptHash]
  have hhash : ∀ redeem below before, vc.verifyScriptHash scriptSig (payToScriptHash hash)
      witness (redeem :: below) before = (do
        require (scriptSig.isPushOnly = true) .sigPushOnly
        let stack ← vc.evalTrue below redeem
        vc.verifyProgram redeem scriptSig (pushData redeem) .witnessMalleatedP2SH
          witness ⟨stack, before.hadWitness⟩) := fun redeem below before => by
    rw [verifyScriptHash, if_pos ⟨hp2sh, isPayToScriptHash_payToScriptHash hash⟩]
  constructor
  · intro h
    obtain ⟨-, h⟩ := require_bind_eq_ok_iff.mp h
    obtain ⟨stackCopy, hcopy, h⟩ := bind_eq_ok_iff.mp h
    obtain ⟨stack, htrue, h⟩ := bind_eq_ok_iff.mp h
    obtain ⟨redeem, below, rfl, hmatch, hroom, -⟩ := evalTrue_payToScriptHash_iff.mp htrue
    obtain ⟨bare, hb, h⟩ := bind_eq_ok_iff.mp h
    rw [hbare, Except.ok.injEq] at hb
    obtain rfl := hb
    obtain ⟨after, hafter, hend⟩ := bind_eq_ok_iff.mp h
    rw [hhash] at hafter
    obtain ⟨hpush, hafter⟩ := require_bind_eq_ok_iff.mp hafter
    obtain ⟨stack', hrun, hprog⟩ := bind_eq_ok_iff.mp hafter
    exact ⟨hpush, redeem, below, stack', after, hcopy, hmatch, hroom, hrun, hprog, hend⟩
  · rintro ⟨hpush, redeem, below, stack', after, hcopy, hmatch, hroom, hrun, hprog, hend⟩
    have htrue : vc.evalTrue (redeem :: below) (payToScriptHash hash) =
        .ok ([1] :: below) := evalTrue_payToScriptHash_iff.mpr ⟨_, _, rfl, hmatch, hroom, rfl⟩
    refine require_bind_eq_ok_iff.mpr ⟨fun _ => hpush, bind_eq_ok_iff.mpr ⟨_, hcopy,
      bind_eq_ok_iff.mpr ⟨_, htrue, bind_eq_ok_iff.mpr ⟨_, hbare _,
      bind_eq_ok_iff.mpr ⟨after, ?_, hend⟩⟩⟩⟩⟩
    rw [hhash]
    exact require_bind_eq_ok_iff.mpr ⟨hpush, bind_eq_ok_iff.mpr ⟨stack', hrun, hprog⟩⟩

/-- The end of a run with a witness program does not look at the witness. -/
theorem verifyEnd_congr {other : List Bytes} (h : vc.verifyEnd other ⟨stack, true⟩ = .ok ()) :
    vc.verifyEnd witness ⟨stack, true⟩ = .ok () := by
  simpa [verifyEnd] using h

section Program

variable {version : Nat} {other : List Bytes} (hwit : .witness ∈ vc.flags)

include hwit

/-- With a `scriptSig` that has been accepted, the witness is all that is left to check. -/
theorem verifyScript_program_iff {scriptPubKey : CScript}
    (hprog : scriptPubKey.isWitnessProgram = some (version, program))
    (hnot : scriptPubKey.isPayToScriptHash = false)
    (h : vc.verifyScript scriptSig scriptPubKey other = .ok ()) :
    vc.verifyScript scriptSig scriptPubKey witness = .ok () ↔
      vc.verifyWitnessProgram witness version program = .ok () := by
  obtain ⟨hpush, h⟩ := require_bind_eq_ok_iff.mp h
  obtain ⟨stackCopy, hcopy, h⟩ := bind_eq_ok_iff.mp h
  obtain ⟨stack, htrue, h⟩ := bind_eq_ok_iff.mp h
  obtain ⟨bare, hbare, h⟩ := bind_eq_ok_iff.mp h
  obtain ⟨hsig, -, rfl⟩ := (verifyProgram_eq_ok_iff hwit hprog).mp hbare
  obtain ⟨after, hafter, hend⟩ := bind_eq_ok_iff.mp h
  rw [verifyScriptHash_of_not hnot, Except.ok.injEq] at hafter
  subst hafter
  unfold verifyScript
  rw [require_bind_eq_ok_iff, and_iff_right hpush, hcopy]
  show (vc.evalTrue stackCopy scriptPubKey >>= _) = _ ↔ _
  rw [htrue]
  show (vc.verifyProgram _ _ _ _ _ _ >>= _) = _ ↔ _
  rw [bind_eq_ok_iff]
  simp only [verifyProgram_eq_ok_iff hwit hprog, verifyScriptHash_of_not hnot]
  constructor
  · rintro ⟨_, ⟨-, hver, -⟩, -⟩
    exact hver
  · intro hver
    exact ⟨_, ⟨hsig, hver, rfl⟩, verifyEnd_congr hend⟩

/-- So it is where the program is the script of a script hash. -/
theorem verifyScript_nested_iff {below : List Bytes} (hp2sh : .p2sh ∈ vc.flags)
    (hcopy : vc.eval .base [] scriptSig = .ok (redeem :: below))
    (hprog : redeem.isWitnessProgram = some (version, program))
    (h : vc.verifyScript scriptSig (payToScriptHash hash) other = .ok ()) :
    vc.verifyScript scriptSig (payToScriptHash hash) witness = .ok () ↔
      vc.verifyWitnessProgram witness version program = .ok () := by
  rw [verifyScript_payToScriptHash_iff hp2sh] at h ⊢
  obtain ⟨hpush, _, _, stack, after, hcopy', hhash, hroom, hrun, hver, hend⟩ := h
  rw [hcopy, Except.ok.injEq] at hcopy'
  obtain ⟨rfl, rfl⟩ := List.cons.inj hcopy'
  obtain ⟨hsig, -, rfl⟩ := (verifyProgram_eq_ok_iff hwit hprog).mp hver
  constructor
  · rintro ⟨-, _, _, _, _, hcopy', -, -, -, hver, -⟩
    rw [hcopy, Except.ok.injEq] at hcopy'
    obtain ⟨rfl, rfl⟩ := List.cons.inj hcopy'
    exact ((verifyProgram_eq_ok_iff hwit hprog).mp hver).2.1
  · intro hver
    exact ⟨hpush, _, _, stack, _, hcopy, hhash, hroom, hrun,
      (verifyProgram_eq_ok_iff hwit hprog).mpr ⟨hsig, hver, rfl⟩, verifyEnd_congr hend⟩

end Program

theorem pushData_eq_pushAll {b : Bytes} (h2 : 2 ≤ b.length) : pushData b = pushAll [b] := by
  simp [pushAll, pushOne_eq_pushData h2]

theorem eval_pushData {b : Bytes} (h2 : 2 ≤ b.length) (hsize : b.length ≤ maxScriptElementSize) :
    vc.eval .base [] (pushData b) = .ok [b] := by
  have hmax : b.length ≤ 520 := hsize
  have hlength : (pushData b).length ≤ maxScriptSize := by
    have := length_pushData_le b
    show (pushData b).length ≤ 10000
    omega
  have hpush : Pushable vc.flags ([] : List Bytes).length [b] := by
    refine ⟨by simpa using hsize, fun _ hmem => ?_, .inr (by simp)⟩
    obtain rfl := List.mem_singleton.mp hmem
    exact absurd h2 (by decide)
  rw [pushData_eq_pushAll h2] at hlength ⊢
  rw [eval_eq_ok_iff, evalScript_pushAll_iff]
  exact ⟨hlength, hpush, rfl⟩

/-- The script is a witness program of version 2: the rest is as for the program itself. -/
theorem verifyScript_scriptHash_pqKeyHash_iff (hlen : program.length = 20)
    (hp2sh : .p2sh ∈ vc.flags) (hwit : .witness ∈ vc.flags)
    (hhash : vc.cr.hash160 (payToPQKeyHash program) = hash) :
    vc.verifyScript (pushData (payToPQKeyHash program))
        (payToScriptHash hash) witness = .ok () ↔
      castToBool program = true ∧ vc.PQSpend program witness := by
  have hprog := isWitnessProgram_payToPQKeyHash hlen
  have hredeem : (payToPQKeyHash program).length = 22 := by
    rw [payToPQKeyHash_eq hlen]
    simp [hlen]
  have heval : vc.eval .base [] (pushData (payToPQKeyHash program)) =
      .ok [payToPQKeyHash program] :=
    eval_pushData (by omega) (by rw [hredeem]; decide)
  rw [verifyScript_payToScriptHash_iff hp2sh]
  constructor
  · rintro ⟨-, redeem, below, stack, after, hcopy, -, -, hrun, hver, -⟩
    rw [heval, Except.ok.injEq] at hcopy
    obtain ⟨rfl, rfl⟩ := List.cons.inj hcopy
    obtain ⟨hstack, htrue⟩ := evalTrue_eq_ok_iff.mp hrun
    obtain rfl := (eval_payToPQKeyHash_iff hlen (by simp)).mp hstack
    obtain ⟨-, hspend, -⟩ := (verifyProgram_eq_ok_iff hwit hprog).mp hver
    rw [verifyWitnessProgram_two hlen, verifyPQKeyHash_eq_ok_iff] at hspend
    exact ⟨by simpa using htrue, hspend⟩
  · rintro ⟨hbool, hspend⟩
    have hrun : vc.evalTrue [] (payToPQKeyHash program) = .ok [program, [2]] :=
      evalTrue_eq_ok_iff.mpr
        ⟨(eval_payToPQKeyHash_iff hlen (by simp)).mpr rfl, by simpa using hbool⟩
    have hver : vc.verifyWitnessProgram witness 2 program = .ok () := by
      rw [verifyWitnessProgram_two hlen]
      exact verifyPQKeyHash_eq_ok_iff.mpr hspend
    have hpushOnly : (pushData (payToPQKeyHash program)).isPushOnly = true := by
      rw [pushData_eq_pushAll (by omega)]
      exact isPushOnly_pushAll (by simp [hredeem])
    exact ⟨hpushOnly, _, [], _, _, heval, hhash, by simp, hrun,
      (verifyProgram_eq_ok_iff hwit hprog).mpr ⟨rfl, hver, rfl⟩,
      verifyEnd_of_witness (length_bottom (by simp)) rfl⟩

/-! ## 3. Inputs that only push -/

section Elements

variable {v : SigVersion} {script : CScript} {elements : List Bytes}

/-- Run on the elements of an input, a script leaves one true element. -/
def Accepts (vc : VerifyContext) (v : SigVersion) (script : CScript) (elements : List Bytes) : Prop :=
  ∃ out, vc.eval v elements.reverse script = .ok out ∧ out.length = 1 ∧
    out.head?.any castToBool = true

theorem of_eval_pushAll (h : vc.eval .base [] (pushAll elements) = .ok out) :
    elements.reverse = out ∧ (pushAll elements).isPushOnly = true := by
  obtain ⟨-, hpush, rfl⟩ := evalScript_pushAll_iff.mp (eval_eq_ok_iff.mp h)
  exact ⟨(append_nil _).symm,
    isPushOnly_pushAll fun v hv => (hpush.items v hv).trans (by decide)⟩

theorem verifyWitnessProgram_zero_iff (hlen : program.length = 32) :
    vc.verifyWitnessProgram (elements ++ [script]) 0 program = .ok () ↔
      (vc.cr.sha256 script).bytes = program ∧
        (∀ v ∈ elements, v.length ≤ maxScriptElementSize) ∧ vc.Accepts .witnessV0 script elements := by
  rw [verifyWitnessProgram, if_pos rfl, if_pos hlen, getLast?_concat]
  simp only [dropLast_concat, runWitnessScript, bind_eq_ok_iff, require_eq_ok_iff, exists_const,
    Accepts]

section

variable (hclean : .cleanStack ∈ vc.flags) (hprog : script.isWitnessProgram = none)

include hclean hprog

/-- A script that is no witness program is run, and nothing is left to check. -/
theorem accepts_iff_verifyProgram (scriptSig expected : CScript) (malleated : ScriptError) :
    vc.Accepts .base script elements ↔
      ∃ stack after, vc.evalTrue elements.reverse script = .ok stack ∧
        vc.verifyProgram script scriptSig expected malleated [] ⟨stack, false⟩ = .ok after ∧
        vc.verifyEnd [] after = .ok () := by
  simp only [verifyProgram, hprog, ite_self, Except.ok.injEq, evalTrue_eq_ok_iff, verifyEnd,
    require_bind_eq_ok_iff, require_eq_ok_iff, Accepts]
  constructor
  · rintro ⟨stack, heval, hone, htrue⟩
    exact ⟨stack, _, ⟨heval, htrue⟩, rfl, fun _ => hone, fun _ _ => trivial⟩
  · rintro ⟨stack, _, ⟨heval, htrue⟩, rfl, hone, -⟩
    exact ⟨stack, heval, hone hclean, htrue⟩

/-- An output that is neither a witness program nor a script hash. -/
theorem verifyScript_pushAll_iff (hnot : script.isPayToScriptHash = false) :
    vc.verifyScript (pushAll elements) script [] = .ok () ↔
      vc.eval .base [] (pushAll elements) = .ok elements.reverse ∧
        vc.Accepts .base script elements := by
  rw [accepts_iff_verifyProgram hclean hprog (pushAll elements) [] .witnessMalleated]
  simp only [verifyScript, bind_eq_ok_iff, require_eq_ok_iff, exists_const,
    verifyScriptHash_of_not hnot, Except.ok.injEq, exists_eq_left']
  constructor
  · rintro ⟨-, copy, hcopy, stack, hstack, after, hrest⟩
    obtain ⟨rfl, -⟩ := of_eval_pushAll hcopy
    exact ⟨hcopy, stack, after, hstack, hrest⟩
  · rintro ⟨hcopy, stack, after, hstack, hrest⟩
    exact ⟨fun _ => (of_eval_pushAll hcopy).2, _, hcopy, stack, hstack, after, hrest⟩

theorem verifyScript_pushAll_scriptHash_iff (hp2sh : .p2sh ∈ vc.flags) :
    vc.verifyScript (pushAll (elements ++ [script])) (payToScriptHash hash) [] = .ok () ↔
      vc.eval .base [] (pushAll (elements ++ [script])) = .ok (elements ++ [script]).reverse ∧
        vc.cr.hash160 script = hash ∧ elements.length ≤ 998 ∧ vc.Accepts .base script elements := by
  rw [verifyScript_payToScriptHash_iff hp2sh, accepts_iff_verifyProgram hclean hprog
    (pushAll (elements ++ [script])) (pushData script) .witnessMalleatedP2SH, reverse_concat,
    ← length_reverse]
  constructor
  · rintro ⟨-, top, below, stack, after, hcopy, hhash, hroom, hrest⟩
    have hpushed := (of_eval_pushAll hcopy).1
    rw [reverse_concat] at hpushed
    obtain ⟨rfl, rfl⟩ := List.cons.inj hpushed
    exact ⟨hcopy, hhash, hroom, stack, after, hrest⟩
  · rintro ⟨hcopy, hhash, hroom, stack, after, hrest⟩
    exact ⟨(of_eval_pushAll hcopy).2, script, _, stack, after, hcopy, hhash, hroom, hrest⟩

end

end Elements

end VerifyContext

end RgmNode
