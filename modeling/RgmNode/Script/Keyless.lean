import RgmNode.Script.ScriptHash
import RgmNode.Script.Sign

/-!
# Signing without keys

The one case that is not refused while signing is a post-quantum program inside `P2WSH`: the
witness is put together without a key, and verification rejects it.
-/

namespace RgmNode

open Checks Matching List Bool CScript

namespace VerifyContext

variable {vc : VerifyContext} {scriptSig script : CScript} {witness : List Bytes}

theorem verifyWitnessProgram_of_verifyScript {version : Nat} {program : Bytes}
    (hflag : .witness ∈ vc.flags) (hprog : script.isWitnessProgram = some (version, program))
    (h : vc.verifyScript scriptSig script witness = .ok ()) :
    vc.verifyWitnessProgram witness version program = .ok () := by
  obtain ⟨-, h⟩ := require_bind_eq_ok_iff.mp h
  obtain ⟨stackCopy, -, h⟩ := bind_eq_ok_iff.mp h
  obtain ⟨stack, -, h⟩ := bind_eq_ok_iff.mp h
  obtain ⟨bare, hbare, -⟩ := bind_eq_ok_iff.mp h
  exact ((verifyProgram_eq_ok_iff hflag hprog).mp hbare).2.1

/-- A witness program that an input pushes for a script hash is verified. -/
theorem verifyWitnessProgram_of_scriptHash {version : Nat} {program : Bytes} {hash : Uint160}
    (hp2sh : .p2sh ∈ vc.flags) (hflag : .witness ∈ vc.flags)
    (hprog : script.isWitnessProgram = some (version, program))
    (h : vc.verifyScript (pushAll [script]) (payToScriptHash hash) witness = .ok ()) :
    vc.verifyWitnessProgram witness version program = .ok () := by
  obtain ⟨-, redeem, below, stack, after, hcopy, -, -, -, hver, -⟩ :=
    (verifyScript_payToScriptHash_iff hp2sh).mp h
  rw [eval_eq_ok_iff, evalScript_pushAll_iff] at hcopy
  obtain ⟨-, -, hstack⟩ := hcopy
  obtain ⟨rfl, -⟩ := cons.inj hstack
  exact ((verifyProgram_eq_ok_iff hflag hprog).mp hver).2.1

/-- A post-quantum program that is run as a witness script leaves more than one element. -/
theorem not_verifyWitnessProgram_pqKeyHash {program hash x : Bytes} (hlen : program.length = 20)
    (hhash : hash.length = 32) :
    vc.verifyWitnessProgram [x, payToPQKeyHash program] 0 hash ≠ .ok () := by
  intro h
  simp only [verifyWitnessProgram, hhash, if_true, getLast?_cons_cons,
    getLast?_singleton, dropLast_cons_cons, dropLast_singleton] at h
  obtain ⟨-, h⟩ := require_bind_eq_ok_iff.mp h
  obtain ⟨-, h⟩ := require_bind_eq_ok_iff.mp h
  obtain ⟨stack, hstack, h⟩ := bind_eq_ok_iff.mp h
  obtain rfl := (eval_payToPQKeyHash_iff hlen (by simp)).mp hstack
  have hone := (require_eq_ok_iff.mp h).1
  simp at hone

end VerifyContext

namespace SignatureCreator

variable {c : SignatureCreator} {script : CScript} {sigversion : SigVersion}

section NoKeys

variable (hsig : ∀ address code v, c.createSig address code v = none)

include hsig

theorem signN_of_no_keys {needed : Nat} {keys : List Bytes} :
    (c.signN script sigversion needed keys).length = 0 := by
  rw [signN, length_collect]
  simp [hsig]

/-- Without a signature only the types remain that reveal a script or a hash. -/
theorem type_of_no_keys (h : (c.signStep script sigversion).solved = true) :
    ∃ ret t, c.signStep script sigversion = ⟨true, ret, some t⟩ ∧
      (solver script).typeRet = some t ∧
      (t = .scriptHash ∨ t = .witnessV0KeyHash ∨ t = .witnessV0ScriptHash ∨
        t = .witnessV2PQKeyHash) := by
  obtain ⟨t, vSolutions, hsolver, hstep⟩ := signStep_of_solved h
  rw [hstep] at h ⊢
  rw [hsolver]
  cases t with
  | pubKey | pubKeyHash => simp [signType, hsig, stepOf] at h
  | multiSig =>
    simp only [signType, decide_eq_true_eq, signN_of_no_keys hsig] at h
    exact absurd (one_le_of_solver_multiSig hsolver) (by rw [← h]; decide)
  | scriptHash =>
    obtain ⟨ret, -, hret⟩ := stepOf_solved h
    exact ⟨ret, _, hret, rfl, .inl rfl⟩
  | witnessV0KeyHash => exact ⟨_, _, rfl, rfl, .inr (.inl rfl)⟩
  | witnessV0ScriptHash =>
    obtain ⟨ret, -, hret⟩ := stepOf_solved h
    exact ⟨ret, _, hret, rfl, .inr (.inr (.inl rfl))⟩
  | witnessV2PQKeyHash => exact ⟨_, _, rfl, rfl, .inr (.inr (.inr rfl))⟩
  | nonStandard | nullData | witnessUnknown => cases h

/-- The step for a key hash does not sign the key's script. -/
theorem signStep_payToPubkeyHash_of_no_keys {hash : Bytes} (hlen : hash.length = 20) :
    (c.signStep (payToPubkeyHash hash) sigversion).solved = false := by
  rw [eq_false_iff]
  intro h
  obtain ⟨ret, t, -, htype, ht⟩ := type_of_no_keys hsig h
  rw [solver_payToPubkeyHash hlen] at htype
  cases htype
  simp at ht

variable (hpq : ∀ hash, c.keystore.getPQKey hash = none)

include hpq

/-- The witness that is put together without keys: that of `P2WSH` around a post-quantum
program. -/
theorem signWitness_of_no_keys {step : SignResult} {ret : List Bytes} {t : TxnOutType}
    (hstep : c.signStep script .base = ⟨true, ret, some t⟩) (hbase : step = ⟨true, ret, some t⟩)
    (htype : (solver script).typeRet = some t)
    (ht : t = .witnessV0KeyHash ∨ t = .witnessV0ScriptHash ∨ t = .witnessV2PQKeyHash)
    (h : (c.signWitness step).1.solved = true) :
    ∃ hash program x : Bytes, hash.length = 32 ∧ program.length = 20 ∧
      script.isWitnessProgram = some (0, hash) ∧
      (c.signWitness step).1.ret = [] ∧
      (c.signWitness step).2 = [x, payToPQKeyHash program] := by
  subst hbase
  rcases ht with rfl | rfl | rfl
  · -- a key hash: its script is not signed
    obtain ⟨program, hlen, hsolver⟩ := solver_of_keyHash_type htype
    have hret : ret = [program] := by
      have hsigned := signStep_of_solver (c := c) (v := .base) hsolver
      rw [hstep] at hsigned
      exact congrArg SignResult.ret hsigned
    simp only [signWitness, hret, headD_cons] at h
    rw [signStep_payToPubkeyHash_of_no_keys hsig hlen] at h
    cases h
  · -- a script hash: its script has to be a post-quantum program
    obtain ⟨hash, hlen, hprog, -⟩ := solver_of_witnessScriptHash_type htype
    simp only [signWitness, and_eq_true, decide_eq_true_eq] at h
    obtain ⟨inner, t', hinner, htype', ht'⟩ := type_of_no_keys hsig h.1
    rw [hinner] at h
    have hnot := h.2
    rcases ht' with rfl | rfl | rfl | rfl
    · simp [nestedTypes] at hnot
    · simp [nestedTypes] at hnot
    · simp [nestedTypes] at hnot
    · obtain ⟨program, hplen, hscript⟩ := solver_pqKeyHash_iff.mp htype'
      refine ⟨hash, program, program, hlen, hplen, hprog, rfl, ?_⟩
      have hret : inner = [program] := by
        have hsolver := solver_payToPQKeyHash hplen
        rw [← hscript] at hsolver
        have hsigned := signStep_of_solver (c := c) (v := .witnessV0) hsolver
        rw [hinner] at hsigned
        exact congrArg SignResult.ret hsigned
      simp only [signWitness, hinner, hret, singleton_append]
      rw [hscript]
  · -- a post-quantum key hash: there is no key
    simp [signWitness, pqWitness, hpq] at h

theorem not_verify_of_no_keys {step : SignResult} {v : VerifyContext}
    (hbase : step.solved = true → step = c.signStep script .base)
    (ht : step.solved = true → step.whichType ≠ some .scriptHash)
    (h : (c.signWitness step).1.solved = true) :
    (c.signWitness step).1.ret = [] ∧
      ∃ version program, script.isWitnessProgram = some (version, program) ∧
        v.verifyWitnessProgram (c.signWitness step).2 version program ≠ .ok () := by
  have hsolved := solved_of_signWitness h
  have hstep := hbase hsolved
  obtain ⟨ret, t, hresult, htype, ht'⟩ := type_of_no_keys hsig (hstep ▸ hsolved)
  have hne : t ≠ .scriptHash := by
    rintro rfl
    exact ht hsolved (by rw [hstep, hresult])
  obtain ⟨hash, program, x, hlen, hplen, hprog, hret, hwit⟩ :=
    signWitness_of_no_keys hsig hpq hresult (hstep.trans hresult) htype
      (ht'.resolve_left hne) h
  refine ⟨hret, 0, hash, hprog, ?_⟩
  rw [hwit]
  exact VerifyContext.not_verifyWitnessProgram_pqKeyHash hplen hlen

/-- What is put together without keys is rejected when it is verified. -/
theorem not_complete_of_no_keys {data : SignatureData}
    (h : c.solve script = (true, data)) : data.complete c.cr c.sg c.checker script = false := by
  rw [eq_false_iff]
  intro hcomplete
  rw [SignatureData.complete_iff] at hcomplete
  have hp2sh : .p2sh ∈ (SignatureData.context c.cr c.sg c.checker).flags := by
    show _ ∈ standardScriptVerifyFlags
    decide
  have hwitness : .witness ∈ (SignatureData.context c.cr c.sg c.checker).flags := by
    show _ ∈ standardScriptVerifyFlags
    decide
  unfold solve at h
  dsimp only at h
  split at h
  · -- a script hash: the step is that of the script it reveals
    next houter =>
    rw [and_eq_true, decide_eq_true_eq] at houter
    obtain ⟨ret, t, hresult, htype, -⟩ := type_of_no_keys hsig houter.1
    obtain rfl : t = .scriptHash := by
      rw [hresult] at houter
      exact Option.some.inj houter.2
    obtain ⟨hash, rfl⟩ := solver_scriptHash_iff.mp htype
    generalize (c.signStep (payToScriptHash hash) .base).ret.headD [] = subscript at h
    simp only [Prod.mk.injEq] at h
    obtain ⟨hsolved, rfl⟩ := h
    obtain ⟨hret, version, program, hprog, hfail⟩ := not_verify_of_no_keys hsig hpq
      eq_of_solved_and
      (fun hs => decide_eq_true_iff.mp (and_eq_true_iff.mp hs).2) hsolved
    rw [hret] at hcomplete
    exact hfail (VerifyContext.verifyWitnessProgram_of_scriptHash hp2sh hwitness hprog hcomplete)
  · next houter =>
    simp only [Prod.mk.injEq] at h
    obtain ⟨hsolved, rfl⟩ := h
    obtain ⟨-, version, program, hprog, hfail⟩ := not_verify_of_no_keys hsig hpq
      (fun _ => rfl)
      (fun hs htype => houter (by rw [hs, htype]; rfl)) hsolved
    exact hfail (VerifyContext.verifyWitnessProgram_of_verifyScript hwitness hprog hcomplete)

/-- **Nothing is signed without keys**: if the store gives out no key of either kind, no output
can be spent with what `ProduceSignature` returns. -/
theorem produceSignature_of_no_keys : (c.produceSignature script).1 = false := by
  rw [eq_false_iff]
  intro h
  have hpair : c.produceSignature script = (true, (c.produceSignature script).2) := by
    rw [← h]
  obtain ⟨hsolve, hcomplete⟩ := produceSignature_eq_true_iff.mp hpair
  rw [not_complete_of_no_keys hsig hpq hsolve] at hcomplete
  cases hcomplete

end NoKeys

end SignatureCreator

end RgmNode
