import RgmNode.Script.SignPQ
import RgmNode.Validation.PostQuantum
import RgmNode.Validation.TxInputs

/-!
# The gate for post-quantum spends

`CheckTxInputs` rejects a spend of a post-quantum output below `nQuantumSafeHeight`.  It looks at
the type of the output that is spent.  `VerifyScript` also verifies a post-quantum program that a
script hash stands for and that the input reveals.
-/

namespace RgmNode

open Checks CScript

/-! ## 1. Calls of `VerifyWitnessProgram` -/

namespace VerifyContext

variable (vc : VerifyContext) (scriptSig scriptPubKey : CScript) (witness : List Bytes)

/-- `VerifyScript` comes to its call of `VerifyWitnessProgram` for the output itself, or to the
one for the script that the hash in the output stands for. -/
inductive Calls : Nat → Bytes → Prop
  | bare {stackCopy stack : List Bytes} {version : Nat} {program : Bytes} :
      (.sigPushOnly ∈ vc.flags → scriptSig.isPushOnly = true) →
      vc.eval .base [] scriptSig = .ok stackCopy →
      vc.evalTrue stackCopy scriptPubKey = .ok stack →
      .witness ∈ vc.flags → scriptPubKey.isWitnessProgram = some (version, program) →
      scriptSig = [] → Calls version program
  | scriptHash {pubKey2 : CScript} {below stack stack' : List Bytes} {bare : Progress}
      {version : Nat} {program : Bytes} :
      (.sigPushOnly ∈ vc.flags → scriptSig.isPushOnly = true) →
      vc.eval .base [] scriptSig = .ok (pubKey2 :: below) →
      vc.evalTrue (pubKey2 :: below) scriptPubKey = .ok stack →
      vc.verifyProgram scriptPubKey scriptSig [] .witnessMalleated witness ⟨stack, false⟩ =
        .ok bare →
      .p2sh ∈ vc.flags → scriptPubKey.isPayToScriptHash = true → scriptSig.isPushOnly = true →
      vc.evalTrue below pubKey2 = .ok stack' →
      .witness ∈ vc.flags → pubKey2.isWitnessProgram = some (version, program) →
      scriptSig = pushData pubKey2 → Calls version program

variable {vc scriptSig scriptPubKey witness}

/-- A post-quantum program is called for the output itself or for a script hash. -/
theorem Calls.shape {version : Nat} {program : Bytes}
    (h : vc.Calls scriptSig scriptPubKey witness version program) :
    scriptPubKey.isWitnessProgram = some (version, program) ∨
      scriptPubKey.isPayToScriptHash = true := by
  cases h with
  | bare _ _ _ _ hprog _ => exact .inl hprog
  | scriptHash _ _ _ _ _ hshape => exact .inr hshape

/-- A program that is called and fails makes `VerifyScript` fail with its error. -/
theorem verifyScript_of_calls {version : Nat} {program : Bytes} {e : ScriptError}
    (h : vc.Calls scriptSig scriptPubKey witness version program)
    (he : vc.verifyWitnessProgram witness version program = .error e) :
    vc.verifyScript scriptSig scriptPubKey witness = .error e := by
  have hnext : ∀ {α β : Type} {x : Except ScriptError α} {f : α → Except ScriptError β} {a : α},
      x = .ok a → f a = .error e → (x >>= f) = .error e :=
    fun hx hf => bind_eq_error_iff.mpr (.inr ⟨_, hx, hf⟩)
  have hfails : ∀ {script expected : CScript} {malleated : ScriptError} {before : Progress},
      .witness ∈ vc.flags → script.isWitnessProgram = some (version, program) →
      scriptSig = expected →
      vc.verifyProgram script scriptSig expected malleated witness before = .error e := by
    intro script expected malleated before hwitness hprog hsig
    rw [verifyProgram, if_pos hwitness, hprog]
    exact require_bind_eq_error_iff.mpr (.inr ⟨hsig, bind_eq_error_iff.mpr (.inl he)⟩)
  unfold verifyScript
  cases h with
  | bare hpush hcopy hstack hwitness hprog hsig =>
    refine require_bind_eq_error_iff.mpr (.inr ⟨hpush, hnext hcopy (hnext hstack ?_)⟩)
    exact bind_eq_error_iff.mpr (.inl (hfails hwitness hprog hsig))
  | scriptHash hpush hcopy hstack hbare hp2sh hshape hpushOnly hredeem hwitness hprog hsig =>
    refine require_bind_eq_error_iff.mpr (.inr ⟨hpush, hnext hcopy (hnext hstack (hnext hbare
      (bind_eq_error_iff.mpr (.inl ?_))))⟩)
    rw [verifyScriptHash, if_pos ⟨hp2sh, hshape⟩]
    exact require_bind_eq_error_iff.mpr
      (.inr ⟨hpushOnly, hnext hredeem (hfails hwitness hprog hsig)⟩)

end VerifyContext

/-! ## 2. The gate -/

/-- `VerifyScript` reaches the branch for ML-DSA for the input `nIn`. -/
def ReachesPQ (cr : Crypto) (sg : Schemes) (flags : ScriptFlags) (view : CoinsView)
    (tx : CTransaction) (nIn : Nat) : Prop :=
  ∃ txin c o program, tx.vin[nIn]? = some txin ∧ view.access txin.prevout = some (c, o) ∧
    program.length = 20 ∧
    VerifyContext.Calls ⟨cr, sg, flags, SpendContext.checker cr sg ⟨tx, nIn, o.nValue⟩⟩
      txin.scriptSig o.scriptPubKey txin.scriptWitness 2 program

/-- The input `nIn` spends an output for a script hash. -/
def SpendsScriptHash (view : CoinsView) (tx : CTransaction) (nIn : Nat) : Prop :=
  ∃ txin c o, tx.vin[nIn]? = some txin ∧ view.access txin.prevout = some (c, o) ∧
    isPayToScriptHash o.scriptPubKey = true

/-- Some input spends an output for a post-quantum key hash. -/
def SpendsPQOutput (view : CoinsView) (tx : CTransaction) : Prop :=
  ∃ txin ∈ tx.vin, ∃ c o program, view.access txin.prevout = some (c, o) ∧
    program.length = 20 ∧ o.scriptPubKey = payToPQKeyHash program

def pqGateReason : String := "pq-spend-not-yet-active"

/-- **The gate covers a transaction**: below `nQuantumSafeHeight` it is not accepted if one of its
inputs reaches the branch for ML-DSA, and from there on the gate rejects nothing. -/
def GateCovers (cr : Crypto) (sg : Schemes) (flags : ScriptFlags) (cp : CChainParams)
    (view : CoinsView) (nSpendHeight : Nat) (tx : CTransaction) : Prop :=
  (nSpendHeight < (cp.getConsensus nSpendHeight).nQuantumSafeHeight →
    (∃ nIn, ReachesPQ cr sg flags view tx nIn) →
      checkTxInputs cp view nSpendHeight tx ≠ .ok ()) ∧
  ((cp.getConsensus nSpendHeight).nQuantumSafeHeight ≤ nSpendHeight →
    ∀ r, checkTxInputs cp view nSpendHeight tx = .error (.rejected r) →
      r.strRejectReason ≠ pqGateReason)

variable {cp : CChainParams} {view : CoinsView} {nSpendHeight : Nat} {tx : CTransaction}
  {spent : List (CCoins × CTxOut)}

/-- From `nQuantumSafeHeight` on, a round is rejected for another reason. -/
theorem checkTxInput_reason {nValueIn : CAmount} {c : CCoins × CTxOut} {r : Reject}
    (h : (cp.getConsensus nSpendHeight).nQuantumSafeHeight ≤ nSpendHeight)
    (hr : checkTxInput cp nSpendHeight nValueIn c = .error (.rejected r)) :
    r.strRejectReason ≠ pqGateReason := by
  unfold checkTxInput ensure at hr
  rw [require_bind_eq_error_iff, require_bind_eq_error_iff, require_bind_eq_error_iff] at hr
  rcases hr with ⟨-, hr⟩ | ⟨-, ⟨hgate, -⟩ | ⟨-, ⟨-, hr⟩ | ⟨-, hr⟩⟩⟩
  · cases hr
    exact show "bad-txns-premature-spend-of-coinbase" ≠ pqGateReason by decide
  · exact absurd (fun hlt => absurd h (not_le.mpr hlt)) hgate
  · cases hr
    exact show "bad-txns-inputvalues-outofrange" ≠ pqGateReason by decide
  · cases hr

theorem demand_ne_rejected {α : Type} {x : Option α} {r : Reject} :
    demand x ≠ .error (.rejected r) := by
  cases x <;> nofun

/-- From `nQuantumSafeHeight` on, the gate rejects nothing. -/
theorem checkTxInputs_reason {r : Reject}
    (h : (cp.getConsensus nSpendHeight).nQuantumSafeHeight ≤ nSpendHeight)
    (hr : checkTxInputs cp view nSpendHeight tx = .error (.rejected r)) :
    r.strRejectReason ≠ pqGateReason := by
  unfold checkTxInputs ensure at hr
  rw [require_bind_eq_error_iff, bind_eq_error_iff] at hr
  rcases hr with ⟨-, hr⟩ | ⟨-, hr | ⟨spent, -, hr⟩⟩
  · cases hr
    exact show "" ≠ pqGateReason by decide
  · exact absurd hr demand_ne_rejected
  rw [bind_eq_error_iff] at hr
  rcases hr with hr | ⟨nValueIn, -, hr⟩
  · obtain ⟨c, -, u, hround⟩ := exists_of_foldlM_eq_error hr
    exact checkTxInput_reason h hround
  rw [bind_eq_error_iff] at hr
  rcases hr with hr | ⟨nValueOut, -, hr⟩
  · exact absurd hr demand_ne_rejected
  rw [require_bind_eq_error_iff, require_bind_eq_error_iff, require_eq_error_iff] at hr
  rcases hr with ⟨-, hr⟩ | ⟨-, ⟨-, hr⟩ | ⟨-, -, hr⟩⟩
  · cases hr
    exact show "bad-txns-in-belowout" ≠ pqGateReason by decide
  · cases hr
    exact show "bad-txns-fee-negative" ≠ pqGateReason by decide
  · cases hr
    exact show "bad-txns-fee-outofrange" ≠ pqGateReason by decide

/-- Below `nQuantumSafeHeight` the gate lets the outputs pass that are no post-quantum ones. -/
theorem pqSpendActive_iff {scriptPubKey : CScript}
    (h : nSpendHeight < (cp.getConsensus nSpendHeight).nQuantumSafeHeight) :
    pqSpendActive cp scriptPubKey nSpendHeight ↔
      ¬ ∃ program : Bytes, program.length = 20 ∧
        scriptPubKey = payToPQKeyHash program := by
  constructor
  · rintro hactive ⟨program, hlen, rfl⟩
    exact absurd (not_pqSpendActive hlen hactive) (not_le.mpr h)
  · intro hnone _ htype
    exact hnone (solver_pqKeyHash_iff.mp htype.2)

theorem mem_spentBy_iff (hspent : view.spentBy tx = some spent) {c : CCoins × CTxOut} :
    c ∈ spent ↔ ∃ txin ∈ tx.vin, view.access txin.prevout = some c := by
  rw [List.mem_iff_getElem?]
  constructor
  · rintro ⟨i, hi⟩
    rw [getElem?_of_mapM_eq_some hspent] at hi
    obtain ⟨txin, htxin, hc⟩ := Option.bind_eq_some_iff.mp hi
    exact ⟨txin, List.mem_of_getElem? htxin, hc⟩
  · rintro ⟨txin, htxin, hc⟩
    obtain ⟨i, hi⟩ := List.mem_iff_getElem?.mp htxin
    refine ⟨i, ?_⟩
    rw [getElem?_of_mapM_eq_some hspent, hi]
    exact hc

/-- The gate closes for a transaction that spends a post-quantum output. -/
theorem gate_iff (h : nSpendHeight < (cp.getConsensus nSpendHeight).nQuantumSafeHeight)
    (hspent : view.spentBy tx = some spent) :
    (∀ c ∈ spent, pqSpendActive cp c.2.scriptPubKey nSpendHeight) ↔ ¬ SpendsPQOutput view tx := by
  constructor
  · rintro hgate ⟨txin, htxin, c, o, program, haccess, hlen, hscript⟩
    have hmem : (c, o) ∈ spent := (mem_spentBy_iff hspent).mpr ⟨txin, htxin, haccess⟩
    exact (pqSpendActive_iff h).mp (hgate (c, o) hmem) ⟨program, hlen, hscript⟩
  · rintro hnone ⟨c, o⟩ hmem
    rw [pqSpendActive_iff h]
    rintro ⟨program, hlen, hscript⟩
    obtain ⟨txin, htxin, haccess⟩ := (mem_spentBy_iff hspent).mp hmem
    exact hnone ⟨txin, htxin, c, o, program, haccess, hlen, hscript⟩

/-- An input that reaches the branch for ML-DSA spends a post-quantum output or a script hash. -/
theorem ReachesPQ.spends {cr : Crypto} {sg : Schemes} {flags : ScriptFlags} {nIn : Nat}
    (h : ReachesPQ cr sg flags view tx nIn) :
    SpendsPQOutput view tx ∨ SpendsScriptHash view tx nIn := by
  obtain ⟨txin, c, o, program, htxin, haccess, hlen, hcalls⟩ := h
  rcases hcalls.shape with hprog | hshape
  · exact .inl ⟨txin, List.mem_of_getElem? htxin, c, o, program, haccess, hlen,
      eq_payToPQKeyHash hprog hlen⟩
  · exact .inr ⟨txin, c, o, htxin, haccess, hshape⟩

/-- The gate covers a transaction if and only if, below `nQuantumSafeHeight`, one that is in order
otherwise and reaches the branch for ML-DSA behind a script hash also spends a post-quantum
output: the gate does not look behind script hashes. -/
theorem gateCovers_iff (cr : Crypto) (sg : Schemes) (flags : ScriptFlags) (cp : CChainParams)
    (view : CoinsView) (nSpendHeight : Nat) (tx : CTransaction) :
    GateCovers cr sg flags cp view nSpendHeight tx ↔
      (nSpendHeight < (cp.getConsensus nSpendHeight).nQuantumSafeHeight →
        (∃ spent, InOrder cp view nSpendHeight tx spent) →
        (∃ nIn, ReachesPQ cr sg flags view tx nIn ∧ SpendsScriptHash view tx nIn) →
          SpendsPQOutput view tx) := by
  constructor
  · intro hcovers hlt hinOrder hreach
    obtain ⟨spent, hspent⟩ := hinOrder
    obtain ⟨nIn, hreach, -⟩ := hreach
    by_contra hnone
    refine hcovers.1 hlt ⟨nIn, hreach⟩ (checkTxInputs_eq_ok_iff.mpr ⟨spent, hspent, ?_⟩)
    exact (gate_iff hlt hspent.spentBy).mpr hnone
  · intro hcond
    refine ⟨fun hlt hreach hok => ?_, fun hle r hr => checkTxInputs_reason hle hr⟩
    obtain ⟨nIn, hreach⟩ := hreach
    obtain ⟨spent, hspent, hgate⟩ := checkTxInputs_eq_ok_iff.mp hok
    refine (gate_iff hlt hspent.spentBy).mp hgate ?_
    rcases hreach.spends with hnative | hshape
    · exact hnative
    · exact hcond hlt ⟨spent, hspent⟩ ⟨nIn, hreach, hshape⟩

/-! ## 3. A program behind a script hash -/

/-- A post-quantum program, and the output with its script hash. -/
def hiddenProgram : CScript := payToPQKeyHash echoProgram

def hiddenView : CoinsView where
  coins := fun _ => some
    ⟨false, [⟨100, payToScriptHash (tailCrypto.hash160 hiddenProgram)⟩], 0, 1⟩
  hashBlock := 0

def hiddenSpend : CTransaction :=
  ⟨1, [⟨⟨7, 0⟩, pushData hiddenProgram, 0, []⟩], [⟨90, []⟩], 0⟩

def hiddenContext : VerifyContext :=
  ⟨tailCrypto, echoSchemes, [.p2sh, .witness],
    SpendContext.checker tailCrypto echoSchemes ⟨hiddenSpend, 0, 100⟩⟩

/-- Below `nQuantumSafeHeight` of the main network the transaction is accepted. -/
theorem gate_misses_scriptHash :
    1 < (Network.main.params.getConsensus 1).nQuantumSafeHeight ∧
      ReachesPQ tailCrypto echoSchemes [.p2sh, .witness] hiddenView hiddenSpend 0 ∧
      checkTxInputs Network.main.params hiddenView 1 hiddenSpend = .ok () ∧
      ¬ GateCovers tailCrypto echoSchemes [.p2sh, .witness] Network.main.params hiddenView 1
        hiddenSpend := by
  have hlt : 1 < (Network.main.params.getConsensus 1).nQuantumSafeHeight := by decide
  have hok : checkTxInputs Network.main.params hiddenView 1 hiddenSpend = .ok () := by
    decide +kernel
  have hreach : ReachesPQ tailCrypto echoSchemes [.p2sh, .witness] hiddenView hiddenSpend 0 := by
    refine ⟨_, _, _, echoProgram, rfl, rfl, by decide, ?_⟩
    have hcopy : VerifyContext.eval hiddenContext .base [] (pushData hiddenProgram) =
        .ok [hiddenProgram] := by decide +kernel
    have hstack : VerifyContext.evalTrue hiddenContext [hiddenProgram]
        (payToScriptHash (tailCrypto.hash160 hiddenProgram)) = .ok [[1]] := by
      decide +kernel
    have hredeem : VerifyContext.evalTrue hiddenContext [] hiddenProgram =
        .ok [echoProgram, [2]] := by decide +kernel
    exact .scriptHash nofun hcopy hstack rfl (by decide) (by decide) (by decide) hredeem
      (by decide) rfl rfl
  exact ⟨hlt, hreach, hok, fun hcovers => hcovers.1 hlt ⟨0, hreach⟩ hok⟩

end RgmNode
