import RgmNode.Lib.Matching
import RgmNode.Script.Standard
import RgmNode.Script.Verify

/-!
# Signing

`SignStep`, `ProduceSignature` and the creator of signatures for an input of a transaction
(`script/sign.cpp`).  The key store is an interface here (`CKeyStore`).

* `produceSignature_eq_true_iff`, `produceSignature_iff_of_solve` — what is signed is verified
-/

namespace RgmNode

/-! ## 1. Creators -/

/-- What signing reads from a `CKeyStore`. -/
structure KeyStore where
  getKey : Uint160 → Option CKey
  getPubKey : Uint160 → Option CPubKey
  getCScript : Uint160 → Option CScript
  /-- a private and a public key -/
  getPQKey : Uint160 → Option (Bytes × Bytes)

/-- `BaseSignatureCreator`, with the hash functions and schemes it is called with. -/
structure SignatureCreator where
  cr : Crypto
  sg : Schemes
  keystore : KeyStore
  checker : SignatureChecker
  createSig : Uint160 → CScript → SigVersion → Option Bytes
  getSigHash : Uint256

def hashTypeByte (nHashType : Int32) : UInt8 := UInt8.ofNat nHashType.toUInt32.toNat

/-- `TransactionSignatureCreator::CreateSig` -/
def createTransactionSig (cr : Crypto) (sg : Schemes) (keystore : KeyStore) (sp : SpendContext)
    (nHashType : Int32) (address : Uint160) (scriptCode : CScript) (sigversion : SigVersion) :
    Option Bytes :=
  match keystore.getKey address with
  | none => none
  | some key =>
    -- signing with uncompressed keys is disabled in witness scripts
    if sigversion = .witnessV0 ∧ key.fCompressed = false then none
    else
      (key.sign sg (signatureHash cr scriptCode sp.txTo sp.nIn nHashType sp.amount sigversion)).map
        (· ++ [hashTypeByte nHashType])

def transactionSignatureCreator (cr : Crypto) (sg : Schemes) (keystore : KeyStore)
    (sp : SpendContext) (nHashType : Int32) : SignatureCreator where
  cr := cr
  sg := sg
  keystore := keystore
  checker := sp.checker cr sg
  createSig := createTransactionSig cr sg keystore sp nHashType
  getSigHash := signatureHash cr [] sp.txTo sp.nIn nHashType sp.amount .witnessV0

/-! ## 2. `SignStep` -/

/-- What `SignStep` returns and sets. -/
structure SignResult where
  solved : Bool
  ret : List Bytes
  whichType : Option TxnOutType
deriving DecidableEq, Repr

namespace SignatureCreator

variable (c : SignatureCreator)

/-- `SignN`: the signatures of the first keys that can sign, at most as many as are needed. -/
def signN (scriptCode : CScript) (sigversion : SigVersion) (needed : Nat) (keys : List Bytes) :
    List Bytes :=
  Matching.collect (fun pubkey =>
    c.createSig ((CPubKey.ofBytes pubkey).getID c.cr) scriptCode sigversion) needed keys

/-- A step that succeeds with `ret` or fails without a result. -/
def stepOf (whichType : TxnOutType) : Option (List Bytes) → SignResult
  | some ret => ⟨true, ret, some whichType⟩
  | none => ⟨false, [], some whichType⟩

/-- `SignStep`, once the type of the script is known. -/
def signType (scriptPubKey : CScript) (sigversion : SigVersion) (vSolutions : List Bytes)
    (whichType : TxnOutType) : SignResult :=
  let first := vSolutions.headD []
  match whichType with
  | .pubKey =>
    stepOf .pubKey ((c.createSig ((CPubKey.ofBytes first).getID c.cr) scriptPubKey sigversion).map
      fun sig => [sig])
  | .pubKeyHash =>
    let keyID := Uint160.ofBytes first
    stepOf .pubKeyHash ((c.createSig keyID scriptPubKey sigversion).map fun sig =>
      [sig, ((c.keystore.getPubKey keyID).getD CPubKey.invalid).vch])
  | .scriptHash =>
    stepOf .scriptHash ((c.keystore.getCScript (Uint160.ofBytes first)).map fun script => [script])
  | .multiSig =>
    let needed := firstByte first
    let sigs := c.signN scriptPubKey sigversion needed (vSolutions.drop 1).dropLast
    -- the first element works around a bug of `OP_CHECKMULTISIG`
    ⟨sigs.length = needed, [] :: sigs, some .multiSig⟩
  | .witnessV0KeyHash => ⟨true, [first], some .witnessV0KeyHash⟩
  | .witnessV0ScriptHash =>
    stepOf .witnessV0ScriptHash ((c.keystore.getCScript (c.cr.ripemd160 first)).map fun script =>
      [script])
  | .witnessV2PQKeyHash => ⟨true, [first], some .witnessV2PQKeyHash⟩
  | .nonStandard => ⟨false, [], some .nonStandard⟩
  | .nullData => ⟨false, [], some .nullData⟩
  | .witnessUnknown => ⟨false, [], some .witnessUnknown⟩

def signStep (scriptPubKey : CScript) (sigversion : SigVersion) : SignResult :=
  match solver scriptPubKey with
  | ⟨true, some whichType, vSolutions⟩ => c.signType scriptPubKey sigversion vSolutions whichType
  | ⟨_, typeRet, _⟩ => ⟨false, [], typeRet⟩

end SignatureCreator

/-! ## 3. `ProduceSignature` -/

structure SignatureData where
  scriptSig : CScript
  scriptWitness : List Bytes
deriving DecidableEq, Repr

namespace SignatureData

/-- The data of an input that is not signed. -/
def empty : SignatureData := ⟨[], []⟩

/-- `VerifyScript` with the flags that wallets and the memory pool use. -/
def complete (cr : Crypto) (sg : Schemes) (checker : SignatureChecker) (scriptPubKey : CScript)
    (data : SignatureData) : Bool :=
  VerifyContext.verifyScript ⟨cr, sg, standardScriptVerifyFlags, checker⟩ data.scriptSig
    scriptPubKey data.scriptWitness = .ok ()

def context (cr : Crypto) (sg : Schemes) (checker : SignatureChecker) : VerifyContext :=
  ⟨cr, sg, standardScriptVerifyFlags, checker⟩

theorem complete_iff {cr : Crypto} {sg : Schemes} {checker : SignatureChecker}
    {scriptPubKey : CScript} {data : SignatureData} :
    data.complete cr sg checker scriptPubKey = true ↔
      (context cr sg checker).verifyScript data.scriptSig scriptPubKey data.scriptWitness =
        .ok () := by
  simp [complete, context]

end SignatureData

namespace SignatureCreator

variable (c : SignatureCreator)

/-- The types a script inside `P2WSH` must not have. -/
def nestedTypes : List (Option TxnOutType) :=
  [some .scriptHash, some .witnessV0ScriptHash, some .witnessV0KeyHash]

/-- The witness of a post-quantum key hash; `none` if there is no key or it does not sign. -/
def pqWitness (program : Bytes) : Option (List Bytes) :=
  match c.keystore.getPQKey (Uint160.ofBytes program) with
  | none => none
  | some (privkey, pubkey) =>
    let sig := pqSign c.sg privkey c.getSigHash.bytes
    if sig.isEmpty then none else some [sig, pubkey]

/-- The second step for a witness type: the witness, and whether it is complete.  Other types
have no witness. -/
def signWitness (step : SignResult) : SignResult × List Bytes :=
  let first := step.ret.headD []
  match step.solved, step.whichType with
  | true, some .witnessV0KeyHash =>
    let inner := c.signStep (CScript.payToPubkeyHash first) .witnessV0
    (⟨inner.solved, [], step.whichType⟩, inner.ret)
  | true, some .witnessV0ScriptHash =>
    let inner := c.signStep first .witnessV0
    (⟨inner.solved && inner.whichType ∉ nestedTypes, [], step.whichType⟩, inner.ret ++ [first])
  | true, some .witnessV2PQKeyHash =>
    match c.pqWitness first with
    | some witness => (⟨true, [], step.whichType⟩, witness)
    | none => (⟨false, [], step.whichType⟩, [])
  | _, _ => (step, [])

/-- The steps of `ProduceSignature` before the script is verified. -/
def solve (fromPubKey : CScript) : Bool × SignatureData :=
  let step := c.signStep fromPubKey .base
  if step.solved && step.whichType = some .scriptHash then
    let subscript := step.ret.headD []
    let inner := c.signStep subscript .base
    let (step, witness) := c.signWitness
      { inner with solved := inner.solved && inner.whichType ≠ some .scriptHash }
    (step.solved, ⟨pushAll (step.ret ++ [subscript]), witness⟩)
  else
    let (step, witness) := c.signWitness step
    (step.solved, ⟨pushAll step.ret, witness⟩)

def produceSignature (fromPubKey : CScript) : Bool × SignatureData :=
  let (solved, sigdata) := c.solve fromPubKey
  (solved && sigdata.complete c.cr c.sg c.checker fromPubKey, sigdata)

variable {c}

theorem produceSignature_eq_true_iff {fromPubKey : CScript} {s : SignatureData} :
    c.produceSignature fromPubKey = (true, s) ↔
      c.solve fromPubKey = (true, s) ∧ s.complete c.cr c.sg c.checker fromPubKey = true := by
  unfold produceSignature
  generalize c.solve fromPubKey = r
  obtain ⟨solved, sigdata⟩ := r
  simp only [Prod.mk.injEq, Bool.and_eq_true]
  constructor
  · rintro ⟨⟨rfl, hcomplete⟩, rfl⟩
    exact ⟨⟨rfl, rfl⟩, hcomplete⟩
  · rintro ⟨⟨rfl, rfl⟩, hcomplete⟩
    exact ⟨⟨rfl, hcomplete⟩, rfl⟩

/-- Once everything is signed, the input is verified. -/
theorem produceSignature_iff_of_solve {fromPubKey : CScript} {s : SignatureData}
    (h : c.solve fromPubKey = (true, s)) :
    (c.produceSignature fromPubKey).1 = true ↔
      (SignatureData.context c.cr c.sg c.checker).verifyScript s.scriptSig fromPubKey
        s.scriptWitness = .ok () := by
  rw [← SignatureData.complete_iff, produceSignature, h]
  simp

/-! ## 4. What a step returns -/

section Steps

variable {script : CScript} {sigversion : SigVersion} {vSolutions : List Bytes} {t : TxnOutType}

@[simp] theorem whichType_signType :
    (c.signType script sigversion vSolutions t).whichType = some t := by
  cases t <;> simp only [signType, stepOf] <;> split <;> rfl

theorem signStep_of_solved (h : (c.signStep script sigversion).solved = true) :
    ∃ t vSolutions, solver script = ⟨true, some t, vSolutions⟩ ∧
      c.signStep script sigversion = c.signType script sigversion vSolutions t := by
  unfold signStep at h ⊢
  split at h
  · next t vSolutions hsol => exact ⟨t, vSolutions, hsol, rfl⟩
  · cases h

theorem signStep_of_solver {v : SigVersion} {whichType : TxnOutType}
    (h : solver script = ⟨true, some whichType, vSolutions⟩) :
    c.signStep script v = c.signType script v vSolutions whichType := by
  rw [signStep, h]

theorem stepOf_solved {o : Option (List Bytes)} (h : (stepOf t o).solved = true) :
    ∃ ret, o = some ret ∧ stepOf t o = ⟨true, ret, some t⟩ := by
  cases o with
  | none => cases h
  | some ret => exact ⟨ret, rfl, rfl⟩

variable {step : SignResult}

theorem solved_of_signWitness (h : (c.signWitness step).1.solved = true) : step.solved = true := by
  unfold signWitness at h
  split at h
  · assumption
  · assumption
  · assumption
  · exact h

/-- A step for a type that has no witness is left as it is. -/
theorem signWitness_of_bare (htype : step.whichType = some t)
    (ht : t = .pubKey ∨ t = .pubKeyHash ∨ t = .multiSig) : c.signWitness step = (step, []) := by
  unfold signWitness
  rcases ht with rfl | rfl | rfl <;> simp [htype]

theorem eq_of_solved_and {b : Bool} (h : (step.solved && b) = true) :
    { step with solved := step.solved && b } = step := by
  obtain ⟨solved, ret, t⟩ := step
  rw [Bool.and_eq_true] at h
  obtain ⟨rfl, rfl⟩ := h
  rfl

end Steps

end SignatureCreator

end RgmNode
