import RgmNode.Script.ScriptHash
import RgmNode.Script.Sign

/-!
# Signing for post-quantum key hashes

`ProduceSignature` signs the signature hash of the hash type it was called with, and
`VerifyWitnessProgram` always takes the one of `SIGHASH_ALL`.
-/

namespace RgmNode

open SignatureCreator CScript List SigHashType

/-! ## 1. The messages -/

/-- What the signature hash of a post-quantum input is made from. -/
def pqPreimage (cr : Crypto) (sp : SpendContext) (nHashType : Int32) : Bytes :=
  sp.txTo.witnessPreimage cr [] sp.nIn nHashType sp.amount

def pqMessage (cr : Crypto) (sp : SpendContext) (nHashType : Int32) : Uint256 :=
  cr.hash256 (pqPreimage cr sp nHashType)

theorem pqPreimage_injective {cr : Crypto} {sp : SpendContext} {nHashType nHashType' : Int32}
    (h : pqPreimage cr sp nHashType = pqPreimage cr sp nHashType') : nHashType = nHashType' := by
  have hlast : serInt32 nHashType = serInt32 nHashType' := by
    exact (append_inj' h (by simp [serInt32])).2
  have hlt : ∀ x : Int32, x.toUInt32.toNat < 256 ^ 4 := fun x => x.toUInt32.toNat_lt
  have hnat := LittleEndian.encode_injective (hlt nHashType) (hlt nHashType') hlast
  have hbits : nHashType.toUInt32 = nHashType'.toUInt32 := UInt32.toNat_inj.mp hnat
  cases nHashType
  cases nHashType'
  cases hbits
  rfl

/-- The keys for a program.  The library signs every message of 32 bytes, and accepts the
signature for that message. -/
structure PQKeyPair (cr : Crypto) (sg : Schemes) (program privkey pubkey : Bytes) : Prop where
  privkey_size : privkey.length = mldsa44PrivkeySize
  pubkey_size : pubkey.length = mldsa44PubkeySize
  hash : (cr.hash160 pubkey).bytes = program
  signs : ∀ msg : Bytes, msg.length = 32 → ∃ sig, sg.mldsaSign privkey msg = some sig ∧
    sig.length = mldsa44SigSize ∧ sg.mldsaVerify pubkey msg sig = true

/-- The messages for two hash types are told apart: their hashes do not collide, and the library
accepts no signature of the one for the other. -/
structure ToldApart (cr : Crypto) (sg : Schemes) (sp : SpendContext) (privkey pubkey : Bytes)
    (nHashType nHashType' : Int32) : Prop where
  no_collision : pqMessage cr sp nHashType = pqMessage cr sp nHashType' →
    pqPreimage cr sp nHashType = pqPreimage cr sp nHashType'
  rejects : ∀ sig, sg.mldsaSign privkey (pqMessage cr sp nHashType).bytes = some sig →
    sg.mldsaVerify pubkey (pqMessage cr sp nHashType').bytes sig = true →
    pqMessage cr sp nHashType = pqMessage cr sp nHashType'

/-! ## 2. Signing -/

section Signing

variable {cr : Crypto} {sg : Schemes} {keystore : KeyStore} {sp : SpendContext}
  {nHashType : Int32} {program privkey pubkey : Bytes}

section

variable (h : PQKeyPair cr sg program privkey pubkey)

include h

theorem PQKeyPair.length_eq : program.length = 20 := by
  rw [← h.hash]
  exact Uint160.length_bytes _

/-- The witness holds the signature for the hash type the creator was called with. -/
theorem pqWitness_eq (hstore : keystore.getPQKey (Uint160.ofBytes program) = some (privkey, pubkey)) :
    ∃ sig, sg.mldsaSign privkey (pqMessage cr sp nHashType).bytes = some sig ∧
      sig.length = mldsa44SigSize ∧
      (transactionSignatureCreator cr sg keystore sp nHashType).pqWitness program =
        some [sig, pubkey] := by
  obtain ⟨sig, hsign, hsize, -⟩ := h.signs (pqMessage cr sp nHashType).bytes (by simp)
  have hmessage : (transactionSignatureCreator cr sg keystore sp nHashType).getSigHash =
      pqMessage cr sp nHashType := rfl
  have hpq : pqSign sg privkey (pqMessage cr sp nHashType).bytes = sig := by
    simp [pqSign, h.privkey_size, hsign]
  have hne : sig.isEmpty = false := by
    cases sig with
    | nil => cases hsize
    | cons => rfl
  refine ⟨sig, hsign, hsize, ?_⟩
  rw [pqWitness, hmessage]
  simp [transactionSignatureCreator, hstore, hpq, hne]

/-- The witness is accepted if the message was that of `SIGHASH_ALL`. -/
theorem pqSpend_iff (hapart : ToldApart cr sg sp privkey pubkey nHashType all)
    {sig : Bytes} (hsign : sg.mldsaSign privkey (pqMessage cr sp nHashType).bytes = some sig)
    (hsize : sig.length = mldsa44SigSize) :
    (SignatureData.context cr sg (sp.checker cr sg)).PQSpend program [sig, pubkey] ↔
      nHashType = SigHashType.all := by
  have hmessage : (SignatureData.context cr sg (sp.checker cr sg)).checker.getSigHash =
      pqMessage cr sp all := rfl
  constructor
  · rintro ⟨_, _, ⟨⟩, -, -, hver⟩
    rw [pqVerify, Bool.and_eq_true] at hver
    exact pqPreimage_injective (hapart.no_collision (hapart.rejects sig hsign hver.2))
  · rintro rfl
    obtain ⟨sig', hsign', -, hver⟩ := h.signs (pqMessage cr sp all).bytes (by simp)
    cases hsign.symm.trans hsign'
    refine ⟨sig, pubkey, rfl, h.pubkey_size, h.hash, ?_⟩
    simp only [pqVerify, h.pubkey_size, hsize, Uint256.length_bytes, decide_true, Bool.and_self,
      Bool.true_and]
    exact hver

end

section

variable {c : SignatureCreator} {witness : List Bytes} (hlen : program.length = 20)
    (hwit : c.pqWitness program = some witness)

include hlen hwit

theorem solve_payToPQKeyHash : c.solve (payToPQKeyHash program) = (true, ⟨[], witness⟩) := by
  have hstep : c.signStep (payToPQKeyHash program) .base =
      ⟨true, [program], some .witnessV2PQKeyHash⟩ := by
    rw [signStep, solver_payToPQKeyHash hlen]
    rfl
  simp [solve, hstep, signWitness, hwit, pushAll]

/-- What is signed where the program is the script of a script hash. -/
theorem solve_scriptHash_pqKeyHash {hash : Uint160}
    (hscript : c.keystore.getCScript hash = some (payToPQKeyHash program)) :
    c.solve (payToScriptHash hash) =
      (true, ⟨pushData (payToPQKeyHash program), witness⟩) := by
  have houter : c.signStep (payToScriptHash hash) .base =
      ⟨true, [payToPQKeyHash program], some .scriptHash⟩ := by
    rw [signStep, solver_payToScriptHash]
    simp [signType, Uint160.ofBytes_bytes, hscript, stepOf]
  have hinner : c.signStep (payToPQKeyHash program) .base =
      ⟨true, [program], some .witnessV2PQKeyHash⟩ := by
    rw [signStep, solver_payToPQKeyHash hlen]
    rfl
  have hpush : pushData (payToPQKeyHash program) = pushAll [payToPQKeyHash program] := by
    refine VerifyContext.pushData_eq_pushAll ?_
    simp [payToPQKeyHash_eq hlen]
  simp [solve, houter, hinner, signWitness, hwit, hpush]

end

/-- An output for a post-quantum key of the store, the program itself or its script hash, is
signed exactly with the hash type `SIGHASH_ALL` and if the program counts as true. -/
theorem produceSignature_pqKeyHash_iff (h : PQKeyPair cr sg program privkey pubkey)
    (hstore : keystore.getPQKey (Uint160.ofBytes program) = some (privkey, pubkey))
    (hapart : ToldApart cr sg sp privkey pubkey nHashType SigHashType.all) {fromPubKey : CScript}
    (hfrom : fromPubKey = CScript.payToPQKeyHash program ∨
      keystore.getCScript (cr.hash160 (CScript.payToPQKeyHash program)) =
          some (CScript.payToPQKeyHash program) ∧
        fromPubKey = CScript.payToScriptHash (cr.hash160 (CScript.payToPQKeyHash program))) :
    ((transactionSignatureCreator cr sg keystore sp nHashType).produceSignature fromPubKey).1 =
        true ↔
      nHashType = SigHashType.all ∧ castToBool program = true := by
  obtain ⟨sig, hsign, hsize, hwit⟩ := pqWitness_eq h hstore
  have hspend := pqSpend_iff h hapart hsign hsize
  have hlen := h.length_eq
  have hp2sh : .p2sh ∈ (SignatureData.context cr sg (sp.checker cr sg)).flags :=
    show .p2sh ∈ standardScriptVerifyFlags by decide
  have hflag : .witness ∈ (SignatureData.context cr sg (sp.checker cr sg)).flags :=
    show .witness ∈ standardScriptVerifyFlags by decide
  rw [← hspend]
  rcases hfrom with rfl | ⟨hscript, rfl⟩
  · have hiff := SignatureCreator.produceSignature_iff_of_solve (solve_payToPQKeyHash hlen hwit)
    refine hiff.trans ((VerifyContext.verifyScript_payToPQKeyHash_iff hlen hflag).trans ?_)
    exact ⟨fun ⟨_, hbool, hpq⟩ => ⟨hpq, hbool⟩, fun ⟨hpq, hbool⟩ => ⟨rfl, hbool, hpq⟩⟩
  · have hiff := SignatureCreator.produceSignature_iff_of_solve
      (solve_scriptHash_pqKeyHash hlen hwit hscript)
    refine hiff.trans ((VerifyContext.verifyScript_scriptHash_pqKeyHash_iff hlen hp2sh hflag
      rfl).trans ?_)
    exact and_comm

end Signing

/-! ## 3. One key -/

/-- A hash that keeps the last 32 bytes. -/
def tailCrypto : Crypto where
  sha256 := fun b => BitVec.ofNat 256 (LittleEndian.decode b.reverse)
  ripemd160 := fun _ => 1
  sha1 := fun _ => 0
  scrypt := fun _ => 0

/-- A signature starts with the message, which is all that is checked. -/
def echoSchemes : Schemes where
  ecSign := fun _ _ => []
  ecVerify := fun _ _ _ => false
  ecCheckLowS := fun _ => false
  mldsaSign := fun _ msg => some (msg ++ List.replicate 2388 0)
  mldsaVerify := fun _ msg sig => sig.take 32 = msg

def echoPrivkey : Bytes := List.replicate 2560 1

def echoPubkey : Bytes := List.replicate 1312 1

def echoProgram : Bytes := Uint160.bytes 1

/-- A store with this key, and the program as a script. -/
def echoStore : KeyStore where
  getKey := fun _ => none
  getPubKey := fun _ => none
  getCScript := fun _ => some (CScript.payToPQKeyHash echoProgram)
  getPQKey := fun _ => some (echoPrivkey, echoPubkey)

def echoInput : SpendContext where
  txTo := ⟨1, [⟨⟨7, 0⟩, [], 0, []⟩], [⟨90, []⟩], 0⟩
  nIn := 0
  amount := 100

theorem pqKeyPair_echo : PQKeyPair tailCrypto echoSchemes echoProgram echoPrivkey echoPubkey := by
  refine ⟨length_replicate, length_replicate, rfl, fun msg hlen => ?_⟩
  refine ⟨_, rfl, ?_, decide_eq_true (take_left' hlen)⟩
  rw [length_append, length_replicate, hlen]
  rfl

/-- The hash type `SIGHASH_ALL` signs the program and its script hash. -/
theorem produceSignature_pqKeyHash_all :
    ((transactionSignatureCreator tailCrypto echoSchemes echoStore echoInput
        SigHashType.all).produceSignature (CScript.payToPQKeyHash echoProgram)).1 = true ∧
      ((transactionSignatureCreator tailCrypto echoSchemes echoStore echoInput
        SigHashType.all).produceSignature (CScript.payToScriptHash
          (tailCrypto.hash160 (CScript.payToPQKeyHash echoProgram)))).1 = true := by
  have hapart : ToldApart tailCrypto echoSchemes echoInput echoPrivkey echoPubkey SigHashType.all
      SigHashType.all := ⟨fun _ => rfl, fun _ _ _ => rfl⟩
  have htrue : castToBool echoProgram = true := by decide
  exact ⟨(produceSignature_pqKeyHash_iff pqKeyPair_echo rfl hapart (.inl rfl)).mpr ⟨rfl, htrue⟩,
    (produceSignature_pqKeyHash_iff pqKeyPair_echo rfl hapart (.inr ⟨rfl, rfl⟩)).mpr ⟨rfl, htrue⟩⟩

/-- The hash type `SIGHASH_NONE` does not, although the key signs for every message. -/
theorem produceSignature_pqKeyHash_none :
    PQKeyPair tailCrypto echoSchemes echoProgram echoPrivkey echoPubkey ∧
      echoStore.getPQKey (Uint160.ofBytes echoProgram) = some (echoPrivkey, echoPubkey) ∧
      ((transactionSignatureCreator tailCrypto echoSchemes echoStore echoInput
        2).produceSignature (CScript.payToPQKeyHash echoProgram)).1 = false := by
  refine ⟨pqKeyPair_echo, rfl, ?_⟩
  decide +kernel

end RgmNode
