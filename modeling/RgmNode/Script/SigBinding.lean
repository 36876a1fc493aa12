import RgmNode.Primitives.Unique
import RgmNode.Script.SigHash

/-!
# What a post-quantum signature is bound to

The hash that a witness program of version 2 has signed is that of BIP 143 with an empty script
and the hash type `SIGHASH_ALL`: three hashes, of all outpoints, sequences and outputs, between
fields of a fixed length.

* `sigPreimage_eq` — the fields of what is hashed
-/

namespace RgmNode

open List SigHashType

namespace SpendContext

def prevoutBytes (sp : SpendContext) : Bytes := sp.txTo.vin.flatMap fun i => i.prevout.serialize

def sequenceBytes (sp : SpendContext) : Bytes := sp.txTo.vin.flatMap fun i => serUInt32 i.nSequence

def outputBytes (sp : SpendContext) : Bytes := sp.txTo.vout.flatMap CTxOut.serialize

def sigPreimage (cr : Crypto) (sp : SpendContext) : Bytes :=
  sp.txTo.witnessPreimage cr [] sp.nIn SigHashType.all sp.amount

/-- The byte strings that `GetSigHash` hashes. -/
def sigHashInputs (cr : Crypto) (sp : SpendContext) : List Bytes :=
  [sp.prevoutBytes, sp.sequenceBytes, sp.outputBytes, sp.sigPreimage cr]

/-- The amounts and the scripts are those the types of the source hold. -/
structure Fits (sp : SpendContext) : Prop where
  amount : FitsInt64 sp.amount
  outputs : ∀ o ∈ sp.txTo.vout, o.Fits

def signedInput (sp : SpendContext) : CTxIn := sp.txTo.input sp.nIn

theorem sigPreimage_eq (cr : Crypto) (sp : SpendContext) :
    sp.sigPreimage cr =
      serInt32 sp.txTo.nVersion ++ ((cr.hash256 sp.prevoutBytes).bytes ++
        ((cr.hash256 sp.sequenceBytes).bytes ++ (sp.signedInput.prevout.serialize ++
          (serBytes [] ++ (serInt64 sp.amount ++ (serUInt32 sp.signedInput.nSequence ++
            ((cr.hash256 sp.outputBytes).bytes ++ (serUInt32 sp.txTo.nLockTime ++
              serInt32 all)))))))) := by
  have hanyone : anyoneCanPay all = false := by decide
  have hsingle : isSingle all = false := by decide
  have hnone : isNone all = false := by decide
  rfl

theorem getElem?_prevouts {sp : SpendContext} (h : sp.nIn < sp.txTo.vin.length) :
    (sp.txTo.vin.map (·.prevout))[sp.nIn]? = some sp.signedInput.prevout := by
  rw [getElem?_map, signedInput, CTransaction.input, getD_eq_getElem?_getD, getElem?_eq_getElem h]
  rfl

end SpendContext

/-- Equal hashes are signed for the same transaction, but for scripts and witnesses, the same
outpoint and the same amount; if no outpoint is spent twice, for the same input. -/
theorem getSigHash_binds {cr : Crypto} {a b : SpendContext} (ha : a.Fits) (hb : b.Fits)
    (hfree : cr.CollisionFree (a.sigHashInputs cr ++ b.sigHashInputs cr))
    (h : a.getSigHash cr = b.getSigHash cr) :
    a.txTo.nVersion = b.txTo.nVersion ∧ a.txTo.nLockTime = b.txTo.nLockTime ∧
      a.txTo.vin.map (·.prevout) = b.txTo.vin.map (·.prevout) ∧
      a.txTo.vin.map (·.nSequence) = b.txTo.vin.map (·.nSequence) ∧
      a.txTo.vout = b.txTo.vout ∧ a.signedInput.prevout = b.signedInput.prevout ∧
      a.amount = b.amount ∧
      ((a.txTo.vin.map (·.prevout)).Nodup → a.nIn < a.txTo.vin.length →
        b.nIn < b.txTo.vin.length → a.nIn = b.nIn) := by
  have hin : ∀ {x y : Bytes}, x ∈ a.sigHashInputs cr → y ∈ b.sigHashInputs cr →
      cr.hash256 x = cr.hash256 y → x = y := fun hx hy =>
    hfree _ (mem_append_left _ hx) _ (mem_append_right _ hy)
  have hpre : a.sigPreimage cr = b.sigPreimage cr :=
    hin (by simp [SpendContext.sigHashInputs]) (by simp [SpendContext.sigHashInputs]) h
  -- the fields, from the first to the last
  rw [SpendContext.sigPreimage_eq, SpendContext.sigPreimage_eq] at hpre
  obtain ⟨hversion, hpre⟩ := parses_serInt32 trivial trivial hpre
  obtain ⟨hprevouts, hpre⟩ := parses_uint256 trivial trivial hpre
  obtain ⟨hsequences, hpre⟩ := parses_uint256 trivial trivial hpre
  obtain ⟨hout, hpre⟩ := parses_outPoint trivial trivial hpre
  obtain ⟨-, hpre⟩ := parses_serBytes (by decide) (by decide) hpre
  obtain ⟨hamount, hpre⟩ := parses_serInt64 ha.amount hb.amount hpre
  obtain ⟨-, hpre⟩ := parses_serUInt32 trivial trivial hpre
  obtain ⟨houtputs, hpre⟩ := parses_uint256 trivial trivial hpre
  obtain ⟨hlock, -⟩ := parses_serUInt32 trivial trivial hpre
  -- and the lists that are hashed
  have hprevouts := hin (by simp [SpendContext.sigHashInputs]) (by simp [SpendContext.sigHashInputs])
    hprevouts
  have hsequences := hin (by simp [SpendContext.sigHashInputs])
    (by simp [SpendContext.sigHashInputs]) hsequences
  have houtputs := hin (by simp [SpendContext.sigHashInputs]) (by simp [SpendContext.sigHashInputs])
    houtputs
  have hlist : a.txTo.vin.map (·.prevout) = b.txTo.vin.map (·.prevout) := by
    refine parses_outPoint.flatMap_inj (fun o _ => ?_) (fun _ _ => trivial) (fun _ _ => trivial) ?_
    · exact ne_nil_of_length_pos (by simp [COutPoint.serialize])
    · rw [flatMap_map, flatMap_map]
      exact hprevouts
  refine ⟨hversion, hlock, hlist, ?_, ?_, hout, hamount, ?_⟩
  · refine parses_serUInt32.flatMap_inj (fun n _ => ?_) (fun _ _ => trivial) (fun _ _ => trivial) ?_
    · exact ne_nil_of_length_pos (by simp [serUInt32])
    · rw [flatMap_map, flatMap_map]
      exact hsequences
  · refine parses_txOut.flatMap_inj (fun o _ => ?_) ha.outputs hb.outputs houtputs
    exact ne_nil_of_length_pos (by simp [CTxOut.serialize, serInt64])
  · intro hdistinct hna hnb
    refine (getElem?_inj (by simpa using hna) hdistinct).mp ?_
    rw [SpendContext.getElem?_prevouts hna, hout, hlist, SpendContext.getElem?_prevouts hnb]

namespace BindingExample

/-- Byte strings of different lengths have different hashes. -/
def crypto : Crypto where
  sha256 := fun b =>
    if b.length = 32 then BitVec.ofNat 256 (LittleEndian.decode b) else BitVec.ofNat 256 b.length
  ripemd160 := fun _ => 0
  sha1 := fun _ => 0
  scrypt := fun _ => 0

/-- The input of a transaction, with a script that is not signed. -/
def context (scriptSig : CScript) : SpendContext :=
  ⟨⟨1, [⟨⟨7, 0⟩, scriptSig, 5, []⟩], [⟨90, [Opcode.op1]⟩], 0⟩, 0, 100⟩

end BindingExample

open BindingExample in
/-- Two transactions that differ in the script of the input have the same hash. -/
theorem getSigHash_binds_scriptSig :
    (context []).getSigHash crypto = (context [Opcode.op1]).getSigHash crypto ∧
      (context []).txTo.vout = (context [Opcode.op1]).txTo.vout := by
  have hfits : ∀ script, (context script).Fits := by
    intro script
    have hamount : FitsInt64 100 := ⟨by decide, by decide⟩
    refine ⟨hamount, ?_⟩
    intro o ho
    obtain rfl := mem_singleton.mp ho
    exact ⟨⟨by decide, by decide⟩, by decide⟩
  have hfree : crypto.CollisionFree ((context []).sigHashInputs crypto ++
      (context [Opcode.op1]).sigHashInputs crypto) := by decide +kernel
  have hsame : (context []).getSigHash crypto = (context [Opcode.op1]).getSigHash crypto := by
    decide +kernel
  exact ⟨hsame, (getSigHash_binds (hfits _) (hfits _) hfree hsame).2.2.2.2.1⟩

end RgmNode
