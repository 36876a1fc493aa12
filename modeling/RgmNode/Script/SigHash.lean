import RgmNode.Script.Interpreter

/-!
# Signature hashes and the transaction checker

`SignatureHash` and `TransactionSignatureChecker` of `script/interpreter.cpp`.  A cache of
hashes or of checked signatures changes no result and is left out.
-/

namespace RgmNode

/-! ## 1. Hash types -/

namespace SigHashType

/-- `SIGHASH_ALL` -/
def all : Int32 := 1

/-- `nHashType & SIGHASH_ANYONECANPAY` -/
def anyoneCanPay (nHashType : Int32) : Bool := nHashType.toUInt32 &&& 0x80 ≠ 0

/-- `(nHashType & 0x1f) == SIGHASH_NONE` -/
def isNone (nHashType : Int32) : Bool := nHashType.toUInt32 &&& 0x1f = 2

/-- `(nHashType & 0x1f) == SIGHASH_SINGLE` -/
def isSingle (nHashType : Int32) : Bool := nHashType.toUInt32 &&& 0x1f = 3

end SigHashType

namespace CTransaction

/-- The input that is signed; callers pass an index below the number of inputs. -/
def input (tx : CTransaction) (nIn : Nat) : CTxIn := tx.vin.getD nIn ⟨COutPoint.null, [], 0, []⟩

/-! ## 2. Witness scripts -/

/-- `GetPrevoutHash` -/
def prevoutHash (cr : Crypto) (tx : CTransaction) : Uint256 :=
  cr.hash256 (tx.vin.flatMap fun i => i.prevout.serialize)

/-- `GetSequenceHash` -/
def sequenceHash (cr : Crypto) (tx : CTransaction) : Uint256 :=
  cr.hash256 (tx.vin.flatMap fun i => serUInt32 i.nSequence)

/-- `GetOutputsHash` -/
def outputsHash (cr : Crypto) (tx : CTransaction) : Uint256 :=
  cr.hash256 (tx.vout.flatMap CTxOut.serialize)

/-- `hashOutputs`, of all outputs, of the one with the index of the input, or of none -/
def signedOutputsHash (cr : Crypto) (tx : CTransaction) (nIn : Nat) (nHashType : Int32) :
    Uint256 :=
  if SigHashType.isSingle nHashType then
    match tx.vout[nIn]? with
    | some o => cr.hash256 o.serialize
    | none => 0
  else if SigHashType.isNone nHashType then 0
  else tx.outputsHash cr

/-- What `SignatureHash` hashes for a witness script. -/
def witnessPreimage (cr : Crypto) (tx : CTransaction) (scriptCode : CScript) (nIn : Nat)
    (nHashType : Int32) (amount : CAmount) : Bytes :=
  let anyoneCanPay := SigHashType.anyoneCanPay nHashType
  let hashPrevouts := if anyoneCanPay then 0 else tx.prevoutHash cr
  let hashSequence :=
    if anyoneCanPay || SigHashType.isSingle nHashType ||
      SigHashType.isNone nHashType then 0 else tx.sequenceHash cr
  serInt32 tx.nVersion ++ Uint256.bytes hashPrevouts ++ Uint256.bytes hashSequence ++
    (tx.input nIn).prevout.serialize ++ serBytes scriptCode ++ serInt64 amount ++
    serUInt32 (tx.input nIn).nSequence ++
    Uint256.bytes (tx.signedOutputsHash cr nIn nHashType) ++ serUInt32 tx.nLockTime ++
    serInt32 nHashType

end CTransaction

/-! ## 3. Other scripts -/

/-- `CTransactionSignatureSerializer`; its flags are those of the hash type. -/
structure CTransactionSignatureSerializer where
  txTo : CTransaction
  scriptCode : CScript
  nIn : UInt32
  nHashType : Int32

namespace CTransactionSignatureSerializer

def countSeparators : Nat → CScript → Nat
  | 0, _ => 0
  | rounds + 1, pc =>
    match pc.getOp with
    | .error _ => 0
    | .ok (opcode, _, pc) =>
      (if opcode = Opcode.codeSeparator then 1 else 0) + countSeparators rounds pc

/-- The loop that writes the script code: `itBegin` is behind the last separator, `it` behind the
last instruction. -/
def writeChunks : Nat → CScript → CScript → Bytes
  | 0, _, _ => []
  | rounds + 1, itBegin, it =>
    match it.getOp with
    | .error stop => if itBegin = [] then [] else itBegin.upTo stop
    | .ok (opcode, _, next) =>
      if opcode = Opcode.codeSeparator then
        itBegin.take (itBegin.length - next.length - 1) ++ writeChunks rounds next next
      else writeChunks rounds itBegin next

variable (s : CTransactionSignatureSerializer)

def serializeScriptCode : Bytes :=
  let nCodeSeparators := countSeparators s.scriptCode.length s.scriptCode % 2 ^ 32
  writeCompactSize (s.scriptCode.length - nCodeSeparators) ++
    writeChunks (s.scriptCode.length + 1) s.scriptCode s.scriptCode

def serializeInput (nInput : Nat) : Bytes :=
  let nInput := if SigHashType.anyoneCanPay s.nHashType then s.nIn.toNat else nInput
  let free := SigHashType.isSingle s.nHashType || SigHashType.isNone s.nHashType
  (s.txTo.input nInput).prevout.serialize ++
    (if nInput ≠ s.nIn.toNat then serBytes [] else s.serializeScriptCode) ++
    serUInt32 (if nInput ≠ s.nIn.toNat ∧ free then 0 else (s.txTo.input nInput).nSequence)

def serializeOutput (nOutput : Nat) : Bytes :=
  if SigHashType.isSingle s.nHashType && nOutput ≠ s.nIn.toNat then CTxOut.null.serialize
  else (s.txTo.vout.getD nOutput CTxOut.null).serialize

/-- `Serialize`; the numbers of inputs and outputs are of type `unsigned int`. -/
def serialize : Bytes :=
  let nInputs := if SigHashType.anyoneCanPay s.nHashType then 1 else s.txTo.vin.length % 2 ^ 32
  let nOutputs :=
    if SigHashType.isNone s.nHashType then 0
    else if SigHashType.isSingle s.nHashType then (s.nIn + 1).toNat
    else s.txTo.vout.length % 2 ^ 32
  serInt32 s.txTo.nVersion ++
    (writeCompactSize nInputs ++ (List.range nInputs).flatMap s.serializeInput) ++
    (writeCompactSize nOutputs ++ (List.range nOutputs).flatMap s.serializeOutput) ++
    serUInt32 s.txTo.nLockTime

/-- What `SignatureHash` hashes. -/
def hashed : Bytes := s.serialize ++ serInt32 s.nHashType

end CTransactionSignatureSerializer

def signatureHash (cr : Crypto) (scriptCode : CScript) (tx : CTransaction) (nIn : Nat)
    (nHashType : Int32) (amount : CAmount) : SigVersion → Uint256
  | .witnessV0 => cr.hash256 (tx.witnessPreimage cr scriptCode nIn nHashType amount)
  | .base =>
    if tx.vin.length ≤ nIn then 1
    else if SigHashType.isSingle nHashType && tx.vout.length ≤ nIn then 1
    else cr.hash256 (CTransactionSignatureSerializer.hashed
      ⟨tx, scriptCode, UInt32.ofNat nIn, nHashType⟩)

/-! ## 4. The checker of an input -/

/-- `TransactionSignatureChecker`: the transaction, the input and the amount it spends -/
structure SpendContext where
  txTo : CTransaction
  nIn : Nat
  amount : CAmount
deriving DecidableEq, Repr

namespace SpendContext

variable (cr : Crypto) (sg : Schemes) (sp : SpendContext)

def checkSig (vchSigIn vchPubKey : Bytes) (scriptCode : CScript) (sigversion : SigVersion) :
    Bool :=
  let pubkey := CPubKey.ofBytes vchPubKey
  match vchSigIn.getLast? with
  | none => false
  | some last =>
    -- the hash type is the byte at the end of the signature
    let nHashType := Int32.ofNat last.toNat
    pubkey.isValid && pubkey.verify sg
      (signatureHash cr scriptCode sp.txTo sp.nIn nHashType sp.amount sigversion)
      vchSigIn.dropLast

def checkLockTime (nLockTime : Int) : Bool :=
  let txLockTime : Int := sp.txTo.nLockTime.toNat
  (txLockTime < locktimeThreshold && nLockTime < locktimeThreshold ||
      locktimeThreshold ≤ txLockTime && locktimeThreshold ≤ nLockTime) &&
    nLockTime ≤ txLockTime && (sp.txTo.input sp.nIn).nSequence ≠ CTxIn.sequenceFinal

/-- `SEQUENCE_LOCKTIME_TYPE_FLAG` -/
def sequenceTypeFlag : Nat := 0x400000

def checkSequence (nSequence : Int) : Bool :=
  let txSequence := (sp.txTo.input sp.nIn).nSequence.toNat
  -- the type flag and the value
  let mask := 0x40ffff
  2 ≤ sp.txTo.nVersion.toUInt32.toNat && !txSequence.testBit 31 &&
    decide ((txSequence &&& mask < sequenceTypeFlag) ↔
      (nSequence.toNat &&& mask < sequenceTypeFlag)) &&
    nSequence.toNat &&& mask ≤ txSequence &&& mask

/-- `GetSigHash`: what a post-quantum signature is checked for -/
def getSigHash : Uint256 :=
  signatureHash cr [] sp.txTo sp.nIn SigHashType.all sp.amount .witnessV0

def checker : SignatureChecker :=
  { checkSig := sp.checkSig cr sg
    checkLockTime := sp.checkLockTime
    checkSequence := sp.checkSequence
    getSigHash := sp.getSigHash cr }

end SpendContext

end RgmNode
