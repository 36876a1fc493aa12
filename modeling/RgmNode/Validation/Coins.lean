import Mathlib.Data.List.DropRight
import RgmNode.Script.Verify
import RgmNode.Script.Standard

/-!
# Coins

`CCoins` and the view of the unspent outputs (`coins.h`, `coins.cpp`), the counts of
signature operations and `UpdateCoins` (`validation.cpp`).  The view is one map here; the
layers of caches above the database are left out.
-/

namespace RgmNode

def maxMoney : CAmount := 10000000000 * 100000000

def moneyRange (nValue : CAmount) : Bool := 0 ≤ nValue && nValue ≤ maxMoney

theorem moneyRange_iff {v : CAmount} : moneyRange v = true ↔ 0 ≤ v ∧ v ≤ maxMoney := by
  simp [moneyRange]

namespace CTxOut

def isNull (o : CTxOut) : Bool := o.nValue = -1

end CTxOut

def CScript.isUnspendable (s : CScript) : Bool :=
  s.head? = some Opcode.ret || maxScriptSize < s.length

/-- `GetValueOut`; `none` where it throws -/
def CTransaction.getValueOut (tx : CTransaction) : Option CAmount :=
  tx.vout.foldl (fun sum o =>
    match sum with
    | none => none
    | some nValueOut =>
      if moneyRange o.nValue && moneyRange (nValueOut + o.nValue) then some (nValueOut + o.nValue)
      else none) (some 0)

/-! ## 1. The outputs of one transaction -/

/-- The outputs of a transaction; those spent are null. -/
structure CCoins where
  fCoinBase : Bool
  vout : List CTxOut
  nHeight : Nat
  nVersion : Int32
deriving DecidableEq, Repr

namespace CCoins

def cleanup (c : CCoins) : CCoins := { c with vout := c.vout.rdropWhile CTxOut.isNull }

def fromTx (tx : CTransaction) (nHeight : Nat) : CCoins :=
  cleanup
    { fCoinBase := tx.isCoinBase
      vout := tx.vout.map fun o =>
        if CScript.isUnspendable o.scriptPubKey then CTxOut.null else o
      nHeight
      nVersion := tx.nVersion }

/-- The output `nPos`, if it is there and not spent (`IsAvailable`). -/
def output (c : CCoins) (nPos : Nat) : Option CTxOut :=
  match c.vout[nPos]? with
  | none => none
  | some o => if o.isNull then none else some o

def isPruned (c : CCoins) : Bool := c.vout.all CTxOut.isNull

def spend (c : CCoins) (nPos : Nat) : CCoins :=
  cleanup { c with vout := c.vout.set nPos CTxOut.null }

end CCoins

/-! ## 2. The view -/

structure CoinsView where
  coins : Uint256 → Option CCoins
  hashBlock : Uint256

namespace CoinsView

/-- The output an input spends, with the coins it is one of; `none` if it is not available. -/
def access (view : CoinsView) (prevout : COutPoint) : Option (CCoins × CTxOut) :=
  match view.coins prevout.hash with
  | none => none
  | some c => (c.output prevout.n.toNat).map fun o => (c, o)

def haveInputs (view : CoinsView) (tx : CTransaction) : Bool :=
  tx.isCoinBase || tx.vin.all fun i => (view.access i.prevout).isSome

/-- The outputs the inputs of a transaction spend, in order; `none` if one is not available. -/
def spentBy (view : CoinsView) (tx : CTransaction) : Option (List (CCoins × CTxOut)) :=
  tx.vin.mapM fun i => view.access i.prevout

/-- `GetValueIn`; `none` where an assertion fails -/
def getValueIn (view : CoinsView) (tx : CTransaction) : Option CAmount :=
  if tx.isCoinBase then some 0
  else (view.spentBy tx).map fun spent => (spent.map (·.2.nValue)).sum

/-- An input of `UpdateCoins`: the output it spends becomes null, and is asserted to be there. -/
def spendInput (view : CoinsView) (txin : CTxIn) : Option CoinsView :=
  match view.coins txin.prevout.hash with
  | none => none
  | some c =>
    if (c.output txin.prevout.n.toNat).isSome then
      some { view with
        coins := Function.update view.coins txin.prevout.hash
          (some (c.spend txin.prevout.n.toNat)) }
    else none

/-- `ModifyNewCoins` and `FromTx`: it throws if a transaction that is no coinbase finds coins
that are not pruned (they are in the cache once the rule of BIP 30 has looked for them). -/
def addCoins (cr : Crypto) (view : CoinsView) (tx : CTransaction) (nHeight : Nat) :
    Option CoinsView :=
  if !tx.isCoinBase && (view.coins (tx.getHash cr)).any (!·.isPruned) then none
  else
    some { view with
      coins := Function.update view.coins (tx.getHash cr) (some (CCoins.fromTx tx nHeight)) }

/-- The inputs of a transaction are marked as spent; a coinbase spends nothing. -/
def spendInputs (view : CoinsView) (tx : CTransaction) : Option CoinsView :=
  if tx.isCoinBase then some view else tx.vin.foldlM spendInput view

/-- `UpdateCoins`, `none` where it does not return; what it writes to the undo data is left
out -/
def updateCoins (cr : Crypto) (view : CoinsView) (tx : CTransaction) (nHeight : Nat) :
    Option CoinsView :=
  (view.spendInputs tx).bind fun view => view.addCoins cr tx nHeight

end CoinsView

/-! ## 3. Signature operations -/

namespace CScript

/-- The last element a script of pushes puts on the stack; `data` is the one before `pc`. -/
def lastPush : Nat → Bytes → CScript → Option Bytes
  | _, data, [] => some data
  | 0, _, _ :: _ => none
  | rounds + 1, _, pc =>
    match pc.getOp with
    | .error _ => none
    | .ok (opcode, data, pc) => if Opcode.op16 < opcode then none else lastPush rounds data pc

/-- `GetSigOpCount(scriptSig)` -/
def getScriptHashSigOpCount (scriptPubKey scriptSig : CScript) : Nat :=
  if scriptPubKey.isPayToScriptHash then
    match lastPush scriptSig.length [] scriptSig with
    | none => 0
    | some data => CScript.getSigOpCount data true
  else scriptPubKey.getSigOpCount true

end CScript

def witnessSigOps (witversion : Nat) (witprogram : Bytes) (witness : List Bytes) : Nat :=
  if witversion = 0 ∧ witprogram.length = 20 then 1
  else if witversion = 0 ∧ witprogram.length = 32 then
    match witness.getLast? with
    | none => 0
    | some subscript => CScript.getSigOpCount subscript true
  else if witversion = 2 ∧ witprogram.length = 20 then 20
  else 0

def countWitnessSigOps (scriptSig scriptPubKey : CScript) (witness : List Bytes)
    (flags : ScriptFlags) : Nat :=
  if .witness ∉ flags then 0
  else
    match scriptPubKey.isWitnessProgram with
    | some (version, program) => witnessSigOps version program witness
    | none =>
      if scriptPubKey.isPayToScriptHash && scriptSig.isPushOnly then
        let subscript : CScript := (CScript.lastPush scriptSig.length [] scriptSig).getD []
        match subscript.isWitnessProgram with
        | some (version, program) => witnessSigOps version program witness
        | none => 0
      else 0

def getLegacySigOpCount (tx : CTransaction) : Nat :=
  (tx.vin.map fun i => CScript.getSigOpCount i.scriptSig false).sum +
    (tx.vout.map fun o => CScript.getSigOpCount o.scriptPubKey false).sum

def witnessScaleFactor : Nat := 4

/-- What one input adds in `GetTransactionSigOpCost`, for the output it spends. -/
def inputSigOpCost (flags : ScriptFlags) (i : CTxIn) (o : CTxOut) : Nat :=
  let p2sh :=
    if .p2sh ∈ flags ∧ CScript.isPayToScriptHash o.scriptPubKey = true then
      CScript.getScriptHashSigOpCount o.scriptPubKey i.scriptSig * witnessScaleFactor
    else 0
  p2sh + countWitnessSigOps i.scriptSig o.scriptPubKey i.scriptWitness flags

/-- `GetTransactionSigOpCost`; `none` where an assertion fails -/
def getTransactionSigOpCost (view : CoinsView) (flags : ScriptFlags) (tx : CTransaction) :
    Option Nat :=
  let legacy := getLegacySigOpCount tx * witnessScaleFactor
  if tx.isCoinBase then some legacy
  else
    (tx.vin.mapM fun i => (view.access i.prevout).map fun c => inputSigOpCost flags i c.2).map
      fun costs => legacy + costs.sum

end RgmNode
