import RgmNode.Validation.CheckBlock
import RgmNode.Validation.CoinsDB

/-!
# Undo data

What `UpdateCoins` records of the outputs a block spends (`undo.h`), its serialisation with
`UndoWriteToDisk` and `UndoReadFromDisk`, and `ApplyTxInUndo` and `DisconnectBlock`
(`validation.cpp`).  The height, the version and the coinbase flag of a transaction are
recorded with its last output only; a height of 0 says that they are not.
-/

namespace RgmNode

/-! ## 1. Records -/

/-- The output an input spends; with the last output of a transaction its coinbase flag, height
and version. -/
structure CTxInUndo where
  txout : CTxOut
  fCoinBase : Bool
  nHeight : Nat
  nVersion : Int32
deriving DecidableEq, Repr

/-- `CTxUndo`: one record for each input -/
abbrev CTxUndo := List CTxInUndo

/-- `CBlockUndo`: the records of all transactions but the coinbase -/
abbrev CBlockUndo := List CTxUndo

namespace CTxInUndo

def serialize (ops : PubKeyOps) (undo : CTxInUndo) : Bytes :=
  VarInt.write 32 ((undo.nHeight * 2 + undo.fCoinBase.toNat) % 2 ^ 32 : Nat) ++
    ((if 0 < undo.nHeight then VarInt.write 32 undo.nVersion.toInt else []) ++
      writeTxOut ops undo.txout)

/-- The version is there if the height is. -/
def readVersion (nHeight : Nat) : Reader Int32 :=
  if 0 < nHeight then do return (UInt32.ofNat (← readVarInt 32)).toInt32 else return 0

def unserialize (ops : PubKeyOps) : Reader CTxInUndo := do
  let nCode ← readVarInt 32
  let nVersion ← readVersion (nCode / 2)
  let txout ← readTxOut ops
  return ⟨txout, nCode.testBit 0, nCode / 2, nVersion⟩

end CTxInUndo

def CBlockUndo.serialize (ops : PubKeyOps) (undo : CBlockUndo) : Bytes :=
  serVector (serVector (CTxInUndo.serialize ops)) undo

def undoChecksum (cr : Crypto) (ops : PubKeyOps) (undo : CBlockUndo) (hashBlock : Uint256) :
    Uint256 :=
  cr.hash256 (hashBlock.bytes ++ CBlockUndo.serialize ops undo)

/-- `UndoWriteToDisk`: what stands in the file from the position of the block on; the file
itself and the header before that position are left out. -/
def undoWriteToDisk (cr : Crypto) (ops : PubKeyOps) (undo : CBlockUndo) (hashBlock : Uint256) :
    Bytes :=
  CBlockUndo.serialize ops undo ++ (undoChecksum cr ops undo hashBlock).bytes

/-- `UndoReadFromDisk`; `none` where it fails -/
def undoReadFromDisk (cr : Crypto) (ops : PubKeyOps) (file : Bytes) (hashBlock : Uint256) :
    Option CBlockUndo :=
  match readList (readList (CTxInUndo.unserialize ops)) file with
  | none => none
  | some (undo, rest) =>
    match readBytes 32 rest with
    | none => none
    | some (hashChecksum, _) =>
      if hashChecksum = (undoChecksum cr ops undo hashBlock).bytes then some undo else none

/-! ## 2. Recording -/

namespace CoinsView

/-- An input of `UpdateCoins`, with what is recorded for it. -/
def spendInputUndo (view : CoinsView) (txin : CTxIn) : Option (CoinsView × CTxInUndo) :=
  match view.coins txin.prevout.hash with
  | none => none
  | some c =>
    match c.output txin.prevout.n.toNat with
    | none => none
    | some txout =>
      let coins := c.spend txin.prevout.n.toNat
      let undo :=
        if coins.vout = [] then ⟨txout, coins.fCoinBase, coins.nHeight, coins.nVersion⟩
        else ⟨txout, false, 0, 0⟩
      some ({ view with coins := Function.update view.coins txin.prevout.hash (some coins) }, undo)

/-- The inputs of `UpdateCoins`, from the first to the last. -/
def spendInputsUndo : CoinsView → List CTxIn → Option (CoinsView × CTxUndo)
  | view, [] => some (view, [])
  | view, txin :: vin =>
    (view.spendInputUndo txin).bind fun r =>
      (spendInputsUndo r.1 vin).map fun r' => (r'.1, r.2 :: r'.2)

/-- `UpdateCoins` -/
def updateCoinsUndo (cr : Crypto) (view : CoinsView) (tx : CTransaction) (nHeight : Nat) :
    Option (CoinsView × CTxUndo) :=
  (if tx.isCoinBase then some (view, []) else view.spendInputsUndo tx.vin).bind fun r =>
    (r.1.addCoins cr tx nHeight).map fun view => (view, r.2)

/-- `UpdateCoins` for one transaction after the other. -/
def updateAllUndo (cr : Crypto) (nHeight : Nat) :
    CoinsView → List CTransaction → Option (CoinsView × List CTxUndo)
  | view, [] => some (view, [])
  | view, tx :: txs =>
    (view.updateCoinsUndo cr tx nHeight).bind fun r =>
      (updateAllUndo cr nHeight r.1 txs).map fun r' => (r'.1, r.2 :: r'.2)

/-- What `ConnectBlock` records for a block; of its first transaction nothing is. -/
def recordedUndo (cr : Crypto) (view : CoinsView) (block : CBlock) (nHeight : Nat) :
    Option CBlockUndo :=
  (updateAllUndo cr nHeight view block.vtx).map fun r => r.2.tail

end CoinsView

/-! ## 3. Disconnecting -/

/-- `vout.resize(n)`, to a greater size -/
def resizeOutputs (vout : List CTxOut) (n : Nat) : List CTxOut :=
  vout ++ List.replicate (n - vout.length) CTxOut.null

namespace CoinsView

/-- What `ModifyCoins` hands out: the coins that are there or cleared ones. -/
def coinsAt (view : CoinsView) (txid : Uint256) : CCoins := (view.coins txid).getD .cleared

/-- What a modifier leaves behind. -/
def putCoins (view : CoinsView) (txid : Uint256) (coins : CCoins) : CoinsView :=
  { view with coins := Function.update view.coins txid (some coins.cleanup) }

/-- `ApplyTxInUndo`, and whether it was clean -/
def applyTxInUndo (undo : CTxInUndo) (view : CoinsView) (out : COutPoint) : CoinsView × Bool :=
  let coins := view.coinsAt out.hash
  let fClean := if undo.nHeight ≠ 0 then coins.isPruned else !coins.isPruned
  let coins : CCoins :=
    if undo.nHeight ≠ 0 then ⟨undo.fCoinBase, [], undo.nHeight, undo.nVersion⟩ else coins
  let fClean := fClean && (coins.output out.n.toNat).isNone
  let size := (out.n + 1).toNat
  let vout := if coins.vout.length < size then resizeOutputs coins.vout size else coins.vout
  (view.putCoins out.hash { coins with vout := vout.set out.n.toNat undo.txout }, fClean)

end CoinsView

namespace CCoins

def clearUnspendable (c : CCoins) : CCoins :=
  cleanup { c with vout := c.vout.map fun o =>
    if CScript.isUnspendable o.scriptPubKey then CTxOut.null else o }

/-- `operator==`: coins that are pruned are equal -/
def same (a b : CCoins) : Bool := (a.isPruned && b.isPruned) || a == b

end CCoins

namespace CoinsView

/-- The outputs of a transaction are compared with the view and removed from it. -/
def removeOutputs (cr : Crypto) (nHeight : Nat) (view : CoinsView) (tx : CTransaction) :
    CoinsView × Bool :=
  let hash := tx.getHash cr
  let outs := (view.coinsAt hash).clearUnspendable
  let outsBlock := CCoins.fromTx tx nHeight
  -- the serialisation of coins does not keep negative versions
  let outs := if outsBlock.nVersion.toInt < 0 then { outs with nVersion := outsBlock.nVersion }
    else outs
  (view.putCoins hash .cleared, outs.same outsBlock)

/-- The inputs of a transaction are restored, from the last to the first. -/
def restoreInputs (view : CoinsView) (ins : List (CTxIn × CTxInUndo)) : CoinsView × Bool :=
  ins.foldr (fun i r =>
    let r' := applyTxInUndo i.2 r.1 i.1.prevout
    (r'.1, r.2 && r'.2)) (view, true)

/-- A round of the loop of `DisconnectBlock`: the undo data is there for all transactions but
the first. -/
def disconnectTx (cr : Crypto) (nHeight : Nat) (tx : CTransaction × Option CTxUndo)
    (r : CoinsView × Bool) : Option (CoinsView × Bool) :=
  let removed := r.1.removeOutputs cr nHeight tx.1
  match tx.2 with
  | none => some (removed.1, r.2 && removed.2)
  | some txundo =>
    if txundo.length ≠ tx.1.vin.length then none
    else
      let restored := removed.1.restoreInputs (tx.1.vin.zip txundo)
      some (restored.1, r.2 && removed.2 && restored.2)

/-- `DisconnectBlock`, with what stands in the undo file: the view before the block, and whether
all was clean; `none` where it fails or an assertion does -/
def disconnectBlock (cr : Crypto) (ops : PubKeyOps) (file : Option Bytes) (block : CBlock)
    (pindex : CBlockIndex) (view : CoinsView) : Option (CoinsView × Bool) :=
  if pindex.getBlockHash ≠ view.hashBlock then none
  else
    match file, pindex.pprev with
    | some file, some pprev =>
      match undoReadFromDisk cr ops file pprev.getBlockHash with
      | none => none
      | some blockUndo =>
        if blockUndo.length + 1 ≠ block.vtx.length then none
        else
          ((block.vtx.zip (none :: blockUndo.map some)).foldrM
              (disconnectTx cr pindex.nHeight) (view, true)).map
            fun r => ({ r.1 with hashBlock := pprev.getBlockHash }, r.2)
    | _, _ => none

end CoinsView

/-! ## 4. Undo data is read back -/

/-- What a version is read back as: a negative one loses all but its low seven bits. -/
def versionBack (v : Int32) : Int32 :=
  if v.toInt < 0 then (UInt32.ofNat (v.toInt % 128).toNat).toInt32 else v

theorem versionBack_of_nonneg {v : Int32} (h : 0 ≤ v.toInt) : versionBack v = v :=
  if_neg (Int.not_lt.mpr h)

theorem toInt_versionBack_of_neg {v : Int32} (h : v.toInt < 0) :
    (versionBack v).toInt = v.toInt % 128 := by
  have hsmall : (v.toInt % 128).toNat < 2 ^ 31 := by omega
  rw [versionBack, if_pos h, UInt32.toInt32_ofNat', Int32.toInt_ofNat_of_lt hsmall]
  omega

/-- The same bytes are written for what is read back. -/
theorem write_versionBack (v : Int32) :
    VarInt.write 32 (versionBack v).toInt = VarInt.write 32 v.toInt := by
  by_cases h : v.toInt < 0
  · rw [toInt_versionBack_of_neg h, ← VarInt.write_neg h]
  · rw [versionBack_of_nonneg (Int.not_lt.mp h)]

theorem readVersion_write {v : Int32} {nHeight : Nat} (h : 0 < nHeight) (rest : Bytes) :
    CTxInUndo.readVersion nHeight (VarInt.write 32 v.toInt ++ rest) =
      some (versionBack v, rest) := by
  rw [CTxInUndo.readVersion, if_pos h]
  by_cases hneg : v.toInt < 0
  · have hlow : (v.toInt % 128).toNat < 2 ^ 32 := by omega
    have hcast : v.toInt % 128 = ((v.toInt % 128).toNat : Int) := by omega
    rw [VarInt.write_neg hneg, hcast, bind_apply_of_eq (readVarInt_write (by decide) hlow rest),
      versionBack, if_pos hneg]
    rfl
  · obtain ⟨n, hn⟩ := Int.eq_ofNat_of_zero_le (Int.not_lt.mp hneg)
    have hlt : v.toInt < 2 ^ 31 := v.toInt_lt
    have hsmall : n < 2 ^ 31 := by omega
    have hback : (UInt32.ofNat n).toInt32 = v := by
      apply Int32.toInt_inj.mp
      rw [UInt32.toInt32_ofNat', Int32.toInt_ofNat_of_lt hsmall, hn]
    rw [versionBack_of_nonneg (Int.not_lt.mp hneg), hn,
      bind_apply_of_eq (readVarInt_write (by decide) (by omega) rest), hback]
    rfl

namespace CTxInUndo

def back (undo : CTxInUndo) : CTxInUndo :=
  { undo with nVersion := if 0 < undo.nHeight then versionBack undo.nVersion else 0 }

/-- A record with numbers that fit the types of the source, an amount in the range of money and
a script that can be run. -/
structure Usual (undo : CTxInUndo) : Prop where
  height : undo.nHeight < 2 ^ 31
  low : 0 ≤ undo.txout.nValue
  high : undo.txout.nValue ≤ 10 ^ 18
  script : undo.txout.scriptPubKey.length ≤ maxScriptSize

theorem serialize_back (ops : PubKeyOps) (undo : CTxInUndo) :
    undo.back.serialize ops = undo.serialize ops := by
  have hwritten : (if 0 < undo.nHeight then VarInt.write 32 undo.back.nVersion.toInt else []) =
      if 0 < undo.nHeight then VarInt.write 32 undo.nVersion.toInt else [] := by
    split
    · next hpos => rw [back, if_pos hpos, write_versionBack]
    · rfl
  show VarInt.write 32 _ ++ ((if 0 < undo.nHeight then _ else []) ++ _) = _
  rw [hwritten]
  rfl

theorem unserialize_serialize {ops : PubKeyOps} (hops : ops.Lawful) {undo : CTxInUndo}
    (h : undo.Usual) (rest : Bytes) :
    unserialize ops (undo.serialize ops ++ rest) = some (undo.back, rest) := by
  have hbit : undo.fCoinBase.toNat ≤ 1 := Bool.toNat_le _
  have hheight := h.height
  have hfit : undo.nHeight * 2 + undo.fCoinBase.toNat < 2 ^ 32 := by omega
  have hdiv : (undo.nHeight * 2 + undo.fCoinBase.toNat) / 2 = undo.nHeight := by omega
  have hlow : (undo.nHeight * 2 + undo.fCoinBase.toNat).testBit 0 = undo.fCoinBase := by
    cases undo.fCoinBase <;> simp [Nat.testBit_zero]
  have hversion : readVersion undo.nHeight
      ((if 0 < undo.nHeight then VarInt.write 32 undo.nVersion.toInt else []) ++
        (writeTxOut ops undo.txout ++ rest)) =
      some (undo.back.nVersion, writeTxOut ops undo.txout ++ rest) := by
    by_cases hpos : 0 < undo.nHeight
    · rw [if_pos hpos, readVersion_write hpos, back, if_pos hpos]
    · rw [if_neg hpos, readVersion, if_neg hpos, back, if_neg hpos]
      rfl
  rw [unserialize, serialize, Nat.mod_eq_of_lt hfit, List.append_assoc,
    bind_apply_of_eq (readVarInt_write (by decide) hfit _), hdiv, hlow, List.append_assoc,
    bind_apply_of_eq hversion,
    bind_apply_of_eq (readTxOut_writeTxOut hops h.low h.high h.script rest)]
  rfl

end CTxInUndo

def CBlockUndo.back (undo : CBlockUndo) : CBlockUndo := undo.map (List.map CTxInUndo.back)

theorem serVector_map {α : Type} {ser : α → Bytes} {back : α → α}
    (h : ∀ a, ser (back a) = ser a) (as : List α) :
    serVector ser (as.map back) = serVector ser as := by
  simp only [serVector, List.length_map, List.flatMap_map, h]

theorem CBlockUndo.serialize_back (ops : PubKeyOps) (undo : CBlockUndo) :
    CBlockUndo.serialize ops (CBlockUndo.back undo) = CBlockUndo.serialize ops undo :=
  serVector_map (serVector_map (CTxInUndo.serialize_back ops)) undo

/-- Undo data that is written is read back, and its checksum is right. -/
theorem undoReadFromDisk_write {cr : Crypto} {ops : PubKeyOps} (hops : ops.Lawful)
    {undo : CBlockUndo} (hashBlock : Uint256) (hlen : undo.length ≤ maxSize)
    (htx : ∀ txundo ∈ undo, txundo.length ≤ maxSize ∧ ∀ u ∈ txundo, CTxInUndo.Usual u) :
    undoReadFromDisk cr ops (undoWriteToDisk cr ops undo hashBlock) hashBlock =
      some (CBlockUndo.back undo) := by
  have hread := readList_serVector hlen
    (fun txundo htxundo rest => readList_serVector (htx txundo htxundo).1
      (fun u hu rest => CTxInUndo.unserialize_serialize hops ((htx txundo htxundo).2 u hu) rest)
      rest)
    (undoChecksum cr ops undo hashBlock).bytes
  have hsum : undoChecksum cr ops (CBlockUndo.back undo) hashBlock =
      undoChecksum cr ops undo hashBlock := by
    rw [undoChecksum, undoChecksum, CBlockUndo.serialize_back]
  have hbytes : readBytes 32 (undoChecksum cr ops undo hashBlock).bytes =
      some ((undoChecksum cr ops undo hashBlock).bytes, []) := by
    simp [readBytes]
  rw [undoReadFromDisk, undoWriteToDisk, CBlockUndo.serialize, hread]
  dsimp only
  exact if_pos (congrArg Uint256.bytes hsum.symm)

end RgmNode
