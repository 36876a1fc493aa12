import RgmNode.Validation.CheckBlock

/-!
# Checks of blocks in their context

`ContextualCheckBlock`, and `GenerateCoinbaseCommitment`, with which a miner makes a block that
passes its rule for witnesses.  The version bits of the `CSV` deployment are a parameter.  The
source reads the first transaction and its first input without a check, since `CheckBlock` has
passed before; here a missing one is empty.

* `contextualCheckBlock_eq_ok` — a block that passes has passed the rule for witnesses
-/

namespace RgmNode

open Checks

/-! ## 1. Lock times and sizes -/

def isFinalTx (tx : CTransaction) (nBlockHeight nBlockTime : Int) : Bool :=
  tx.nLockTime == 0 ||
    decide ((tx.nLockTime.toNat : Int) <
      if tx.nLockTime.toNat < locktimeThreshold then nBlockHeight else nBlockTime) ||
    tx.vin.all fun txin => txin.nSequence == CTxIn.sequenceFinal

/-- `CScript() << n` -/
def CScript.pushInt64 (n : Int) : CScript :=
  if n = -1 ∨ (1 ≤ n ∧ n ≤ 16) then [UInt8.ofNat (n + 0x50).toNat]
  else if n = 0 then [Opcode.op0]
  else CScript.pushData (CScriptNum.serialize n)

/-- `MAX_BLOCK_WEIGHT` -/
def maxBlockWeight : Nat := 4000000

def CAuxPow.size (a : CAuxPow) : Nat :=
  a.tx.serialize.length + 32 + (serVector Uint256.bytes a.vMerkleBranch).length + 4 +
    (serVector Uint256.bytes a.vChainMerkleBranch).length + 4 + a.parentBlock.serialize.length

/-- `GetSerializeSize` of a block -/
def CBlock.size (block : CBlock) : Nat :=
  block.serialize.length +
    (if block.isAuxpow then (block.auxpow.map CAuxPow.size).getD 0 else 0) +
    (serVector CTransaction.serialize block.vtx).length

/-- `GetBlockWeight` -/
def CBlock.weight (block : CBlock) : Nat :=
  block.sizeNoWitness * (witnessScaleFactor - 1) + block.size

/-! ## 2. The commitment to the witnesses -/

def CTransaction.getWitnessHash (cr : Crypto) (tx : CTransaction) : Uint256 :=
  if tx.hasWitness then cr.hash256 tx.serialize else tx.getHash cr

def CTransaction.null : CTransaction := ⟨1, [], [], 0⟩

namespace CBlock

def firstTx (block : CBlock) : CTransaction := block.vtx.headD CTransaction.null

/-- The leaves of the tree of witnesses: in the place of the first transaction there is a zero. -/
def witnessLeaves (cr : Crypto) (block : CBlock) : List Uint256 :=
  0 :: block.vtx.tail.map (·.getWitnessHash cr)

/-- `BlockWitnessMerkleRoot`; its callers do not use whether the tree is mutated -/
def blockWitnessMerkleRoot (cr : Crypto) (block : CBlock) : Uint256 :=
  (Merkle.computeMerkleRoot cr (block.witnessLeaves cr)).1

def commitmentHeader : Bytes := [Opcode.ret, 0x24, 0xaa, 0x21, 0xa9, 0xed]

def isCommitment (script : CScript) : Bool :=
  38 ≤ script.length && script.take 6 == commitmentHeader

/-- `GetWitnessCommitmentIndex`: the last output with a commitment, `none` for -1 -/
def getWitnessCommitmentIndex (block : CBlock) : Option Nat :=
  block.firstTx.vout.zipIdx.foldl
    (fun commitpos (out, o) => if isCommitment out.scriptPubKey then some o else commitpos) none

def commitmentInput (cr : Crypto) (block : CBlock) (nonce : Bytes) : Bytes :=
  (block.blockWitnessMerkleRoot cr).bytes ++ nonce

/-- The hash in the output `commitpos`. -/
def commitmentAt (block : CBlock) (commitpos : Nat) : Bytes :=
  ((block.firstTx.vout.getD commitpos CTxOut.null).scriptPubKey.drop 6).take 32

/-- The witness of the first input, if it is a single item of 32 bytes. -/
def witnessNonce (block : CBlock) : Option Bytes :=
  match (block.firstTx.input 0).scriptWitness with
  | [nonce] => if nonce.length = 32 then some nonce else none
  | _ => none

/-- The rule for witnesses: a block that commits to them has to do it right, another has none. -/
def checkWitnesses (cr : Crypto) (params : Consensus.Params) (block : CBlock)
    (pindexPrev : Option CBlockIndex) : Except Reject Unit :=
  match if ChainState.isWitnessEnabled pindexPrev params then block.getWitnessCommitmentIndex
      else none with
  | some commitpos =>
    match block.witnessNonce with
    | none => .error (.dos 100 .invalid "bad-witness-nonce-size" true
        "ContextualCheckBlock : invalid witness nonce size")
    | some nonce =>
      require ((cr.hash256 (block.commitmentInput cr nonce)).bytes = block.commitmentAt commitpos)
        (.dos 100 .invalid "bad-witness-merkle-match" true
          "ContextualCheckBlock : witness merkle commitment mismatch")
  | none =>
    require (∀ tx ∈ block.vtx, tx.hasWitness = false)
      (.dos 100 .invalid "unexpected-witness" true
        "ContextualCheckBlock : unexpected witness data found")

end CBlock

/-! ## 3. The check -/

/-- The height of the block after `pindexPrev`. -/
def nextHeight : Option CBlockIndex → Nat
  | none => 0
  | some pindexPrev => pindexPrev.nHeight + 1

def contextualCheckBlock (cr : Crypto) (cp : CChainParams) (csvActive : Option CBlockIndex → Bool)
    (block : CBlock) (pindexPrev : Option CBlockIndex) : Except Reject Unit := do
  let nHeight := nextHeight pindexPrev
  let consensusParams := cp.getConsensus nHeight
  let nLockTimeCutoff :=
    if csvActive pindexPrev then (pindexPrev.map (·.getMedianTimePast)).getD 0
    else block.getBlockTime
  require (∀ tx ∈ block.vtx, isFinalTx tx nHeight nLockTimeCutoff = true)
    (.dos 10 .invalid "bad-txns-nonfinal" false "non-final transaction")
  require (consensusParams.bip34Height ≤ nHeight →
      (CScript.pushInt64 nHeight).isPrefixOf (block.firstTx.input 0).scriptSig = true)
    (.dos 100 .invalid "bad-cb-height" false "block height mismatch in coinbase")
  block.checkWitnesses cr consensusParams pindexPrev
  require (block.weight ≤ maxBlockWeight)
    (.dos 100 .invalid "bad-blk-weight" false "ContextualCheckBlock : weight limit failed")

theorem contextualCheckBlock_eq_ok {cr : Crypto} {cp : CChainParams}
    {csvActive : Option CBlockIndex → Bool} {block : CBlock} {pindexPrev : Option CBlockIndex}
    (h : contextualCheckBlock cr cp csvActive block pindexPrev = .ok ()) :
    block.checkWitnesses cr (cp.getConsensus (nextHeight pindexPrev)) pindexPrev = .ok () := by
  obtain ⟨-, h⟩ := require_bind_eq_ok_iff.mp h
  obtain ⟨-, h⟩ := require_bind_eq_ok_iff.mp h
  obtain ⟨⟨⟩, hwitness, -⟩ := bind_eq_ok_iff.mp h
  exact hwitness

/-! ## 4. Making a commitment -/

namespace CBlock

def modifyFirst (f : CTransaction → CTransaction) (block : CBlock) : CBlock :=
  { block with vtx := block.vtx.modifyHead f }

/-- The nonce of the blocks that a node makes. -/
def zeroNonce : Bytes := List.replicate 32 0

/-- The witness of the first input is the nonce. -/
def setNonce (tx : CTransaction) : CTransaction :=
  { tx with vin := tx.vin.modifyHead fun txin => { txin with scriptWitness := [zeroNonce] } }

def updateUncommittedBlockStructures (block : CBlock) (pindexPrev : Option CBlockIndex)
    (params : Consensus.Params) : CBlock :=
  if block.getWitnessCommitmentIndex ≠ none ∧ ChainState.isWitnessEnabled pindexPrev params = true ∧
      block.firstTx.hasWitness = false then
    block.modifyFirst setNonce
  else block

def commitmentOutput (cr : Crypto) (block : CBlock) : CTxOut :=
  ⟨0, commitmentHeader ++ (cr.hash256 (block.commitmentInput cr zeroNonce)).bytes⟩

/-- `GenerateCoinbaseCommitment`: the block, and the script of the output that was added -/
def generateCoinbaseCommitment (cr : Crypto) (block : CBlock) (pindexPrev : Option CBlockIndex)
    (params : Consensus.Params) : CBlock × Bytes :=
  if params.nSegwitTimeout ≠ 0 ∧ block.getWitnessCommitmentIndex = none then
    let out := block.commitmentOutput cr
    let committed := block.modifyFirst fun tx => { tx with vout := tx.vout ++ [out] }
    (committed.updateUncommittedBlockStructures pindexPrev params, out.scriptPubKey)
  else (block.updateUncommittedBlockStructures pindexPrev params, [])

end CBlock

end RgmNode
