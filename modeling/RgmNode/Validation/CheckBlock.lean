import RgmNode.Validation.TxInputs

/-!
# Checks of blocks without context

`CheckTransaction` and `CheckBlock` of `validation.cpp`, and the root of the Merkle tree of a
block (`consensus/merkle.cpp`).

* `checkTransaction_eq_ok` — what a transaction that passes is like
* `checkBlock_eq_ok` — a block that passes starts with its only coinbase, and all its
  transactions pass
-/

namespace RgmNode

open Checks List

/-! ## 1. Transactions -/

/-- `MAX_BLOCK_BASE_SIZE` -/
def maxBlockBaseSize : Nat := 1000000

/-- One round of the loop over the outputs. -/
def checkOutput (nValueOut : CAmount) (txout : CTxOut) : Except Reject CAmount := do
  require (0 ≤ txout.nValue) (.dos 100 .invalid "bad-txns-vout-negative")
  require (txout.nValue ≤ maxMoney) (.dos 100 .invalid "bad-txns-vout-toolarge")
  require (moneyRange (nValueOut + txout.nValue) = true)
    (.dos 100 .invalid "bad-txns-txouttotal-toolarge")
  return nValueOut + txout.nValue

/-- The inputs of a transaction: a coinbase has a script of a certain size, another names
outputs. -/
def checkInputScripts (tx : CTransaction) : Except Reject Unit :=
  if tx.isCoinBase then
    require (∀ txin ∈ tx.vin.head?, 2 ≤ txin.scriptSig.length ∧ txin.scriptSig.length ≤ 100)
      (.dos 100 .invalid "bad-cb-length")
  else
    require (∀ txin ∈ tx.vin, txin.prevout.isNull = false)
      (.dos 10 .invalid "bad-txns-prevout-null")

def checkTransaction (tx : CTransaction) (fCheckDuplicateInputs : Bool) : Except Reject Unit := do
  require (tx.vin ≠ []) (.dos 10 .invalid "bad-txns-vin-empty")
  require (tx.vout ≠ []) (.dos 10 .invalid "bad-txns-vout-empty")
  require (tx.serializeNoWitness.length ≤ maxBlockBaseSize) (.dos 100 .invalid "bad-txns-oversize")
  let _ ← tx.vout.foldlM checkOutput 0
  require (fCheckDuplicateInputs = true → (tx.vin.map (·.prevout)).Nodup)
    (.dos 100 .invalid "bad-txns-inputs-duplicate")
  checkInputScripts tx

/-! ## 2. The Merkle root -/

namespace Merkle

def node (cr : Crypto) (l r : Uint256) : Uint256 := cr.hash256 (l.bytes ++ r.bytes)

/-- A leaf is added to the subtrees that are complete (`inner`, one for each bit of the number
of leaves): equal subtrees are joined, and it is noted if two of them have the same hash. -/
def addLeaf (cr : Crypto) : Uint256 → List (Option Uint256) → List (Option Uint256) × Bool
  | h, [] => ([some h], false)
  | h, none :: inner => (some h :: inner, false)
  | h, some l :: inner =>
    let (inner, mutated) := addLeaf cr (node cr l h) inner
    (none :: inner, l == h || mutated)

/-- The right side of the tree: a node that is joined takes up what stands at its level, and one
without a neighbour is joined with itself. -/
def sweep (cr : Crypto) : Uint256 → List (Option Uint256) → Uint256
  | h, [] => h
  | h, some l :: inner => sweep cr (node cr l h) inner
  | h, none :: inner => if inner.isEmpty then h else sweep cr (node cr h h) inner

def top (cr : Crypto) : List (Option Uint256) → Uint256
  | [] => 0
  | none :: inner => top cr inner
  | some h :: inner => if inner.isEmpty then h else sweep cr (node cr h h) inner

/-- `ComputeMerkleRoot`, and whether the tree is mutated -/
def computeMerkleRoot (cr : Crypto) (leaves : List Uint256) : Uint256 × Bool :=
  let (inner, mutated) := leaves.foldl (fun (inner, mutated) h =>
    let (inner, again) := addLeaf cr h inner
    (inner, mutated || again)) ([], false)
  (top cr inner, mutated)

end Merkle

def blockMerkleRoot (cr : Crypto) (block : CBlock) : Uint256 × Bool :=
  Merkle.computeMerkleRoot cr (block.vtx.map (·.getHash cr))

/-! ## 3. Blocks -/

def CAuxPow.sizeNoWitness (a : CAuxPow) : Nat :=
  a.tx.serializeNoWitness.length + 32 + (serVector Uint256.bytes a.vMerkleBranch).length + 4 +
    (serVector Uint256.bytes a.vChainMerkleBranch).length + 4 + a.parentBlock.serialize.length

/-- `GetSerializeSize` of a block without witnesses -/
def CBlock.sizeNoWitness (block : CBlock) : Nat :=
  block.serialize.length +
    (if block.isAuxpow then (block.auxpow.map CAuxPow.sizeNoWitness).getD 0 else 0) +
    (serVector CTransaction.serializeNoWitness block.vtx).length

/-- `uint256::ToString` -/
def Uint256.toText (x : Uint256) : String :=
  String.ofList ((List.range 64).reverse.map fun i => hexDigit (x.toNat / 16 ^ i % 16))

def checkMerkleRoot (cr : Crypto) (block : CBlock) (fCheckMerkleRoot : Bool) :
    Except Reject Unit := do
  let (hashMerkleRoot2, mutated) := blockMerkleRoot cr block
  require (fCheckMerkleRoot = true → block.hashMerkleRoot = hashMerkleRoot2)
    (.dos 100 .invalid "bad-txnmrklroot" true "hashMerkleRoot mismatch")
  require (fCheckMerkleRoot = true → mutated = false)
    (.dos 100 .invalid "bad-txns-duplicate" true "duplicate transaction")

/-- `CheckTransaction` for a transaction of a block; the penalty is the one it gave -/
def checkBlockTransaction (cr : Crypto) (tx : CTransaction) : Except Reject Unit :=
  match checkTransaction tx true with
  | .ok _ => .ok ()
  | .error r => .error (.dos r.nDoS r.chRejectCode r.strRejectReason false
      ("Transaction check failed (tx hash " ++ (tx.getHash cr).toText ++ ") " ++ r.strDebugMessage))

/-- `CheckBlock`; the memo `fChecked` is left out -/
def checkBlock (cr : Crypto) (cp : CChainParams) (block : CBlock)
    (fCheckPOW fCheckMerkleRoot : Bool) : Except Reject Unit := do
  checkBlockHeader cr cp block.toCBlockHeader fCheckPOW
  checkMerkleRoot cr block fCheckMerkleRoot
  require (block.vtx ≠ [] ∧ block.vtx.length ≤ maxBlockBaseSize ∧
      block.sizeNoWitness ≤ maxBlockBaseSize)
    (.dos 100 .invalid "bad-blk-length" false "size limits failed")
  require ((block.vtx.head?).any (·.isCoinBase) = true)
    (.dos 100 .invalid "bad-cb-missing" false "first tx is not coinbase")
  require (∀ tx ∈ block.vtx.tail, tx.isCoinBase = false)
    (.dos 100 .invalid "bad-cb-multiple" false "more than one coinbase")
  block.vtx.forM (checkBlockTransaction cr)
  require ((block.vtx.map getLegacySigOpCount).sum * witnessScaleFactor ≤ maxBlockSigOpsCost)
    (.dos 100 .invalid "bad-blk-sigops" false "out-of-bounds SigOpCount")

/-- `ConnectBlock` checks a block as `CheckBlock` does. -/
def ConnectEnv.ChecksBlocks (env : ConnectEnv) : Prop :=
  ∀ block fJustCheck, env.checkBlock block fJustCheck =
    RgmNode.checkBlock env.cr env.net.params block (!fJustCheck) (!fJustCheck)

/-! ## 4. What passes -/

theorem foldlM_checkOutput_eq_ok {outs : List CTxOut} {start v : CAmount}
    (hstart : moneyRange start = true) (h : outs.foldlM checkOutput start = .ok v) :
    InRange start (outs.map (·.nValue)) := by
  induction outs generalizing start with
  | nil => exact inRange_nil hstart
  | cons o outs ih =>
    obtain ⟨u, hround, h⟩ := bind_eq_ok_iff.mp h
    unfold checkOutput at hround
    rw [require_bind_eq_ok_iff, require_bind_eq_ok_iff, require_bind_eq_ok_iff] at hround
    obtain ⟨hlow, hhigh, hsum, hu⟩ := hround
    cases hu
    exact (inRange_cons hstart).mpr ⟨moneyRange_iff.mpr ⟨hlow, hhigh⟩, hsum, ih hsum h⟩

/-- A transaction that `CheckTransaction` accepts. -/
structure TxChecked (tx : CTransaction) : Prop where
  size : tx.serializeNoWitness.length ≤ maxBlockBaseSize
  outputs : InRange 0 (tx.vout.map (·.nValue))
  distinct : (tx.vin.map (·.prevout)).Nodup

variable {tx : CTransaction}

theorem checkTransaction_eq_ok (h : checkTransaction tx true = .ok ()) : TxChecked tx := by
  unfold checkTransaction at h
  rw [require_bind_eq_ok_iff, require_bind_eq_ok_iff, require_bind_eq_ok_iff] at h
  obtain ⟨-, -, hsize, h⟩ := h
  obtain ⟨v, houts, h⟩ := bind_eq_ok_iff.mp h
  obtain ⟨hdistinct, -⟩ := require_bind_eq_ok_iff.mp h
  exact ⟨hsize, foldlM_checkOutput_eq_ok (by decide) houts, hdistinct rfl⟩

theorem length_le_serVector {α : Type} {ser : α → Bytes} (h : ∀ a, 0 < (ser a).length)
    (as : List α) : as.length ≤ (serVector ser as).length := by
  have hflat : as.length ≤ (as.flatMap ser).length := by
    induction as with
    | nil => exact le_refl 0
    | cons a as ih =>
      have ha := h a
      rw [flatMap_cons, length_append, length_cons]
      omega
  rw [serVector, length_append]
  omega

theorem TxChecked.length_vin (h : TxChecked tx) : tx.vin.length ≤ maxBlockBaseSize := by
  have hpos : ∀ i : CTxIn, 0 < i.serialize.length := fun i => by
    simp [CTxIn.serialize, COutPoint.serialize]
  have hle := length_le_serVector hpos tx.vin
  have hsize := h.size
  rw [CTransaction.serializeNoWitness] at hsize
  simp only [length_append] at hsize
  omega

theorem TxChecked.length_vout (h : TxChecked tx) : tx.vout.length ≤ maxBlockBaseSize := by
  have hpos : ∀ o : CTxOut, 0 < o.serialize.length := fun o => by
    simp [CTxOut.serialize, serInt64]
  have hle := length_le_serVector hpos tx.vout
  have hsize := h.size
  rw [CTransaction.serializeNoWitness] at hsize
  simp only [length_append] at hsize
  omega

/-- A block that `CheckBlock` accepts. -/
structure BlockChecked (block : CBlock) : Prop where
  first : ∃ coinbase txs, block.vtx = coinbase :: txs ∧ coinbase.isCoinBase = true ∧
    ∀ tx ∈ txs, tx.isCoinBase = false
  length : block.vtx.length ≤ maxBlockBaseSize
  checked : ∀ tx ∈ block.vtx, TxChecked tx

theorem checkBlockTransaction_eq_ok {cr : Crypto} (h : checkBlockTransaction cr tx = .ok ()) :
    TxChecked tx := by
  unfold checkBlockTransaction at h
  split at h
  · next hcheck => exact checkTransaction_eq_ok hcheck
  · cases h

theorem checkBlock_eq_ok {cr : Crypto} {cp : CChainParams} {block : CBlock}
    {fCheckPOW fCheckMerkleRoot : Bool}
    (h : checkBlock cr cp block fCheckPOW fCheckMerkleRoot = .ok ()) : BlockChecked block := by
  obtain ⟨-, -, h⟩ := bind_eq_ok_iff.mp h
  obtain ⟨-, -, h⟩ := bind_eq_ok_iff.mp h
  rw [require_bind_eq_ok_iff, require_bind_eq_ok_iff, require_bind_eq_ok_iff] at h
  obtain ⟨⟨-, hlength, -⟩, hfirst, hrest, h⟩ := h
  obtain ⟨_, htxs, -⟩ := bind_eq_ok_iff.mp h
  refine ⟨?_, hlength, fun tx htx => checkBlockTransaction_eq_ok (forM_eq_ok_iff.mp htxs tx htx)⟩
  cases hvtx : block.vtx with
  | nil =>
    rw [hvtx] at hfirst
    cases hfirst
  | cons coinbase txs =>
    rw [hvtx] at hfirst hrest
    exact ⟨coinbase, txs, rfl, by simpa using hfirst, hrest⟩

/-- A block that is checked again passes `CheckBlock`. -/
theorem ConnectEnv.ChecksBlocks.blockChecked {env : ConnectEnv} (henv : env.ChecksBlocks)
    {block : CBlock} {fJustCheck : Bool} (h : recheckBlock env block fJustCheck = .ok ()) :
    BlockChecked block := by
  unfold recheckBlock at h
  split at h
  · next hcheck =>
    rw [henv] at hcheck
    exact checkBlock_eq_ok hcheck
  · split at h <;> cases h

end RgmNode
