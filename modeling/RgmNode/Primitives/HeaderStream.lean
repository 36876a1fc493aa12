import RgmNode.Primitives.Header
import RgmNode.Primitives.Unserialize

/-!
# Block headers with merge-mining proofs on a stream

The serialisation of `CPureBlockHeader`, `CAuxPow` and `CBlockHeader`.  Whether a proof follows
the 80 bytes of a header is said by a bit of the version in them; the proof is a transaction with
its branch, a second branch and the 80 bytes of the parent header.

* `CAuxPow.unserialize_serializeWith`, `CAuxPow.yields_unserialize` — a proof is read back exactly
  if it has no vector above `MAX_SIZE`
-/

namespace RgmNode

/-- `SerializeTransaction`; the flag stands for the version of the stream. -/
def CTransaction.serializeWith (fAllowWitness : Bool) (tx : CTransaction) : Bytes :=
  if fAllowWitness then tx.serialize else tx.serializeNoWitness

/-! ## 1. The code -/

def CPureBlockHeader.unserialize : Reader CPureBlockHeader := do
  let nVersion ← readInt32
  let hashPrevBlock ← readUint256
  let hashMerkleRoot ← readUint256
  let nTime ← readUInt32
  let nBits ← readUInt32
  let nNonce ← readUInt32
  return ⟨nVersion, hashPrevBlock, hashMerkleRoot, nTime, nBits, nNonce⟩

namespace CAuxPow

def serializeWith (fAllowWitness : Bool) (a : CAuxPow) : Bytes :=
  a.tx.serializeWith fAllowWitness ++ a.hashBlock.bytes ++
    serVector Uint256.bytes a.vMerkleBranch ++ serInt32 a.nIndex ++
    serVector Uint256.bytes a.vChainMerkleBranch ++ serInt32 a.nChainIndex ++
    a.parentBlock.serialize

def unserialize (fAllowWitness : Bool) : Reader CAuxPow := do
  let tx ← CTransaction.unserialize fAllowWitness
  let hashBlock ← readUint256
  let vMerkleBranch ← readList readUint256
  let nIndex ← readInt32
  let vChainMerkleBranch ← readList readUint256
  let nChainIndex ← readInt32
  let parentBlock ← CPureBlockHeader.unserialize
  return ⟨tx, hashBlock, vMerkleBranch, nIndex, vChainMerkleBranch, nChainIndex, parentBlock⟩

end CAuxPow

namespace CBlockHeader

/-- `SerializationOp` for writing; `none` where the assertion fails. -/
def serializeWith (fAllowWitness : Bool) (h : CBlockHeader) : Option Bytes :=
  if h.isAuxpow then
    h.auxpow.map fun a => h.serialize ++ a.serializeWith fAllowWitness
  else
    some h.serialize

/-- `SerializationOp` for reading -/
def unserialize (fAllowWitness : Bool) : Reader CBlockHeader := do
  let pure ← CPureBlockHeader.unserialize
  if pure.isAuxpow then
    let auxpow ← CAuxPow.unserialize fAllowWitness
    return ⟨pure, some auxpow⟩
  else
    return ⟨pure, none⟩

end CBlockHeader

/-! ## 2. Proofs -/

open CPureBlockHeader List

theorem CPureBlockHeader.unserialize_serialize (h : CPureBlockHeader) (rest : Bytes) :
    CPureBlockHeader.unserialize (h.serialize ++ rest) = some (h, rest) := by
  rw [CPureBlockHeader.unserialize, serialize]
  simp only [append_assoc]
  rw [bind_apply_of_eq (readInt32_write h.nVersion _),
    bind_apply_of_eq (readUint256_bytes h.hashPrevBlock _),
    bind_apply_of_eq (readUint256_bytes h.hashMerkleRoot _),
    bind_apply_of_eq (readUInt32_write h.nTime _), bind_apply_of_eq (readUInt32_write h.nBits _),
    bind_apply_of_eq (readUInt32_write h.nNonce _)]
  rfl

theorem CPureBlockHeader.length_serialize (h : CPureBlockHeader) : h.serialize.length = 80 := by
  simp [serialize, serInt32, serUInt32]

theorem readBranch_write {branch : List Uint256} (h : branch.length ≤ maxSize) (rest : Bytes) :
    readList readUint256 (serVector Uint256.bytes branch ++ rest) = some (branch, rest) := by
  have hread := readList_serVector h (fun x _ rest => readUint256_bytes x rest) rest
  rwa [map_id'] at hread

namespace CAuxPow

/-- The coinbase transaction of a proof as the types of the source hold it, with an input and
without witnesses. -/
structure Plain (a : CAuxPow) : Prop where
  fits : a.tx.Fits
  input : a.tx.vin ≠ []
  witness : a.tx.hasWitness = false

/-- No vector of a proof is longer than `MAX_SIZE`. -/
structure WithinMaxSize (a : CAuxPow) : Prop where
  tx : a.tx.WithinMaxSize
  branch : a.vMerkleBranch.length ≤ maxSize
  chainBranch : a.vChainMerkleBranch.length ≤ maxSize

variable {a : CAuxPow} {fAllowWitness : Bool}

/-- The transaction of a proof has one form on either kind of stream. -/
theorem unserialize_tx (hplain : a.Plain) (hsize : a.tx.WithinMaxSize) (rest : Bytes) :
    CTransaction.unserialize fAllowWitness (a.tx.serializeWith fAllowWitness ++ rest) =
      some (a.tx, rest) := by
  have hstripped := CTransaction.stripped_of_not_hasWitness hplain.witness
  have hread := CTransaction.unserialize_serializeNoWitness fAllowWitness hplain.fits
    (hstripped.symm ▸ hsize) (.inl hplain.input) rest
  have hform : a.tx.serializeWith fAllowWitness = a.tx.serializeNoWitness := by
    cases fAllowWitness with
    | false => rfl
    | true => simp [CTransaction.serializeWith, CTransaction.serialize, hplain.witness]
  rw [hform, hread, hstripped]

theorem unserialize_serializeWith (hplain : a.Plain) (hsize : a.WithinMaxSize) (rest : Bytes) :
    unserialize fAllowWitness (a.serializeWith fAllowWitness ++ rest) = some (a, rest) := by
  rw [unserialize, serializeWith]
  simp only [append_assoc]
  rw [bind_apply_of_eq (unserialize_tx hplain hsize.tx _),
    bind_apply_of_eq (readUint256_bytes a.hashBlock _),
    bind_apply_of_eq (readBranch_write hsize.branch _),
    bind_apply_of_eq (readInt32_write a.nIndex _),
    bind_apply_of_eq (readBranch_write hsize.chainBranch _),
    bind_apply_of_eq (readInt32_write a.nChainIndex _),
    bind_apply_of_eq (unserialize_serialize a.parentBlock _)]
  rfl

theorem yields_unserialize (fAllowWitness : Bool) :
    Yields (unserialize fAllowWitness) WithinMaxSize := by
  have hbranch : Yields (readList readUint256) _ := yields_readList yields_true
  refine (CTransaction.yields_unserialize fAllowWitness).bind fun tx htx => yields_true.bind
    fun hash _ => hbranch.bind fun branch hbranch' => yields_true.bind fun index _ =>
      hbranch.bind fun chain hchain => yields_true.bind fun chainIndex _ => yields_true.bind
        fun parent _ => yields_pure ⟨htx, hbranch'.1, hchain.1⟩

end CAuxPow

namespace CBlockHeader

variable {h : CBlockHeader} {fAllowWitness : Bool}

/-! ## 3. Headers -/

theorem unserialize_pure (hflag : h.isAuxpow = false) (hnone : h.auxpow = none) (rest : Bytes) :
    unserialize fAllowWitness (h.serialize ++ rest) = some (h, rest) := by
  rw [unserialize, bind_apply_of_eq (unserialize_serialize _ rest),
    if_neg (by rw [hflag]; exact Bool.false_ne_true), ← hnone]
  rfl

theorem unserialize_auxpow {a : CAuxPow} (hflag : h.isAuxpow = true) (hsome : h.auxpow = some a)
    (hplain : a.Plain) (hsize : a.WithinMaxSize) (rest : Bytes) :
    unserialize fAllowWitness (h.serialize ++ a.serializeWith fAllowWitness ++ rest) =
      some (h, rest) := by
  rw [unserialize, append_assoc,
    bind_apply_of_eq (unserialize_serialize _ _), if_pos hflag,
    bind_apply_of_eq (CAuxPow.unserialize_serializeWith hplain hsize rest), ← hsome]
  rfl

theorem yields_unserialize (fAllowWitness : Bool) :
    Yields (unserialize fAllowWitness) fun h => ∀ a ∈ h.auxpow, a.WithinMaxSize := by
  refine yields_true.bind fun header _ => ?_
  split
  · refine (CAuxPow.yields_unserialize fAllowWitness).bind fun a ha => yields_pure fun b hb => ?_
    cases hb
    exact ha
  · exact yields_pure nofun

theorem take_serialize (h : CBlockHeader) (rest : Bytes) :
    (h.serialize ++ rest).take 80 = h.serialize :=
  take_left' (length_serialize _)

/-- A header whose proof is there exactly if its version says so is written; what was written is
read back exactly if no vector of the proof is longer than `MAX_SIZE`.  The hash is that of the
first 80 bytes, so that another proof does not change it. -/
theorem header_round_trip (hset : h.auxpow.isSome = h.isAuxpow) (hplain : ∀ a ∈ h.auxpow, a.Plain)
    (fAllowWitness : Bool) :
    ∃ bytes, h.serializeWith fAllowWitness = some bytes ∧
      (∀ rest, unserialize fAllowWitness (bytes ++ rest) = some (h, rest) ↔
        ∀ a ∈ h.auxpow, a.WithinMaxSize) ∧
      (∀ cr, h.getHash cr = cr.hash256 (bytes.take 80)) ∧
      ∀ cr proof, { h with auxpow := proof }.getHash cr = h.getHash cr := by
  cases hsome : h.auxpow with
  | none =>
    have hflag : h.isAuxpow = false := by rw [← hset, hsome]; rfl
    refine ⟨h.serialize, by rw [serializeWith, hflag]; rfl, fun rest => ?_, fun cr => ?_,
      fun cr proof => rfl⟩
    · exact ⟨nofun, fun _ => unserialize_pure hflag hsome rest⟩
    · rw [take_of_length_le (Nat.le_of_eq (CPureBlockHeader.length_serialize _))]
      rfl
  | some a =>
    have hflag : h.isAuxpow = true := by rw [← hset, hsome]; rfl
    refine ⟨h.serialize ++ a.serializeWith fAllowWitness, ?_, fun rest => ?_, fun cr => ?_,
      fun cr proof => rfl⟩
    · rw [serializeWith, if_pos hflag, hsome]
      rfl
    · constructor
      · intro hread
        exact hsome ▸ yields_unserialize fAllowWitness hread
      · intro hsize
        exact unserialize_auxpow hflag hsome (hplain a hsome) (hsize a rfl) rest
    · rw [take_serialize]
      rfl

def sampleCoinbase : CTransaction := ⟨1, [⟨COutPoint.null, [0x51], 0, []⟩], [⟨50, []⟩], 0⟩

theorem sampleCoinbase_fits : sampleCoinbase.Fits := by decide

/-- A header of version 0x52470104 with a proof. -/
def sampleHeader (branch : List Uint256) : CBlockHeader :=
  { nVersion := 0x52470104, hashPrevBlock := 1, hashMerkleRoot := 2, nTime := 3, nBits := 4
    nNonce := 5
    auxpow := some ⟨sampleCoinbase, 6, branch, -1, [7], 1, ⟨1, 0, 0, 8, 9, 10⟩⟩ }

theorem sampleHeader_plain (branch : List Uint256) :
    ∀ a ∈ (sampleHeader branch).auxpow, a.Plain := by
  intro a ha
  cases ha
  exact ⟨sampleCoinbase_fits, cons_ne_nil _ _, rfl⟩

theorem header_round_trip_sample :
    ∃ bytes, (sampleHeader [11, 12]).serializeWith true = some bytes ∧
      unserialize true (bytes ++ [13]) = some (sampleHeader [11, 12], [13]) := by
  obtain ⟨bytes, hwrite, hread, -, -⟩ :=
    header_round_trip (h := sampleHeader [11, 12]) (by decide) (sampleHeader_plain _) true
  refine ⟨bytes, hwrite, (hread [13]).mpr ?_⟩
  intro a ha
  cases ha
  exact ⟨by decide, by decide, by decide⟩

/-- A proof with a branch that is longer than `MAX_SIZE` is written, but not read back. -/
theorem oversized_branch_not_read :
    let h := sampleHeader (replicate (maxSize + 1) 0)
    h.auxpow.isSome = h.isAuxpow ∧ (∀ a ∈ h.auxpow, a.Plain) ∧
      ∀ bytes, h.serializeWith true = some bytes →
        unserialize true (bytes ++ []) ≠ some (h, []) := by
  refine ⟨by decide, sampleHeader_plain _, fun bytes _ hread => ?_⟩
  have hsize := (yields_unserialize true hread _ rfl).branch
  rw [length_replicate] at hsize
  exact absurd hsize (Nat.not_succ_le_self _)

end CBlockHeader

end RgmNode
