import RgmNode.Primitives.Unique
import RgmNode.Validation.ContextualCheck
import RgmNode.Validation.MergeMining
import RgmNode.Validation.MerkleRoot

/-!
# Witnesses are committed to

The hash of a transaction leaves its witnesses out; a block commits to them in an output of its
first transaction.  The tree of the commitment may be mutated, which the rule does not look at:
the list of transaction hashes fixes the number of leaves, and that is enough.

* `vtx_eq_of_checkWitnesses` — the rule fixes the witnesses
-/

namespace RgmNode

open Checks List CTransaction LittleEndian

namespace CBlock

variable {cr : Crypto} {params : Consensus.Params} {block : CBlock}
  {pindexPrev : Option CBlockIndex}

/-! ## 1. The commitment that is made -/

theorem getWitnessCommitmentIndex_append {vout : List CTxOut} {out : CTxOut}
    (hvout : block.firstTx.vout = vout ++ [out]) (hout : isCommitment out.scriptPubKey = true) :
    block.getWitnessCommitmentIndex = some vout.length := by
  rw [getWitnessCommitmentIndex, hvout, zipIdx_append]
  simp [hout]

theorem isCommitment_commitmentOutput (cr : Crypto) (block : CBlock) :
    isCommitment (block.commitmentOutput cr).scriptPubKey = true := by
  simp [isCommitment, commitmentOutput, commitmentHeader, Uint256.length_bytes]

/-- A block whose first transaction has an input, but no witness and no commitment. -/
structure Uncommitted (block : CBlock) : Prop where
  coinbase : ∃ tx ∈ block.vtx.head?, tx.isCoinBase = true
  witness : block.firstTx.hasWitness = false
  commitment : block.getWitnessCommitmentIndex = none

/-- A block passes the rule with the commitment that is made for it, whatever witnesses its
other transactions have. -/
theorem checkWitnesses_generateCoinbaseCommitment (hnone : block.Uncommitted)
    (hon : ChainState.isWitnessEnabled pindexPrev params = true)
    (htimeout : params.nSegwitTimeout ≠ 0) :
    ((block.generateCoinbaseCommitment cr pindexPrev params).1).checkWitnesses cr params pindexPrev =
      .ok () := by
  obtain ⟨tx, htx, hcoinbase⟩ := hnone.coinbase
  obtain ⟨vtx, hvtx⟩ : ∃ vtx, block.vtx = tx :: vtx := head?_eq_some_iff.mp htx
  obtain ⟨txin, hvin⟩ : ∃ txin, tx.vin = [txin] := by
    unfold isCoinBase at hcoinbase
    split at hcoinbase
    · next i heq => exact ⟨i, heq⟩
    · cases hcoinbase
  have hfirst : block.firstTx = tx := by rw [firstTx, hvtx]; rfl
  -- the block with the output, and with the nonce
  set out := block.commitmentOutput cr with hout
  set committed := block.modifyFirst fun tx => { tx with vout := tx.vout ++ [out] } with hcommitted
  have hfirst' : committed.firstTx = { tx with vout := tx.vout ++ [out] } := by
    rw [hcommitted, firstTx, modifyFirst, hvtx]
    rfl
  have hindex : committed.getWitnessCommitmentIndex = some tx.vout.length :=
    getWitnessCommitmentIndex_append (by rw [hfirst']) (isCommitment_commitmentOutput cr block)
  have hgenerated : (block.generateCoinbaseCommitment cr pindexPrev params).1 =
      committed.modifyFirst setNonce := by
    have hwitness : committed.firstTx.hasWitness = false := by
      have hsame := hnone.witness
      rw [hfirst] at hsame
      rw [hfirst']
      exact hsame
    rw [generateCoinbaseCommitment, if_pos ⟨htimeout, hnone.commitment⟩]
    simp only [updateUncommittedBlockStructures]
    rw [if_pos ⟨by rw [← hout, ← hcommitted, hindex]; simp, hon, hwitness⟩]
  have hresult : (committed.modifyFirst setNonce).vtx =
      setNonce { tx with vout := tx.vout ++ [out] } :: vtx := by
    rw [hcommitted, modifyFirst, modifyFirst, hvtx]
    rfl
  have hfirstR : (committed.modifyFirst setNonce).firstTx =
      setNonce { tx with vout := tx.vout ++ [out] } := by rw [firstTx, hresult]; rfl
  -- what the rule reads
  have hindexR : (committed.modifyFirst setNonce).getWitnessCommitmentIndex = some tx.vout.length :=
    getWitnessCommitmentIndex_append (by rw [hfirstR]; rfl) (isCommitment_commitmentOutput cr block)
  have hnonce : (committed.modifyFirst setNonce).witnessNonce = some zeroNonce := by
    rw [witnessNonce, hfirstR, setNonce]
    simp only [input, hvin]
    rfl
  have hinput : (committed.modifyFirst setNonce).commitmentInput cr zeroNonce =
      block.commitmentInput cr zeroNonce := by
    simp only [commitmentInput, blockWitnessMerkleRoot, witnessLeaves, hresult, hvtx, tail_cons]
  have hread : (committed.modifyFirst setNonce).commitmentAt tx.vout.length =
      (cr.hash256 (block.commitmentInput cr zeroNonce)).bytes := by
    rw [commitmentAt, hfirstR, setNonce]
    simp only [getD_eq_getElem?_getD, getElem?_concat_length, Option.getD_some, hout,
      commitmentOutput, commitmentHeader]
    exact take_of_length_le (Uint256.length_bytes _).le
  rw [hgenerated, checkWitnesses, if_pos hon, hindexR, hnonce]
  simp only [hinput, hread, require_eq_ok_iff]

/-! ## 2. The commitment that is checked -/

/-- The byte strings that are hashed for the transactions of a block and its commitment. -/
def committedInputs (cr : Crypto) (block : CBlock) : List Bytes :=
  block.vtx.map (·.serializeNoWitness) ++ block.vtx.map (·.serialize) ++
    (Merkle.hashed cr (block.witnessLeaves cr)).map (fun p => p.1.bytes ++ p.2.bytes) ++
    [block.commitmentInput cr (block.witnessNonce.getD [])]

/-- What the rule says of a block with a commitment. -/
theorem checkWitnesses_eq_ok (hon : ChainState.isWitnessEnabled pindexPrev params = true)
    (h : block.checkWitnesses cr params pindexPrev = .ok ()) :
    (block.getWitnessCommitmentIndex = none ∧ ∀ tx ∈ block.vtx, tx.hasWitness = false) ∨
      ∃ commitpos, block.getWitnessCommitmentIndex = some commitpos ∧
        (cr.hash256 (block.commitmentInput cr (block.witnessNonce.getD []))).bytes =
          block.commitmentAt commitpos := by
  rw [checkWitnesses, if_pos hon] at h
  cases hindex : block.getWitnessCommitmentIndex with
  | none =>
    rw [hindex] at h
    exact .inl ⟨rfl, require_eq_ok_iff.mp h⟩
  | some commitpos =>
    rw [hindex] at h
    cases hnonce : block.witnessNonce with
    | none => simp only [hnonce] at h; cases h
    | some nonce =>
      simp only [hnonce] at h
      exact .inr ⟨commitpos, rfl, require_eq_ok_iff.mp h⟩

/-- `GetWitnessHash` is the hash of the extended format, which is the short one where there is no
witness. -/
theorem getWitnessHash_eq (cr : Crypto) (tx : CTransaction) :
    tx.getWitnessHash cr = cr.hash256 tx.serialize := by
  unfold getWitnessHash serialize
  split <;> rfl

theorem firstTx_eq_getElem {block : CBlock} (h : 0 < block.vtx.length) :
    block.firstTx = block.vtx[0] := by
  rw [firstTx, headD_eq_head?_getD, head?_eq_getElem?, getElem?_eq_getElem h]
  rfl

theorem getElem?_witnessLeaves {block : CBlock} {n : Nat} (h : n + 1 < block.vtx.length) :
    (block.witnessLeaves cr)[n + 1]? = some ((block.vtx[n + 1]).getWitnessHash cr) := by
  rw [witnessLeaves, getElem?_cons_succ, getElem?_map, getElem?_tail, getElem?_eq_getElem h]
  rfl

variable {a b : CBlock}

section Hashes

variable (hfree : cr.CollisionFree (a.committedInputs cr ++ b.committedInputs cr))

include hfree

section

variable {tx tx' : CTransaction} (htx : tx ∈ a.vtx) (htx' : tx' ∈ b.vtx)

include htx htx'

theorem serializeNoWitness_eq_of_getHash (h : tx.getHash cr = tx'.getHash cr) :
    tx.serializeNoWitness = tx'.serializeNoWitness := by
  refine hfree _ (mem_append_left _ ?_) _ (mem_append_right _ ?_) h
  · simp only [committedInputs, mem_append, mem_map]
    exact .inl (.inl (.inl ⟨tx, htx, rfl⟩))
  · simp only [committedInputs, mem_append, mem_map]
    exact .inl (.inl (.inl ⟨tx', htx', rfl⟩))

theorem serialize_eq_of_getWitnessHash (h : tx.getWitnessHash cr = tx'.getWitnessHash cr) :
    tx.serialize = tx'.serialize := by
  rw [getWitnessHash_eq, getWitnessHash_eq] at h
  refine hfree _ (mem_append_left _ ?_) _ (mem_append_right _ ?_) h
  · simp only [committedInputs, mem_append, mem_map]
    exact .inl (.inl (.inr ⟨tx, htx, rfl⟩))
  · simp only [committedInputs, mem_append, mem_map]
    exact .inl (.inl (.inr ⟨tx', htx', rfl⟩))

end

theorem witnessRoot_eq_of_commitment
    (h : cr.hash256 (a.commitmentInput cr (a.witnessNonce.getD [])) =
      cr.hash256 (b.commitmentInput cr (b.witnessNonce.getD []))) :
    a.blockWitnessMerkleRoot cr = b.blockWitnessMerkleRoot cr := by
  have hbytes := hfree _ (mem_append_left _ (by simp [committedInputs])) _
    (mem_append_right _ (by simp [committedInputs])) h
  exact (parses_uint256 trivial trivial hbytes).1

theorem witnessLeaves_eq_of_root (hlen : a.vtx.length = b.vtx.length)
    (h : a.blockWitnessMerkleRoot cr = b.blockWitnessMerkleRoot cr) :
    a.witnessLeaves cr = b.witnessLeaves cr := by
  have hmem : ∀ p ∈ Merkle.hashed cr (a.witnessLeaves cr) ++ Merkle.hashed cr (b.witnessLeaves cr),
      p.1.bytes ++ p.2.bytes ∈ a.committedInputs cr ++ b.committedInputs cr := by
    intro p hp
    rcases mem_append.mp hp with hp | hp
    · refine mem_append_left _ ?_
      simp only [committedInputs, mem_append, mem_map]
      exact .inl (.inr ⟨p, hp, rfl⟩)
    · refine mem_append_right _ ?_
      simp only [committedInputs, mem_append, mem_map]
      exact .inl (.inr ⟨p, hp, rfl⟩)
  refine Merkle.eq_of_computeMerkleRoot_of_length (cons_ne_nil _ _)
    (by simp [witnessLeaves, hlen]) (fun p hp q hq heq => ?_) h
  obtain ⟨hfst, hsnd⟩ := parses_uint256 trivial trivial (hfree _ (hmem p hp) _ (hmem q hq) heq)
  exact Prod.ext hfst (Uint256.bytes_injective hsnd)

end Hashes

/-- Blocks with the same transaction hashes and the same witness of the first transaction that pass
the rule have the same transactions, witnesses included. -/
theorem vtx_eq_of_checkWitnesses {params' : Consensus.Params} {pindexPrev' : Option CBlockIndex}
    (ha : ∀ tx ∈ a.vtx, tx.Fits) (hb : ∀ tx ∈ b.vtx, tx.Fits)
    (hon : ChainState.isWitnessEnabled pindexPrev params = true)
    (hon' : ChainState.isWitnessEnabled pindexPrev' params' = true)
    (hpass : a.checkWitnesses cr params pindexPrev = .ok ())
    (hpass' : b.checkWitnesses cr params' pindexPrev' = .ok ())
    (hfree : cr.CollisionFree (a.committedInputs cr ++ b.committedInputs cr))
    (htxids : a.vtx.map (·.getHash cr) = b.vtx.map (·.getHash cr))
    (hfirst : a.firstTx.witnesses = b.firstTx.witnesses) : a.vtx = b.vtx := by
  have hlen : a.vtx.length = b.vtx.length := by simpa using congrArg List.length htxids
  have hstripped : ∀ n (hn : n < a.vtx.length) (hn' : n < b.vtx.length),
      (a.vtx[n]).stripped = (b.vtx[n]).stripped := by
    intro n hn hn'
    have hhash : (a.vtx[n]).getHash cr = (b.vtx[n]).getHash cr := by
      simpa [hn, hn'] using congrArg (·[n]?) htxids
    exact stripped_eq_of_serializeNoWitness (ha _ (getElem_mem hn))
      (hb _ (getElem_mem hn'))
      (serializeNoWitness_eq_of_getHash hfree (getElem_mem hn) (getElem_mem hn') hhash)
  have hinputs : ∀ n (hn : n < a.vtx.length) (hn' : n < b.vtx.length),
      (a.vtx[n]).vin.length = (b.vtx[n]).vin.length := by
    intro n hn hn'
    simpa [stripped] using congrArg (·.vin.length) (hstripped n hn hn')
  -- the first transactions are equal, and so is what the rule reads of them
  have hsame : a.firstTx = b.firstTx := by
    rcases Nat.eq_zero_or_pos a.vtx.length with hzero | hpos
    · rw [firstTx, firstTx, eq_nil_of_length_eq_zero hzero,
        eq_nil_of_length_eq_zero (hlen.symm.trans hzero)]
    · refine eq_of_stripped ?_ hfirst
      rw [firstTx_eq_getElem hpos, firstTx_eq_getElem (hlen ▸ hpos)]
      exact hstripped 0 hpos (hlen ▸ hpos)
  have hindex : a.getWitnessCommitmentIndex = b.getWitnessCommitmentIndex := by
    rw [getWitnessCommitmentIndex, getWitnessCommitmentIndex, hsame]
  refine ext_getElem hlen fun n hn hn' => ?_
  rcases checkWitnesses_eq_ok hon hpass with ⟨hnone, hnowitness⟩ | ⟨commitpos, hpos, hcommit⟩
  · rcases checkWitnesses_eq_ok hon' hpass' with ⟨-, hnowitness'⟩ | ⟨_, hpos', -⟩
    · exact eq_of_stripped (hstripped n hn hn')
        (witnesses_eq_of_not_hasWitness (hinputs n hn hn')
          (hnowitness _ (getElem_mem hn)) (hnowitness' _ (getElem_mem hn')))
    · rw [← hindex, hnone] at hpos'
      cases hpos'
  · rcases checkWitnesses_eq_ok hon' hpass' with ⟨hnone', -⟩ | ⟨commitpos', hpos', hcommit'⟩
    · rw [hindex, hnone'] at hpos
      cases hpos
    · obtain rfl : commitpos = commitpos' :=
        Option.some.inj (hpos.symm.trans (hindex.trans hpos'))
      have hread : a.commitmentAt commitpos = b.commitmentAt commitpos := by
        rw [commitmentAt, commitmentAt, hsame]
      have hroot := witnessRoot_eq_of_commitment hfree
        (Uint256.bytes_injective (hcommit.trans (hread.trans hcommit'.symm)))
      have hleaves := witnessLeaves_eq_of_root hfree hlen hroot
      cases n with
      | zero => rw [← firstTx_eq_getElem hn, ← firstTx_eq_getElem hn', hsame]
      | succ n =>
        have hleaf := congrArg (·[n + 1]?) hleaves
        simp only [getElem?_witnessLeaves hn, getElem?_witnessLeaves hn', Option.some.injEq] at hleaf
        exact eq_of_serialize (ha _ (getElem_mem hn)) (hb _ (getElem_mem hn'))
          (hinputs _ hn hn') (serialize_eq_of_getWitnessHash hfree (getElem_mem hn)
            (getElem_mem hn') hleaf)

end CBlock

/-! ## 3. Both -/

theorem nSegwitTimeout_ne_zero (net : Network) (h : Nat) :
    (net.params.getConsensus h).nSegwitTimeout ≠ 0 := by
  rw [getConsensus_shared net h (·.nSegwitTimeout) (by cases net <;> rfl)]
  cases net <;> decide

/-- Where the witness rules are on, a block passes with the commitment made for it; and blocks with
the same transaction hashes and the same witness of the first transaction that pass have the same
transactions, witnesses included. -/
theorem witnesses_committed (cr : Crypto) (net : Network) :
    (∀ (block : CBlock) (pindexPrev : Option CBlockIndex), block.Uncommitted →
        ChainState.isWitnessEnabled pindexPrev
          (net.params.getConsensus (nextHeight pindexPrev)) = true →
        (block.generateCoinbaseCommitment cr pindexPrev
          (net.params.getConsensus (nextHeight pindexPrev))).1.checkWitnesses cr
            (net.params.getConsensus (nextHeight pindexPrev)) pindexPrev = .ok ()) ∧
      ∀ (csvActive csvActive' : Option CBlockIndex → Bool) (a b : CBlock)
        (pindexPrev pindexPrev' : Option CBlockIndex),
        (∀ tx ∈ a.vtx, tx.Fits) → (∀ tx ∈ b.vtx, tx.Fits) →
        ChainState.isWitnessEnabled pindexPrev
          (net.params.getConsensus (nextHeight pindexPrev)) = true →
        ChainState.isWitnessEnabled pindexPrev'
          (net.params.getConsensus (nextHeight pindexPrev')) = true →
        contextualCheckBlock cr net.params csvActive a pindexPrev = .ok () →
        contextualCheckBlock cr net.params csvActive' b pindexPrev' = .ok () →
        cr.CollisionFree (a.committedInputs cr ++ b.committedInputs cr) →
        a.vtx.map (·.getHash cr) = b.vtx.map (·.getHash cr) →
        a.firstTx.witnesses = b.firstTx.witnesses → a.vtx = b.vtx := by
  refine ⟨fun block pindexPrev hnone hon => ?_, ?_⟩
  · exact CBlock.checkWitnesses_generateCoinbaseCommitment hnone hon (nSegwitTimeout_ne_zero net _)
  · intro csvActive csvActive' a b pindexPrev pindexPrev' ha hb hon hon' hpass hpass'
    exact CBlock.vtx_eq_of_checkWitnesses ha hb hon hon' (contextualCheckBlock_eq_ok hpass)
      (contextualCheckBlock_eq_ok hpass')

namespace CommitmentExample

/-- A sum over the first two words keeps the few byte strings below apart. -/
def crypto : Crypto where
  sha256 := fun b =>
    if b.length = 32 then BitVec.ofNat 256 (decode b)
    else BitVec.ofNat 256
      (3 * decode b + 7 * (decode b / 2 ^ 256) + b.length)
  ripemd160 := fun _ => 0
  sha1 := fun _ => 0
  scrypt := fun _ => 0

/-- The last block of `regtest` before the witness rules. -/
def parent : CBlockIndex := steadyChain sampleData 49

/-- A block with a witness in its second transaction. -/
def uncommitted : CBlock where
  nVersion := 4
  hashPrevBlock := 1
  hashMerkleRoot := 0
  nTime := 1800000001
  nBits := 0
  nNonce := 0
  auxpow := none
  vtx := [⟨1, [⟨COutPoint.null, [1, 50], 0, []⟩], [⟨50, [Opcode.op1]⟩], 0⟩,
    ⟨1, [⟨⟨9, 0⟩, [], 0, [[1, 2], [3]]⟩], [⟨40, [Opcode.op1]⟩], 0⟩]

def committed : CBlock :=
  (uncommitted.generateCoinbaseCommitment crypto (some parent)
    (Network.regtest.params.getConsensus 50)).1

end CommitmentExample

open CommitmentExample in
/-- The block passes with its commitment, and one with another time has the same witnesses. -/
theorem witnesses_committed_regtest :
    uncommitted.Uncommitted ∧
      committed.checkWitnesses crypto (Network.regtest.params.getConsensus 50) (some parent) =
        .ok () ∧
      committed.vtx = ({ committed with nTime := 1800000002 } : CBlock).vtx := by
  have hheight : nextHeight (some parent) = 50 := by decide +kernel
  have hnone : uncommitted.Uncommitted := by
    refine ⟨⟨_, rfl, by decide⟩, by decide, by decide⟩
  have hon : ChainState.isWitnessEnabled (some parent)
      (Network.regtest.params.getConsensus (nextHeight (some parent))) = true := by decide +kernel
  have hfits : ∀ tx ∈ committed.vtx, tx.Fits := by decide +kernel
  obtain ⟨hmade, hfixed⟩ := witnesses_committed crypto .regtest
  refine ⟨hnone, ?_, ?_⟩
  · rw [← hheight]
    exact hmade uncommitted (some parent) hnone hon
  · exact hfixed (fun _ => false) (fun _ => false) committed _ (some parent) (some parent) hfits hfits
      hon hon (by decide +kernel) (by decide +kernel) (by decide +kernel) rfl rfl

end RgmNode
