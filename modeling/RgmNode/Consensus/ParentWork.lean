import RgmNode.Consensus.AuxPow
import RgmNode.Primitives.Unique

/-!
# One parent block is work for one block

The coinbase script of a parent block names the root of a tree of block hashes, one for each
merge-mined chain, the size of that tree and a nonce.  The merged-mining header fixes where in the
script the root stands, the size fixes the height of the tree, and the nonce with the id of the
chain fixes the leaf.
-/

namespace RgmNode

open List Uint256 LittleEndian

/-! ## 1. The search -/

theorem search_eq_some {s pat : Bytes} {i : Nat} (h : search s pat = some i) :
    (s.drop i).take pat.length = pat := by
  have hfound := find?_some h
  exact eq_of_beq hfound

theorem exists_search_of_infix {s pat : Bytes} (h : pat <:+: s) : ∃ i, search s pat = some i := by
  obtain ⟨u, t, rfl⟩ := h
  refine Option.isSome_iff_exists.mp (find?_isSome.mpr ⟨u.length, ?_, ?_⟩)
  · simp only [mem_range, length_append]
    omega
  · simp

namespace CAuxPow

/-! ## 2. What the coinbase names -/

/-- The script that `check` reads. -/
def coinbaseScript (a : CAuxPow) : CScript := (a.tx.vin.head?.map (·.scriptSig)).getD []

/-- The script names, from byte `pc` on, the root, the size and the nonce of the tree. -/
structure CoinbaseNames (a : CAuxPow) (nRootHash : Uint256) (nChainId : Int32) (script : CScript)
    (pc : Nat) : Prop where
  root : (script.drop pc).take 32 = nRootHash.bytes.reverse
  size : decode ((script.drop (pc + 32)).take 4) = 2 ^ a.vChainMerkleBranch.length
  index : a.nChainIndex = getExpectedIndex
    (UInt32.ofNat (decode (((script.drop (pc + 32)).drop 4).take 4))) nChainId
    a.vChainMerkleBranch.length

variable {nChainId nIndex : Int32} {a : CAuxPow}

theorem coinbaseNames_of_checkCoinbase {nRootHash : Uint256} {script : CScript} {pcHead : Nat}
    (hhead : search script pchMergedMiningHeader = some pcHead)
    (h : a.checkCoinbase nRootHash nChainId script = .ok ()) :
    a.CoinbaseNames nRootHash nChainId script (pcHead + 4) := by
  unfold checkCoinbase at h
  simp only [hhead] at h
  split at h
  · cases h
  next pc hpc =>
  have hroot := search_eq_some hpc
  -- a second header, or bytes between the header and the root, are refused
  split at h
  · cases h
  split at h
  · cases h
  next hplace =>
  obtain rfl : pcHead + 4 = pc := not_not.mp hplace
  split at h
  · cases h
  split at h
  · cases h
  next hsize =>
  split at h
  · cases h
  next hindex => exact ⟨hroot, not_not.mp hsize, not_not.mp hindex⟩

/-- Two trees that one script names are of one height and have one root, and the leaf of a chain
stands at one index. -/
theorem CoinbaseNames.unique {b : CAuxPow} {r s : Uint256} {script : CScript} {pc : Nat}
    (ha : a.CoinbaseNames r nChainId script pc) (hb : b.CoinbaseNames s nChainId script pc) :
    r = s ∧ a.vChainMerkleBranch.length = b.vChainMerkleBranch.length ∧
      a.nChainIndex = b.nChainIndex := by
  have hheight : a.vChainMerkleBranch.length = b.vChainMerkleBranch.length :=
    Nat.pow_right_injective (le_refl 2) (ha.size.symm.trans hb.size)
  refine ⟨?_, hheight, ?_⟩
  · exact bytes_injective (reverse_injective (ha.root.symm.trans hb.root))
  · rw [ha.index, hb.index, hheight]

/-- The index of a leaf is not the one that `CheckMerkleBranch` takes for an error. -/
theorem getExpectedIndex_ne {nNonce : UInt32} {h : Nat} (hh : h ≤ 30) :
    getExpectedIndex nNonce nChainId h ≠ -1 := by
  intro heq
  have hlt : ∀ n : Nat, n % 2 ^ h < 2 ^ 31 := fun n =>
    calc n % 2 ^ h < 2 ^ h := Nat.mod_lt _ (Nat.two_pow_pos h)
      _ ≤ 2 ^ 30 := Nat.pow_le_pow_right two_pos hh
      _ < 2 ^ 31 := by decide
  have hint := congrArg Int32.toInt heq
  rw [getExpectedIndex, Int32.toInt_ofNat_of_lt (hlt _)] at hint
  exact absurd hint (Int.natCast_nonneg _ |>.trans_lt' (by decide)).ne'

/-! ## 3. Branches -/

def branchInput (hash b : Uint256) (nIndex : Int32) : Bytes :=
  if nIndex &&& 1 != 0 then b.bytes ++ hash.bytes else hash.bytes ++ b.bytes

/-- The loop of `CheckMerkleBranch`. -/
def branchRoot (cr : Crypto) (hash : Uint256) : List Uint256 → Int32 → Uint256
  | [], _ => hash
  | b :: branch, nIndex =>
    branchRoot cr (cr.hash256 (branchInput hash b nIndex)) branch (nIndex >>> 1)

def branchInputs (cr : Crypto) (hash : Uint256) : List Uint256 → Int32 → List Bytes
  | [], _ => []
  | b :: branch, nIndex =>
    branchInput hash b nIndex ::
      branchInputs cr (cr.hash256 (branchInput hash b nIndex)) branch (nIndex >>> 1)

theorem checkMerkleBranch_eq (cr : Crypto) (hash : Uint256) (branch : List Uint256)
    (h : nIndex ≠ -1) :
    checkMerkleBranch cr hash branch nIndex = branchRoot cr hash branch nIndex := by
  rw [checkMerkleBranch, if_neg (by simpa using h)]
  clear h
  induction branch generalizing hash nIndex with
  | nil => rfl
  | cons b branch ih =>
    rw [foldl_cons, branchRoot, ← ih]
    congr 2
    simp only [branchInput]
    split <;> rfl

theorem branchInput_injective {x y b c : Uint256}
    (h : branchInput x b nIndex = branchInput y c nIndex) : x = y := by
  unfold branchInput at h
  split at h
  · exact bytes_injective
      (append_inj h (by rw [length_bytes, length_bytes])).2
  · exact bytes_injective
      (append_inj h (by rw [length_bytes, length_bytes])).1

/-- Branches of one length at one index lead from different leaves to different roots. -/
theorem eq_of_branchRoot {cr : Crypto} {bs cs : List Uint256} (hlen : bs.length = cs.length)
    {x y : Uint256} (hfree : ∀ s ∈ branchInputs cr x bs nIndex, ∀ t ∈ branchInputs cr y cs nIndex,
      cr.hash256 s = cr.hash256 t → s = t)
    (h : branchRoot cr x bs nIndex = branchRoot cr y cs nIndex) : x = y := by
  induction bs generalizing cs x y nIndex with
  | nil =>
    obtain rfl := eq_nil_of_length_eq_zero hlen.symm
    exact h
  | cons b bs ih =>
    cases cs with
    | nil => cases hlen
    | cons c cs =>
      have hnext := ih (Nat.succ.inj hlen)
        (fun s hs t ht => hfree s (mem_cons_of_mem _ hs) t (mem_cons_of_mem _ ht)) h
      exact branchInput_injective (hfree _ mem_cons_self _ mem_cons_self hnext)

/-- The byte strings that `check` hashes on the way from the block to the root of the chains. -/
def chainInputs (cr : Crypto) (a : CAuxPow) (hashAuxBlock : Uint256) : List Bytes :=
  branchInputs cr hashAuxBlock a.vChainMerkleBranch a.nChainIndex

/-! ## 4. The block of a coinbase -/

theorem coinbaseNames_of_check {cr : Crypto} {hash : Uint256} {params : Consensus.Params}
    {pcHead : Nat} (hhead : search a.coinbaseScript pchMergedMiningHeader = some pcHead)
    (h : a.check cr hash nChainId params = .ok ()) :
    a.CoinbaseNames (branchRoot cr hash a.vChainMerkleBranch a.nChainIndex) nChainId
      a.coinbaseScript (pcHead + 4) := by
  unfold check at h
  split at h
  · cases h
  split at h
  · cases h
  split at h
  · cases h
  next hheight =>
  split at h
  · cases h
  split at h
  · cases h
  next txin rest hvin =>
  have hscript : a.coinbaseScript = txin.scriptSig := by rw [coinbaseScript, hvin]; rfl
  rw [hscript] at hhead ⊢
  have hnames := coinbaseNames_of_checkCoinbase hhead h
  have hindex : a.nChainIndex ≠ -1 := by
    rw [hnames.index]
    exact getExpectedIndex_ne (not_lt.mp hheight)
  rwa [checkMerkleBranch_eq cr _ _ hindex] at hnames

end CAuxPow

open CAuxPow

/-- Two merge-mining proofs that share a coinbase with the merged-mining header and are accepted
for one chain are proofs for one block. -/
theorem auxHash_unique {cr : Crypto} {a b : CAuxPow} {hash hash' : Uint256} {nChainId : Int32}
    {params params' : Consensus.Params} (htx : a.tx = b.tx)
    (hheader : pchMergedMiningHeader <:+: a.coinbaseScript)
    (hfree : cr.CollisionFree (a.chainInputs cr hash ++ b.chainInputs cr hash'))
    (ha : a.check cr hash nChainId params = .ok ())
    (hb : b.check cr hash' nChainId params' = .ok ()) : hash = hash' := by
  have hscript : a.coinbaseScript = b.coinbaseScript := by rw [coinbaseScript, coinbaseScript, htx]
  obtain ⟨pcHead, hhead⟩ := exists_search_of_infix hheader
  have hna := coinbaseNames_of_check hhead ha
  rw [hscript] at hhead hna
  have hnb := coinbaseNames_of_check hhead hb
  obtain ⟨hroot, hlen, hindex⟩ := hna.unique hnb
  rw [hindex] at hroot
  refine eq_of_branchRoot hlen (fun s hs t ht => ?_) hroot
  refine hfree s (mem_append_left _ ?_) t (mem_append_right _ ht)
  rwa [chainInputs, hindex]

namespace ParentExample

/-- Different pairs of small numbers have different hashes. -/
def crypto : Crypto where
  sha256 := fun b => BitVec.ofNat 256 (decode b + decode b / 2 ^ 256)
  ripemd160 := fun _ => 0
  sha1 := fun _ => 0
  scrypt := fun _ => 0

def root : Uint256 := branchRoot crypto 7 [5] 1

def coinbase : CTransaction :=
  ⟨1, [⟨COutPoint.null, pchMergedMiningHeader ++ root.bytes.reverse ++ [2, 0, 0, 0, 0, 0, 0, 0],
    0, []⟩], [], 0⟩

/-- A proof for the second leaf, from a parent block with the given time. -/
def auxPow (nTime : UInt32) : CAuxPow :=
  ⟨coinbase, 0, [], 0, [5], 1, ⟨1, 0, coinbase.getHash crypto, nTime, 0, 0⟩⟩

end ParentExample

open ParentExample in
/-- The coinbase is work for the block 7, so a second parent block with it is none for 8. -/
theorem auxHash_unique_seven :
    (auxPow 1).check crypto 7 0x5247 mainParams.auxpowConsensus = .ok () ∧
      (auxPow 2).check crypto 8 0x5247 mainParams.auxpowConsensus ≠ .ok () := by
  have hseven : (auxPow 1).check crypto 7 0x5247 mainParams.auxpowConsensus = .ok () := by
    decide +kernel
  have hheader : pchMergedMiningHeader <:+: (auxPow 1).coinbaseScript := by decide +kernel
  have hfree : crypto.CollisionFree
      ((auxPow 1).chainInputs crypto 7 ++ (auxPow 2).chainInputs crypto 8) := by decide +kernel
  refine ⟨hseven, fun haccept => ?_⟩
  have htx : (auxPow 1).tx = (auxPow 2).tx := rfl
  have heq := auxHash_unique htx hheader hfree hseven haccept
  exact absurd heq (by decide)

end RgmNode
