import RgmNode.Validation.CheckBlock

/-!
# Partial merkle trees

`CPartialMerkleTree` (`merkleblock.cpp`): the tree that a list of transactions and the matched ones
among them are built into, and the matches that are extracted from one.  Positions are `unsigned int`,
and none comes near the end of their range.
-/

namespace RgmNode

structure CPartialMerkleTree where
  nTransactions : Nat
  vBits : List Bool
  vHash : List Uint256
  fBad : Bool

namespace CPartialMerkleTree

open Merkle

/-! ## 1. The code -/

def calcTreeWidth (nTransactions height : Nat) : Nat :=
  (nTransactions + 2 ^ height - 1) % 2 ^ 32 / 2 ^ height

/-- `while (CalcTreeWidth(nHeight) > 1) nHeight++` -/
def heightFrom (nTransactions : Nat) : Nat → Nat → Nat
  | 0, nHeight => nHeight
  | fuel + 1, nHeight =>
    if 1 < calcTreeWidth nTransactions nHeight then heightFrom nTransactions fuel (nHeight + 1)
    else nHeight

def treeHeight (nTransactions : Nat) : Nat := heightFrom nTransactions 32 0

section

variable (cr : Crypto) (vTxid : List Uint256)

def calcHash : Nat → Nat → Uint256
  | 0, pos => vTxid.getD pos 0
  | height + 1, pos =>
    let left := calcHash height (pos * 2)
    let right :=
      if pos * 2 + 1 < calcTreeWidth vTxid.length height then calcHash height (pos * 2 + 1)
      else left
    node cr left right

def parentOfMatch (nTransactions : Nat) (vMatch : List Bool) (height pos : Nat) : Bool :=
  (List.range (2 ^ height)).any fun j =>
    decide (pos * 2 ^ height + j < nTransactions) && vMatch.getD (pos * 2 ^ height + j) false

/-- `TraverseAndBuild`: the bits and hashes that it appends -/
def traverseAndBuild (vMatch : List Bool) : Nat → Nat → List Bool × List Uint256
  | 0, pos => ([parentOfMatch vTxid.length vMatch 0 pos], [calcHash cr vTxid 0 pos])
  | height + 1, pos =>
    if parentOfMatch vTxid.length vMatch (height + 1) pos then
      let left := traverseAndBuild vMatch height (pos * 2)
      let right :=
        if pos * 2 + 1 < calcTreeWidth vTxid.length height then
          traverseAndBuild vMatch height (pos * 2 + 1)
        else ([], [])
      (true :: (left.1 ++ right.1), left.2 ++ right.2)
    else ([false], [calcHash cr vTxid (height + 1) pos])

def build (vMatch : List Bool) : CPartialMerkleTree :=
  let r := traverseAndBuild cr vTxid vMatch (treeHeight vTxid.length) 0
  ⟨vTxid.length, r.1, r.2, false⟩

end

/-- What `TraverseAndExtract` changes -/
structure Extraction where
  nBitsUsed : Nat
  nHashUsed : Nat
  fBad : Bool
  vMatch : List Uint256
  vnIndex : List Nat

variable (cr : Crypto) (t : CPartialMerkleTree)

/-- The part of `TraverseAndExtract` that uses a stored hash, at a match or not -/
def useHash (fMatch : Bool) (pos : Nat) (s : Extraction) : Uint256 × Extraction :=
  match t.vHash[s.nHashUsed]? with
  | none => (0, { s with fBad := true })
  | some hash =>
    (hash, { s with
      nHashUsed := s.nHashUsed + 1
      vMatch := if fMatch then s.vMatch ++ [hash] else s.vMatch
      vnIndex := if fMatch then s.vnIndex ++ [pos] else s.vnIndex })

def traverseAndExtract : Nat → Nat → Extraction → Uint256 × Extraction
  | height, pos, s =>
    match t.vBits[s.nBitsUsed]? with
    | none => (0, { s with fBad := true })
    | some fParentOfMatch =>
      let s := { s with nBitsUsed := s.nBitsUsed + 1 }
      match height, fParentOfMatch with
      | 0, _ => t.useHash fParentOfMatch pos s
      | _ + 1, false => t.useHash false pos s
      | height + 1, true =>
        let (left, s) := traverseAndExtract height (pos * 2) s
        if pos * 2 + 1 < calcTreeWidth t.nTransactions height then
          let (right, s) := traverseAndExtract height (pos * 2 + 1) s
          (node cr left right, { s with fBad := s.fBad || right == left })
        else (node cr left left, s)

/-- `ExtractMatches`: the root, `vMatch` and `vnIndex` -/
def extractMatches (vnIndex : List Nat) : Uint256 × List Uint256 × List Nat :=
  if t.nTransactions = 0 then (0, [], vnIndex)
  else if maxBlockBaseSize / 60 < t.nTransactions then (0, [], vnIndex)
  else if t.nTransactions < t.vHash.length then (0, [], vnIndex)
  else if t.vBits.length < t.vHash.length then (0, [], vnIndex)
  else
    let (hashMerkleRoot, s) :=
      t.traverseAndExtract cr (treeHeight t.nTransactions) 0 ⟨0, 0, t.fBad, [], vnIndex⟩
    if s.fBad ∨ (s.nBitsUsed + 7) / 8 ≠ (t.vBits.length + 7) / 8 ∨ s.nHashUsed ≠ t.vHash.length then
      (0, s.vMatch, s.vnIndex)
    else (hashMerkleRoot, s.vMatch, s.vnIndex)

/-! ## 2. The shape of the tree -/

variable {n height pos : Nat}

/-! The first transactions below the two children of a node, and the end of what is below them -/

theorem first_child (height pos : Nat) : pos * 2 ^ (height + 1) = pos * 2 * 2 ^ height := by
  rw [pow_succ, mul_comm (2 ^ height), mul_assoc]

theorem second_child (height pos : Nat) :
    (pos * 2 + 1) * 2 ^ height = pos * 2 * 2 ^ height + 2 ^ height := Nat.succ_mul _ _

theorem end_child (height pos : Nat) :
    (pos + 1) * 2 ^ (height + 1) = (pos * 2 + 1 + 1) * 2 ^ height := by
  rw [first_child, Nat.succ_mul]

/-- The nodes of a level are those that have a transaction below. -/
theorem lt_calcTreeWidth (hn : n < 2 ^ 31) (hheight : height ≤ 31) :
    pos < calcTreeWidth n height ↔ pos * 2 ^ height < n := by
  have hpow : 2 ^ height ≤ 2 ^ 31 := Nat.pow_le_pow_right Nat.two_pos hheight
  have hpos : 0 < 2 ^ height := Nat.two_pow_pos height
  rw [calcTreeWidth, Nat.lt_iff_add_one_le, Nat.le_div_iff_mul_le hpos, Nat.add_one_mul]
  omega

theorem heightFrom_spec (hn : n < 2 ^ 31) {fuel nHeight : Nat} (hfuel : nHeight + fuel = 32)
    (hlow : 2 ^ nHeight < 2 * n) :
    n ≤ 2 ^ heightFrom n fuel nHeight ∧ 2 ^ heightFrom n fuel nHeight < 2 * n ∧
      heightFrom n fuel nHeight ≤ 31 := by
  have hheight : nHeight ≤ 31 := by
    by_contra hmore
    have : 2 ^ 32 ≤ 2 ^ nHeight := Nat.pow_le_pow_right two_pos (by omega)
    omega
  induction fuel generalizing nHeight with
  | zero => omega
  | succ fuel ih =>
    rw [heightFrom]
    split
    · next hmore =>
      rw [lt_calcTreeWidth hn hheight] at hmore
      have hnext : 2 ^ (nHeight + 1) < 2 * n := by
        omega
      refine ih (by omega) hnext ?_
      by_contra hlast
      obtain rfl : nHeight = 31 := by omega
      omega
    · next hless =>
      rw [lt_calcTreeWidth hn hheight] at hless
      exact ⟨by omega, hlow, hheight⟩

/-- The tree is no higher than the transactions need. -/
theorem treeHeight_spec (hpos : 0 < n) (hn : n < 2 ^ 31) :
    n ≤ 2 ^ treeHeight n ∧ 2 ^ treeHeight n < 2 * n ∧ treeHeight n ≤ 31 :=
  heightFrom_spec hn rfl (by omega)

end CPartialMerkleTree

end RgmNode
