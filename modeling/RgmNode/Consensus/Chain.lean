import RgmNode.Lib.Lineage
import RgmNode.Lib.Median
import RgmNode.Primitives.Header

/-!
# Block index entries

A `CBlockIndex` is reached through pointers in the source and never changes its header
data or its `pprev` once `AddToBlockIndex` has made it.  Here it is a lineage: its header
data together with all its ancestors.  The mutable members (`nStatus`, `nTx` and so on)
belong to the block tree.
-/

namespace RgmNode

/-- The members of a `CBlockIndex` that are fixed when it is made. -/
structure BlockIndexData where
  /-- `*phashBlock` -/
  hashBlock : Uint256
  nVersion : Int32
  hashMerkleRoot : Uint256
  nTime : UInt32
  nBits : UInt32
  nNonce : UInt32
deriving DecidableEq, Repr

abbrev CBlockIndex := Lineage BlockIndexData

namespace CBlockIndex

def pprev (p : CBlockIndex) : Option CBlockIndex := p.parent?

/-- The genesis block has height 0, every other one the height of `pprev` plus one. -/
def nHeight (p : CBlockIndex) : Nat := p.height

def getBlockHash (p : CBlockIndex) : Uint256 := p.val.hashBlock

def nBits (p : CBlockIndex) : UInt32 := p.val.nBits

def getBlockTime (p : CBlockIndex) : Int := p.val.nTime.toNat

/-- `GetAncestor`, without the skip list that finds the same entry. -/
def getAncestor (p : CBlockIndex) (height : Nat) : Option CBlockIndex := p.ancestorAt height

def nMedianTimeSpan : Nat := 11

/-- The block times from an entry back to its root, latest entry first. -/
def times (p : CBlockIndex) : List Int := p.labels.map fun d => (d.nTime.toNat : Int)

/-- `GetMedianTimePast`: the median of the last eleven times, or of all there are. -/
def getMedianTimePast (p : CBlockIndex) : Int := Median.median (p.times.take nMedianTimeSpan)

@[simp] theorem nHeight_child (p : CBlockIndex) (d : BlockIndexData) :
    nHeight (.child p d) = p.nHeight + 1 := rfl

@[simp] theorem times_child (p : CBlockIndex) (d : BlockIndexData) :
    times (.child p d) = (d.nTime.toNat : Int) :: p.times := rfl

theorem times_ne_nil (p : CBlockIndex) : p.times ≠ [] := by
  cases p <;> nofun

theorem take_times_ne_nil (p : CBlockIndex) : p.times.take nMedianTimeSpan ≠ [] := by
  cases p <;> nofun

/-- A bound on the times that count is a bound on their median. -/
theorem getMedianTimePast_le {p : CBlockIndex} {b : Int}
    (h : ∀ t ∈ p.times.take nMedianTimeSpan, t ≤ b) : p.getMedianTimePast ≤ b :=
  Median.median_le (take_times_ne_nil p) h

end CBlockIndex

namespace CPureBlockHeader

/-- `CBlockIndex(block)` together with the hash it is filed under. -/
def indexData (cr : Crypto) (h : CPureBlockHeader) : BlockIndexData :=
  { hashBlock := h.getHash cr
    nVersion := h.nVersion
    hashMerkleRoot := h.hashMerkleRoot
    nTime := h.nTime
    nBits := h.nBits
    nNonce := h.nNonce }

end CPureBlockHeader

end RgmNode
