import RgmNode.Primitives.Transaction

/-!
# Block headers

`CPureBlockHeader` packs three things into `nVersion`: the base version in the low byte,
the auxpow flag in bit 8 and the merge-mining chain id from bit 16 on.  `CBlockHeader`
adds the auxpow, whose own parent header is a pure one.
-/

namespace RgmNode

structure CPureBlockHeader where
  nVersion : Int32
  hashPrevBlock : Uint256
  hashMerkleRoot : Uint256
  nTime : UInt32
  nBits : UInt32
  nNonce : UInt32
deriving DecidableEq, Repr

namespace CPureBlockHeader

def versionAuxpow : Int32 := 256
def versionChainStart : Int32 := 65536

/-- `ver % VERSION_AUXPOW`; the remainder of a negative version is negative, as in C++. -/
def getBaseVersion (h : CPureBlockHeader) : Int32 := h.nVersion % versionAuxpow

/-- `nVersion >> 16`, an arithmetic shift -/
def getChainId (h : CPureBlockHeader) : Int32 := h.nVersion >>> 16

def isAuxpow (h : CPureBlockHeader) : Bool := h.nVersion &&& versionAuxpow != 0

def isLegacy (h : CPureBlockHeader) : Bool :=
  h.nVersion == 1
    -- random v2 block with no AuxPoW, treat as legacy
    || (h.nVersion == 2 && h.getChainId == 0)

/-- `SetBaseVersion`; `none` where one of its assertions fails. -/
def setBaseVersion (h : CPureBlockHeader) (nBaseVersion nChainId : Int32) :
    Option CPureBlockHeader :=
  if 1 ≤ nBaseVersion ∧ nBaseVersion < versionAuxpow ∧ !h.isAuxpow then
    some { h with nVersion := nBaseVersion ||| (nChainId * versionChainStart) }
  else
    none

def getBlockTime (h : CPureBlockHeader) : Int := h.nTime.toNat

/-- The 80 bytes of the header. -/
def serialize (h : CPureBlockHeader) : Bytes :=
  serInt32 h.nVersion ++ h.hashPrevBlock.bytes ++ h.hashMerkleRoot.bytes ++
    serUInt32 h.nTime ++ serUInt32 h.nBits ++ serUInt32 h.nNonce

def getHash (cr : Crypto) (h : CPureBlockHeader) : Uint256 := cr.hash256 h.serialize

def getPoWHash (cr : Crypto) (h : CPureBlockHeader) : Uint256 := cr.scrypt h.serialize

end CPureBlockHeader

/-- `CAuxPow`, with the members of `CMerkleTx` it inherits. -/
structure CAuxPow where
  tx : CTransaction
  hashBlock : Uint256
  vMerkleBranch : List Uint256
  nIndex : Int32
  vChainMerkleBranch : List Uint256
  nChainIndex : Int32
  parentBlock : CPureBlockHeader
deriving DecidableEq, Repr

structure CBlockHeader extends CPureBlockHeader where
  auxpow : Option CAuxPow
deriving DecidableEq, Repr

/-- A block: `fChecked` is a memo of `CheckBlock` and is left out. -/
structure CBlock extends CBlockHeader where
  vtx : List CTransaction
deriving DecidableEq, Repr

end RgmNode
