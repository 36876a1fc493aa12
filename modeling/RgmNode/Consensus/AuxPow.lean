import RgmNode.Consensus.Pow

/-!
# Merge-mining proofs

`CAuxPow::check` and `CheckAuxPowProofOfWork`.  The source logs why a check fails and
returns `false`; here the logged text is the error.
-/

namespace RgmNode

def pchMergedMiningHeader : Bytes := [0xfa, 0xbe, 0x6d, 0x6d]

/-- `std::search`: where `pat` first occurs in `s`, `none` for the end iterator. -/
def search (s pat : Bytes) : Option Nat :=
  (List.range (s.length + 1 - pat.length)).find? fun i => (s.drop i).take pat.length == pat

namespace CAuxPow

def checkMerkleBranch (cr : Crypto) (hash : Uint256) (vMerkleBranch : List Uint256)
    (nIndex : Int32) : Uint256 :=
  if nIndex == -1 then 0
  else
    (vMerkleBranch.foldl (fun (hash, nIndex) b =>
      (if nIndex &&& 1 != 0 then cr.hash256 (b.bytes ++ hash.bytes)
       else cr.hash256 (hash.bytes ++ b.bytes),
       nIndex >>> 1)) (hash, nIndex)).1

/-- `getExpectedIndex`: the slot of a chain in the chain merkle tree of height `h`. -/
def getExpectedIndex (nNonce : UInt32) (nChainId : Int32) (h : Nat) : Int32 :=
  let rand := nNonce * 1103515245 + 12345
  let rand := rand + nChainId.toUInt32
  let rand := rand * 1103515245 + 12345
  Int32.ofNat (rand.toNat % 2 ^ h)

/-- The part of `check` that reads the coinbase script of the parent block. -/
def checkCoinbase (a : CAuxPow) (nRootHash : Uint256) (nChainId : Int32) (script : CScript) :
    Except String Unit :=
  let vchRootHash := nRootHash.bytes.reverse
  match search script vchRootHash with
  | none => .error "Aux POW missing chain merkle root in parent coinbase"
  | some pc =>
    let position : Except String Unit :=
      match search script pchMergedMiningHeader with
      | some pcHead =>
        if (search (script.drop (pcHead + 1)) pchMergedMiningHeader).isSome then
          .error "Multiple merged mining headers in coinbase"
        else if pcHead + pchMergedMiningHeader.length ≠ pc then
          .error "Merged mining header is not just before chain merkle root"
        else .ok ()
      | none =>
        -- for backward compatibility the root may stand alone, early in the coinbase
        if pc > 20 then
          .error "Aux POW chain merkle root must start in the first 20 bytes of the parent coinbase"
        else .ok ()
    position.bind fun _ =>
      let rest := script.drop (pc + vchRootHash.length)
      let merkleHeight := a.vChainMerkleBranch.length
      if rest.length < 8 then
        .error "Aux POW missing chain merkle tree size and nonce in parent coinbase"
      else if LittleEndian.decode (rest.take 4) ≠ 2 ^ merkleHeight then
        .error "Aux POW merkle branch size does not match parent coinbase"
      else if a.nChainIndex ≠ getExpectedIndex
          (UInt32.ofNat (LittleEndian.decode ((rest.drop 4).take 4))) nChainId merkleHeight then
        .error "Aux POW wrong index"
      else .ok ()

def check (cr : Crypto) (a : CAuxPow) (hashAuxBlock : Uint256) (nChainId : Int32)
    (params : Consensus.Params) : Except String Unit :=
  if a.nIndex ≠ 0 then .error "AuxPow is not a generate"
  else if params.fStrictChainId ∧ a.parentBlock.getChainId = nChainId then
    .error "Aux POW parent has our chain ID"
  else if a.vChainMerkleBranch.length > 30 then
    .error "Aux POW chain merkle branch too long"
  else if checkMerkleBranch cr (a.tx.getHash cr) a.vMerkleBranch a.nIndex ≠
      a.parentBlock.hashMerkleRoot then
    .error "Aux POW merkle root incorrect"
  else
    match a.tx.vin with
    | [] => .error "Aux POW coinbase has no inputs"
    | txin :: _ =>
      a.checkCoinbase (checkMerkleBranch cr hashAuxBlock a.vChainMerkleBranch a.nChainIndex)
        nChainId txin.scriptSig

end CAuxPow

def checkAuxPowProofOfWork (cr : Crypto) (block : CBlockHeader) (params : Consensus.Params) :
    Except String Unit :=
  if !block.isLegacy && params.fStrictChainId && block.getChainId != params.nAuxpowChainId then
    .error "CheckAuxPowProofOfWork : block does not have our chain ID"
  else
    match block.auxpow with
    | none =>
      if block.isAuxpow then
        .error "CheckAuxPowProofOfWork : no auxpow on block with auxpow version"
      else if !checkProofOfWork (block.getPoWHash cr) block.nBits params then
        .error "CheckAuxPowProofOfWork : non-AUX proof of work failed"
      else .ok ()
    | some auxpow =>
      if !block.isAuxpow then
        .error "CheckAuxPowProofOfWork : auxpow on block with non-auxpow version"
      else if !checkProofOfWork (auxpow.parentBlock.getPoWHash cr) block.nBits params then
        .error "CheckAuxPowProofOfWork : AUX proof of work failed"
      else
        match auxpow.check cr (block.getHash cr) block.getChainId params with
        | .error _ => .error "CheckAuxPowProofOfWork : AUX POW is not valid"
        | .ok _ => .ok ()

end RgmNode
