import RgmNode.Primitives.HeaderStream
import RgmNode.Validation.ContextualCheck

/-!
# Compact blocks

`CBlockHeaderAndShortTxIDs` and `PartiallyDownloadedBlock` of `blockencodings.cpp`.  A block is
announced with some of its transactions and short ids of the others; the receiver looks for
those in its mempool and asks for the rest.  SipHash, the buckets of `std::unordered_map` and
`CheckBlock` are parameters; what is only counted for the log is left out.
-/

namespace RgmNode

structure CompactEnv where
  crypto : Crypto
  /-- `SipHashUint256` -/
  sipHashUint256 : Nat → Nat → Uint256 → Nat
  /-- how many ids are in the bucket of an id, after the given ones are in the map -/
  bucketSize : List Nat → Nat → Nat

def Uint256.getUint64 (x : Uint256) (pos : Nat) : Nat :=
  LittleEndian.decode ((x.bytes.drop (pos * 8)).take 8)

def CTransaction.isNull (tx : CTransaction) : Bool := tx.vin.isEmpty && tx.vout.isEmpty

def CPureBlockHeader.isNull (h : CPureBlockHeader) : Bool := h.nBits == 0

/-- `PrefilledTransaction`: in an announcement the index counts from the one before. -/
structure PrefilledTransaction where
  index : UInt16
  tx : CTransaction
deriving DecidableEq

structure CBlockHeaderAndShortTxIDs where
  header : CBlockHeader
  nonce : Nat
  shorttxids : List Nat
  prefilledtxn : List PrefilledTransaction
deriving DecidableEq

inductive ReadStatus where
  | ok | invalid | failed | checkBlockFailed
deriving DecidableEq, Repr

/-! ## 1. Announcements -/

namespace CBlockHeaderAndShortTxIDs

/-- `FillShortTxIDSelector`: the hash whose words are the keys; a header with the auxpow flag has
its proof. -/
def shorttxidhash (env : CompactEnv) (header : CBlockHeader) (nonce : Nat) : Uint256 :=
  env.crypto.sha256 (((header.serializeWith true).getD []) ++ LittleEndian.encode 8 nonce)

/-- The keys of `header` and `nonce` applied to a hash: `GetShortID` -/
def shortID (env : CompactEnv) (header : CBlockHeader) (nonce : Nat) (txhash : Uint256) : Nat :=
  let shorttxidhash := shorttxidhash env header nonce
  env.sipHashUint256 (shorttxidhash.getUint64 0) (shorttxidhash.getUint64 1) txhash % 2 ^ 48

def getShortID (env : CompactEnv) (c : CBlockHeaderAndShortTxIDs) (txhash : Uint256) : Nat :=
  shortID env c.header c.nonce txhash

def blockTxCount (c : CBlockHeaderAndShortTxIDs) : Nat := c.shorttxids.length + c.prefilledtxn.length

/-- The hash that a short id is made of. -/
def announcedHash (env : CompactEnv) (fUseWTXID : Bool) (tx : CTransaction) : Uint256 :=
  if fUseWTXID then tx.getWitnessHash env.crypto else tx.getHash env.crypto

/-- The constructor from a block, which has a coinbase; `none` without transactions. -/
def ofBlock (env : CompactEnv) (nonce : Nat) (block : CBlock) (fUseWTXID : Bool) :
    Option CBlockHeaderAndShortTxIDs :=
  match block.vtx with
  | [] => none
  | coinbase :: vtx =>
    some
      { header := block.toCBlockHeader
        nonce := nonce
        shorttxids := vtx.map fun tx =>
          shortID env block.toCBlockHeader nonce (announcedHash env fUseWTXID tx)
        prefilledtxn := [⟨0, coinbase⟩] }

end CBlockHeaderAndShortTxIDs

/-! ## 2. `InitData` -/

/-- `MAX_BLOCK_BASE_SIZE / MIN_TRANSACTION_BASE_SIZE` -/
def maxBlockTxCount : Nat := maxBlockBaseSize / CTransaction.null.serializeNoWitness.length

structure ShortIdMap where
  find : Nat → Option Nat
  keys : List Nat

namespace ShortIdMap

def empty : ShortIdMap := ⟨fun _ => none, []⟩

/-- `shorttxids[id] = position`, a `uint16_t` -/
def set (m : ShortIdMap) (id position : Nat) : ShortIdMap :=
  ⟨Function.update m.find id (some (position % 2 ^ 16)), if id ∈ m.keys then m.keys else id :: m.keys⟩

def size (m : ShortIdMap) : Nat := m.keys.length

end ShortIdMap

/-- `PartiallyDownloadedBlock`, with the counter that ends its loops. -/
structure PartiallyDownloadedBlock where
  txnAvailable : List (Option CTransaction)
  header : Option CBlockHeader
  mempoolCount : Nat
deriving DecidableEq

namespace PartiallyDownloadedBlock

def init : PartiallyDownloadedBlock := ⟨[], none, 0⟩

/-- The transactions that came with the announcement are put in their places; an error, with the
places as they are then, for `READ_STATUS_INVALID`. -/
def placePrefilled (nShort : Nat) : List PrefilledTransaction → Nat → Int →
    List (Option CTransaction) → Except (List (Option CTransaction)) (List (Option CTransaction))
  | [], _, _, available => .ok available
  | p :: prefilled, i, lastprefilledindex, available =>
    if p.tx.isNull then .error available
    else
      let lastprefilledindex := lastprefilledindex + p.index.toNat + 1
      if 65535 < lastprefilledindex then .error available
      else if (nShort + i : Nat) < lastprefilledindex then .error available
      else
        placePrefilled nShort prefilled (i + 1) lastprefilledindex
          (available.set lastprefilledindex.toNat (some p.tx))

/-- `while (txn_available[i + index_offset]) index_offset++`, where the offset is a `uint16_t`:
after as many rounds as it has values the loop does not end, and behind the last place the
behaviour is undefined (`none`). -/
def skipAvailable (available : List (Option CTransaction)) (i : Nat) : Nat → Nat → Option Nat
  | 0, _ => none
  | rounds + 1, indexOffset =>
    match available[i + indexOffset]? with
    | none => none
    | some none => some indexOffset
    | some (some _) => skipAvailable available i rounds ((indexOffset + 1) % 2 ^ 16)

/-- The loop that gives the short ids their places. -/
def assignPositions (env : CompactEnv) (available : List (Option CTransaction)) (all : List Nat) :
    List Nat → Nat → Nat → ShortIdMap → Option (Except ReadStatus ShortIdMap)
  | [], _, _, m => some (.ok m)
  | id :: ids, i, indexOffset, m => do
    let indexOffset ← skipAvailable available i (2 ^ 16) indexOffset
    let m := m.set id (i + indexOffset)
    if 12 < env.bucketSize (all.take (i + 1)) id then return .error .failed
    else assignPositions env available all ids (i + 1) indexOffset m

/-- What the scans of the mempool and of the extra transactions change. -/
structure Scan where
  txnAvailable : List (Option CTransaction)
  haveTxn : List Nat
  mempoolCount : Nat
deriving DecidableEq

/-- The transaction at the place `idx`. -/
def Scan.at (s : Scan) (idx : Nat) : Option CTransaction := s.txnAvailable[idx]?.join

def Scan.take (s : Scan) (idx : Nat) (tx : CTransaction) : Scan :=
  ⟨s.txnAvailable.set idx (some tx), idx :: s.haveTxn, s.mempoolCount + 1⟩

/-- Two transactions match the short id: it is requested. -/
def Scan.reset (s : Scan) (idx : Nat) : Scan :=
  { s with txnAvailable := s.txnAvailable.set idx none, mempoolCount := s.mempoolCount - 1 }

def scanPoolTx (m : ShortIdMap) (shortid : Nat) (tx : CTransaction) (s : Scan) : Scan :=
  match m.find shortid with
  | none => s
  | some idx =>
    if idx ∉ s.haveTxn then s.take idx tx
    else if (s.at idx).isSome then s.reset idx
    else s

/-- One of the extra transactions, which may be one of the mempool as well. -/
def scanExtraTx (env : CompactEnv) (m : ShortIdMap) (shortid : Nat) (tx : CTransaction) (s : Scan) :
    Scan :=
  match m.find shortid with
  | none => s
  | some idx =>
    if idx ∉ s.haveTxn then s.take idx tx
    else
      match s.at idx with
      | some other =>
        if other.getWitnessHash env.crypto ≠ tx.getWitnessHash env.crypto then s.reset idx else s
      | none => s

/-- A scan, which ends early when every short id has its transaction. -/
def scan (m : ShortIdMap) (shortid : Uint256 → Nat) (one : Nat → CTransaction → Scan → Scan) :
    List (Uint256 × CTransaction) → Scan → Scan
  | [], s => s
  | (hash, tx) :: rest, s =>
    let s := one (shortid hash) tx s
    if s.mempoolCount = m.size then s else scan m shortid one rest s

/-- The map of the short ids, and the places that are filled before the mempool is searched; the
status and the places on failure. -/
def readShortIds (env : CompactEnv) (c : CBlockHeaderAndShortTxIDs) :
    Option (Except (ReadStatus × List (Option CTransaction))
      (ShortIdMap × List (Option CTransaction))) :=
  match placePrefilled c.shorttxids.length c.prefilledtxn 0 (-1)
      (List.replicate c.blockTxCount none) with
  | .error available => some (.error (.invalid, available))
  | .ok available =>
    (assignPositions env available c.shorttxids c.shorttxids 0 0 .empty).map fun
      | .error status => .error (status, available)
      | .ok m =>
        -- short id collision
        if m.size ≠ c.shorttxids.length then .error (.failed, available)
        else .ok (m, available)

/-- `InitData`; `none` where the source does not return or its behaviour is undefined.
`pool` is `vTxHashes` of the mempool. -/
def initData (env : CompactEnv) (pool extra : List (Uint256 × CTransaction))
    (c : CBlockHeaderAndShortTxIDs) (pdb : PartiallyDownloadedBlock) :
    Option (ReadStatus × PartiallyDownloadedBlock) :=
  if c.header.isNull || (c.shorttxids.isEmpty && c.prefilledtxn.isEmpty) then some (.invalid, pdb)
  else if maxBlockTxCount < c.blockTxCount then some (.invalid, pdb)
  else if pdb.header.isSome || !pdb.txnAvailable.isEmpty then some (.failed, pdb)
  else
    (readShortIds env c).map fun
      | .error (status, available) => (status, ⟨available, some c.header, pdb.mempoolCount⟩)
      | .ok (m, available) =>
        let s := scan m (c.getShortID env) (scanPoolTx m) pool ⟨available, [], pdb.mempoolCount⟩
        let s := scan m (c.getShortID env) (scanExtraTx env m) extra s
        (.ok, ⟨s.txnAvailable, some c.header, s.mempoolCount⟩)

def isTxAvailable (pdb : PartiallyDownloadedBlock) (index : Nat) : Bool :=
  pdb.header.isSome && pdb.txnAvailable[index]?.join.isSome

/-! ## 3. `FillBlock` -/

/-- The places are filled, those that are empty from `vtx_missing`, of which the rest is given; an
error, with the places as they are left, if there are too few. -/
def fillTxn : List (Option CTransaction) → List CTransaction →
    Except (List (Option CTransaction)) (List CTransaction × List CTransaction)
  | [], missing => .ok ([], missing)
  | none :: available, [] => .error (none :: available)
  | none :: available, tx :: missing =>
    match fillTxn available missing with
    | .error left => .error (none :: left)
    | .ok (vtx, rest) => .ok (tx :: vtx, rest)
  | some tx :: available, missing =>
    match fillTxn available missing with
    -- the transaction was moved away
    | .error left => .error (none :: left)
    | .ok (vtx, rest) => .ok (tx :: vtx, rest)

/-- What `CheckBlock` says of a block. -/
inductive BlockCheck where
  | passed
  /-- `CorruptionPossible` -/
  | corrupted
  | failed
deriving DecidableEq, Repr

/-- `FillBlock`: the status, the block as far as it was made, and the object afterwards. -/
def fillBlock (checkBlock : CBlock → BlockCheck) (pdb : PartiallyDownloadedBlock)
    (vtxMissing : List CTransaction) :
    ReadStatus × Option CBlock × PartiallyDownloadedBlock :=
  match pdb.header with
  | none => (.invalid, none, pdb)
  | some header =>
    match fillTxn pdb.txnAvailable vtxMissing with
    | .error left => (.invalid, none, { pdb with txnAvailable := left })
    | .ok (vtx, rest) =>
      let block : CBlock := ⟨header, vtx⟩
      -- FillBlock cannot be called again
      let pdb := ⟨[], none, pdb.mempoolCount⟩
      if !rest.isEmpty then (.invalid, some block, pdb)
      else
        match checkBlock block with
        | .passed => (.ok, some block, pdb)
        -- possible short id collision
        | .corrupted => (.failed, some block, pdb)
        | .failed => (.checkBlockFailed, some block, pdb)

end PartiallyDownloadedBlock

end RgmNode
