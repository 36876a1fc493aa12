import RgmNode.Lib.OrderedMap
import RgmNode.Validation.ContextualCheck

/-!
# The memory pool

`CTxMemPool` (`txmempool.cpp`): adding and removing transactions, with the links between
transactions and the totals over ancestors and descendants that each entry carries.

An iterator of `mapTx` is the hash of its transaction, a set of iterators a list in the order of the
hashes.  A call that fails an assertion, or follows an iterator to an entry that is gone, is `none`.
Sums of unsigned numbers wrap around and conversions to a smaller type are written out; sums of
signed numbers are exact.

The policy estimator, the memory accounting, the signals, the rolling minimum fee, the priorities
of coin age and the limits on packages are left out.
-/

namespace RgmNode

/-- `GetTransactionWeight` -/
def CTransaction.weight (tx : CTransaction) : Nat :=
  tx.serializeNoWitness.length * (witnessScaleFactor - 1) + tx.serialize.length

def getVirtualTransactionSize (nBytesPerSigOp : Nat) (nWeight nSigOpCost : Int) : Int :=
  (max nWeight (nSigOpCost * nBytesPerSigOp) + witnessScaleFactor - 1).tdiv witnessScaleFactor

/-! ## 1. Entries -/

/-- An entry: the transaction, what it pays and costs, and the totals with its descendants and with
its ancestors. -/
structure CTxMemPoolEntry where
  tx : CTransaction
  nFee : CAmount
  nTime : Int
  sigOpCost : Int
  feeDelta : CAmount
  nCountWithDescendants : Int
  nSizeWithDescendants : Int
  nModFeesWithDescendants : CAmount
  nCountWithAncestors : Int
  nSizeWithAncestors : Int
  nModFeesWithAncestors : CAmount
  nSigOpCostWithAncestors : Int
  vTxHashesIdx : Nat
deriving DecidableEq, Repr

structure TxLinks where
  parents : List Uint256
  children : List Uint256
deriving DecidableEq, Repr

structure CTxMemPool where
  mapTx : List CTxMemPoolEntry
  mapLinks : Uint256 → Option TxLinks
  /-- which transaction spends an output -/
  mapNextTx : List (COutPoint × CTransaction)
  /-- the changes of fees; those of priorities are left out -/
  mapDeltas : Uint256 → Option CAmount
  /-- the witness hashes, each with its entry -/
  vTxHashes : List (Uint256 × Uint256)

structure MempoolEnv where
  crypto : Crypto
  /-- `-bytespersigop` -/
  nBytesPerSigOp : Nat

/-- A value converted to `int`. -/
def toInt (x : Int) : Int := x.bmod (2 ^ 32)

namespace CTxMemPoolEntry

/-- A value converted to `int64_t`. -/
def toInt64 (x : Int) : Int := x.bmod (2 ^ 64)

/-- A value converted to `uint64_t`. -/
def toUInt64 (x : Int) : Int := x % 2 ^ 64

def getModifiedFee (e : CTxMemPoolEntry) : CAmount := e.nFee + e.feeDelta

def updateDescendantState (modifySize : Int) (modifyFee : CAmount) (modifyCount : Int)
    (e : CTxMemPoolEntry) : Option CTxMemPoolEntry :=
  let nSizeWithDescendants := toUInt64 (e.nSizeWithDescendants + modifySize)
  let nCountWithDescendants := toUInt64 (e.nCountWithDescendants + modifyCount)
  if 0 < toInt64 nSizeWithDescendants ∧ 0 < toInt64 nCountWithDescendants then
    some { e with
      nSizeWithDescendants
      nModFeesWithDescendants := e.nModFeesWithDescendants + modifyFee
      nCountWithDescendants }
  else none

/-- `UpdateAncestorState`: the change of the cost is an `int`, and so is the total in the last
assertion. -/
def updateAncestorState (modifySize : Int) (modifyFee : CAmount) (modifyCount modifySigOps : Int)
    (e : CTxMemPoolEntry) : Option CTxMemPoolEntry :=
  let nSizeWithAncestors := toUInt64 (e.nSizeWithAncestors + modifySize)
  let nCountWithAncestors := toUInt64 (e.nCountWithAncestors + modifyCount)
  let nSigOpCostWithAncestors := e.nSigOpCostWithAncestors + toInt modifySigOps
  if 0 < toInt64 nSizeWithAncestors ∧ 0 < toInt64 nCountWithAncestors ∧
      0 ≤ toInt nSigOpCostWithAncestors then
    some { e with
      nSizeWithAncestors
      nModFeesWithAncestors := e.nModFeesWithAncestors + modifyFee
      nCountWithAncestors
      nSigOpCostWithAncestors }
  else none

def updateFeeDelta (newFeeDelta : CAmount) (e : CTxMemPoolEntry) : CTxMemPoolEntry :=
  { e with
    nModFeesWithDescendants := e.nModFeesWithDescendants + (newFeeDelta - e.feeDelta)
    nModFeesWithAncestors := e.nModFeesWithAncestors + (newFeeDelta - e.feeDelta)
    feeDelta := newFeeDelta }

end CTxMemPoolEntry

namespace MempoolEnv

variable (env : MempoolEnv)

def hash (e : CTxMemPoolEntry) : Uint256 := e.tx.getHash env.crypto

def getTxSize (e : CTxMemPoolEntry) : Int :=
  getVirtualTransactionSize env.nBytesPerSigOp e.tx.weight e.sigOpCost

def newEntry (tx : CTransaction) (nFee : CAmount) (nTime sigOpCost : Int) : CTxMemPoolEntry :=
  let size := getVirtualTransactionSize env.nBytesPerSigOp tx.weight sigOpCost
  { tx, nFee, nTime, sigOpCost
    feeDelta := 0
    nCountWithDescendants := 1
    nSizeWithDescendants := size
    nModFeesWithDescendants := nFee
    nCountWithAncestors := 1
    nSizeWithAncestors := size
    nModFeesWithAncestors := nFee
    nSigOpCostWithAncestors := sigOpCost
    vTxHashesIdx := 0 }

end MempoolEnv

namespace CTxMemPool

open CTxMemPoolEntry OrderedMap

def init : CTxMemPool := ⟨[], fun _ => none, [], fun _ => none, []⟩

variable (env : MempoolEnv) (pool : CTxMemPool)

/-! ## 2. Looking up and changing entries -/

/-- `mapTx.find` -/
def find (hash : Uint256) : Option CTxMemPoolEntry :=
  pool.mapTx.find? (env.hash · = hash)

/-- `mapTx.modify` -/
def modify (hash : Uint256) (f : CTxMemPoolEntry → Option CTxMemPoolEntry) : Option CTxMemPool :=
  (pool.find env hash).bind fun e => (f e).map fun e' =>
    { pool with mapTx := pool.mapTx.map fun x => if env.hash x = hash then e' else x }

/-- `mapTx.modify` for each entry of a set. -/
def modifyAll (f : CTxMemPoolEntry → Option CTxMemPoolEntry) (hashes : List Uint256) :
    Option CTxMemPool :=
  hashes.foldlM (fun pool hash => pool.modify env hash f) pool

def getMemPoolParents (hash : Uint256) : Option (List Uint256) :=
  (pool.mapLinks hash).map (·.parents)

/-- A change of `mapLinks[entry]`. -/
def updateLinks (entry : Uint256) (f : TxLinks → TxLinks) : CTxMemPool :=
  { pool with
    mapLinks := Function.update pool.mapLinks entry (some (f ((pool.mapLinks entry).getD ⟨[], []⟩))) }

def updateChild (entry child : Uint256) (add : Bool) : CTxMemPool :=
  pool.updateLinks entry fun links => { links with
    children := if add then insertHash child links.children else links.children.erase child }

def updateParent (entry parent : Uint256) (add : Bool) : CTxMemPool :=
  pool.updateLinks entry fun links => { links with
    parents := if add then insertHash parent links.parents else links.parents.erase parent }

/-! ## 3. Adding a transaction -/

def updateAncestorsOf (add : Bool) (it : Uint256) (setAncestors : List Uint256) :
    Option CTxMemPool :=
  (pool.getMemPoolParents it).bind fun parentIters =>
    let pool := parentIters.foldl (fun pool piter => pool.updateChild piter it add) pool
    (pool.find env it).bind fun e =>
      let updateCount := if add then 1 else -1
      pool.modifyAll env (updateDescendantState (updateCount * env.getTxSize e)
        (updateCount * e.getModifiedFee) updateCount) setAncestors

/-- The size, the fee and the cost of a set of entries. -/
def sumEntries (hashes : List Uint256) : Option (Int × CAmount × Int) :=
  hashes.foldlM (fun sum hash => (pool.find env hash).map fun e =>
    (sum.1 + env.getTxSize e, sum.2.1 + e.getModifiedFee, sum.2.2 + e.sigOpCost)) (0, 0, 0)

def updateEntryForAncestors (it : Uint256) (setAncestors : List Uint256) : Option CTxMemPool :=
  (pool.sumEntries env setAncestors).bind fun sum =>
    pool.modify env it (updateAncestorState sum.1 sum.2.1 setAncestors.length sum.2.2)

/-- The entry is inserted, with empty links; what is there already is not overwritten. -/
def insertEntry (entry : CTxMemPoolEntry) : CTxMemPool :=
  let hash := env.hash entry
  { pool with
    mapTx := if (pool.find env hash).isSome then pool.mapTx else pool.mapTx ++ [entry]
    mapLinks := Function.update pool.mapLinks hash (some ((pool.mapLinks hash).getD ⟨[], []⟩)) }

/-- `*newit`: the entry that is inserted, or the one that was there -/
def entered (entry : CTxMemPoolEntry) : CTxMemPoolEntry :=
  (pool.find env (env.hash entry)).getD entry

/-- A change of the fee that was made before applies to the new entry. -/
def applyDelta (hash : Uint256) : Option CTxMemPool :=
  let nFeeDelta := (pool.mapDeltas hash).getD 0
  if nFeeDelta = 0 then some pool
  else pool.modify env hash fun e => some (e.updateFeeDelta nFeeDelta)

/-- The inputs of a transaction are entered in `mapNextTx`. -/
def recordSpends (tx : CTransaction) : CTxMemPool :=
  { pool with
    mapNextTx := tx.vin.foldl
      (fun mapNextTx (txin : CTxIn) => insertNew txin.prevout tx mapNextTx) pool.mapNextTx }

def linkParents (tx : CTransaction) : CTxMemPool :=
  let setParentTransactions := tx.vin.foldl
    (fun hashes (txin : CTxIn) => insertHash txin.prevout.hash hashes) []
  setParentTransactions.foldl (fun pool phash =>
    if (pool.find env phash).isSome then pool.updateParent (tx.getHash env.crypto) phash true
    else pool) pool

def recordTxHash (tx : CTransaction) : CTxMemPool :=
  let hash := tx.getHash env.crypto
  { pool with
    vTxHashes := pool.vTxHashes ++ [(tx.getWitnessHash env.crypto, hash)]
    mapTx := pool.mapTx.map fun e =>
      if env.hash e = hash then { e with vTxHashesIdx := pool.vTxHashes.length } else e }

def addUnchecked (entry : CTxMemPoolEntry) (setAncestors : List Uint256) : Option CTxMemPool :=
  let hash := env.hash entry
  let tx := (pool.entered env entry).tx
  ((pool.insertEntry env entry).applyDelta env hash).bind fun pool =>
    let pool := (pool.recordSpends tx).linkParents env tx
    (pool.updateAncestorsOf env true hash setAncestors).bind fun pool =>
      (pool.updateEntryForAncestors env hash setAncestors).map fun pool =>
        pool.recordTxHash env tx

/-! ## 4. Removing transactions -/

/-- The last witness hash takes the place of the one that goes. -/
def eraseTxHash (idx : Nat) : CTxMemPool :=
  match pool.vTxHashes.getLast? with
  | none => pool
  | some back =>
    if 1 < pool.vTxHashes.length then
      { pool with
        vTxHashes := (pool.vTxHashes.set idx back).dropLast
        mapTx := pool.mapTx.map fun e =>
          if env.hash e = back.2 then { e with vTxHashesIdx := idx } else e }
    else { pool with vTxHashes := [] }

/-- The inputs of a transaction are taken from `mapNextTx`. -/
def eraseSpends (tx : CTransaction) : CTxMemPool :=
  { pool with
    mapNextTx := tx.vin.foldl (fun mapNextTx (txin : CTxIn) => erase txin.prevout mapNextTx)
      pool.mapNextTx }

def removeUnchecked (it : Uint256) : Option CTxMemPool :=
  (pool.find env it).map fun e =>
    let pool := (pool.eraseSpends e.tx).eraseTxHash env e.vTxHashesIdx
    { pool with
      mapLinks := Function.update pool.mapLinks it none
      mapTx := pool.mapTx.filter fun e => decide (env.hash e ≠ it) }

/-- `_clear`, which leaves the deltas and the witness hashes as they are. -/
def clear : CTxMemPool := { pool with mapTx := [], mapLinks := fun _ => none, mapNextTx := [] }

end CTxMemPool

end RgmNode
