import RgmNode.Primitives.Bytes

/-!
# Transactions

`COutPoint`, `CTxIn`, `CTxOut` and `CTransaction` with the two serialisation formats of
`primitives/transaction.h`.  A `CMutableTransaction` has the same fields and is the same
type here; the cached hash of a `CTransaction` is recomputed.  `operator<` of `base_blob`
compares the memory; that of `COutPoint` the hash, then the index.
-/

namespace RgmNode

/-- A script is the byte vector it is stored as. -/
abbrev CScript := Bytes

/-- An amount in the smallest unit (`int64_t`). -/
abbrev CAmount := Int

structure COutPoint where
  hash : Uint256
  n : UInt32
deriving DecidableEq, Repr

namespace COutPoint

/-- The default value, which only a coinbase input refers to. -/
def null : COutPoint := ⟨0, 0xffffffff⟩

def isNull (o : COutPoint) : Bool := o.hash == 0 && o.n == 0xffffffff

def serialize (o : COutPoint) : Bytes := o.hash.bytes ++ serUInt32 o.n

end COutPoint

structure CTxIn where
  prevout : COutPoint
  scriptSig : CScript
  nSequence : UInt32
  scriptWitness : List Bytes
deriving DecidableEq, Repr

def CTxIn.sequenceFinal : UInt32 := 0xffffffff

def CTxIn.serialize (i : CTxIn) : Bytes :=
  i.prevout.serialize ++ serBytes i.scriptSig ++ serUInt32 i.nSequence

structure CTxOut where
  nValue : CAmount
  scriptPubKey : CScript
deriving DecidableEq, Repr

/-- The null output, written for the outputs a signature hash leaves out. -/
def CTxOut.null : CTxOut := ⟨-1, []⟩

def CTxOut.serialize (o : CTxOut) : Bytes := serInt64 o.nValue ++ serBytes o.scriptPubKey

structure CTransaction where
  nVersion : Int32
  vin : List CTxIn
  vout : List CTxOut
  nLockTime : UInt32
deriving DecidableEq, Repr

namespace CTransaction

def hasWitness (tx : CTransaction) : Bool := tx.vin.any fun i => !i.scriptWitness.isEmpty

/-- `SerializeTransaction` with `SERIALIZE_TRANSACTION_NO_WITNESS` -/
def serializeNoWitness (tx : CTransaction) : Bytes :=
  serInt32 tx.nVersion ++ serVector CTxIn.serialize tx.vin ++
    serVector CTxOut.serialize tx.vout ++ serUInt32 tx.nLockTime

/-- `SerializeTransaction` with witnesses allowed: the extended format carries an empty
input vector and a flag byte before the inputs. -/
def serialize (tx : CTransaction) : Bytes :=
  if tx.hasWitness then
    serInt32 tx.nVersion ++ serVector CTxIn.serialize [] ++ [1] ++
      serVector CTxIn.serialize tx.vin ++ serVector CTxOut.serialize tx.vout ++
      tx.vin.flatMap (fun i => serVector serBytes i.scriptWitness) ++ serUInt32 tx.nLockTime
  else
    tx.serializeNoWitness

def getHash (cr : Crypto) (tx : CTransaction) : Uint256 := cr.hash256 tx.serializeNoWitness

def isCoinBase (tx : CTransaction) : Bool :=
  match tx.vin with
  | [i] => i.prevout.isNull
  | _ => false

end CTransaction

/-- A hash as `memcmp` compares it: its memory, read from the first byte on. -/
def Uint256.memOrder (h : Uint256) : Nat := LittleEndian.decode h.bytes.reverse

theorem Uint256.memOrder_injective {h h' : Uint256} (heq : h.memOrder = h'.memOrder) : h = h' := by
  have hbytes : h.bytes.reverse = h'.bytes.reverse := by
    have hrev := LittleEndian.encode_decode h.bytes.reverse
    have hrev' := LittleEndian.encode_decode h'.bytes.reverse
    have hlen : h.bytes.reverse.length = h'.bytes.reverse.length := by simp
    rw [← hrev, ← hrev']
    exact congrArg _ heq
  exact Uint256.bytes_injective (List.reverse_inj.mp hbytes)

/-- Insert a hash into a `std::set`. -/
def insertHash (hash : Uint256) : List Uint256 → List Uint256
  | [] => [hash]
  | h :: hashes =>
    if hash = h then h :: hashes
    else if Uint256.memOrder hash < Uint256.memOrder h then hash :: h :: hashes
    else h :: insertHash hash hashes

theorem mem_insertHash {h hash : Uint256} {hashes : List Uint256} :
    h ∈ insertHash hash hashes ↔ h = hash ∨ h ∈ hashes := by
  induction hashes with
  | nil => simp [insertHash]
  | cons h' hashes ih =>
    rw [insertHash]
    split
    · next heq =>
      subst heq
      simp
    · split
      · simp
      · simp only [List.mem_cons, ih]
        tauto

/-- The order of outpoints: by hash, then by index. -/
def COutPoint.order (o : COutPoint) : Nat := Uint256.memOrder o.hash * 2 ^ 32 + o.n.toNat

theorem COutPoint.order_div (o : COutPoint) : o.order / 2 ^ 32 = Uint256.memOrder o.hash := by
  have hlt : o.n.toNat < 2 ^ 32 := o.n.toNat_lt
  rw [order]
  omega

instance : LT COutPoint := ⟨fun a b => a.order < b.order⟩

instance : DecidableLT COutPoint := fun a b => Nat.decLt a.order b.order

end RgmNode
