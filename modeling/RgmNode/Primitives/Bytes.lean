import RgmNode.Lib.LittleEndian

/-!
# Bytes, hashes and the serialisation of integers

Byte vectors of the source (`std::vector<unsigned char>`, `CScript`, stream contents) are
lists of `UInt8`.  `uint256` and `uint160` are opaque blobs in the source, compared as
numbers where proof of work is checked; both views are available on `BitVec`.

The hash functions are parameters of the development: a `Crypto` value stands for the
implementations under `src/crypto`.
-/

namespace RgmNode

open LittleEndian BitVec

abbrev Bytes := List UInt8

abbrev Uint256 := BitVec 256
abbrev Uint160 := BitVec 160

instance : LawfulBEq Uint256 := inferInstance

/-- The memory of a `uint256`, from `begin()` to `end()`. -/
def Uint256.bytes (x : Uint256) : Bytes := LittleEndian.encode 32 x.toNat

/-- The memory of a `uint160`. -/
def Uint160.bytes (x : Uint160) : Bytes := LittleEndian.encode 20 x.toNat

@[simp] theorem Uint256.length_bytes (x : Uint256) : x.bytes.length = 32 := by
  simp [Uint256.bytes]

@[simp] theorem Uint160.length_bytes (x : Uint160) : x.bytes.length = 20 := by
  simp [Uint160.bytes]

theorem Uint160.bytes_injective {x y : Uint160} (h : x.bytes = y.bytes) : x = y :=
  eq_of_toNat_eq (encode_injective x.isLt y.isLt h)

theorem Uint256.bytes_injective {x y : Uint256} (h : x.bytes = y.bytes) : x = y :=
  eq_of_toNat_eq (encode_injective x.isLt y.isLt h)

/-- `uint160(vch)`, for a vector of twenty bytes -/
def Uint160.ofBytes (b : Bytes) : Uint160 := BitVec.ofNat 160 (LittleEndian.decode b)

theorem Uint160.ofBytes_bytes (x : Uint160) : Uint160.ofBytes x.bytes = x := by
  have hlt : x.toNat < 256 ^ 20 := x.isLt
  rw [ofBytes, bytes, decode_encode, Nat.mod_eq_of_lt hlt]
  exact eq_of_toNat_eq (by simp)

theorem Uint160.bytes_ofBytes {b : Bytes} (h : b.length = 20) : (Uint160.ofBytes b).bytes = b := by
  have hlt : decode b < 2 ^ 160 := by
    have := decode_lt b
    rwa [h] at this
  rw [ofBytes, bytes, toNat_ofNat, Nat.mod_eq_of_lt hlt, ← h]
  exact encode_decode b

/-- A `uint256` copied from 32 bytes -/
def Uint256.ofBytes (b : Bytes) : Uint256 := BitVec.ofNat 256 (LittleEndian.decode b)

theorem Uint256.ofBytes_bytes (x : Uint256) : Uint256.ofBytes x.bytes = x := by
  have hlt : x.toNat < 256 ^ 32 := x.isLt
  rw [ofBytes, bytes, decode_encode, Nat.mod_eq_of_lt hlt]
  exact eq_of_toNat_eq (by simp)

theorem Uint256.bytes_ofBytes {b : Bytes} (h : b.length = 32) : (Uint256.ofBytes b).bytes = b := by
  have hlt : decode b < 2 ^ 256 := by
    have := decode_lt b
    rwa [h] at this
  rw [ofBytes, bytes, toNat_ofNat, Nat.mod_eq_of_lt hlt, ← h]
  exact encode_decode b

/-! ## 1. The hash functions -/

/-- The hash functions of `src/crypto`, as they are called from the modelled code. -/
structure Crypto where
  sha256 : Bytes → Uint256
  ripemd160 : Bytes → Uint160
  sha1 : Bytes → Uint160
  /-- `scrypt_1024_1_1_256` on the 80 bytes of a header -/
  scrypt : Bytes → Uint256

/-- `CHash256`: SHA-256 twice. -/
def Crypto.hash256 (cr : Crypto) (b : Bytes) : Uint256 := cr.sha256 (cr.sha256 b).bytes

/-- `CHash160`: SHA-256, then RIPEMD-160. -/
def Crypto.hash160 (cr : Crypto) (b : Bytes) : Uint160 := cr.ripemd160 (cr.sha256 b).bytes

/-! ## 2. Integers on a stream -/

def serUInt32 (x : UInt32) : Bytes := LittleEndian.encode 4 x.toNat
def serInt32 (x : Int32) : Bytes := LittleEndian.encode 4 x.toUInt32.toNat

/-- An `int64_t` such as `CAmount`, in two's complement. -/
def serInt64 (x : Int) : Bytes := LittleEndian.encode 8 (x % 2 ^ 64).toNat

def writeCompactSize (n : Nat) : Bytes :=
  if n < 253 then [UInt8.ofNat n]
  else if n ≤ 0xffff then 253 :: LittleEndian.encode 2 n
  else if n ≤ 0xffffffff then 254 :: LittleEndian.encode 4 n
  else 255 :: LittleEndian.encode 8 n

/-- A byte vector on a stream: its length, then its bytes. -/
def serBytes (b : Bytes) : Bytes := writeCompactSize b.length ++ b

/-- A vector of objects on a stream: its length, then each object. -/
def serVector {α : Type} (ser : α → Bytes) (xs : List α) : Bytes :=
  writeCompactSize xs.length ++ xs.flatMap ser

end RgmNode
