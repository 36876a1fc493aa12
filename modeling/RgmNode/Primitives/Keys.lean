import RgmNode.Primitives.Bytes

/-!
# Keys and signature schemes

`CPubKey` and `CKey` (`pubkey.h`, `key.h`), `CPQKey` and `CPQPubKey` (`pq/`).  The schemes
themselves, ECDSA on secp256k1 and ML-DSA-44, are parameters: a `Schemes` value stands for
the two libraries.
-/

namespace RgmNode

/-- The signature libraries, as they are called from the modelled code. -/
structure Schemes where
  /-- `CKey::Sign`: nonces are deterministic, so that it is a function of secret and hash -/
  ecSign : Bytes → Uint256 → Bytes
  /-- `CPubKey::Verify` for a key of valid size and a signature that is not empty -/
  ecVerify : Bytes → Uint256 → Bytes → Bool
  /-- `CPubKey::CheckLowS` -/
  ecCheckLowS : Bytes → Bool
  /-- `OQS_SIG_sign` with a private key on a message; `none` if the library fails -/
  mldsaSign : Bytes → Bytes → Option Bytes
  /-- `OQS_SIG_verify` for a public key, a message and a signature -/
  mldsaVerify : Bytes → Bytes → Bytes → Bool

/-! ## 1. ECDSA -/

/-- `GetLen`, by the first byte -/
def pubKeyLen : Bytes → Nat
  | [] => 0
  | chHeader :: _ =>
    if chHeader = 2 || chHeader = 3 then 33
    else if chHeader = 4 || chHeader = 6 || chHeader = 7 then 65
    else 0

theorem pubKeyLen_le (vch : Bytes) : pubKeyLen vch ≤ 65 := by
  cases vch with
  | nil => exact Nat.zero_le _
  | cons chHeader _ =>
    rw [pubKeyLen]
    split
    · decide
    · split <;> decide

/-- A public key of the size its first byte asks for; an invalid key is empty. -/
structure CPubKey where
  vch : Bytes
  size_eq : vch.length = pubKeyLen vch
deriving DecidableEq, Repr

namespace CPubKey

/-- `Invalidate` -/
def invalid : CPubKey := ⟨[], rfl⟩

/-- `Set` -/
def ofBytes (b : Bytes) : CPubKey :=
  if h : b.length = pubKeyLen b then ⟨b, h⟩ else invalid

def isValid (k : CPubKey) : Bool := !k.vch.isEmpty

def getID (cr : Crypto) (k : CPubKey) : Uint160 := cr.hash160 k.vch

def verify (sg : Schemes) (k : CPubKey) (hash : Uint256) (vchSig : Bytes) : Bool :=
  k.isValid && !vchSig.isEmpty && sg.ecVerify k.vch hash vchSig

theorem ofBytes_vch (k : CPubKey) : ofBytes k.vch = k := by
  rw [ofBytes, dif_pos k.size_eq]

end CPubKey

/-- A private key; `fValid` is false for one that was never set. -/
structure CKey where
  keydata : Bytes
  fValid : Bool
  fCompressed : Bool
deriving DecidableEq, Repr

def CKey.sign (sg : Schemes) (k : CKey) (hash : Uint256) : Option Bytes :=
  if k.fValid then some (sg.ecSign k.keydata hash) else none

/-! ## 2. ML-DSA-44 -/

def mldsa44PrivkeySize : Nat := 2560
def mldsa44PubkeySize : Nat := 1312
def mldsa44SigSize : Nat := 2420

/-- `CPQKey::Sign` after `SetRaw`: empty on failure -/
def pqSign (sg : Schemes) (privkey hash : Bytes) : Bytes :=
  if privkey.length ≠ mldsa44PrivkeySize || hash.length ≠ 32 then []
  else (sg.mldsaSign privkey hash).getD []

/-- `CPQPubKey::Verify` -/
def pqVerify (sg : Schemes) (pubkey hash sig : Bytes) : Bool :=
  pubkey.length = mldsa44PubkeySize && hash.length = 32 && sig.length = mldsa44SigSize &&
    sg.mldsaVerify pubkey hash sig

end RgmNode
