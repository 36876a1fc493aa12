import RgmNode.Lib.OrderedMap
import RgmNode.Script.Sign

/-!
# Key stores

`CBasicKeyStore` (`keystore.h`) and `CCryptoKeyStore` (`wallet/crypter.h`), the part of a wallet
that holds keys in memory.  A map is the list of its entries in the order of the keys; ECDSA key
handling, AES and the derivation of keys from passphrases are a `KeyLib`.
-/

namespace RgmNode

open OrderedMap

/-! ## 1. The libraries -/

structure CMasterKey where
  vchCryptedKey : Bytes
  vchSalt : Bytes
  nDerivationMethod : UInt32
  nDeriveIterations : UInt32
  vchOtherDerivationParameters : Bytes
deriving DecidableEq, Repr

structure KeyLib where
  /-- `CKey::GetPubKey` -/
  getPubKey : CKey → CPubKey
  /-- `CKey::GetPrivKey` -/
  getPrivKey : CKey → Bytes
  /-- `CKey::Load` with a private key, a public key and `fSkipCheck` -/
  load : Bytes → CPubKey → Bool → Option CKey
  /-- `CKey::Set` with a secret and `fCompressed` -/
  set : Bytes → Bool → CKey
  /-- `CKey::VerifyPubKey` -/
  verifyPubKey : CKey → CPubKey → Bool
  /-- `CPubKey::IsFullyValid` -/
  isFullyValid : CPubKey → Bool
  /-- `AES256CBCEncrypt::Encrypt` with a key, an IV and a text -/
  aesEncrypt : Bytes → Bytes → Bytes → Bytes
  /-- `AES256CBCDecrypt::Decrypt`; empty if it fails -/
  aesDecrypt : Bytes → Bytes → Bytes → Bytes
  /-- `SetKeyFromPassphrase`: a key and an IV -/
  setKeyFromPassphrase : Bytes → CMasterKey → Option (Bytes × Bytes)

def CPubKey.getHash (cr : Crypto) (k : CPubKey) : Uint256 := cr.hash256 k.vch

def CPubKey.isCompressed (k : CPubKey) : Bool := k.vch.length = 33

/-- `WALLET_CRYPTO_KEY_SIZE` and `WALLET_CRYPTO_IV_SIZE` -/
def walletCryptoKeySize : Nat := 32
def walletCryptoIVSize : Nat := 16

/-- `CCrypter::Encrypt` after `SetKey` -/
def crypterEncrypt (lib : KeyLib) (key iv plaintext : Bytes) : Option Bytes :=
  if key.length ≠ walletCryptoKeySize || iv.length ≠ walletCryptoIVSize then none
  else
    let ciphertext := lib.aesEncrypt key iv plaintext
    if ciphertext.length < plaintext.length then none else some ciphertext

/-- `CCrypter::Decrypt` after `SetKey` -/
def crypterDecrypt (lib : KeyLib) (key iv ciphertext : Bytes) : Option Bytes :=
  if key.length ≠ walletCryptoKeySize || iv.length ≠ walletCryptoIVSize then none
  else
    let plaintext := lib.aesDecrypt key iv ciphertext
    if plaintext.isEmpty then none else some plaintext

def encryptSecret (lib : KeyLib) (vMasterKey plaintext : Bytes) (nIV : Uint256) : Option Bytes :=
  crypterEncrypt lib vMasterKey (nIV.bytes.take walletCryptoIVSize) plaintext

def decryptSecret (lib : KeyLib) (vMasterKey ciphertext : Bytes) (nIV : Uint256) : Option Bytes :=
  crypterDecrypt lib vMasterKey (nIV.bytes.take walletCryptoIVSize) ciphertext

def decryptKey (cr : Crypto) (lib : KeyLib) (vMasterKey vchCryptedSecret : Bytes)
    (vchPubKey : CPubKey) : Option CKey :=
  match decryptSecret lib vMasterKey vchCryptedSecret (vchPubKey.getHash cr) with
  | none => none
  | some vchSecret =>
    if vchSecret.length ≠ 32 then none
    else
      let key := lib.set vchSecret vchPubKey.isCompressed
      if lib.verifyPubKey key vchPubKey then some key else none

/-! ## 2. The store -/

theorem noKeys {b : Bool} : b = true → ([] : List (Uint160 × CKey)) = [] := fun _ => rfl

theorem noMasterKey {b : Bool} : b = false → ([] : Bytes) = [] := fun _ => rfl

/-- `CCryptoKeyStore` with the `CBasicKeyStore` it extends; the two conditions are those of
`crypter.h`. -/
structure CCryptoKeyStore where
  mapKeys : List (Uint160 × CKey) := []
  mapWatchKeys : List (Uint160 × CPubKey) := []
  mapScripts : List (Uint160 × CScript) := []
  setWatchOnly : List CScript := []
  mapPQKeys : List (Uint160 × Bytes × Bytes) := []
  mapCryptedKeys : List (Uint160 × CPubKey × Bytes) := []
  vMasterKey : Bytes := []
  fUseCrypto : Bool := false
  fDecryptionThoroughlyChecked : Bool := false
  /-- "if fUseCrypto is true, mapKeys must be empty" -/
  mapKeys_eq_nil : fUseCrypto = true → mapKeys = [] := by exact noKeys
  /-- "if fUseCrypto is false, vMasterKey must be empty" -/
  vMasterKey_eq_nil : fUseCrypto = false → vMasterKey = [] := by exact noMasterKey

namespace CCryptoKeyStore

variable (cr : Crypto) (lib : KeyLib) (s : CCryptoKeyStore)

def isCrypted : Bool := s.fUseCrypto

def isLocked : Bool := s.isCrypted && s.vMasterKey.isEmpty

theorem vMasterKey_of_crypted : true = false → s.vMasterKey = [] := nofun

/-- `SetCrypted`; `none` where it returns false -/
def setCrypted : Option CCryptoKeyStore :=
  if s.fUseCrypto then some s
  else if h : s.mapKeys = [] then
    some { s with
      fUseCrypto := true
      mapKeys_eq_nil := fun _ => h
      vMasterKey_eq_nil := s.vMasterKey_of_crypted }
  else none

/-- `Lock`; `none` where it returns false -/
def lock : Option CCryptoKeyStore :=
  s.setCrypted.map fun s => { s with vMasterKey := [], vMasterKey_eq_nil := fun _ => rfl }

/-- What the loop of `Unlock` finds: `keyPass` and `keyFail`. -/
def tryKeys (vMasterKeyIn : Bytes) (thorough : Bool) :
    List (Uint160 × CPubKey × Bytes) → Bool → Bool × Bool
  | [], keyPass => (keyPass, false)
  | (_, vchPubKey, vchCryptedSecret) :: rest, keyPass =>
    match decryptKey cr lib vMasterKeyIn vchCryptedSecret vchPubKey with
    | none => (keyPass, true)
    | some _ => if thorough then (true, false) else tryKeys vMasterKeyIn thorough rest true

/-- `CCryptoKeyStore::Unlock`: what it returns and the store after it; `none` where it asserts. -/
def unlock (vMasterKeyIn : Bytes) : Option (Bool × CCryptoKeyStore) :=
  match s.setCrypted with
  | none => some (false, s)
  | some s =>
    let (keyPass, keyFail) :=
      tryKeys cr lib vMasterKeyIn s.fDecryptionThoroughlyChecked s.mapCryptedKeys false
    if keyPass && keyFail then none
    else if keyFail || !keyPass then some (false, s)
    else if h : s.fUseCrypto = true then
      some (true, { s with
        vMasterKey := vMasterKeyIn
        fDecryptionThoroughlyChecked := true
        vMasterKey_eq_nil := fun hf => by rw [h] at hf; cases hf })
    else some (false, s)

/-- `CCryptoKeyStore::AddCryptedKey`; `none` where it returns false -/
def addCryptedKey (vchPubKey : CPubKey) (vchCryptedSecret : Bytes) : Option CCryptoKeyStore :=
  s.setCrypted.map fun s =>
    { s with mapCryptedKeys :=
        insert (vchPubKey.getID cr) (vchPubKey, vchCryptedSecret) s.mapCryptedKeys }

/-- `CBasicKeyStore::AddKeyPubKey`, which is called if the store is not encrypted. -/
def addPlainKey (key : CKey) (pubkey : CPubKey) (h : s.fUseCrypto = false) : CCryptoKeyStore :=
  { s with
    mapKeys := insert (pubkey.getID cr) key s.mapKeys
    mapKeys_eq_nil := fun hf => by rw [h] at hf; cases hf }

/-- `CCryptoKeyStore::AddKeyPubKey`; `none` where it returns false -/
def addKeyPubKey (key : CKey) (pubkey : CPubKey) : Option CCryptoKeyStore :=
  if h : s.fUseCrypto = false then some (s.addPlainKey cr key pubkey h)
  else if s.isLocked then none
  else
    match encryptSecret lib s.vMasterKey key.keydata (pubkey.getHash cr) with
    | none => none
    | some vchCryptedSecret => s.addCryptedKey cr pubkey vchCryptedSecret

def addPQKeyToStore (hash160 : Uint160) (privkey pubkey : Bytes) : CCryptoKeyStore :=
  { s with mapPQKeys := insert hash160 (privkey, pubkey) s.mapPQKeys }

/-- `CBasicKeyStore::AddCScript`; `none` where it returns false -/
def addCScript (redeemScript : CScript) : Option CCryptoKeyStore :=
  if maxScriptElementSize < redeemScript.length then none
  else some { s with mapScripts := insert (cr.hash160 redeemScript) redeemScript s.mapScripts }

def extractPubKey (dest : CScript) : Option CPubKey :=
  match dest.getOp with
  | .error _ => none
  | .ok (_, vch, pc) =>
    let pubKey := CPubKey.ofBytes vch
    if vch.length < 33 || 65 < vch.length || !lib.isFullyValid pubKey then none
    else
      match pc.getOp with
      | .error _ => none
      | .ok (opcode, _, pc) =>
        -- nothing may follow
        if opcode = Opcode.checkSig && !pc.getOp.isOk then some pubKey else none

def addWatchOnly (dest : CScript) : CCryptoKeyStore :=
  { s with
    setWatchOnly := dest :: s.setWatchOnly.filter (· ≠ dest)
    mapWatchKeys :=
      match extractPubKey lib dest with
      | some pubKey => insert (pubKey.getID cr) pubKey s.mapWatchKeys
      | none => s.mapWatchKeys }

def removeWatchOnly (dest : CScript) : CCryptoKeyStore :=
  { s with
    setWatchOnly := s.setWatchOnly.filter (· ≠ dest)
    mapWatchKeys :=
      match extractPubKey lib dest with
      | some pubKey => erase (pubKey.getID cr) s.mapWatchKeys
      | none => s.mapWatchKeys }

def haveWatchOnly (dest : CScript) : Bool := dest ∈ s.setWatchOnly

/-! ## 3. What it gives out -/

def haveKey (address : Uint160) : Bool :=
  if s.fUseCrypto then (s.mapCryptedKeys.lookup address).isSome
  else (s.mapKeys.lookup address).isSome

def getKey (address : Uint160) : Option CKey :=
  if s.fUseCrypto then
    match s.mapCryptedKeys.lookup address with
    | some (vchPubKey, vchCryptedSecret) =>
      decryptKey cr lib s.vMasterKey vchCryptedSecret vchPubKey
    | none => none
  else s.mapKeys.lookup address

/-- `CBasicKeyStore::GetPubKey`, with the `GetKey` of this store -/
def getBasicPubKey (address : Uint160) : Option CPubKey :=
  match s.getKey cr lib address with
  | some key => some (lib.getPubKey key)
  | none => s.mapWatchKeys.lookup address

def getPubKey (address : Uint160) : Option CPubKey :=
  if s.fUseCrypto then
    match s.mapCryptedKeys.lookup address with
    | some (vchPubKey, _) => some vchPubKey
    | none => s.getBasicPubKey cr lib address
  else s.getBasicPubKey cr lib address

def havePQKey (hash160 : Uint160) : Bool := (s.mapPQKeys.lookup hash160).isSome

def getPQKey (hash160 : Uint160) : Option (Bytes × Bytes) := s.mapPQKeys.lookup hash160

def getCScript (hash : Uint160) : Option CScript := s.mapScripts.lookup hash

def haveCScript (hash : Uint160) : Bool := (s.mapScripts.lookup hash).isSome

def toKeyStore : KeyStore where
  getKey := s.getKey cr lib
  getPubKey := s.getPubKey cr lib
  getCScript := s.getCScript
  getPQKey := s.getPQKey

/-- The ECDSA keys that `s'` holds as they are are those of `s`; it may be encrypted from now on
if there are none. -/
structure SameMapKeys (s s' : CCryptoKeyStore) : Prop where
  mapKeys : s'.mapKeys = s.mapKeys
  stays : s.fUseCrypto = true → s'.fUseCrypto = true
  starts : s'.fUseCrypto = true → s.fUseCrypto = true ∨ s.mapKeys = []

/-- So are the post-quantum keys. -/
structure SamePlainKeys (s s' : CCryptoKeyStore) : Prop extends SameMapKeys s s' where
  mapPQKeys : s'.mapPQKeys = s.mapPQKeys

namespace SamePlainKeys

variable {s s' s'' : CCryptoKeyStore}

theorem refl (s : CCryptoKeyStore) : SamePlainKeys s s := ⟨⟨rfl, id, .inl⟩, rfl⟩

theorem trans (h : SamePlainKeys s s') (h' : SamePlainKeys s' s'') : SamePlainKeys s s'' where
  mapKeys := h'.mapKeys.trans h.mapKeys
  stays := h'.stays ∘ h.stays
  starts hc := by
    rcases h'.starts hc with hc | hnil
    · exact h.starts hc
    · exact .inr (h.mapKeys ▸ hnil)
  mapPQKeys := h'.mapPQKeys.trans h.mapPQKeys

end SamePlainKeys

variable {cr lib s}

variable {s' : CCryptoKeyStore}

theorem setCrypted_eq_some (h : s.setCrypted = some s') :
    SamePlainKeys s s' ∧ s'.fUseCrypto = true ∧ s'.vMasterKey = s.vMasterKey := by
  unfold setCrypted at h
  split at h
  · next hc =>
    cases h
    exact ⟨.refl s, hc, rfl⟩
  · split at h
    · next hnil =>
      cases h
      exact ⟨⟨⟨rfl, fun _ => rfl, fun _ => .inr hnil⟩, rfl⟩, rfl, rfl⟩
    · cases h

theorem samePlainKeys_lock (h : s.lock = some s') : SamePlainKeys s s' := by
  obtain ⟨s₁, hs₁, rfl⟩ := Option.map_eq_some_iff.mp h
  obtain ⟨hsame, -⟩ := setCrypted_eq_some hs₁
  exact hsame.trans ⟨⟨rfl, id, .inl⟩, rfl⟩

theorem samePlainKeys_addCryptedKey {pubkey : CPubKey} {secret : Bytes}
    (h : s.addCryptedKey cr pubkey secret = some s') :
    SamePlainKeys s s' ∧ s'.fUseCrypto = true ∧ s'.vMasterKey = s.vMasterKey := by
  obtain ⟨s₁, hs₁, rfl⟩ := Option.map_eq_some_iff.mp h
  obtain ⟨hsame, hcrypted, hmaster⟩ := setCrypted_eq_some hs₁
  exact ⟨hsame.trans ⟨⟨rfl, id, .inl⟩, rfl⟩, hcrypted, hmaster⟩

theorem samePlainKeys_addCScript {script : CScript} (h : s.addCScript cr script = some s') :
    SamePlainKeys s s' ∧ s'.vMasterKey = s.vMasterKey := by
  unfold addCScript at h
  split at h
  · cases h
  · cases h
    exact ⟨⟨⟨rfl, id, .inl⟩, rfl⟩, rfl⟩

theorem samePlainKeys_unlock {vMasterKey : Bytes} {b : Bool}
    (h : s.unlock cr lib vMasterKey = some (b, s')) : SamePlainKeys s s' := by
  unfold unlock at h
  split at h
  · cases h
    exact .refl s
  next s₁ hs₁ =>
  obtain ⟨hsame, -⟩ := setCrypted_eq_some hs₁
  dsimp only at h
  split at h
  · cases h
  split at h
  · cases h
    exact hsame
  split at h
  · cases h
    exact hsame.trans ⟨⟨rfl, id, .inl⟩, rfl⟩
  · cases h
    exact hsame

/-! ## 4. Locked stores -/

theorem decryptKey_nil {secret : Bytes} {pubkey : CPubKey} :
    decryptKey cr lib [] secret pubkey = none := by
  simp [decryptKey, decryptSecret, crypterDecrypt, walletCryptoKeySize]

theorem getKey_of_locked (h : s.isLocked = true) (address : Uint160) :
    s.getKey cr lib address = none := by
  rw [isLocked, isCrypted, Bool.and_eq_true, List.isEmpty_iff] at h
  rw [getKey, if_pos h.1, h.2]
  split
  · exact decryptKey_nil
  · rfl

end CCryptoKeyStore

/-! ## 5. A library for examples -/

/-- Secrets are their own encryption, and every hash is zero. -/
def plainCrypto : Crypto where
  sha256 := fun _ => 0
  ripemd160 := fun _ => 0
  sha1 := fun _ => 0
  scrypt := fun _ => 0

@[inherit_doc plainCrypto]
def plainKeyLib : KeyLib where
  getPubKey := fun key => CPubKey.ofBytes (2 :: key.keydata.take 32)
  getPrivKey := fun key => key.keydata.take 32
  load := fun privkey _ _ => some ⟨privkey, true, true⟩
  set := fun secret fCompressed => ⟨secret, true, fCompressed⟩
  verifyPubKey := fun _ _ => true
  isFullyValid := fun key => key.isValid
  aesEncrypt := fun _ _ text => text
  aesDecrypt := fun _ _ text => text
  setKeyFromPassphrase := fun _ _ => some (List.replicate 32 0, List.replicate 16 0)

end RgmNode
