import RgmNode.Primitives.Stream
import RgmNode.Wallet.KeyStore

/-!
# The wallet database

`ReadKeyValue`, `CWalletDB::LoadWallet` and `CWalletDB::Recover` (`wallet/walletdb.cpp`).  A
record is a serialized key, which starts with the name of the record's type, and a serialized
value.  Records that do not reach the key store are read by a parameter, `OtherRecords`.

1. `storeStep_readKeyValue` — what a record does to the key store
2. `loadWallet_eq_corrupt` — a load reports corruption for the types of `IsKeyType`
3. `mem_recover_iff` — what is salvaged
4. `keepsKeys_iff` — the keys of a file survive if none of them is a post-quantum key
-/

namespace RgmNode

open Checks OrderedMap List

/-! ## 1. Records -/

abbrev Record := Bytes × Bytes

/-- The types of records that `ReadKeyValue` loads into the key store, the one with the version,
the one that salvage names, and the others. -/
inductive RecordType where
  | key | wkey | mkey | ckey | pqkey | cscript | watchs | version | hdchain
  | other (strType : Bytes)
deriving DecidableEq, Repr

namespace RecordType

/-- The names of the types, as ASCII. -/
def name : RecordType → Bytes
  | key => [0x6b, 0x65, 0x79]
  | wkey => [0x77, 0x6b, 0x65, 0x79]
  | mkey => [0x6d, 0x6b, 0x65, 0x79]
  | ckey => [0x63, 0x6b, 0x65, 0x79]
  | pqkey => [0x70, 0x71, 0x6b, 0x65, 0x79]
  | cscript => [0x63, 0x73, 0x63, 0x72, 0x69, 0x70, 0x74]
  | watchs => [0x77, 0x61, 0x74, 0x63, 0x68, 0x73]
  | version => [0x76, 0x65, 0x72, 0x73, 0x69, 0x6f, 0x6e]
  | hdchain => [0x68, 0x64, 0x63, 0x68, 0x61, 0x69, 0x6e]
  | other strType => strType

def named : List RecordType :=
  [key, wkey, mkey, ckey, pqkey, cscript, watchs, version, hdchain]

def ofName (strType : Bytes) : RecordType :=
  (named.find? fun t => t.name = strType).getD (other strType)

def isKeyType : RecordType → Bool
  | key | wkey | mkey | ckey => true
  | _ => false

/-- The types whose records become private keys: plain, encrypted and post-quantum ones. -/
def isPrivateKeyType : RecordType → Bool
  | key | wkey | ckey | pqkey => true
  | _ => false

/-- The two lists of types agree but for the post-quantum keys. -/
theorem isKeyType_of_isPrivateKeyType {t : RecordType} (h : t.isPrivateKeyType = true)
    (hne : t ≠ pqkey) : t.isKeyType = true := by
  cases t with
  | key | wkey | ckey => rfl
  | pqkey => exact absurd rfl hne
  | mkey | cscript | watchs | version | hdchain | other => cases h

end RecordType

inductive ReadError where
  | exception
  | pubKeyCorrupt
  | keyPairCorrupt
  | privKeyCorrupt
  | loadKeyFailed
  | duplicateMasterKey (nID : Nat)
  | loadCryptedKeyFailed
  | invalidPQKey
  | loadCScriptFailed
  | other (strErr : String)
deriving DecidableEq, Repr

inductive DBErrors where
  | loadOk | corrupt | noncriticalError | tooNew | loadFail | needRewrite
deriving DecidableEq, Repr

/-! ## 2. Values -/

/-- `CPubKey::Unserialize`.  Bytes the stream does not give are not initialised in the source and
zero here. -/
def readPubKey : Reader CPubKey := do
  let len ← readCompactSize
  let vch ← readBytes len
  if len ≤ 65 then
    return CPubKey.ofBytes ((vch ++ List.replicate 65 0).take (pubKeyLen vch))
  else return CPubKey.invalid

/-- A string of at most 65536 bytes. -/
def readLimitedString : Reader Bytes := do
  let size ← readCompactSize
  if 65536 < size then failure else readBytes size

/-- `CWalletKey`, of which the private key is used. -/
def readWalletKey : Reader Bytes := do
  let _nVersion ← readUInt 4
  let vchPrivKey ← readVector
  let _nTimeCreated ← readUInt 8
  let _nTimeExpires ← readUInt 8
  let _strComment ← readLimitedString
  return vchPrivKey

def readMasterKey : Reader CMasterKey := do
  let vchCryptedKey ← readVector
  let vchSalt ← readVector
  let nDerivationMethod ← readUInt 4
  let nDeriveIterations ← readUInt 4
  let vchOtherDerivationParameters ← readVector
  return ⟨vchCryptedKey, vchSalt, .ofNat nDerivationMethod, .ofNat nDeriveIterations,
    vchOtherDerivationParameters⟩

/-- The hash that may follow a private key; null if it is missing. -/
def readChecksum (rest : Bytes) : Uint256 :=
  if rest.length < 32 then 0 else BitVec.ofNat 256 (LittleEndian.decode (rest.take 32))

def orThrow {α : Type} : Option (α × Bytes) → Except ReadError (α × Bytes)
  | some r => .ok r
  | none => .error .exception

theorem orThrow_eq_ok_iff {α : Type} {o : Option (α × Bytes)} {r : α × Bytes} :
    orThrow o = .ok r ↔ o = some r := by
  cases o with
  | none => exact ⟨nofun, nofun⟩
  | some r' => exact ⟨fun h => by cases h; rfl, fun h => by cases h; rfl⟩

/-! ## 3. `ReadKeyValue` -/

/-- The records that do not reach the key store, over the state `ω` they are read into. -/
structure OtherRecords (ω : Type) where
  init : ω
  /-- the name of the type, the rest of the key and the value -/
  read : Bytes → Bytes → Bytes → ω → Except ReadError Unit × ω
  /-- what `ReorderTransactions` returns, if some record asks for it -/
  reorder : ω → Option DBErrors

/-- The part of a wallet that is loaded, with the `CWalletScanState`. -/
structure Loading (ω : Type) where
  store : CCryptoKeyStore := {}
  mapMasterKeys : List (Nat × CMasterKey) := []
  nMasterKeyMaxID : Nat := 0
  fIsEncrypted : Bool := false
  nFileVersion : Nat := 0
  rest : ω

namespace Loading

variable {ω : Type} (cr : Crypto) (lib : KeyLib) (others : OtherRecords ω) (w : Loading ω)

/-- Records of the types `key` and `wkey`, which differ in how the private key is read. -/
def readPlainKey (readPrivKey : Reader Bytes) (ssKey ssValue : Bytes) :
    Except ReadError (Loading ω) := do
  let (vchPubKey, _) ← orThrow (readPubKey ssKey)
  require (vchPubKey.isValid = true) .pubKeyCorrupt
  let (pkey, rest) ← orThrow (readPrivKey ssValue)
  let hash := readChecksum rest
  require (hash = 0 ∨ cr.hash256 (vchPubKey.vch ++ pkey) = hash) .keyPairCorrupt
  match lib.load pkey vchPubKey (hash ≠ 0) with
  | none => .error .privKeyCorrupt
  | some key =>
    match w.store.addKeyPubKey cr lib key vchPubKey with
    | none => .error .loadKeyFailed
    | some store => .ok { w with store := store }

def readMasterKeyRecord (ssKey ssValue : Bytes) : Except ReadError (Loading ω) := do
  let (nID, _) ← orThrow (readUInt 4 ssKey)
  let (kMasterKey, _) ← orThrow (readMasterKey ssValue)
  require ((w.mapMasterKeys.lookup nID).isNone = true) (.duplicateMasterKey nID)
  .ok { w with
    mapMasterKeys := insert nID kMasterKey w.mapMasterKeys
    nMasterKeyMaxID := max w.nMasterKeyMaxID nID }

def readCryptedKey (ssKey ssValue : Bytes) : Except ReadError (Loading ω) := do
  let (vchPubKey, _) ← orThrow (readPubKey ssKey)
  require (vchPubKey.isValid = true) .pubKeyCorrupt
  let (vchPrivKey, _) ← orThrow (readVector ssValue)
  match w.store.addCryptedKey cr vchPubKey vchPrivKey with
  | none => .error .loadCryptedKeyFailed
  | some store => .ok { w with store := store, fIsEncrypted := true }

/-- `GetHash160` of a public key as the loader copies it; the copy of the empty result for a key
of a wrong size is undefined in the source. -/
def pqHash160 (pubkey : Bytes) : Uint160 :=
  if pubkey.length = mldsa44PubkeySize then cr.hash160 pubkey else 0

def readPQKey (ssKey ssValue : Bytes) : Except ReadError (Loading ω) := do
  let (pubkey, _) ← orThrow (readVector ssKey)
  let (privkey, _) ← orThrow (readVector ssValue)
  require (privkey.length = mldsa44PrivkeySize) .invalidPQKey
  .ok { w with store := w.store.addPQKeyToStore (pqHash160 cr pubkey) privkey pubkey }

/-- `LoadCScript`: a script that is too long is not added. -/
def readCScript (ssKey ssValue : Bytes) : Except ReadError (Loading ω) := do
  let _ ← orThrow (readBytes 20 ssKey)
  let (script, _) ← orThrow (readVector ssValue)
  if maxScriptElementSize < script.length then .ok w
  else
    match w.store.addCScript cr script with
    | none => .error .loadCScriptFailed
    | some store => .ok { w with store := store }

def readWatchOnly (ssKey ssValue : Bytes) : Except ReadError (Loading ω) := do
  let (script, _) ← orThrow (readVector ssKey)
  let (fYes, _) ← orThrow (readBytes 1 ssValue)
  if fYes = [0x31] then .ok { w with store := w.store.addWatchOnly cr lib script } else .ok w

def readVersion (ssValue : Bytes) : Except ReadError (Loading ω) := do
  let (nFileVersion, _) ← orThrow (readUInt 4 ssValue)
  .ok { w with nFileVersion := if nFileVersion = 10300 then 300 else nFileVersion }

/-- The type of a record, and the rest of its key; a name that cannot be read is no type. -/
def recordType (key : Bytes) : RecordType × Bytes :=
  match readVector key with
  | some (strType, ssKey) => (.ofName strType, ssKey)
  | none => (.other [], [])

/-- The wallet after a record: one that is not read changes nothing. -/
def keep : Except ReadError (Loading ω) → Except ReadError Unit × Loading ω
  | .ok w' => (.ok (), w')
  | .error e => (.error e, w)

/-- What `ReadKeyValue` does once the type is known: the error, and the wallet after it. -/
def readValue (strType : RecordType) (ssKey ssValue : Bytes) :
    Except ReadError Unit × Loading ω :=
  match strType with
  | .key => w.keep (w.readPlainKey cr lib readVector ssKey ssValue)
  | .wkey => w.keep (w.readPlainKey cr lib readWalletKey ssKey ssValue)
  | .mkey => w.keep (w.readMasterKeyRecord ssKey ssValue)
  | .ckey => w.keep (w.readCryptedKey cr ssKey ssValue)
  | .pqkey => w.keep (w.readPQKey cr ssKey ssValue)
  | .cscript => w.keep (w.readCScript cr ssKey ssValue)
  | .watchs => w.keep (w.readWatchOnly cr lib ssKey ssValue)
  | .version => w.keep (w.readVersion ssValue)
  | .hdchain | .other _ =>
    let (result, rest) := others.read strType.name ssKey ssValue w.rest
    (result, { w with rest := rest })

def readKeyValue (row : Record) : Except ReadError Unit × Loading ω :=
  match readVector row.1 with
  | none => (.error .exception, w)
  | some _ =>
    let (strType, ssKey) := recordType row.1
    w.readValue cr lib others strType ssKey row.2

def readAll (rows : List Record) : Loading ω :=
  rows.foldl (fun w row => (w.readKeyValue cr lib others row).2) w

end Loading

/-! ## 4. Loading and salvage -/

section Load

open Loading

variable {ω : Type} (cr : Crypto) (lib : KeyLib) (others : OtherRecords ω)

/-- What the loop of `LoadWallet` keeps. -/
structure LoadState (ω : Type) where
  wallet : Loading ω
  result : DBErrors := .loadOk
  fNoncriticalErrors : Bool := false

/-- One round of the loop: losing keys is an error of another kind than losing anything else. -/
def loadRow (s : LoadState ω) (row : Record) : LoadState ω :=
  let (read, wallet) := s.wallet.readKeyValue cr lib others row
  match read with
  | .ok _ => { s with wallet := wallet }
  | .error _ =>
    if (recordType row.1).1.isKeyType then { s with wallet := wallet, result := .corrupt }
    else { s with wallet := wallet, fNoncriticalErrors := true }

/-- `CLIENT_VERSION` -/
def clientVersion : Int := 2000000

def minVersionName : Bytes := [0x6d, 0x69, 0x6e, 0x76, 0x65, 0x72, 0x73, 0x69, 0x6f, 0x6e]

def tooNew (rows : List Record) : Bool :=
  match (rows.lookup (serBytes minVersionName)).bind (readUInt 4) with
  | some (nMinVersion, _) => clientVersion < (BitVec.ofNat 32 nMinVersion).toInt
  | none => false

def freshWallet : Loading ω := { rest := others.init }

def loadWallet (rows : List Record) : DBErrors × Loading ω :=
  if tooNew rows then (.tooNew, freshWallet others)
  else
    let s := rows.foldl (loadRow cr lib others) { wallet := freshWallet others }
    let result :=
      if s.fNoncriticalErrors && s.result = .loadOk then .noncriticalError else s.result
    if result ≠ .loadOk then (result, s.wallet)
    else if s.wallet.fIsEncrypted &&
        (s.wallet.nFileVersion = 40000 || s.wallet.nFileVersion = 50000) then
      (.needRewrite, s.wallet)
    else ((others.reorder s.wallet.rest).getD .loadOk, s.wallet)

/-- The records that `LoadWallet` reads. -/
def loadedRows (rows : List Record) : List Record := if tooNew rows then [] else rows

/-- One record of `Recover` with `fOnlyKeys`: the wallet it is read into and the new file. -/
def salvageRow (s : Loading ω × List Record) (row : Record) : Loading ω × List Record :=
  let (fReadOK, wallet) := s.1.readKeyValue cr lib others row
  let strType := (recordType row.1).1
  if !strType.isKeyType && strType ≠ .hdchain then (wallet, s.2)
  else
    match fReadOK with
    | .error _ => (wallet, s.2)
    | .ok _ => (wallet, insertNew row.1 row.2 s.2)

/-- `CWalletDB::Recover`: the file that is written, if the salvage finds the records. -/
def recover (rows : List Record) (fOnlyKeys : Bool) : List Record :=
  if fOnlyKeys then (rows.foldl (salvageRow cr lib others) (freshWallet others, [])).2
  else rows.foldl (fun copy row => insertNew row.1 row.2 copy) []

/-! ## 5. What happens to a record -/

def salvaged (strType : RecordType) : Bool := strType.isKeyType || strType = .hdchain

/-- The records that salvage writes, in the order in which it does. -/
def salvagedRows (w : Loading ω) : List Record → List Record
  | [] => []
  | row :: rows =>
    let (fReadOK, w') := w.readKeyValue cr lib others row
    if salvaged (recordType row.1).1 && fReadOK.isOk then row :: salvagedRows w' rows
    else salvagedRows w' rows

variable {cr lib others}

variable {w : Loading ω} {row : Record} {rows : List Record}

theorem store_keep {P : CCryptoKeyStore → Prop} {r : Except ReadError (Loading ω)} (h : P w.store)
    (hr : ∀ w', r = .ok w' → P w'.store) : P (w.keep r).2.store := by
  cases r with
  | ok w' => exact hr w' rfl
  | error e => exact h

theorem readPlainKey_eq_ok {w' : Loading ω} {readPrivKey : Reader Bytes} {ssKey ssValue : Bytes}
    (h : w.readPlainKey cr lib readPrivKey ssKey ssValue = .ok w') :
    ∃ pubkey rest pkey rest' key,
      readPubKey ssKey = some (pubkey, rest) ∧ readPrivKey ssValue = some (pkey, rest') ∧
      lib.load pkey pubkey (readChecksum rest' ≠ 0) = some key ∧
      w.store.addKeyPubKey cr lib key pubkey = some w'.store := by
  obtain ⟨⟨pubkey, rest⟩, hpub, h⟩ := bind_eq_ok_iff.mp h
  obtain ⟨-, h⟩ := require_bind_eq_ok_iff.mp h
  obtain ⟨⟨pkey, rest'⟩, hpriv, h⟩ := bind_eq_ok_iff.mp h
  obtain ⟨-, h⟩ := require_bind_eq_ok_iff.mp h
  rw [orThrow_eq_ok_iff] at hpub hpriv
  split at h
  · cases h
  next key hkey =>
  split at h
  · cases h
  next store hstore =>
  cases h
  exact ⟨pubkey, rest, pkey, rest', key, hpub, hpriv, hkey, hstore⟩

/-- What reading a record of a type does to a key store: nothing, or one call. -/
inductive StoreStep (cr : Crypto) (lib : KeyLib) (s : CCryptoKeyStore) :
    RecordType → CCryptoKeyStore → Prop
  | same {t : RecordType} : StoreStep cr lib s t s
  | key {t : RecordType} {key : CKey} {pubkey : CPubKey} {s' : CCryptoKeyStore} :
      t = .key ∨ t = .wkey → s.addKeyPubKey cr lib key pubkey = some s' → StoreStep cr lib s t s'
  | ckey {pubkey : CPubKey} {secret : Bytes} {s' : CCryptoKeyStore} :
      s.addCryptedKey cr pubkey secret = some s' → StoreStep cr lib s .ckey s'
  | pqkey {hash : Uint160} {privkey pubkey : Bytes} :
      StoreStep cr lib s .pqkey (s.addPQKeyToStore hash privkey pubkey)
  | cscript {script : CScript} {s' : CCryptoKeyStore} :
      s.addCScript cr script = some s' → StoreStep cr lib s .cscript s'
  | watchs {script : CScript} : StoreStep cr lib s .watchs (s.addWatchOnly cr lib script)

theorem storeStep_readValue (w : Loading ω) (strType : RecordType) (ssKey ssValue : Bytes) :
    StoreStep cr lib w.store strType
      (w.readValue cr lib others strType ssKey ssValue).2.store := by
  cases strType with
  | key =>
    refine store_keep .same fun w' hw' => ?_
    obtain ⟨_, _, _, _, _, -, -, -, hstore⟩ := readPlainKey_eq_ok hw'
    exact .key (.inl rfl) hstore
  | wkey =>
    refine store_keep .same fun w' hw' => ?_
    obtain ⟨_, _, _, _, _, -, -, -, hstore⟩ := readPlainKey_eq_ok hw'
    exact .key (.inr rfl) hstore
  | mkey =>
    refine store_keep .same fun w' hw' => ?_
    obtain ⟨_, -, hw'⟩ := bind_eq_ok_iff.mp hw'
    obtain ⟨_, -, hw'⟩ := bind_eq_ok_iff.mp hw'
    obtain ⟨-, hw'⟩ := require_bind_eq_ok_iff.mp hw'
    cases hw'
    exact .same
  | ckey =>
    refine store_keep .same fun w' hw' => ?_
    obtain ⟨⟨pubkey, _⟩, -, hw'⟩ := bind_eq_ok_iff.mp hw'
    obtain ⟨-, hw'⟩ := require_bind_eq_ok_iff.mp hw'
    obtain ⟨⟨secret, _⟩, -, hw'⟩ := bind_eq_ok_iff.mp hw'
    dsimp only at hw'
    split at hw'
    · cases hw'
    next store hstore =>
    cases hw'
    exact .ckey hstore
  | pqkey =>
    refine store_keep .same fun w' hw' => ?_
    obtain ⟨⟨pubkey, _⟩, -, hw'⟩ := bind_eq_ok_iff.mp hw'
    obtain ⟨⟨privkey, _⟩, -, hw'⟩ := bind_eq_ok_iff.mp hw'
    obtain ⟨-, hw'⟩ := require_bind_eq_ok_iff.mp hw'
    cases hw'
    exact .pqkey
  | cscript =>
    refine store_keep .same fun w' hw' => ?_
    obtain ⟨_, -, hw'⟩ := bind_eq_ok_iff.mp hw'
    obtain ⟨⟨script, _⟩, -, hw'⟩ := bind_eq_ok_iff.mp hw'
    dsimp only at hw'
    split at hw'
    · cases hw'
      exact .same
    split at hw'
    · cases hw'
    next store hstore =>
    cases hw'
    exact .cscript hstore
  | watchs =>
    refine store_keep .same fun w' hw' => ?_
    obtain ⟨⟨script, _⟩, -, hw'⟩ := bind_eq_ok_iff.mp hw'
    obtain ⟨⟨fYes, _⟩, -, hw'⟩ := bind_eq_ok_iff.mp hw'
    dsimp only at hw'
    split at hw'
    · cases hw'
      exact .watchs
    · cases hw'
      exact .same
  | version =>
    refine store_keep .same fun w' hw' => ?_
    obtain ⟨_, -, hw'⟩ := bind_eq_ok_iff.mp hw'
    cases hw'
    exact .same
  | hdchain => exact .same
  | other strType => exact .same

theorem keep_eq_ok {r : Except ReadError (Loading ω)} (h : (w.keep r).1 = .ok ()) :
    r = .ok (w.keep r).2 := by
  cases r with
  | ok w' => rfl
  | error e => cases h

theorem storeStep_readKeyValue (w : Loading ω) (row : Record) :
    StoreStep cr lib w.store (recordType row.1).1
      (w.readKeyValue cr lib others row).2.store := by
  unfold readKeyValue
  split
  · exact .same
  · exact storeStep_readValue w _ _ _

/-- What a load makes of a record: one of a key type that it cannot read is corruption. -/
theorem loadRow_spec (s : LoadState ω) (row : Record) :
    (loadRow cr lib others s row).wallet = (s.wallet.readKeyValue cr lib others row).2 ∧
      (loadRow cr lib others s row).result =
        if (s.wallet.readKeyValue cr lib others row).1.isOk then s.result
        else if (recordType row.1).1.isKeyType then .corrupt else s.result := by
  unfold loadRow
  generalize s.wallet.readKeyValue cr lib others row = r
  obtain ⟨read, wallet⟩ := r
  cases read with
  | ok u => exact ⟨rfl, rfl⟩
  | error e =>
    dsimp only
    split <;> exact ⟨rfl, rfl⟩

theorem wallet_foldl_loadRow (s : LoadState ω) (rows : List Record) :
    (rows.foldl (loadRow cr lib others) s).wallet = s.wallet.readAll cr lib others rows := by
  induction rows generalizing s with
  | nil => rfl
  | cons row rows ih =>
    rw [foldl_cons, ih, (loadRow_spec s row).1]
    rfl

theorem result_foldl_loadRow {s : LoadState ω} (h : s.result = .corrupt) (rows : List Record) :
    (rows.foldl (loadRow cr lib others) s).result = .corrupt := by
  induction rows generalizing s with
  | nil => exact h
  | cons row rows ih =>
    apply ih
    rw [(loadRow_spec s row).2, h, ite_self, ite_self]

theorem result_loadRow {s : LoadState ω} {e : ReadError}
    (h : (s.wallet.readKeyValue cr lib others row).1 = .error e) :
    (loadRow cr lib others s row).result =
      if (recordType row.1).1.isKeyType then .corrupt else s.result := by
  rw [(loadRow_spec s row).2, h]
  rfl

/-- A record of a key type that is not read makes the load report corruption. -/
theorem loadWallet_eq_corrupt {before after : List Record} {e : ReadError}
    (hrows : loadedRows rows = before ++ row :: after)
    (htype : (recordType row.1).1.isKeyType = true)
    (hread : (((freshWallet others).readAll cr lib others before).readKeyValue cr lib others
      row).1 = .error e) : (loadWallet cr lib others rows).1 = .corrupt := by
  unfold loadedRows at hrows
  split at hrows
  · simp at hrows
  next hnew =>
  have hresult : (rows.foldl (loadRow cr lib others)
      { wallet := freshWallet others }).result = .corrupt := by
    rw [hrows, foldl_append, foldl_cons]
    apply result_foldl_loadRow
    rw [result_loadRow, if_pos htype]
    rw [wallet_foldl_loadRow]
    exact hread
  simp [loadWallet, hnew, hresult]

/-- A load without corruption has read every record of a key type. -/
theorem readable_of_loadWallet {result : DBErrors} {l : Loading ω}
    (h : loadWallet cr lib others rows = (result, l)) (hcorrupt : result ≠ .corrupt)
    (hnew : result ≠ .tooNew) :
    l = (freshWallet others).readAll cr lib others rows ∧
      ∀ before row after, rows = before ++ row :: after →
        (recordType row.1).1.isKeyType = true →
          (((freshWallet others).readAll cr lib others before).readKeyValue cr lib others row).1 =
            .ok () := by
  have hnot : ¬ tooNew rows = true := by
    intro htoo
    rw [loadWallet, if_pos htoo] at h
    cases h
    exact hnew rfl
  have hloaded : loadedRows rows = rows := if_neg hnot
  refine ⟨?_, fun before row after hrows htype => ?_⟩
  · have hwallet : (loadWallet cr lib others rows).2 =
        (freshWallet others).readAll cr lib others rows := by
      rw [loadWallet, if_neg hnot, ← wallet_foldl_loadRow { wallet := freshWallet others }]
      simp only [apply_ite Prod.snd, ite_self]
    rw [← hwallet, h]
  · cases hread : (((freshWallet others).readAll cr lib others before).readKeyValue cr lib others
      row).1 with
    | ok u => rfl
    | error e =>
      have hres := loadWallet_eq_corrupt (hloaded.trans hrows) htype hread
      rw [h] at hres
      exact absurd hres hcorrupt

/-- Salvage writes the records of the types it copies that it reads. -/
theorem foldl_salvageRow (w : Loading ω) (out rows : List Record) :
    (rows.foldl (salvageRow cr lib others) (w, out)).2 =
      (salvagedRows cr lib others w rows).foldl (fun out row => insertNew row.1 row.2 out) out := by
  induction rows generalizing w out with
  | nil => rfl
  | cons row rows ih =>
    rw [foldl_cons, salvagedRows, salvageRow, salvaged]
    dsimp only
    generalize w.readKeyValue cr lib others row = r
    obtain ⟨read, w'⟩ := r
    generalize (recordType row.1).1 = strType
    cases read with
    | error e =>
      rw [show (Except.error e : Except ReadError Unit).isOk = false from rfl, Bool.and_false]
      simp only [ite_self, Bool.false_eq_true, if_false]
      exact ih w' out
    | ok u =>
      rw [show (Except.ok u : Except ReadError Unit).isOk = true from rfl, Bool.and_true]
      by_cases hcopy : (strType.isKeyType || decide (strType = .hdchain)) = true
      · rw [if_pos hcopy, foldl_cons, ← ih, if_neg]
        simpa [← Bool.not_or, or_iff_not_imp_left] using hcopy
      · rw [if_neg hcopy, ← ih, if_pos]
        simpa using hcopy

theorem sublist_salvagedRows : (salvagedRows cr lib others w rows).Sublist rows := by
  induction rows generalizing w with
  | nil => exact Sublist.refl _
  | cons row rows ih =>
    rw [salvagedRows]
    dsimp only
    split
    · exact ih.cons_cons row
    · exact ih.cons row

theorem isOk_iff {ε : Type} {x : Except ε Unit} : x.isOk = true ↔ x = .ok () := by
  cases x with
  | ok u => exact ⟨fun _ => rfl, fun _ => rfl⟩
  | error e => exact ⟨nofun, nofun⟩

theorem mem_salvagedRows :
    row ∈ salvagedRows cr lib others w rows ↔
      ∃ before after, rows = before ++ row :: after ∧ salvaged (recordType row.1).1 = true ∧
        ((w.readAll cr lib others before).readKeyValue cr lib others row).1 = .ok () := by
  induction rows generalizing w with
  | nil => simp [salvagedRows]
  | cons row' rows ih =>
    have hcons : row ∈ salvagedRows cr lib others w (row' :: rows) ↔
        (row = row' ∧ salvaged (recordType row.1).1 = true ∧
          (w.readKeyValue cr lib others row).1 = .ok ()) ∨
        row ∈ salvagedRows cr lib others (w.readKeyValue cr lib others row').2 rows := by
      rw [salvagedRows]
      dsimp only
      split
      · next hcopy =>
        rw [Bool.and_eq_true, isOk_iff] at hcopy
        rw [mem_cons]
        refine or_congr_left ⟨fun h => ?_, fun h => h.1⟩
        subst h
        exact ⟨rfl, hcopy⟩
      · next hcopy =>
        rw [Bool.and_eq_true, isOk_iff] at hcopy
        refine ⟨.inr, fun h => h.resolve_left fun h => ?_⟩
        obtain ⟨rfl, hrow⟩ := h
        exact hcopy hrow
    rw [hcons, ih]
    constructor
    · rintro (⟨rfl, htype, hread⟩ | ⟨before, after, rfl, htype, hread⟩)
      · exact ⟨[], rows, rfl, htype, hread⟩
      · exact ⟨row' :: before, after, rfl, htype, hread⟩
    · rintro ⟨before, after, hrows, htype, hread⟩
      cases before with
      | nil =>
        obtain ⟨rfl, -⟩ := cons.inj hrows
        exact .inl ⟨rfl, htype, hread⟩
      | cons row'' before =>
        obtain ⟨rfl, rfl⟩ := cons.inj hrows
        exact .inr ⟨before, after, rfl, htype, hread⟩

/-- What is salvaged: the records of the types that are copied, if they are read. -/
theorem mem_recover_iff (hnodup : (rows.map (·.1)).Nodup) :
    row ∈ recover cr lib others rows true ↔
      ∃ before after, rows = before ++ row :: after ∧ salvaged (recordType row.1).1 = true ∧
        (((freshWallet others).readAll cr lib others before).readKeyValue cr lib others row).1 =
          .ok () := by
  rw [recover, if_pos rfl, foldl_salvageRow, mem_foldl_insertNew, mem_salvagedRows]
  · simp
  · exact hnodup.sublist (sublist_salvagedRows.map _)
  · simp

/-! ## 6. The keys of a file -/

/-- The content of a database: records, each with its own key. -/
structure WalletFile where
  rows : List Record
  nodup : (rows.map (·.1)).Nodup

variable (cr lib others)

/-- **Salvage and load keep every key** of a file: a record that a load turns into a private key
is salvaged, and one that it cannot read is reported as a lost key. -/
def KeepsKeys (file : WalletFile) : Prop :=
  ∀ before row after, loadedRows file.rows = before ++ row :: after →
    (recordType row.1).1.isPrivateKeyType = true →
      let w := (freshWallet others).readAll cr lib others before
      ((w.readKeyValue cr lib others row).1 = .ok () → row ∈ recover cr lib others file.rows true) ∧
      ∀ e, (w.readKeyValue cr lib others row).1 = .error e →
        (loadRow cr lib others { wallet := w } row).result = .corrupt ∧
          (loadWallet cr lib others file.rows).1 = .corrupt

variable {cr lib others}

/-- The keys of a file are kept if and only if no record that is loaded is a post-quantum key:
the types that salvage copies and that a load reports leave out `pqkey`, which a load reads. -/
theorem keepsKeys_iff (file : WalletFile) :
    KeepsKeys cr lib others file ↔ ∀ row ∈ loadedRows file.rows, (recordType row.1).1 ≠ .pqkey := by
  constructor
  · intro hkeeps row hrow hpq
    obtain ⟨before, after, hrows⟩ := List.append_of_mem hrow
    obtain ⟨hcopied, hreported⟩ := hkeeps before row after hrows (by rw [hpq]; rfl)
    -- the record is read or not
    cases hread : (((freshWallet others).readAll cr lib others before).readKeyValue cr lib others
      row).1 with
    | ok u =>
      obtain ⟨_, _, _, htype, -⟩ := (mem_recover_iff file.nodup).mp (hcopied hread)
      rw [hpq] at htype
      cases htype
    | error e =>
      have hresult := (hreported e hread).1
      rw [result_loadRow hread, hpq] at hresult
      cases hresult
  · intro hnone before row after hrows htype
    have hkey := RecordType.isKeyType_of_isPrivateKeyType htype (hnone row (by rw [hrows]; simp))
    refine ⟨fun hread => ?_, fun e hread => ⟨?_, loadWallet_eq_corrupt hrows hkey hread⟩⟩
    · refine (mem_recover_iff file.nodup).mpr ⟨before, after, ?_, ?_, hread⟩
      · unfold loadedRows at hrows
        split at hrows
        · simp at hrows
        · exact hrows
      · rw [salvaged, hkey]
        rfl
    · rw [result_loadRow hread, if_pos hkey]

end Load

def noRecords : OtherRecords Unit := ⟨(), fun _ _ _ _ => (.ok (), ()), fun _ => none⟩

def pqPrivkey : Bytes := List.replicate mldsa44PrivkeySize 1
def pqPubkey : Bytes := List.replicate mldsa44PubkeySize 2

/-- The record that `WritePQKey` writes. -/
def pqKeyRow : Record :=
  (serBytes RecordType.pqkey.name ++ serBytes pqPubkey, serBytes pqPrivkey)

def pqKeyFile : WalletFile where
  rows := [pqKeyRow]
  nodup := by simp

/-- The key is loaded without an error, and salvage writes an empty file. -/
theorem recover_drops_pqkey :
    (loadWallet plainCrypto plainKeyLib noRecords pqKeyFile.rows).1 = .loadOk ∧
      (loadWallet plainCrypto plainKeyLib noRecords pqKeyFile.rows).2.store.mapPQKeys =
        [(0, pqPrivkey, pqPubkey)] ∧
      recover plainCrypto plainKeyLib noRecords pqKeyFile.rows true = [] ∧
      ¬ KeepsKeys plainCrypto plainKeyLib noRecords pqKeyFile := by
  have hempty : recover plainCrypto plainKeyLib noRecords pqKeyFile.rows true = [] := by
    decide +kernel
  refine ⟨by decide +kernel, by decide +kernel, hempty, fun hkeeps => ?_⟩
  have hcopied := (hkeeps [] pqKeyRow [] (by decide +kernel) (by decide +kernel)).1
    (by decide +kernel)
  rw [hempty] at hcopied
  cases hcopied

end RgmNode
