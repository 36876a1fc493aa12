import Mathlib.Data.List.Induction
import RgmNode.Lib.Transition
import RgmNode.Script.Keyless
import RgmNode.Wallet.WalletDB

/-!
# Encrypted wallets

The part of `CWallet` (`wallet/wallet.cpp`) that adds keys, encrypts them, and locks and unlocks
the wallet, with the records it writes.

1. `keeps_step` — the plain keys of a file are keys that the wallet holds unencrypted
2. `keepsSecret_iff` — a locked wallet keeps its secrets if it has no post-quantum key
3. `locked_keepsSecret` — so it does in every run that adds none
-/

namespace RgmNode

open OrderedMap Transition CCryptoKeyStore List Option

/-! ## 1. Records -/

namespace RecordType

def keymeta : RecordType := .other [0x6b, 0x65, 0x79, 0x6d, 0x65, 0x74, 0x61]

def watchmeta : RecordType := .other [0x77, 0x61, 0x74, 0x63, 0x68, 0x6d, 0x65, 0x74, 0x61]

def isKey (t : RecordType) : Prop := t = .key ∨ t = .wkey

def isPlain : RecordType → Bool
  | key | wkey | pqkey => true
  | _ => false

/-- The key of a record: the name of its type and what it is about. -/
def rowKey (t : RecordType) (ssKey : Bytes) : Bytes := serBytes t.name ++ ssKey

end RecordType

/-- `Write` without `fOverwrite`: whether it succeeds, and the records after it. -/
def writeNew (key value : Bytes) (file : List Record) : Bool × List Record :=
  if (file.lookup key).isSome then (false, file) else (true, insert key value file)

/-- A `key` record. -/
def keyRow (cr : Crypto) (pubkey : CPubKey) (privkey : Bytes) : Record :=
  (RecordType.key.rowKey (serBytes pubkey.vch),
    serBytes privkey ++ (cr.hash256 (pubkey.vch ++ privkey)).bytes)

def writeKey (cr : Crypto) (pubkey : CPubKey) (privkey keyMeta : Bytes) (file : List Record) :
    Bool × List Record :=
  match writeNew (RecordType.keymeta.rowKey (serBytes pubkey.vch)) keyMeta file with
  | (false, file) => (false, file)
  | (true, file) => writeNew (keyRow cr pubkey privkey).1 (keyRow cr pubkey privkey).2 file

/-- `CWalletDB::WriteCryptedKey`, which erases the plain key. -/
def writeCryptedKey (pubkey : CPubKey) (secret keyMeta : Bytes) (file : List Record) :
    Bool × List Record :=
  let ssKey := serBytes pubkey.vch
  let file := insert (RecordType.keymeta.rowKey ssKey) keyMeta file
  match writeNew (RecordType.ckey.rowKey ssKey) (serBytes secret) file with
  | (false, file) => (false, file)
  | (true, file) =>
    (true, erase (RecordType.wkey.rowKey ssKey) (erase (RecordType.key.rowKey ssKey) file))

/-- `CMasterKey`, serialized -/
def CMasterKey.serialize (k : CMasterKey) : Bytes :=
  serBytes k.vchCryptedKey ++ serBytes k.vchSalt ++ serUInt32 k.nDerivationMethod ++
    serUInt32 k.nDeriveIterations ++ serBytes k.vchOtherDerivationParameters

/-! ## 2. The wallet -/

/-- `CWallet`, with the records of its file. -/
structure CWallet where
  store : CCryptoKeyStore := {}
  fFileBacked : Bool := true
  mapMasterKeys : List (Nat × CMasterKey) := []
  nMasterKeyMaxID : Nat := 0
  file : List Record := []

/-- What `EncryptWallet` is called with and takes from random numbers and the clock. -/
structure EncryptArgs where
  strWalletPassphrase : Bytes
  vMasterKey : Bytes
  /-- salt, method and rounds; the encrypted key is set -/
  kMasterKey : CMasterKey
  /-- the new HD master key and the keys of the new pool -/
  newKeys : List CKey
  keyMeta : CPubKey → Bytes

inductive WalletOp where
  | addKeyPubKey (secret : CKey) (pubkey : CPubKey) (keyMeta : Bytes)
  | addPQKey (privkey pubkey : Bytes)
  | addCScript (redeemScript : CScript)
  | encryptWallet (args : EncryptArgs)
  | lock
  | unlock (strWalletPassphrase : Bytes)
  /-- a new wallet object that loads the file -/
  | reload

namespace CWallet

variable {ω : Type} (cr : Crypto) (lib : KeyLib) (others : OtherRecords ω) (w : CWallet)

/-- A new store, which is also written if there is a file. -/
def record (store : CCryptoKeyStore) (write : List Record → Bool × List Record) : Bool × CWallet :=
  if w.fFileBacked then
    let (written, file) := write w.file
    (written, { w with store := store, file := file })
  else (true, { w with store := store })

def addCryptedKey (pubkey : CPubKey) (secret keyMeta : Bytes) : Bool × CWallet :=
  match w.store.addCryptedKey cr pubkey secret with
  | none => (false, w)
  | some store => w.record store (writeCryptedKey pubkey secret keyMeta)

/-- `CCryptoKeyStore::AddKeyPubKey` of a wallet: the encrypted key is added by the wallet. -/
def addKeyToStore (secret : CKey) (pubkey : CPubKey) (keyMeta : Bytes) : Bool × CWallet :=
  if h : w.store.fUseCrypto = false then
    (true, { w with store := w.store.addPlainKey cr secret pubkey h })
  else if w.store.isLocked then (false, w)
  else
    match encryptSecret lib w.store.vMasterKey secret.keydata (pubkey.getHash cr) with
    | none => (false, w)
    | some vchCryptedSecret => w.addCryptedKey cr pubkey vchCryptedSecret keyMeta

/-- `RemoveWatchOnly` for a script that is watched. -/
def removeWatchOnly (script : CScript) : CWallet :=
  if w.store.haveWatchOnly script then
    { w with
      store := w.store.removeWatchOnly cr lib script
      file := if w.fFileBacked then
        erase (RecordType.watchs.rowKey (serBytes script))
          (erase (RecordType.watchmeta.rowKey (serBytes script)) w.file)
        else w.file }
  else w

/-- `GetScriptForRawPubKey` -/
def scriptForRawPubKey (pubkey : CPubKey) : CScript :=
  CScript.pushData pubkey.vch ++ [Opcode.checkSig]

/-- The scripts of a key that is added are not watched any more. -/
def removeWatched (pubkey : CPubKey) : CWallet :=
  (w.removeWatchOnly cr lib (CScript.payToPubkeyHash (pubkey.getID cr).bytes)).removeWatchOnly
    cr lib (scriptForRawPubKey pubkey)

def addKeyPubKey (secret : CKey) (pubkey : CPubKey) (keyMeta : Bytes) : Bool × CWallet :=
  match w.addKeyToStore cr lib secret pubkey keyMeta with
  | (false, w) => (false, w)
  | (true, w) =>
    let w := w.removeWatched cr lib pubkey
    if w.fFileBacked && !w.store.isCrypted then
      let (written, file) := writeKey cr pubkey (lib.getPrivKey secret) keyMeta w.file
      (written, { w with file := file })
    else (true, w)

/-- `CWallet::AddPQKey`: the key is held and written as it is. -/
def addPQKey (privkey pubkey : Bytes) : Bool × CWallet :=
  if pubkey.length ≠ mldsa44PubkeySize || privkey.length ≠ mldsa44PrivkeySize then (false, w)
  else
    w.record (w.store.addPQKeyToStore (cr.hash160 pubkey) privkey pubkey)
      (writeNew (RecordType.pqkey.rowKey (serBytes pubkey)) (serBytes privkey))

def addCScript (redeemScript : CScript) : Bool × CWallet :=
  match w.store.addCScript cr redeemScript with
  | none => (false, w)
  | some store => w.record store (writeNew
      (RecordType.cscript.rowKey (cr.hash160 redeemScript).bytes) (serBytes redeemScript))

/-- The loop of `CCryptoKeyStore::EncryptKeys`, over the encrypted keys and the file; `none` where
it returns false. -/
def encryptLoop (vMasterKey : Bytes) (keyMeta : CPubKey → Bytes) :
    List (Uint160 × CKey) → List (Uint160 × CPubKey × Bytes) → List Record →
      Option (List (Uint160 × CPubKey × Bytes) × List Record)
  | [], crypted, file => some (crypted, file)
  | (_, key) :: keys, crypted, file =>
    -- the public key is that of the secret, not the one it is stored under
    let pubkey := lib.getPubKey key
    match encryptSecret lib vMasterKey key.keydata (pubkey.getHash cr) with
    | none => none
    | some secret =>
      let crypted := insert (pubkey.getID cr) (pubkey, secret) crypted
      if w.fFileBacked then
        match writeCryptedKey pubkey secret (keyMeta pubkey) file with
        | (false, _) => none
        | (true, file) => encryptLoop vMasterKey keyMeta keys crypted file
      else encryptLoop vMasterKey keyMeta keys crypted file

def encryptKeys (vMasterKey : Bytes) (keyMeta : CPubKey → Bytes) : Option CWallet :=
  if !w.store.mapCryptedKeys.isEmpty || w.store.isCrypted then none
  else
    (w.encryptLoop cr lib vMasterKey keyMeta w.store.mapKeys [] w.file).map fun (crypted, file) =>
      { w with
        file := file
        store := { w.store with
          mapKeys := []
          mapCryptedKeys := crypted
          fUseCrypto := true
          mapKeys_eq_nil := noKeys
          vMasterKey_eq_nil := fun h => by cases h } }

def lock : CWallet :=
  match w.store.lock with
  | none => w
  | some store => { w with store := store }

/-- The loop of `CWallet::Unlock` over the master keys; `none` where it asserts. -/
def tryMasterKeys (strWalletPassphrase : Bytes) :
    List (Nat × CMasterKey) → CCryptoKeyStore → Option CCryptoKeyStore
  | [], store => some store
  | (_, kMasterKey) :: rest, store =>
    match lib.setKeyFromPassphrase strWalletPassphrase kMasterKey with
    | none => some store
    | some (key, iv) =>
      match crypterDecrypt lib key iv kMasterKey.vchCryptedKey with
      | none => tryMasterKeys strWalletPassphrase rest store
      | some vMasterKey =>
        match store.unlock cr lib vMasterKey with
        | none => none
        | some (true, store) => some store
        | some (false, store) => tryMasterKeys strWalletPassphrase rest store

def unlock (strWalletPassphrase : Bytes) : Option CWallet :=
  (tryMasterKeys cr lib strWalletPassphrase w.mapMasterKeys w.store).map fun store =>
    { w with store := store }

/-- New keys, one after the other, up to the first that is not added. -/
def addNewKeys (keyMeta : CPubKey → Bytes) : List CKey → CWallet → CWallet
  | [], w => w
  | secret :: rest, w =>
    let pubkey := lib.getPubKey secret
    match w.addKeyPubKey cr lib secret pubkey (keyMeta pubkey) with
    | (false, w) => w
    | (true, w) => addNewKeys keyMeta rest w

def addMasterKey (kMasterKey : CMasterKey) : CWallet :=
  let nID := w.nMasterKeyMaxID + 1
  { w with
    nMasterKeyMaxID := nID
    mapMasterKeys := insert nID kMasterKey w.mapMasterKeys
    file := if w.fFileBacked then
      insert (RecordType.mkey.rowKey (LittleEndian.encode 4 nID)) kMasterKey.serialize w.file
      else w.file }

/-- `CWallet::EncryptWallet`; `none` where it asserts. -/
def encryptWallet (args : EncryptArgs) : Option CWallet :=
  if w.store.isCrypted then some w
  else
    match lib.setKeyFromPassphrase args.strWalletPassphrase args.kMasterKey with
    | none => some w
    | some (key, iv) =>
      match crypterEncrypt lib key iv args.vMasterKey with
      | none => some w
      | some vchCryptedKey =>
        let kMasterKey := { args.kMasterKey with vchCryptedKey := vchCryptedKey }
        match (w.addMasterKey kMasterKey).encryptKeys cr lib args.vMasterKey args.keyMeta with
        | none => none
        | some w =>
          (w.lock.unlock cr lib args.strWalletPassphrase).map fun w =>
            (addNewKeys cr lib args.keyMeta args.newKeys w).lock

/-- A new wallet object for the same file; `none` if the file is not loaded. -/
def reload : Option CWallet :=
  match loadWallet cr lib others w.file with
  | (.corrupt, _) | (.tooNew, _) | (.loadFail, _) => none
  | (_, l) => some {
      w with
      store := l.store
      mapMasterKeys := l.mapMasterKeys
      nMasterKeyMaxID := l.nMasterKeyMaxID }

def step (w : CWallet) : WalletOp → Option CWallet
  | .addKeyPubKey secret pubkey keyMeta => some (w.addKeyPubKey cr lib secret pubkey keyMeta).2
  | .addPQKey privkey pubkey => some (w.addPQKey cr privkey pubkey).2
  | .addCScript redeemScript => some (w.addCScript cr redeemScript).2
  | .encryptWallet args => w.encryptWallet cr lib args
  | .lock => some w.lock
  | .unlock strWalletPassphrase => w.unlock cr lib strWalletPassphrase
  | .reload => w.reload cr lib others

end CWallet

/-! ## 3. What is written -/

section Rows

open Loading RecordType

variable {cr : Crypto} {lib : KeyLib} {file : List Record} {row : Record}

theorem recordType_rowKey {t : RecordType} (h : ofName t.name = t) (hlen : t.name.length ≤ maxSize)
    (ssKey : Bytes) : recordType (t.rowKey ssKey) = (t, ssKey) := by
  rw [recordType, rowKey, readVector_serBytes hlen]
  dsimp only
  rw [h]

/-- The plain keys among the records `file'` are among `file`. -/
def NoNewPlain (file file' : List Record) : Prop :=
  ∀ row ∈ file', (recordType row.1).1.isPlain = true → row ∈ file

theorem NoNewPlain.trans {file' file'' : List Record} (h : NoNewPlain file file')
    (h' : NoNewPlain file' file'') : NoNewPlain file file'' :=
  fun row hrow ht => h row (h' row hrow ht) ht

theorem noNewPlain_erase {key : Bytes} : NoNewPlain file (erase key file) :=
  fun _ hrow _ => (mem_erase.mp hrow).1

theorem mem_writeNew {key value : Bytes} (h : row ∈ (writeNew key value file).2) :
    row = (key, value) ∨ row ∈ file := by
  unfold writeNew at h
  split at h
  · exact .inr h
  · exact mem_insert h

section Key

variable {t : RecordType} (ht : t.isPlain = false) (hname : ofName t.name = t)
  (hlen : t.name.length ≤ maxSize) {ssKey value : Bytes}

include ht hname hlen

theorem noNewPlain_insert : NoNewPlain file (insert (t.rowKey ssKey) value file) := by
  intro row hrow hplain
  rcases mem_insert hrow with rfl | hrow
  · rw [recordType_rowKey hname hlen, ht] at hplain
    cases hplain
  · exact hrow

theorem noNewPlain_writeNew : NoNewPlain file (writeNew (t.rowKey ssKey) value file).2 := by
  unfold writeNew
  split
  · exact fun _ hrow _ => hrow
  · exact noNewPlain_insert ht hname hlen

end Key

theorem noNewPlain_writeCryptedKey {pubkey : CPubKey} {secret keyMeta : Bytes} :
    NoNewPlain file (writeCryptedKey pubkey secret keyMeta file).2 := by
  have hmeta : NoNewPlain file
      (insert (keymeta.rowKey (serBytes pubkey.vch)) keyMeta file) :=
    noNewPlain_insert (by decide) (by decide) (by decide)
  have hckey : NoNewPlain _ (writeNew (ckey.rowKey (serBytes pubkey.vch)) (serBytes secret)
      (insert (keymeta.rowKey (serBytes pubkey.vch)) keyMeta file)).2 :=
    noNewPlain_writeNew (by decide) (by decide) (by decide)
  have hboth := hmeta.trans hckey
  unfold writeCryptedKey
  dsimp only
  split
  · next h =>
    rw [h] at hboth
    exact hboth
  · next h =>
    rw [h] at hboth
    exact (hboth.trans noNewPlain_erase).trans noNewPlain_erase

/-- An encrypted key that is written replaces the plain one. -/
theorem ne_of_writeCryptedKey {pubkey : CPubKey} {secret keyMeta : Bytes} {file' : List Record}
    (h : writeCryptedKey pubkey secret keyMeta file = (true, file')) (hrow : row ∈ file') :
    row.1 ≠ RecordType.key.rowKey (serBytes pubkey.vch) := by
  unfold writeCryptedKey at h
  dsimp only at h
  split at h
  · cases h
  · cases h
    exact (mem_erase.mp (mem_erase.mp hrow).1).2

end Rows

/-! ## 4. Calls that leave the plain keys alone -/

namespace CWallet

open Loading RecordType

variable {ω : Type} {cr : Crypto} {lib : KeyLib} {others : OtherRecords ω} {w w' w'' : CWallet}

/-- A call that neither holds nor writes another plain key. -/
structure Quiet (w w' : CWallet) : Prop where
  store : w.store.SamePlainKeys w'.store
  file : NoNewPlain w.file w'.file
  fFileBacked : w'.fFileBacked = w.fFileBacked
  unbacked : w.fFileBacked = false → w'.file = w.file

namespace Quiet

theorem refl (w : CWallet) : Quiet w w := ⟨.refl _, fun _ hrow _ => hrow, rfl, fun _ => rfl⟩

theorem trans (h : Quiet w w') (h' : Quiet w' w'') : Quiet w w'' where
  store := h.store.trans h'.store
  file := h.file.trans h'.file
  fFileBacked := h'.fFileBacked.trans h.fFileBacked
  unbacked hb := (h'.unbacked (h.fFileBacked.trans hb)).trans (h.unbacked hb)

theorem of_store {store : CCryptoKeyStore} (h : w.store.SamePlainKeys store) :
    Quiet w { w with store := store } := ⟨h, fun _ hrow _ => hrow, rfl, fun _ => rfl⟩

theorem record {store : CCryptoKeyStore} {write : List Record → Bool × List Record}
    (h : w.store.SamePlainKeys store) (hwrite : NoNewPlain w.file (write w.file).2) :
    Quiet w (w.record store write).2 := by
  unfold CWallet.record
  split
  · next hb => exact ⟨h, hwrite, rfl, fun hnot => by rw [hb] at hnot; cases hnot⟩
  · exact .of_store h

end Quiet

theorem quiet_addCryptedKey (w : CWallet) (pubkey : CPubKey) (secret keyMeta : Bytes) :
    Quiet w (w.addCryptedKey cr pubkey secret keyMeta).2 := by
  unfold addCryptedKey
  split
  · exact .refl w
  · next hstore => exact .record (samePlainKeys_addCryptedKey hstore).1 noNewPlain_writeCryptedKey

theorem quiet_removeWatchOnly (w : CWallet) (script : CScript) :
    Quiet w (w.removeWatchOnly cr lib script) := by
  unfold removeWatchOnly
  split
  · refine ⟨⟨⟨rfl, id, .inl⟩, rfl⟩, ?_, rfl, fun hb => if_neg (by rw [hb]; decide)⟩
    split
    · exact noNewPlain_erase.trans noNewPlain_erase
    · exact fun _ hrow _ => hrow
  · exact .refl w

theorem quiet_removeWatched (w : CWallet) (pubkey : CPubKey) :
    Quiet w (w.removeWatched cr lib pubkey) :=
  (quiet_removeWatchOnly w _).trans (quiet_removeWatchOnly _ _)

theorem quiet_addCScript (w : CWallet) (script : CScript) :
    Quiet w (w.addCScript cr script).2 := by
  unfold addCScript
  split
  · exact .refl w
  · next hstore =>
    exact .record (samePlainKeys_addCScript hstore).1
      (noNewPlain_writeNew (by decide) (by decide) (by decide))

theorem quiet_lock (w : CWallet) : Quiet w w.lock := by
  unfold lock
  split
  · exact .refl w
  · next store hstore => exact .of_store (samePlainKeys_lock hstore)

theorem quiet_addMasterKey (w : CWallet) (kMasterKey : CMasterKey) :
    Quiet w (w.addMasterKey kMasterKey) := by
  refine ⟨.refl _, ?_, rfl, fun hb => if_neg (by rw [hb]; decide)⟩
  unfold addMasterKey
  dsimp only
  split
  · exact noNewPlain_insert (by decide) (by decide) (by decide)
  · exact fun _ hrow _ => hrow

variable {s s' : CCryptoKeyStore} {keyMeta : CPubKey → Bytes} {row : Record} {pubkey : CPubKey}
  {l : Loading ω}

theorem samePlainKeys_tryMasterKeys {pass : Bytes} {keys : List (Nat × CMasterKey)}
    (h : tryMasterKeys cr lib pass keys s = some s') : s.SamePlainKeys s' := by
  induction keys generalizing s with
  | nil =>
    cases h
    exact .refl _
  | cons e keys ih =>
    obtain ⟨nID, kMasterKey⟩ := e
    unfold tryMasterKeys at h
    split at h
    · cases h
      exact .refl _
    split at h
    · exact ih h
    split at h
    · cases h
    · next store hstore =>
      cases h
      exact samePlainKeys_unlock hstore
    · next store hstore => exact (samePlainKeys_unlock hstore).trans (ih h)

theorem quiet_unlock {pass : Bytes} (h : w.unlock cr lib pass = some w') : Quiet w w' := by
  obtain ⟨store, hstore, rfl⟩ := map_eq_some_iff.mp h
  exact .of_store (samePlainKeys_tryMasterKeys hstore)

/-- Keys added to an encrypted wallet are encrypted. -/
theorem quiet_addKeyPubKey (hcrypted : w.store.fUseCrypto = true) (secret : CKey)
    (pubkey : CPubKey) (keyMeta : Bytes) :
    Quiet w (w.addKeyPubKey cr lib secret pubkey keyMeta).2 := by
  have hadd : Quiet w (w.addKeyToStore cr lib secret pubkey keyMeta).2 := by
    unfold addKeyToStore
    rw [dif_neg (by rw [hcrypted]; decide)]
    split
    · exact .refl w
    split
    · exact .refl w
    · exact quiet_addCryptedKey w _ _ _
  unfold addKeyPubKey
  split
  · next h =>
    rw [h] at hadd
    exact hadd
  · next w₁ h =>
    rw [h] at hadd
    have hremoved : Quiet w (w₁.removeWatched cr lib pubkey) :=
      hadd.trans (quiet_removeWatched w₁ pubkey)
    have hstill : (w₁.removeWatched cr lib pubkey).store.isCrypted = true :=
      hremoved.store.stays hcrypted
    rw [if_neg (by rw [hstill]; simp)]
    exact hremoved

theorem quiet_addNewKeys {keys : List CKey} (hcrypted : w.store.fUseCrypto = true) :
    Quiet w (addNewKeys cr lib keyMeta keys w) := by
  induction keys generalizing w with
  | nil => exact .refl w
  | cons secret keys ih =>
    have hadd : Quiet w (w.addKeyPubKey cr lib secret (lib.getPubKey secret)
        (keyMeta (lib.getPubKey secret))).2 := quiet_addKeyPubKey hcrypted _ _ _
    unfold addNewKeys
    dsimp only
    split
    · next h =>
      rw [h] at hadd
      exact hadd
    · next h =>
      rw [h] at hadd
      exact hadd.trans (ih (hadd.store.stays hcrypted))

/-! ## 5. The plain keys of a file -/

/-- What the library for keys does with keys that it wrote: a key that is loaded has the public
key it was written with. -/
structure KeyLaws (lib : KeyLib) : Prop where
  load_getPubKey : ∀ key fSkipCheck key',
    lib.load (lib.getPrivKey key) (lib.getPubKey key) fSkipCheck = some key' →
      lib.getPubKey key' = lib.getPubKey key
  length_getPrivKey : ∀ key, (lib.getPrivKey key).length ≤ maxSize

/-- A `key` record of a key that is held unencrypted, under the same public key. -/
def Backed (cr : Crypto) (lib : KeyLib) (s : CCryptoKeyStore) (row : Record) : Prop :=
  s.fUseCrypto = false ∧ ∃ written held : CKey,
    row = keyRow cr (lib.getPubKey written) (lib.getPrivKey written) ∧
      s.mapKeys.lookup ((lib.getPubKey written).getID cr) = some held ∧
      lib.getPubKey held = lib.getPubKey written

/-- The plain ECDSA keys of the file are held unencrypted. -/
structure KeyRows (cr : Crypto) (lib : KeyLib) (w : CWallet) : Prop where
  backed : ∀ row ∈ w.file, (recordType row.1).1.isKey →
    Backed cr lib w.store row
  unbacked : w.fFileBacked = false → w.file = []

structure NoPQKeys (w : CWallet) : Prop where
  store : w.store.mapPQKeys = []
  file : ∀ row ∈ w.file, (recordType row.1).1 ≠ .pqkey

theorem isPlain_of_key {t : RecordType} (h : t.isKey) : t.isPlain = true := by
  rcases h with rfl | rfl <;> rfl

theorem KeyRows.not_key (h : KeyRows cr lib w) (hcrypted : w.store.fUseCrypto = true)
    (hrow : row ∈ w.file) : ¬ (recordType row.1).1.isKey := by
  intro ht
  have hplain := (h.backed row hrow ht).1
  rw [hcrypted] at hplain
  cases hplain

theorem Backed.of_sameMapKeys (hs : s.SameMapKeys s') (h : Backed cr lib s row) :
    Backed cr lib s' row := by
  obtain ⟨hplain, written, held, hkey, hheld, hpub⟩ := h
  refine ⟨?_, written, held, hkey, hs.mapKeys ▸ hheld, hpub⟩
  rw [Bool.eq_false_iff]
  intro hcrypted
  rcases hs.starts hcrypted with hc | hnil
  · rw [hplain] at hc
    cases hc
  · rw [hnil] at hheld
    cases hheld

/-- The plain ECDSA keys of the file stay among those that are held, and there is still no
post-quantum key if there was none. -/
structure Keeps (cr : Crypto) (lib : KeyLib) (w w' : CWallet) : Prop where
  keyRows : KeyRows cr lib w'
  noPQKeys : NoPQKeys w → NoPQKeys w'

theorem Quiet.keeps (hq : Quiet w w') (h : KeyRows cr lib w) : Keeps cr lib w w' where
  keyRows := {
    backed := fun row hrow ht =>
      (h.backed row (hq.file row hrow (isPlain_of_key ht)) ht).of_sameMapKeys
        hq.store.toSameMapKeys
    unbacked := fun hb => by
      have hb' := hq.fFileBacked ▸ hb
      rw [hq.unbacked hb', h.unbacked hb'] }
  noPQKeys hnone :=
    ⟨hq.store.mapPQKeys.trans hnone.store,
      fun row hrow ht => hnone.file row (hq.file row hrow (by rw [ht]; rfl)) ht⟩

theorem addKeyPubKey_plain (hplain : w.store.fUseCrypto = false) (secret : CKey)
    (pubkey : CPubKey) (keyMeta : Bytes) :
    Quiet { w with store := w.store.addPlainKey cr secret pubkey hplain }
        (w.addKeyPubKey cr lib secret pubkey keyMeta).2 ∨
      w.fFileBacked = true ∧
        ∃ w₁, Quiet { w with store := w.store.addPlainKey cr secret pubkey hplain } w₁ ∧
          (w.addKeyPubKey cr lib secret pubkey keyMeta).2 =
            { w₁ with file := (writeKey cr pubkey (lib.getPrivKey secret) keyMeta w₁.file).2 } := by
  have hadd : w.addKeyToStore cr lib secret pubkey keyMeta =
      (true, { w with store := w.store.addPlainKey cr secret pubkey hplain }) := by
    rw [addKeyToStore, dif_pos hplain]
  have hremoved : Quiet _ (removeWatched cr lib
      { w with store := w.store.addPlainKey cr secret pubkey hplain } pubkey) :=
    quiet_removeWatched _ pubkey
  unfold addKeyPubKey
  rw [hadd]
  dsimp only
  split
  · next hwrite =>
    rw [Bool.and_eq_true] at hwrite
    exact .inr ⟨hremoved.fFileBacked ▸ hwrite.1, _, hremoved, rfl⟩
  · exact .inl hremoved

/-- A key is added with its own public key, and no other key has the same hash of 160 bits. -/
def Fits (cr : Crypto) (lib : KeyLib) (w : CWallet) (secret : CKey) (pubkey : CPubKey) : Prop :=
  pubkey = lib.getPubKey secret ∧
    ∀ held, w.store.mapKeys.lookup (pubkey.getID cr) = some held → lib.getPubKey held = pubkey

theorem keyRows_addPlainKey {secret : CKey} (h : KeyRows cr lib w)
    (hplain : w.store.fUseCrypto = false) (hfits : Fits cr lib w secret pubkey) :
    KeyRows cr lib { w with store := w.store.addPlainKey cr secret pubkey hplain } where
  backed row hrow ht := by
    obtain ⟨-, written, held, hkey, hheld, hpub⟩ := h.backed row hrow ht
    by_cases hid : (lib.getPubKey written).getID cr = pubkey.getID cr
    · -- the key that is replaced has the same public key
      have hsame : lib.getPubKey held = pubkey := hfits.2 held (hid ▸ hheld)
      refine ⟨hplain, written, secret, hkey, ?_, ?_⟩
      · rw [hid]
        exact lookup_insert_self
      · rw [← hfits.1, ← hsame, hpub]
    · exact ⟨hplain, written, held, hkey, (lookup_insert_of_ne hid).trans hheld, hpub⟩
  unbacked := h.unbacked

theorem mem_writeKey {privkey keyMeta : Bytes} {file : List Record}
    (h : row ∈ (writeKey cr pubkey privkey keyMeta file).2) :
    row = keyRow cr pubkey privkey ∨
      row = (keymeta.rowKey (serBytes pubkey.vch), keyMeta) ∨ row ∈ file := by
  have hmeta := @mem_writeNew file row (keymeta.rowKey (serBytes pubkey.vch)) keyMeta
  unfold writeKey at h
  split at h
  · next hwrite =>
    rw [hwrite] at hmeta
    exact .inr (hmeta h)
  · next hwrite =>
    rw [hwrite] at hmeta
    exact (mem_writeNew h).imp_right hmeta

theorem keeps_addKeyPubKey {secret : CKey} {keyMeta : Bytes} (h : KeyRows cr lib w)
    (hfits : Fits cr lib w secret pubkey) :
    Keeps cr lib w (w.addKeyPubKey cr lib secret pubkey keyMeta).2 := by
  cases hcrypted : w.store.fUseCrypto with
  | true => exact (quiet_addKeyPubKey hcrypted _ _ _).keeps h
  | false =>
    have hadded := keyRows_addPlainKey h hcrypted hfits
    rcases addKeyPubKey_plain hcrypted secret pubkey keyMeta with hq | ⟨hb, w₁, hq, hresult⟩
    · have hkeeps := hq.keeps hadded
      exact ⟨hkeeps.keyRows, fun hnone => hkeeps.noPQKeys ⟨hnone.store, hnone.file⟩⟩
    · have hkeeps := hq.keeps hadded
      rw [hresult]
      refine ⟨⟨fun row hrow ht => ?_, fun hnot => ?_⟩, fun hnone => ?_⟩
      · rcases mem_writeKey hrow with rfl | rfl | hrow
        · have hnew : Backed cr lib (w.store.addPlainKey cr secret pubkey hcrypted)
              (keyRow cr pubkey (lib.getPrivKey secret)) := by
            refine ⟨hcrypted, secret, secret, by rw [← hfits.1], ?_, rfl⟩
            rw [← hfits.1]
            exact lookup_insert_self
          exact hnew.of_sameMapKeys hq.store.toSameMapKeys
        · rw [recordType_rowKey (by decide) (by decide)] at ht
          rcases ht with ht | ht <;> cases ht
        · exact hkeeps.keyRows.backed row hrow ht
      · have hback : w₁.fFileBacked = true := hq.fFileBacked.trans hb
        rw [show w₁.fFileBacked = false from hnot] at hback
        cases hback
      · have hnone := hkeeps.noPQKeys ⟨hnone.store, hnone.file⟩
        refine ⟨hnone.store, fun row hrow => ?_⟩
        rcases mem_writeKey hrow with rfl | rfl | hrow
        · rw [keyRow]
          exact show RecordType.key ≠ .pqkey by decide
        · rw [recordType_rowKey (by decide) (by decide)]
          exact show keymeta ≠ .pqkey by decide
        · exact hnone.file row hrow

/-- The loop of `EncryptKeys` erases the plain record of every key. -/
theorem encryptLoop_eq_some {vMasterKey : Bytes} {keys : List (Uint160 × CKey)}
    {crypted crypted' : List (Uint160 × CPubKey × Bytes)} {file file' : List Record}
    (h : w.encryptLoop cr lib vMasterKey keyMeta keys crypted file = some (crypted', file')) :
    NoNewPlain file file' ∧ (w.fFileBacked = false → file' = file) ∧
      (w.fFileBacked = true → ∀ row ∈ file', (recordType row.1).1.isPlain = true →
        ∀ e ∈ keys, row.1 ≠ RecordType.key.rowKey (serBytes (lib.getPubKey e.2).vch)) := by
  induction keys generalizing crypted file with
  | nil =>
    cases h
    exact ⟨fun _ hrow _ => hrow, fun _ => rfl, nofun⟩
  | cons e keys ih =>
    obtain ⟨id, key⟩ := e
    unfold encryptLoop at h
    dsimp only at h
    split at h
    · cases h
    next secret hsecret =>
    split at h
    · next hb =>
      split at h
      · cases h
      next file₁ hwrite =>
      obtain ⟨hnew, -, hne⟩ := ih h
      have hwritten : NoNewPlain file file₁ := by
        have hnew : NoNewPlain file (writeCryptedKey (lib.getPubKey key) secret
            (keyMeta (lib.getPubKey key)) file).2 := noNewPlain_writeCryptedKey
        rw [hwrite] at hnew
        exact hnew
      refine ⟨hwritten.trans hnew, fun hnot => ?_, fun _ row hrow hplain e he => ?_⟩
      · rw [hb] at hnot
        cases hnot
      · rcases mem_cons.mp he with rfl | he
        · exact ne_of_writeCryptedKey hwrite (hnew row hrow hplain)
        · exact hne hb row hrow hplain e he
    · next hb =>
      obtain ⟨hnew, hsame, -⟩ := ih h
      exact ⟨hnew, hsame, fun hb' => absurd hb' hb⟩

/-- After `EncryptKeys` no plain ECDSA key is left, in memory or in the file. -/
theorem encryptKeys_eq_some {vMasterKey : Bytes} (hrows : KeyRows cr lib w)
    (h : w.encryptKeys cr lib vMasterKey keyMeta = some w') :
    w'.store.fUseCrypto = true ∧ Keeps cr lib w w' := by
  unfold encryptKeys at h
  split at h
  · cases h
  obtain ⟨⟨crypted, file⟩, hloop, rfl⟩ := map_eq_some_iff.mp h
  obtain ⟨hnew, hsame, hne⟩ := encryptLoop_eq_some hloop
  refine ⟨rfl, ⟨fun row hrow ht => ?_, fun hb => ?_⟩, fun hpq => ⟨hpq.store, fun row hrow ht => ?_⟩⟩
  · -- the record was backed by a key, which the loop has met
    have hplain := isPlain_of_key ht
    have hold := hnew row hrow hplain
    obtain ⟨-, written, held, hkey, hheld, hpub⟩ := hrows.backed row hold ht
    have hback : w.fFileBacked = true := by
      cases hb : w.fFileBacked with
      | true => rfl
      | false =>
        rw [hrows.unbacked hb] at hold
        cases hold
    refine absurd ?_ (hne hback row hrow hplain _ (mem_of_lookup hheld))
    rw [hpub, hkey]
    rfl
  · have hb' : w.fFileBacked = false := hb
    exact (hsame hb').trans (hrows.unbacked hb')
  · exact hpq.file row (hnew row hrow (by rw [ht]; rfl)) ht

theorem keeps_encryptWallet {args : EncryptArgs} (hrows : KeyRows cr lib w)
    (h : w.encryptWallet cr lib args = some w') : Keeps cr lib w w' := by
  unfold encryptWallet at h
  split at h
  · cases h
    exact ⟨hrows, id⟩
  split at h
  · cases h
    exact ⟨hrows, id⟩
  split at h
  · cases h
    exact ⟨hrows, id⟩
  next vchCryptedKey hwrapped =>
  dsimp only at h
  split at h
  · cases h
  next w₂ hencrypted =>
  obtain ⟨w₃, hunlock, rfl⟩ := map_eq_some_iff.mp h
  -- the master key is written, the keys are encrypted, and the rest adds encrypted keys
  have hwritten (k : CMasterKey) : Keeps cr lib w (w.addMasterKey k) :=
    (quiet_addMasterKey w k).keeps hrows
  obtain ⟨hcrypted, hkeeps⟩ := encryptKeys_eq_some (hwritten _).keyRows hencrypted
  have hafter : Quiet w₂ (addNewKeys cr lib args.keyMeta args.newKeys w₃).lock := by
    have hunlocked := (quiet_lock w₂).trans (quiet_unlock hunlock)
    exact (hunlocked.trans (quiet_addNewKeys (hunlocked.store.stays hcrypted))).trans
      (quiet_lock _)
  have hlast := hafter.keeps hkeeps.keyRows
  exact ⟨hlast.keyRows, fun hnone => hlast.noPQKeys (hkeeps.noPQKeys ((hwritten _).noPQKeys hnone))⟩

/-! ## 6. Loading the file again -/

theorem readPubKey_serBytes (pubkey : CPubKey) (rest : Bytes) :
    readPubKey (serBytes pubkey.vch ++ rest) = some (pubkey, rest) := by
  have hle : pubkey.vch.length ≤ 65 := by
    rw [pubkey.size_eq]
    exact pubKeyLen_le _
  have hread := readCompactSize_write (show pubkey.vch.length ≤ maxSize from hle.trans (by decide))
    (pubkey.vch ++ rest)
  rw [readPubKey, serBytes, append_assoc, bind_apply_of_eq hread,
    bind_apply_of_eq (readBytes_append _ _), if_pos hle, ← pubkey.size_eq, take_left,
    CPubKey.ofBytes_vch]
  rfl

theorem readKeyValue_rowKey {t : RecordType} {ssKey ssValue : Bytes} (hname : ofName t.name = t)
    (hlen : t.name.length ≤ maxSize) :
    l.readKeyValue cr lib others (t.rowKey ssKey, ssValue) =
      l.readValue cr lib others t ssKey ssValue := by
  have hread : readVector (t.rowKey ssKey) = some (t.name, ssKey) := readVector_serBytes hlen ssKey
  rw [readKeyValue, hread]
  rw [recordType_rowKey hname hlen]

theorem addKeyPubKey_eq_some {key : CKey} (hmaster : s.vMasterKey = [])
    (h : s.addKeyPubKey cr lib key pubkey = some s') :
    ∃ hplain : s.fUseCrypto = false, s' = s.addPlainKey cr key pubkey hplain := by
  unfold CCryptoKeyStore.addKeyPubKey at h
  split at h
  · next hplain => exact ⟨hplain, (some.inj h).symm⟩
  · next hcrypted =>
    rw [if_pos] at h
    · cases h
    · simp [isLocked, isCrypted, hmaster, hcrypted]

/-- Reading a `key` record that was written adds a key with the public key it is stored under. -/
theorem readKeyValue_keyRow (hlaws : KeyLaws lib) {written : CKey}
    (hmaster : l.store.vMasterKey = []) (hread : (l.readKeyValue cr lib others
      (keyRow cr (lib.getPubKey written) (lib.getPrivKey written))).1 = .ok ()) :
    ∃ (hplain : l.store.fUseCrypto = false) (held : CKey),
      lib.getPubKey held = lib.getPubKey written ∧
        (l.readKeyValue cr lib others
          (keyRow cr (lib.getPubKey written) (lib.getPrivKey written))).2.store =
          l.store.addPlainKey cr held (lib.getPubKey written) hplain := by
  rw [keyRow, readKeyValue_rowKey (by decide) (by decide)] at hread ⊢
  obtain ⟨pubkey, rest, pkey, rest', key, hpub, hpriv, hkey, hstore⟩ :=
    readPlainKey_eq_ok (keep_eq_ok hread)
  rw [← append_nil (serBytes _), readPubKey_serBytes] at hpub
  rw [readVector_serBytes (hlaws.length_getPrivKey written)] at hpriv
  cases hpub
  cases hpriv
  obtain ⟨hplain, hresult⟩ := addKeyPubKey_eq_some hmaster hstore
  exact ⟨hplain, key, hlaws.load_getPubKey written _ key hkey, hresult⟩

/-- Records of other types than `key` and `wkey` leave the plain ECDSA keys alone, and no record
sets a master key. -/
theorem sameMapKeys_of_storeStep {t : RecordType} (h : StoreStep cr lib s t s')
    (ht : ¬ t.isKey) : s.SameMapKeys s' ∧ s'.vMasterKey = s.vMasterKey := by
  cases h with
  | same | pqkey | watchs => exact ⟨⟨rfl, id, .inl⟩, rfl⟩
  | key hkey => exact absurd hkey ht
  | ckey hstore =>
    obtain ⟨hsame, -, hmaster⟩ := samePlainKeys_addCryptedKey hstore
    exact ⟨hsame.toSameMapKeys, hmaster⟩
  | cscript hstore =>
    obtain ⟨hsame, hmaster⟩ := samePlainKeys_addCScript hstore
    exact ⟨hsame.toSameMapKeys, hmaster⟩

/-- Records of other types than `pqkey` leave the post-quantum keys alone. -/
theorem mapPQKeys_of_storeStep {t : RecordType} (h : StoreStep cr lib s t s') (ht : t ≠ .pqkey) :
    s'.mapPQKeys = s.mapPQKeys := by
  cases h with
  | same => rfl
  | key _ hstore =>
    unfold CCryptoKeyStore.addKeyPubKey at hstore
    split at hstore
    · cases hstore
      rfl
    split at hstore
    · cases hstore
    split at hstore
    · cases hstore
    · exact (samePlainKeys_addCryptedKey hstore).1.mapPQKeys
  | ckey hstore => exact (samePlainKeys_addCryptedKey hstore).1.mapPQKeys
  | pqkey => exact absurd rfl ht
  | cscript hstore => exact (samePlainKeys_addCScript hstore).1.mapPQKeys
  | watchs => rfl

/-- What holds after the records `done` of a file whose keys `old` held: their keys are held, and
none that has another public key than the one `old` held in its place. -/
structure Reading (cr : Crypto) (lib : KeyLib) (old : CCryptoKeyStore) (l : Loading ω)
    (done : List Record) : Prop where
  master : l.store.vMasterKey = []
  backed : ∀ row ∈ done, (recordType row.1).1.isKey →
    Backed cr lib l.store row
  known : ∀ id held, l.store.mapKeys.lookup id = some held →
    ∃ key, old.mapKeys.lookup id = some key ∧ lib.getPubKey held = lib.getPubKey key

theorem reading_readKeyValue (hlaws : KeyLaws lib) {old : CCryptoKeyStore} {done : List Record}
    (h : Reading cr lib old l done)
    (hrow : (recordType row.1).1.isKey →
      Backed cr lib old row ∧ (l.readKeyValue cr lib others row).1 = .ok ()) :
    Reading cr lib old (l.readKeyValue cr lib others row).2 (done ++ [row]) := by
  by_cases ht : (recordType row.1).1.isKey
  · -- a key that `old` held under its public key
    obtain ⟨⟨-, written, key, rfl, hkey, hpub⟩, hread⟩ := hrow ht
    obtain ⟨hplain, held, hheld, hstore⟩ := readKeyValue_keyRow hlaws h.master hread
    have hother : ∀ k, l.store.mapKeys.lookup ((lib.getPubKey written).getID cr) = some k →
        lib.getPubKey k = lib.getPubKey written := by
      intro k hk
      obtain ⟨key', hkey', hpub'⟩ := h.known _ k hk
      rw [hkey] at hkey'
      cases hkey'
      rw [hpub', hpub]
    refine ⟨?_, fun row hmem ht => ?_, fun id k hk => ?_⟩
    · rw [hstore]
      exact h.master
    · rw [hstore]
      rcases mem_append.mp hmem with hmem | hmem
      · have hrows : KeyRows cr lib { store := l.store, file := done } := ⟨h.backed, nofun⟩
        exact (keyRows_addPlainKey hrows hplain ⟨hheld.symm, hother⟩).backed row hmem ht
      · rw [mem_singleton.mp hmem]
        exact ⟨hplain, written, held, rfl, lookup_insert_self, hheld⟩
    · rw [hstore] at hk
      have hk' : (insert ((lib.getPubKey written).getID cr) held l.store.mapKeys).lookup id =
          some k := hk
      rw [lookup_insert] at hk'
      split at hk'
      · next hid =>
        cases hk'
        exact ⟨key, hid ▸ hkey, by rw [hheld, hpub]⟩
      · exact h.known id k hk'
  · obtain ⟨hsame, hmaster⟩ := sameMapKeys_of_storeStep
      (storeStep_readKeyValue l row) ht
    refine ⟨hmaster.trans h.master, fun row' hmem ht' => ?_, fun id k hk => ?_⟩
    · rcases mem_append.mp hmem with hmem | hmem
      · exact (h.backed row' hmem ht').of_sameMapKeys hsame
      · rw [mem_singleton.mp hmem] at ht'
        exact absurd ht' ht
    · rw [hsame.mapKeys] at hk
      exact h.known id k hk

theorem readAll_concat (l : Loading ω) (rows : List Record) (row : Record) :
    l.readAll cr lib others (rows ++ [row]) =
      ((l.readAll cr lib others rows).readKeyValue cr lib others row).2 := by
  simp [readAll]

theorem mapPQKeys_readAll {rows : List Record} (h : ∀ row ∈ rows, (recordType row.1).1 ≠ .pqkey) :
    (l.readAll cr lib others rows).store.mapPQKeys = l.store.mapPQKeys := by
  induction rows generalizing l with
  | nil => rfl
  | cons row rows ih =>
    exact (ih fun row' hrow => h row' (mem_cons_of_mem _ hrow)).trans
      (mapPQKeys_of_storeStep (storeStep_readKeyValue l row) (h row mem_cons_self))

theorem keeps_reload (hlaws : KeyLaws lib) (hrows : KeyRows cr lib w)
    (h : w.reload cr lib others = some w') : Keeps cr lib w w' := by
  have hload : ∃ result l, loadWallet cr lib others w.file = (result, l) ∧ result ≠ .corrupt ∧
      result ≠ .tooNew ∧ w' = { w with
        store := l.store
        mapMasterKeys := l.mapMasterKeys
        nMasterKeyMaxID := l.nMasterKeyMaxID } := by
    unfold reload at h
    split at h
    · cases h
    · cases h
    · cases h
    · next result l hcorrupt hnew _ hl =>
      exact ⟨result, l, hl, hcorrupt, hnew, (some.inj h).symm⟩
  obtain ⟨result, l, hl, hcorrupt, hnew, rfl⟩ := hload
  obtain ⟨rfl, hread⟩ := readable_of_loadWallet hl hcorrupt hnew
  have hrun : ∀ done rest, w.file = done ++ rest →
      Reading cr lib w.store ((freshWallet others).readAll cr lib others done) done := by
    intro done
    induction done using reverseRecOn with
    | nil =>
      intro rest _
      exact ⟨rfl, nofun, nofun⟩
    | append_singleton done row ih =>
      intro rest hfile
      have hfile' : w.file = done ++ row :: rest := by simpa using hfile
      rw [readAll_concat]
      refine reading_readKeyValue hlaws (ih _ hfile') fun ht => ⟨?_, ?_⟩
      · exact hrows.backed row (by rw [hfile']; simp) ht
      · refine hread done row rest hfile' ?_
        rcases ht with ht | ht <;> rw [ht] <;> rfl
  have hdone := hrun w.file [] (append_nil _).symm
  refine ⟨⟨hdone.backed, hrows.unbacked⟩, fun hpq => ⟨?_, hpq.file⟩⟩
  exact mapPQKeys_readAll hpq.file

/-! ## 7. Locked wallets -/

def FitsOp (cr : Crypto) (lib : KeyLib) (w : CWallet) : WalletOp → Prop
  | .addKeyPubKey secret pubkey _ => Fits cr lib w secret pubkey
  | _ => True

/-- No call stores a post-quantum key: `AddPQKey` is only called with keys of wrong sizes. -/
def NoPQOp : WalletOp → Prop
  | .addPQKey privkey pubkey =>
    pubkey.length ≠ mldsa44PubkeySize ∨ privkey.length ≠ mldsa44PrivkeySize
  | _ => True

theorem keyRows_addPQKey (h : KeyRows cr lib w) (privkey pubkey : Bytes) :
    KeyRows cr lib (w.addPQKey cr privkey pubkey).2 := by
  have hsame : w.store.SameMapKeys
      (w.store.addPQKeyToStore (cr.hash160 pubkey) privkey pubkey) := ⟨rfl, id, .inl⟩
  unfold addPQKey
  split
  · exact h
  unfold record
  split
  · next hb =>
    refine ⟨fun row hrow ht => ?_, fun hnot => ?_⟩
    · rcases mem_writeNew hrow with rfl | hrow
      · rw [recordType_rowKey (by decide) (by decide)] at ht
        rcases ht with ht | ht <;> cases ht
      · exact (h.backed row hrow ht).of_sameMapKeys hsame
    · rw [show w.fFileBacked = false from hnot] at hb
      cases hb
  · exact ⟨fun row hrow ht => (h.backed row hrow ht).of_sameMapKeys hsame, h.unbacked⟩

/-- Every call keeps the plain ECDSA keys of the file among those that are held. -/
theorem keeps_step (hlaws : KeyLaws lib) {op : WalletOp} (h : KeyRows cr lib w)
    (hfits : FitsOp cr lib w op) (hstep : step cr lib others w op = some w') :
    KeyRows cr lib w' ∧ (NoPQOp op → NoPQKeys w → NoPQKeys w') := by
  have hother : Keeps cr lib w w' → KeyRows cr lib w' ∧ (NoPQOp op → NoPQKeys w → NoPQKeys w') :=
    fun hkeeps => ⟨hkeeps.keyRows, fun _ => hkeeps.noPQKeys⟩
  cases op with
  | addKeyPubKey secret pubkey keyMeta =>
    cases hstep
    exact hother (keeps_addKeyPubKey h hfits)
  | addPQKey privkey pubkey =>
    cases hstep
    refine ⟨keyRows_addPQKey h privkey pubkey, fun hop hnone => ?_⟩
    have hsizes : (decide (pubkey.length ≠ mldsa44PubkeySize) ||
        decide (privkey.length ≠ mldsa44PrivkeySize)) = true := by
      rw [Bool.or_eq_true, decide_eq_true_eq, decide_eq_true_eq]
      exact hop
    rw [addPQKey, if_pos hsizes]
    exact hnone
  | addCScript redeemScript =>
    cases hstep
    exact hother ((quiet_addCScript w redeemScript).keeps h)
  | encryptWallet args => exact hother (keeps_encryptWallet h hstep)
  | lock =>
    cases hstep
    exact hother ((quiet_lock w).keeps h)
  | unlock pass => exact hother ((quiet_unlock hstep).keeps h)
  | reload => exact hother (keeps_reload hlaws h hstep)

/-- **A locked wallet keeps its secrets**: no private key is held or stored as it is or given
out, and nothing is signed. -/
structure KeepsSecret (cr : Crypto) (lib : KeyLib) (sg : Schemes) (w : CWallet) : Prop where
  mapKeys : w.store.mapKeys = []
  mapPQKeys : w.store.mapPQKeys = []
  file : ∀ row ∈ w.file, (recordType row.1).1.isPlain = false
  getKey : ∀ address, w.store.getKey cr lib address = none
  getPQKey : ∀ hash160, w.store.getPQKey hash160 = none
  produceSignature : ∀ sp nHashType scriptPubKey,
    ((transactionSignatureCreator cr sg (w.store.toKeyStore cr lib) sp nHashType).produceSignature
      scriptPubKey).1 = false

/-- In a locked wallet the post-quantum keys are the ones that are not kept secret. -/
theorem keepsSecret_iff {sg : Schemes} (hrows : KeyRows cr lib w)
    (hlocked : w.store.isLocked = true) : KeepsSecret cr lib sg w ↔ NoPQKeys w := by
  have hcrypted : w.store.fUseCrypto = true := (Bool.and_eq_true_iff.mp hlocked).1
  constructor
  · intro h
    refine ⟨h.mapPQKeys, fun row hrow ht => ?_⟩
    have hplain := h.file row hrow
    rw [ht] at hplain
    cases hplain
  · intro h
    have hkey : ∀ address, w.store.getKey cr lib address = none :=
      getKey_of_locked hlocked
    have hpq : ∀ hash160, w.store.getPQKey hash160 = none := by
      intro hash160
      rw [getPQKey, h.store]
      rfl
    refine ⟨w.store.mapKeys_eq_nil hcrypted, h.store, fun row hrow => ?_, hkey, hpq,
      fun sp nHashType scriptPubKey => ?_⟩
    · have hnot := hrows.not_key hcrypted hrow
      have hne := h.file row hrow
      generalize (recordType row.1).1 = t at hnot hne ⊢
      cases t with
      | key => exact absurd (.inl rfl) hnot
      | wkey => exact absurd (.inr rfl) hnot
      | pqkey => exact absurd rfl hne
      | mkey | ckey | cscript | watchs | version | hdchain | other => rfl
    · refine SignatureCreator.produceSignature_of_no_keys (fun address code v => ?_) hpq
      show createTransactionSig cr sg _ sp nHashType address code v = none
      rw [createTransactionSig, show (w.store.toKeyStore cr lib).getKey address = none from
        hkey address]

/-- The states of a wallet that starts without keys. -/
theorem keyRows_of_runs (hlaws : KeyLaws lib) {fFileBacked : Bool}
    (hrun : Runs (step cr lib others) (FitsOp cr lib) { fFileBacked := fFileBacked } w) :
    KeyRows cr lib w :=
  hrun.invariant (KeyRows cr lib) (fun _ _ _ h hfits hstep => (keeps_step hlaws h hfits hstep).1)
    ⟨nofun, fun _ => rfl⟩

theorem noPQKeys_of_runs (hlaws : KeyLaws lib) {fFileBacked : Bool}
    (hrun : Runs (step cr lib others) (fun w op => FitsOp cr lib w op ∧ NoPQOp op)
      { fFileBacked := fFileBacked } w) : NoPQKeys w :=
  hrun.invariant_with NoPQKeys
    (fun _ hrun => keyRows_of_runs hlaws (hrun.mono fun _ _ h => h.1))
    (fun _ _ _ hrows h hop hstep => (keeps_step hlaws hrows hop.1 hstep).2 hop.2 h)
    ⟨rfl, nofun⟩

/-- In every run, a wallet that is locked keeps its secrets if and only if it has no post-quantum
key; so it does in every run that adds none. -/
theorem locked_keepsSecret (hlaws : KeyLaws lib) (sg : Schemes) (fFileBacked : Bool) :
    (∀ w, Runs (step cr lib others) (FitsOp cr lib) { fFileBacked := fFileBacked } w →
      w.store.isLocked = true → (KeepsSecret cr lib sg w ↔ NoPQKeys w)) ∧
    ∀ w, Runs (step cr lib others) (fun w op => FitsOp cr lib w op ∧ NoPQOp op)
        { fFileBacked := fFileBacked } w →
      w.store.isLocked = true → KeepsSecret cr lib sg w := by
  have hiff : ∀ w, Runs (step cr lib others) (FitsOp cr lib) { fFileBacked := fFileBacked } w →
      w.store.isLocked = true → (KeepsSecret cr lib sg w ↔ NoPQKeys w) :=
    fun w hrun hlocked => keepsSecret_iff (keyRows_of_runs hlaws hrun) hlocked
  refine ⟨hiff, fun w hrun hlocked => ?_⟩
  exact (hiff w (hrun.mono fun _ _ h => h.1) hlocked).mpr (noPQKeys_of_runs hlaws hrun)

end CWallet

/-! ## 8. Two wallets -/

section Example

open CWallet

def plainKey : CKey := ⟨List.replicate 32 7, true, true⟩

/-- Encrypt with one master key and no new keys. -/
def plainEncryption : EncryptArgs where
  strWalletPassphrase := [1]
  vMasterKey := List.replicate 32 9
  kMasterKey := ⟨[], [], 0, 25000, []⟩
  newKeys := []
  keyMeta := fun _ => []

theorem keyLaws_plainKeyLib : KeyLaws plainKeyLib where
  load_getPubKey key fSkipCheck key' h := by
    cases h
    simp [plainKeyLib, take_take]
  length_getPrivKey key := by
    have hle : (plainKeyLib.getPrivKey key).length ≤ 32 := length_take_le _ _
    exact hle.trans (by decide)

def runPlain (ops : List WalletOp) : Option CWallet :=
  runList (step plainCrypto plainKeyLib noRecords) {} ops

/-- A wallet with one ECDSA key that is encrypted is locked and keeps the key secret. -/
theorem locked_keepsSecret_plain : ∃ w,
    runPlain [.addKeyPubKey plainKey (plainKeyLib.getPubKey plainKey) [],
      .encryptWallet plainEncryption] = some w ∧
    w.store.isLocked = true ∧ w.store.mapCryptedKeys ≠ [] ∧
    ∀ sg, KeepsSecret plainCrypto plainKeyLib sg w := by
  have hrun : (runPlain [.addKeyPubKey plainKey (plainKeyLib.getPubKey plainKey) [],
      .encryptWallet plainEncryption]).map
        (fun w => (w.store.isLocked, w.store.mapCryptedKeys.isEmpty)) = some (true, false) := by
    decide +kernel
  obtain ⟨w, hw, hprops⟩ := Option.map_eq_some_iff.mp hrun
  obtain ⟨hlocked, hkeys⟩ := Prod.mk.inj hprops
  refine ⟨w, hw, hlocked, fun hnil => ?_, fun sg => ?_⟩
  · rw [hnil] at hkeys
    cases hkeys
  · rw [runPlain] at hw
    obtain ⟨w₁, h₁, hw⟩ := Option.bind_eq_some_iff.mp hw
    obtain ⟨w₂, h₂, hw⟩ := Option.bind_eq_some_iff.mp hw
    cases hw
    have hruns : Runs (step plainCrypto plainKeyLib noRecords)
        (fun w op => FitsOp plainCrypto plainKeyLib w op ∧ NoPQOp op) {} w := by
      refine .tail (.tail .refl ?_ h₁) ?_ h₂
      · exact ⟨⟨rfl, nofun⟩, trivial⟩
      · exact ⟨trivial, trivial⟩
    exact (locked_keepsSecret keyLaws_plainKeyLib sg true).2 w hruns hlocked

/-- A wallet with a post-quantum key that is encrypted is locked, gives out the key and has it in
its file. -/
theorem locked_gives_out_pqkey : ∃ w,
    runPlain [.addKeyPubKey plainKey (plainKeyLib.getPubKey plainKey) [],
      .addPQKey pqPrivkey pqPubkey, .encryptWallet plainEncryption] = some w ∧
    w.store.isLocked = true ∧
    w.store.getPQKey (plainCrypto.hash160 pqPubkey) = some (pqPrivkey, pqPubkey) ∧
    pqKeyRow ∈ w.file ∧ ∀ sg, ¬ KeepsSecret plainCrypto plainKeyLib sg w := by
  have hrun : (runPlain [.addKeyPubKey plainKey (plainKeyLib.getPubKey plainKey) [],
      .addPQKey pqPrivkey pqPubkey, .encryptWallet plainEncryption]).map
        (fun w => (w.store.isLocked, w.store.getPQKey (plainCrypto.hash160 pqPubkey),
          decide (pqKeyRow ∈ w.file))) = some (true, some (pqPrivkey, pqPubkey), true) := by
    decide +kernel
  obtain ⟨w, hw, hprops⟩ := Option.map_eq_some_iff.mp hrun
  obtain ⟨hlocked, hprops⟩ := Prod.mk.inj hprops
  obtain ⟨hkey, hrow⟩ := Prod.mk.inj hprops
  refine ⟨w, hw, hlocked, hkey, decide_eq_true_iff.mp hrow, fun sg hkeeps => ?_⟩
  rw [hkeeps.getPQKey] at hkey
  cases hkey

end Example

end RgmNode
