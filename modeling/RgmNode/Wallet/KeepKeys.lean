import RgmNode.Wallet.KeyStore

/-!
# Encryption loses no key

`CCryptoKeyStore` between `EncryptKeys`, `Lock`, `Unlock` and `AddKeyPubKey`.  A key that was added
before the encryption moves to the encrypted map under the id of the public key that is computed from
it; one that is added later is put there under the public key that came with it.
-/

namespace RgmNode

open OrderedMap List Option Function

namespace CCryptoKeyStore

/-! ## 1. The code -/

section

variable (cr : Crypto) (lib : KeyLib)

/-- The loop of `EncryptKeys`: whether it comes to its end, and `mapCryptedKeys` -/
def encryptLoop (vMasterKeyIn : Bytes) :
    List (Uint160 × CKey) → List (Uint160 × CPubKey × Bytes) →
      Bool × List (Uint160 × CPubKey × Bytes)
  | [], mapCryptedKeys => (true, mapCryptedKeys)
  | (_, key) :: mapKeys, mapCryptedKeys =>
    let vchPubKey := lib.getPubKey key
    match encryptSecret lib vMasterKeyIn key.keydata (vchPubKey.getHash cr) with
    | none => (false, mapCryptedKeys)
    | some vchCryptedSecret =>
      encryptLoop vMasterKeyIn mapKeys
        (insert (vchPubKey.getID cr) (vchPubKey, vchCryptedSecret) mapCryptedKeys)

def encryptKeys (vMasterKeyIn : Bytes) (s : CCryptoKeyStore) : Bool × CCryptoKeyStore :=
  if !s.mapCryptedKeys.isEmpty || s.isCrypted then (false, s)
  else
    let r := encryptLoop cr lib vMasterKeyIn s.mapKeys []
    -- keys that a loop that fails leaves in `mapKeys` are not looked at any more
    (r.1, { s with
      mapKeys := []
      mapCryptedKeys := r.2
      fUseCrypto := true
      mapKeys_eq_nil := noKeys
      vMasterKey_eq_nil := s.vMasterKey_of_crypted })

inductive Call where
  | encryptKeys
  | lock
  | unlock (vMasterKeyIn : Bytes)
  | addKeyPubKey (key : CKey) (pubkey : CPubKey)

structure Session where
  store : CCryptoKeyStore
  added : Uint160 → Option CKey

/-- One call, with `vMasterKey` to encrypt with; `none` where it asserts -/
def Session.step (vMasterKey : Bytes) (x : Session) : Call → Option Session
  | .encryptKeys => some { x with store := (x.store.encryptKeys cr lib vMasterKey).2 }
  | .lock => some { x with store := x.store.lock.getD x.store }
  | .unlock vMasterKeyIn =>
    (x.store.unlock cr lib vMasterKeyIn).map fun r => { x with store := r.2 }
  | .addKeyPubKey key pubkey =>
    match x.store.addKeyPubKey cr lib key pubkey with
    | none => some x
    | some store => some ⟨store, Function.update x.added (pubkey.getID cr) (some key)⟩

def Session.run (vMasterKey : Bytes) : Session → List Call → Option Session :=
  List.foldlM (Session.step cr lib vMasterKey)

/-! ## 2. What is asked and what is assumed -/

/-- After `Unlock` the store has exactly the keys that were added, and no other master key unlocks it
or changes it. -/
structure KeepsKeys (vMasterKey : Bytes) (x : Session) : Prop where
  unlock : ∃ s, x.store.unlock cr lib vMasterKey = some (x.store.fUseCrypto, s) ∧
    ∀ id, s.haveKey id = (x.added id).isSome ∧ s.getKey cr lib id = x.added id
  wrongKey : ∀ vMasterKeyIn, vMasterKeyIn ≠ vMasterKey →
    x.store.unlock cr lib vMasterKeyIn = some (false, x.store)

/-- The start of the text that is encrypted for a public key -/
def ivOf (pubkey : CPubKey) : Bytes := (pubkey.getHash cr).bytes.take walletCryptoIVSize

/-- A key of 32 bytes that `CKey::Set` gives back and `CKey::VerifyPubKey` accepts its public key
for -/
structure ValidKey (key : CKey) : Prop where
  length : key.keydata.length = 32
  set : lib.set key.keydata (lib.getPubKey key).isCompressed = key
  verify : lib.verifyPubKey key (lib.getPubKey key) = true

/-- What a key is stored as once it is encrypted -/
def secretOf (vMasterKey : Bytes) (key : CKey) : Bytes :=
  lib.aesEncrypt vMasterKey (ivOf cr (lib.getPubKey key)) key.keydata

/-- For the keys of `A`: decryption inverts encryption, and no other master key decrypts an entry.
Nothing is asked of other texts. -/
structure EncryptionLaws (vMasterKey : Bytes) (A : CKey → Prop) : Prop where
  decrypt : ∀ key, A key → lib.aesDecrypt vMasterKey (ivOf cr (lib.getPubKey key))
    (secretOf cr lib vMasterKey key) = key.keydata
  length : ∀ key, A key → key.keydata.length ≤ (secretOf cr lib vMasterKey key).length
  wrongKey : ∀ vMasterKeyIn, vMasterKeyIn ≠ vMasterKey → ∀ key, A key →
    decryptKey cr lib vMasterKeyIn (secretOf cr lib vMasterKey key) (lib.getPubKey key) = none

/-- A store that is not encrypted and holds keys of `A`, each under its own id -/
structure PlainStore (A : CKey → Prop) (s : CCryptoKeyStore) : Prop where
  plain : s.fUseCrypto = false
  crypted : s.mapCryptedKeys = []
  sorted : s.mapKeys.Pairwise fun a b => a.1 < b.1
  keys : ∀ e ∈ s.mapKeys, A e.2 ∧ (lib.getPubKey e.2).getID cr = e.1
  ne_nil : s.mapKeys ≠ []

end

/-! ## 3. Entries -/

section Entries

variable {cr : Crypto} {lib : KeyLib} {vMasterKey : Bytes} {A : CKey → Prop} {key : CKey}
  {entries : List (Uint160 × CPubKey × Bytes)}

/-- An entry that the master key decrypts, and no other -/
structure Opens (cr : Crypto) (lib : KeyLib) (vMasterKey : Bytes) (e : Uint160 × CPubKey × Bytes) :
    Prop where
  opens : ∃ key, decryptKey cr lib vMasterKey e.2.2 e.2.1 = some key
  wrongKey : ∀ vMasterKeyIn, vMasterKeyIn ≠ vMasterKey →
    decryptKey cr lib vMasterKeyIn e.2.2 e.2.1 = none

/-- What `GetKey` finds in entries with the master key -/
def opened (cr : Crypto) (lib : KeyLib) (vMasterKey : Bytes)
    (entries : List (Uint160 × CPubKey × Bytes)) (id : Uint160) : Option CKey :=
  (entries.lookup id).bind fun e => decryptKey cr lib vMasterKey e.2 e.1

/-- What is asked of the master key, the library and the keys -/
structure Fit (cr : Crypto) (lib : KeyLib) (vMasterKey : Bytes) (A : CKey → Prop) : Prop where
  laws : EncryptionLaws cr lib vMasterKey A
  size : vMasterKey.length = 32
  valid : ∀ key, A key → ValidKey lib key

section Laws

variable (hfit : Fit cr lib vMasterKey A)

include hfit

theorem encryptSecret_eq (hA : A key) :
    encryptSecret lib vMasterKey key.keydata ((lib.getPubKey key).getHash cr) =
      some (secretOf cr lib vMasterKey key) := by
  show crypterEncrypt lib vMasterKey (ivOf cr (lib.getPubKey key)) key.keydata = _
  rw [crypterEncrypt, hfit.size]
  exact if_neg (hfit.laws.length key hA).not_gt

/-- A key that is encrypted with its own public key is found again. -/
theorem decryptKey_eq (hA : A key) :
    decryptKey cr lib vMasterKey (secretOf cr lib vMasterKey key) (lib.getPubKey key) =
      some key := by
  obtain ⟨hlength, hset, hverify⟩ := hfit.valid key hA
  have hne : key.keydata.isEmpty = false := by
    cases hdata : key.keydata with
    | nil => rw [hdata] at hlength; cases hlength
    | cons b data => rfl
  have hsecret : decryptSecret lib vMasterKey (secretOf cr lib vMasterKey key)
      ((lib.getPubKey key).getHash cr) = some key.keydata := by
    show crypterDecrypt lib vMasterKey (ivOf cr (lib.getPubKey key)) _ = _
    rw [crypterDecrypt, hfit.size, hfit.laws.decrypt key hA]
    dsimp only
    rw [hne]
    rfl
  rw [decryptKey, hsecret]
  dsimp only
  rw [if_neg (not_not.mpr hlength), hset, if_pos hverify]

/-- An entry for a key is opened by the master key only. -/
theorem opens_insert (hA : A key) (hopens : ∀ e ∈ entries, Opens cr lib vMasterKey e)
    (id : Uint160) :
    ∀ e ∈ insert id (lib.getPubKey key, secretOf cr lib vMasterKey key) entries,
      Opens cr lib vMasterKey e := by
  intro e he
  rcases mem_insert he with rfl | he
  · exact ⟨⟨key, decryptKey_eq hfit hA⟩,
      fun vMasterKeyIn hne => hfit.laws.wrongKey vMasterKeyIn hne key hA⟩
  · exact hopens e he

theorem opened_insert (hA : A key) (id id' : Uint160) :
    opened cr lib vMasterKey
        (insert id (lib.getPubKey key, secretOf cr lib vMasterKey key) entries) id' =
      if id' = id then some key else opened cr lib vMasterKey entries id' := by
  rw [opened, lookup_insert]
  split
  · exact decryptKey_eq hfit hA
  · rfl

/-- The loop of `EncryptKeys` moves every key, to the id it had. -/
theorem encryptLoop_spec {mapKeys : List (Uint160 × CKey)}
    (entries : List (Uint160 × CPubKey × Bytes))
    (hsorted : mapKeys.Pairwise fun a b => a.1 < b.1)
    (hkeys : ∀ e ∈ mapKeys, A e.2 ∧ (lib.getPubKey e.2).getID cr = e.1)
    (hopens : ∀ e ∈ entries, Opens cr lib vMasterKey e) :
    let r := encryptLoop cr lib vMasterKey mapKeys entries
    (∀ e ∈ r.2, Opens cr lib vMasterKey e) ∧
      ∀ id, opened cr lib vMasterKey r.2 id =
        (mapKeys.lookup id).or (opened cr lib vMasterKey entries id) := by
  induction mapKeys generalizing entries with
  | nil => exact ⟨hopens, fun id => rfl⟩
  | cons e mapKeys ih =>
    obtain ⟨id₀, key⟩ := e
    obtain ⟨hfirst, hrest⟩ := pairwise_cons.mp hsorted
    obtain ⟨⟨hA, hid⟩, hkeys'⟩ := forall_mem_cons.mp hkeys
    rw [encryptLoop, encryptSecret_eq hfit hA]
    obtain ⟨hopens', hlookup⟩ := ih _ hrest hkeys' (opens_insert hfit hA hopens _)
    refine ⟨hopens', fun id => ?_⟩
    rw [hlookup, opened_insert hfit hA, hid, List.lookup_cons]
    by_cases heq : id = id₀
    · -- no later key has this id
      have hnone : mapKeys.lookup id = none :=
        lookup_eq_none_of_forall fun e he hsame =>
          absurd (hfirst e he) (by rw [hsame, heq]; exact BitVec.lt_irrefl _)
      rw [if_pos heq, hnone, heq, beq_self_eq_true]
      rfl
    · rw [if_neg heq, beq_false_of_ne heq]

end Laws

theorem tryKeys_of_opens (thorough keyPass : Bool)
    (hopens : ∀ e ∈ entries, Opens cr lib vMasterKey e) (hne : keyPass = true ∨ entries ≠ []) :
    tryKeys cr lib vMasterKey thorough entries keyPass = (true, false) := by
  induction entries generalizing keyPass with
  | nil =>
    rw [tryKeys, hne.resolve_right (not_not.mpr rfl)]
  | cons e entries ih =>
    obtain ⟨⟨key, hkey⟩, -⟩ := hopens e mem_cons_self
    rw [tryKeys, hkey]
    dsimp only
    split
    · rfl
    · exact ih true (fun e he => hopens e (mem_cons_of_mem _ he)) (.inl rfl)

theorem tryKeys_of_wrongKey (thorough : Bool)
    {vMasterKeyIn : Bytes} (hwrong : vMasterKeyIn ≠ vMasterKey)
    (hopens : ∀ e ∈ entries, Opens cr lib vMasterKey e) :
    (tryKeys cr lib vMasterKeyIn thorough entries false).1 = false := by
  cases entries with
  | nil => rfl
  | cons e entries =>
    rw [tryKeys, (hopens e mem_cons_self).wrongKey _ hwrong]

end Entries

/-! ## 4. Runs -/

section Runs

variable {cr : Crypto} {lib : KeyLib} {vMasterKey : Bytes} {A : CKey → Prop} {x y : Session}

/-- The keys that were added are those of a store that is not encrypted. -/
structure Plain (cr : Crypto) (lib : KeyLib) (A : CKey → Prop) (x : Session) : Prop where
  store : PlainStore cr lib A x.store
  added : ∀ id, x.added id = x.store.mapKeys.lookup id

/-- The keys that were added are those that the master key opens. -/
structure Encrypted (cr : Crypto) (lib : KeyLib) (vMasterKey : Bytes) (x : Session) : Prop where
  crypted : x.store.fUseCrypto = true
  master : x.store.vMasterKey = [] ∨ x.store.vMasterKey = vMasterKey
  opens : ∀ e ∈ x.store.mapCryptedKeys, Opens cr lib vMasterKey e
  added : ∀ id, x.added id = opened cr lib vMasterKey x.store.mapCryptedKeys id
  ne_nil : x.store.mapCryptedKeys ≠ []

theorem PlainStore.setCrypted {s : CCryptoKeyStore} (h : PlainStore cr lib A s) :
    s.setCrypted = none := by
  rw [CCryptoKeyStore.setCrypted, h.plain, if_neg Bool.false_ne_true, dif_neg h.ne_nil]

theorem PlainStore.unlock {s : CCryptoKeyStore} (h : PlainStore cr lib A s) (vMasterKeyIn : Bytes) :
    s.unlock cr lib vMasterKeyIn = some (false, s) := by
  rw [CCryptoKeyStore.unlock, h.setCrypted]

theorem Encrypted.setCrypted (h : Encrypted cr lib vMasterKey x) :
    x.store.setCrypted = some x.store := by
  rw [CCryptoKeyStore.setCrypted, if_pos h.crypted]

/-- A store that is unlocked has the master key and the entries it had, which are not none. -/
theorem unlock_eq_true {s s' : CCryptoKeyStore} (hcrypted : s.fUseCrypto = true)
    (h : s.unlock cr lib vMasterKey = some (true, s')) :
    s'.vMasterKey = vMasterKey ∧ s'.mapCryptedKeys = s.mapCryptedKeys ∧ s'.fUseCrypto = true ∧
      s.mapCryptedKeys ≠ [] := by
  rw [CCryptoKeyStore.unlock, CCryptoKeyStore.setCrypted, if_pos hcrypted] at h
  dsimp only at h
  split at h
  · cases h
  split at h
  · cases h
  next hpass =>
  obtain rfl := (Prod.mk.inj (some.inj h)).2
  refine ⟨rfl, rfl, hcrypted, fun hnil => hpass ?_⟩
  rw [hnil]
  rfl

theorem Encrypted.unlock (h : Encrypted cr lib vMasterKey x) :
    ∃ s, x.store.unlock cr lib vMasterKey = some (true, s) := by
  rw [CCryptoKeyStore.unlock, h.setCrypted]
  dsimp only
  rw [tryKeys_of_opens _ _ h.opens (.inr h.ne_nil)]
  rw [dif_pos h.crypted]
  exact ⟨_, rfl⟩

theorem Encrypted.unlock_wrongKey (h : Encrypted cr lib vMasterKey x) {vMasterKeyIn : Bytes}
    (hwrong : vMasterKeyIn ≠ vMasterKey) :
    x.store.unlock cr lib vMasterKeyIn = some (false, x.store) := by
  have hpass := tryKeys_of_wrongKey x.store.fDecryptionThoroughlyChecked hwrong h.opens
  rw [CCryptoKeyStore.unlock, h.setCrypted]
  dsimp only
  rw [hpass, Bool.false_and, if_neg Bool.false_ne_true, Bool.not_false, Bool.or_true, if_pos rfl]

theorem plain_keepsKeys (h : Plain cr lib A x) : KeepsKeys cr lib vMasterKey x where
  unlock := by
    refine ⟨x.store, by rw [h.store.unlock, h.store.plain], fun id => ?_⟩
    rw [haveKey, getKey, h.store.plain, h.added]
    exact ⟨rfl, rfl⟩
  wrongKey vMasterKeyIn _ := h.store.unlock vMasterKeyIn

theorem encrypted_keepsKeys (h : Encrypted cr lib vMasterKey x) : KeepsKeys cr lib vMasterKey x where
  unlock := by
    obtain ⟨s, hunlock⟩ := h.unlock
    obtain ⟨hmaster, hkeys, hcrypted, -⟩ := unlock_eq_true h.crypted hunlock
    refine ⟨s, by rw [hunlock, h.crypted], fun id => ?_⟩
    rw [haveKey, getKey, if_pos hcrypted, if_pos hcrypted, hmaster, hkeys, h.added, opened]
    cases hlookup : x.store.mapCryptedKeys.lookup id with
    | none => exact ⟨rfl, rfl⟩
    | some e =>
      obtain ⟨⟨key, hkey⟩, -⟩ := h.opens _ (mem_of_lookup hlookup)
      rw [bind_some, hkey]
      exact ⟨rfl, hkey⟩
  wrongKey _ hwrong := h.unlock_wrongKey hwrong

theorem Plain.encryptKeys (hfit : Fit cr lib vMasterKey A) (h : Plain cr lib A x) :
    Encrypted cr lib vMasterKey { x with store := (x.store.encryptKeys cr lib vMasterKey).2 } := by
  obtain ⟨hopens, hlookup⟩ := encryptLoop_spec hfit [] h.store.sorted h.store.keys (by simp)
  have hstore : x.store.encryptKeys cr lib vMasterKey =
      ((encryptLoop cr lib vMasterKey x.store.mapKeys []).1, { x.store with
        mapKeys := []
        mapCryptedKeys := (encryptLoop cr lib vMasterKey x.store.mapKeys []).2
        fUseCrypto := true
        mapKeys_eq_nil := fun _ => rfl
        vMasterKey_eq_nil := fun h => by cases h }) := by
    rw [CCryptoKeyStore.encryptKeys, if_neg]
    rw [h.store.crypted, isCrypted, h.store.plain]
    decide
  have hadded : ∀ id, x.added id =
      opened cr lib vMasterKey (encryptLoop cr lib vMasterKey x.store.mapKeys []).2 id := by
    intro id
    rw [h.added, hlookup]
    exact (or_none).symm
  rw [hstore]
  refine ⟨rfl, .inl (x.store.vMasterKey_eq_nil h.store.plain), hopens, hadded, fun hnil => ?_⟩
  obtain ⟨⟨id, key⟩, mapKeys, hcons⟩ := exists_cons_of_ne_nil h.store.ne_nil
  have hfound : x.added id = some key := by
    rw [h.added, hcons, List.lookup_cons, beq_self_eq_true]
  rw [hadded, show (encryptLoop cr lib vMasterKey x.store.mapKeys []).2 = [] from hnil] at hfound
  cases hfound

theorem Plain.addKeyPubKey (vMasterKey : Bytes) (h : Plain cr lib A x) {key : CKey} (hA : A key) :
    ∃ y, x.step cr lib vMasterKey (.addKeyPubKey key (lib.getPubKey key)) = some y ∧
      Plain cr lib A y := by
  rw [Session.step, CCryptoKeyStore.addKeyPubKey, dif_pos h.store.plain]
  refine ⟨_, rfl, ⟨h.store.plain, h.store.crypted, pairwise_insert ?_ ?_ h.store.sorted, ?_, ?_⟩, ?_⟩
  · exact fun a b c => BitVec.lt_trans
  · exact fun a b hne hlt => BitVec.lt_of_le_ne (BitVec.not_lt.mp hlt) hne.symm
  · intro e he
    rcases mem_insert he with rfl | he
    · exact ⟨hA, rfl⟩
    · exact h.store.keys e he
  · exact ne_nil_of_mem mem_insert_self
  · intro id
    show update x.added _ _ id = (insert _ _ x.store.mapKeys).lookup id
    rw [lookup_insert, update_apply, h.added]

theorem Encrypted.addKeyPubKey (hfit : Fit cr lib vMasterKey A) (h : Encrypted cr lib vMasterKey x)
    {key : CKey} (hA : A key) :
    ∃ y, x.step cr lib vMasterKey (.addKeyPubKey key (lib.getPubKey key)) = some y ∧
      Encrypted cr lib vMasterKey y := by
  rw [Session.step, CCryptoKeyStore.addKeyPubKey, dif_neg (by rw [h.crypted]; decide)]
  split
  · exact ⟨x, rfl, h⟩
  next store hstore =>
  split at hstore
  · cases hstore
  next hlocked =>
  have hmaster : x.store.vMasterKey = vMasterKey := by
    refine h.master.resolve_left fun hnil => hlocked ?_
    rw [isLocked, isCrypted, h.crypted, hnil]
    rfl
  rw [hmaster, encryptSecret_eq hfit hA] at hstore
  dsimp only at hstore
  rw [addCryptedKey, h.setCrypted] at hstore
  cases hstore
  refine ⟨_, rfl, h.crypted, h.master, opens_insert hfit hA h.opens _,
    fun id => ?_, ne_nil_of_mem mem_insert_self⟩
  show update x.added _ _ id = opened _ _ _ (insert _ _ x.store.mapCryptedKeys) id
  rw [opened_insert hfit hA, update_apply, h.added]

theorem step_inv (hfit : Fit cr lib vMasterKey A) {c : Call}
    (hA : ∀ key pubkey, c = .addKeyPubKey key pubkey → A key ∧ pubkey = lib.getPubKey key)
    (h : Plain cr lib A x ∨ Encrypted cr lib vMasterKey x) :
    ∃ y, x.step cr lib vMasterKey c = some y ∧ (Plain cr lib A y ∨ Encrypted cr lib vMasterKey y) := by
  rcases h with h | h
  · cases c with
    | encryptKeys => exact ⟨_, rfl, .inr (h.encryptKeys hfit)⟩
    | lock =>
      refine ⟨x, ?_, .inl h⟩
      rw [Session.step, lock, h.store.setCrypted]
      rfl
    | unlock vMasterKeyIn =>
      refine ⟨x, ?_, .inl h⟩
      rw [Session.step, h.store.unlock]
      rfl
    | addKeyPubKey key pubkey =>
      obtain ⟨hkey, rfl⟩ := hA key pubkey rfl
      obtain ⟨y, hstep, hy⟩ := h.addKeyPubKey vMasterKey hkey
      exact ⟨y, hstep, .inl hy⟩
  · cases c with
    | encryptKeys =>
      refine ⟨x, ?_, .inr h⟩
      rw [Session.step, CCryptoKeyStore.encryptKeys, if_pos]
      rw [isCrypted, h.crypted, Bool.or_true]
    | lock =>
      refine ⟨_, rfl, .inr ?_⟩
      rw [lock, h.setCrypted]
      exact ⟨h.crypted, .inl rfl, h.opens, h.added, h.ne_nil⟩
    | unlock vMasterKeyIn =>
      rw [Session.step]
      by_cases heq : vMasterKeyIn = vMasterKey
      · obtain ⟨s, hunlock⟩ := h.unlock
        obtain ⟨hmaster, hkeys, hcrypted, -⟩ := unlock_eq_true h.crypted hunlock
        rw [heq, hunlock]
        refine ⟨_, rfl, .inr ⟨hcrypted, .inr hmaster, ?_, ?_, ?_⟩⟩
        · exact hkeys ▸ h.opens
        · exact hkeys ▸ h.added
        · exact hkeys ▸ h.ne_nil
      · rw [h.unlock_wrongKey heq]
        exact ⟨x, rfl, .inr h⟩
    | addKeyPubKey key pubkey =>
      obtain ⟨hkey, rfl⟩ := hA key pubkey rfl
      obtain ⟨y, hstep, hy⟩ := h.addKeyPubKey hfit hkey
      exact ⟨y, hstep, .inr hy⟩

theorem run_inv (hfit : Fit cr lib vMasterKey A) {calls : List Call}
    (hA : ∀ key pubkey, .addKeyPubKey key pubkey ∈ calls → A key ∧ pubkey = lib.getPubKey key)
    (h : Plain cr lib A x ∨ Encrypted cr lib vMasterKey x) :
    ∃ y, x.run cr lib vMasterKey calls = some y ∧
      (Plain cr lib A y ∨ Encrypted cr lib vMasterKey y) := by
  induction calls generalizing x with
  | nil => exact ⟨x, rfl, h⟩
  | cons c calls ih =>
    obtain ⟨y, hstep, hy⟩ := step_inv hfit
      (fun key pubkey hc => hA key pubkey (hc ▸ mem_cons_self)) h
    obtain ⟨z, hrun, hz⟩ := ih (fun key pubkey hc => hA key pubkey (mem_cons_of_mem _ hc)) hy
    refine ⟨z, ?_, hz⟩
    rw [Session.run, foldlM_cons, hstep]
    exact hrun

/-- No key is lost, whatever is called, with a master key of the size of an AES key and keys that
come with their own public keys. -/
theorem encryption_keepsKeys (hlaws : EncryptionLaws cr lib vMasterKey A)
    (hsize : vMasterKey.length = 32) (hvalid : ∀ key, A key → ValidKey lib key)
    {s : CCryptoKeyStore} (hs : PlainStore cr lib A s) {calls : List Call}
    (hcalls : ∀ key pubkey, .addKeyPubKey key pubkey ∈ calls → A key ∧ pubkey = lib.getPubKey key) :
    ∃ y, Session.run cr lib vMasterKey ⟨s, fun id => s.mapKeys.lookup id⟩ calls = some y ∧
      KeepsKeys cr lib vMasterKey y := by
  obtain ⟨y, hrun, hy⟩ := run_inv ⟨hlaws, hsize, hvalid⟩ hcalls
    (.inl (⟨hs, fun _ => rfl⟩ : Plain cr lib A ⟨s, fun id => s.mapKeys.lookup id⟩))
  exact ⟨y, hrun, hy.elim plain_keepsKeys encrypted_keepsKeys⟩

end Runs

/-! ## 5. A run -/

/-- An encrypted text starts with the master key. -/
def tagLib : KeyLib :=
  { plainKeyLib with
    aesEncrypt := fun key _ text => key ++ text
    aesDecrypt := fun key _ text => if text.take 32 = key then text.drop 32 else [] }

/-- The id of a public key is its first bytes. -/
def tagCrypto : Crypto :=
  { plainCrypto with
    sha256 := fun b => Uint256.ofBytes (b.take 20)
    ripemd160 := fun b => Uint160.ofBytes (b.take 20) }

def masterKey : Bytes := List.replicate 32 1

def sampleKey (b : UInt8) : CKey := ⟨List.replicate 32 b, true, true⟩

theorem encryptionLaws_tagLib : EncryptionLaws tagCrypto tagLib masterKey
    fun key => key = sampleKey 7 ∨ key = sampleKey 9 where
  decrypt key _ := by
    show (if (masterKey ++ key.keydata).take 32 = masterKey then
      (masterKey ++ key.keydata).drop 32 else []) = key.keydata
    rw [take_left' (by decide), if_pos rfl, drop_left' (by decide)]
  length key _ := by
    show key.keydata.length ≤ (masterKey ++ key.keydata).length
    simp
  wrongKey vMasterKeyIn hne key _ := by
    have hempty : tagLib.aesDecrypt vMasterKeyIn (ivOf tagCrypto (tagLib.getPubKey key))
        (masterKey ++ key.keydata) = [] := by
      show (if (masterKey ++ key.keydata).take 32 = vMasterKeyIn then _ else []) = []
      rw [take_left' (by decide), if_neg hne.symm]
    have hnone : decryptSecret tagLib vMasterKeyIn (masterKey ++ key.keydata)
        ((tagLib.getPubKey key).getHash tagCrypto) = none := by
      show crypterDecrypt tagLib vMasterKeyIn (ivOf tagCrypto (tagLib.getPubKey key)) _ = none
      rw [crypterDecrypt, hempty]
      split <;> rfl
    rw [decryptKey, secretOf]
    exact hnone ▸ rfl

def sampleID (b : UInt8) : Uint160 := (tagLib.getPubKey (sampleKey b)).getID tagCrypto

def sampleStore : CCryptoKeyStore where
  mapKeys := [(sampleID 7, sampleKey 7)]
  mapKeys_eq_nil h := by cases h

/-- Another key is added once the store was encrypted, locked and unlocked. -/
def sampleCalls : List Call :=
  [.encryptKeys, .lock, .unlock (List.replicate 32 2), .unlock masterKey,
    .addKeyPubKey (sampleKey 9) (tagLib.getPubKey (sampleKey 9))]

theorem encryption_keepsKeys_two :
    ∃ y, Session.run tagCrypto tagLib masterKey
        ⟨sampleStore, fun id => sampleStore.mapKeys.lookup id⟩ sampleCalls = some y ∧
      y.added (sampleID 7) = some (sampleKey 7) ∧ y.added (sampleID 9) = some (sampleKey 9) ∧
      KeepsKeys tagCrypto tagLib masterKey y := by
  have hvalid : ∀ key, key = sampleKey 7 ∨ key = sampleKey 9 → ValidKey tagLib key := by
    rintro _ (rfl | rfl) <;> exact ⟨rfl, rfl, rfl⟩
  have hs : PlainStore tagCrypto tagLib (fun key => key = sampleKey 7 ∨ key = sampleKey 9)
      sampleStore := by
    refine ⟨rfl, rfl, pairwise_singleton _ _, fun e he => ?_, cons_ne_nil _ _⟩
    obtain rfl := mem_singleton.mp he
    exact ⟨.inl rfl, rfl⟩
  have hcalls : ∀ key pubkey, .addKeyPubKey key pubkey ∈ sampleCalls →
      (key = sampleKey 7 ∨ key = sampleKey 9) ∧ pubkey = tagLib.getPubKey key := by
    intro key pubkey hmem
    simp only [sampleCalls, mem_cons, reduceCtorEq, false_or, not_mem_nil, or_false] at hmem
    obtain ⟨rfl, rfl⟩ := Call.addKeyPubKey.inj hmem
    exact ⟨.inr rfl, rfl⟩
  have hadded : (Session.run tagCrypto tagLib masterKey
      ⟨sampleStore, fun id => sampleStore.mapKeys.lookup id⟩ sampleCalls).map
        (fun y => (y.added (sampleID 7), y.added (sampleID 9))) =
      some (some (sampleKey 7), some (sampleKey 9)) := by
    decide +kernel
  obtain ⟨y, hrun, hkeeps⟩ := encryption_keepsKeys encryptionLaws_tagLib rfl hvalid hs hcalls
  rw [hrun, map_some, some.injEq, Prod.mk.injEq] at hadded
  exact ⟨y, hrun, hadded.1, hadded.2, hkeeps⟩

end CCryptoKeyStore

end RgmNode
