import Mathlib.Data.Finset.Max
import RgmNode.Lib.Transition
import RgmNode.Primitives.Keys

/-!
# The key pool

`TopUpKeyPool`, `ReserveKeyFromKeyPool`, `KeepKey`, `ReturnKey` and `GetKeyFromPool` of
`wallet/wallet.cpp`, with the `pool` records of the wallet file and the reservations of the
callers.  Of the key store the pool reads whether it is locked and which keys it has; the
wallet is file backed and its database never fails.  `nTime` of a record, which only
`GetOldestKeyPoolTime` reads, is left out.

A new index is one more than the largest index in `setKeyPool`, or 1 if the set is empty.  An
index that is reserved is not in the set, so that a top-up may use it again.

* `Inv` — what the pool needs; `inv_step`, every step keeps it that uses no reserved index
-/

namespace RgmNode

open Transition List Option Function Nat LittleEndian

/-! ## 1. State -/

/-- A key that a caller has reserved: `CReserveKey`. -/
structure Reservation where
  nIndex : Int
  vchPubKey : CPubKey
deriving DecidableEq, Repr

/-- What the pool takes from outside: the hash functions, the keys `GenerateNewKey` makes,
one after the other, and the option `-keypool`. -/
structure PoolEnv where
  cr : Crypto
  key : Nat → CPubKey
  /-- a key that was generated is valid -/
  isValid_key : ∀ n, (key n).isValid = true
  keypoolArg : Int

structure KeyPool where
  setKeyPool : Finset Int := ∅
  /-- the `pool` records -/
  pool : Int → Option CPubKey := fun _ => none
  /-- the keys `HaveKey` knows -/
  keys : List Uint160 := []
  fCrypted : Bool := false
  fLocked : Bool := false
  /-- the number of keys generated so far -/
  nGenerated : Nat := 0
  /-- the reservations that are neither kept nor returned -/
  outstanding : List Reservation := []
  /-- the keys that callers have kept -/
  kept : List CPubKey := []

inductive PoolError where
  /-- "read failed" -/
  | readFailed
  /-- "unknown key in key pool" -/
  | unknownKey
  /-- `assert(keypool.vchPubKey.IsValid())` -/
  | invalidKey
deriving DecidableEq, Repr

inductive PoolOp where
  | topUp (kpSize : Nat)
  | reserve
  | keep (r : Reservation)
  | giveBack (r : Reservation)
  | getKey
  | lock
  | unlock
deriving DecidableEq, Repr

namespace KeyPool

variable (env : PoolEnv) (w : KeyPool)

/-! ## 2. The functions -/

def isLocked : Bool := w.fCrypted && w.fLocked

def generateNewKey : CPubKey × KeyPool :=
  (env.key w.nGenerated,
    { w with
      keys := (env.key w.nGenerated).getID env.cr :: w.keys
      nGenerated := w.nGenerated + 1 })

/-- `nEnd`: the index of the next key. -/
def nextIndex : Int :=
  if h : w.setKeyPool.Nonempty then w.setKeyPool.max' h + 1 else 1

/-- One round of the loop of `TopUpKeyPool`. -/
def addPoolKey : KeyPool :=
  let nEnd := w.nextIndex
  let (key, w) := w.generateNewKey env
  { w with
    pool := Function.update w.pool nEnd (some key)
    setKeyPool := insert nEnd w.setKeyPool }

/-- The loop of `TopUpKeyPool`; each round adds an index, so `nLimit` rounds are enough. -/
def topUpLoop (nLimit : Nat) : Nat → KeyPool → KeyPool
  | 0, w => w
  | rounds + 1, w =>
    if w.setKeyPool.card < nLimit then topUpLoop nLimit rounds (w.addPoolKey env) else w

/-- `nTargetSize + 1`, an `unsigned int` -/
def targetLimit (kpSize : Nat) : Nat :=
  let nTargetSize := (if 0 < kpSize then kpSize else (max env.keypoolArg 0).toNat) % 2 ^ 32
  (nTargetSize + 1) % 2 ^ 32

def topUpKeyPool (kpSize : Nat) : KeyPool :=
  if w.isLocked then w
  else topUpLoop env (targetLimit env kpSize) (targetLimit env kpSize) w

/-- The part of `ReserveKeyFromKeyPool` after the top-up; the caller holds what it returns. -/
def takeOldest : Except PoolError (Option Reservation × KeyPool) :=
  if h : w.setKeyPool.Nonempty then
    let nIndex := w.setKeyPool.min' h
    match w.pool nIndex with
    | none => .error .readFailed
    | some key =>
      if key.getID env.cr ∉ w.keys then .error .unknownKey
      else if key.isValid = false then .error .invalidKey
      else
        .ok (some ⟨nIndex, key⟩,
          { w with
            setKeyPool := w.setKeyPool.erase nIndex
            outstanding := ⟨nIndex, key⟩ :: w.outstanding })
  else .ok (none, w)

def reserveKeyFromKeyPool : Except PoolError (Option Reservation × KeyPool) :=
  takeOldest env (if w.isLocked then w else w.topUpKeyPool env 0)

/-- `KeepKey`, by a caller who holds the reservation. -/
def keepKey (r : Reservation) : KeyPool :=
  { w with
    pool := Function.update w.pool r.nIndex none
    outstanding := w.outstanding.erase r
    kept := r.vchPubKey :: w.kept }

def returnKey (r : Reservation) : KeyPool :=
  { w with
    setKeyPool := insert r.nIndex w.setKeyPool
    outstanding := w.outstanding.erase r }

/-- `GetKeyFromPool`: the key that is returned is kept. -/
def getKeyFromPool : Except PoolError KeyPool :=
  match w.reserveKeyFromKeyPool env with
  | .error e => .error e
  | .ok (some r, w) => .ok (w.keepKey r)
  | .ok (none, w) =>
    if w.isLocked then .ok w
    else
      let (key, w) := w.generateNewKey env
      .ok { w with kept := key :: w.kept }

/-- One call; a caller keeps or returns only what it holds. -/
def step (w : KeyPool) : PoolOp → Option KeyPool
  | .topUp kpSize => some (w.topUpKeyPool env kpSize)
  | .reserve => (w.reserveKeyFromKeyPool env).toOption.map (·.2)
  | .keep r => if r ∈ w.outstanding then some (w.keepKey r) else none
  | .giveBack r => if r ∈ w.outstanding then some (w.returnKey r) else none
  | .getKey => (w.getKeyFromPool env).toOption
  | .lock => some { w with fLocked := true }
  | .unlock => some { w with fLocked := false }

/-! ## 3. What a run needs and gives -/

def missing (kpSize : Nat) : Nat :=
  if w.isLocked then 0 else targetLimit env kpSize - w.setKeyPool.card

def added (w : KeyPool) : PoolOp → Nat
  | .topUp kpSize => w.missing env kpSize
  | .reserve | .getKey => w.missing env 0
  | _ => 0

/-- How many keys a call may generate: those it adds, and one that `GetKeyFromPool` makes for an
empty pool. -/
def generated (w : KeyPool) : PoolOp → Nat
  | .getKey => w.missing env 0 + 1
  | op => w.added env op

/-- The indices that are used for `n` new keys are not reserved. -/
def Clear (n : Nat) : Prop :=
  ∀ r ∈ w.outstanding, ∀ k < n, r.nIndex ≠ w.nextIndex + k

instance (n : Nat) : Decidable (w.Clear n) := inferInstanceAs (Decidable (∀ _ ∈ _, _))

/-- The next `n` keys are new to the wallet. -/
def NewKeys (n : Nat) : Prop :=
  ∀ k < n, (env.key (w.nGenerated + k)).getID env.cr ∉ w.keys ∧
    ∀ j < k, (env.key (w.nGenerated + j)).getID env.cr ≠ (env.key (w.nGenerated + k)).getID env.cr

instance (n : Nat) : Decidable (w.NewKeys env n) := inferInstanceAs (Decidable (∀ _ < _, _))

/-- The call uses no index that is reserved, and every key it generates is new. -/
def Safe (op : PoolOp) : Prop := w.Clear (w.added env op) ∧ w.NewKeys env (w.generated env op)

instance (op : PoolOp) : Decidable (w.Safe env op) := inferInstanceAs (Decidable (_ ∧ _))

/-- The pool is sound: every index has its record, none is reserved, no key was kept twice, and
neither way to take a key throws. -/
structure Sound : Prop where
  record : ∀ i ∈ w.setKeyPool, (w.pool i).isSome = true
  apart : ∀ r ∈ w.outstanding, r.nIndex ∉ w.setKeyPool
  kept_once : w.kept.Nodup
  reserve_returns : ∃ out, w.reserveKeyFromKeyPool env = .ok out
  getKey_returns : ∃ w', w.getKeyFromPool env = .ok w'

/-! ## 4. The invariant -/

/-- The indices of the pool and of the reservations. -/
def InUse (i : Int) : Prop := i ∈ w.setKeyPool ∨ ∃ r ∈ w.outstanding, r.nIndex = i

def Known (key : CPubKey) : Prop := key.getID env.cr ∈ w.keys ∧ key.isValid = true

/-- Every index of the pool has the record of a known key. -/
def Recorded : Prop := ∀ i ∈ w.setKeyPool, ∃ key, w.pool i = some key ∧ w.Known env key

structure Inv : Prop where
  known : w.Recorded env
  reserved : ∀ r ∈ w.outstanding, w.pool r.nIndex = some r.vchPubKey ∧ w.Known env r.vchPubKey
  apart : ∀ r ∈ w.outstanding, r.nIndex ∉ w.setKeyPool
  nodup : (w.outstanding.map Reservation.nIndex).Nodup
  unique : ∀ i j key, w.InUse i → w.InUse j → w.pool i = some key → w.pool j = some key → i = j
  unkept : ∀ i key, w.InUse i → w.pool i = some key → key ∉ w.kept
  kept_known : ∀ key ∈ w.kept, key.getID env.cr ∈ w.keys
  kept_once : w.kept.Nodup

variable {env w}

theorem Inv.exists_key (h : w.Inv env) {i : Int} (hi : w.InUse i) :
    ∃ key, w.pool i = some key ∧ w.Known env key := by
  rcases hi with hset | ⟨r, hr, rfl⟩
  · exact h.known i hset
  · exact ⟨r.vchPubKey, h.reserved r hr⟩

theorem nextIndex_notMem : w.nextIndex ∉ w.setKeyPool := by
  unfold nextIndex
  split
  · next h =>
    intro hmem
    have := w.setKeyPool.le_max' _ hmem
    omega
  · next h =>
    rw [Finset.not_nonempty_iff_eq_empty.mp h]
    exact Finset.notMem_empty _

theorem nextIndex_addPoolKey : (w.addPoolKey env).nextIndex = w.nextIndex + 1 := by
  have hins : (w.addPoolKey env).setKeyPool = insert w.nextIndex w.setKeyPool := rfl
  have hmax : ∀ i ∈ w.setKeyPool, i ≤ w.nextIndex := by
    intro i hi
    rw [nextIndex, dif_pos ⟨i, hi⟩]
    have := w.setKeyPool.le_max' i hi
    omega
  have hne : (insert w.nextIndex w.setKeyPool).Nonempty := Finset.insert_nonempty _ _
  rw [nextIndex, hins, dif_pos hne]
  congr 1
  apply le_antisymm
  · apply Finset.max'_le
    intro i hi
    rcases Finset.mem_insert.mp hi with rfl | hmem
    · exact le_refl _
    · exact hmax i hmem
  · exact Finset.le_max' _ _ (Finset.mem_insert_self _ _)

theorem card_addPoolKey : (w.addPoolKey env).setKeyPool.card = w.setKeyPool.card + 1 :=
  Finset.card_insert_of_notMem nextIndex_notMem

/-! ## 5. Topping up -/

/-- The records of the pool are there after a round, whatever index it uses. -/
theorem Recorded.addPoolKey (h : w.Recorded env) : (w.addPoolKey env).Recorded env := by
  intro i hi
  rcases Finset.mem_insert.mp hi with rfl | hmem
  · exact ⟨env.key w.nGenerated, update_self _ _ _, mem_cons_self, env.isValid_key _⟩
  · obtain ⟨key, hkey, hid, hvalid⟩ := h i hmem
    have hne : i ≠ w.nextIndex := fun heq => nextIndex_notMem (heq ▸ hmem)
    exact ⟨key, (update_of_ne hne _ _).trans hkey, mem_cons_of_mem _ hid, hvalid⟩

theorem inv_addPoolKey (h : w.Inv env) (hclear : ∀ r ∈ w.outstanding, r.nIndex ≠ w.nextIndex)
    (hnew : (env.key w.nGenerated).getID env.cr ∉ w.keys) : (w.addPoolKey env).Inv env := by
  have hpool : ∀ i ≠ w.nextIndex, (w.addPoolKey env).pool i = w.pool i :=
    fun i hi => update_of_ne hi _ _
  have hself : (w.addPoolKey env).pool w.nextIndex = some (env.key w.nGenerated) :=
    update_self _ _ _
  -- an index in use is the new one, or was in use before and is another
  have huse : ∀ i, (w.addPoolKey env).InUse i → i = w.nextIndex ∨ i ≠ w.nextIndex ∧ w.InUse i := by
    intro i hi
    by_cases heq : i = w.nextIndex
    · exact .inl heq
    · refine .inr ⟨heq, ?_⟩
      rcases hi with hset | hout
      · exact .inl (Finset.mem_of_mem_insert_of_ne hset heq)
      · exact .inr hout
  -- a key that was in use is not the new one
  have hold : ∀ i, w.InUse i → w.pool i ≠ some (env.key w.nGenerated) := by
    intro i hi heq
    obtain ⟨key, hkey, hid, _⟩ := h.exists_key hi
    rw [hkey, some.injEq] at heq
    exact hnew (heq ▸ hid)
  constructor
  · exact h.known.addPoolKey
  · intro r hr
    obtain ⟨hrec, hid, hvalid⟩ := h.reserved r hr
    exact ⟨(hpool _ (hclear r hr)).trans hrec, mem_cons_of_mem _ hid, hvalid⟩
  · intro r hr hmem
    rcases Finset.mem_insert.mp hmem with heq | hset
    · exact hclear r hr heq
    · exact h.apart r hr hset
  · exact h.nodup
  · intro i j key hi hj hki hkj
    rcases huse i hi with rfl | ⟨hni, hui⟩ <;> rcases huse j hj with rfl | ⟨hnj, huj⟩
    · rfl
    · rw [hself] at hki
      rw [hpool j hnj, ← hki] at hkj
      exact absurd hkj (hold j huj)
    · rw [hself] at hkj
      rw [hpool i hni, ← hkj] at hki
      exact absurd hki (hold i hui)
    · rw [hpool i hni] at hki
      rw [hpool j hnj] at hkj
      exact h.unique i j key hui huj hki hkj
  · intro i key hi hkey hkept
    rcases huse i hi with rfl | ⟨hni, hui⟩
    · rw [hself, some.injEq] at hkey
      exact hnew (hkey ▸ h.kept_known key hkept)
    · rw [hpool i hni] at hkey
      exact h.unkept i key hui hkey hkept
  · exact fun key hkey => mem_cons_of_mem _ (h.kept_known key hkey)
  · exact h.kept_once

variable {rounds nLimit extra : Nat}

theorem Recorded.topUpLoop (h : w.Recorded env) : (topUpLoop env nLimit rounds w).Recorded env := by
  induction rounds generalizing w with
  | zero => exact h
  | succ rounds ih =>
    rw [KeyPool.topUpLoop]
    split
    · exact ih h.addPoolKey
    · exact h

theorem Clear.addPoolKey {n : Nat} (h : w.Clear (n + 1)) : (w.addPoolKey env).Clear n := by
  intro r hr k hk
  have := h r hr (k + 1) (succ_lt_succ hk)
  rw [nextIndex_addPoolKey]
  omega

theorem NewKeys.addPoolKey {n : Nat} (h : w.NewKeys env (n + 1)) :
    (w.addPoolKey env).NewKeys env n := by
  intro k hk
  obtain ⟨hnew, hdiff⟩ := h (k + 1) (succ_lt_succ hk)
  have hgen : ∀ j, (w.addPoolKey env).nGenerated + j = w.nGenerated + (j + 1) := by
    intro j
    change w.nGenerated + 1 + j = _
    omega
  have hkeys : (w.addPoolKey env).keys = (env.key w.nGenerated).getID env.cr :: w.keys := rfl
  rw [hgen, hkeys, mem_cons, not_or]
  refine ⟨⟨(hdiff 0 (succ_pos k)).symm, hnew⟩, fun j hj => ?_⟩
  rw [hgen]
  exact hdiff (j + 1) (succ_lt_succ hj)

/-- The whole loop; the keys after those it adds are still new. -/
theorem inv_topUpLoop (h : w.Inv env) (hrounds : nLimit - w.setKeyPool.card ≤ rounds)
    (hclear : w.Clear (nLimit - w.setKeyPool.card))
    (hnew : w.NewKeys env (nLimit - w.setKeyPool.card + extra)) :
    (topUpLoop env nLimit rounds w).Inv env ∧
      (topUpLoop env nLimit rounds w).NewKeys env extra := by
  have done (hle : nLimit - w.setKeyPool.card = 0) : w.Inv env ∧ w.NewKeys env extra := by
    rw [hle, zero_add] at hnew
    exact ⟨h, hnew⟩
  induction rounds generalizing w with
  | zero => exact done (le_zero.mp hrounds)
  | succ rounds ih =>
    rw [topUpLoop]
    split
    · next hlt =>
      have hcount : nLimit - w.setKeyPool.card =
          nLimit - (w.addPoolKey env).setKeyPool.card + 1 := by
        rw [card_addPoolKey]
        omega
      rw [hcount] at hrounds hclear hnew
      rw [add_right_comm] at hnew
      have hfirst := (hnew 0 (succ_pos _)).1
      have hinv : (w.addPoolKey env).Inv env := by
        refine inv_addPoolKey h (fun r hr => ?_) hfirst
        simpa using hclear r hr 0 (succ_pos _)
      refine ih hinv (le_of_succ_le_succ hrounds) hclear.addPoolKey hnew.addPoolKey
        fun hzero => ⟨hinv, ?_⟩
      have hrest := NewKeys.addPoolKey hnew
      rwa [hzero, zero_add] at hrest
    · next hge => exact done (Nat.sub_eq_zero_of_le (not_lt.mp hge))

theorem inv_topUpKeyPool {kpSize : Nat} (h : w.Inv env) (hclear : w.Clear (w.missing env kpSize))
    (hnew : w.NewKeys env (w.missing env kpSize + extra)) :
    (w.topUpKeyPool env kpSize).Inv env ∧ (w.topUpKeyPool env kpSize).NewKeys env extra := by
  unfold topUpKeyPool
  unfold missing at hclear hnew
  split at hclear
  · next hlocked =>
    rw [if_pos hlocked] at hnew ⊢
    rw [zero_add] at hnew
    exact ⟨h, hnew⟩
  · next hunlocked =>
    rw [if_neg hunlocked] at hnew ⊢
    exact inv_topUpLoop h (sub_le _ _) hclear hnew

/-! ## 6. Taking keys out and handing them back -/

/-- Where the invariant holds for the pool, taking a key does not throw. -/
theorem takeOldest_returns (h : w.Recorded env) :
    (w.setKeyPool = ∅ ∧ w.takeOldest env = .ok (none, w)) ∨
      ∃ i key, i ∈ w.setKeyPool ∧ w.pool i = some key ∧ w.Known env key ∧
        w.takeOldest env = .ok (some ⟨i, key⟩,
          { w with
            setKeyPool := w.setKeyPool.erase i
            outstanding := ⟨i, key⟩ :: w.outstanding }) := by
  unfold takeOldest
  split
  · next hne =>
    obtain ⟨key, hkey, hid, hvalid⟩ := h _ (w.setKeyPool.min'_mem hne)
    refine .inr ⟨_, key, w.setKeyPool.min'_mem hne, hkey, ⟨hid, hvalid⟩, ?_⟩
    dsimp only
    rw [hkey]
    dsimp only
    rw [if_neg (not_not.mpr hid), if_neg (by rw [hvalid]; decide)]
  · next hempty => exact .inl ⟨Finset.not_nonempty_iff_eq_empty.mp hempty, rfl⟩

/-- A reservation moves its index from the pool to the caller. -/
theorem inv_reserve {i : Int} {key : CPubKey} (h : w.Inv env) (hi : i ∈ w.setKeyPool)
    (hkey : w.pool i = some key) (hknown : w.Known env key) :
    Inv env { w with
      setKeyPool := w.setKeyPool.erase i
      outstanding := ⟨i, key⟩ :: w.outstanding } := by
  have huse : ∀ j, InUse { w with
      setKeyPool := w.setKeyPool.erase i
      outstanding := ⟨i, key⟩ :: w.outstanding } j → w.InUse j := by
    rintro j (hset | ⟨r, hr, rfl⟩)
    · exact .inl (Finset.mem_of_mem_erase hset)
    · rcases mem_cons.mp hr with rfl | hr
      · exact .inl hi
      · exact .inr ⟨r, hr, rfl⟩
  constructor
  · exact fun j hj => h.known j (Finset.mem_of_mem_erase hj)
  · intro r hr
    rcases mem_cons.mp hr with rfl | hr
    · exact ⟨hkey, hknown⟩
    · exact h.reserved r hr
  · intro r hr
    rcases mem_cons.mp hr with rfl | hr
    · exact Finset.notMem_erase _ _
    · exact fun hmem => h.apart r hr (Finset.mem_of_mem_erase hmem)
  · rw [map_cons, nodup_cons]
    refine ⟨fun hmem => ?_, h.nodup⟩
    obtain ⟨r, hr, heq⟩ := mem_map.mp hmem
    exact h.apart r hr (heq ▸ hi)
  · exact fun a b k ha hb => h.unique a b k (huse a ha) (huse b hb)
  · exact fun a k ha => h.unkept a k (huse a ha)
  · exact h.kept_known
  · exact h.kept_once

section Held

variable {r : Reservation} (h : w.Inv env) (hr : r ∈ w.outstanding)
include h hr

theorem nIndex_ne_of_mem_erase {r' : Reservation} (hr' : r' ∈ w.outstanding.erase r) :
    r' ∈ w.outstanding ∧ r'.nIndex ≠ r.nIndex := by
  have hmem := mem_of_mem_erase hr'
  refine ⟨hmem, fun heq => ?_⟩
  have hnodup : w.outstanding.Nodup := h.nodup.of_map
  have hsame : r' = r := inj_on_of_nodup_map h.nodup hmem hr heq
  exact (List.Nodup.mem_erase_iff hnodup).mp hr' |>.1 hsame

omit hr in
theorem nodup_erase : ((w.outstanding.erase r).map Reservation.nIndex).Nodup :=
  h.nodup.sublist (erase_sublist.map _)

theorem inv_keepKey : (w.keepKey r).Inv env := by
  obtain ⟨hrec, hid, hvalid⟩ := h.reserved r hr
  have huse : ∀ i, (w.keepKey r).InUse i → w.InUse i ∧ i ≠ r.nIndex := by
    rintro i (hset | ⟨r', hr', rfl⟩)
    · exact ⟨.inl hset, fun heq => h.apart r hr (heq ▸ hset)⟩
    · obtain ⟨hmem, hne⟩ := nIndex_ne_of_mem_erase h hr hr'
      exact ⟨.inr ⟨r', hmem, rfl⟩, hne⟩
  have hpool : ∀ i ≠ r.nIndex, (w.keepKey r).pool i = w.pool i :=
    fun i hi => update_of_ne hi _ _
  constructor
  · intro i hi
    have hne : i ≠ r.nIndex := fun heq => h.apart r hr (heq ▸ hi)
    obtain ⟨key, hkey, hknown⟩ := h.known i hi
    exact ⟨key, (hpool i hne).trans hkey, hknown⟩
  · intro r' hr'
    obtain ⟨hmem, hne⟩ := nIndex_ne_of_mem_erase h hr hr'
    obtain ⟨hrec', hknown⟩ := h.reserved r' hmem
    exact ⟨(hpool _ hne).trans hrec', hknown⟩
  · exact fun r' hr' => h.apart r' (mem_of_mem_erase hr')
  · exact nodup_erase h
  · intro i j key hi hj hki hkj
    obtain ⟨hui, hni⟩ := huse i hi
    obtain ⟨huj, hnj⟩ := huse j hj
    rw [hpool i hni] at hki
    rw [hpool j hnj] at hkj
    exact h.unique i j key hui huj hki hkj
  · intro i key hi hkey hkept
    obtain ⟨hui, hni⟩ := huse i hi
    rw [hpool i hni] at hkey
    rcases mem_cons.mp hkept with rfl | hkept
    · exact hni (h.unique i r.nIndex _ hui (.inr ⟨r, hr, rfl⟩) hkey hrec)
    · exact h.unkept i key hui hkey hkept
  · intro key hkey
    rcases mem_cons.mp hkey with rfl | hkey
    · exact hid
    · exact h.kept_known key hkey
  · exact nodup_cons.mpr ⟨h.unkept r.nIndex _ (.inr ⟨r, hr, rfl⟩) hrec, h.kept_once⟩

theorem inv_returnKey : (w.returnKey r).Inv env := by
  have huse : ∀ i, (w.returnKey r).InUse i → w.InUse i := by
    rintro i (hset | ⟨r', hr', rfl⟩)
    · rcases Finset.mem_insert.mp hset with rfl | hset
      · exact .inr ⟨r, hr, rfl⟩
      · exact .inl hset
    · exact .inr ⟨r', mem_of_mem_erase hr', rfl⟩
  constructor
  · intro i hi
    rcases Finset.mem_insert.mp hi with rfl | hset
    · exact ⟨r.vchPubKey, h.reserved r hr⟩
    · exact h.known i hset
  · exact fun r' hr' => h.reserved r' (mem_of_mem_erase hr')
  · intro r' hr' hmem
    obtain ⟨hmem', hne⟩ := nIndex_ne_of_mem_erase h hr hr'
    rcases Finset.mem_insert.mp hmem with heq | hset
    · exact hne heq
    · exact h.apart r' hmem' hset
  · exact nodup_erase h
  · exact fun i j key hi hj => h.unique i j key (huse i hi) (huse j hj)
  · exact fun i key hi => h.unkept i key (huse i hi)
  · exact h.kept_known
  · exact h.kept_once

end Held

theorem inv_giveNewKey (h : w.Inv env) (hnew : w.NewKeys env 1) :
    Inv env { (w.generateNewKey env).2 with kept := env.key w.nGenerated :: w.kept } := by
  have hfresh : (env.key w.nGenerated).getID env.cr ∉ w.keys := (hnew 0 one_pos).1
  constructor
  · intro i hi
    obtain ⟨key, hkey, hid, hvalid⟩ := h.known i hi
    exact ⟨key, hkey, mem_cons_of_mem _ hid, hvalid⟩
  · intro r hr
    obtain ⟨hrec, hid, hvalid⟩ := h.reserved r hr
    exact ⟨hrec, mem_cons_of_mem _ hid, hvalid⟩
  · exact h.apart
  · exact h.nodup
  · exact h.unique
  · intro i key hi hkey hkept
    rcases mem_cons.mp hkept with rfl | hkept
    · obtain ⟨key, hkey', hid, _⟩ := h.exists_key hi
      have heq : some key = some (env.key w.nGenerated) := hkey'.symm.trans hkey
      exact hfresh (some.inj heq ▸ hid)
    · exact h.unkept i key hi hkey hkept
  · intro key hkey
    rcases mem_cons.mp hkey with rfl | hkey
    · exact mem_cons_self
    · exact mem_cons_of_mem _ (h.kept_known key hkey)
  · exact nodup_cons.mpr ⟨fun hmem => hfresh (h.kept_known _ hmem), h.kept_once⟩

/-! ## 7. Runs -/

section

variable (h : w.Inv env)

include h

/-- A reservation, with what it does to the pool after the top-up. -/
theorem inv_reserveKeyFromKeyPool (hclear : w.Clear (w.missing env 0))
    (hnew : w.NewKeys env (w.missing env 0 + extra)) {out : Option Reservation × KeyPool}
    (hout : w.reserveKeyFromKeyPool env = .ok out) :
    out.2.Inv env ∧ (∀ r, out.1 = some r → r ∈ out.2.outstanding) ∧
      (out.1 = none → out.2.NewKeys env extra) := by
  have htop : (if w.isLocked then w else w.topUpKeyPool env 0) = w.topUpKeyPool env 0 := by
    split
    · next hlocked => rw [topUpKeyPool, if_pos hlocked]
    · rfl
  obtain ⟨hinv, hnext⟩ := inv_topUpKeyPool h hclear hnew
  rw [reserveKeyFromKeyPool, htop] at hout
  rcases takeOldest_returns hinv.known with ⟨-, hnone⟩ | ⟨i, key, hi, hkey, hknown, hsome⟩
  · rw [hnone, Except.ok.injEq] at hout
    subst hout
    exact ⟨hinv, by simp, fun _ => hnext⟩
  · rw [hsome, Except.ok.injEq] at hout
    subst hout
    refine ⟨inv_reserve hinv hi hkey hknown, ?_, by simp⟩
    intro r hr
    exact some.inj hr ▸ mem_cons_self

theorem reserve_returns_of_inv : ∃ out, w.reserveKeyFromKeyPool env = .ok out := by
  have hknown : (if w.isLocked then w else w.topUpKeyPool env 0).Recorded env := by
    split
    · exact h.known
    · next hunlocked =>
      rw [topUpKeyPool, if_neg hunlocked]
      exact h.known.topUpLoop
  rcases takeOldest_returns hknown with ⟨-, hnone⟩ | ⟨i, key, -, -, -, hsome⟩
  · exact ⟨_, hnone⟩
  · exact ⟨_, hsome⟩

theorem getKey_returns_of_inv : ∃ w', w.getKeyFromPool env = .ok w' := by
  obtain ⟨⟨o, w'⟩, hout⟩ := reserve_returns_of_inv h
  unfold getKeyFromPool
  rw [hout]
  cases o with
  | some r => exact ⟨_, rfl⟩
  | none =>
    dsimp only
    split
    · exact ⟨_, rfl⟩
    · exact ⟨_, rfl⟩

theorem inv_getKeyFromPool {w' : KeyPool} (hclear : w.Clear (w.missing env 0))
    (hnew : w.NewKeys env (w.missing env 0 + 1)) (hw' : w.getKeyFromPool env = .ok w') :
    w'.Inv env := by
  obtain ⟨⟨o, w₁⟩, hout⟩ := reserve_returns_of_inv h
  obtain ⟨hinv, hheld, hnext⟩ := inv_reserveKeyFromKeyPool h hclear hnew hout
  unfold getKeyFromPool at hw'
  rw [hout] at hw'
  cases o with
  | some r =>
    cases hw'
    exact inv_keepKey hinv (hheld r rfl)
  | none =>
    dsimp only at hw'
    split at hw'
    · cases hw'
      exact hinv
    · cases hw'
      exact inv_giveNewKey hinv (hnext rfl)

/-- Every call that uses no reserved index keeps the invariant. -/
theorem inv_step {w' : KeyPool} {op : PoolOp} (hsafe : w.Safe env op)
    (hstep : step env w op = some w') : w'.Inv env := by
  obtain ⟨hclear, hnew⟩ := hsafe
  cases op with
  | topUp kpSize =>
    cases hstep
    have hnew : w.NewKeys env (w.missing env kpSize + 0) := hnew
    exact (inv_topUpKeyPool h hclear hnew).1
  | reserve =>
    obtain ⟨out, hout⟩ := reserve_returns_of_inv h
    simp only [step, hout, Except.toOption, map_some, some.injEq] at hstep
    subst hstep
    have hnew : w.NewKeys env (w.missing env 0 + 0) := hnew
    exact (inv_reserveKeyFromKeyPool h hclear hnew hout).1
  | keep r =>
    simp only [step] at hstep
    split at hstep
    · next hr =>
      cases hstep
      exact inv_keepKey h hr
    · cases hstep
  | giveBack r =>
    simp only [step] at hstep
    split at hstep
    · next hr =>
      cases hstep
      exact inv_returnKey h hr
    · cases hstep
  | getKey =>
    obtain ⟨w₁, hw₁⟩ := getKey_returns_of_inv h
    simp only [step, hw₁, Except.toOption, some.injEq] at hstep
    subst hstep
    exact inv_getKeyFromPool h hclear hnew hw₁
  | lock | unlock =>
    cases hstep
    exact { h with }

theorem Inv.sound : w.Sound env where
  record i hi := by
    obtain ⟨key, hkey, -⟩ := h.known i hi
    rw [hkey]
    rfl
  apart := h.apart
  kept_once := h.kept_once
  reserve_returns := reserve_returns_of_inv h
  getKey_returns := getKey_returns_of_inv h

end

variable (env w) in
/-- A wallet as it is loaded: every record is in the pool and no two have the same key. -/
structure Loaded : Prop where
  known : w.Recorded env
  unique : ∀ i ∈ w.setKeyPool, ∀ j ∈ w.setKeyPool, ∀ key,
    w.pool i = some key → w.pool j = some key → i = j
  no_outstanding : w.outstanding = []
  none_kept : w.kept = []

theorem Loaded.inv (h : w.Loaded env) : w.Inv env where
  known := h.known
  reserved := by simp [h.no_outstanding]
  apart := by simp [h.no_outstanding]
  nodup := by simp [h.no_outstanding]
  unique i j key hi hj hki hkj := by
    simp only [InUse, h.no_outstanding, not_mem_nil, false_and, exists_false, or_false] at hi hj
    exact h.unique i hi j hj key hki hkj
  unkept := by simp [h.none_kept]
  kept_known := by simp [h.none_kept]
  kept_once := by simp [h.none_kept]

/-- In every run in which no call uses an index that is reserved, the pool stays sound. -/
theorem sound_of_runs {w₀ : KeyPool} (hstart : w₀.Loaded env)
    (hrun : Runs (step env) (Safe env) w₀ w) : w.Sound env := by
  have hinv : w.Inv env :=
    hrun.invariant (Inv env) (fun _ _ _ h hsafe hstep => inv_step h hsafe hstep) hstart.inv
  exact hinv.sound

/-- Hashes that keep the number a short key encodes. -/
def countingCrypto : Crypto where
  sha256 b := BitVec.ofNat 256 (decode b)
  ripemd160 b := BitVec.ofNat 160 (decode b)
  sha1 _ := 0
  scrypt _ := 0

def countingEnv (keypoolArg : Int) : PoolEnv where
  cr := countingCrypto
  key n := ⟨2 :: encode 32 n, by simp [pubKeyLen]⟩
  isValid_key _ := rfl
  keypoolArg

theorem loaded_new (fCrypted : Bool) : Loaded env { fCrypted } :=
  ⟨by simp [Recorded], by simp, rfl, rfl⟩

/-- One of two reservations is returned, the other kept. -/
theorem sound_after_return :
    ∃ w, Runs (step (countingEnv 2)) (Safe (countingEnv 2)) {} w ∧
      (w.setKeyPool = {1, 3, 4} ∧ w.kept.length = 1) ∧ w.Sound (countingEnv 2) := by
  let ops : List PoolOp :=
    [.topUp 0, .reserve, .getKey, .giveBack ⟨1, (countingEnv 2).key 0⟩]
  have htest : (runGuarded (step (countingEnv 2)) (Safe (countingEnv 2)) {} ops).any
      (fun w => decide (w.setKeyPool = {1, 3, 4} ∧ w.kept.length = 1)) = true := by
    decide +kernel
  obtain ⟨w, hrun, hw⟩ := exists_runs_of_any htest
  exact ⟨w, hrun, of_decide_eq_true hw, sound_of_runs (loaded_new false) hrun⟩

/-! ## 8. The condition is needed -/

def throwsReadFailed {α : Type} : Except PoolError α → Bool
  | .error e => decide (e = .readFailed)
  | .ok _ => false

theorem eq_of_throwsReadFailed {α : Type} {x : Except PoolError α}
    (h : throwsReadFailed x = true) : x = .error .readFailed := by
  cases x with
  | error e => exact congrArg _ (of_decide_eq_true h)
  | ok a => cases h

def KeysNew (env : PoolEnv) (w : KeyPool) (op : PoolOp) : Prop :=
  w.NewKeys env (w.generated env op)

instance (env : PoolEnv) (w : KeyPool) (op : PoolOp) : Decidable (KeysNew env w op) :=
  inferInstanceAs (Decidable (NewKeys _ _ _))

/-- A locked pool is drained, and topped up again while the reservations are open.  The indices 1
and 2 are then in the pool and reserved at once.  If the first key is kept, the next reservation
throws; if it is returned, another key goes to two callers that both keep it. -/
theorem drained_pool_throws :
    Loaded (countingEnv 1) { fCrypted := true } ∧
      (∃ w, Runs (step (countingEnv 1)) (KeysNew (countingEnv 1)) { fCrypted := true } w ∧
        ∃ r ∈ w.outstanding, r.nIndex ∈ w.setKeyPool) ∧
      (∃ w, Runs (step (countingEnv 1)) (KeysNew (countingEnv 1)) { fCrypted := true } w ∧
        w.reserveKeyFromKeyPool (countingEnv 1) = .error .readFailed) ∧
      ∃ w, Runs (step (countingEnv 1)) (KeysNew (countingEnv 1)) { fCrypted := true } w ∧
        ¬ w.kept.Nodup := by
  let run (ops : List PoolOp) : Option KeyPool :=
    runGuarded (step (countingEnv 1)) (KeysNew (countingEnv 1)) { fCrypted := true }
      ([.topUp 0, .lock, .reserve, .reserve, .unlock] ++ ops)
  have hshared : (run [.topUp 0]).any
      (fun w => decide (∃ r ∈ w.outstanding, r.nIndex ∈ w.setKeyPool)) = true := by
    decide +kernel
  have hthrows : (run [.topUp 0, .keep ⟨1, (countingEnv 1).key 0⟩]).any
      (fun w => throwsReadFailed (w.reserveKeyFromKeyPool (countingEnv 1))) = true := by
    decide +kernel
  have htwice : (run [.reserve, .giveBack ⟨1, (countingEnv 1).key 0⟩, .reserve,
      .keep ⟨1, (countingEnv 1).key 2⟩, .keep ⟨1, (countingEnv 1).key 2⟩]).any
      (fun w => decide (¬ w.kept.Nodup)) = true := by
    decide +kernel
  obtain ⟨w, hw, hp⟩ := exists_runs_of_any hshared
  obtain ⟨w', hw', hp'⟩ := exists_runs_of_any hthrows
  obtain ⟨w'', hw'', hp''⟩ := exists_runs_of_any htwice
  exact ⟨loaded_new true, ⟨w, hw, of_decide_eq_true hp⟩,
    ⟨w', hw', eq_of_throwsReadFailed hp'⟩, w'', hw'', of_decide_eq_true hp''⟩

end KeyPool

end RgmNode
