import RgmNode.Lib.Transition
import RgmNode.Lib.WriteBack
import RgmNode.Validation.CoinsDB

/-!
# Coin caches

`CCoinsViewCache` with its modifiers (`coins.cpp`): caches of coins one above the other, the
lowest above the database.  An entry is DIRTY if it may differ from what the parent has, and
FRESH if the parent has nothing for the transaction or only pruned coins.  The memory a cache
uses is left out.

1. the code: reading, `ModifyCoins`, `ModifyNewCoins`, `BatchWrite`, `Flush`, `Uncache`
2. one map from transactions to coins, in which pruned coins are absent
3. the stack of caches, seen from the top, is that map

The map is followed only as far as coins come back from their records, and as far as an edit
of coins that are pruned does not read the height, the version and the coinbase flag that the
pruned entry still has: such an entry is kept or forgotten, as its marks allow.
-/

namespace RgmNode

open WriteBack Transition AList CCoins Function

/-! ## 1. Caches -/

/-- `CCoinsCacheEntry`: the coins, and the flags DIRTY and FRESH -/
abbrev CCoinsCacheEntry := WriteBack.Entry CCoins

abbrev CCoinsMap := AList fun _ : Uint256 => CCoinsCacheEntry

structure CCoinsViewCache where
  cacheCoins : CCoinsMap
  hashBlock : Uint256

namespace CCoinsViewCache

def empty : CCoinsViewCache := ⟨∅, 0⟩

/-- `~CCoinsModifier`: a fresh entry that is pruned is dropped -/
def release (cache : CCoinsViewCache) (txid : Uint256) (it : CCoinsCacheEntry) : CCoinsViewCache :=
  let coins := it.val.cleanup
  if it.fresh && coins.isPruned then { cache with cacheCoins := cache.cacheCoins.erase txid }
  else { cache with cacheCoins := cache.cacheCoins.insert txid { it with val := coins } }

/-- `ModifyNewCoins`, with the coins its caller leaves behind; `none` where it throws -/
def modifyNewCoins (cache : CCoinsViewCache) (txid : Uint256) (coinbase : Bool) (coins : CCoins) :
    Option CCoinsViewCache :=
  let ret := (cache.cacheCoins.lookup txid).getD ⟨.cleared, false, false⟩
  if !coinbase && !ret.val.isPruned then none
  else
    let fresh := ret.fresh || (!coinbase && !ret.dirty)
    some (cache.release txid ⟨coins, true, fresh⟩)

/-- One round of `BatchWrite`; `none` where it throws because the FRESH flag is misapplied -/
def batchWriteEntry (cacheCoins : CCoinsMap) (it : Σ _ : Uint256, CCoinsCacheEntry) :
    Option CCoinsMap :=
  if it.2.dirty then
    match cacheCoins.lookup it.1 with
    | none =>
      if it.2.fresh && it.2.val.isPruned then some cacheCoins
      else some (cacheCoins.insert it.1 ⟨it.2.val, true, it.2.fresh⟩)
    | some itUs =>
      if it.2.fresh && !itUs.val.isPruned then none
      else if itUs.fresh && it.2.val.isPruned then some (cacheCoins.erase it.1)
      else some (cacheCoins.insert it.1 ⟨it.2.val, true, itUs.fresh⟩)
  else some cacheCoins

def batchWrite (cache : CCoinsViewCache) (mapCoins : CCoinsMap) (hashBlock : Uint256) :
    Option CCoinsViewCache :=
  (mapCoins.entries.foldlM batchWriteEntry cache.cacheCoins).map fun cacheCoins =>
    ⟨cacheCoins, hashBlock⟩

/-- `Uncache`: only an entry without flags is dropped -/
def uncache (cache : CCoinsViewCache) (txid : Uint256) : CCoinsViewCache :=
  match cache.cacheCoins.lookup txid with
  | none => cache
  | some it =>
    if it.dirty || it.fresh then cache
    else { cache with cacheCoins := cache.cacheCoins.erase txid }

end CCoinsViewCache

/-- `CCoinsViewDB::BatchWrite`, one record of the batch -/
def CCoinsViewDB.batchWriteEntry (ops : PubKeyOps) (records : AList fun _ : Uint256 => Bytes)
    (it : Σ _ : Uint256, CCoinsCacheEntry) : AList fun _ : Uint256 => Bytes :=
  if it.2.dirty then
    if it.2.val.isPruned then records.erase it.1
    else records.insert it.1 (it.2.val.serialize ops)
  else records

def CCoinsViewDB.batchWrite (ops : PubKeyOps) (db : CCoinsViewDB) (mapCoins : CCoinsMap)
    (hashBlock : Uint256) : CCoinsViewDB where
  records := mapCoins.entries.foldl (batchWriteEntry ops) db.records
  hashBestChain := if hashBlock = 0 then db.hashBestChain else hashBlock

/-! ## 2. Stacks of caches -/

/-- Caches above the database, the top one first. -/
structure CoinsStack where
  caches : List CCoinsViewCache
  db : CCoinsViewDB

/-- `GetCoins` and `FetchCoins`: the coins, and the caches, which all keep a copy of what they
are asked for. -/
def fetchCoins (ops : PubKeyOps) (db : CCoinsViewDB) (txid : Uint256) :
    List CCoinsViewCache → Option CCoins × List CCoinsViewCache
  | [] => (db.getCoins ops txid, [])
  | cache :: base =>
    match cache.cacheCoins.lookup txid with
    | some it => (some it.val, cache :: base)
    | none =>
      match fetchCoins ops db txid base with
      | (none, base) => (none, cache :: base)
      | (some tmp, base) =>
        (some tmp, { cache with
          cacheCoins := cache.cacheCoins.insert txid ⟨tmp, false, tmp.isPruned⟩ } :: base)

/-- The entry `ModifyCoins` hands out, and the caches below. -/
def entryToModify (ops : PubKeyOps) (db : CCoinsViewDB) (txid : Uint256) (cache : CCoinsViewCache)
    (base : List CCoinsViewCache) : CCoinsCacheEntry × List CCoinsViewCache :=
  match cache.cacheCoins.lookup txid with
  | some it => (it, base)
  | none =>
    match fetchCoins ops db txid base with
    | (none, base) => (⟨.cleared, false, true⟩, base)
    | (some coins, base) => (⟨coins, false, coins.isPruned⟩, base)

/-- `ModifyCoins`, with what its caller does to the coins -/
def modifyCoins (ops : PubKeyOps) (db : CCoinsViewDB) (txid : Uint256) (edit : CCoins → CCoins)
    (cache : CCoinsViewCache) (base : List CCoinsViewCache) : List CCoinsViewCache :=
  let (it, base) := entryToModify ops db txid cache base
  cache.release txid { it with val := edit it.val, dirty := true } :: base

/-- `Flush` of the cache at a level; there is nothing to do at a level without a cache. -/
def flushLevel (ops : PubKeyOps) : Nat → List CCoinsViewCache → CCoinsViewDB → Option CoinsStack
  | _, [], db => some ⟨[], db⟩
  | 0, [cache], db =>
    some ⟨[{ cache with cacheCoins := ∅ }], db.batchWrite ops cache.cacheCoins cache.hashBlock⟩
  | 0, cache :: base :: below, db =>
    (base.batchWrite cache.cacheCoins cache.hashBlock).map fun base =>
      ⟨{ cache with cacheCoins := ∅ } :: base :: below, db⟩
  | level + 1, cache :: below, db =>
    (flushLevel ops level below db).map fun s => ⟨cache :: s.caches, s.db⟩

/-- What is called on the caches: through the top one, or at a level (0 is the top). -/
inductive CacheCall where
  | read (txid : Uint256)
  | modify (txid : Uint256) (edit : CCoins → CCoins)
  | insert (txid : Uint256) (coinbase : Bool) (coins : CCoins)
  | uncache (level : Nat) (txid : Uint256)
  | flush (level : Nat)

namespace CoinsStack

/-- `GetCoins` through the top cache -/
def getCoins (ops : PubKeyOps) (s : CoinsStack) (txid : Uint256) : Option CCoins :=
  (fetchCoins ops s.db txid s.caches).1

/-- `HaveCoins` through the top cache -/
def haveCoins (ops : PubKeyOps) (s : CoinsStack) (txid : Uint256) : Bool :=
  (s.getCoins ops txid).any fun coins => !coins.vout.isEmpty

/-- One call; `none` where it throws. -/
def step (ops : PubKeyOps) (s : CoinsStack) : CacheCall → Option CoinsStack
  | .read txid => some { s with caches := (fetchCoins ops s.db txid s.caches).2 }
  | .modify txid edit =>
    match s.caches with
    | [] => some s
    | cache :: base => some { s with caches := modifyCoins ops s.db txid edit cache base }
  | .insert txid coinbase coins =>
    match s.caches with
    | [] => some s
    | cache :: base =>
      (cache.modifyNewCoins txid coinbase coins).map fun cache => { s with caches := cache :: base }
  | .uncache level txid =>
    some { s with caches := s.caches.modify level fun cache => cache.uncache txid }
  | .flush level => flushLevel ops level s.caches s.db

end CoinsStack

/-! ## 3. One map -/

/-- Pruned coins count as absent. -/
abbrev unspent (coins : Option CCoins) : Option CCoins := present CCoins.isPruned coins

abbrev CoinsOf := Uint256 → Option CCoins

namespace CoinsOf

/-- The coins an edit is made on: where there are none, cleared ones. -/
def edited (m : CoinsOf) (txid : Uint256) (edit : CCoins → CCoins) : CCoins :=
  (edit ((m txid).getD .cleared)).cleanup

def step (m : CoinsOf) : CacheCall → CoinsOf
  | .modify txid edit => Function.update m txid (unspent (some (m.edited txid edit)))
  | .insert txid _ coins => Function.update m txid (unspent (some coins.cleanup))
  | _ => m

end CoinsOf

/-! ## 4. The flags are right -/

section Invariant

variable (ops : PubKeyOps) (db : CCoinsViewDB)

/-- The coins seen through caches, pruned ones left out. -/
def seenThrough : List CCoinsViewCache → CoinsOf
  | [] => fun txid => unspent (db.getCoins ops txid)
  | cache :: base => fun txid =>
    seen CCoins.isPruned (seenThrough base txid) (cache.cacheCoins.lookup txid)

/-- An entry whose flags are right about the parent, and whose coins have been cleaned up and
can be written if they are to be. -/
structure EntryOk (parent : Option CCoins) (it : CCoinsCacheEntry) : Prop
    extends Coherent CCoins.isPruned parent it where
  cleaned : it.val.isPruned = true → it.val.vout = []
  storable : it.dirty = true → it.val.isPruned = true ∨ it.val.Storable ops

/-- The entries of every cache are right about the caches below. -/
def CachesOk : List CCoinsViewCache → Prop
  | [] => True
  | cache :: base => CachesOk base ∧ ∀ txid it, cache.cacheCoins.lookup txid = some it →
    EntryOk ops (seenThrough ops db base txid) it

/-- Caches with right flags show a map. -/
structure Shows (caches : List CCoinsViewCache) (m : CoinsOf) : Prop where
  ok : CachesOk ops db caches
  same : seenThrough ops db caches = m

end Invariant

section Caches

variable {ops : PubKeyOps} {db : CCoinsViewDB} {txid : Uint256}

variable {cache : CCoinsViewCache} {base caches : List CCoinsViewCache} {s : CoinsStack × CoinsOf}
  {m : CoinsOf}

theorem seenThrough_of_some {it : CCoinsCacheEntry} (h : cache.cacheCoins.lookup txid = some it) :
    seenThrough ops db (cache :: base) txid = unspent (some it.val) := by
  simp only [seenThrough, h]
  rfl

theorem seenThrough_of_none (h : cache.cacheCoins.lookup txid = none) :
    seenThrough ops db (cache :: base) txid = seenThrough ops db base txid := by
  simp only [seenThrough, h]
  rfl

/-- The caches below change, and show what they showed. -/
theorem Shows.of_base {db' : CCoinsViewDB} {base' : List CCoinsViewCache}
    (h : Shows ops db (cache :: base) m) (hbase : Shows ops db' base' (seenThrough ops db base)) :
    Shows ops db' (cache :: base') m := by
  refine ⟨⟨hbase.ok, fun k it hit => ?_⟩, ?_⟩
  · rw [hbase.same]
    exact h.ok.2 k it hit
  · rw [← h.same]
    simp only [seenThrough, hbase.same]

theorem Shows.of_lookup {cacheCoins : CCoinsMap} {shown : Option CCoins}
    (h : Shows ops db (cache :: base) m)
    (hother : ∀ k, k ≠ txid → cacheCoins.lookup k = cache.cacheCoins.lookup k)
    (hentry : ∀ it, cacheCoins.lookup txid = some it →
      EntryOk ops (seenThrough ops db base txid) it)
    (hshown : seen CCoins.isPruned (seenThrough ops db base txid) (cacheCoins.lookup txid) = shown) :
    Shows ops db ({ cache with cacheCoins } :: base) (update m txid shown) := by
  refine ⟨⟨h.ok.1, fun k it hit => ?_⟩, funext fun k => ?_⟩
  · by_cases hk : k = txid
    · subst hk
      exact hentry it hit
    · exact h.ok.2 k it ((hother k hk).symm.trans hit)
  · by_cases hk : k = txid
    · rw [hk, update_self]
      exact hshown
    · rw [← h.same, update_of_ne hk]
      simp only [seenThrough, hother k hk]

theorem Shows.insert {it : CCoinsCacheEntry} (h : Shows ops db (cache :: base) m)
    (hentry : EntryOk ops (seenThrough ops db base txid) it) :
    Shows ops db ({ cache with cacheCoins := cache.cacheCoins.insert txid it } :: base)
      (update m txid (unspent (some it.val))) := by
  refine h.of_lookup (fun k hk => lookup_insert_ne hk) (fun it' hit' => ?_)
    (by rw [lookup_insert]; rfl)
  rw [lookup_insert] at hit'
  cases hit'
  exact hentry

theorem Shows.erase (txid : Uint256) (h : Shows ops db (cache :: base) m) :
    Shows ops db ({ cache with cacheCoins := cache.cacheCoins.erase txid } :: base)
      (update m txid (seenThrough ops db base txid)) := by
  refine h.of_lookup (fun k hk => lookup_erase_ne hk) (fun it' hit' => ?_)
    (by rw [lookup_erase]; rfl)
  rw [lookup_erase] at hit'
  cases hit'

/-- What a read leaves behind: the caches show what they showed, and it returned that. -/
structure Fetched (ops : PubKeyOps) (db : CCoinsViewDB) (txid : Uint256)
    (caches : List CCoinsViewCache) (r : Option CCoins × List CCoinsViewCache) : Prop where
  value : unspent r.1 = seenThrough ops db caches txid
  cleaned : ∀ c, r.1 = some c → c.isPruned = true → c.vout = []
  shows : Shows ops db r.2 (seenThrough ops db caches)
  length : r.2.length = caches.length

theorem fetched_fetchCoins (txid : Uint256) (h : CachesOk ops db caches) :
    Fetched ops db txid caches (fetchCoins ops db txid caches) := by
  induction caches with
  | nil => exact ⟨rfl, fun c hc => CCoinsViewDB.vout_of_isPruned hc, ⟨trivial, rfl⟩, rfl⟩
  | cons cache base ih =>
    have hbase := ih h.1
    rw [fetchCoins]
    cases hlook : cache.cacheCoins.lookup txid with
    | some it =>
      refine ⟨(seenThrough_of_some hlook).symm, fun c hc => ?_, ⟨h, rfl⟩, rfl⟩
      cases hc
      exact (h.2 txid it hlook).cleaned
    | none =>
      generalize fetchCoins ops db txid base = r at hbase ⊢
      obtain ⟨tmp, base'⟩ := r
      have hsee : seenThrough ops db (cache :: base) txid = _ := seenThrough_of_none hlook
      have hshows := Shows.of_base ⟨h, rfl⟩ hbase.shows
      cases tmp with
      | none =>
        exact ⟨hbase.value.trans hsee.symm, (nofun), hshows, congrArg (· + 1) hbase.length⟩
      | some tmp =>
        have hvalue : unspent (some tmp) = seenThrough ops db base txid := hbase.value
        have hentry : EntryOk ops (seenThrough ops db base' txid) ⟨tmp, false, tmp.isPruned⟩ := by
          rw [hbase.shows.same, ← hvalue]
          exact ⟨⟨fun _ => rfl, fun hpruned => present_of_gone hpruned⟩, hbase.cleaned tmp rfl,
            (nofun)⟩
        obtain ⟨hok, hsame⟩ := hshows.insert hentry
        exact ⟨hvalue.trans hsee.symm, hbase.cleaned,
          ⟨hok, hsame.trans (update_eq_self_iff.mpr (hvalue.trans hsee.symm))⟩,
          congrArg (· + 1) hbase.length⟩

/-! ## 5. Edits -/

open CCoinsViewCache

/-- What a modifier leaves behind is what is seen. -/
theorem shows_release (it : CCoinsCacheEntry) (h : Shows ops db (cache :: base) m)
    (hdirty : it.dirty = true) (hfresh : it.fresh = true → seenThrough ops db base txid = none)
    (hstore : it.val.cleanup.isPruned = true ∨ it.val.cleanup.Storable ops) :
    Shows ops db (cache.release txid it :: base)
      (update m txid (unspent (some it.val.cleanup))) := by
  unfold release
  by_cases hdrop : (it.fresh && it.val.cleanup.isPruned) = true
  · obtain ⟨hf, hpruned⟩ := Bool.and_eq_true_iff.mp hdrop
    simp only [hdrop, if_true]
    rw [unspent, present_of_gone hpruned, ← hfresh hf]
    exact h.erase txid
  · simp only [hdrop, Bool.false_eq_true, if_false]
    refine h.insert ⟨⟨fun hclean => ?_, hfresh⟩, vout_cleanup_of_isPruned, fun _ => hstore⟩
    exact absurd (hdirty.symm.trans hclean) (by decide)

/-- The entry `ModifyCoins` hands out holds the coins that are seen, and is fresh only if there
are none below. -/
theorem entryToModify_ok (txid : Uint256) (h : CachesOk ops db (cache :: base)) :
    let r := entryToModify ops db txid cache base
    unspent (some r.1.val) = seenThrough ops db (cache :: base) txid ∧
      (r.1.val.isPruned = true → r.1.val.vout = []) ∧
      (r.1.fresh = true → seenThrough ops db base txid = none) ∧
      Shows ops db r.2 (seenThrough ops db base) := by
  unfold entryToModify
  cases hlook : cache.cacheCoins.lookup txid with
  | some it =>
    have hit := h.2 txid it hlook
    exact ⟨(seenThrough_of_some hlook).symm, hit.cleaned, hit.fresh, h.1, rfl⟩
  | none =>
    have hbase := fetched_fetchCoins txid h.1
    generalize fetchCoins ops db txid base = r at hbase ⊢
    obtain ⟨tmp, base'⟩ := r
    rw [seenThrough_of_none hlook]
    cases tmp with
    | none =>
      have hnone : seenThrough ops db base txid = none := hbase.value.symm
      exact ⟨hnone.symm, fun _ => rfl, fun _ => hnone, hbase.shows⟩
    | some tmp =>
      have hvalue : unspent (some tmp) = seenThrough ops db base txid := hbase.value
      refine ⟨hvalue, hbase.cleaned tmp rfl, fun hpruned => ?_, hbase.shows⟩
      rw [← hvalue]
      exact present_of_gone hpruned

theorem storable_congr {c c' : CCoins} (h : unspent (some c) = unspent (some c'))
    (hstore : c'.isPruned = true ∨ c'.Storable ops) : c.isPruned = true ∨ c.Storable ops := by
  cases hpruned : c.isPruned with
  | true => exact Or.inl rfl
  | false =>
    rw [unspent, present_of_not_gone hpruned] at h
    cases eq_of_present h.symm
    rcases hstore with hstore | hstore
    · rw [hpruned] at hstore
      cases hstore
    · exact Or.inr hstore

/-- An edit of pruned coins does not depend on what else the pruned entry still holds. -/
def IgnoresPruned (edit : CCoins → CCoins) : Prop :=
  ∀ c : CCoins, c.vout = [] → unspent (some (edit c).cleanup) = unspent (some (edit .cleared).cleanup)

section

variable (h : Shows ops db (cache :: base) m)

include h

theorem modifyCoins_ok {edit : CCoins → CCoins} (hedit : m txid = none → IgnoresPruned edit)
    (hstore : (m.edited txid edit).isPruned = true ∨ (m.edited txid edit).Storable ops) :
    Shows ops db (modifyCoins ops db txid edit cache base) (m.step (.modify txid edit)) := by
  obtain ⟨hvalue, hcleaned, hfresh, hbase⟩ := entryToModify_ok txid h.ok
  unfold modifyCoins
  generalize entryToModify ops db txid cache base = r at hvalue hcleaned hfresh hbase ⊢
  obtain ⟨it, base'⟩ := r
  rw [h.same] at hvalue
  -- the edit is made on the coins of the map, or on pruned ones
  have hresult : unspent (some (edit it.val).cleanup) = unspent (some (m.edited txid edit)) := by
    unfold CoinsOf.edited
    cases hmt : m txid with
    | some c =>
      cases eq_of_present (hvalue.trans hmt)
      rfl
    | none =>
      have hpruned : it.val.isPruned = true := gone_of_present (hvalue.trans hmt)
      exact hedit hmt it.val (hcleaned hpruned)
  rw [CoinsOf.step, ← hresult]
  exact shows_release { it with val := edit it.val, dirty := true } (h.of_base hbase) rfl
    (fun hf => (congrFun hbase.same txid).trans (hfresh hf)) (storable_congr hresult hstore)

/-- Where a transaction has no unspent outputs, or is a coinbase, its coins are inserted. -/
theorem modifyNewCoins_ok {coinbase : Bool} {coins : CCoins}
    (hnew : coinbase = true ∨ m txid = none)
    (hstore : coins.cleanup.isPruned = true ∨ coins.cleanup.Storable ops) :
    ∃ cache', cache.modifyNewCoins txid coinbase coins = some cache' ∧
      Shows ops db (cache' :: base) (m.step (.insert txid coinbase coins)) := by
  have hseen : m txid = seen isPruned (seenThrough ops db base txid)
      (cache.cacheCoins.lookup txid) := (congrFun h.same txid).symm
  unfold modifyNewCoins
  generalize hret : (cache.cacheCoins.lookup txid).getD ⟨.cleared, false, false⟩ = ret
  -- the entry there is or a new one: pruned unless the transaction has unspent outputs
  have hpruned : coinbase = false → ret.val.isPruned = true := by
    intro hcb
    have hnone : m txid = none := hnew.resolve_left (by rw [hcb]; decide)
    cases hlook : cache.cacheCoins.lookup txid with
    | none =>
      rw [hlook] at hret
      rw [← hret]
      rfl
    | some it =>
      rw [hlook] at hret hseen
      rw [← hret]
      exact gone_of_present (hseen.symm.trans hnone)
  have hfresh : (ret.fresh || (!coinbase && !ret.dirty)) = true →
      seenThrough ops db base txid = none := by
    intro hf
    cases hlook : cache.cacheCoins.lookup txid with
    | none =>
      rw [hlook] at hret hseen
      rw [← hret] at hf
      have hcb : coinbase = false := by simpa using hf
      exact hseen.symm.trans (hnew.resolve_left (by rw [hcb]; decide))
    | some it =>
      have hit := h.ok.2 txid it hlook
      rw [hlook] at hret hseen
      obtain rfl : it = ret := hret
      rcases Bool.or_eq_true_iff.mp hf with hf | hf
      · exact hit.fresh hf
      · obtain ⟨hcb, hclean⟩ := Bool.and_eq_true_iff.mp hf
        have hnone : m txid = none := hnew.resolve_left (by simpa using hcb)
        have hcl := hit.clean (by simpa using hclean)
        rw [← hcl]
        exact hseen.symm.trans hnone
  have hgo : (!coinbase && !ret.val.isPruned) = false := by
    cases hcb : coinbase with
    | true => rfl
    | false => simp [hpruned hcb]
  simp only [hgo, Bool.false_eq_true, if_false]
  exact ⟨_, rfl, shows_release ⟨coins, true, _⟩ h rfl hfresh hstore⟩

end

/-! ## 6. Uncaching and flushing -/

/-- An entry without flags holds what is seen below. -/
theorem shows_uncache (level : Nat) (h : Shows ops db caches m) :
    Shows ops db (caches.modify level fun cache => cache.uncache txid) m := by
  induction caches generalizing level m with
  | nil => simpa using h
  | cons cache base ih =>
    cases level with
    | succ level => exact h.of_base (ih level ⟨h.ok.1, rfl⟩)
    | zero =>
      rw [List.modify_zero_cons, uncache]
      cases hlook : cache.cacheCoins.lookup txid with
      | none => exact h
      | some it =>
        dsimp only
        split
        · exact h
        · next hflags =>
          have hclean : it.dirty = false := by
            cases hd : it.dirty with
            | true => rw [hd] at hflags; exact absurd rfl hflags
            | false => rfl
          obtain ⟨hok, hseen⟩ := h.erase txid
          refine ⟨hok, hseen.trans (update_eq_self_iff.mpr ?_)⟩
          rw [← (h.ok.2 txid it hlook).clean hclean, ← h.same]
          exact (seenThrough_of_some hlook).symm

/-- A round of `BatchWrite` writes the child's entry to the parent's, and touches no other. -/
theorem acts_batchWriteEntry :
    Acts batchWriteEntry (merge isPruned) := by
  intro m k it m' h
  unfold batchWriteEntry at h
  unfold merge
  split at h
  · next hdirty =>
    have hd : it.dirty = true := hdirty
    rw [if_pos hd]
    cases hlook : m.lookup k with
    | none =>
      simp only [hlook] at h ⊢
      split at h
      · next hdrop =>
        cases h
        exact ⟨by rw [hlook, if_pos hdrop], fun k' _ => rfl⟩
      · next hkeep =>
        cases h
        exact ⟨by rw [lookup_insert, if_neg hkeep], fun k' hk' => lookup_insert_ne hk'⟩
    | some itUs =>
      simp only [hlook] at h ⊢
      split at h
      · cases h
      split at h
      · next hdrop =>
        cases h
        exact ⟨by rw [lookup_erase, if_pos hdrop], fun k' hk' => lookup_erase_ne hk'⟩
      · next hkeep =>
        cases h
        exact ⟨by rw [lookup_insert, if_neg hkeep], fun k' hk' => lookup_insert_ne hk'⟩
  · next hclean =>
    cases h
    exact ⟨by rw [if_neg hclean], fun k' _ => rfl⟩

theorem batchWriteEntry_isSome {m : CCoinsMap} {k : Uint256} {it : CCoinsCacheEntry}
    (h : misapplied isPruned (m.lookup k) it = false) :
    (batchWriteEntry m ⟨k, it⟩).isSome = true := by
  unfold batchWriteEntry
  split
  · next hdirty =>
    have hd : it.dirty = true := hdirty
    cases hlook : m.lookup k with
    | none =>
      dsimp only
      split <;> rfl
    | some itUs =>
      dsimp only
      split
      · next hbad =>
        simp only [misapplied, hlook, hd, Bool.true_and, Option.any_some] at h
        rw [h] at hbad
        cases hbad
      · split <;> rfl
  · rfl

/-- The entry after a merge is one that was there, or the dirty one of the child. -/
theorem merge_cases {us : Option CCoinsCacheEntry} {it u : CCoinsCacheEntry}
    (h : merge isPruned us it = some u) :
    us = some u ∨ it.dirty = true ∧ u.val = it.val := by
  unfold merge at h
  split at h
  · next hd =>
    cases us with
    | none | some _ =>
      dsimp only at h
      split at h
      · cases h
      · cases h
        exact Or.inr ⟨hd, rfl⟩
  · exact Or.inl h

/-- `BatchWrite` does not throw, and what was seen through the child is seen in the parent. -/
theorem batchWrite_ok {base : CCoinsViewCache} {below : List CCoinsViewCache} (hashBlock : Uint256)
    (h : CachesOk ops db (cache :: base :: below)) :
    ∃ base', base.batchWrite cache.cacheCoins hashBlock = some base' ∧
      Shows ops db (base' :: below) (seenThrough ops db (cache :: base :: below)) := by
  obtain ⟨⟨hbelow, hus⟩, hthem⟩ := h
  obtain ⟨m', hfold, hall⟩ := foldlM_acts acts_batchWriteEntry
    (P := fun us it => misapplied isPruned us it = false)
    (fun m k it => batchWriteEntry_isSome) base.cacheCoins cache.cacheCoins
    (fun k it hit => misapplied_eq_false (hthem k it hit).toCoherent)
  have husC : ∀ k u, base.cacheCoins.lookup k = some u →
      Coherent isPruned (seenThrough ops db below k) u := fun k u hu =>
    (hus k u hu).toCoherent
  refine ⟨⟨m', hashBlock⟩, by rw [batchWrite, hfold]; rfl, ⟨hbelow, ?_⟩, ?_⟩
  · intro k u hu
    have hk : m'.lookup k = some u := hu
    rw [hall k] at hk
    cases hlook : cache.cacheCoins.lookup k with
    | none =>
      rw [hlook] at hk
      exact hus k u hk
    | some it =>
      rw [hlook] at hk
      have hit := hthem k it hlook
      refine ⟨coherent_merge (husC k) hit.toCoherent hk, ?_, ?_⟩
      · rcases merge_cases hk with hold | ⟨-, hval⟩
        · exact (hus k u hold).cleaned
        · rw [hval]
          exact hit.cleaned
      · rcases merge_cases hk with hold | ⟨hd, hval⟩
        · exact (hus k u hold).storable
        · rw [hval]
          exact fun _ => hit.storable hd
  · funext k
    have hm' : seenThrough ops db (⟨m', hashBlock⟩ :: below) k =
        seen isPruned (seenThrough ops db below k) (m'.lookup k) := rfl
    rw [hm', hall k]
    cases hlook : cache.cacheCoins.lookup k with
    | none =>
      rw [seenThrough_of_none hlook]
      rfl
    | some it =>
      rw [seenThrough_of_some hlook]
      exact seen_merge (husC k) (hthem k it hlook).toCoherent

/-- The record that stands under a transaction after a round of `BatchWrite`. -/
def recordAfter (ops : PubKeyOps) (record : Option Bytes) (it : CCoinsCacheEntry) : Option Bytes :=
  if it.dirty then if it.val.isPruned then none else some (it.val.serialize ops) else record

theorem acts_dbBatchWriteEntry :
    Acts (fun records it => some (CCoinsViewDB.batchWriteEntry ops records it))
      (recordAfter ops) := by
  intro m k it m' h
  cases h
  unfold CCoinsViewDB.batchWriteEntry recordAfter
  split
  · split
    · exact ⟨lookup_erase _ _, fun k' hk' => lookup_erase_ne hk'⟩
    · exact ⟨lookup_insert _, fun k' hk' => lookup_insert_ne hk'⟩
  · exact ⟨rfl, fun k' _ => rfl⟩

theorem lookup_dbBatchWrite (mapCoins : CCoinsMap) (hashBlock : Uint256) (k : Uint256) :
    (db.batchWrite ops mapCoins hashBlock).records.lookup k =
      (mapCoins.lookup k).elim (db.records.lookup k) (recordAfter ops (db.records.lookup k)) := by
  obtain ⟨m', hfold, hall⟩ := foldlM_acts acts_dbBatchWriteEntry (P := fun _ _ => True)
    (fun m k it _ => rfl) db.records mapCoins (fun _ _ _ => trivial)
  rw [← hall k]
  have hpure : mapCoins.entries.foldlM
      (fun records it => some (CCoinsViewDB.batchWriteEntry ops records it)) db.records =
      some (mapCoins.entries.foldl (CCoinsViewDB.batchWriteEntry ops) db.records) :=
    List.foldlM_pure
  obtain rfl := Option.some.inj (hpure.symm.trans hfold)
  rfl

/-- What was seen through the lowest cache is in the database once it is flushed. -/
theorem dbBatchWrite_ok (hashBlock : Uint256) (h : CachesOk ops db [cache]) :
    seenThrough ops (db.batchWrite ops cache.cacheCoins hashBlock) [] =
      seenThrough ops db [cache] := by
  funext k
  simp only [seenThrough, CCoinsViewDB.getCoins, lookup_dbBatchWrite]
  cases hlook : cache.cacheCoins.lookup k with
  | none => rfl
  | some it =>
    have hit := h.2 k it hlook
    have hsee : seen isPruned
        (unspent ((AList.lookup k db.records).bind (readBack ops))) (some it) =
        unspent (some it.val) := rfl
    rw [hsee]
    simp only [Option.elim_some, recordAfter]
    split
    · next hd =>
      split
      · next hpruned => exact (present_of_gone hpruned).symm
      · next hthere =>
        have hstore : it.val.Storable ops := (hit.storable hd).resolve_left hthere
        rw [Option.bind_some, hstore]
    · next hclean => exact (hit.clean (eq_false_of_ne_true hclean)).symm

/-- `Flush` does not throw, and changes nothing that is seen at the top. -/
theorem flushLevel_ok (level : Nat) (h : Shows ops db caches m) :
    ∃ s, flushLevel ops level caches db = some s ∧ Shows ops s.db s.caches m ∧
      s.caches.length = caches.length := by
  induction caches generalizing level m with
  | nil => exact ⟨⟨[], db⟩, by cases level <;> rfl, h, rfl⟩
  | cons cache base ih =>
    cases level with
    | succ level =>
      obtain ⟨s, hflush, hshows, hlen⟩ := ih level ⟨h.ok.1, rfl⟩
      exact ⟨⟨cache :: s.caches, s.db⟩, by rw [flushLevel, hflush]; rfl, h.of_base hshows,
        congrArg (· + 1) hlen⟩
    | zero =>
      -- the cache is empty afterwards, and its parent shows what it showed
      cases base with
      | nil =>
        refine ⟨_, rfl, ⟨⟨trivial, fun k it hit => ?_⟩, ?_⟩, rfl⟩
        · cases hit
        · exact (dbBatchWrite_ok cache.hashBlock h.ok).trans h.same
      | cons base below =>
        obtain ⟨base', hwrite, hok, hsame⟩ := batchWrite_ok cache.hashBlock h.ok
        refine ⟨⟨{ cache with cacheCoins := ∅ } :: base' :: below, db⟩, ?_,
          ⟨⟨hok, fun k it hit => ?_⟩, hsame.trans h.same⟩, rfl⟩
        · rw [flushLevel, hwrite]
          rfl
        · cases hit

/-! ## 7. Runs -/

/-- The caches and the map, with the same call made on both. -/
def bothStep (ops : PubKeyOps) (s : CoinsStack × CoinsOf) (call : CacheCall) :
    Option (CoinsStack × CoinsOf) :=
  (s.1.step ops call).map fun stack => (stack, s.2.step call)

def freshStack (ops : PubKeyOps) (depth : Nat) (db : CCoinsViewDB) : CoinsStack × CoinsOf :=
  (⟨List.replicate depth .empty, db⟩, fun txid => unspent (db.getCoins ops txid))

/-- The coins can be written to the database if they are not pruned. -/
def Keeps (ops : PubKeyOps) (coins : CCoins) : Prop :=
  coins.isPruned = true ∨ coins.Storable ops

/-- The calls that are followed: coins are inserted only where a transaction has no unspent
outputs or is a coinbase, what is left behind can be written, and an edit of pruned coins does
not read what they still hold. -/
def Allowed (ops : PubKeyOps) (s : CoinsStack × CoinsOf) : CacheCall → Prop
  | .modify txid edit =>
    (s.2 txid = none → IgnoresPruned edit) ∧ Keeps ops (s.2.edited txid edit)
  | .insert txid coinbase coins =>
    (coinbase = true ∨ s.2 txid = none) ∧ Keeps ops coins.cleanup
  | _ => True

structure Follows (ops : PubKeyOps) (s : CoinsStack × CoinsOf) : Prop where
  shows : Shows ops s.1.db s.1.caches s.2
  top : s.1.caches ≠ []

theorem follows_freshStack (depth : Nat) : Follows ops (freshStack ops (depth + 1) db) := by
  have hempty : ∀ n, Shows ops db (List.replicate n .empty) (seenThrough ops db []) := by
    intro n
    induction n with
    | zero => exact ⟨trivial, rfl⟩
    | succ n ih => exact ⟨⟨ih.ok, nofun⟩, ih.same⟩
  exact ⟨hempty _, List.cons_ne_nil _ _⟩

/-- A call that is allowed does not throw, and caches and map go on together. -/
theorem follows_step {call : CacheCall} (h : Follows ops s) (hcall : Allowed ops s call) :
    ∃ stack, s.1.step ops call = some stack ∧ Follows ops (stack, s.2.step call) := by
  obtain ⟨⟨caches, db⟩, m⟩ := s
  obtain ⟨hshows, htop⟩ := h
  cases call with
  | read txid =>
    have hread := fetched_fetchCoins txid hshows.ok
    refine ⟨_, rfl, ⟨hread.shows.ok, hread.shows.same.trans hshows.same⟩, fun hnil => htop ?_⟩
    exact List.eq_nil_of_length_eq_zero (hread.length.symm.trans (congrArg List.length hnil))
  | modify txid edit =>
    cases caches with
    | nil => exact absurd rfl htop
    | cons cache base =>
      exact ⟨_, rfl, modifyCoins_ok hshows hcall.1 hcall.2, List.cons_ne_nil _ _⟩
  | insert txid coinbase coins =>
    cases caches with
    | nil => exact absurd rfl htop
    | cons cache base =>
      obtain ⟨cache', hnew, hshows'⟩ := modifyNewCoins_ok hshows hcall.1 hcall.2
      exact ⟨⟨cache' :: base, db⟩, by simp only [CoinsStack.step, hnew, Option.map_some], hshows',
        List.cons_ne_nil _ _⟩
  | uncache level txid => exact ⟨_, rfl, shows_uncache level hshows, by simpa using htop⟩
  | flush level =>
    obtain ⟨stack, hflush, hshows', hlen⟩ := flushLevel_ok level hshows
    refine ⟨stack, hflush, hshows', fun hnil => htop ?_⟩
    exact List.eq_nil_of_length_eq_zero (hlen.symm.trans (congrArg List.length hnil))

/-- Every read at the top returns what the map has. -/
theorem Follows.read (h : Follows ops s) (txid : Uint256) :
    unspent (s.1.getCoins ops txid) = s.2 txid ∧
      s.1.haveCoins ops txid = (s.2 txid).isSome := by
  have hread := fetched_fetchCoins txid h.shows.ok
  have hvalue : unspent (s.1.getCoins ops txid) = s.2 txid :=
    hread.value.trans (congrFun h.shows.same txid)
  refine ⟨hvalue, ?_⟩
  have hcleaned : ∀ c, s.1.getCoins ops txid = some c → c.isPruned = true → c.vout = [] :=
    hread.cleaned
  unfold CoinsStack.haveCoins
  rw [← hvalue]
  cases hget : s.1.getCoins ops txid with
  | none => rfl
  | some c =>
    cases hpruned : c.isPruned with
    | true =>
      rw [unspent, present_of_gone hpruned, Option.any_some, hcleaned c hget hpruned]
      rfl
    | false =>
      have hne : c.vout ≠ [] := by
        intro hnil
        rw [isPruned, hnil] at hpruned
        cases hpruned
      rw [unspent, present_of_not_gone hpruned]
      simpa using hne

/-- A cache that is flushed is empty, and those above it stay as they are. -/
theorem flushLevel_empties {level : Nat} {s : CoinsStack}
    (h : flushLevel ops level caches db = some s) :
    (∀ j < level, s.caches[j]? = caches[j]?) ∧
      ∀ cache, s.caches[level]? = some cache → cache.cacheCoins = ∅ := by
  induction caches generalizing level s with
  | nil =>
    obtain rfl : (⟨[], db⟩ : CoinsStack) = s := by
      cases level <;> exact Option.some.inj h
    exact ⟨fun j _ => rfl, fun cache hcache => by simp at hcache⟩
  | cons cache base ih =>
    cases level with
    | succ level =>
      rw [flushLevel] at h
      obtain ⟨s', hs', rfl⟩ := Option.map_eq_some_iff.mp h
      obtain ⟨habove, hat⟩ := ih hs'
      refine ⟨fun j hj => ?_, fun cache' hcache' => hat cache' (by simpa using hcache')⟩
      cases j with
      | zero => rfl
      | succ j => simpa using habove j (Nat.lt_of_succ_lt_succ hj)
    | zero =>
      refine ⟨fun j hj => absurd hj (Nat.not_lt_zero j), fun cache' hcache' => ?_⟩
      cases base with
      | nil =>
        cases h
        cases hcache'
        rfl
      | cons base below =>
        obtain ⟨base', -, rfl⟩ := Option.map_eq_some_iff.mp h
        cases hcache'
        rfl

def CoinsStack.flushAll (ops : PubKeyOps) (s : CoinsStack) : Option CoinsStack :=
  (List.range s.caches.length).foldlM (fun s level => flushLevel ops level s.caches s.db) s

theorem seenThrough_of_empty (h : ∀ cache ∈ caches, cache.cacheCoins = ∅) :
    seenThrough ops db caches = seenThrough ops db [] := by
  induction caches with
  | nil => rfl
  | cons cache base ih =>
    have hempty : cache.cacheCoins = ∅ := h cache List.mem_cons_self
    rw [← ih fun c hc => h c (List.mem_cons_of_mem _ hc)]
    funext k
    simp only [seenThrough, hempty]
    rfl

/-- After the first `n` levels are flushed the first `n` caches are empty. -/
theorem flush_levels (n : Nat) {s : CoinsStack} (h : Shows ops s.db s.caches m) :
    ∃ s', (List.range n).foldlM (fun s level => flushLevel ops level s.caches s.db) s = some s' ∧
      Shows ops s'.db s'.caches m ∧ s'.caches.length = s.caches.length ∧
      ∀ j < n, ∀ cache, s'.caches[j]? = some cache → cache.cacheCoins = ∅ := by
  induction n with
  | zero => exact ⟨s, rfl, h, rfl, fun j hj => absurd hj (Nat.not_lt_zero j)⟩
  | succ n ih =>
    obtain ⟨s₁, hfold, hshows₁, hlen₁, hempty₁⟩ := ih
    obtain ⟨s₂, hflush, hshows₂, hlen₂⟩ := flushLevel_ok n hshows₁
    obtain ⟨habove, hat⟩ := flushLevel_empties hflush
    refine ⟨s₂, ?_, hshows₂, hlen₂.trans hlen₁, fun j hj cache hcache => ?_⟩
    · rw [List.range_succ, List.foldlM_append, hfold]
      simp only [Option.bind_eq_bind, Option.bind_some, List.foldlM_cons, hflush, List.foldlM_nil]
      rfl
    · rcases Nat.lt_succ_iff_lt_or_eq.mp hj with hlt | rfl
      · rw [habove j hlt] at hcache
        exact hempty₁ j hlt cache hcache
      · exact hat cache hcache

/-- Flushing everything brings the map into the database. -/
theorem Follows.flushAll (h : Follows ops s) :
    ∃ stack, s.1.flushAll ops = some stack ∧
      ∀ txid, unspent (stack.db.getCoins ops txid) = s.2 txid := by
  obtain ⟨stack, hfold, hshows, hlen, hempty⟩ := flush_levels s.1.caches.length h.shows
  refine ⟨stack, hfold, fun txid => ?_⟩
  have hall : ∀ cache ∈ stack.caches, cache.cacheCoins = ∅ := by
    intro cache hcache
    obtain ⟨j, hj, rfl⟩ := List.getElem_of_mem hcache
    exact hempty j (hlen ▸ hj) _ (List.getElem?_eq_getElem hj)
  exact congrFun ((seenThrough_of_empty hall).symm.trans hshows.same) txid

end Caches

/-- In every run of allowed calls on caches of any depth, a read at the top returns what the map
has, no allowed call throws, and flushing all levels leaves the map in the database. -/
theorem caches_refine_map (ops : PubKeyOps) (db : CCoinsViewDB) (depth : Nat) {s : CoinsStack}
    {m : CoinsOf}
    (h : Runs (bothStep ops) (Allowed ops) (freshStack ops (depth + 1) db) (s, m)) :
    (∀ txid, unspent (s.getCoins ops txid) = m txid ∧
      s.haveCoins ops txid = (m txid).isSome) ∧
    (∀ call, Allowed ops (s, m) call → (s.step ops call).isSome = true) ∧
    ∃ stack, s.flushAll ops = some stack ∧ ∀ txid, unspent (stack.db.getCoins ops txid) = m txid := by
  have hfollows : Follows ops (s, m) := by
    refine h.invariant (Follows ops) ?_ (follows_freshStack depth)
    intro t call u ht hcall hstep
    obtain ⟨stack, hstack, hnext⟩ := follows_step ht hcall
    simp only [bothStep, hstack, Option.map_some, Option.some.injEq] at hstep
    exact hstep ▸ hnext
  refine ⟨hfollows.read, fun call hcall => ?_, hfollows.flushAll⟩
  obtain ⟨stack, hstack, -⟩ := follows_step hfollows hcall
  exact hstack ▸ rfl

/-! ## 8. What the map does not follow -/

namespace CacheExample

def noKeys : PubKeyOps := ⟨fun _ => false, fun _ => none⟩

def output : CTxOut := ⟨100000000, [Opcode.op1]⟩

def coins : CCoins := ⟨false, [output], 5, 1⟩

def oneCoin : CCoinsViewDB :=
  ⟨(∅ : AList fun _ : Uint256 => Bytes).insert 1 (coins.serialize noKeys), 0⟩

/-- What is read at the top after some calls, and what the map has. -/
def readBoth (depth : Nat) (calls : List CacheCall) (txid : Uint256) :
    Option (Option CCoins × Option CCoins) :=
  (runList (bothStep noKeys) (freshStack noKeys depth oneCoin) calls).map fun s =>
    (s.1.getCoins noKeys txid, s.2 txid)

def mapSpent : CoinsOf := (freshStack noKeys 2 oneCoin).2.step (.modify 1 fun c => c.spend 0)

def mapAdded : CoinsOf := mapSpent.step (.insert 2 true coins)

end CacheExample

open CacheExample in
/-- An output is spent in one cache above another and flushed into it, and a new transaction is
added. -/
theorem caches_refine_map_two :
    ∃ s m, Runs (bothStep noKeys) (Allowed noKeys) (freshStack noKeys 2 oneCoin) (s, m) ∧
      unspent (s.getCoins noKeys 1) = none ∧ unspent (s.getCoins noKeys 2) = some coins := by
  have hspend : Allowed noKeys (freshStack noKeys 2 oneCoin) (.modify 1 fun c => c.spend 0) := by
    refine ⟨fun hnone => ?_, Or.inl (by decide +kernel)⟩
    cases hnone
  obtain ⟨s₁, h₁, hf₁⟩ := follows_step (follows_freshStack 1) hspend
  have hflush : Allowed noKeys (s₁, mapSpent) (.flush 0) := trivial
  obtain ⟨s₂, h₂, hf₂⟩ := follows_step hf₁ hflush
  have hinsert : Allowed noKeys (s₂, mapSpent) (.insert 2 true coins) :=
    ⟨Or.inl rfl, Or.inr (by decide +kernel)⟩
  obtain ⟨s₃, h₃, -⟩ := follows_step hf₂ hinsert
  have hrun : Runs (bothStep noKeys) (Allowed noKeys) (freshStack noKeys 2 oneCoin) (s₃, mapAdded) :=
    ((Runs.refl.tail hspend (congrArg _ h₁)).tail hflush (congrArg _ h₂)).tail hinsert
      (congrArg _ h₃)
  have hreads := (caches_refine_map noKeys oneCoin 1 hrun).1
  have hgone : mapAdded 1 = none := by decide +kernel
  have hthere : mapAdded 2 = some coins := by decide +kernel
  exact ⟨s₃, mapAdded, hrun, (hreads 1).1.trans hgone, (hreads 2).1.trans hthere⟩

open CacheExample in
/-- An edit that only sets the outputs gives pruned coins the height and the version they had
before; the map has forgotten them.  A version that is negative comes back from the database as
another. -/
theorem map_misses_stale_coins :
    readBoth 1 [.modify 1 fun c => c.spend 0, .modify 1 fun c => { c with vout := [output] }] 1 =
        some (some ⟨false, [output], 5, 1⟩, some ⟨false, [output], 0, 0⟩) ∧
      readBoth 1 [.insert 2 true ⟨true, [output], 5, -1⟩, .flush 0] 2 =
        some (some ⟨true, [output], 5, 127⟩, some ⟨true, [output], 5, -1⟩) := by
  decide +kernel

end RgmNode
