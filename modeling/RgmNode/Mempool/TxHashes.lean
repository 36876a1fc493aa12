import RgmNode.Lib.Transition
import RgmNode.Mempool.TxMemPool

/-!
# The witness hashes of the memory pool

`vTxHashes` has an element for every entry of the pool, and the entry knows its place.  Compact
blocks are rebuilt from this vector, and follow the iterators in it.  A removal moves the last
element to the place of the one that goes; `_clear` empties the pool and not the vector.
-/

namespace RgmNode

open List Nat Function

namespace CTxMemPool

variable {env : MempoolEnv} {pool pool' : CTxMemPool} {tx : CTransaction} {it : Uint256}

/-! ## 1. Entries and their places -/

/-- The transactions of the pool, each with its place in `vTxHashes`. -/
def places (pool : CTxMemPool) : List (CTransaction × Nat) :=
  pool.mapTx.map fun e => (e.tx, e.vTxHashesIdx)

/-- One element for each entry, with the witness hash of the entry and an iterator to it, at the
place that the entry knows. -/
structure Mirrors (cr : Crypto) (places : List (CTransaction × Nat))
    (vTxHashes : List (Uint256 × Uint256)) : Prop where
  unique : (places.map fun x => x.1.getHash cr).Nodup
  entries : ∀ x ∈ places, vTxHashes[x.2]? = some (x.1.getWitnessHash cr, x.1.getHash cr)
  elements : ∀ i y, vTxHashes[i]? = some y → ∃ x ∈ places, x.2 = i ∧ x.1.getHash cr = y.2

def Mirrored (env : MempoolEnv) (pool : CTxMemPool) : Prop :=
  Mirrors env.crypto pool.places pool.vTxHashes

inductive Op where
  | addUnchecked (entry : CTxMemPoolEntry) (setAncestors : List Uint256)
  | removeUnchecked (it : Uint256)
  | clear

def step (env : MempoolEnv) (pool : CTxMemPool) : Op → Option CTxMemPool
  | .addUnchecked entry setAncestors => pool.addUnchecked env entry setAncestors
  | .removeUnchecked it => pool.removeUnchecked env it
  | .clear => some pool.clear

/-- No transaction is added that is there already, and only an empty pool is cleared. -/
def Op.Careful (env : MempoolEnv) (pool : CTxMemPool) : Op → Prop
  | .addUnchecked entry _ => pool.find env (env.hash entry) = none
  | .removeUnchecked _ => True
  | .clear => pool.mapTx = []

/-! ## 2. Adding and removing an element -/

section

variable {cr : Crypto} {P : List (CTransaction × Nat)} {v l : List (Uint256 × Uint256)}
  {back : Uint256 × Uint256} {idx : Nat}

/-- The entry with this hash gets another place. -/
def setPlace (cr : Crypto) (hash : Uint256) (idx : Nat) (x : CTransaction × Nat) :
    CTransaction × Nat :=
  if x.1.getHash cr = hash then (x.1, idx) else x

theorem setPlace_fst (hash : Uint256) (x : CTransaction × Nat) :
    (setPlace cr hash idx x).1 = x.1 := by
  rw [setPlace]
  split <;> rfl

theorem Mirrors.add (h : Mirrors cr P v) (new : ∀ x ∈ P, x.1.getHash cr ≠ tx.getHash cr) :
    Mirrors cr (P ++ [(tx, v.length)]) (v ++ [(tx.getWitnessHash cr, tx.getHash cr)]) := by
  refine ⟨?_, fun x hx => ?_, fun i y hy => ?_⟩
  · rw [map_append, map_singleton, ← concat_eq_append]
    refine .concat (fun old => ?_) h.unique
    obtain ⟨x, hx, hash⟩ := mem_map.mp old
    exact new x hx hash
  · rcases mem_append.mp hx with old | this
    · have place := h.entries x old
      rwa [List.getElem?_append_left (List.getElem?_eq_some_iff.mp place).1]
    · rw [mem_singleton.mp this]
      exact getElem?_concat_length
  · rcases lt_or_ge i v.length with lt | ge
    · rw [getElem?_append_left lt] at hy
      obtain ⟨x, hx, place⟩ := h.elements i y hy
      exact ⟨x, mem_append_left _ hx, place⟩
    · obtain ⟨bound, -⟩ := List.getElem?_eq_some_iff.mp hy
      obtain rfl : i = v.length := by
        rw [length_append, length_singleton] at bound
        omega
      obtain rfl := Option.some.inj (getElem?_concat_length.symm.trans hy)
      exact ⟨_, mem_append_right _ (mem_singleton_self _), rfl, rfl⟩

/-- The last element takes the place of the one that goes. -/
theorem Mirrors.remove (h : Mirrors cr P (l ++ [back])) (mem : (tx, idx) ∈ P) :
    Mirrors cr ((P.map (setPlace cr back.2 idx)).filter
      (·.1.getHash cr ≠ tx.getHash cr)) (l.set idx back) := by
  have inj : ∀ x ∈ P, ∀ y ∈ P, x.1.getHash cr = y.1.getHash cr → x = y :=
    fun x hx y hy => inj_on_of_nodup_map h.unique hx hy
  have top : (l ++ [back])[l.length]? = some back := getElem?_concat_length
  obtain ⟨last, lastMem, lastPlace, lastHash⟩ := h.elements _ _ top
  have here := h.entries _ mem
  have bound : idx < l.length + 1 := by
    simpa using (List.getElem?_eq_some_iff.mp here).1
  refine ⟨?_, fun x' hx' => ?_, fun i y hy => ?_⟩
  · refine (filter_sublist.map _).nodup ?_
    simpa [map_map, comp_def, setPlace_fst] using h.unique
  · obtain ⟨moved, kept⟩ := mem_filter.mp hx'
    obtain ⟨x, hx, rfl⟩ := mem_map.mp moved
    have other : x.1.getHash cr ≠ tx.getHash cr := by
      rw [setPlace_fst] at kept
      exact of_decide_eq_true kept
    have place := h.entries x hx
    rw [setPlace]
    split
    · next isLast =>
      obtain rfl := inj x hx last lastMem (isLast.trans lastHash.symm)
      rw [lastPlace, top] at place
      have low : idx < l.length := by
        refine lt_of_le_of_ne (le_of_lt_succ bound) ?_
        rintro rfl
        rw [top, Option.some.inj place] at here
        exact other (congrArg Prod.snd (Option.some.inj here))
      rw [getElem?_set_self low]
      exact place
    · next notLast =>
      have apart : idx ≠ x.2 := by
        rintro rfl
        exact other (congrArg Prod.snd (Option.some.inj (place.symm.trans here)))
      have low : x.2 < l.length := by
        refine lt_of_le_of_ne (le_of_lt_succ ?_) ?_
        · simpa using (List.getElem?_eq_some_iff.mp place).1
        · intro same
          rw [same, top] at place
          exact notLast (congrArg Prod.snd (Option.some.inj place)).symm
      rw [getElem?_set_ne apart, ← getElem?_append_left low]
      exact place
  · have low : i < l.length := by simpa using (List.getElem?_eq_some_iff.mp hy).1
    rcases eq_or_ne idx i with rfl | apart
    · rw [getElem?_set_self low, Option.some.injEq] at hy
      subst hy
      refine ⟨setPlace cr back.2 idx last, mem_filter.mpr ⟨mem_map_of_mem lastMem, ?_⟩, ?_⟩
      · rw [setPlace_fst, decide_eq_true_eq]
        intro same
        rw [inj last lastMem _ mem same] at lastPlace
        exact low.ne lastPlace
      · rw [setPlace, if_pos lastHash]
        exact ⟨rfl, lastHash⟩
    · rw [getElem?_set_ne apart, ← getElem?_append_left low] at hy
      obtain ⟨x, hx, rfl, hash⟩ := h.elements i y hy
      have notLast : x.1.getHash cr ≠ back.2 := by
        intro same
        rw [inj x hx last lastMem (same.trans lastHash.symm), lastPlace] at low
        exact low.ne rfl
      have stays : setPlace cr back.2 idx x = x := if_neg notLast
      refine ⟨x, mem_filter.mpr ⟨stays ▸ mem_map_of_mem hx, ?_⟩, rfl, hash⟩
      rw [decide_eq_true_eq]
      intro same
      exact apart (congrArg Prod.snd (inj x hx _ mem same)).symm

end

/-! ## 3. What leaves the places alone -/

def Unique (env : MempoolEnv) (pool : CTxMemPool) : Prop :=
  (pool.places.map fun x => x.1.getHash env.crypto).Nodup

/-- Neither the places nor the vector change. -/
def Same (pool pool' : CTxMemPool) : Prop :=
  pool'.places = pool.places ∧ pool'.vTxHashes = pool.vTxHashes

theorem Same.trans {pool'' : CTxMemPool} (h : Same pool pool') (h' : Same pool' pool'') :
    Same pool pool'' :=
  ⟨h'.1.trans h.1, h'.2.trans h.2⟩

theorem Unique.of_same (h : Unique env pool) (same : Same pool pool') : Unique env pool' := by
  rw [Unique, same.1]
  exact h

theorem Unique.eq_of_hash (h : Unique env pool) {e f : CTxMemPoolEntry} (he : e ∈ pool.mapTx)
    (hf : f ∈ pool.mapTx) (hash : env.hash e = env.hash f) : e = f := by
  rw [Unique, places, map_map] at h
  exact inj_on_of_nodup_map h he hf hash

/-- A change of an entry that keeps its transaction and its place. -/
def KeepsPlace (f : CTxMemPoolEntry → Option CTxMemPoolEntry) : Prop :=
  ∀ e e', f e = some e' → (e'.tx, e'.vTxHashesIdx) = (e.tx, e.vTxHashesIdx)

section

variable {f : CTxMemPoolEntry → Option CTxMemPoolEntry} (hf : KeepsPlace f)
    (unique : Unique env pool)

include hf unique

theorem same_modify (h : pool.modify env it f = some pool') : Same pool pool' := by
  obtain ⟨e, found, h⟩ := Option.bind_eq_some_iff.mp h
  obtain ⟨e', he', rfl⟩ := Option.map_eq_some_iff.mp h
  have hash : env.hash e = it := by simpa using find?_some found
  refine ⟨?_, rfl⟩
  rw [places, map_map]
  refine map_congr_left fun x hx => ?_
  dsimp only [comp]
  split
  · next hit =>
    rw [unique.eq_of_hash hx (mem_of_find?_eq_some found) (hit.trans hash.symm)]
    exact hf e e' he'
  · rfl

theorem same_modifyAll {hashes : List Uint256} (h : pool.modifyAll env f hashes = some pool') :
    Same pool pool' := by
  induction hashes generalizing pool with
  | nil =>
    cases h
    exact ⟨rfl, rfl⟩
  | cons hash hashes ih =>
    obtain ⟨next, modified, h⟩ := Option.bind_eq_some_iff.mp h
    have same := same_modify hf unique modified
    exact same.trans (ih (unique.of_same same) h)

end

theorem keepsPlace_updateDescendantState (size fee count : Int) :
    KeepsPlace (CTxMemPoolEntry.updateDescendantState size fee count) := by
  intro e e' h
  rw [CTxMemPoolEntry.updateDescendantState] at h
  split at h
  · cases h
    rfl
  · cases h

theorem keepsPlace_updateAncestorState (size fee count sigOps : Int) :
    KeepsPlace (CTxMemPoolEntry.updateAncestorState size fee count sigOps) := by
  intro e e' h
  rw [CTxMemPoolEntry.updateAncestorState] at h
  split at h
  · cases h
    rfl
  · cases h

theorem same_foldl {α : Type*} {f : CTxMemPool → α → CTxMemPool} (hf : ∀ p a, Same p (f p a))
    (l : List α) (pool : CTxMemPool) : Same pool (l.foldl f pool) := by
  induction l generalizing pool with
  | nil => exact ⟨rfl, rfl⟩
  | cons a l ih => exact (hf pool a).trans (ih _)

theorem same_linkParents : Same pool (pool.linkParents env tx) := by
  refine same_foldl (fun p hash => ?_) _ _
  split
  · exact ⟨rfl, rfl⟩
  · exact ⟨rfl, rfl⟩

theorem same_applyDelta (unique : Unique env pool) (h : pool.applyDelta env it = some pool') :
    Same pool pool' := by
  rw [applyDelta] at h
  split at h
  · cases h
    exact ⟨rfl, rfl⟩
  · refine same_modify (fun e e' he => ?_) unique h
    cases he
    rfl

theorem same_updateAncestorsOf {add : Bool} {setAncestors : List Uint256}
    (unique : Unique env pool) (h : pool.updateAncestorsOf env add it setAncestors = some pool') :
    Same pool pool' := by
  obtain ⟨parents, -, h⟩ := Option.bind_eq_some_iff.mp h
  obtain ⟨e, -, h⟩ := Option.bind_eq_some_iff.mp h
  have linked := same_foldl (f := fun pool piter => pool.updateChild piter it add)
    (fun p a => ⟨rfl, rfl⟩) parents pool
  exact linked.trans (same_modifyAll (keepsPlace_updateDescendantState _ _ _)
    (unique.of_same linked) h)

/-! ## 4. The three operations -/

theorem places_map_setPlace (hash : Uint256) (idx : Nat) :
    (pool.mapTx.map fun e => if env.hash e = hash then { e with vTxHashesIdx := idx } else e).map
      (fun e => (e.tx, e.vTxHashesIdx)) = pool.places.map (setPlace env.crypto hash idx) := by
  rw [places, map_map, map_map]
  refine map_congr_left fun e _ => ?_
  rw [comp, comp]
  show _ = if env.hash e = hash then _ else _
  split <;> rfl

theorem ne_of_find_none (h : pool.find env it = none) :
    ∀ x ∈ pool.places, x.1.getHash env.crypto ≠ it := by
  intro x hx
  obtain ⟨e, he, rfl⟩ := mem_map.mp hx
  exact fun hash => find?_eq_none.mp h e he (decide_eq_true hash)

theorem unique_insertEntry (unique : Unique env pool) (entry : CTxMemPoolEntry) :
    Unique env (pool.insertEntry env entry) := by
  rw [Unique, places, insertEntry]
  split
  · exact unique
  · next absent =>
    rw [Option.not_isSome_iff_eq_none] at absent
    rw [map_append, map_append, map_singleton, map_singleton, ← concat_eq_append]
    refine .concat (fun old => ?_) unique
    obtain ⟨x, hx, hash⟩ := mem_map.mp old
    exact ne_of_find_none absent x hx hash

theorem hash_entered (pool : CTxMemPool) (entry : CTxMemPoolEntry) :
    env.hash (pool.entered env entry) = env.hash entry := by
  unfold entered
  cases found : pool.find env (env.hash entry) with
  | none => rfl
  | some e => simpa using find?_some found

/-- Everything in between the insertion and the record of the hash leaves the places alone. -/
theorem addUnchecked_spec {entry : CTxMemPoolEntry} {setAncestors : List Uint256}
    (unique : Unique env pool) (h : pool.addUnchecked env entry setAncestors = some pool') :
    pool'.places = (pool.insertEntry env entry).places.map
      (setPlace env.crypto (env.hash entry) pool.vTxHashes.length) ∧
    pool'.vTxHashes = pool.vTxHashes ++
      [((pool.entered env entry).tx.getWitnessHash env.crypto, env.hash entry)] := by
  obtain ⟨p₁, delta, h⟩ := Option.bind_eq_some_iff.mp h
  obtain ⟨p₂, ancestors, h⟩ := Option.bind_eq_some_iff.mp h
  obtain ⟨p₃, totals, rfl⟩ := Option.map_eq_some_iff.mp h
  obtain ⟨sum, -, totals⟩ := Option.bind_eq_some_iff.mp totals
  have inserted := unique_insertEntry unique entry
  have linked : ∀ tx, Same _ ((p₁.recordSpends tx).linkParents env tx) := fun _ =>
    (same_applyDelta inserted delta).trans same_linkParents
  have summed := (linked _).trans
    (same_updateAncestorsOf (inserted.of_same (linked _)) ancestors)
  have same := summed.trans (same_modify (keepsPlace_updateAncestorState _ _ _ _)
    (inserted.of_same summed) totals)
  have vector : p₃.vTxHashes = pool.vTxHashes := same.2
  rw [← hash_entered pool entry, ← same.1, ← vector]
  exact ⟨places_map_setPlace _ _, rfl⟩

theorem Mirrored.addUnchecked_iff {entry : CTxMemPoolEntry} {setAncestors : List Uint256}
    (h : Mirrored env pool) (added : pool.addUnchecked env entry setAncestors = some pool') :
    Mirrored env pool' ↔ pool.find env (env.hash entry) = none := by
  obtain ⟨hplaces, hvector⟩ := addUnchecked_spec h.unique added
  rw [Mirrored, hplaces, hvector]
  cases found : pool.find env (env.hash entry) with
  | none =>
    have absent := ne_of_find_none found
    have new : (pool.insertEntry env entry).places.map
        (setPlace env.crypto (env.hash entry) pool.vTxHashes.length) =
        pool.places ++ [(entry.tx, pool.vTxHashes.length)] := by
      rw [places, insertEntry, found]
      simp only [Option.isSome_none, Bool.false_eq_true, if_false, map_append]
      congr 1
      · refine (map_congr_left fun x hx => if_neg (absent x hx)).trans (map_id _)
      · exact congrArg (fun x => [x]) (if_pos rfl)
    rw [new, entered, found]
    exact iff_of_true (Mirrors.add h absent) rfl
  | some e =>
    refine iff_of_false (fun mirrors => ?_) (by simp)
    have mem := mem_of_find?_eq_some found
    have hash : env.hash e = env.hash entry := by simpa using find?_some found
    have old := h.entries (e.tx, e.vTxHashesIdx) (mem_map_of_mem mem)
    have low := (List.getElem?_eq_some_iff.mp old).1
    rw [← getElem?_append_left low] at old
    -- the element of the entry that was there points to an entry that has a new place now
    obtain ⟨x', hx', place, same⟩ := mirrors.elements _ _ old
    obtain ⟨x, hx, rfl⟩ := mem_map.mp hx'
    rw [setPlace_fst] at same
    rw [setPlace, if_pos (same.trans hash)] at place
    exact low.ne place.symm

theorem eraseTxHash_spec (env : MempoolEnv) (pool : CTxMemPool) {l : List (Uint256 × Uint256)}
    {back : Uint256 × Uint256} {idx : Nat} (hl : pool.vTxHashes = l ++ [back])
    (hidx : idx ≤ l.length) (low : ∀ x ∈ pool.places, x.2 ≤ l.length) :
    (pool.eraseTxHash env idx).places = pool.places.map (setPlace env.crypto back.2 idx) ∧
      (pool.eraseTxHash env idx).vTxHashes = l.set idx back := by
  rw [eraseTxHash, hl, getLast?_concat]
  cases l with
  | nil =>
    -- the only place stays the same
    refine ⟨((map_congr_left fun x hx => ?_).trans (map_id _)).symm, rfl⟩
    rw [setPlace]
    split
    · exact Prod.ext rfl ((le_zero.mp hidx).trans (le_zero.mp (low x hx)).symm)
    · rfl
  | cons head l =>
    dsimp only
    rw [if_pos (by simp)]
    refine ⟨places_map_setPlace _ _, ?_⟩
    simp [dropLast_eq_take, take_set]

theorem Mirrored.removeUnchecked (h : Mirrored env pool)
    (removed : pool.removeUnchecked env it = some pool') : Mirrored env pool' := by
  obtain ⟨e, found, rfl⟩ := Option.map_eq_some_iff.mp removed
  have mem : (e.tx, e.vTxHashesIdx) ∈ pool.places :=
    mem_map_of_mem (mem_of_find?_eq_some found)
  obtain rfl : env.hash e = it := by simpa using find?_some found
  rcases eq_nil_or_concat pool.vTxHashes with nil | ⟨l, back, hl⟩
  · have here := h.entries _ mem
    rw [nil] at here
    cases here
  rw [concat_eq_append] at hl
  rw [Mirrored, hl] at h
  have low : ∀ x ∈ pool.places, x.2 ≤ l.length := by
    intro x hx
    have bound := (List.getElem?_eq_some_iff.mp (h.entries x hx)).1
    rw [length_append] at bound
    exact le_of_lt_succ bound
  obtain ⟨hplaces, hvector⟩ := eraseTxHash_spec env (pool.eraseSpends e.tx) hl (low _ mem) low
  refine Eq.mp (congrArg₂ (Mirrors env.crypto) ?_ hvector.symm) (h.remove mem)
  exact (congrArg (List.filter _) hplaces.symm).trans filter_map

/-! ## 5. Runs -/

theorem mirrored_init : Mirrored env init :=
  ⟨nodup_nil, by simp [places, init], by simp [init]⟩

theorem Mirrored.step_iff {op : Op} (h : Mirrored env pool)
    (stepped : step env pool op = some pool') : Mirrored env pool' ↔ op.Careful env pool := by
  cases op with
  | addUnchecked entry setAncestors => exact h.addUnchecked_iff stepped
  | removeUnchecked it => exact iff_of_true (h.removeUnchecked stepped) trivial
  | clear =>
    cases stepped
    constructor
    · intro mirrored
      cases entries : pool.mapTx with
      | nil => exact entries
      | cons e rest =>
        have mem : (e.tx, e.vTxHashesIdx) ∈ pool.places := by simp [places, entries]
        obtain ⟨x, hx, -⟩ := mirrored.elements _ _ (h.entries _ mem)
        cases hx
    · intro empty
      have same : pool.places = pool.clear.places := by rw [places, empty]; rfl
      rw [Mirrored, same] at h
      exact h

/-- As long as every step is careful, the vector mirrors the entries; and it does so after another
step exactly if that is careful too. -/
theorem txHashes_mirror_iff (op : Op)
    (run : Transition.Runs (step env) (fun pool op => op.Careful env pool) init pool)
    (stepped : step env pool op = some pool') :
    Mirrored env pool ∧ (Mirrored env pool' ↔ op.Careful env pool) := by
  have mirrored : Mirrored env pool := run.invariant (Mirrored env)
    (fun _ _ _ h careful stepped => (h.step_iff stepped).mpr careful) mirrored_init
  exact ⟨mirrored, mirrored.step_iff stepped⟩

def sampleEnv : MempoolEnv := ⟨⟨fun _ => 0, fun _ => 0, fun _ => 0, fun _ => 0⟩, 20⟩

def sampleEntry : CTxMemPoolEntry := sampleEnv.newEntry ⟨1, [], [], 0⟩ 0 0 0

theorem txHashes_mirror_iff_removed :
    ∃ pool pool', init.addUnchecked sampleEnv sampleEntry [] = some pool ∧
      pool.removeUnchecked sampleEnv 0 = some pool' ∧ Mirrored sampleEnv pool ∧
      (Mirrored sampleEnv pool' ↔ True) :=
  ⟨_, _, rfl, rfl, txHashes_mirror_iff (.removeUnchecked 0)
    (.tail (i := .addUnchecked sampleEntry []) .refl rfl rfl) rfl⟩

/-- After a transaction is added and the pool is cleared, the vector still has its element, whose
iterator leads to no entry. -/
theorem txHashes_not_cleared :
    ∃ pool, init.addUnchecked sampleEnv sampleEntry [] = some pool ∧ pool.clear.mapTx = [] ∧
      pool.clear.vTxHashes = [(0, 0)] ∧ ¬ Mirrored sampleEnv pool.clear := by
  refine ⟨_, rfl, rfl, rfl, fun mirrored => ?_⟩
  obtain ⟨x, hx, -⟩ := mirrored.elements 0 (0, 0) rfl
  cases hx

end CTxMemPool

end RgmNode
