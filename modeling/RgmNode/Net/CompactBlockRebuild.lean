import RgmNode.Lib.Differences
import RgmNode.Net.CompactBlock

/-!
# Compact blocks rebuild the block

The places of the short ids are kept in 16 bits.  The number of transactions that `InitData`
accepts is larger than that: from the 65537th transaction on, a short id is assigned to a place
that is not its own.
-/

namespace RgmNode

open CBlockHeaderAndShortTxIDs PartiallyDownloadedBlock List Differences Nat Uint256 LittleEndian

/-! ## 1. Announcements of a block -/

/-- The places that are not prefilled. -/
def freePositions (n : Nat) (positions : List Nat) : List Nat :=
  (List.range n).filter fun p => p ∉ positions

/-- The announcement has the transactions of the block at `positions`, and short ids for the
others. -/
structure CBlockHeaderAndShortTxIDs.Announces (env : CompactEnv) (fUseWTXID : Bool) (block : CBlock)
    (positions : List Nat) (c : CBlockHeaderAndShortTxIDs) : Prop where
  sorted : positions.Pairwise (· < ·)
  bound : ∀ p ∈ positions, p < block.vtx.length
  header : c.header = block.toCBlockHeader
  indexes : c.prefilledtxn.map (·.index.toNat) = Differences.gaps 0 positions
  txs : c.prefilledtxn.map (some ·.tx) = positions.map (block.vtx[·]?)
  shortids : c.shorttxids.map some = (freePositions block.vtx.length positions).map fun p =>
    (block.vtx[p]?).map fun tx => c.getShortID env (announcedHash env fUseWTXID tx)

section Rebuilding

variable {c : CBlockHeaderAndShortTxIDs} {env : CompactEnv} {available : List (Option CTransaction)}

/-- The announcement that a node makes of a block is one with the coinbase. -/
theorem CBlockHeaderAndShortTxIDs.announces_ofBlock {nonce : Nat} {block : CBlock}
    {fUseWTXID : Bool} (h : ofBlock env nonce block fUseWTXID = some c) :
    c.Announces env fUseWTXID block [0] := by
  obtain ⟨header, vtx⟩ := block
  cases vtx with
  | nil => cases h
  | cons coinbase vtx =>
    cases h
    refine ⟨pairwise_singleton _ _, ?_, rfl, rfl, rfl, ?_⟩
    · intro p hp
      obtain rfl := mem_singleton.mp hp
      exact succ_pos _
    · have hfree : freePositions (vtx.length + 1) [0] = (range vtx.length).map (· + 1) := by
        rw [freePositions, range_succ_eq_map, filter_cons, if_neg (by simp), filter_eq_self.mpr]
        intro p hp
        obtain ⟨q, -, rfl⟩ := mem_map.mp hp
        simp
      show _ = (freePositions (vtx.length + 1) [0]).map _
      rw [hfree]
      refine ext_getElem? fun k => ?_
      by_cases hk : k < vtx.length
      · simp [hk, Function.comp_def, getShortID]
      · simp [hk]

section Places

variable {available : List (Option CTransaction)} {q p : Nat} {rest : List Nat}

/-- The places that are not filled, from `q` on. -/
def freeFrom (available : List (Option CTransaction)) (q : Nat) : List Nat :=
  (List.range' q (available.length - q)).filter fun p => available[p]?.join.isNone

theorem freeFrom_of_le (h : available.length ≤ q) : freeFrom available q = [] := by
  rw [freeFrom, Nat.sub_eq_zero_of_le h]
  rfl

theorem freeFrom_of_lt (h : q < available.length) : freeFrom available q =
    if available[q]?.join.isNone then q :: freeFrom available (q + 1)
    else freeFrom available (q + 1) := by
  have hsucc : available.length - q = available.length - (q + 1) + 1 := by omega
  rw [freeFrom, hsucc, range'_succ, filter_cons]
  rfl

theorem length_freeFrom_le : (freeFrom available q).length ≤ available.length - q := by
  have hle := length_filter_le (fun p => available[p]?.join.isNone)
    (range' q (available.length - q))
  rwa [length_range'] at hle

theorem mem_freeFrom : p ∈ freeFrom available q ↔
    (q ≤ p ∧ p < available.length) ∧ available[p]?.join = none := by
  rw [freeFrom, mem_filter, mem_range'_1, Option.isNone_iff_eq_none]
  refine and_congr_left fun _ => and_congr_right fun hle => ?_
  omega

theorem freeFrom_tail (h : freeFrom available q = p :: rest) :
    rest = freeFrom available (p + 1) := by
  induction hn : available.length - q generalizing q with
  | zero =>
    rw [freeFrom_of_le (Nat.le_of_sub_eq_zero hn)] at h
    cases h
  | succ n ih =>
    have hlt : q < available.length := by omega
    rw [freeFrom_of_lt hlt] at h
    split at h
    · obtain ⟨rfl, rfl⟩ := cons.inj h
      rfl
    · exact ih h (by omega)

/-- The loop stops at the first place that is not filled. -/
theorem skipAvailable_eq {i offset rounds : Nat} (hfree : freeFrom available (i + offset) = p :: rest)
    (hwidth : p < i + 2 ^ 16) (hrounds : p < i + offset + rounds) :
    skipAvailable available i rounds offset = some (p - i) := by
  have hmem : p ∈ freeFrom available (i + offset) := hfree ▸ mem_cons_self
  obtain ⟨⟨hle, hlt⟩, -⟩ := mem_freeFrom.mp hmem
  induction rounds generalizing offset with
  | zero => exact absurd hrounds (not_lt.mpr hle)
  | succ rounds ih =>
    have hin : i + offset < available.length := lt_of_le_of_lt hle hlt
    rw [freeFrom_of_lt hin, getElem?_eq_getElem hin, Option.join_some] at hfree
    rw [skipAvailable, getElem?_eq_getElem hin]
    cases hplace : available[i + offset] with
    | none =>
      rw [hplace, Option.isNone_none] at hfree
      obtain ⟨rfl, rfl⟩ := cons.inj hfree
      rw [Nat.add_sub_cancel_left]
    | some tx =>
      rw [hplace, Option.isNone_some, if_neg Bool.false_ne_true] at hfree
      have hmem' : p ∈ freeFrom available (i + (offset + 1)) := by
        rw [← add_assoc, hfree]
        exact mem_cons_self
      obtain ⟨⟨hle', -⟩, -⟩ := mem_freeFrom.mp hmem'
      have hnext : (offset + 1) % 2 ^ 16 = offset + 1 := mod_eq_of_lt (by omega)
      rw [hnext]
      exact ih hfree (by omega) hmem' hle'

end Places

/-! ## 2. The map of the short ids -/

namespace ShortIdMap

/-- The ids get the places in the order of both. -/
def setAll (m : ShortIdMap) (ids places : List Nat) : ShortIdMap :=
  (ids.zip places).foldl (fun m x => m.set x.1 x.2) m

theorem setAll_cons (m : ShortIdMap) (id p : Nat) (ids places : List Nat) :
    m.setAll (id :: ids) (p :: places) = (m.set id p).setAll ids places := rfl

variable {m : ShortIdMap} {ids places : List Nat} {id p : Nat}

theorem find_set_self : (m.set id p).find id = some (p % 2 ^ 16) := Function.update_self _ _ _

theorem find_set_of_ne {id' : Nat} (h : id ≠ id') : (m.set id' p).find id = m.find id :=
  Function.update_of_ne h _ _

theorem keys_set_subset : (m.set id p).keys ⊆ id :: m.keys := by
  rw [set]
  split
  · exact subset_cons_self _ _
  · exact List.Subset.refl _

theorem nodup_keys_set (h : m.keys.Nodup) : (m.set id p).keys.Nodup := by
  rw [set]
  split
  · exact h
  · next hnew => exact nodup_cons.mpr ⟨hnew, h⟩

theorem keys_setAll (hnodup : m.keys.Nodup) :
    (m.setAll ids places).keys.Nodup ∧ (m.setAll ids places).keys ⊆ m.keys ++ ids := by
  induction ids generalizing m places with
  | nil => exact ⟨hnodup, by simp [setAll]⟩
  | cons id ids ih =>
    cases places with
    | nil => exact ⟨hnodup, by simp [setAll]⟩
    | cons p places =>
      obtain ⟨hrest, hsubset⟩ : ((m.set id p).setAll ids places).keys.Nodup ∧ _ :=
        ih (nodup_keys_set hnodup)
      refine ⟨hrest, fun key hkey => ?_⟩
      rcases mem_append.mp (hsubset hkey) with hold | hnew
      · rcases mem_cons.mp (keys_set_subset hold) with rfl | hkey
        · exact mem_append_right _ mem_cons_self
        · exact mem_append_left _ hkey
      · exact mem_append_right _ (mem_cons_of_mem id hnew)

/-- A map of as many keys as there are ids has no two equal ids. -/
theorem nodup_of_size (h : (empty.setAll ids places).size = ids.length) : ids.Nodup := by
  obtain ⟨hnodup, hsubset⟩ : (empty.setAll ids places).keys.Nodup ∧ _ := keys_setAll nodup_nil
  have hperm := (subperm_of_subset hnodup hsubset).perm_of_length_le (le_of_eq h.symm)
  exact hperm.nodup_iff.mp hnodup

theorem size_setAll (hnodup : ids.Nodup) (hnew : ∀ id ∈ ids, id ∉ m.keys)
    (hlen : ids.length ≤ places.length) :
    (m.setAll ids places).size = m.size + ids.length := by
  induction ids generalizing m places with
  | nil => rfl
  | cons id ids ih =>
    obtain ⟨hid, hnodup⟩ := nodup_cons.mp hnodup
    obtain ⟨hnewid, hnewids⟩ := forall_mem_cons.mp hnew
    cases places with
    | nil => exact absurd hlen (not_succ_le_zero _)
    | cons p places =>
      have hkeys : (m.set id p).keys = id :: m.keys := if_neg hnewid
      have hfresh : ∀ id' ∈ ids, id' ∉ (m.set id p).keys := by
        intro id' hmem hkey
        rw [hkeys] at hkey
        rcases mem_cons.mp hkey with rfl | hkey
        · exact hid hmem
        · exact hnewids id' hmem hkey
      rw [setAll_cons, ih hnodup hfresh (le_of_succ_le_succ hlen), size, hkeys,
        length_cons, length_cons, size]
      omega

theorem find_setAll_of_not_mem (h : id ∉ ids) : (m.setAll ids places).find id = m.find id := by
  induction ids generalizing m places with
  | nil => rfl
  | cons id' ids ih =>
    cases places with
    | nil => rfl
    | cons p places =>
      obtain ⟨hne, hrest⟩ : id ≠ id' ∧ id ∉ ids := by simpa using h
      rw [setAll_cons, ih hrest, find_set_of_ne hne]

theorem find_setAll (hnodup : ids.Nodup) {k : Nat} (hid : ids[k]? = some id)
    (hp : places[k]? = some p) : (m.setAll ids places).find id = some (p % 2 ^ 16) := by
  induction ids generalizing m places k with
  | nil => cases hid
  | cons id' ids ih =>
    obtain ⟨hnew, hnodup⟩ := nodup_cons.mp hnodup
    cases places with
    | nil => cases hp
    | cons p' places =>
      rw [setAll_cons]
      cases k with
      | zero =>
        cases hid
        cases hp
        rw [find_setAll_of_not_mem hnew, find_set_self]
      | succ k => exact ih hnodup hid hp

theorem exists_of_find_setAll (h : (m.setAll ids places).find id = some p) :
    m.find id = some p ∨
      ∃ k p' : Nat, ids[k]? = some id ∧ places[k]? = some p' ∧ p = p' % 2 ^ 16 := by
  induction ids generalizing m places with
  | nil => exact .inl h
  | cons id' ids ih =>
    cases places with
    | nil => exact .inl h
    | cons p' places =>
      rcases ih h with hset | ⟨k, p'', hid, hp, heq⟩
      · by_cases hsame : id = id'
        · subst hsame
          have hfound : some (p' % 2 ^ 16) = some p := find_set_self.symm.trans hset
          exact .inr ⟨0, p', rfl, rfl, (Option.some.inj hfound).symm⟩
        · exact .inl ((find_set_of_ne hsame).symm.trans hset)
      · exact .inr ⟨k + 1, p'', hid, hp, heq⟩

end ShortIdMap

/-- The short ids get the places that are not filled, in their order. -/
theorem assignPositions_spec (env : CompactEnv) (all : List Nat) {ids : List Nat} {i offset : Nat}
    {m : ShortIdMap} (hlen : ids.length ≤ (freeFrom available (i + offset)).length)
    (hprefilled : available.length ≤ i + ids.length + 65535) :
    ∃ r, assignPositions env available all ids i offset m = some r ∧
      (r = .ok (m.setAll ids (freeFrom available (i + offset))) ∨
        r = .error .failed ∧ ∃ k id, 12 < env.bucketSize (all.take k) id) := by
  induction ids generalizing i offset m with
  | nil => exact ⟨.ok m, rfl, .inl rfl⟩
  | cons id ids ih =>
    cases hfree : freeFrom available (i + offset) with
    | nil =>
      rw [hfree] at hlen
      exact absurd hlen (not_succ_le_zero _)
    | cons p rest =>
      rw [hfree, length_cons, length_cons] at hlen
      rw [length_cons] at hprefilled
      have hmem : p ∈ freeFrom available (i + offset) := hfree ▸ mem_cons_self
      obtain ⟨⟨hle, hlt⟩, -⟩ := mem_freeFrom.mp hmem
      have hrest := freeFrom_tail hfree
      have hroom : rest.length ≤ available.length - (p + 1) := hrest ▸ length_freeFrom_le
      -- as many places are filled before it as the offset counts
      have hskip : skipAvailable available i (2 ^ 16) offset = some (p - i) :=
        skipAvailable_eq hfree (by omega) (by omega)
      have hplace : i + (p - i) = p := by omega
      have hnext : i + 1 + (p - i) = p + 1 := by omega
      rw [assignPositions, hskip]
      show ∃ r, (if 12 < env.bucketSize (all.take (i + 1)) id then
          some (Except.error ReadStatus.failed)
        else assignPositions env available all ids (i + 1) (p - i) (m.set id (i + (p - i)))) =
          some r ∧ _
      rw [hplace]
      split
      · next hbucket => exact ⟨_, rfl, .inr ⟨rfl, i + 1, id, hbucket⟩⟩
      · have hih : ∃ r, assignPositions env available all ids (i + 1) (p - i) (m.set id p) =
            some r ∧ _ := ih (by rw [hnext, ← hrest]; omega) (by omega)
        rw [hnext, ← hrest] at hih
        exact hih

/-! ## 3. The places of a block -/

/-- The transactions of the announcement go to the places it gives. -/
theorem placePrefilled_spec {vtx : List CTransaction} {nShort i start : Nat}
    {prefilled : List PrefilledTransaction} {out : List (Option CTransaction)}
    (hok : placePrefilled nShort prefilled i (start - 1) available = .ok out)
    (hbound : ∀ p ∈ positions start (prefilled.map (·.index.toNat)),
      p < available.length) (htxs : prefilled.map (some ·.tx) =
      (positions start (prefilled.map (·.index.toNat))).map (vtx[·]?)) :
    out.length = available.length ∧
      (∀ p ∈ positions start (prefilled.map (·.index.toNat)), p ≤ 65535) ∧
      ∀ p, out[p]?.join =
        if p ∈ positions start (prefilled.map (·.index.toNat)) then vtx[p]?
        else available[p]?.join := by
  induction prefilled generalizing i start available with
  | nil =>
    cases hok
    exact ⟨rfl, nofun, fun p => (if_neg not_mem_nil).symm⟩
  | cons x prefilled ih =>
    have hlast : (start : Int) - 1 + x.index.toNat + 1 = (start + x.index.toNat : Nat) := by omega
    rw [placePrefilled, hlast] at hok
    dsimp only at hok
    split at hok
    · cases hok
    split at hok
    · cases hok
    next hwidth =>
    split at hok
    · cases hok
    simp only [map_cons, positions] at hbound htxs ⊢
    obtain ⟨hhere, htail⟩ := forall_mem_cons.mp hbound
    obtain ⟨htx, htxs⟩ := cons.inj htxs
    have hnext : ((start + x.index.toNat : Nat) : Int) = (start + x.index.toNat + 1 : Nat) - 1 := by
      omega
    rw [Int.toNat_natCast, hnext] at hok
    obtain ⟨hlen, hle, hplaces⟩ := ih hok (by rwa [length_set]) htxs
    rw [length_set] at hlen
    refine ⟨hlen, forall_mem_cons.mpr ⟨by omega, hle⟩, fun p => ?_⟩
    rw [hplaces p]
    by_cases hp : p = start + x.index.toNat
    · have hnew : p ∉ positions (start + x.index.toNat + 1)
          (prefilled.map (·.index.toNat)) := by
        intro hmem
        have := le_of_mem_positions hmem
        omega
      subst hp
      rw [if_neg hnew, if_pos mem_cons_self, getElem?_set_self hhere]
      exact htx
    · rw [getElem?_set_ne (Ne.symm hp)]
      refine if_congr ?_ rfl rfl
      rw [mem_cons, or_iff_right hp]

section Announced

variable {env : CompactEnv} {fUseWTXID : Bool} {block : CBlock} {positions : List Nat}
  {c : CBlockHeaderAndShortTxIDs} {available : List (Option CTransaction)}

namespace CBlockHeaderAndShortTxIDs.Announces

section

variable (h : c.Announces env fUseWTXID block positions)

include h

theorem positions_eq :
    Differences.positions 0 (c.prefilledtxn.map (·.index.toNat)) = positions := by
  rw [h.indexes]
  exact positions_gaps h.sorted fun p _ => zero_le p

theorem length_shorttxids :
    c.shorttxids.length = (freePositions block.vtx.length positions).length := by
  simpa using congrArg length h.shortids

theorem blockTxCount_eq : c.blockTxCount = block.vtx.length := by
  have hprefilled : c.prefilledtxn.length = positions.length := by
    simpa using congrArg length h.txs
  have hfilled : ((range block.vtx.length).filter (· ∈ positions)).Perm positions := by
    refine (perm_ext_iff_of_nodup (nodup_range.filter _)
      (h.sorted.imp ne_of_lt)).mpr fun p => ?_
    rw [mem_filter, mem_range, decide_eq_true_eq]
    exact ⟨fun hp => hp.2, fun hp => ⟨h.bound p hp, hp⟩⟩
  have hsplit := length_eq_length_filter_add (l := range block.vtx.length)
    (· ∈ positions)
  rw [length_range, hfilled.length_eq] at hsplit
  have hfree : (freePositions block.vtx.length positions).length + positions.length =
      block.vtx.length := by
    rw [add_comm]
    refine Eq.trans ?_ hsplit.symm
    rw [freePositions]
    simp
  rw [blockTxCount, hprefilled, h.length_shorttxids, hfree]

end

/-- Where the transactions of the announcement are placed. -/
structure Placed (block : CBlock) (positions : List Nat) (available : List (Option CTransaction)) :
    Prop where
  length : available.length = block.vtx.length
  width : ∀ p ∈ positions, p ≤ 65535
  place : ∀ p : Nat, available[p]?.join = if p ∈ positions then block.vtx[p]? else none

theorem placed (h : c.Announces env fUseWTXID block positions)
    (hok : placePrefilled c.shorttxids.length c.prefilledtxn 0 (-1)
      (replicate c.blockTxCount none) = .ok available) : Placed block positions available := by
  have hbound : ∀ p ∈ Differences.positions 0 (c.prefilledtxn.map (·.index.toNat)),
      p < (replicate c.blockTxCount (none : Option CTransaction)).length := by
    intro p hp
    rw [h.positions_eq] at hp
    rw [length_replicate, h.blockTxCount_eq]
    exact h.bound p hp
  have htxs : c.prefilledtxn.map (some ·.tx) =
      (Differences.positions 0 (c.prefilledtxn.map (·.index.toNat))).map (block.vtx[·]?) := by
    rw [h.positions_eq]
    exact h.txs
  obtain ⟨hlen, hwidth, hplaces⟩ := placePrefilled_spec hok hbound htxs
  rw [h.positions_eq] at hwidth hplaces
  refine ⟨by rw [hlen, length_replicate, h.blockTxCount_eq], hwidth, fun p => ?_⟩
  rw [hplaces p]
  refine if_congr Iff.rfl rfl ?_
  rw [getElem?_replicate]
  split <;> rfl

/-- The places that are left are those that are not prefilled. -/
theorem Placed.freeFrom_eq (h : Placed block positions available)
    (hbound : ∀ p ∈ positions, p < block.vtx.length) :
    freeFrom available 0 = freePositions block.vtx.length positions := by
  rw [freeFrom, h.length, ← range_eq_range']
  refine filter_congr fun p _ => ?_
  rw [h.place p]
  by_cases hp : p ∈ positions
  · simp [hp, hbound p hp]
  · simp [hp]

/-- Up to 65536 transactions the short ids get the places that are not prefilled. -/
theorem map_eq (h : c.Announces env fUseWTXID block positions)
    (hplaced : Placed block positions available) (hn : block.vtx.length ≤ 65536) {m : ShortIdMap}
    (hassign : assignPositions env available c.shorttxids c.shorttxids 0 0 .empty = some (.ok m)) :
    m = ShortIdMap.empty.setAll c.shorttxids (freePositions block.vtx.length positions) := by
  have hfree := hplaced.freeFrom_eq h.bound
  have hlen := h.length_shorttxids
  generalize c.shorttxids = ids at hassign hlen ⊢
  cases ids with
  | nil => exact (Except.ok.inj (Option.some.inj hassign)).symm
  | cons id ids =>
    have hroom : (id :: ids).length ≤ (freeFrom available (0 + 0)).length := by
      rw [hfree]
      exact le_of_eq hlen
    have hwidth : available.length ≤ 0 + (id :: ids).length + 65535 := by
      rw [hplaced.length, length_cons]
      omega
    obtain ⟨r, hr, hcases⟩ := assignPositions_spec env _ hroom hwidth
    rw [hassign] at hr
    cases hr
    rcases hcases with hok | ⟨herr, -⟩
    · rw [← hfree]
      exact Except.ok.inj hok
    · cases herr

end CBlockHeaderAndShortTxIDs.Announces

end Announced

/-! ## 4. The search for the missing transactions -/

section Loops

variable {env : CompactEnv} {available : List (Option CTransaction)} {all ids : List Nat}
  {i offset : Nat} {m m' : ShortIdMap}

theorem assignPositions_cons {id : Nat} {r : Except ReadStatus ShortIdMap}
    (h : assignPositions env available all (id :: ids) i offset m = some r) :
    r = .error .failed ∨ ∃ offset', assignPositions env available all ids (i + 1) offset'
      (m.set id (i + offset')) = some r := by
  obtain ⟨offset', -, hrest⟩ := Option.bind_eq_some_iff.mp h
  split at hrest
  · exact .inl (Option.some.inj hrest).symm
  · exact .inr ⟨offset', hrest⟩

theorem assignPositions_error {status : ReadStatus}
    (h : assignPositions env available all ids i offset m = some (.error status)) :
    status = .failed := by
  induction ids generalizing i offset m with
  | nil => cases h
  | cons id ids ih =>
    rcases assignPositions_cons h with herr | ⟨offset', hrest⟩
    · exact Except.error.inj herr
    · exact ih hrest

theorem lt_of_assignPositions (h : assignPositions env available all ids i offset m = some (.ok m'))
    (hm : ∀ id p, m.find id = some p → p < 2 ^ 16) {id p : Nat} (hfind : m'.find id = some p) :
    p < 2 ^ 16 := by
  induction ids generalizing i offset m with
  | nil =>
    obtain rfl := Except.ok.inj (Option.some.inj h)
    exact hm id p hfind
  | cons id' ids ih =>
    rcases assignPositions_cons h with herr | ⟨offset', hrest⟩
    · cases herr
    · refine ih hrest fun key q hq => ?_
      by_cases hkey : key = id'
      · subst hkey
        rw [ShortIdMap.find_set_self] at hq
        cases hq
        exact mod_lt _ (by decide)
      · rw [ShortIdMap.find_set_of_ne hkey] at hq
        exact hm key q hq

end Loops

theorem readShortIds_ok {m : ShortIdMap} (h : readShortIds env c = some (.ok (m, available))) :
    placePrefilled c.shorttxids.length c.prefilledtxn 0 (-1)
        (replicate c.blockTxCount none) = .ok available ∧
      assignPositions env available c.shorttxids c.shorttxids 0 0 .empty = some (.ok m) ∧
      m.size = c.shorttxids.length := by
  rw [readShortIds] at h
  split at h
  · cases h
  · next places hplaces =>
    obtain ⟨r, hassign, hr⟩ := Option.map_eq_some_iff.mp h
    cases r with
    | error status => cases hr
    | ok m' =>
      dsimp only at hr
      split at hr
      · cases hr
      · next hsize =>
        cases hr
        exact ⟨hplaces, hassign, not_not.mp hsize⟩

theorem readShortIds_error {status : ReadStatus}
    (h : readShortIds env c = some (.error (status, available))) : status ≠ .ok := by
  rw [readShortIds] at h
  split at h
  · cases h
    decide
  · obtain ⟨r, hassign, hr⟩ := Option.map_eq_some_iff.mp h
    cases r with
    | error status' =>
      obtain rfl := assignPositions_error hassign
      cases hr
      decide
    | ok m' =>
      dsimp only at hr
      split at hr
      · cases hr
        decide
      · cases hr

theorem initData_ok {pool extra : List (Uint256 × CTransaction)} {pdb : PartiallyDownloadedBlock}
    (h : initData env pool extra c .init = some (.ok, pdb)) :
    ∃ m available, readShortIds env c = some (.ok (m, available)) ∧
      pdb.header = some c.header ∧
      pdb.txnAvailable = (scan m (c.getShortID env) (scanExtraTx env m) extra
        (scan m (c.getShortID env) (scanPoolTx m) pool ⟨available, [], 0⟩)).txnAvailable := by
  rw [initData] at h
  split at h
  · cases h
  split at h
  · cases h
  split at h
  · cases h
  obtain ⟨r, hread, hr⟩ := Option.map_eq_some_iff.mp h
  cases r with
  | error e => exact absurd (Prod.mk.inj hr).1 (readShortIds_error hread)
  | ok r =>
    cases hr
    exact ⟨_, _, hread, rfl, rfl⟩

/-- Every place is empty or has the transaction of the block that belongs there. -/
structure Right (vtx : List CTransaction) (available : List (Option CTransaction)) : Prop where
  length : available.length = vtx.length
  place : ∀ (p : Nat) (tx : CTransaction), available[p]?.join = some tx → vtx[p]? = some tx

section Scans

variable {env : CompactEnv} {vtx : List CTransaction} {available : List (Option CTransaction)}
  {m : ShortIdMap} {s : Scan} {idx shortid : Nat} {tx : CTransaction}

theorem Right.set (h : Right vtx available) {place : Option CTransaction}
    (hplace : ∀ tx, place = some tx → vtx[idx]? = some tx) :
    Right vtx (available.set idx place) := by
  refine ⟨by rw [length_set, h.length], fun p tx htx => ?_⟩
  by_cases hp : idx = p
  · subst hp
    rw [getElem?_set] at htx
    split at htx
    · split at htx
      · exact hplace tx htx
      · cases htx
    · next hne => exact absurd rfl hne
  · rw [getElem?_set_ne hp] at htx
    exact h.place p tx htx

theorem Right.take (h : Right vtx s.txnAvailable) (htx : vtx[idx]? = some tx) :
    Right vtx (s.take idx tx).txnAvailable :=
  h.set fun _ heq => Option.some.inj heq ▸ htx

theorem Right.reset (h : Right vtx s.txnAvailable) : Right vtx (s.reset idx).txnAvailable :=
  h.set nofun

section

variable (h : Right vtx s.txnAvailable)
    (htx : ∀ idx, m.find shortid = some idx → vtx[idx]? = some tx)

include h htx

theorem scanPoolTx_right : Right vtx (scanPoolTx m shortid tx s).txnAvailable := by
  rw [scanPoolTx]
  split
  · exact h
  · next idx hfind =>
    split
    · exact h.take (htx idx hfind)
    split
    · exact h.reset
    · exact h

theorem scanExtraTx_right : Right vtx (scanExtraTx env m shortid tx s).txnAvailable := by
  rw [scanExtraTx]
  split
  · exact h
  · next idx hfind =>
    split
    · exact h.take (htx idx hfind)
    split
    · split
      · exact h.reset
      · exact h
    · exact h

end

/-- A scan puts transactions where they belong, if the short ids say where that is. -/
theorem scan_right {one : Nat → CTransaction → Scan → Scan} {key : Uint256 → Nat}
    {entries : List (Uint256 × CTransaction)}
    (hone : ∀ {shortid tx s}, Right vtx s.txnAvailable →
      (∀ idx, m.find shortid = some idx → vtx[idx]? = some tx) →
      Right vtx (one shortid tx s).txnAvailable)
    (h : Right vtx s.txnAvailable)
    (hentries : ∀ x ∈ entries, ∀ idx, m.find (key x.1) = some idx → vtx[idx]? = some x.2) :
    Right vtx (scan m key one entries s).txnAvailable := by
  induction entries generalizing s with
  | nil => exact h
  | cons x entries ih =>
    obtain ⟨hash, tx⟩ := x
    obtain ⟨hx, hentries⟩ := forall_mem_cons.mp hentries
    have hstep := hone h hx
    rw [scan]
    split
    · exact hstep
    · exact ih hstep hentries

end Scans

/-- The transactions whose places are empty, in their order. -/
def missingTxn (vtx : List CTransaction) (available : List (Option CTransaction)) :
    List CTransaction :=
  (vtx.zip available).filterMap fun x => if x.2.isNone then some x.1 else none

theorem missingTxn_none (tx : CTransaction) (vtx : List CTransaction)
    (available : List (Option CTransaction)) :
    missingTxn (tx :: vtx) (none :: available) = tx :: missingTxn vtx available := rfl

theorem missingTxn_some (tx tx' : CTransaction) (vtx : List CTransaction)
    (available : List (Option CTransaction)) :
    missingTxn (tx :: vtx) (some tx' :: available) = missingTxn vtx available := rfl

/-- With the missing transactions the block is complete. -/
theorem fillTxn_missingTxn {vtx : List CTransaction} (h : Right vtx available) :
    fillTxn available (missingTxn vtx available) = .ok (vtx, []) := by
  induction available generalizing vtx with
  | nil =>
    obtain rfl : vtx = [] := eq_nil_of_length_eq_zero h.length.symm
    rfl
  | cons place available ih =>
    cases vtx with
    | nil => cases h.length
    | cons tx vtx =>
      have htail : Right vtx available :=
        ⟨succ.inj h.length, fun p tx' htx' => h.place (p + 1) tx' htx'⟩
      have hfill := ih htail
      cases place with
      | none => rw [missingTxn_none, fillTxn, hfill]
      | some tx' =>
        cases h.place 0 tx' rfl
        rw [missingTxn_some, fillTxn, hfill]

/-! ## 5. The block -/

/-- The transactions that are looked at, with the hashes that their short ids are made of. -/
def involved (env : CompactEnv) (fUseWTXID : Bool) (block : CBlock)
    (pool extra : List (Uint256 × CTransaction)) : List (Uint256 × CTransaction) :=
  block.vtx.map (fun tx => (announcedHash env fUseWTXID tx, tx)) ++ pool ++ extra

/-- No two different transactions share a short id. -/
def NoSharedShortID (env : CompactEnv) (c : CBlockHeaderAndShortTxIDs)
    (entries : List (Uint256 × CTransaction)) : Prop :=
  ∀ x ∈ entries, ∀ y ∈ entries, c.getShortID env x.1 = c.getShortID env y.1 → x.2 = y.2

/-- The `i`th short id is assigned to the `i`th place that is not prefilled. -/
def AssignedInOrder (c : CBlockHeaderAndShortTxIDs) (m : ShortIdMap) (free : List Nat) : Prop :=
  ∀ i : Nat, (c.shorttxids[i]?).bind m.find = free[i]?

section Blocks

variable {env : CompactEnv} {fUseWTXID : Bool} {block : CBlock} {positions : List Nat}
  {c : CBlockHeaderAndShortTxIDs} {pool extra : List (Uint256 × CTransaction)}
  {pdb : PartiallyDownloadedBlock} {m : ShortIdMap} {available : List (Option CTransaction)}

theorem lt_of_mem_freePositions {n p : Nat} (h : p ∈ freePositions n positions) :
    p < n ∧ p ∉ positions := by
  rw [freePositions, mem_filter, mem_range, decide_eq_true_eq] at h
  exact h

section

variable (h : c.Announces env fUseWTXID block positions)
    (hread : readShortIds env c = some (.ok (m, available)))

include h hread

/-- The places are in order exactly if they fit 16 bits. -/
theorem assignedInOrder_iff :
    AssignedInOrder c m (freePositions block.vtx.length positions) ↔ block.vtx.length ≤ 65536 := by
  obtain ⟨hplaces, hassign, hsize⟩ := readShortIds_ok hread
  have hplaced := h.placed hplaces
  constructor
  · intro horder
    by_contra hlarge
    -- the last place is not prefilled, and no place in the map is as large
    have hfree : block.vtx.length - 1 ∈ freePositions block.vtx.length positions := by
      rw [freePositions, mem_filter, mem_range, decide_eq_true_eq]
      refine ⟨by omega, fun hmem => ?_⟩
      have := hplaced.width _ hmem
      omega
    obtain ⟨k, hk, hget⟩ := getElem_of_mem hfree
    have hfound := horder k
    rw [getElem?_eq_getElem hk] at hfound
    obtain ⟨id, -, hfind⟩ := Option.bind_eq_some_iff.mp hfound
    have hlt := lt_of_assignPositions hassign nofun hfind
    omega
  · intro hn k
    have hmap := h.map_eq hplaced hn hassign
    subst hmap
    have hnodup := ShortIdMap.nodup_of_size hsize
    cases hid : c.shorttxids[k]? with
    | none =>
      have hle := getElem?_eq_none_iff.mp hid
      rw [h.length_shorttxids] at hle
      rw [getElem?_eq_none hle]
      rfl
    | some id =>
      obtain ⟨hk, -⟩ := List.getElem?_eq_some_iff.mp hid
      rw [h.length_shorttxids] at hk
      have hp := getElem?_eq_getElem hk
      have hlt := (lt_of_mem_freePositions (getElem_mem hk)).1
      rw [Option.bind_some, ShortIdMap.find_setAll hnodup hid hp, hp, mod_eq_of_lt (by omega)]

/-- Without collisions, what is found under a short id is the transaction of the block. -/
theorem eq_of_find (hn : block.vtx.length ≤ 65536) {entries : List (Uint256 × CTransaction)}
    (hfree : NoSharedShortID env c entries)
    (hblock : ∀ tx ∈ block.vtx, (announcedHash env fUseWTXID tx, tx) ∈ entries)
    {x : Uint256 × CTransaction} (hx : x ∈ entries) {idx : Nat}
    (hfind : m.find (c.getShortID env x.1) = some idx) : block.vtx[idx]? = some x.2 := by
  obtain ⟨hplaces, hassign, -⟩ := readShortIds_ok hread
  have hmap := h.map_eq (h.placed hplaces) hn hassign
  subst hmap
  rcases ShortIdMap.exists_of_find_setAll hfind with hnone | ⟨k, p, hid, hp, hidx⟩
  · cases hnone
  have hlt := (lt_of_mem_freePositions (mem_of_getElem? hp)).1
  obtain rfl : idx = p := by rw [hidx, mod_eq_of_lt (by omega)]
  -- the short id at this place is that of the transaction there
  have hshort := congrArg (·[k]?) h.shortids
  simp only [getElem?_map, hid, hp, Option.map_some, getElem?_eq_getElem hlt,
    Option.some.injEq] at hshort
  have hsame := hfree x hx _ (hblock _ (getElem_mem hlt)) hshort
  rw [getElem?_eq_getElem hlt, hsame]

end

/-- An announced block is rebuilt: the short ids are assigned in order exactly up to 65536
transactions, and then, without collisions, `FillBlock` gives the block. -/
theorem compact_block_rebuilt (h : c.Announces env fUseWTXID block positions)
    (hok : initData env pool extra c .init = some (.ok, pdb)) :
    ∃ m available, readShortIds env c = some (.ok (m, available)) ∧
      (AssignedInOrder c m (freePositions block.vtx.length positions) ↔
        block.vtx.length ≤ 65536) ∧
      (block.vtx.length ≤ 65536 →
        NoSharedShortID env c (involved env fUseWTXID block pool extra) →
        ∀ checkBlock, ∃ status pdb',
          fillBlock checkBlock pdb (missingTxn block.vtx pdb.txnAvailable) =
            (status, some block, pdb') ∧
          (status = .ok ↔ checkBlock block = .passed)) := by
  obtain ⟨m, available, hread, hheader, havailable⟩ := initData_ok hok
  refine ⟨m, available, hread, assignedInOrder_iff h hread, fun hn hfree checkBlock => ?_⟩
  have hplaced := h.placed (readShortIds_ok hread).1
  have hblock : ∀ tx ∈ block.vtx,
      (announcedHash env fUseWTXID tx, tx) ∈ involved env fUseWTXID block pool extra := by
    intro tx htx
    exact mem_append_left _ (mem_append_left _ (mem_map_of_mem htx))
  have hplaces : Right block.vtx available := by
    refine ⟨hplaced.length, fun p tx htx => ?_⟩
    rw [hplaced.place p] at htx
    split at htx
    · exact htx
    · cases htx
  have hpool : Right block.vtx
      (scan m (c.getShortID env) (scanPoolTx m) pool ⟨available, [], 0⟩).txnAvailable :=
    scan_right scanPoolTx_right hplaces fun x hx idx hfind =>
      eq_of_find h hread hn hfree hblock
        (mem_append_left _ (mem_append_right _ hx)) hfind
  have hright : Right block.vtx pdb.txnAvailable := by
    rw [havailable]
    exact scan_right scanExtraTx_right hpool fun x hx idx hfind =>
      eq_of_find h hread hn hfree hblock (mem_append_right _ hx) hfind
  have hsame : (⟨c.header, block.vtx⟩ : CBlock) = block := by rw [h.header]
  rw [fillBlock, hheader]
  rw [fillTxn_missingTxn hright]
  dsimp only
  rw [hsame]
  cases hcheck : checkBlock block with
  | passed => exact ⟨.ok, _, rfl, by simp⟩
  | corrupted => exact ⟨.failed, _, rfl, by simp⟩
  | failed => exact ⟨.checkBlockFailed, _, rfl, by simp⟩

end Blocks

end Rebuilding

namespace CompactExample

/-- Hashes and short ids that keep the first four bytes, and buckets of one id. -/
def env : CompactEnv where
  crypto :=
    { sha256 := ofBytes
      ripemd160 := fun _ => 0
      sha1 := fun _ => 0
      scrypt := fun _ => 0 }
  sipHashUint256 := fun _ _ h => h.toNat % 2 ^ 32
  bucketSize := fun _ _ => 1

def tx (version : Nat) : CTransaction := ⟨(UInt32.ofNat version).toInt32, [], [⟨0, []⟩], 0⟩

/-- A block with a coinbase and `n` more transactions. -/
def block (n : Nat) : CBlock :=
  ⟨⟨⟨1, 0, 0, 0, 1, 0⟩, none⟩, tx n :: (List.range n).map tx⟩

def announcement (n : Nat) : CBlockHeaderAndShortTxIDs where
  header := (block n).toCBlockHeader
  nonce := 0
  shorttxids := ((List.range n).map tx).map fun t =>
    shortID env (block n).toCBlockHeader 0 (announcedHash env false t)
  prefilledtxn := [⟨0, tx n⟩]

theorem announces (n : Nat) : (announcement n).Announces env false (block n) [0] := by
  have hmade : ofBlock env 0 (block n) false = some (announcement n) := rfl
  exact announces_ofBlock hmade

theorem hash256_env (b : Bytes) : env.crypto.hash256 b = ofBytes b :=
  ofBytes_bytes _

theorem sipHashUint256_env {k0 k1 : Nat} (h : Uint256) :
    env.sipHashUint256 k0 k1 h = h.toNat % 2 ^ 32 := rfl

theorem serializeNoWitness_tx {version : Nat} (h : version < 2 ^ 32) :
    (tx version).serializeNoWitness = encode 4 version ++
      (serVector CTxIn.serialize [] ++ serVector CTxOut.serialize [⟨0, []⟩] ++ serUInt32 0) := by
  have hver : (UInt32.ofNat version).toInt32.toUInt32.toNat = version := by
    exact UInt32.toNat_ofNat_of_lt' h
  rw [CTransaction.serializeNoWitness, tx, serInt32, hver, append_assoc, append_assoc, append_assoc]

theorem shortID_tx {header : CBlockHeader} {version : Nat} (h : version < 2 ^ 32) :
    shortID env header 0 (announcedHash env false (tx version)) = version := by
  have hhash : announcedHash env false (tx version) =
      ofBytes (tx version).serializeNoWitness := hash256_env _
  have hmod : ∀ x : Nat, (version % 256 ^ 4 + 256 ^ 4 * x) % 2 ^ 256 % 2 ^ 32 % 2 ^ 48 =
      version := by
    omega
  rw [shortID, hhash, sipHashUint256_env, ofBytes, BitVec.toNat_ofNat,
    serializeNoWitness_tx h, decode_append, decode_encode]
  exact hmod _

theorem shorttxids_announcement {n : Nat} (h : n ≤ 2 ^ 32) :
    (announcement n).shorttxids = range n := by
  have hid : ∀ version ∈ range n,
      shortID env (block n).toCBlockHeader 0 (announcedHash env false (tx version)) = id version :=
    fun version hversion => shortID_tx (lt_of_lt_of_le (mem_range.mp hversion) h)
  rw [announcement, map_map]
  exact (map_congr_left hid).trans (map_id _)

def places (n : Nat) : List (Option CTransaction) :=
  (List.replicate (announcement n).blockTxCount none).set 0 (some (tx n))

theorem placePrefilled_announcement (n : Nat) :
    placePrefilled (announcement n).shorttxids.length (announcement n).prefilledtxn 0 (-1)
      (replicate (announcement n).blockTxCount none) = .ok (places n) := by
  have hlast : ((-1 : Int) + (0 : UInt16).toNat + 1) = 0 := rfl
  rw [show (announcement n).prefilledtxn = [⟨0, tx n⟩] from rfl]
  rfl

theorem readShortIds_announcement {n : Nat} (h : n ≤ 2 ^ 32) :
    ∃ m, readShortIds env (announcement n) = some (.ok (m, places n)) := by
  have hannounces := announces n
  have hplaced := hannounces.placed (placePrefilled_announcement n)
  have hfree := hplaced.freeFrom_eq hannounces.bound
  have hlen := hannounces.length_shorttxids
  have hroom : (announcement n).shorttxids.length ≤ (freeFrom (places n) (0 + 0)).length := by
    rw [hfree]
    exact le_of_eq hlen
  have hwidth : (places n).length ≤ 0 + (announcement n).shorttxids.length + 65535 := by
    rw [hplaced.length, shorttxids_announcement h]
    simp only [block, length_cons, length_map, length_range]
    omega
  obtain ⟨r, hassign, hcases⟩ :=
    assignPositions_spec env (announcement n).shorttxids hroom hwidth
  rcases hcases with rfl | ⟨-, k, id, hbucket⟩
  · have hsize : (ShortIdMap.empty.setAll (announcement n).shorttxids
        (freeFrom (places n) (0 + 0))).size = (announcement n).shorttxids.length := by
      rw [ShortIdMap.size_setAll (by rw [shorttxids_announcement h]; exact nodup_range)
        (fun _ _ => not_mem_nil) hroom]
      exact zero_add _
    rw [readShortIds, placePrefilled_announcement]
    dsimp only
    rw [hassign, Option.map_some]
    dsimp only
    rw [if_neg (not_not_intro hsize)]
    exact ⟨_, rfl⟩
  · exact absurd hbucket (not_lt.mpr (le_of_ble_eq_true rfl))

theorem length_vtx (n : Nat) : (block n).vtx.length = n + 1 := by
  simp [block]

theorem initData_announcement {n : Nat} (hn : n + 1 ≤ 100000)
    (pool extra : List (Uint256 × CTransaction)) :
    ∃ pdb, initData env pool extra (announcement n) .init = some (.ok, pdb) := by
  obtain ⟨m, hread⟩ := readShortIds_announcement (n := n) (by omega)
  have hnull : ¬ ((announcement n).header.isNull || ((announcement n).shorttxids.isEmpty &&
      (announcement n).prefilledtxn.isEmpty)) = true := by
    simp [announcement, block, CPureBlockHeader.isNull]
  have hmax : maxBlockTxCount = 100000 := by decide +kernel
  have hcount : ¬ maxBlockTxCount < (announcement n).blockTxCount := by
    rw [(announces n).blockTxCount_eq, length_vtx]
    omega
  rw [initData, if_neg hnull, if_neg hcount, hread]
  exact ⟨_, rfl⟩

end CompactExample

open CompactExample in
/-- A block of 65537 transactions is accepted, and the places of its short ids are wrong. -/
theorem compact_block_misplaced :
    (announcement 65536).Announces env false (block 65536) [0] ∧
      ∃ pdb m available, initData env [] [] (announcement 65536) .init = some (.ok, pdb) ∧
        readShortIds env (announcement 65536) = some (.ok (m, available)) ∧
        ¬ AssignedInOrder (announcement 65536) m (freePositions (block 65536).vtx.length [0]) := by
  obtain ⟨m, hread⟩ := readShortIds_announcement (n := 65536) (by decide)
  obtain ⟨pdb, hok⟩ := initData_announcement (n := 65536) (by decide) [] []
  refine ⟨announces 65536, pdb, m, _, hok, hread, ?_⟩
  rw [assignedInOrder_iff (announces 65536) hread, length_vtx]
  decide

open CompactExample in
/-- A block of three transactions, one of them in the mempool. -/
theorem compact_block_rebuilt_small :
    ∃ pdb m available,
      initData env [((tx 1).getHash env.crypto, tx 1)] [] (announcement 2) .init =
        some (.ok, pdb) ∧
      readShortIds env (announcement 2) = some (.ok (m, available)) ∧
      AssignedInOrder (announcement 2) m (freePositions (block 2).vtx.length [0]) ∧
      ∃ pdb', fillBlock (fun _ => .passed) pdb (missingTxn (block 2).vtx pdb.txnAvailable) =
        (.ok, some (block 2), pdb') := by
  obtain ⟨pdb, hok⟩ :=
    initData_announcement (n := 2) (by decide) [((tx 1).getHash env.crypto, tx 1)] []
  obtain ⟨m, available, hread, hiff, hfill⟩ := compact_block_rebuilt (announces 2) hok
  have hfree : NoSharedShortID env (announcement 2) (involved env false (block 2)
      [((tx 1).getHash env.crypto, tx 1)] []) := by
    unfold NoSharedShortID
    decide +kernel
  obtain ⟨status, pdb', hblock, hstatus⟩ := hfill (by decide) hfree fun _ => .passed
  rw [hstatus.mpr rfl] at hblock
  exact ⟨pdb, m, available, hok, hread, hiff.mpr (by decide), pdb', hblock⟩

end RgmNode
