import Mathlib.Data.List.Perm.Subperm
import RgmNode.Lib.Differences
import RgmNode.Primitives.Stream

/-!
# The index list of `getblocktxn`

`BlockTransactionsRequest` of `blockencodings.h` asks for transactions of a block by their
indexes.  The indexes are sent as differences, each one as a `CompactSize` that must fit 16 bits;
the reader adds them up again in a 16-bit `offset`.  After the index 65535 the offset is 0 again,
and what follows is accepted below the indexes before it.

* `addOffsets_pairwise_iff` — what is accepted is increasing exactly if 65535 is not reached before
  the last difference
-/

namespace RgmNode

open List Differences

structure BlockTransactionsRequest where
  blockhash : Uint256
  indexes : List UInt16
deriving DecidableEq, Repr

namespace BlockTransactionsRequest

/-! ## 1. The code -/

/-- The differences that are written; `least` is the number after the index before. -/
def differences : Int → List UInt16 → List Nat
  | _, [] => []
  | least, i :: is =>
    -- the subtraction is one of `int`s, its value goes into a `uint64_t`
    ((i.toNat - least) % 2 ^ 64).toNat :: differences (i.toNat + 1) is

/-- `SerializationOp` for writing -/
def serialize (r : BlockTransactionsRequest) : Bytes :=
  r.blockhash.bytes ++ serVector writeCompactSize (differences 0 r.indexes)

def readIndex : Reader UInt16 := do
  let index ← readCompactSize
  -- index overflowed 16 bits
  if 65535 < index then failure else return UInt16.ofNat index

def readDifferences : Reader (Uint256 × List UInt16) := do
  let blockhash ← readUint256
  let indexes ← readList readIndex
  return (blockhash, indexes)

/-- The loop that turns differences into indexes. -/
def addOffsets : UInt16 → List UInt16 → Option (List UInt16)
  | _, [] => some []
  | offset, d :: ds => do
    -- indexes overflowed 16 bits
    if 65535 < d.toNat + offset.toNat then none
    else
      let index := d + offset
      let is ← addOffsets (index + 1) ds
      return index :: is

/-- `SerializationOp` for reading -/
def unserialize : Reader BlockTransactionsRequest := do
  let (blockhash, differences) ← readDifferences
  let indexes ← addOffsets 0 differences
  return ⟨blockhash, indexes⟩

/-! ## 2. Differences and indexes -/

variable {offset d i : UInt16} {ds is : List UInt16} {start : Nat}

def numbers (is : List UInt16) : List Nat := is.map UInt16.toNat

theorem differences_eq_gaps (hsorted : is.Pairwise (· < ·)) (hstart : ∀ i ∈ is, start ≤ i.toNat) :
    differences start is = gaps start (numbers is) := by
  induction is generalizing start with
  | nil => rfl
  | cons i is ih =>
    obtain ⟨hhead, htail⟩ := pairwise_cons.mp hsorted
    have hle : start ≤ i.toNat := hstart i mem_cons_self
    have hlt : i.toNat < 2 ^ 16 := i.toNat_lt
    have hdiff : (((i.toNat : Int) - start) % 2 ^ 64).toNat = i.toNat - start := by omega
    rw [differences, hdiff, show (i.toNat : Int) + 1 = ((i.toNat + 1 : Nat) : Int) by simp,
      ih htail fun j hj => UInt16.lt_iff_toNat_lt.mp (hhead j hj)]
    rfl

theorem toNat_add (h : d.toNat + offset.toNat ≤ 65535) :
    (d + offset).toNat = offset.toNat + d.toNat := by
  rw [UInt16.toNat_add]
  omega

theorem toNat_succ (h : i.toNat < 65535) : (i + 1).toNat = i.toNat + 1 := by
  rw [UInt16.toNat_add, UInt16.toNat_one]
  omega

theorem addOffsets_cons (h : d.toNat + offset.toNat ≤ 65535) :
    addOffsets offset (d :: ds) = (addOffsets (d + offset + 1) ds).map ((d + offset) :: ·) := by
  rw [addOffsets, if_neg (not_lt.mpr h)]
  exact (Option.map_eq_bind ..).symm

theorem le_of_addOffsets_cons (h : addOffsets offset (d :: ds) = some is) :
    d.toNat + offset.toNat ≤ 65535 := by
  by_contra hover
  rw [addOffsets, if_pos (not_le.mp hover)] at h
  cases h

/-- The reader finds the indexes with the given differences, if there are any. -/
theorem addOffsets_of_positions
    (h : numbers is = positions offset.toNat (numbers ds)) :
    addOffsets offset ds = some is := by
  induction ds generalizing offset is with
  | nil =>
    obtain rfl : is = [] := map_eq_nil_iff.mp h
    rfl
  | cons d ds ih =>
    cases is with
    | nil => cases h
    | cons i is =>
      obtain ⟨hi, htail⟩ := List.cons.inj h
      have hlt : i.toNat < 2 ^ 16 := i.toNat_lt
      have hsum : d.toNat + offset.toNat ≤ 65535 := by omega
      have heq : d + offset = i := UInt16.toNat_inj.mp ((toNat_add hsum).trans hi.symm)
      rw [addOffsets_cons hsum, heq]
      have hrest : addOffsets (i + 1) ds = some is := by
        cases ds with
        | nil =>
          obtain rfl : is = [] := map_eq_nil_iff.mp htail
          rfl
        | cons d' ds =>
          cases is with
          | nil => cases htail
          | cons j is =>
            -- the index is below the next one, so the offset does not wrap
            have hj : j.toNat = offset.toNat + d.toNat + 1 + d'.toNat := (List.cons.inj htail).1
            have hlt' : j.toNat < 2 ^ 16 := j.toNat_lt
            refine ih (htail.trans ?_)
            rw [toNat_succ (by omega), hi]
            rfl
      rw [hrest]
      rfl

/-- No index before the last is 65535. -/
def TopOnlyLast (start : Nat) (ds : List UInt16) : Prop :=
  ∀ k, k + 1 < ds.length → start + (numbers (ds.take (k + 1))).sum + k ≠ 65535

theorem topOnlyLast_cons {d' : UInt16} : TopOnlyLast start (d :: d' :: ds) ↔
    start + d.toNat ≠ 65535 ∧ TopOnlyLast (start + d.toNat + 1) (d' :: ds) := by
  constructor
  · intro h
    refine ⟨by simpa [numbers] using h 0 (by simp), fun k hk => ?_⟩
    have hnext := h (k + 1) (by simpa using hk)
    simp only [numbers, take_succ_cons, map_cons, sum_cons] at hnext ⊢
    omega
  · rintro ⟨hfirst, hrest⟩ k hk
    cases k with
    | zero => simpa [numbers] using hfirst
    | succ k =>
      have hnext := hrest k (by simpa using hk)
      simp only [numbers, take_succ_cons, map_cons, sum_cons] at hnext ⊢
      omega

/-- Without a wrap the indexes are those with the given differences. -/
theorem numbers_of_addOffsets (h : addOffsets offset ds = some is)
    (htop : TopOnlyLast offset.toNat ds) :
    numbers is = positions offset.toNat (numbers ds) := by
  induction ds generalizing offset is with
  | nil =>
    cases h
    rfl
  | cons d ds ih =>
    have hsum := le_of_addOffsets_cons h
    rw [addOffsets_cons hsum] at h
    obtain ⟨is, hrest, rfl⟩ := Option.map_eq_some_iff.mp h
    cases ds with
    | nil =>
      cases hrest
      simp [numbers, positions, toNat_add hsum]
    | cons d' ds =>
      obtain ⟨hne, htop⟩ := topOnlyLast_cons.mp htop
      have hnext : (d + offset + 1).toNat = offset.toNat + d.toNat + 1 := by
        rw [toNat_succ (by rw [toNat_add hsum]; omega), toNat_add hsum]
      have htail := ih hrest (hnext ▸ htop)
      rw [hnext] at htail
      show (d + offset).toNat :: numbers is = _
      rw [htail, toNat_add hsum]
      rfl

/-- An increasing list of indexes was read without a wrap. -/
theorem topOnlyLast_of_pairwise (h : addOffsets offset ds = some is)
    (hsorted : is.Pairwise (· < ·)) : TopOnlyLast offset.toNat ds := by
  induction ds generalizing offset is with
  | nil =>
    intro k hk
    exact absurd hk (Nat.not_lt_zero _)
  | cons d ds ih =>
    have hsum := le_of_addOffsets_cons h
    rw [addOffsets_cons hsum] at h
    obtain ⟨is, hrest, rfl⟩ := Option.map_eq_some_iff.mp h
    obtain ⟨hhead, htail⟩ := pairwise_cons.mp hsorted
    cases ds with
    | nil =>
      intro k hk
      simp at hk
    | cons d' ds =>
      have hsum' := le_of_addOffsets_cons hrest
      have hrest' := hrest
      rw [addOffsets_cons hsum'] at hrest'
      obtain ⟨js, -, rfl⟩ := Option.map_eq_some_iff.mp hrest'
      -- the next index is larger, so this one is not the largest there is
      have hlt := UInt16.lt_iff_toNat_lt.mp (hhead _ mem_cons_self)
      have hbound : (d' + (d + offset + 1)).toNat < 2 ^ 16 := UInt16.toNat_lt _
      rw [toNat_add hsum] at hlt
      have hnext : (d + offset + 1).toNat = offset.toNat + d.toNat + 1 := by
        rw [toNat_succ (by rw [toNat_add hsum]; omega), toNat_add hsum]
      exact topOnlyLast_cons.mpr ⟨by omega, hnext ▸ ih hrest htail⟩

theorem pairwise_of_numbers (h : (numbers is).Pairwise (· < ·)) : is.Pairwise (· < ·) :=
  (pairwise_map.mp h).imp UInt16.lt_iff_toNat_lt.mpr

theorem addOffsets_pairwise_iff (h : addOffsets offset ds = some is) :
    is.Pairwise (· < ·) ↔ TopOnlyLast offset.toNat ds := by
  constructor
  · exact topOnlyLast_of_pairwise h
  · intro htop
    apply pairwise_of_numbers
    rw [numbers_of_addOffsets h htop]
    exact pairwise_positions

/-! ## 3. Messages -/

/-- Increasing indexes are at most as many as there are numbers of 16 bits. -/
theorem length_le_of_pairwise (hsorted : is.Pairwise (· < ·)) : is.length ≤ maxSize := by
  have hnodup : (numbers is).Nodup :=
    (pairwise_map.mpr (hsorted.imp UInt16.lt_iff_toNat_lt.mp)).imp ne_of_lt
  have hsubset : numbers is ⊆ List.range 65536 := by
    intro n hn
    obtain ⟨i, -, rfl⟩ := mem_map.mp hn
    exact mem_range.mpr i.toNat_lt
  have hle := (subperm_of_subset hnodup hsubset).length_le
  rw [numbers, length_map, length_range] at hle
  exact hle.trans (by decide)

theorem readIndex_write (d : UInt16) (rest : Bytes) :
    readIndex (writeCompactSize d.toNat ++ rest) = some (d, rest) := by
  have hlt : d.toNat < 65536 := d.toNat_lt
  have hmax : d.toNat ≤ maxSize := (le_of_lt hlt).trans (by decide)
  rw [readIndex, bind_apply_of_eq (readCompactSize_write hmax rest),
    if_neg (not_lt.mpr (Nat.le_of_lt_succ hlt)), UInt16.ofNat_toNat]
  rfl

theorem readDifferences_write (hash : Uint256) (hlen : ds.length ≤ maxSize) (rest : Bytes) :
    readDifferences (hash.bytes ++ serVector writeCompactSize (numbers ds) ++ rest) =
      some ((hash, ds), rest) := by
  have hser : serVector writeCompactSize (numbers ds) =
      serVector (fun d : UInt16 => writeCompactSize d.toNat) ds := by
    rw [serVector, serVector, numbers, length_map, flatMap_map]
  have hread := readList_serVector hlen (fun d _ rest => readIndex_write d rest) rest
  rw [map_id'] at hread
  rw [readDifferences, append_assoc, bind_apply_of_eq (readUint256_bytes hash _), hser,
    bind_apply_of_eq hread]
  rfl

theorem exists_differences (hsorted : is.Pairwise (· < ·)) :
    ∃ ds : List UInt16, ds.length = is.length ∧ numbers ds = differences 0 is ∧
      numbers is = positions 0 (numbers ds) := by
  have hgaps : differences 0 is = gaps 0 (numbers is) :=
    differences_eq_gaps hsorted fun i _ => Nat.zero_le _
  let ds := (gaps 0 (numbers is)).map UInt16.ofNat
  have hds : numbers ds = gaps 0 (numbers is) := by
    rw [numbers, map_map]
    refine (map_congr_left fun d hd => ?_).trans (map_id _)
    obtain ⟨n, hn, hle⟩ := exists_of_mem_gaps hd
    obtain ⟨i, -, rfl⟩ := mem_map.mp hn
    have hlt : i.toNat < 65536 := i.toNat_lt
    rw [Function.comp_apply, UInt16.toNat_ofNat', id, Nat.mod_eq_of_lt (by omega)]
  refine ⟨ds, by simp [ds, numbers], hds.trans hgaps.symm, ?_⟩
  rw [hds, positions_gaps _ fun i _ => Nat.zero_le i]
  exact pairwise_map.mpr (hsorted.imp UInt16.lt_iff_toNat_lt.mp)

theorem unserialize_serialize {r : BlockTransactionsRequest} (hsorted : r.indexes.Pairwise (· < ·))
    (rest : Bytes) : unserialize (r.serialize ++ rest) = some (r, rest) := by
  obtain ⟨ds, hlen, hds, hpositions⟩ := exists_differences hsorted
  have hread := readDifferences_write r.blockhash (hlen ▸ length_le_of_pairwise hsorted) rest
  have hadd : addOffsets 0 ds = some r.indexes := addOffsets_of_positions hpositions
  rw [hds] at hread
  rw [unserialize, serialize, bind_apply_of_eq hread]
  simp only [hadd]
  rfl

/-- An accepted message has the indexes that its differences give. -/
theorem addOffsets_of_unserialize {bytes rest : Bytes} {r : BlockTransactionsRequest}
    (h : unserialize bytes = some (r, rest)) :
    ∃ ds, readDifferences bytes = some ((r.blockhash, ds), rest) ∧
      addOffsets 0 ds = some r.indexes := by
  obtain ⟨⟨hash, ds⟩, s, hread, hrest⟩ := exists_of_bind_apply h
  obtain ⟨is, s', hadd, heq⟩ := exists_of_bind_apply hrest
  cases hsome : addOffsets 0 ds with
  | none =>
    simp only [hsome] at hadd
    cases hadd
  | some js =>
    simp only [hsome] at hadd
    cases hadd
    cases heq
    exact ⟨ds, hread, hsome⟩

/-- Increasing lists are coded faithfully, and a message that is accepted has an increasing list
exactly if its differences reach 65535 at the last index at the earliest. -/
theorem indexes_coded (r : BlockTransactionsRequest) (bytes rest : Bytes) :
    (r.indexes.Pairwise (· < ·) → unserialize (r.serialize ++ rest) = some (r, rest)) ∧
    (unserialize bytes = some (r, rest) →
      ∃ ds, readDifferences bytes = some ((r.blockhash, ds), rest) ∧
        (r.indexes.Pairwise (· < ·) ↔ TopOnlyLast 0 ds)) := by
  constructor
  · intro hsorted
    exact unserialize_serialize hsorted rest
  · intro h
    obtain ⟨ds, hread, hadd⟩ := addOffsets_of_unserialize h
    exact ⟨ds, hread, addOffsets_pairwise_iff hadd⟩

/-- The largest index may stand last. -/
theorem indexes_coded_top :
    unserialize (serialize ⟨0, [7, 65535]⟩ ++ [1]) = some (⟨0, [7, 65535]⟩, [1]) :=
  (indexes_coded ⟨0, [7, 65535]⟩ [] [1]).1 (by decide)

/-- After 65535 the reader starts again at 0. -/
theorem indexes_wrap :
    unserialize (Uint256.bytes 0 ++ [2, 253, 255, 255, 0]) = some (⟨0, [65535, 0]⟩, []) ∧
      ¬ ([65535, 0] : List UInt16).Pairwise (· < ·) := by
  decide +kernel

end BlockTransactionsRequest

end RgmNode
