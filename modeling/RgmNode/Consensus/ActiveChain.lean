import Mathlib.Data.List.ReduceOption
import RgmNode.Consensus.Chain

/-!
# The active chain

`CChain` keeps the entries of the active chain in a vector, by height.  `SetTip` overwrites
the vector from the new tip down and stops as soon as it meets an entry that is in place
already, which is right only because everything below such an entry is in place too.

* `CChain.setTip` — the vector is the line of its tip again, so this is part of the type
-/

namespace RgmNode

open Lineage List

/-- The loop of `SetTip`; `none` is the null pointer that `resize` fills in. -/
def setTipLoop : CBlockIndex → List (Option CBlockIndex) → List (Option CBlockIndex)
  | .root d, v => if v[0]? = some (some (.root d)) then v else v.set 0 (some (.root d))
  | .child p d, v =>
    if v[p.height + 1]? = some (some (.child p d)) then v
    else setTipLoop p (v.set (p.height + 1) (some (.child p d)))

/-- `vChain.resize(n)` -/
def resizeChain (vChain : List CBlockIndex) (n : Nat) : List (Option CBlockIndex) :=
  (vChain.map some ++ List.replicate n none).take n

/-- If the entries up to the new tip are those of some old tip `t` (null above it), the loop
replaces them by the ancestors of the new tip and touches nothing else. -/
theorem setTipLoop_spec {t : Option CBlockIndex} (p : CBlockIndex)
    (v : List (Option CBlockIndex))
    (hold : ∀ i ≤ p.height, v[i]? = some (t.bind (ancestorAt i))) :
    (∀ i ≤ p.height, (setTipLoop p v)[i]? = some (p.ancestorAt i)) ∧
      ∀ i, p.height < i → (setTipLoop p v)[i]? = v[i]? := by
  induction p generalizing v with
  | root d =>
    have hlen : 0 < v.length := by
      have := List.getElem?_eq_some_iff.mp (hold 0 (le_refl _))
      exact this.1
    rw [setTipLoop]
    split
    · next hin =>
      refine ⟨fun i hi => ?_, fun i _ => rfl⟩
      obtain rfl : i = 0 := Nat.le_zero.mp hi
      exact hin
    · refine ⟨fun i hi => ?_, fun i hi => ?_⟩
      · obtain rfl : i = 0 := Nat.le_zero.mp hi
        rw [getElem?_set_self hlen]
        rfl
      · exact getElem?_set_ne (Nat.ne_of_lt hi)
  | child p d ih =>
    have htop := hold (p.height + 1) (le_refl _)
    rw [setTipLoop]
    split
    · next hin =>
      -- the old chain passes through the new tip: everything below agrees
      refine ⟨fun i hi => ?_, fun i _ => rfl⟩
      rw [hin, Option.some.injEq] at htop
      cases t with
      | none => cases htop
      | some t =>
        have hle : child p d ≤ t := (ancestorAt_eq_some_iff.mp htop.symm).1
        rw [hold i hi]
        exact congrArg some (ancestorAt_of_le hle hi)
    · have hset : ∀ i ≤ p.height,
          (v.set (p.height + 1) (some (child p d)))[i]? = some (t.bind (ancestorAt i)) := by
        intro i hi
        rw [getElem?_set_ne (by omega)]
        exact hold i (by simp; omega)
      obtain ⟨hlow, hhigh⟩ := ih _ hset
      refine ⟨fun i hi => ?_, fun i hi => ?_⟩
      · rcases lt_or_eq_of_le hi with hlt | heq
        · rw [height_child] at hlt
          rw [hlow i (by omega), ancestorAt, if_neg (by omega)]
        · rw [height_child] at heq
          subst heq
          rw [hhigh _ (by omega), List.getElem?_set_self (List.getElem?_eq_some_iff.mp htop).1]
          simp [ancestorAt]
      · rw [height_child] at hi
        rw [hhigh i (by omega), getElem?_set_ne (by omega)]

/-- The entries of a chain by height: those of its tip. -/
structure CChain where
  vChain : List CBlockIndex
  line : vChain = [] ∨ ∃ t, vChain = path t

namespace CChain

variable {c : CChain} {p t : CBlockIndex}

def tip (c : CChain) : Option CBlockIndex := c.vChain.getLast?

/-- `operator[]` -/
def entry (c : CChain) (nHeight : Nat) : Option CBlockIndex := c.vChain[nHeight]?

def contains (c : CChain) (pindex : CBlockIndex) : Bool := c.entry pindex.nHeight == some pindex

/-- `Height()`, -1 for the empty chain -/
def height (c : CChain) : Int := (c.vChain.length : Int) - 1

def empty : CChain := ⟨[], .inl rfl⟩

theorem resizeChain_getElem? (c : CChain) {n i : Nat} (hi : i < n) :
    (resizeChain c.vChain n)[i]? = some (c.entry i) := by
  unfold resizeChain CChain.entry
  rw [getElem?_take_of_lt hi]
  by_cases hlen : i < c.vChain.length
  · rw [getElem?_append_left (by simpa using hlen), getElem?_map]
    rw [getElem?_eq_getElem hlen]
    rfl
  · have hge : c.vChain.length ≤ i := not_lt.mp hlen
    rw [getElem?_append_right (by simpa using hge), getElem?_eq_none hge,
      getElem?_replicate_of_lt (by simp; omega)]

theorem entry_eq_tip (c : CChain) (i : Nat) : c.entry i = c.tip.bind (ancestorAt i) := by
  unfold entry tip
  rcases c.line with h | ⟨t, h⟩
  · rw [h]
    rfl
  · have hlast : t.path.getLast? = some t := by cases t <;> simp [path]
    rw [h, hlast, getElem?_path]
    rfl

/-- The vector after `SetTip(pindex)` for a `pindex` that is not null. -/
theorem setTipLoop_resizeChain (c : CChain) (p : CBlockIndex) :
    (setTipLoop p (resizeChain c.vChain (p.nHeight + 1))).reduceOption = p.path := by
  obtain ⟨hlow, hhigh⟩ := setTipLoop_spec p (resizeChain c.vChain (p.nHeight + 1))
    fun i hi => by
      rw [resizeChain_getElem? c (show i < p.nHeight + 1 from Nat.lt_succ_of_le hi), entry_eq_tip]
  have hmap : setTipLoop p (resizeChain c.vChain (p.nHeight + 1)) = p.path.map some := by
    refine ext_getElem? fun i => ?_
    rw [getElem?_map, getElem?_path]
    rcases Nat.lt_or_ge p.height i with hgt | hle
    · rw [hhigh i hgt, ancestorAt_eq_none hgt]
      refine getElem?_eq_none ?_
      simp only [resizeChain, length_take, CBlockIndex.nHeight]
      omega
    · rw [hlow i hle]
      cases h : p.ancestorAt i with
      | some a => rfl
      | none =>
        obtain ⟨a, ha⟩ := exists_ancestorAt hle
        rw [h] at ha
        cases ha
  rw [hmap, List.reduceOption]
  simp

def setTip (c : CChain) : Option CBlockIndex → CChain
  | none => empty
  | some pindex =>
    ⟨(setTipLoop pindex (resizeChain c.vChain (pindex.nHeight + 1))).reduceOption,
      .inr ⟨pindex, setTipLoop_resizeChain c pindex⟩⟩

@[simp] theorem tip_setTip (c : CChain) (o : Option CBlockIndex) : (c.setTip o).tip = o := by
  cases o with
  | none => rfl
  | some p =>
    have hlast : p.path.getLast? = some p := by cases p <;> simp [path]
    simp only [tip, setTip, setTipLoop_resizeChain, hlast]

/-- A block is in the chain exactly if it is the tip or one of its ancestors. -/
theorem contains_iff : c.contains p = true ↔ ∃ t, c.tip = some t ∧ p ≤ t := by
  rw [contains, beq_iff_eq, entry_eq_tip]
  cases c.tip with
  | none => simp
  | some t =>
    simp only [Option.bind_some, Option.some.injEq, exists_eq_left']
    exact ancestorAt_height_iff

theorem height_eq_of_tip (h : c.tip = some p) : c.height = p.nHeight := by
  rcases c.line with hnil | ⟨t, hpath⟩
  · rw [tip, hnil] at h
    cases h
  · have hlast : t.path.getLast? = some t := by cases t <;> simp [path]
    rw [tip, hpath, hlast, Option.some.injEq] at h
    subst h
    rw [height, hpath]
    simp [CBlockIndex.nHeight]

/-- The walk of `FindFork`: down from `p` to the first entry in the chain. -/
def findForkFrom (c : CChain) : CBlockIndex → Option CBlockIndex
  | .root d => if c.contains (.root d) then some (.root d) else none
  | .child p d => if c.contains (.child p d) then some (.child p d) else c.findForkFrom p

def findFork (c : CChain) (pindex : CBlockIndex) : Option CBlockIndex :=
  if (pindex.nHeight : Int) > c.height then
    (pindex.getAncestor c.height.toNat).bind c.findForkFrom
  else c.findForkFrom pindex

end CChain

end RgmNode
