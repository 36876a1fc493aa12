import Mathlib.Data.List.Sort

/-!
# Upper median of a list

The element at position `length / 2` of the sorted list.

* `median_mem` — the median of a nonempty list is one of its elements
* `median_le` — a bound on all elements is a bound on the median
* `le_median_iff` — how many elements are at least as large as the median
-/

namespace Median

open List

variable {α : Type*} [LinearOrder α] [Inhabited α] {l : List α} {b : α}

def median (l : List α) : α := (l.insertionSort (· ≤ ·)).getD (l.length / 2) default

omit [Inhabited α] in
theorem half_lt (h : l ≠ []) : l.length / 2 < (l.insertionSort (· ≤ ·)).length := by
  rw [length_insertionSort]
  exact Nat.div_lt_self (length_pos_iff.mpr h) (by decide)

theorem median_mem (h : l ≠ []) : median l ∈ l := by
  have hmem : median l ∈ l.insertionSort (· ≤ ·) := by
    rw [median, getD_eq_getElem?_getD, getElem?_eq_getElem (half_lt h)]
    exact getElem_mem (half_lt h)
  exact (perm_insertionSort _ _).mem_iff.mp hmem

theorem median_le (h : l ≠ []) (hb : ∀ x ∈ l, x ≤ b) : median l ≤ b := hb _ (median_mem h)

omit [Inhabited α] in
/-- In a sorted list the elements from a place on are the ones at least as large. -/
theorem le_getElem_iff {s : List α} (hs : s.Pairwise (· ≤ ·)) {k : Nat} (hk : k < s.length) :
    b ≤ s[k] ↔ s.length - k ≤ s.countP (b ≤ ·) := by
  have hmono := (sortedLE_iff_pairwise.mpr hs).getElem_le_getElem_of_le
  constructor
  · intro hb
    rw [← length_drop]
    refine le_trans (le_of_eq (countP_eq_length.mpr ?_).symm)
      (drop_sublist k s).countP_le
    intro x hx
    obtain ⟨i, hi, rfl⟩ := mem_drop_iff_getElem.mp hx
    refine decide_eq_true (hb.trans ?_)
    exact hmono (Nat.le_add_right k i)
  · intro hcount
    by_contra hlt
    have hnone : (s.take (k + 1)).countP (b ≤ ·) = 0 := by
      refine countP_eq_zero.mpr fun x hx => ?_
      obtain ⟨i, hi, rfl⟩ := mem_take_iff_getElem.mp hx
      rw [decide_eq_true_iff]
      intro hb
      refine hlt (hb.trans ?_)
      exact hmono (by omega)
    have hrest := countP_le_length (p := (b ≤ ·)) (l := s.drop (k + 1))
    rw [← take_append_drop (k + 1) s, countP_append] at hcount
    rw [length_drop] at hrest
    rw [length_append, length_take, length_drop] at hcount
    omega

theorem le_median_iff (h : l ≠ []) :
    b ≤ median l ↔ l.length - l.length / 2 ≤ l.countP (b ≤ ·) := by
  rw [median, getD_eq_getElem?_getD, getElem?_eq_getElem (half_lt h), Option.getD_some,
    le_getElem_iff (pairwise_insertionSort (· ≤ ·) l) (half_lt h), length_insertionSort,
    (perm_insertionSort (· ≤ ·) l).countP_eq]

/-- A window that moves on by an element above its median has no smaller median. -/
theorem median_le_window (w : Nat) {t : α} (hl : l ≠ []) (ht : median (l.take (w + 1)) ≤ t) :
    median (l.take (w + 1)) ≤ median ((t :: l).take (w + 1)) := by
  have hne : l.take (w + 1) ≠ [] := by simpa using hl
  have hold := (le_median_iff hne).mp (le_refl _)
  -- of the elements that count, only the last of the old window is lost
  have hlast : l.take (w + 1) = l.take w ++ (l.drop w).take 1 := take_add
  have hlost := countP_le_length (p := (median (l.take (w + 1)) ≤ ·))
    (l := (l.drop w).take 1)
  rw [take_succ_cons, le_median_iff (cons_ne_nil _ _),
    countP_cons, if_pos (decide_eq_true ht), length_cons]
  rw [length_take, length_drop] at hlost
  generalize median (l.take (w + 1)) = b at *
  rw [hlast, countP_append, length_append, length_take, length_take, length_drop] at hold
  rw [length_take]
  omega

end Median
