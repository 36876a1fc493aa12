import Mathlib.Tactic.Common

/-!
# Increasing lists as differences

A strictly increasing list of numbers is sent as the gaps between its members: how many numbers
are left out before each of them.  The gaps of any list give an increasing one again.

* `pairwise_positions` — any gaps give an increasing list
-/

namespace Differences

/-- The list with the given gaps, from `start` on. -/
def positions : Nat → List Nat → List Nat
  | _, [] => []
  | start, d :: ds => (start + d) :: positions (start + d + 1) ds

/-- What is left out before each member, from `start` on. -/
def gaps : Nat → List Nat → List Nat
  | _, [] => []
  | start, i :: is => (i - start) :: gaps (i + 1) is

variable {start i : Nat} {ds is : List Nat}

@[simp] theorem length_gaps : (gaps start is).length = is.length := by
  induction is generalizing start with
  | nil => rfl
  | cons i is ih => simp [gaps, ih]

/-- No gap is larger than the member behind it. -/
theorem exists_of_mem_gaps {d : Nat} (h : d ∈ gaps start is) : ∃ i ∈ is, d ≤ i := by
  induction is generalizing start with
  | nil => cases h
  | cons i is ih =>
    rcases List.mem_cons.mp h with rfl | htail
    · exact ⟨i, List.mem_cons_self, Nat.sub_le i start⟩
    · obtain ⟨j, hj, hle⟩ := ih htail
      exact ⟨j, List.mem_cons_of_mem i hj, hle⟩

theorem le_of_mem_positions (h : i ∈ positions start ds) : start ≤ i := by
  induction ds generalizing start with
  | nil => cases h
  | cons d ds ih =>
    rcases List.mem_cons.mp h with rfl | htail
    · exact Nat.le_add_right start d
    · have hle := ih htail
      omega

theorem pairwise_positions : (positions start ds).Pairwise (· < ·) := by
  induction ds generalizing start with
  | nil => exact .nil
  | cons d ds ih => exact .cons (fun j hj => le_of_mem_positions hj) ih

theorem positions_gaps (hsorted : is.Pairwise (· < ·)) (hstart : ∀ i ∈ is, start ≤ i) :
    positions start (gaps start is) = is := by
  induction is generalizing start with
  | nil => rfl
  | cons i is ih =>
    obtain ⟨hhead, htail⟩ := List.pairwise_cons.mp hsorted
    have hi : start + (i - start) = i := Nat.add_sub_cancel' (hstart i List.mem_cons_self)
    rw [gaps, positions, hi, ih htail fun j hj => hhead j hj]

end Differences
