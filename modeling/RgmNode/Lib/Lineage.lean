import Mathlib.Order.Basic
import Mathlib.Tactic.Common

/-!
# Lineages

A node of a rooted forest together with everything above it: a root, or a child of a
lineage.  Two nodes with the same label but different ancestors are different lineages,
so a lineage is its own identity and needs no pointers.

`a ≤ b` says that `a` is `b` or one of its ancestors.

* `Lineage.ancestorAt_eq_some_iff` — the ancestor at a height is the unique one
* `Lineage.mem_between` — the nodes a walk from `b` down to `a` passes
-/

universe u

inductive Lineage (α : Type u) where
  | root (a : α)
  | child (p : Lineage α) (a : α)
deriving DecidableEq, Repr

instance {α : Type u} [DecidableEq α] : LawfulBEq (Lineage α) := inferInstance

namespace Lineage

open List

variable {α : Type u} {a b c x : Lineage α} {v : α} {n : Nat}

/-! ## 1. Labels, parents, heights -/

def val : Lineage α → α
  | root v => v
  | child _ v => v

def parent? : Lineage α → Option (Lineage α)
  | root _ => none
  | child p _ => some p

def height : Lineage α → Nat
  | root _ => 0
  | child p _ => p.height + 1

@[simp] theorem height_child : (child a v).height = a.height + 1 := rfl

theorem height_of_parent? (h : b.parent? = some a) : b.height = a.height + 1 := by
  cases b with
  | root v => cases h
  | child p v =>
    obtain rfl := Option.some.inj h
    rfl

/-! ## 2. Ancestry as an order -/

/-- `Anc a b`: `a` is `b` itself or an ancestor of `b`. -/
inductive Anc : Lineage α → Lineage α → Prop where
  | refl (a : Lineage α) : Anc a a
  | step {a p : Lineage α} {v : α} : Anc a p → Anc a (child p v)

theorem Anc.trans (hab : Anc a b) (hbc : Anc b c) : Anc a c := by
  induction hbc with
  | refl => exact hab
  | step _ ih => exact .step ih

theorem Anc.height_le (h : Anc a b) : a.height ≤ b.height := by
  induction h with
  | refl => exact Nat.le_refl _
  | step _ ih => exact Nat.le_succ_of_le ih

theorem Anc.eq_of_height (h : Anc a b) (hh : b.height ≤ a.height) : a = b := by
  cases h with
  | refl => rfl
  | step h' =>
    have := h'.height_le
    simp only [height_child] at hh
    omega

instance : PartialOrder (Lineage α) where
  le := Anc
  le_refl := .refl
  le_trans _ _ _ := .trans
  le_antisymm _ _ hab hba := hab.eq_of_height hba.height_le

theorem height_mono (h : a ≤ b) : a.height ≤ b.height := Anc.height_le h

theorem eq_of_le_of_height (h : a ≤ b) (hh : b.height ≤ a.height) : a = b :=
  Anc.eq_of_height h hh

@[simp] theorem le_root_iff : a ≤ root v ↔ a = root v := by
  constructor
  · intro h
    cases h
    rfl
  · rintro rfl
    exact le_refl _

theorem le_child_iff : a ≤ child b v ↔ a = child b v ∨ a ≤ b := by
  constructor
  · intro h
    cases h with
    | refl => exact .inl rfl
    | step h' => exact .inr h'
  · rintro (rfl | h)
    · exact le_refl _
    · exact Anc.step h

theorem lt_child_iff : a < child b v ↔ a ≤ b := by
  constructor
  · intro h
    exact (le_child_iff.mp h.le).resolve_left h.ne
  · intro h
    refine lt_of_le_of_ne (le_child_iff.mpr (.inr h)) ?_
    rintro rfl
    exact Nat.not_succ_le_self _ (height_mono h)

theorem parent?_lt (h : b.parent? = some a) : a < b := by
  cases b with
  | root v => cases h
  | child p v =>
    obtain rfl := Option.some.inj h
    exact lt_child_iff.mpr (le_refl _)

/-- What lies strictly above a node lies at or above its parent. -/
theorem le_of_lt_of_parent? (h : x < b) (hp : b.parent? = some a) : x ≤ a := by
  cases b with
  | root v => cases hp
  | child p v =>
    obtain rfl := Option.some.inj hp
    exact lt_child_iff.mp h

/-! ## 3. The ancestor at a given height -/

/-- The ancestor of height `n`, found by following parents. -/
def ancestorAt (n : Nat) : Lineage α → Option (Lineage α)
  | root v => if n = 0 then some (root v) else none
  | child p v => if n = p.height + 1 then some (child p v) else p.ancestorAt n

theorem ancestorAt_eq_some_iff : b.ancestorAt n = some a ↔ a ≤ b ∧ a.height = n := by
  induction b with
  | root v =>
    simp only [ancestorAt, le_root_iff]
    split
    · next h0 =>
      constructor
      · rintro ⟨⟩
        exact ⟨rfl, h0.symm⟩
      · rintro ⟨rfl, _⟩
        rfl
    · next h0 =>
      constructor
      · rintro ⟨⟩
      · rintro ⟨rfl, h⟩
        exact absurd h.symm h0
  | child p v ih =>
    simp only [ancestorAt]
    split
    · next hn =>
      constructor
      · rintro ⟨⟩
        exact ⟨le_refl _, hn.symm⟩
      · rintro ⟨hle, hh⟩
        rw [eq_of_le_of_height hle (by simp [hh, hn])]
    · next hn =>
      rw [ih, le_child_iff]
      constructor
      · rintro ⟨hle, hh⟩
        exact ⟨.inr hle, hh⟩
      · rintro ⟨rfl | hle, hh⟩
        · exact absurd hh.symm hn
        · exact ⟨hle, hh⟩

/-- Asking for the ancestor at `a`'s own height decides whether `a` is one. -/
theorem ancestorAt_height_iff : b.ancestorAt a.height = some a ↔ a ≤ b := by
  simp [ancestorAt_eq_some_iff]

/-- Below an ancestor `a` of `b` the ancestors of `a` and of `b` are the same. -/
theorem ancestorAt_of_le (hab : a ≤ b) (hn : n ≤ a.height) : b.ancestorAt n = a.ancestorAt n := by
  induction b with
  | root v => rw [le_root_iff.mp hab]
  | child p v ih =>
    rcases le_child_iff.mp hab with rfl | hap
    · rfl
    · have hlt : n ≠ p.height + 1 := by
        have := height_mono hap
        omega
      rw [ancestorAt, if_neg hlt, ih hap]

/-- The ancestors of one node lie on a line. -/
theorem le_of_le_of_height (ha : a ≤ c) (hb : b ≤ c) (hh : a.height ≤ b.height) : a ≤ b := by
  rw [← ancestorAt_height_iff, ← ancestorAt_of_le hb hh, ancestorAt_height_iff]
  exact ha

theorem ancestorAt_eq_none (hn : b.height < n) : b.ancestorAt n = none := by
  cases h : b.ancestorAt n with
  | none => rfl
  | some a =>
    obtain ⟨hle, hh⟩ := ancestorAt_eq_some_iff.mp h
    have := height_mono hle
    omega

@[simp] theorem ancestorAt_self : b.ancestorAt b.height = some b :=
  ancestorAt_eq_some_iff.mpr ⟨le_refl _, rfl⟩

theorem exists_ancestorAt (hn : n ≤ b.height) : ∃ a, b.ancestorAt n = some a := by
  induction b with
  | root v => exact ⟨root v, by rw [Nat.le_zero.mp hn]; rfl⟩
  | child p v ih =>
    rcases Nat.lt_or_eq_of_le hn with hlt | heq
    · rw [height_child] at hlt
      rw [ancestorAt, if_neg (by omega)]
      exact ih (by omega)
    · exact ⟨child p v, by rw [heq, ancestorAt_self]⟩

/-- The line from the root down to a node: the ancestor of height `n` stands at place `n`. -/
def path : Lineage α → List (Lineage α)
  | root v => [root v]
  | child p v => p.path ++ [child p v]

@[simp] theorem length_path : b.path.length = b.height + 1 := by
  induction b with
  | root v => rfl
  | child p v ih => simp [path, ih]

theorem mem_path : a ∈ b.path ↔ a ≤ b := by
  induction b with
  | root v => simp [path]
  | child p v ih => rw [path, mem_append, ih, mem_singleton, le_child_iff, or_comm]

theorem getElem?_path : b.path[n]? = b.ancestorAt n := by
  induction b with
  | root v =>
    cases n with
    | zero => rfl
    | succ n => simp [path, ancestorAt]
  | child p v ih =>
    rw [path, ancestorAt]
    by_cases hn : n = p.height + 1
    · subst hn
      simp
    · rw [if_neg hn]
      rcases Nat.lt_or_gt_of_ne hn with hlt | hgt
      · rw [getElem?_append_left (by simpa using hlt), ih]
      · rw [ancestorAt_eq_none (by omega)]
        exact getElem?_eq_none (by simp; omega)

instance [DecidableEq α] : DecidableLE (Lineage α) := fun a b =>
  decidable_of_iff (b.ancestorAt a.height = some a) ancestorAt_height_iff

instance [DecidableEq α] : DecidableLT (Lineage α) := fun a b =>
  decidable_of_iff (a ≤ b ∧ a ≠ b) lt_iff_le_and_ne.symm

/-! ## 4. Walking down -/

/-- The nodes a walk from `b` to its ancestor `a` passes, `b` included and `a` not. -/
def between [DecidableEq α] (a : Lineage α) : Lineage α → List (Lineage α)
  | root v => if root v = a then [] else [root v]
  | child p v => if child p v = a then [] else child p v :: between a p

theorem mem_between [DecidableEq α] (hab : a ≤ b) : x ∈ between a b ↔ a < x ∧ x ≤ b := by
  induction b with
  | root v =>
    obtain rfl := le_root_iff.mp hab
    simp only [between, if_true, not_mem_nil, le_root_iff, false_iff, not_and]
    intro h hx
    exact h.ne hx.symm
  | child p v ih =>
    simp only [between]
    split
    · next he =>
      subst he
      simp only [not_mem_nil, false_iff, not_and]
      intro h hx
      exact absurd (lt_of_lt_of_le h hx) (lt_irrefl _)
    · next hne =>
      have hap : a ≤ p := (le_child_iff.mp hab).resolve_left (Ne.symm hne)
      rw [mem_cons, ih hap, le_child_iff]
      constructor
      · rintro (rfl | ⟨hax, hxp⟩)
        · exact ⟨lt_child_iff.mpr hap, .inl rfl⟩
        · exact ⟨hax, .inr hxp⟩
      · rintro ⟨hax, rfl | hxp⟩
        · exact .inl rfl
        · exact .inr ⟨hax, hxp⟩

/-- The labels on the way from a node to its root, nearest first. -/
def labels : Lineage α → List α
  | root v => [v]
  | child p v => v :: p.labels

end Lineage
