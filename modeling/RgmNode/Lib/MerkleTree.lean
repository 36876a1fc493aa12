import Mathlib.Algebra.Group.Nat.Even

/-!
# Trees of hashes padded on the right

The root of a list of leaves under a binary hash `node`: full subtrees are joined in pairs, and
a node without a right neighbour is joined with itself.  `J` is what is known of two different
nodes that are joined, `D` of a node joined with itself.
-/

namespace MerkleTree

open List

variable {α : Type*} {node : α → α → α} {J D : α → α → Prop}

/-- `Full k h xs`: `h` is the root of the `2 ^ k` leaves `xs`. -/
inductive Full (node : α → α → α) (J : α → α → Prop) : Nat → α → List α → Prop
  | leaf (a : α) : Full node J 0 a [a]
  | join {k : Nat} {l r : α} {xs ys : List α} : Full node J k l xs → Full node J k r ys →
      J l r → Full node J (k + 1) (node l r) (xs ++ ys)

/-- `Padded k h xs`: `h` is the root of the tree of height `k` over the leaves `xs`, of which
there may be too few. -/
inductive Padded (node : α → α → α) (J D : α → α → Prop) : Nat → α → List α → Prop
  | leaf (a : α) : Padded node J D 0 a [a]
  | double {k : Nat} {h : α} {xs : List α} : Padded node J D k h xs → D h h →
      Padded node J D (k + 1) (node h h) xs
  | join {k : Nat} {l r : α} {xs ys : List α} : Full node J k l xs → Padded node J D k r ys →
      J l r → Padded node J D (k + 1) (node l r) (xs ++ ys)

variable {k k' : Nat} {h : α} {xs ys : List α}

theorem Full.padded (hfull : Full node J k h xs) : Padded node J D k h xs := by
  induction hfull with
  | leaf a => exact .leaf a
  | join hl _ hj _ ihr => exact .join hl ihr hj

theorem Full.length_eq (hfull : Full node J k h xs) : xs.length = 2 ^ k := by
  induction hfull with
  | leaf a => rfl
  | join _ _ _ ihl ihr => rw [length_append, ihl, ihr, pow_succ, Nat.mul_two]

theorem Padded.length_pos (hp : Padded node J D k h xs) : 0 < xs.length := by
  induction hp with
  | leaf a => exact Nat.one_pos
  | double _ _ ih => exact ih
  | join _ _ _ ih =>
    rw [length_append]
    exact Nat.add_pos_right _ ih

theorem Padded.length_le (hp : Padded node J D k h xs) : xs.length ≤ 2 ^ k := by
  induction hp with
  | leaf a => exact le_refl 1
  | double _ _ ih => exact le_trans ih (Nat.pow_le_pow_right Nat.two_pos (Nat.le_succ _))
  | join hl _ _ ih =>
    rw [length_append, hl.length_eq, pow_succ, Nat.mul_two]
    exact Nat.add_le_add_left ih _

/-- A joined tree has more leaves than half of the full one. -/
theorem Padded.length_lt_join {h' r : α} {us vs : List α} (hp : Padded node J D k h xs)
    (hl : Full node J k h' us) (hr : Padded node J D k r vs) : xs.length < (us ++ vs).length := by
  rw [length_append, hl.length_eq]
  exact lt_of_le_of_lt hp.length_le (Nat.lt_add_of_pos_right hr.length_pos)

theorem Full.root_unique {h' : α} (hx : Full node J k h xs) (hy : Full node J k h' xs) : h = h' := by
  induction hx generalizing h' with
  | leaf a =>
    generalize hv : [a] = v at hy
    cases hy with
    | leaf => exact (List.cons.inj hv).1
  | @join _ _ _ us vs hl _ _ ihl ihr =>
    generalize hv : us ++ vs = v at hy
    cases hy with
    | join hl' hr' _ =>
      obtain ⟨rfl, rfl⟩ := append_inj hv (hl.length_eq.trans hl'.length_eq.symm)
      rw [ihl hl', ihr hr']

theorem Padded.root_unique {h' : α} (hx : Padded node J D k h xs) (hy : Padded node J D k h' xs) :
    h = h' := by
  induction hx generalizing h' with
  | leaf a =>
    generalize hv : [a] = v at hy
    cases hy with
    | leaf => exact (List.cons.inj hv).1
  | double hp _ ih =>
    cases hy with
    | double hp' _ => rw [ih hp']
    | join hl' hp' _ => exact absurd (hp.length_lt_join hl' hp') (lt_irrefl _)
  | @join _ _ _ us vs hl hp _ ih =>
    generalize hv : us ++ vs = v at hy
    cases hy with
    | double hp' _ => exact absurd (hv ▸ hp'.length_lt_join hl hp) (lt_irrefl _)
    | join hl' hp' _ =>
      obtain ⟨rfl, rfl⟩ := append_inj hv (hl.length_eq.trans hl'.length_eq.symm)
      rw [hl.root_unique hl', ih hp']

/-- A tree that is no higher than its leaves need is no higher than another over as many. -/
theorem height_le {n : Nat} (hlow : 2 ^ k < 2 * n) (hle : n ≤ 2 ^ k') : k ≤ k' := by
  have hlt : 2 ^ k < 2 ^ (k' + 1) := by
    rw [pow_succ, mul_comm]
    exact lt_of_lt_of_le hlow (Nat.mul_le_mul_left 2 hle)
  exact Nat.lt_succ_iff.mp ((Nat.pow_lt_pow_iff_right (by decide : 1 < 2)).mp hlt)

/-- The leaves give the root, if the tree is no higher than they need. -/
theorem Padded.root_eq {h' : α} (hx : Padded node J D k h xs) (hk : 2 ^ k < 2 * xs.length)
    (hy : Padded node J D k' h' xs) (hk' : 2 ^ k' < 2 * xs.length) : h = h' := by
  obtain rfl : k = k' :=
    le_antisymm (height_le hk hy.length_le) (height_le hk' hx.length_le)
  exact hx.root_unique hy

section Injective

variable (hinj : ∀ l r l' r', (J l r ∨ D l r) → (J l' r' ∨ D l' r') → node l r = node l' r' →
  l = l' ∧ r = r')

include hinj

theorem Full.unique (hx : Full node J k h xs) (hy : Full node J k h ys) : xs = ys := by
  induction hx generalizing ys with
  | leaf a =>
    cases hy with
    | leaf => rfl
  | join _ _ hj ihl ihr =>
    generalize hv : node _ _ = v at hy
    cases hy with
    | join hl' hr' hj' =>
      obtain ⟨rfl, rfl⟩ := hinj _ _ _ _ (.inl hj) (.inl hj') hv
      rw [ihl hl', ihr hr']

/-- The root gives the leaves, if no two equal nodes are joined or the number of leaves is known. -/
theorem Padded.unique (hx : Padded node J D k h xs) (hy : Padded node J D k h ys)
    (hcase : (∀ l, ¬ J l l) ∨ xs.length = ys.length) : xs = ys := by
  induction hx generalizing ys with
  | leaf a =>
    cases hy with
    | leaf => rfl
  | double hp hd ih =>
    generalize hv : node _ _ = v at hy
    cases hy with
    | double hp' hd' =>
      obtain ⟨rfl, -⟩ := hinj _ _ _ _ (.inr hd) (.inr hd') hv
      exact ih hp' hcase
    | join hl' hp' hj' =>
      obtain ⟨rfl, rfl⟩ := hinj _ _ _ _ (.inr hd) (.inl hj') hv
      exact absurd (hcase.resolve_left fun hne => hne _ hj') (ne_of_lt (hp.length_lt_join hl' hp'))
  | join hl hp hj ih =>
    generalize hv : node _ _ = v at hy
    cases hy with
    | double hp' hd' =>
      obtain ⟨rfl, rfl⟩ := hinj _ _ _ _ (.inl hj) (.inr hd') hv
      exact absurd (hcase.resolve_left fun hne => hne _ hj) (ne_of_gt (hp'.length_lt_join hl hp))
    | join hl' hp' hj' =>
      obtain ⟨rfl, rfl⟩ := hinj _ _ _ _ (.inl hj) (.inl hj') hv
      obtain rfl := hl.unique hinj hl'
      rw [length_append, length_append, add_left_cancel_iff] at hcase
      rw [ih hp' hcase]

/-- The root gives the height, if no node is a leaf. -/
theorem Padded.height_eq {L : List α}
    (hleaf : ∀ l r, (J l r ∨ D l r) → node l r ∉ L) (hx : Padded node J D k h xs)
    (hy : Padded node J D k' h ys) (hxL : xs ⊆ L) (hyL : ys ⊆ L) : k = k' := by
  induction hx generalizing k' ys with
  | leaf a =>
    generalize hv : a = v at hy
    cases hy with
    | leaf => rfl
    | double hp' hd' =>
      exact absurd (hxL (hv ▸ mem_singleton_self _)) (hleaf _ _ (.inr hd'))
    | join hl' hp' hj' =>
      exact absurd (hxL (hv ▸ mem_singleton_self _)) (hleaf _ _ (.inl hj'))
  | double _ hd ih =>
    generalize hv : node _ _ = v at hy
    cases hy with
    | leaf => exact absurd (hv ▸ hyL (mem_singleton_self _)) (hleaf _ _ (.inr hd))
    | double hp' hd' =>
      obtain ⟨rfl, -⟩ := hinj _ _ _ _ (.inr hd) (.inr hd') hv
      rw [ih hp' hxL hyL]
    | join hl' hp' hj' =>
      obtain ⟨rfl, rfl⟩ := hinj _ _ _ _ (.inr hd) (.inl hj') hv
      rw [ih hp' hxL fun a ha => hyL (mem_append_right _ ha)]
  | @join _ l r _ zs hl _ hj ih =>
    have hxL' : zs ⊆ L := fun a ha => hxL (mem_append_right _ ha)
    generalize hv : node _ _ = v at hy
    cases hy with
    | leaf => exact absurd (hv ▸ hyL (mem_singleton_self _)) (hleaf _ _ (.inl hj))
    | double hp' hd' =>
      obtain ⟨rfl, rfl⟩ := hinj _ _ _ _ (.inl hj) (.inr hd') hv
      rw [ih hp' hxL' hyL]
    | join hl' hp' hj' =>
      obtain ⟨rfl, rfl⟩ := hinj _ _ _ _ (.inl hj) (.inl hj') hv
      rw [ih hp' hxL' fun a ha => hyL (mem_append_right _ ha)]

end Injective

end MerkleTree
