import Mathlib.Data.List.AList

/-!
# Write-back caches

An entry of a cache is dirty if it may differ from what the parent holds, and fresh if the
parent holds nothing under its key.  Values that are `gone` count as absent, so that a fresh
entry whose value is gone need not be kept.
-/

namespace WriteBack

universe u v

variable {ν : Type v}

structure Entry (ν : Type v) where
  val : ν
  dirty : Bool
  fresh : Bool
deriving DecidableEq, Repr

/-! ## 1. One key -/

/-- A value that is gone counts as absent. -/
def present (gone : ν → Bool) (o : Option ν) : Option ν := o.filter fun v => !gone v

/-- What is seen through a cache above a parent in which `parent` is seen. -/
def seen (gone : ν → Bool) (parent : Option ν) : Option (Entry ν) → Option ν
  | none => parent
  | some e => present gone (some e.val)

/-- The marks of an entry are right about the parent. -/
structure Coherent (gone : ν → Bool) (parent : Option ν) (e : Entry ν) : Prop where
  clean : e.dirty = false → present gone (some e.val) = parent
  fresh : e.fresh = true → parent = none

/-- The entry of the parent after that of a child was written to it. -/
def merge (gone : ν → Bool) (us : Option (Entry ν)) (e : Entry ν) : Option (Entry ν) :=
  if e.dirty then
    match us with
    | none => if e.fresh && gone e.val then none else some ⟨e.val, true, e.fresh⟩
    | some u => if u.fresh && gone e.val then none else some ⟨e.val, true, u.fresh⟩
  else us

/-- A dirty entry is marked as fresh although the parent has a value. -/
def misapplied (gone : ν → Bool) (us : Option (Entry ν)) (e : Entry ν) : Bool :=
  e.dirty && e.fresh && us.any fun u => !gone u.val

variable {gone : ν → Bool} {grand : Option ν} {us : Option (Entry ν)} {e : Entry ν}

theorem present_of_gone {v : ν} (h : gone v = true) : present gone (some v) = none := by
  simp [present, Option.filter, h]

theorem present_of_not_gone {v : ν} (h : gone v = false) : present gone (some v) = some v := by
  simp [present, Option.filter, h]

theorem gone_of_present {v : ν} (h : present gone (some v) = none) : gone v = true := by
  cases hv : gone v with
  | true => rfl
  | false => rw [present_of_not_gone hv] at h; cases h

theorem eq_of_present {o : Option ν} {v : ν} (h : present gone o = some v) : o = some v :=
  (Option.filter_eq_some_iff.mp h).1

theorem not_gone_of_present {o : Option ν} {v : ν} (h : present gone o = some v) :
    gone v = false := by
  simpa using (Option.filter_eq_some_iff.mp h).2

theorem misapplied_eq_false (h : Coherent gone (seen gone grand us) e) :
    misapplied gone us e = false := by
  cases us with
  | none => simp [misapplied]
  | some u =>
    cases hfresh : e.fresh with
    | false => simp [misapplied, hfresh]
    | true => simp [misapplied, gone_of_present (h.fresh hfresh)]

section

variable (hus : ∀ u, us = some u → Coherent gone grand u) (h : Coherent gone (seen gone grand us) e)

include hus h

/-- What was seen through the child is seen in the parent. -/
theorem seen_merge : seen gone grand (merge gone us e) = present gone (some e.val) := by
  unfold merge
  split
  · cases us with
    | none =>
      dsimp only
      split
      · next hdrop =>
        obtain ⟨hfresh, hgone⟩ := Bool.and_eq_true_iff.mp hdrop
        rw [present_of_gone hgone]
        exact h.fresh hfresh
      · rfl
    | some u =>
      dsimp only
      split
      · next hdrop =>
        obtain ⟨hfresh, hgone⟩ := Bool.and_eq_true_iff.mp hdrop
        rw [present_of_gone hgone]
        exact (hus u rfl).fresh hfresh
      · rfl
  · next hclean => exact (h.clean (eq_false_of_ne_true hclean)).symm

theorem coherent_merge {u' : Entry ν} (hu' : merge gone us e = some u') :
    Coherent gone grand u' := by
  unfold merge at hu'
  split at hu'
  · cases us with
    | none =>
      dsimp only at hu'
      split at hu'
      · cases hu'
      · cases hu'
        exact ⟨(nofun), h.fresh⟩
    | some u =>
      dsimp only at hu'
      split at hu'
      · cases hu'
      · cases hu'
        exact ⟨(nofun), (hus u rfl).fresh⟩
  · exact hus u' hu'

end

/-! ## 2. All keys -/

variable {κ : Type u} [DecidableEq κ] {μ : Type v}

/-- A step for an entry acts on what stands under its key as `g` says, and on no other key. -/
def Acts (f : (AList fun _ : κ => μ) → (Σ _ : κ, ν) → Option (AList fun _ : κ => μ))
    (g : Option μ → ν → Option μ) : Prop :=
  ∀ m k v m', f m ⟨k, v⟩ = some m' →
    m'.lookup k = g (m.lookup k) v ∧ ∀ k', k' ≠ k → m'.lookup k' = m.lookup k'

/-- A fold over the entries of a map acts on each of their keys once. -/
theorem foldlM_acts
    {f : (AList fun _ : κ => μ) → (Σ _ : κ, ν) → Option (AList fun _ : κ => μ)}
    {g : Option μ → ν → Option μ} (hact : Acts f g) {P : Option μ → ν → Prop}
    (hok : ∀ m k v, P (m.lookup k) v → (f m ⟨k, v⟩).isSome = true)
    (m : AList fun _ : κ => μ) (child : AList fun _ : κ => ν)
    (hP : ∀ k v, child.lookup k = some v → P (m.lookup k) v) :
    ∃ m', child.entries.foldlM f m = some m' ∧
      ∀ k, m'.lookup k = (child.lookup k).elim (m.lookup k) (g (m.lookup k)) := by
  obtain ⟨entries, hnodup⟩ := child
  induction entries generalizing m with
  | nil => exact ⟨m, rfl, fun k => rfl⟩
  | cons it entries ih =>
    obtain ⟨k, v⟩ := it
    obtain ⟨hnew, hrest⟩ := List.nodupKeys_cons.mp hnodup
    have hself : AList.lookup k (⟨⟨k, v⟩ :: entries, hnodup⟩ : AList fun _ : κ => ν) = some v :=
      List.dlookup_cons_eq _ _ _
    have hother : ∀ k', k' ≠ k →
        AList.lookup k' (⟨⟨k, v⟩ :: entries, hnodup⟩ : AList fun _ : κ => ν) =
          AList.lookup k' (⟨entries, hrest⟩ : AList fun _ : κ => ν) := fun k' hk' =>
      List.dlookup_cons_ne _ _ hk'
    have hnone : AList.lookup k (⟨entries, hrest⟩ : AList fun _ : κ => ν) = none :=
      List.dlookup_eq_none.mpr hnew
    obtain ⟨m₁, hm₁⟩ := Option.isSome_iff_exists.mp (hok m k v (hP k v hself))
    obtain ⟨hat, helse⟩ := hact m k v m₁ hm₁
    have hP₁ : ∀ k' v', AList.lookup k' (⟨entries, hrest⟩ : AList fun _ : κ => ν) = some v' →
        P (m₁.lookup k') v' := by
      intro k' v' hk'
      have hne : k' ≠ k := by
        rintro rfl
        rw [hnone] at hk'
        cases hk'
      rw [helse k' hne]
      exact hP k' v' ((hother k' hne).trans hk')
    obtain ⟨m', hfold, hall⟩ := ih m₁ hrest hP₁
    refine ⟨m', ?_, ?_⟩
    · rw [List.foldlM_cons, hm₁]
      exact hfold
    · intro k'
      by_cases hk' : k' = k
      · subst hk'
        rw [hall, hnone, hself]
        exact hat
      · rw [hall, hother k' hk', helse k' hk']

end WriteBack
