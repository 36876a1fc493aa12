import Mathlib.Data.Set.Basic

/-!
# Marks that are passed on

Some elements of an ordered set are marked in their own right (`own`), others because
something below them is (`inherited`).  A third set, `tracked`, is meant to list the elements
marked in their own right.  In the intended reading the order is ancestry in a forest.
-/

universe u

/-- Three sets of marked elements. -/
structure Marks (β : Type u) where
  own : Set β
  inherited : Set β
  tracked : Set β

namespace Marks

variable {β : Type u} [PartialOrder β] {m m' : Marks β} {p x : β} {F : Prop}

/-- Every inherited mark has a cause. -/
def Justified (m : Marks β) : Prop := ∀ x ∈ m.inherited, ∃ a, a < x ∧ a ∈ m.own

/-- Everything tracked is marked in its own right. -/
def Truthful (m : Marks β) : Prop := ∀ x ∈ m.tracked, x ∈ m.own

/-- Everything marked in its own right is tracked. -/
def Complete (m : Marks β) : Prop := ∀ x ∈ m.own, x ∈ m.tracked

/-! ## 1. Adding marks -/

/-- How marks are added.  `F` says whether an element may be marked without being tracked. -/
inductive Grow (F : Prop) : Marks β → Marks β → Prop where
  | mark (m : Marks β) (p : β) (h : F) : Grow F m { m with own := insert p m.own }
  | markTracked (m : Marks β) (p : β) :
      Grow F m { m with own := insert p m.own, tracked := insert p m.tracked }
  | passOn (m : Marks β) (a b : β) (h : a ∈ m.own ∨ a ∈ m.inherited) :
      Grow F m { m with inherited := m.inherited ∪ { x | a < x ∧ x ≤ b } }
  | untrack (m : Marks β) (T : Set β) (h : ∀ x ∈ T, x ∉ m.own) :
      Grow F m { m with tracked := m.tracked \ T }

abbrev Grows (F : Prop) : Marks β → Marks β → Prop := Relation.ReflTransGen (Grow F)

theorem Grow.justified (h : Grow F m m') (hj : Justified m) : Justified m' := by
  cases h with
  | mark p _ | markTracked p =>
    intro x hx
    obtain ⟨a, hax, ha⟩ := hj x hx
    exact ⟨a, hax, .inr ha⟩
  | passOn a b hcause =>
    rintro x (hx | ⟨hax, -⟩)
    · exact hj x hx
    · rcases hcause with hown | hinh
      · exact ⟨a, hax, hown⟩
      · obtain ⟨c, hca, hc⟩ := hj a hinh
        exact ⟨c, hca.trans hax, hc⟩
  | untrack T _ => exact hj

theorem Grow.truthful (h : Grow F m m') (ht : Truthful m) : Truthful m' := by
  cases h with
  | mark p _ => exact fun x hx => .inr (ht x hx)
  | markTracked p => exact fun x hx => hx.imp id (ht x)
  | passOn a b _ => exact ht
  | untrack T _ => exact fun x hx => ht x hx.1

theorem Grow.complete (h : Grow False m m') (hc : Complete m) : Complete m' := by
  cases h with
  | mark p hf => exact hf.elim
  | markTracked p => exact fun x hx => hx.imp id (hc x)
  | passOn a b _ => exact hc
  | untrack T hT => exact fun x hx => ⟨hc x hx, fun hxT => hT x hxT hx⟩

theorem Grows.justified (h : Grows F m m') (hj : Justified m) : Justified m' := by
  induction h with
  | refl => exact hj
  | tail _ hs ih => exact hs.justified ih

theorem Grows.truthful (h : Grows F m m') (ht : Truthful m) : Truthful m' := by
  induction h with
  | refl => exact ht
  | tail _ hs ih => exact hs.truthful ih

theorem Grows.complete (h : Grows False m m') (hc : Complete m) : Complete m' := by
  induction h with
  | refl => exact hc
  | tail _ hs ih => exact hs.complete ih

theorem Grows.weaken (h : Grows False m m') : Grows F m m' := by
  refine Relation.ReflTransGen.mono (fun a b hab => ?_) _ _ h
  cases hab with
  | mark p hf => exact hf.elim
  | markTracked p => exact .markTracked _ p
  | passOn a b hcause => exact .passOn _ a b hcause
  | untrack T hT => exact .untrack _ T hT

/-! ## 2. Clearing marks -/

/-- Everything comparable to `p`. -/
def line (p : β) : Set β := { x | x ≤ p ∨ p ≤ x }

/-- Remove all marks from the line of `p`; what is tracked stays as it is. -/
def clear (p : β) (m : Marks β) : Marks β :=
  { m with own := m.own \ line p, inherited := m.inherited \ line p }

/-- Clearing keeps inherited marks justified exactly if every inherited mark off the line has
a cause that is not below `p`. -/
theorem justified_clear_iff :
    Justified (clear p m) ↔
      ∀ x ∈ m.inherited, x ∉ line p → ∃ a, a < x ∧ a ∈ m.own ∧ ¬ a ≤ p := by
  constructor
  · intro hj x hx hoff
    obtain ⟨a, hax, ha, haline⟩ := hj x ⟨hx, hoff⟩
    exact ⟨a, hax, ha, fun hap => haline (.inl hap)⟩
  · rintro hcause x ⟨hx, hoff⟩
    obtain ⟨a, hax, ha, hap⟩ := hcause x hx hoff
    refine ⟨a, hax, ha, ?_⟩
    rintro (hle | hge)
    · exact hap hle
    · exact hoff (.inr (hge.trans hax.le))

/-- Clearing keeps the tracked set truthful exactly if nothing tracked is on the line. -/
theorem truthful_clear_iff (ht : Truthful m) :
    Truthful (clear p m) ↔ ∀ x ∈ m.tracked, x ∉ line p := by
  constructor
  · intro h x hx
    exact (h x hx).2
  · intro h x hx
    exact ⟨ht x hx, h x hx⟩

/-- If everything marked is tracked and nothing tracked is on the line, clearing changes no
own mark, and the inherited marks stay justified. -/
theorem justified_clear_of_complete (hj : Justified m) (hc : Complete m)
    (h : ∀ x ∈ m.tracked, x ∉ line p) : Justified (clear p m) := by
  rw [justified_clear_iff]
  intro x hx _
  obtain ⟨a, hax, ha⟩ := hj x hx
  exact ⟨a, hax, ha, fun hap => h a (hc a ha) (.inl hap)⟩

theorem complete_clear (hc : Complete m) : Complete (clear p m) :=
  fun x hx => hc x hx.1

end Marks
