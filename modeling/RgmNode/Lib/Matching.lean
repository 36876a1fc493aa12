import Mathlib.Data.List.Forall2

/-!
# Matching items to slots

A relation says which slot accepts which item.  Three loops over such lists:
-/

namespace Matching

open List

variable {α β : Type*}

/-! ## 1. First fit -/

section FirstFit

variable [BEq β] [LawfulBEq β] {accepts : α → β → Bool} {slots : List β} {items : List α}

/-- An item goes to the first slot that is free and accepts it, if there is one. -/
def place (accepts : α → β → Bool) (slots : List β) (taken : List (β × α)) (a : α) :
    List (β × α) :=
  match slots.find? fun b => (taken.lookup b).isNone && accepts a b with
  | none => taken
  | some b => (b, a) :: taken

/-- The slots of all items, in their order. -/
def assign (accepts : α → β → Bool) (slots : List β) (items : List α) : List (β × α) :=
  items.foldl (place accepts slots) []

theorem accepts_of_lookup_assign {b : β} {a : α}
    (h : (assign accepts slots items).lookup b = some a) : a ∈ items ∧ accepts a b = true := by
  -- so it is after any number of items
  have hinv : ∀ (rest : List α) (taken : List (β × α)), rest ⊆ items →
      (∀ b a, taken.lookup b = some a → a ∈ items ∧ accepts a b = true) →
      ∀ b a, (rest.foldl (place accepts slots) taken).lookup b = some a →
        a ∈ items ∧ accepts a b = true := by
    intro rest
    induction rest with
    | nil => exact fun _ _ htaken => htaken
    | cons c rest ih =>
      intro taken hsub htaken
      obtain ⟨hc, hsub⟩ := cons_subset.mp hsub
      refine ih _ hsub fun b a hlookup => ?_
      unfold place at hlookup
      split at hlookup
      · exact htaken b a hlookup
      · next slot hslot =>
        rw [lookup_cons] at hlookup
        split at hlookup
        · next heq =>
          obtain rfl := Option.some.inj hlookup
          have hfits := find?_some hslot
          rw [Bool.and_eq_true] at hfits
          exact ⟨hc, beq_iff_eq.mp heq ▸ hfits.2⟩
        · exact htaken b a hlookup
  exact hinv items [] (Subset.refl _) nofun b a h

end FirstFit

/-! ## 2. The first values along a list -/

section Collect

variable {f : β → Option α} {R : α → β → Prop}

/-- The first `n` values of `f` along a list, or all if there are fewer. -/
def collect (f : β → Option α) : Nat → List β → List α
  | 0, _ => []
  | _ + 1, [] => []
  | n + 1, b :: bs =>
    match f b with
    | some a => a :: collect f n bs
    | none => collect f (n + 1) bs

theorem length_collect (n : Nat) (bs : List β) :
    (collect f n bs).length = min n (bs.countP fun b => (f b).isSome) := by
  induction bs generalizing n with
  | nil => cases n <;> simp [collect]
  | cons b bs ih =>
    cases n with
    | zero => simp [collect]
    | succ n =>
      cases hb : f b with
      | none => simp [collect, hb, ih]
      | some a => simp [collect, hb, ih, Nat.succ_min_succ]

variable {n : Nat} {bs : List β}

theorem mem_collect {a : α} (h : a ∈ collect f n bs) : ∃ b ∈ bs, f b = some a := by
  induction bs generalizing n with
  | nil => cases n <;> cases h
  | cons b bs ih =>
    cases n with
    | zero => cases h
    | succ n =>
      simp only [collect] at h
      split at h
      · next c hc =>
        rcases mem_cons.mp h with rfl | h
        · exact ⟨b, mem_cons_self, hc⟩
        · obtain ⟨b', hb', hf⟩ := ih h
          exact ⟨b', mem_cons_of_mem _ hb', hf⟩
      · obtain ⟨b', hb', hf⟩ := ih h
        exact ⟨b', mem_cons_of_mem _ hb', hf⟩

/-- The values are matched in order to the elements they come from. -/
theorem sublistForall₂_collect (hf : ∀ b a, f b = some a → R a b) (n : Nat) (bs : List β) :
    SublistForall₂ R (collect f n bs) bs := by
  induction bs generalizing n with
  | nil => cases n <;> exact .nil
  | cons b bs ih =>
    cases n with
    | zero => exact .nil
    | succ n =>
      simp only [collect]
      split
      · next a ha => exact .cons (hf b a ha) (ih n)
      · exact .cons_right (ih (n + 1))

end Collect

/-! ## 3. One pass -/

section Greedy

variable {accepts : α → β → Bool}

/-- Each slot is offered to the first item that has none yet. -/
def greedy (accepts : α → β → Bool) : List α → List β → Bool
  | [], _ => true
  | _ :: _, [] => false
  | a :: as, b :: bs => if accepts a b then greedy accepts as bs else greedy accepts (a :: as) bs
termination_by structural _ bs => bs

variable {R : α → β → Prop} {as : List α} {bs : List β}

theorem sublistForall₂_tail {a : α} (h : SublistForall₂ R (a :: as) bs) :
    SublistForall₂ R as bs := by
  generalize hl : a :: as = l at h
  induction h with
  | nil => cases hl
  | cons _ h _ =>
    obtain rfl := tail_eq_of_cons_eq hl
    exact .cons_right h
  | cons_right _ ih => exact .cons_right (ih hl)

/-- The pass finds an order preserving matching if there is one. -/
theorem greedy_iff :
    greedy accepts as bs = true ↔ SublistForall₂ (fun a b => accepts a b = true) as bs := by
  induction bs generalizing as with
  | nil =>
    cases as with
    | nil => exact ⟨fun _ => .nil, fun _ => rfl⟩
    | cons a as => exact ⟨nofun, nofun⟩
  | cons b bs ih =>
    cases as with
    | nil => exact ⟨fun _ => .nil, fun _ => by simp [greedy]⟩
    | cons a as =>
      by_cases hab : accepts a b = true
      · rw [greedy, if_pos hab, ih]
        constructor
        · exact fun h => .cons hab h
        · intro h
          cases h with
          | cons _ h => exact h
          | cons_right h => exact sublistForall₂_tail h
      · rw [greedy, if_neg hab, ih]
        constructor
        · exact fun h => .cons_right h
        · intro h
          cases h with
          | cons hr _ => exact absurd hr hab
          | cons_right h => exact h

theorem length_le_of_greedy (h : greedy accepts as bs = true) : as.length ≤ bs.length := by
  obtain ⟨l, hl, hsub⟩ := sublistForall₂_iff.mp (greedy_iff.mp h)
  rw [hl.length_eq]
  exact hsub.length_le

theorem exists_of_sublistForall₂ (h : SublistForall₂ R as bs) : ∀ a ∈ as, ∃ b ∈ bs, R a b := by
  induction h with
  | nil => exact nofun
  | cons hr _ ih =>
    rintro a (_ | ⟨_, ha⟩)
    · exact ⟨_, mem_cons_self, hr⟩
    · obtain ⟨b, hb, hab⟩ := ih a ha
      exact ⟨b, mem_cons_of_mem _ hb, hab⟩
  | cons_right _ ih =>
    intro a ha
    obtain ⟨b, hb, hab⟩ := ih a ha
    exact ⟨b, mem_cons_of_mem _ hb, hab⟩

theorem sublistForall₂_reverse (h : SublistForall₂ R as bs) :
    SublistForall₂ R as.reverse bs.reverse := by
  obtain ⟨l, hl, hsub⟩ := sublistForall₂_iff.mp h
  exact sublistForall₂_iff.mpr ⟨l.reverse, forall₂_reverse_iff.mpr hl, hsub.reverse⟩

end Greedy

end Matching
