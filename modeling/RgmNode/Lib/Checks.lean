import Mathlib.Tactic.Common

/-!
# Chains of checks

A checking function runs one check after the other and stops at the first that fails.  In
the `Except` monad it succeeds if and only if each of its parts does.
-/

namespace Checks

open List

variable {ε α β : Type}

variable {x : Except ε α} {b : β} {c : Prop} {e : ε} {l : List α}

theorem bind_eq_ok_iff {f : α → Except ε β} : (x >>= f) = .ok b ↔ ∃ a, x = .ok a ∧ f a = .ok b := by
  cases x with
  | error e => exact ⟨nofun, (by rintro ⟨_, ⟨⟩, _⟩)⟩
  | ok a => exact ⟨fun h => ⟨a, rfl, h⟩, (by rintro ⟨_, ⟨⟩, h⟩; exact h)⟩

theorem map_eq_ok_iff {f : α → β} : x.map f = .ok b ↔ ∃ a, x = .ok a ∧ f a = b := by
  cases x with
  | error e => exact ⟨nofun, (by rintro ⟨_, ⟨⟩, _⟩)⟩
  | ok a => exact ⟨fun h => ⟨a, rfl, Except.ok.inj h⟩, (by rintro ⟨_, ⟨⟩, rfl⟩; rfl)⟩

/-- Go on if `c` holds and fail with `e` otherwise. -/
def require (c : Prop) [Decidable c] (e : ε) : Except ε Unit := if c then .ok () else .error e

@[simp] theorem require_eq_ok_iff [Decidable c] {u : Unit} : require c e = .ok u ↔ c := by
  unfold require
  split
  · next h => exact ⟨fun _ => h, fun _ => rfl⟩
  · next h => exact ⟨nofun, fun hc => absurd hc h⟩

/-- A check that need not be made first. -/
theorem require_bind_eq_ok_iff [Decidable c] {f : Unit → Except ε β} :
    (require c e >>= f) = .ok b ↔ c ∧ f () = .ok b := by
  rw [bind_eq_ok_iff]
  constructor
  · rintro ⟨u, hu, h⟩
    exact ⟨require_eq_ok_iff.mp hu, h⟩
  · rintro ⟨hc, h⟩
    exact ⟨(), require_eq_ok_iff.mpr hc, h⟩

theorem bind_eq_error_iff {f : α → Except ε β} :
    (x >>= f) = .error e ↔ x = .error e ∨ ∃ a, x = .ok a ∧ f a = .error e := by
  cases x with
  | error e' =>
    constructor
    · intro h
      exact .inl (congrArg Except.error (Except.error.inj h))
    · rintro (h | ⟨a, ha, -⟩)
      · exact congrArg Except.error (Except.error.inj h)
      · cases ha
  | ok a =>
    constructor
    · intro h
      exact .inr ⟨a, rfl, h⟩
    · rintro (h | ⟨a', ha', h⟩)
      · cases h
      · cases ha'
        exact h

theorem require_eq_error_iff [Decidable c] {e' : ε} : require c e = .error e' ↔ ¬ c ∧ e = e' := by
  unfold require
  split
  · next h => exact ⟨nofun, fun hc => absurd h hc.1⟩
  · next h => exact ⟨fun he => ⟨h, Except.error.inj he⟩, fun he => congrArg Except.error he.2⟩

theorem require_bind_eq_error_iff [Decidable c] {e' : ε} {f : Unit → Except ε β} :
    (require c e >>= f) = .error e' ↔ (¬ c ∧ e = e') ∨ (c ∧ f () = .error e') := by
  rw [bind_eq_error_iff, require_eq_error_iff]
  refine or_congr_right ⟨?_, ?_⟩
  · rintro ⟨u, hu, h⟩
    exact ⟨require_eq_ok_iff.mp hu, h⟩
  · rintro ⟨hc, h⟩
    exact ⟨(), require_eq_ok_iff.mpr hc, h⟩

/-! ## Loops -/

theorem exists_of_foldlM_eq_error {σ : Type} {f : σ → α → Except ε σ} {s : σ}
    (h : l.foldlM f s = .error e) : ∃ a ∈ l, ∃ u, f u a = .error e := by
  induction l generalizing s with
  | nil => cases h
  | cons a l ih =>
    rw [foldlM_cons, bind_eq_error_iff] at h
    rcases h with h | ⟨u, -, h⟩
    · exact ⟨a, mem_cons_self, s, h⟩
    · obtain ⟨b, hb, v, hv⟩ := ih h
      exact ⟨b, mem_cons_of_mem _ hb, v, hv⟩

/-- A loop that succeeds has a state before each of its elements, and a round that succeeds. -/
theorem foldlM_append_cons_eq_ok_iff {σ : Type} {f : σ → α → Except ε σ} {before after : List α}
    {a : α} {s t : σ} :
    (before ++ a :: after).foldlM f s = .ok t ↔
      ∃ u v, before.foldlM f s = .ok u ∧ f u a = .ok v ∧ after.foldlM f v = .ok t := by
  rw [foldlM_append, bind_eq_ok_iff]
  constructor
  · rintro ⟨u, hu, h⟩
    rw [foldlM_cons, bind_eq_ok_iff] at h
    obtain ⟨v, hv, h⟩ := h
    exact ⟨u, v, hu, hv, h⟩
  · rintro ⟨u, v, hu, hv, h⟩
    refine ⟨u, hu, ?_⟩
    rw [foldlM_cons, bind_eq_ok_iff]
    exact ⟨v, hv, h⟩

theorem forM_eq_ok_iff {f : α → Except ε Unit} : l.forM f = .ok () ↔ ∀ a ∈ l, f a = .ok () := by
  induction l with
  | nil => exact ⟨(by rintro - _ ⟨⟩), fun _ => rfl⟩
  | cons a l ih =>
    rw [forall_mem_cons, ← ih]
    exact bind_eq_ok_iff.trans ⟨fun ⟨_, ha, hl⟩ => ⟨ha, hl⟩, fun ⟨ha, hl⟩ => ⟨(), ha, hl⟩⟩

/-- Collecting optional values: the collection succeeds with the value of each element. -/
theorem getElem?_of_mapM_eq_some {f : α → Option β} {bs : List β} (h : l.mapM f = some bs) (i : Nat) :
    bs[i]? = l[i]?.bind f := by
  induction l generalizing bs i with
  | nil =>
    obtain rfl : [] = bs := by simpa using h
    simp
  | cons a l ih =>
    rw [mapM_cons] at h
    obtain ⟨b, hb, h⟩ := Option.bind_eq_some_iff.mp h
    obtain ⟨bs', hbs, h⟩ := Option.bind_eq_some_iff.mp h
    obtain rfl : b :: bs' = bs := by simpa using h
    cases i with
    | zero => simp [hb]
    | succ i => simpa using ih hbs i

end Checks
