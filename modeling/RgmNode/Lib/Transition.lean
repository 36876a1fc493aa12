import Mathlib.Order.Basic

/-!
# Guarded runs of a partial step function

A system is a function `step : σ → ι → Option σ`: in state `s` an input either leads to
one next state or stops the system (`none`).  A *guarded run* takes only inputs that meet
a condition `G` in the state they are taken in; the condition that is always true gives
the plain runs.

* `Runs.invariant` — what holds at the start and is kept by every guarded step holds in
  every state reached
-/

namespace Transition

variable {σ ι : Type*} {step : σ → ι → Option σ} {G : σ → ι → Prop} {s t u : σ}

/-- `Runs step G s t`: the system goes from `s` to `t` by inputs that meet `G`. -/
inductive Runs (step : σ → ι → Option σ) (G : σ → ι → Prop) (s : σ) : σ → Prop where
  | refl : Runs step G s s
  | tail {t u : σ} {i : ι} : Runs step G s t → G t i → step t i = some u → Runs step G s u

theorem Runs.invariant (Inv : σ → Prop)
    (keeps : ∀ t i u, Inv t → G t i → step t i = some u → Inv u)
    (h : Runs step G s t) (h0 : Inv s) : Inv t := by
  induction h with
  | refl => exact h0
  | tail _ hg hs ih => exact keeps _ _ _ ih hg hs

/-- A second invariant may be proved with the help of one that is known already. -/
theorem Runs.invariant_with {Known : σ → Prop} (Inv : σ → Prop)
    (known : ∀ t, Runs step G s t → Known t)
    (keeps : ∀ t i u, Known t → Inv t → G t i → step t i = some u → Inv u)
    (h : Runs step G s t) (h0 : Inv s) : Inv t := by
  induction h with
  | refl => exact h0
  | tail hr hg hs ih => exact keeps _ _ _ (known _ hr) ih hg hs

/-- What one step keeps or else ends in a certain way, a run keeps or else there is a step in it that
ends it so. -/
theorem Runs.kept_or_ended (Kept : σ → Prop) (Ends : ι → σ → Prop)
    (keeps : ∀ t i u, Kept t → G t i → step t i = some u → Kept u ∨ Ends i u)
    (h : Runs step G s t) (h0 : Kept s) :
    Kept t ∨ ∃ u i v, Runs step G s u ∧ G u i ∧ step u i = some v ∧ Ends i v ∧ Runs step G v t := by
  induction h with
  | refl => exact .inl h0
  | tail hr hg hs ih =>
    rcases ih with hkept | ⟨u, i, v, hru, hgu, hsu, hends, hrv⟩
    · rcases keeps _ _ _ hkept hg hs with hkept | hends
      · exact .inl hkept
      · exact .inr ⟨_, _, _, hr, hg, hs, hends, .refl⟩
    · exact .inr ⟨u, i, v, hru, hgu, hsu, hends, .tail hrv hg hs⟩

theorem Runs.mono {G' : σ → ι → Prop} (hG : ∀ s i, G s i → G' s i)
    (h : Runs step G s t) : Runs step G' s t := by
  induction h with
  | refl => exact .refl
  | tail _ hg hs ih => exact .tail ih (hG _ _ hg) hs

/-- The state after a list of inputs, `none` once the system has stopped. -/
def runList (step : σ → ι → Option σ) : σ → List ι → Option σ
  | s, [] => some s
  | s, i :: is => (step s i).bind fun t => runList step t is

theorem runs_of_runList {is : List ι} (hG : ∀ i ∈ is, ∀ s, G s i)
    (h : runList step s is = some t) : Runs step G s t := by
  induction is generalizing s with
  | nil =>
    obtain rfl : s = t := by simpa [runList] using h
    exact .refl
  | cons i is ih =>
    rw [List.forall_mem_cons] at hG
    obtain ⟨u, hu, hrest⟩ := Option.bind_eq_some_iff.mp h
    -- the run of the tail starts in `u`, one step after `s`
    have lift : ∀ {v : σ}, Runs step G u v → Runs step G s v := by
      intro v hv
      induction hv with
      | refl => exact .tail .refl (hG.1 _) hu
      | tail _ hg hs ih' => exact .tail ih' hg hs
    exact lift (ih hG.2 hrest)

/-- The state after a list of inputs that all meet the condition. -/
def runGuarded (step : σ → ι → Option σ) (G : σ → ι → Prop) [∀ s i, Decidable (G s i)] :
    σ → List ι → Option σ :=
  runList fun s i => if G s i then step s i else none

theorem runs_of_runGuarded [∀ s i, Decidable (G s i)] {is : List ι}
    (h : runGuarded step G s is = some t) : Runs step G s t := by
  have hplain : Runs (fun s i => if G s i then step s i else none) (fun _ _ => True) s t :=
    runs_of_runList (fun _ _ _ => trivial) h
  clear h
  induction hplain with
  | refl => exact .refl
  | tail _ _ hs ih =>
    split at hs
    · next hg => exact .tail ih hg hs
    · cases hs

/-- A state that such a list reaches, with what can be tested in it. -/
theorem exists_runs_of_any [∀ s i, Decidable (G s i)] {is : List ι} {p : σ → Bool}
    (h : (runGuarded step G s is).any p = true) : ∃ t, Runs step G s t ∧ p t = true := by
  obtain ⟨t, ht, hp⟩ := (Option.any_eq_true _ _).mp h
  exact ⟨t, runs_of_runGuarded ht, hp⟩

end Transition
