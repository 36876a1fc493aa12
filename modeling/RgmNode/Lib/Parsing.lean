import Mathlib.Tactic.Common

/-!
# Encodings that can be parsed

An encoding parses if, whatever follows, the code of a value ends where it has to: codes of two
values with something behind them are equal only if the values are and what is behind them is.
Then values written one after the other can be told apart.

* `Parses.of_length` — codes of a fixed length
-/

variable {α γ : Type*} {P : α → Prop} {ser : α → List γ}

/-- The code of a value of `P` is known where it ends. -/
def Parses (P : α → Prop) (ser : α → List γ) : Prop :=
  ∀ ⦃a b : α⦄ ⦃s t : List γ⦄, P a → P b → ser a ++ s = ser b ++ t → a = b ∧ s = t

namespace Parses

open List

theorem inj (h : Parses P ser) {a b : α} (ha : P a) (hb : P b) (heq : ser a = ser b) : a = b :=
  (h ha hb (congrArg (· ++ []) heq)).1

theorem of_length {n : Nat} (hlen : ∀ a, P a → (ser a).length = n)
    (hinj : ∀ a b, P a → P b → ser a = ser b → a = b) : Parses P ser := by
  intro a b s t ha hb heq
  obtain ⟨hcode, hrest⟩ := append_inj heq ((hlen a ha).trans (hlen b hb).symm)
  exact ⟨hinj a b ha hb hcode, hrest⟩

theorem many (h : Parses P ser) {as bs : List α} {s t : List γ} (hlen : as.length = bs.length)
    (has : ∀ a ∈ as, P a) (hbs : ∀ b ∈ bs, P b)
    (heq : as.flatMap ser ++ s = bs.flatMap ser ++ t) : as = bs ∧ s = t := by
  induction as generalizing bs with
  | nil =>
    obtain rfl := length_eq_zero_iff.mp hlen.symm
    exact ⟨rfl, heq⟩
  | cons a as ih =>
    cases bs with
    | nil => cases hlen
    | cons b bs =>
      rw [forall_mem_cons] at has hbs
      rw [flatMap_cons, flatMap_cons, append_assoc, append_assoc] at heq
      obtain ⟨rfl, hrest⟩ := h has.1 hbs.1 heq
      obtain ⟨rfl, rfl⟩ := ih (Nat.succ.inj hlen) has.2 hbs.2 hrest
      exact ⟨rfl, rfl⟩

theorem flatMap_inj (h : Parses P ser) (hne : ∀ a, P a → ser a ≠ []) {as bs : List α}
    (has : ∀ a ∈ as, P a) (hbs : ∀ b ∈ bs, P b) (heq : as.flatMap ser = bs.flatMap ser) :
    as = bs := by
  induction as generalizing bs with
  | nil =>
    cases bs with
    | nil => rfl
    | cons b bs =>
      rw [forall_mem_cons] at hbs
      exact absurd (append_eq_nil_iff.mp heq.symm).1 (hne b hbs.1)
  | cons a as ih =>
    cases bs with
    | nil =>
      rw [forall_mem_cons] at has
      exact absurd (append_eq_nil_iff.mp heq).1 (hne a has.1)
    | cons b bs =>
      rw [forall_mem_cons] at has hbs
      obtain ⟨rfl, hrest⟩ := h has.1 hbs.1 heq
      rw [ih has.2 hbs.2 hrest]

end Parses
