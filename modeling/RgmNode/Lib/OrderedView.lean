import Mathlib.Data.List.Sort
import Mathlib.Data.List.TakeWhile
import Mathlib.Data.Prod.Lex
import RgmNode.Lib.OrderedMap

/-!
# Ordered views of a collection

A container that keeps its elements in several orders at once is a list of elements together with a
key for each order.  The *view* of a key is the list of the elements in the order of that key; an
iterator is an element, and the elements before and after it are its neighbours in the view.

What a program reads off a view is a fact about the keys of all elements, whatever the order among
equal keys:

* `next_le`, `le_prev` — a neighbour lies on its side of the iterator
* `first_le`, `le_last` — the ends of a view bound its keys
* `lowerBound_eq_some`, `lowerBound_eq_none` — the first element that is not below a key
-/

namespace OrderedView

open List

variable {α κ : Type*} [LinearOrder κ] (key : α → κ) {l : List α} {a b c : α}

/-- The elements in the order of a key. -/
def view (l : List α) : List α := l.insertionSort fun a b => key a ≤ key b

@[simp] theorem mem_view : a ∈ view key l ↔ a ∈ l := mem_insertionSort _

theorem perm_view : (view key l).Perm l := perm_insertionSort _ _

theorem pairwise_view : (view key l).Pairwise fun a b => key a ≤ key b :=
  haveI : Std.Total fun a b : α => key a ≤ key b := ⟨fun a b => le_total (key a) (key b)⟩
  haveI : IsTrans α fun a b => key a ≤ key b := ⟨fun _ _ _ => le_trans⟩
  pairwise_insertionSort _ _

/-! ## 1. The ends of a view -/

def first (l : List α) : Option α := (view key l).head?

def last (l : List α) : Option α := (view key l).getLast?

variable {key}

theorem mem_of_first (h : first key l = some a) : a ∈ l :=
  (mem_view key).mp (mem_of_head? h)

theorem mem_of_last (h : last key l = some a) : a ∈ l :=
  (mem_view key).mp (mem_of_getLast? h)

theorem first_eq_none : first key l = none ↔ l = [] := by
  rw [first, head?_eq_none_iff, ← length_eq_zero_iff, (perm_view key).length_eq, length_eq_zero_iff]

theorem last_eq_none : last key l = none ↔ l = [] := by
  rw [last, getLast?_eq_none_iff, ← length_eq_zero_iff, (perm_view key).length_eq,
    length_eq_zero_iff]

theorem first_le (h : first key l = some a) (hb : b ∈ l) : key a ≤ key b := by
  obtain ⟨rest, hview⟩ := head?_eq_some_iff.mp h
  have hsorted := pairwise_view key (l := l)
  rw [← mem_view key, hview, mem_cons] at hb
  rw [hview, pairwise_cons] at hsorted
  rcases hb with rfl | hb
  · exact le_rfl
  · exact hsorted.1 b hb

theorem le_last (h : last key l = some a) (hb : b ∈ l) : key b ≤ key a := by
  obtain ⟨rest, hview⟩ := getLast?_eq_some_iff.mp h
  have hsorted := pairwise_view key (l := l)
  rw [← mem_view key, hview, mem_append, mem_singleton] at hb
  rw [hview, List.pairwise_append] at hsorted
  rcases hb with hb | rfl
  · exact hsorted.2.2 b hb a (by simp)
  · exact le_rfl

/-! ## 2. The neighbours of an iterator -/

section Neighbours

variable [DecidableEq α] (key)

def before (l : List α) (a : α) : List α := (view key l).takeWhile (· ≠ a)

def after (l : List α) (a : α) : List α := ((view key l).dropWhile (· ≠ a)).tail

/-- The element before an iterator, none at the beginning. -/
def prev (l : List α) (a : α) : Option α := (before key l a).getLast?

/-- The element after an iterator, none before the end. -/
def next (l : List α) (a : α) : Option α := (after key l a).head?

variable {key}

theorem view_eq_append (ha : a ∈ l) : view key l = before key l a ++ a :: after key l a := by
  have hsplit := (takeWhile_append_dropWhile (p := (· ≠ a))
    (l := view key l)).symm
  have hmem : a ∈ (view key l).dropWhile (· ≠ a) := by
    rw [← mem_view key, hsplit, mem_append] at ha
    refine ha.resolve_left fun hbefore => ?_
    simpa using mem_takeWhile_imp hbefore
  cases hdrop : (view key l).dropWhile fun b => decide (b ≠ a) with
  | nil => rw [hdrop] at hmem; cases hmem
  | cons b rest =>
    have hhead := head?_dropWhile_not (· ≠ a) (view key l)
    rw [hdrop] at hhead
    obtain rfl : b = a := by simpa using hhead
    rw [after, hdrop, tail_cons, ← hdrop]
    exact hsplit

variable (key) in
theorem mem_iff_before_or_after (ha : a ∈ l) :
    b ∈ l ↔ b ∈ before key l a ∨ b = a ∨ b ∈ after key l a := by
  rw [← mem_view key, view_eq_append ha, mem_append, mem_cons]

theorem ne_of_mem_before (hb : b ∈ before key l a) : b ≠ a := by
  simpa using mem_takeWhile_imp hb

variable (key) in
theorem nodup_cons_after (hl : l.Nodup) (ha : a ∈ l) : (a :: after key l a).Nodup := by
  have hnodup := (perm_view key).nodup_iff.mpr hl
  rw [view_eq_append ha] at hnodup
  exact (nodup_append.mp hnodup).2.1

theorem ne_of_mem_after (hl : l.Nodup) (ha : a ∈ l) (hb : b ∈ after key l a) : b ≠ a := by
  rintro rfl
  exact (nodup_cons.mp (nodup_cons_after key hl ha)).1 hb

variable (key) in
theorem pairwise_append (ha : a ∈ l) :
    (before key l a ++ a :: after key l a).Pairwise fun a b => key a ≤ key b := by
  rw [← view_eq_append ha]
  exact pairwise_view key

theorem le_of_mem_before (ha : a ∈ l) (hb : b ∈ before key l a) : key b ≤ key a :=
  (List.pairwise_append.mp (pairwise_append key ha)).2.2 b hb a mem_cons_self

variable (key) in
theorem pairwise_cons_after (ha : a ∈ l) :
    (a :: after key l a).Pairwise fun a b => key a ≤ key b :=
  (List.pairwise_append.mp (pairwise_append key ha)).2.1

theorem le_of_mem_after (ha : a ∈ l) (hb : b ∈ after key l a) : key a ≤ key b :=
  (pairwise_cons.mp (pairwise_cons_after key ha)).1 b hb

variable (key) in
theorem pairwise_after (ha : a ∈ l) : (after key l a).Pairwise fun a b => key a ≤ key b :=
  (pairwise_cons_after key ha).of_cons

theorem mem_of_next (h : next key l a = some b) (ha : a ∈ l) : b ∈ l :=
  (mem_iff_before_or_after key ha).mpr (.inr (.inr (mem_of_head? h)))

theorem mem_of_prev (h : prev key l a = some b) (ha : a ∈ l) : b ∈ l :=
  (mem_iff_before_or_after key ha).mpr (.inl (mem_of_getLast? h))

theorem next_ne (hl : l.Nodup) (ha : a ∈ l) (h : next key l a = some b) : b ≠ a :=
  ne_of_mem_after hl ha (mem_of_head? h)

theorem prev_ne (h : prev key l a = some b) : b ≠ a := ne_of_mem_before (mem_of_getLast? h)

theorem next_le (ha : a ∈ l) (h : next key l a = some b) : key a ≤ key b :=
  le_of_mem_after ha (mem_of_head? h)

theorem le_prev (ha : a ∈ l) (h : prev key l a = some b) : key b ≤ key a :=
  le_of_mem_before ha (mem_of_getLast? h)

variable (key) in
/-- Every other element lies at or before the previous element or at or after the next one. -/
theorem neighbours (ha : a ∈ l) (hc : c ∈ l) (hne : c ≠ a) :
    (∃ b, prev key l a = some b ∧ key c ≤ key b) ∨
      ∃ b, next key l a = some b ∧ key b ≤ key c := by
  rcases (mem_iff_before_or_after key ha).mp hc with hbefore | rfl | hafter
  · obtain ⟨b, hb⟩ := Option.isSome_iff_exists.mp
      (getLast?_isSome.mpr (ne_nil_of_mem hbefore))
    refine .inl ⟨b, hb, ?_⟩
    obtain ⟨rest, hrest⟩ := getLast?_eq_some_iff.mp hb
    have hsorted := (List.pairwise_append.mp (pairwise_append key ha)).1
    rw [hrest] at hbefore hsorted
    rcases mem_append.mp hbefore with hmem | hmem
    · exact (List.pairwise_append.mp hsorted).2.2 c hmem b (by simp)
    · rw [mem_singleton.mp hmem]
  · exact absurd rfl hne
  · obtain ⟨b, rest, hrest⟩ := exists_cons_of_ne_nil (ne_nil_of_mem hafter)
    refine .inr ⟨b, by rw [next, hrest]; rfl, ?_⟩
    have hsuffix := pairwise_after key ha
    rw [hrest, pairwise_cons] at hsuffix
    rw [hrest] at hafter
    rcases mem_cons.mp hafter with rfl | hmem
    · exact le_rfl
    · exact hsuffix.1 c hmem

theorem next_of_not_le (ha : a ∈ l) (hc : c ∈ l) (h : ¬ key c ≤ key a) :
    ∃ b, next key l a = some b ∧ key b ≤ key c := by
  have hne : c ≠ a := by
    rintro rfl
    exact h le_rfl
  refine (neighbours key ha hc hne).resolve_left ?_
  rintro ⟨b, hb, hle⟩
  exact h (hle.trans (le_prev ha hb))

theorem prev_of_not_le (ha : a ∈ l) (hc : c ∈ l) (h : ¬ key a ≤ key c) :
    ∃ b, prev key l a = some b ∧ key c ≤ key b := by
  have hne : c ≠ a := by
    rintro rfl
    exact h le_rfl
  refine (neighbours key ha hc hne).resolve_right ?_
  rintro ⟨b, hb, hle⟩
  exact h ((next_le ha hb).trans hle)

end Neighbours

/-! ## 3. Walks from a lower bound -/

variable (key)

def lowerBound (k : κ) (l : List α) : Option α :=
  ((view key l).dropWhile (key · < k)).head?

/-- The elements at or after a lower bound, as long as they meet a condition. -/
def range (k : κ) (p : α → Bool) (l : List α) : List α :=
  ((view key l).dropWhile (key · < k)).takeWhile p

variable {key} {k : κ} {p : α → Bool}

/-- A sorted walk does not stop before an element all of whose predecessors meet the condition. -/
theorem mem_takeWhile_of_sorted (hl : l.Pairwise fun a b => key a ≤ key b) (ha : a ∈ l)
    (hp : ∀ b ∈ l, key b ≤ key a → p b = true) : a ∈ l.takeWhile p := by
  induction l with
  | nil => cases ha
  | cons b l ih =>
    rw [pairwise_cons] at hl
    have hb : p b = true := by
      refine hp b mem_cons_self ?_
      rcases mem_cons.mp ha with rfl | ha
      · exact le_rfl
      · exact hl.1 a ha
    rw [takeWhile_cons_of_pos hb]
    rcases mem_cons.mp ha with rfl | ha
    · exact mem_cons_self
    · exact mem_cons_of_mem _ (ih hl.2 ha fun c hc => hp c (mem_cons_of_mem _ hc))

/-- What is dropped before a lower bound is below it, and nothing else is dropped. -/
theorem mem_dropWhile :
    a ∈ (view key l).dropWhile (key · < k) ↔ a ∈ l ∧ k ≤ key a := by
  rw [OrderedMap.dropWhile_eq_filter, mem_filter]
  · simp
  · refine (pairwise_view key).imp fun hab hb => ?_
    exact decide_eq_true (hab.trans_lt (of_decide_eq_true hb))

variable (key) in
theorem pairwise_dropWhile :
    ((view key l).dropWhile (key · < k)).Pairwise fun a b => key a ≤ key b :=
  (pairwise_view key).sublist (dropWhile_sublist _)

theorem lowerBound_eq_some (h : lowerBound key k l = some a) :
    a ∈ l ∧ k ≤ key a ∧ ∀ b ∈ l, k ≤ key b → key a ≤ key b := by
  obtain ⟨hal, hka⟩ := mem_dropWhile.mp (mem_of_head? h)
  refine ⟨hal, hka, fun b hb hkb => ?_⟩
  obtain ⟨rest, hrest⟩ := head?_eq_some_iff.mp h
  have hbrest := mem_dropWhile.mpr ⟨hb, hkb⟩
  have hsuffix := pairwise_dropWhile key (k := k) (l := l)
  rw [hrest] at hbrest hsuffix
  rcases mem_cons.mp hbrest with rfl | hbrest
  · exact le_rfl
  · exact (pairwise_cons.mp hsuffix).1 b hbrest

theorem lowerBound_eq_none (h : lowerBound key k l = none) (ha : a ∈ l) : key a < k := by
  by_contra hka
  have hmem := mem_dropWhile.mpr ⟨ha, not_lt.mp hka⟩
  rw [head?_eq_none_iff.mp h] at hmem
  cases hmem

theorem of_mem_range (ha : a ∈ range key k p l) : a ∈ l ∧ p a = true :=
  ⟨(mem_view key).mp ((dropWhile_sublist _).subset ((takeWhile_sublist _).subset ha)),
    mem_takeWhile_imp ha⟩

/-- A walk meets exactly the elements of an interval that begins at its lower bound. -/
theorem mem_range (hlower : ∀ a ∈ l, p a = true → k ≤ key a)
    (hconvex : ∀ a ∈ l, ∀ b ∈ l, k ≤ key b → key b ≤ key a → p a = true → p b = true) :
    a ∈ range key k p l ↔ a ∈ l ∧ p a = true := by
  refine ⟨of_mem_range, ?_⟩
  rintro ⟨ha, hpa⟩
  refine mem_takeWhile_of_sorted (pairwise_dropWhile key) (mem_dropWhile.mpr ⟨ha, hlower a ha hpa⟩) ?_
  intro b hb hle
  obtain ⟨hbl, hkb⟩ := mem_dropWhile.mp hb
  exact hconvex a ha b hbl hkb hle hpa

theorem nodup_range (hl : l.Nodup) : (range key k p l).Nodup :=
  ((perm_view key).nodup_iff.mpr hl).sublist
    ((takeWhile_sublist _).trans (dropWhile_sublist _))

end OrderedView
