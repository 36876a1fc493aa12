import Mathlib.Tactic.Common

/-!
# Ordered maps

Maps as lists of entries in the order of their keys, read with `List.lookup`.  The lemmas hold for
every list of entries, ordered or not.

* `mem_insert`, `mem_erase` — the entries after an insertion or a removal
-/

namespace OrderedMap

open List

variable {κ ν : Type*} [DecidableEq κ]

variable {k : κ} {entries : List (κ × ν)}

theorem lookup_cons {k' : κ} {v : ν} :
    List.lookup k' ((k, v) :: entries) = if k' = k then some v else entries.lookup k' := by
  rw [List.lookup_cons]
  split
  · next heq => rw [if_pos (beq_iff_eq.mp heq)]
  · next hne => rw [if_neg (beq_eq_false_iff_ne.mp hne)]

theorem lookup_eq_none_of_forall (h : ∀ e ∈ entries, e.1 ≠ k) : entries.lookup k = none := by
  induction entries with
  | nil => rfl
  | cons e entries ih =>
    obtain ⟨he, hrest⟩ := forall_mem_cons.mp h
    rw [lookup_cons, if_neg he.symm]
    exact ih hrest

theorem mem_of_lookup {v : ν} (h : entries.lookup k = some v) : (k, v) ∈ entries := by
  induction entries with
  | nil => cases h
  | cons e entries ih =>
    rw [lookup_cons] at h
    split at h
    · next heq =>
      cases h
      exact heq ▸ mem_cons_self
    · exact mem_cons_of_mem _ (ih h)

section Insert

variable [LT κ] [DecidableLT κ]

def insert (k : κ) (v : ν) : List (κ × ν) → List (κ × ν)
  | [] => [(k, v)]
  | (k', v') :: entries =>
    if k = k' then (k, v) :: entries
    else if k < k' then (k, v) :: (k', v') :: entries
    else (k', v') :: insert k v entries

variable {k k' : κ} {v : ν} {entries : List (κ × ν)}

theorem lookup_insert :
    (insert k v entries).lookup k' = if k' = k then some v else entries.lookup k' := by
  induction entries with
  | nil => exact lookup_cons
  | cons e entries ih =>
    rw [insert]
    split
    · next heq =>
      rw [lookup_cons, lookup_cons, ← heq]
      split <;> rfl
    · next hne =>
      split
      · exact lookup_cons
      · rw [lookup_cons, lookup_cons, ih]
        by_cases h : k' = k
        · rw [if_pos h, if_pos h, if_neg (h ▸ hne)]
        · rw [if_neg h, if_neg h]

theorem lookup_insert_self : (insert k v entries).lookup k = some v := by
  rw [lookup_insert, if_pos rfl]

theorem lookup_insert_of_ne (hne : k' ≠ k) : (insert k v entries).lookup k' = entries.lookup k' := by
  rw [lookup_insert, if_neg hne]

theorem mem_insert_self : (k, v) ∈ insert k v entries := mem_of_lookup lookup_insert_self

theorem mem_insert {e : κ × ν} (h : e ∈ insert k v entries) : e = (k, v) ∨ e ∈ entries := by
  induction entries with
  | nil => exact .inl (mem_singleton.mp h)
  | cons e' entries ih =>
    rw [insert] at h
    split at h
    · rcases mem_cons.mp h with h | h
      · exact .inl h
      · exact .inr (mem_cons_of_mem _ h)
    · split at h
      · exact (mem_cons.mp h).imp_right fun h => h
      · rcases mem_cons.mp h with rfl | h
        · exact .inr mem_cons_self
        · exact (ih h).imp_right (mem_cons_of_mem _)

theorem mem_insert_of_ne {e : κ × ν} (h : e ∈ entries) (hne : e.1 ≠ k) :
    e ∈ insert k v entries := by
  induction entries with
  | nil => cases h
  | cons e' entries ih =>
    rw [insert]
    split
    · next heq =>
      rcases mem_cons.mp h with rfl | h
      · exact absurd heq.symm hne
      · exact mem_cons_of_mem _ h
    · split
      · exact mem_cons_of_mem _ h
      · rcases mem_cons.mp h with rfl | h
        · exact mem_cons_self
        · exact mem_cons_of_mem _ (ih h)

theorem pairwise_insert (htrans : ∀ a b c : κ, a < b → b < c → a < c)
    (htotal : ∀ a b : κ, a ≠ b → ¬ a < b → b < a) (h : entries.Pairwise fun a b => a.1 < b.1) :
    (insert k v entries).Pairwise fun a b => a.1 < b.1 := by
  induction entries with
  | nil => exact pairwise_singleton _ _
  | cons e entries ih =>
    obtain ⟨hfirst, hrest⟩ := pairwise_cons.mp h
    rw [insert]
    split
    · next heq => exact pairwise_cons.mpr ⟨heq ▸ hfirst, hrest⟩
    · next hne =>
      split
      · next hlt =>
        refine pairwise_cons.mpr ⟨fun b hb => ?_, h⟩
        rcases mem_cons.mp hb with rfl | hb
        · exact hlt
        · exact htrans _ _ _ hlt (hfirst b hb)
      · next hlt =>
        refine pairwise_cons.mpr ⟨fun b hb => ?_, ih hrest⟩
        rcases mem_insert hb with rfl | hb
        · exact htotal _ _ hne hlt
        · exact hfirst b hb

def insertNew (k : κ) (v : ν) (entries : List (κ × ν)) : List (κ × ν) :=
  if (entries.lookup k).isSome then entries else insert k v entries

/-- The entries after insertions of distinct keys that are all new. -/
theorem mem_foldl_insertNew {e : κ × ν} {news : List (κ × ν)} (hnodup : (news.map (·.1)).Nodup)
    (hnew : ∀ a ∈ news, ∀ b ∈ entries, b.1 ≠ a.1) :
    e ∈ news.foldl (fun entries a => insertNew a.1 a.2 entries) entries ↔
      e ∈ entries ∨ e ∈ news := by
  induction news generalizing entries with
  | nil => simp
  | cons a news ih =>
    rw [map_cons, nodup_cons] at hnodup
    have hnone : entries.lookup a.1 = none :=
      lookup_eq_none_of_forall fun b hb => hnew a mem_cons_self b hb
    have hinsert : insertNew a.1 a.2 entries = insert a.1 a.2 entries := by
      rw [insertNew, hnone]
      rfl
    have hmem : ∀ b, b ∈ insert a.1 a.2 entries ↔ b = a ∨ b ∈ entries := by
      intro b
      constructor
      · exact mem_insert
      · intro hb
        rcases hb with rfl | hb
        · exact mem_insert_self
        · exact mem_insert_of_ne hb (hnew a mem_cons_self b hb)
    rw [foldl_cons, hinsert, ih hnodup.2, hmem, mem_cons]
    · tauto
    · intro b hb b' hb'
      rcases (hmem b').mp hb' with rfl | hb'
      · intro heq
        exact hnodup.1 (heq ▸ mem_map_of_mem hb)
      · exact hnew b (mem_cons_of_mem _ hb) b' hb'

end Insert

def erase (k : κ) (entries : List (κ × ν)) : List (κ × ν) := entries.filter fun e => e.1 ≠ k

theorem mem_erase {e : κ × ν} : e ∈ erase k entries ↔ e ∈ entries ∧ e.1 ≠ k := by
  simp [erase]

section Initial

variable {α : Type*} {p : α → Bool} {l : List α}

/-- Where the entries that meet a condition come first, a walk finds them all. -/
theorem takeWhile_eq_filter (h : l.Pairwise fun a b => p b = true → p a = true) :
    l.takeWhile p = l.filter p := by
  induction l with
  | nil => rfl
  | cons a l ih =>
    obtain ⟨hhead, htail⟩ := pairwise_cons.mp h
    cases ha : p a with
    | true => rw [takeWhile_cons_of_pos ha, filter_cons_of_pos ha, ih htail]
    | false =>
      have hnone : ∀ b ∈ l, ¬ p b = true := by
        intro b hb hpb
        rw [hhead b hb hpb] at ha
        cases ha
      rw [takeWhile_cons_of_neg (by simp [ha]), filter_cons_of_neg (by simp [ha]),
        filter_eq_nil_iff.mpr hnone]

theorem dropWhile_eq_filter (h : l.Pairwise fun a b => p b = true → p a = true) :
    l.dropWhile p = l.filter fun a => !p a := by
  induction l with
  | nil => rfl
  | cons a l ih =>
    obtain ⟨hhead, htail⟩ := pairwise_cons.mp h
    cases ha : p a with
    | true =>
      rw [dropWhile_cons_of_pos ha, filter_cons_of_neg (by simp [ha]), ih htail]
    | false =>
      have hall : ∀ b ∈ l, (!p b) = true := by
        intro b hb
        cases hpb : p b with
        | true => rw [hhead b hb hpb] at ha; cases ha
        | false => rfl
      rw [dropWhile_cons_of_neg (by simp [ha]), filter_cons_of_pos (by simp [ha]),
        filter_eq_self.mpr hall]

end Initial

end OrderedMap
