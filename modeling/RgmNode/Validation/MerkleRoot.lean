import RgmNode.Lib.MerkleTree
import RgmNode.Validation.CheckBlock

/-!
# The root identifies the leaves

`ComputeMerkleRoot` keeps one hash for every bit of the number of leaves it has read.  Each of
them is the root of a full tree over a part of the leaves, and the last sweep joins them from
the right, padding each level.

1. `Merkle.hashed` — the pairs of hashes that are hashed on the way
2. `Stack` — what the hashes kept stand for; `stack_addLeaf` — one more leaf
3. `padded_top` — the root is that of a padded tree
4. `eq_of_computeMerkleRoot` — equal roots that are not mutated have equal leaves
-/

namespace RgmNode

open Checks MerkleTree List LittleEndian

namespace Merkle

variable {cr : Crypto}

/-! ## 1. The pairs that are hashed -/

/-- The pairs that `addLeaf` hashes. -/
def addLeafPairs (cr : Crypto) : Uint256 → List (Option Uint256) → List (Uint256 × Uint256)
  | _, [] => []
  | _, none :: _ => []
  | h, some l :: inner => (l, h) :: addLeafPairs cr (node cr l h) inner

/-- The pairs that `sweep` hashes. -/
def sweepPairs (cr : Crypto) : Uint256 → List (Option Uint256) → List (Uint256 × Uint256)
  | _, [] => []
  | h, some l :: inner => (l, h) :: sweepPairs cr (node cr l h) inner
  | h, none :: inner => if inner.isEmpty then [] else (h, h) :: sweepPairs cr (node cr h h) inner

/-- The pairs that `top` hashes. -/
def topPairs (cr : Crypto) : List (Option Uint256) → List (Uint256 × Uint256)
  | [] => []
  | none :: inner => topPairs cr inner
  | some h :: inner => if inner.isEmpty then [] else (h, h) :: sweepPairs cr (node cr h h) inner

def addLeaves (cr : Crypto) : List (Option Uint256) → List Uint256 → List (Option Uint256)
  | inner, [] => inner
  | inner, h :: leaves => addLeaves cr (addLeaf cr h inner).1 leaves

def addedPairs (cr : Crypto) : List (Option Uint256) → List Uint256 → List (Uint256 × Uint256)
  | _, [] => []
  | inner, h :: leaves => addLeafPairs cr h inner ++ addedPairs cr (addLeaf cr h inner).1 leaves

/-- The pairs of hashes that `ComputeMerkleRoot` hashes. -/
def hashed (cr : Crypto) (leaves : List Uint256) : List (Uint256 × Uint256) :=
  addedPairs cr [] leaves ++ topPairs cr (addLeaves cr [] leaves)

/-- The tree is mutated where two equal hashes are joined. -/
theorem addLeaf_mutated (h : Uint256) (inner : List (Option Uint256)) :
    (addLeaf cr h inner).2 = (addLeafPairs cr h inner).any fun p => p.1 == p.2 := by
  induction inner generalizing h with
  | nil => rfl
  | cons o inner ih =>
    cases o with
    | none => rfl
    | some l =>
      rw [addLeafPairs, any_cons, ← ih]
      rfl

/-- What `ComputeMerkleRoot` computes: the tree is mutated if two equal hashes were joined while
the leaves were added. -/
theorem foldl_addLeaf (leaves : List Uint256) (inner : List (Option Uint256)) (mutated : Bool) :
    leaves.foldl (fun (inner, mutated) h =>
      let (inner, again) := addLeaf cr h inner
      (inner, mutated || again)) (inner, mutated) =
        (addLeaves cr inner leaves,
          mutated || (addedPairs cr inner leaves).any fun p => p.1 == p.2) := by
  induction leaves generalizing inner mutated with
  | nil => exact Prod.ext rfl (Bool.or_false _).symm
  | cons h leaves ih =>
    rw [foldl_cons, ih, addedPairs, any_append, addLeaf_mutated, ← Bool.or_assoc]
    rfl

theorem computeMerkleRoot_eq (leaves : List Uint256) :
    computeMerkleRoot cr leaves = (top cr (addLeaves cr [] leaves),
      (addedPairs cr [] leaves).any fun p => p.1 == p.2) := by
  rw [computeMerkleRoot, foldl_addLeaf, Bool.false_or]

/-! ## 2. The hashes that are kept -/

variable {J D : Uint256 → Uint256 → Prop} {k : Nat} {h : Uint256}
  {inner : List (Option Uint256)} {xs ys : List Uint256}

/-- `Stack k inner xs`: the hashes from level `k` on are the roots of full trees over the parts of
`xs`, the higher ones first.  At the highest level there is one. -/
inductive Stack (cr : Crypto) (J : Uint256 → Uint256 → Prop) :
    Nat → List (Option Uint256) → List Uint256 → Prop
  | nil (k : Nat) : Stack cr J k [] []
  | none {k : Nat} {inner : List (Option Uint256)} {xs : List Uint256} :
      Stack cr J (k + 1) inner xs → inner ≠ [] → Stack cr J k (none :: inner) xs
  | some {k : Nat} {h : Uint256} {inner : List (Option Uint256)} {xs ys : List Uint256} :
      Stack cr J (k + 1) inner xs → Full (node cr) J k h ys →
      Stack cr J k (some h :: inner) (xs ++ ys)

theorem addLeaf_ne_nil (h : Uint256) (inner : List (Option Uint256)) :
    (addLeaf cr h inner).1 ≠ [] := by
  unfold addLeaf
  split <;> exact cons_ne_nil _ _

/-- A full tree is added, and joined with those it completes. -/
theorem stack_addLeaf (hstack : Stack cr J k inner xs) (hfull : Full (node cr) J k h ys)
    (hpairs : ∀ p ∈ addLeafPairs cr h inner, J p.1 p.2) :
    Stack cr J k (addLeaf cr h inner).1 (xs ++ ys) := by
  induction hstack generalizing h ys with
  | nil k => exact .some (.nil _) hfull
  | none hrest _ => exact .some hrest hfull
  | @some k l inner xs zs hrest hl ih =>
    rw [addLeafPairs, forall_mem_cons] at hpairs
    rw [append_assoc]
    exact .none (ih (.join hl hfull hpairs.1) hpairs.2) (addLeaf_ne_nil _ _)

theorem stack_addLeaves {leaves : List Uint256} (hstack : Stack cr J 0 inner xs)
    (hpairs : ∀ p ∈ addedPairs cr inner leaves, J p.1 p.2) :
    Stack cr J 0 (addLeaves cr inner leaves) (xs ++ leaves) := by
  induction leaves generalizing inner xs with
  | nil =>
    rw [append_nil]
    exact hstack
  | cons h leaves ih =>
    rw [addedPairs, forall_mem_append] at hpairs
    have hnext := ih (stack_addLeaf hstack (.leaf h) hpairs.1) hpairs.2
    rwa [append_assoc] at hnext

/-! ## 3. The root -/

section Root

variable (hjoin : ∀ {k l r xs ys}, Full (node cr) J k l xs → Padded (node cr) J D k r ys →
  ys.length < 2 ^ k → D l r → J l r)

include hjoin

/-- The sweep over the right side of the tree, which is not full.  The tree it ends with is no
higher than its leaves need. -/
theorem padded_sweep
    (hstack : Stack cr J k inner xs) (hp : Padded (node cr) J D k h ys) (hlt : ys.length < 2 ^ k)
    (hlow : inner = [] → 2 ^ k < 2 * ys.length)
    (hpairs : ∀ p ∈ sweepPairs cr h inner, D p.1 p.2) :
    ∃ k', Padded (node cr) J D k' (sweep cr h inner) (xs ++ ys) ∧
      2 ^ k' < 2 * (xs ++ ys).length := by
  induction hstack generalizing h ys with
  | nil k => exact ⟨k, hp, hlow rfl⟩
  | @none k inner xs hrest hmore ih =>
    have hempty : ¬ inner.isEmpty = true := fun he => hmore (isEmpty_iff.mp he)
    rw [sweepPairs, if_neg hempty, forall_mem_cons] at hpairs
    rw [sweep, if_neg hempty]
    have hlt' : ys.length < 2 ^ (k + 1) :=
      hlt.trans (Nat.pow_lt_pow_right (by decide) (Nat.lt_succ_self k))
    exact ih (.double hp hpairs.1) hlt' (fun hnil => absurd hnil hmore) hpairs.2
  | @some k l inner xs zs hrest hl ih =>
    rw [sweepPairs, forall_mem_cons] at hpairs
    have hlength : (zs ++ ys).length = 2 ^ k + ys.length := by
      rw [length_append, hl.length_eq]
    have hlt' : (zs ++ ys).length < 2 ^ (k + 1) := by
      rw [hlength, pow_succ, mul_two]
      exact Nat.add_lt_add_left hlt _
    have hlow' : 2 ^ (k + 1) < 2 * (zs ++ ys).length := by
      rw [hlength, pow_succ, mul_comm]
      exact Nat.mul_lt_mul_of_pos_left (Nat.lt_add_of_pos_right hp.length_pos) Nat.two_pos
    rw [append_assoc]
    exact ih (.join hl hp (hjoin hl hp hlt hpairs.1)) hlt' (fun _ => hlow') hpairs.2

theorem padded_top
    (hstack : Stack cr J k inner xs) (hne : xs ≠ [])
    (hpairs : ∀ p ∈ topPairs cr inner, D p.1 p.2) :
    ∃ k', Padded (node cr) J D k' (top cr inner) xs ∧ 2 ^ k' < 2 * xs.length := by
  induction hstack with
  | nil k => exact absurd rfl hne
  | none hrest _ ih => exact ih hne hpairs
  | @some k h inner xs zs hrest hl ih =>
    unfold top
    unfold topPairs at hpairs
    split at hpairs
    · next hempty =>
      obtain rfl := isEmpty_iff.mp hempty
      cases hrest with
      | nil =>
        refine ⟨k, hl.padded, ?_⟩
        rw [nil_append, hl.length_eq, two_mul]
        exact Nat.lt_add_of_pos_right (Nat.two_pow_pos k)
    · next hmore =>
      rw [if_neg hmore]
      rw [forall_mem_cons] at hpairs
      have hlt : zs.length < 2 ^ (k + 1) := by
        rw [hl.length_eq]
        exact Nat.pow_lt_pow_right (by decide) (Nat.lt_succ_self k)
      exact padded_sweep hjoin hrest (.double hl.padded hpairs.1) hlt
        (fun hnil => absurd (isEmpty_iff.mpr hnil) hmore) hpairs.2

/-- The root of a list of leaves is that of a padded tree over them, and the height of the tree is
given by their number. -/
theorem padded_computeMerkleRoot
    (hne : xs ≠ []) (hadded : ∀ p ∈ addedPairs cr [] xs, J p.1 p.2)
    (hpairs : ∀ p ∈ hashed cr xs, D p.1 p.2) :
    ∃ k, Padded (node cr) J D k (computeMerkleRoot cr xs).1 xs ∧ 2 ^ k < 2 * xs.length := by
  have hstack : Stack cr J 0 (addLeaves cr [] xs) ([] ++ xs) := stack_addLeaves (.nil 0) hadded
  rw [computeMerkleRoot_eq]
  exact padded_top hjoin hstack hne fun p hp => hpairs p (mem_append_right _ hp)

end Root

/-! ## 4. Equal roots -/

/-- Of the pairs that are hashed for two lists of leaves no two different ones have the same hash,
and none has a leaf as its hash. -/
structure CollisionFree (cr : Crypto) (xs ys : List Uint256) : Prop where
  injective : ∀ p ∈ hashed cr xs ++ hashed cr ys, ∀ q ∈ hashed cr xs ++ hashed cr ys,
    node cr p.1 p.2 = node cr q.1 q.2 → p = q
  leaves : ∀ p ∈ hashed cr xs ++ hashed cr ys, node cr p.1 p.2 ∉ xs ++ ys

/-- Leaves with the same root are the same, if neither tree is mutated. -/
theorem eq_of_computeMerkleRoot (hx : xs ≠ []) (hy : ys ≠ []) (hfree : CollisionFree cr xs ys)
    (hmx : (computeMerkleRoot cr xs).2 = false) (hmy : (computeMerkleRoot cr ys).2 = false)
    (hroot : (computeMerkleRoot cr xs).1 = (computeMerkleRoot cr ys).1) : xs = ys := by
  let D : Uint256 → Uint256 → Prop := fun l r => (l, r) ∈ hashed cr xs ++ hashed cr ys
  let J : Uint256 → Uint256 → Prop := fun l r => D l r ∧ l ≠ r
  have hinj : ∀ l r l' r', (J l r ∨ D l r) → (J l' r' ∨ D l' r') →
      node cr l r = node cr l' r' → l = l' ∧ r = r' := by
    intro l r l' r' h h' heq
    exact Prod.mk.inj (hfree.injective _ (h.elim And.left id) _ (h'.elim And.left id) heq)
  have hne : ∀ l, ¬ J l l := fun _ h => h.2 rfl
  -- a full tree and one that is not full have different roots
  have hjoin : ∀ {k l r xs ys}, Full (node cr) J k l xs → Padded (node cr) J D k r ys →
      ys.length < 2 ^ k → D l r → J l r := by
    intro k l r us vs hl hr hlt hd
    refine ⟨hd, ?_⟩
    rintro rfl
    have hsame := Padded.unique hinj (Full.padded hl) hr (.inl hne)
    rw [← hsame, hl.length_eq] at hlt
    exact absurd hlt (lt_irrefl _)
  have hdistinct : ∀ zs, (computeMerkleRoot cr zs).2 = false →
      ∀ p ∈ addedPairs cr [] zs, p.1 ≠ p.2 := by
    intro zs hmutated p hp heq
    rw [computeMerkleRoot_eq] at hmutated
    exact any_eq_false.mp hmutated p hp (beq_iff_eq.mpr heq)
  have hDx : ∀ p ∈ hashed cr xs, D p.1 p.2 := fun p hp => mem_append_left _ hp
  have hDy : ∀ p ∈ hashed cr ys, D p.1 p.2 := fun p hp => mem_append_right _ hp
  obtain ⟨k, hpx, -⟩ := padded_computeMerkleRoot hjoin hx
    (fun p hp => ⟨hDx p (mem_append_left _ hp), hdistinct xs hmx p hp⟩) hDx
  obtain ⟨k', hpy, -⟩ := padded_computeMerkleRoot hjoin hy
    (fun p hp => ⟨hDy p (mem_append_left _ hp), hdistinct ys hmy p hp⟩) hDy
  rw [← hroot] at hpy
  have hleaf : ∀ l r, (J l r ∨ D l r) → node cr l r ∉ xs ++ ys := fun l r h =>
    hfree.leaves (l, r) (h.elim And.left id)
  obtain rfl := Padded.height_eq hinj hleaf hpx hpy (subset_append_left _ _)
    (subset_append_right _ _)
  exact Padded.unique hinj hpx hpy (.inl hne)

/-- As many leaves with the same root are the same, whether or not the trees are mutated. -/
theorem eq_of_computeMerkleRoot_of_length (hx : xs ≠ []) (hlen : xs.length = ys.length)
    (hfree : ∀ p ∈ hashed cr xs ++ hashed cr ys, ∀ q ∈ hashed cr xs ++ hashed cr ys,
      node cr p.1 p.2 = node cr q.1 q.2 → p = q)
    (hroot : (computeMerkleRoot cr xs).1 = (computeMerkleRoot cr ys).1) : xs = ys := by
  let D : Uint256 → Uint256 → Prop := fun l r => (l, r) ∈ hashed cr xs ++ hashed cr ys
  have hinj : ∀ l r l' r', (D l r ∨ D l r) → (D l' r' ∨ D l' r') →
      node cr l r = node cr l' r' → l = l' ∧ r = r' := by
    intro l r l' r' h h' heq
    exact Prod.mk.inj (hfree _ (h.elim id id) _ (h'.elim id id) heq)
  have hDx : ∀ p ∈ hashed cr xs, D p.1 p.2 := fun p hp => mem_append_left _ hp
  have hDy : ∀ p ∈ hashed cr ys, D p.1 p.2 := fun p hp => mem_append_right _ hp
  have hy : ys ≠ [] := ne_nil_of_length_pos (hlen ▸ length_pos_iff.mpr hx)
  obtain ⟨k, hpx, hk⟩ := padded_computeMerkleRoot (fun _ _ _ hd => hd) hx
    (fun p hp => hDx p (mem_append_left _ hp)) hDx
  obtain ⟨k', hpy, hk'⟩ := padded_computeMerkleRoot (fun _ _ _ hd => hd) hy
    (fun p hp => hDy p (mem_append_left _ hp)) hDy
  obtain rfl : k = k' := le_antisymm (height_le hk (hlen ▸ hpy.length_le))
    (height_le hk' (hlen ▸ hpx.length_le))
  rw [← hroot] at hpy
  exact Padded.unique hinj hpx hpy (.inr hlen)

end Merkle

/-- A block that `CheckBlock` accepts has the root of its transactions, in a tree that is not
mutated. -/
theorem checkBlock_merkle {cr : Crypto} {cp : CChainParams} {block : CBlock} {fCheckPOW : Bool}
    (h : checkBlock cr cp block fCheckPOW true = .ok ()) :
    block.vtx ≠ [] ∧ block.hashMerkleRoot = (blockMerkleRoot cr block).1 ∧
      (blockMerkleRoot cr block).2 = false := by
  obtain ⟨-, -, h⟩ := bind_eq_ok_iff.mp h
  obtain ⟨⟨⟩, hmerkle, h⟩ := bind_eq_ok_iff.mp h
  obtain ⟨⟨hne, -, -⟩, -⟩ := require_bind_eq_ok_iff.mp h
  obtain ⟨hroot, hmerkle⟩ := require_bind_eq_ok_iff.mp hmerkle
  exact ⟨hne, hroot rfl, require_eq_ok_iff.mp hmerkle rfl⟩

/-- The root of a tree that is not mutated identifies the leaves, so that two blocks with the
same root that `CheckBlock` accepts have the same transactions. -/
theorem merkleRoot_identifies_leaves (cr : Crypto) :
    (∀ xs ys : List Uint256, xs ≠ [] → ys ≠ [] → Merkle.CollisionFree cr xs ys →
        (Merkle.computeMerkleRoot cr xs).2 = false → (Merkle.computeMerkleRoot cr ys).2 = false →
        (Merkle.computeMerkleRoot cr xs).1 = (Merkle.computeMerkleRoot cr ys).1 → xs = ys) ∧
      ∀ (cp : CChainParams) (a b : CBlock) (fCheckPOW fCheckPOW' : Bool),
        checkBlock cr cp a fCheckPOW true = .ok () → checkBlock cr cp b fCheckPOW' true = .ok () →
        Merkle.CollisionFree cr (a.vtx.map (·.getHash cr)) (b.vtx.map (·.getHash cr)) →
        a.hashMerkleRoot = b.hashMerkleRoot →
        a.vtx.map (·.getHash cr) = b.vtx.map (·.getHash cr) := by
  refine ⟨fun xs ys hx hy hfree hmx hmy hroot =>
    Merkle.eq_of_computeMerkleRoot hx hy hfree hmx hmy hroot, ?_⟩
  intro cp a b fCheckPOW fCheckPOW' ha hb hfree hroot
  obtain ⟨hnea, hroota, hmuta⟩ := checkBlock_merkle ha
  obtain ⟨hneb, hrootb, hmutb⟩ := checkBlock_merkle hb
  refine Merkle.eq_of_computeMerkleRoot (by simpa using hnea) (by simpa using hneb) hfree hmuta
    hmutb ?_
  exact hroota.symm.trans (hroot.trans hrootb)

namespace MerkleExample

/-- A hash of two small numbers that keeps them apart. -/
def crypto : Crypto where
  sha256 := fun b =>
    if b.length = 64 then
      BitVec.ofNat 256 (1000 + decode (b.take 4) +
        100 * decode ((b.drop 32).take 4))
    else BitVec.ofNat 256 (decode b)
  ripemd160 := fun _ => 0
  sha1 := fun _ => 0
  scrypt := fun _ => 0

end MerkleExample

open MerkleExample in
theorem merkleRoot_identifies_three :
    Merkle.CollisionFree crypto [1, 2, 3] [1, 2, 3] ∧
      (Merkle.computeMerkleRoot crypto [1, 2, 3]).2 = false ∧
      ([1, 2, 3] : List Uint256) = [1, 2, 3] := by
  have hfree : Merkle.CollisionFree crypto [1, 2, 3] [1, 2, 3] :=
    -- the pairs are checked one by one: there are too many hashes to go through
    ⟨@of_decide_eq_true _ (@List.decidableBAll _ _ (fun _ => List.decidableBAll _ _) _)
      (by decide +kernel), @of_decide_eq_true _ (List.decidableBAll _ _) (by decide +kernel)⟩
  have hmutated : (Merkle.computeMerkleRoot crypto [1, 2, 3]).2 = false := by decide +kernel
  exact ⟨hfree, hmutated, (merkleRoot_identifies_leaves crypto).1 _ _ (by decide) (by decide) hfree
    hmutated hmutated rfl⟩

open MerkleExample in
-- without the flag a repeated transaction is not seen in the root
example : Merkle.computeMerkleRoot crypto [1, 2, 3, 3] =
    ((Merkle.computeMerkleRoot crypto [1, 2, 3]).1, true) := by decide +kernel

end RgmNode
