import RgmNode.Consensus.ParentWork
import RgmNode.Validation.MerkleRoot
import RgmNode.Validation.PartialMerkleTree

/-!
# The merkle implementations agree

`MerkleComputation` joins hashes as they come, `CalcHash` descends from the root, and branches are
followed from a leaf.  All give the root of the tree whose levels are formed by hashing pairs, the
last hash of an odd level with itself.
-/

namespace RgmNode

open MerkleTree List

namespace Merkle

variable {cr : Crypto}

/-! ## 1. Levels -/

/-- The level above a level -/
def pairUp (cr : Crypto) : List Uint256 → List Uint256
  | [] => []
  | [a] => [node cr a a]
  | a :: b :: level => node cr a b :: pairUp cr level

theorem length_pairUp (xs : List Uint256) : (pairUp cr xs).length = (xs.length + 1) / 2 := by
  induction xs using pairUp.induct with
  | case1 => rfl
  | case2 a => simp [pairUp]
  | case3 a b level ih =>
    rw [pairUp, length_cons, length_cons, length_cons]
    omega

def pairwiseRoot (cr : Crypto) : List Uint256 → Uint256
  | [] => 0
  | [a] => a
  | a :: b :: level => pairwiseRoot cr (pairUp cr (a :: b :: level))
termination_by xs => xs.length
decreasing_by
  rw [length_pairUp, List.length_cons, List.length_cons]
  omega

variable {us xs : List Uint256}

/-- A part of a level that is not the end is formed by pairs. -/
theorem exists_of_pairUp_eq_append {vs : List Uint256} (hvs : vs ≠ []) (h : pairUp cr xs = us ++ vs) :
    ∃ xs₁ xs₂, xs = xs₁ ++ xs₂ ∧ pairUp cr xs₁ = us ∧ xs₁.length = 2 * us.length ∧
      pairUp cr xs₂ = vs := by
  induction us generalizing xs with
  | nil => exact ⟨[], xs, rfl, rfl, rfl, h⟩
  | cons u us ih =>
    match xs with
    | [] => cases h
    | [a] =>
      have hnil := (cons.inj h).2
      exact absurd (append_eq_nil_iff.mp hnil.symm).2 hvs
    | a :: b :: xs =>
      obtain ⟨rfl, hrest⟩ := cons.inj h
      obtain ⟨xs₁, xs₂, rfl, rfl, hlength, rfl⟩ := ih hrest
      refine ⟨a :: b :: xs₁, xs₂, rfl, rfl, ?_, rfl⟩
      rw [length_cons, length_cons, length_cons]
      omega

abbrev Any : Uint256 → Uint256 → Prop := fun _ _ => True

theorem full_of_pairUp {k : Nat} {h : Uint256} (hfull : Full (node cr) Any k h us)
    (hpair : pairUp cr xs = us) (hlength : xs.length = 2 * us.length) :
    Full (node cr) Any (k + 1) h xs := by
  induction hfull generalizing xs with
  | leaf a =>
    match xs with
    | [x, y] =>
      obtain rfl := (cons.inj hpair).1
      exact .join (.leaf x) (.leaf y) trivial
  | @join k l r us vs hl hr _ ihl ihr =>
    have hvs : vs ≠ [] := ne_nil_of_length_pos (hr.length_eq ▸ Nat.two_pow_pos k)
    obtain ⟨xs₁, xs₂, rfl, h₁, hlength₁, h₂⟩ := exists_of_pairUp_eq_append hvs hpair
    refine .join (ihl h₁ hlength₁) (ihr h₂ ?_) trivial
    rw [length_append, length_append] at hlength
    omega

theorem padded_of_pairUp {k : Nat} {h : Uint256} (hp : Padded (node cr) Any Any k h us)
    (hpair : pairUp cr xs = us) : Padded (node cr) Any Any (k + 1) h xs := by
  induction hp generalizing xs with
  | leaf a =>
    match xs with
    | [x] =>
      obtain rfl := (cons.inj hpair).1
      exact .double (.leaf x) trivial
    | [x, y] =>
      obtain rfl := (cons.inj hpair).1
      exact .join (.leaf x) (.leaf y) trivial
    | x :: y :: z :: xs =>
      have hlength := congrArg length hpair
      rw [length_pairUp] at hlength
      simp only [length_cons, length_nil] at hlength
      omega
  | double _ _ ih => exact .double (ih hpair) trivial
  | @join k l r us vs hl hr _ ih =>
    have hvs : vs ≠ [] := ne_nil_of_length_pos hr.length_pos
    obtain ⟨xs₁, xs₂, rfl, h₁, hlength₁, h₂⟩ := exists_of_pairUp_eq_append hvs hpair
    exact .join (full_of_pairUp hl h₁ hlength₁) (ih h₂) trivial

/-- The root of the levels is that of a padded tree. -/
theorem padded_pairwiseRoot (hne : xs ≠ []) :
    ∃ k, Padded (node cr) Any Any k (pairwiseRoot cr xs) xs ∧ 2 ^ k < 2 * xs.length := by
  induction xs using pairwiseRoot.induct cr with
  | case1 => exact absurd rfl hne
  | case2 a =>
    rw [pairwiseRoot]
    exact ⟨0, .leaf a, one_lt_two⟩
  | case3 a b level ih =>
    obtain ⟨k, hp, hlow⟩ := ih (cons_ne_nil _ _)
    rw [pairwiseRoot]
    refine ⟨k + 1, padded_of_pairUp hp rfl, ?_⟩
    rw [length_pairUp, length_cons, length_cons] at hlow
    rw [length_cons, length_cons]
    -- an odd number of leaves is not a power of two
    cases k with
    | zero => omega
    | succ k =>
      omega

/-- So is the root that is computed leaf after leaf. -/
theorem padded_root (cr : Crypto) (hne : xs ≠ []) :
    ∃ k, Padded (node cr) Any Any k (computeMerkleRoot cr xs).1 xs ∧ 2 ^ k < 2 * xs.length :=
  padded_computeMerkleRoot (fun _ _ _ _ => trivial) hne (fun _ _ => trivial) fun _ _ => trivial

end Merkle

/-! ## 2. From the root -/

namespace CPartialMerkleTree

open Merkle

variable {cr : Crypto}

def below (xs : List Uint256) (height pos : Nat) : List Uint256 :=
  (xs.drop (pos * 2 ^ height)).take (2 ^ height)

theorem below_succ (xs : List Uint256) (height pos : Nat) :
    below xs (height + 1) pos = below xs height (pos * 2) ++ below xs height (pos * 2 + 1) := by
  rw [below, below, below, first_child, second_child, pow_succ, mul_two, take_add, drop_drop]

/-- `CalcHash` gives the roots of the parts of the tree. -/
theorem padded_calcHash {xs : List Uint256} (hn : xs.length < 2 ^ 31) {height pos : Nat}
    (hheight : height ≤ 31) (hpos : pos * 2 ^ height < xs.length) :
    Padded (node cr) Any Any height (calcHash cr xs height pos) (below xs height pos) ∧
      ((pos + 1) * 2 ^ height ≤ xs.length →
        Full (node cr) Any height (calcHash cr xs height pos) (below xs height pos)) := by
  induction height generalizing pos with
  | zero =>
    have hleaf : below xs 0 pos = [calcHash cr xs 0 pos] := by
      rw [pow_zero, mul_one] at hpos
      rw [below, calcHash, pow_zero, mul_one, drop_eq_getElem_cons hpos,
        getD_eq_getElem?_getD, getElem?_eq_getElem hpos]
      rfl
    rw [hleaf]
    exact ⟨.leaf _, fun _ => .leaf _⟩
  | succ height ih =>
    rw [first_child] at hpos
    obtain ⟨hleft, hfull⟩ := ih (by omega) hpos
    rw [calcHash, below_succ, end_child]
    split
    · next hmore =>
      rw [lt_calcTreeWidth hn (by omega)] at hmore
      obtain ⟨hright, hfull'⟩ := ih (by omega) hmore
      have hl := hfull hmore.le
      exact ⟨.join hl hright trivial, fun hle => .join hl (hfull' hle) trivial⟩
    · next hless =>
      rw [lt_calcTreeWidth hn (by omega), not_lt] at hless
      have hnil : below xs height (pos * 2 + 1) = [] := by
        rw [below, drop_eq_nil_of_le hless, take_nil]
      rw [hnil, append_nil]
      refine ⟨.double hleft trivial, fun hle => ?_⟩
      have hpow := Nat.two_pow_pos height
      rw [add_one_mul] at hle
      omega

theorem calcHash_top {xs : List Uint256} (hne : xs ≠ []) (hn : xs.length < 2 ^ 31) :
    calcHash cr xs (treeHeight xs.length) 0 = (computeMerkleRoot cr xs).1 := by
  have hpos : 0 < xs.length := length_pos_iff.mpr hne
  obtain ⟨hle, hlow, hheight⟩ := treeHeight_spec hpos hn
  obtain ⟨k, hp, hk⟩ := padded_root cr hne
  have hp' : Padded (node cr) Any Any (treeHeight xs.length)
      (calcHash cr xs (treeHeight xs.length) 0) (below xs (treeHeight xs.length) 0) :=
    (padded_calcHash hn hheight (by rwa [zero_mul])).1
  rw [below, zero_mul, drop_zero, take_of_length_le hle] at hp'
  exact hp'.root_eq hlow hp hk

end CPartialMerkleTree

/-! ## 3. Branches -/

namespace Merkle

variable {cr : Crypto}

/-- What `MerkleComputation` keeps for a branch: `matchlevel` and `pbranch` -/
structure Track where
  matchlevel : Option Nat
  branch : List Uint256

/-- What the hashing of `inner[level]`, which is `l`, with `h` adds to the branch -/
def joinBranch (level : Nat) (l h : Uint256) (matchh : Bool) (t : Track) : Bool × Track :=
  if matchh then (true, { t with branch := t.branch ++ [l] })
  else if t.matchlevel = some level then (true, { t with branch := t.branch ++ [h] })
  else (false, t)

/-- The loop of `addLeaf` -/
def addLeafBranch (cr : Crypto) :
    Nat → Uint256 → Bool → List (Option Uint256) → Track → Track
  | level, h, matchh, some l :: inner, t =>
    let (matchh, t) := joinBranch level l h matchh t
    addLeafBranch cr (level + 1) (node cr l h) matchh inner t
  | level, _, matchh, _, t => if matchh then { t with matchlevel := some level } else t

def doubleBranch (h : Uint256) (matchh : Bool) (t : Track) : Track :=
  if matchh then { t with branch := t.branch ++ [h] } else t

/-- The loop of `sweep` -/
def sweepBranch (cr : Crypto) :
    Nat → Uint256 → Bool → List (Option Uint256) → Track → List Uint256
  | _, _, _, [], t => t.branch
  | level, h, matchh, some l :: inner, t =>
    let (matchh, t) := joinBranch level l h matchh t
    sweepBranch cr (level + 1) (node cr l h) matchh inner t
  | level, h, matchh, none :: inner, t =>
    if inner.isEmpty then t.branch
    else sweepBranch cr (level + 1) (node cr h h) matchh inner (doubleBranch h matchh t)

/-- The start of the sweep, as in `top` -/
def topBranch (cr : Crypto) : Nat → List (Option Uint256) → Track → List Uint256
  | _, [], t => t.branch
  | level, none :: inner, t => topBranch cr (level + 1) inner t
  | level, some h :: inner, t =>
    let matchh := t.matchlevel == some level
    if inner.isEmpty then t.branch
    else sweepBranch cr (level + 1) (node cr h h) matchh inner (doubleBranch h matchh t)

def addLeavesBranch (cr : Crypto) (branchpos : Nat) :
    Nat → List (Option Uint256) → Track → List Uint256 → Track
  | _, _, t, [] => t
  | count, inner, t, h :: leaves =>
    addLeavesBranch cr branchpos (count + 1) (addLeaf cr h inner).1
      (addLeafBranch cr 0 h (count == branchpos) inner t) leaves

def computeMerkleBranch (cr : Crypto) (leaves : List Uint256) (position : UInt32) : List Uint256 :=
  topBranch cr 0 (addLeaves cr [] leaves)
    (addLeavesBranch cr position.toNat 0 [] ⟨none, []⟩ leaves)

def computeMerkleRootFromBranch (cr : Crypto) (leaf : Uint256) (vMerkleBranch : List Uint256)
    (nIndex : UInt32) : Uint256 :=
  (vMerkleBranch.foldl (fun (hash, nIndex) b =>
    (if nIndex &&& 1 != 0 then node cr b hash else node cr hash b, nIndex >>> 1))
      (leaf, nIndex)).1

/-- From a leaf upwards: the turn at each level is the parity of the position. -/
def climb (cr : Crypto) (hash : Uint256) : List Uint256 → Nat → Uint256
  | [], _ => hash
  | b :: branch, i =>
    climb cr (if i % 2 = 1 then node cr b hash else node cr hash b) branch (i / 2)

theorem climb_concat (hash b : Uint256) (branch : List Uint256) (i : Nat) :
    climb cr hash (branch ++ [b]) i =
      if i / 2 ^ branch.length % 2 = 1 then node cr b (climb cr hash branch i)
      else node cr (climb cr hash branch i) b := by
  induction branch generalizing hash i with
  | nil =>
    rw [length_nil, pow_zero, Nat.div_one]
    rfl
  | cons c branch ih =>
    rw [cons_append, climb, ih, climb, length_cons, pow_succ, mul_comm, Nat.div_div_eq_div_mul]

/-- The number whose bits the levels are -/
def countOf : List (Option Uint256) → Nat
  | [] => 0
  | none :: inner => 2 * countOf inner
  | some _ :: inner => 2 * countOf inner + 1

section

variable {leaf : Uint256} {i k : Nat} {inner : List (Option Uint256)} {t : Track}

/-- The branch so far leads from leaf `i` to `h`, at place `pos` of level `k`. -/
structure Carried (cr : Crypto) (leaf : Uint256) (i k pos : Nat) (h : Uint256) (t : Track) :
    Prop where
  length : t.branch.length = k
  root : climb cr leaf t.branch i = h
  place : i / 2 ^ k = pos

/-- `Held k inner t`: the branch so far leads to the hash that `inner` has at `matchlevel`, where
`inner` starts at level `k`. -/
inductive Held (cr : Crypto) (leaf : Uint256) (i : Nat) :
    Nat → List (Option Uint256) → Track → Prop
  | here {k : Nat} {h : Uint256} {inner : List (Option Uint256)} {t : Track} :
      t.matchlevel = some k → Carried cr leaf i k (2 * countOf inner) h t →
      Held cr leaf i k (some h :: inner) t
  | up {k : Nat} {o : Option Uint256} {inner : List (Option Uint256)} {t : Track} :
      Held cr leaf i (k + 1) inner t → Held cr leaf i k (o :: inner) t

theorem Held.le_matchlevel (hheld : Held cr leaf i k inner t) :
    ∃ level, t.matchlevel = some level ∧ k ≤ level := by
  induction hheld with
  | here hlevel _ => exact ⟨_, hlevel, le_refl _⟩
  | up _ ih =>
    obtain ⟨level, hlevel, hle⟩ := ih
    exact ⟨level, hlevel, Nat.le_of_succ_le hle⟩

/-- A hash that is held higher up is not met yet. -/
theorem Held.matchlevel_ne (hheld : Held cr leaf i (k + 1) inner t) : t.matchlevel ≠ some k := by
  obtain ⟨level, hlevel, hle⟩ := hheld.le_matchlevel
  rw [hlevel, Ne, Option.some.injEq]
  exact ne_of_gt hle

variable {l h : Uint256}

theorem Carried.joinRight {c : Nat} (hc : Carried cr leaf i k (2 * c + 1) h t) :
    Carried cr leaf i (k + 1) c (node cr l h) { t with branch := t.branch ++ [l] } where
  length := by rw [length_append, hc.length, length_singleton]
  root := by rw [climb_concat, hc.length, hc.place, hc.root, if_pos (by omega)]
  place := by
    rw [pow_succ, ← Nat.div_div_eq_div_mul, hc.place]
    omega

theorem Carried.joinLeft {c : Nat} {r : Uint256} (hc : Carried cr leaf i k (2 * c) h t) :
    Carried cr leaf i (k + 1) c (node cr h r) { t with branch := t.branch ++ [r] } where
  length := by rw [length_append, hc.length, length_singleton]
  root := by rw [climb_concat, hc.length, hc.place, hc.root, if_neg (by omega)]
  place := by
    rw [pow_succ, ← Nat.div_div_eq_div_mul, hc.place]
    omega

theorem joinBranch_of_ne (hne : t.matchlevel ≠ some k) : joinBranch k l h false t = (false, t) := by
  rw [joinBranch, if_neg Bool.false_ne_true, if_neg hne]

theorem joinBranch_of_eq (heq : t.matchlevel = some k) :
    joinBranch k l h false t = (true, { t with branch := t.branch ++ [h] }) := by
  rw [joinBranch, if_neg Bool.false_ne_true, if_pos heq]

/-! ### One leaf -/

theorem countOf_addLeaf (cr : Crypto) (h : Uint256) :
    countOf (addLeaf cr h inner).1 = countOf inner + 1 := by
  induction inner generalizing h with
  | nil => rfl
  | cons o inner ih =>
    cases o with
    | none => rfl
    | some l =>
      show 2 * countOf (addLeaf cr (node cr l h) inner).1 = 2 * countOf inner + 1 + 1
      rw [ih]
      rfl

/-- The leaf itself, or what it was joined to, is stored. -/
theorem Carried.addLeaf (hc : Carried cr leaf i k (countOf inner) h t) :
    Held cr leaf i k (addLeaf cr h inner).1 (addLeafBranch cr k h true inner t) := by
  induction inner generalizing k h t with
  | nil => exact .here rfl ⟨hc.length, hc.root, hc.place⟩
  | cons o inner ih =>
    cases o with
    | none => exact .here rfl ⟨hc.length, hc.root, hc.place⟩
    | some l => exact .up (ih hc.joinRight)

theorem Held.addLeaf (hheld : Held cr leaf i k inner t) :
    Held cr leaf i k (addLeaf cr h inner).1 (addLeafBranch cr k h false inner t) := by
  induction hheld generalizing h with
  | here hlevel hc =>
    rw [addLeafBranch, joinBranch_of_eq hlevel]
    exact .up hc.joinLeft.addLeaf
  | @up k o inner t hheld ih =>
    cases o with
    | none => exact .up hheld
    | some l =>
      rw [addLeafBranch, joinBranch_of_ne hheld.matchlevel_ne]
      exact .up ih

theorem addLeafBranch_of_none (hlevel : t.matchlevel = none) (h : Uint256) :
    addLeafBranch cr k h false inner t = t := by
  induction inner generalizing k h with
  | nil => rfl
  | cons o inner ih =>
    cases o with
    | none => rfl
    | some l =>
      rw [addLeafBranch, joinBranch_of_ne (by rw [hlevel]; exact (Option.some_ne_none k).symm)]
      exact ih _

/-! ### All leaves -/

theorem Held.addLeaves {count : Nat} {leaves : List Uint256} (hheld : Held cr leaf i 0 inner t)
    (hcount : i < count) :
    Held cr leaf i 0 (addLeaves cr inner leaves) (addLeavesBranch cr i count inner t leaves) := by
  induction leaves generalizing inner t count with
  | nil => exact hheld
  | cons h leaves ih =>
    have hpassed : (count == i) = false := beq_false_of_ne (ne_of_gt hcount)
    rw [addLeavesBranch, hpassed]
    exact ih hheld.addLeaf (Nat.lt_succ_of_lt hcount)

theorem held_addLeaves {leaves : List Uint256} (hle : countOf inner ≤ i)
    (hleaf : leaves[i - countOf inner]? = some leaf) :
    Held cr leaf i 0 (addLeaves cr inner leaves)
      (addLeavesBranch cr i (countOf inner) inner ⟨none, []⟩ leaves) := by
  induction leaves generalizing inner with
  | nil => cases hleaf
  | cons h leaves ih =>
    rw [addLeavesBranch, ← countOf_addLeaf cr h]
    rcases eq_or_lt_of_le hle with heq | hlt
    · -- the leaf of the branch: from here on it is held
      rw [heq, Nat.sub_self] at hleaf
      obtain rfl := Option.some.inj hleaf
      rw [heq, beq_self_eq_true]
      have hc : Carried cr h i 0 (countOf inner) h ⟨none, []⟩ :=
        ⟨rfl, rfl, by rw [pow_zero, Nat.div_one, heq]⟩
      refine hc.addLeaf.addLeaves ?_
      rw [countOf_addLeaf, heq]
      exact Nat.lt_succ_self i
    · rw [beq_false_of_ne (ne_of_lt hlt), addLeafBranch_of_none rfl]
      refine ih (by rw [countOf_addLeaf]; exact hlt) ?_
      obtain ⟨d, hd⟩ : ∃ d, i - countOf inner = d + 1 := ⟨i - countOf inner - 1, by omega⟩
      rw [hd] at hleaf
      rw [countOf_addLeaf, ← Nat.sub_sub, hd]
      exact hleaf

/-! ### The sweep -/

theorem Carried.sweep (hc : Carried cr leaf i k (countOf inner) h t) :
    climb cr leaf (sweepBranch cr k h true inner t) i = sweep cr h inner := by
  induction inner generalizing k h t with
  | nil => exact hc.root
  | cons o inner ih =>
    cases o with
    | none =>
      rw [sweepBranch, Merkle.sweep]
      split
      · exact hc.root
      · exact ih hc.joinLeft
    | some l => exact ih hc.joinRight

section

variable (hheld : Held cr leaf i k inner t)

include hheld

theorem Held.ne_nil : ¬ inner.isEmpty = true := by
  cases hheld <;> exact Bool.false_ne_true

theorem Held.sweep : climb cr leaf (sweepBranch cr k h false inner t) i = sweep cr h inner := by
  induction hheld generalizing h with
  | here hlevel hc =>
    rw [sweepBranch, joinBranch_of_eq hlevel]
    exact hc.joinLeft.sweep
  | @up k o inner t hheld ih =>
    cases o with
    | none =>
      rw [sweepBranch, Merkle.sweep, if_neg hheld.ne_nil, if_neg hheld.ne_nil]
      exact ih
    | some l =>
      rw [sweepBranch, joinBranch_of_ne hheld.matchlevel_ne]
      exact ih

theorem Held.top : climb cr leaf (topBranch cr k inner t) i = top cr inner := by
  induction hheld with
  | @here k h inner t hlevel hc =>
    rw [topBranch, hlevel, beq_self_eq_true, Merkle.top]
    split
    · exact hc.root
    · exact hc.joinLeft.sweep
  | @up k o inner t hheld ih =>
    cases o with
    | none => exact ih
    | some h =>
      rw [topBranch, beq_false_of_ne hheld.matchlevel_ne, Merkle.top, if_neg hheld.ne_nil,
        if_neg hheld.ne_nil]
      exact hheld.sweep

end

end

theorem climb_computeMerkleBranch (cr : Crypto) {leaves : List Uint256} {i : Nat}
    {leaf : Uint256} (hi : i < 2 ^ 32) (hleaf : leaves[i]? = some leaf) :
    climb cr leaf (computeMerkleBranch cr leaves (UInt32.ofNat i)) i =
      (computeMerkleRoot cr leaves).1 := by
  rw [computeMerkleBranch, computeMerkleRoot_eq, UInt32.toNat_ofNat_of_lt' hi]
  exact (held_addLeaves (Nat.zero_le i) hleaf).top

end Merkle

/-! ## 4. The two checks of a branch -/

namespace Merkle

variable {cr : Crypto}

theorem and_one_ne_zero_iff (n : UInt32) : (n &&& 1 != 0) = true ↔ n.toNat % 2 = 1 := by
  rw [bne_iff_ne, Ne, ← UInt32.toNat_inj]
  show ¬ n.toNat &&& 1 = 0 ↔ _
  rw [Nat.and_one_is_mod]
  omega

theorem toNat_shiftRight_one (n : UInt32) : (n >>> 1).toNat = n.toNat / 2 := by
  rfl

theorem computeMerkleRootFromBranch_eq (leaf : Uint256) (branch : List Uint256) (nIndex : UInt32) :
    computeMerkleRootFromBranch cr leaf branch nIndex = climb cr leaf branch nIndex.toNat := by
  unfold computeMerkleRootFromBranch
  induction branch generalizing leaf nIndex with
  | nil => rfl
  | cons b branch ih =>
    rw [foldl_cons, ih, climb, toNat_shiftRight_one]
    simp only [and_one_ne_zero_iff]

theorem and_one_ofNat_ne_zero_iff (i : Nat) : (Int32.ofNat i &&& 1 != 0) = true ↔ i % 2 = 1 := by
  rw [bne_iff_ne, Ne, ← Int32.toBitVec_inj, Int32.toBitVec_and, Int32.toBitVec_ofNat',
    ← BitVec.toNat_inj, BitVec.toNat_and]
  show ¬ i % 2 ^ 32 &&& 1 = 0 ↔ _
  rw [Nat.and_one_is_mod]
  omega

theorem shiftRight_one_ofNat {i : Nat} (hi : i < 2 ^ 31) :
    Int32.ofNat i >>> 1 = Int32.ofNat (i / 2) := by
  have hmsb : (BitVec.ofNat 32 i).msb = false := by
    rw [BitVec.msb_eq_false_iff_two_mul_lt, BitVec.toNat_ofNat]
    omega
  rw [← Int32.toBitVec_inj, Int32.toBitVec_shiftRight, Int32.toBitVec_ofNat', Int32.toBitVec_ofNat']
  show (BitVec.ofNat 32 i).sshiftRight 1 = _
  rw [BitVec.sshiftRight_eq_of_msb_false hmsb, ← BitVec.toNat_inj, BitVec.toNat_ushiftRight,
    BitVec.toNat_ofNat, BitVec.toNat_ofNat, Nat.mod_eq_of_lt (by omega),
    Nat.mod_eq_of_lt (by omega), Nat.shiftRight_one]

theorem ofNat_ne_neg_one {i : Nat} (hi : i < 2 ^ 31) : Int32.ofNat i ≠ -1 := by
  intro heq
  have hbits := congrArg (fun n : Int32 => n.toBitVec.toNat) heq
  rw [Int32.toBitVec_ofNat', BitVec.toNat_ofNat, Nat.mod_eq_of_lt (by omega)] at hbits
  rw [hbits] at hi
  exact absurd hi (by decide)

/-- An index that is not negative has the bits of the number. -/
theorem branchRoot_eq (leaf : Uint256) (branch : List Uint256) {i : Nat} (hi : i < 2 ^ 31) :
    CAuxPow.branchRoot cr leaf branch (Int32.ofNat i) = climb cr leaf branch i := by
  induction branch generalizing leaf i with
  | nil => rfl
  | cons b branch ih =>
    rw [CAuxPow.branchRoot, shiftRight_one_ofNat hi, ih _ (by omega), climb]
    unfold CAuxPow.branchInput
    simp only [and_one_ofNat_ne_zero_iff]
    split <;> rfl

end Merkle

/-- The root of a list of hashes does not depend on how it is computed: leaf after leaf, level after
level, from the root downwards, or from any leaf with its branch. -/
theorem merkle_agreement (cr : Crypto) (leaves : List Uint256) (hne : leaves ≠ [])
    (hlength : leaves.length < 2 ^ 31) :
    (Merkle.computeMerkleRoot cr leaves).1 = Merkle.pairwiseRoot cr leaves ∧
    (Merkle.computeMerkleRoot cr leaves).1 =
      CPartialMerkleTree.calcHash cr leaves (CPartialMerkleTree.treeHeight leaves.length) 0 ∧
    ∀ (i : Nat) (leaf : Uint256), leaves[i]? = some leaf →
      Merkle.computeMerkleRootFromBranch cr leaf
          (Merkle.computeMerkleBranch cr leaves (UInt32.ofNat i)) (UInt32.ofNat i) =
        (Merkle.computeMerkleRoot cr leaves).1 ∧
      CAuxPow.checkMerkleBranch cr leaf
          (Merkle.computeMerkleBranch cr leaves (UInt32.ofNat i)) (Int32.ofNat i) =
        (Merkle.computeMerkleRoot cr leaves).1 := by
  refine ⟨?_, (CPartialMerkleTree.calcHash_top hne hlength).symm, fun i leaf hleaf => ?_⟩
  · obtain ⟨k, hp, hk⟩ := Merkle.padded_root cr hne
    obtain ⟨k', hp', hk'⟩ := Merkle.padded_pairwiseRoot hne
    exact hp.root_eq hk hp' hk'
  · have hi : i < 2 ^ 31 := (List.getElem?_eq_some_iff.mp hleaf).1.trans hlength
    have hclimb := Merkle.climb_computeMerkleBranch cr (hi.trans (by decide)) hleaf
    constructor
    · rw [Merkle.computeMerkleRootFromBranch_eq, UInt32.toNat_ofNat_of_lt' (hi.trans (by decide))]
      exact hclimb
    · rw [CAuxPow.checkMerkleBranch_eq _ _ _ (Merkle.ofNat_ne_neg_one hi),
        Merkle.branchRoot_eq _ _ hi]
      exact hclimb

open MerkleExample in
theorem merkle_agreement_three :
    (Merkle.computeMerkleRoot crypto [1, 2, 3]).1 = Merkle.pairwiseRoot crypto [1, 2, 3] ∧
      Merkle.computeMerkleRootFromBranch crypto 3 (Merkle.computeMerkleBranch crypto [1, 2, 3] 2) 2 =
        (Merkle.computeMerkleRoot crypto [1, 2, 3]).1 := by
  obtain ⟨hlevels, -, hbranch⟩ := merkle_agreement crypto [1, 2, 3] (by decide) (by decide)
  exact ⟨hlevels, (hbranch 2 3 rfl).1⟩

end RgmNode
