import RgmNode.Consensus.Chain

/-!
# The skip list

Every block index entry has a second pointer, `pskip`, to some earlier ancestor, and
`GetAncestor` follows it wherever it does not jump past the height that is asked for.
`BuildSkip` finds that ancestor with `GetAncestor` itself, on the entry's parent.

* `getSkipHeight_lt` — a skip pointer leads below its own entry
* `getAncestorLoop_eq` — the loop finds the ancestor, if every `pskip` that is set is right
* `buildSkip_eq` — `BuildSkip` sets it right
-/

namespace RgmNode

open Lineage Function

/-! ## 1. Where the pointers lead -/

def invertLowestOne (n : Nat) : Nat := n &&& (n - 1)

def getSkipHeight (height : Nat) : Nat :=
  if height < 2 then 0
  else if height &&& 1 ≠ 0 then invertLowestOne (invertLowestOne (height - 1)) + 1
  else invertLowestOne height

theorem invertLowestOne_le (n : Nat) : invertLowestOne n ≤ n - 1 := Nat.and_le_right

theorem getSkipHeight_lt {height : Nat} (positive : 0 < height) :
    getSkipHeight height < height := by
  unfold getSkipHeight
  split
  · exact positive
  · split
    · have outer := invertLowestOne_le (invertLowestOne (height - 1))
      have inner := invertLowestOne_le (height - 1)
      omega
    · exact lt_of_le_of_lt (invertLowestOne_le height) (Nat.sub_one_lt_of_lt positive)

/-! ## 2. The walk -/

/-- The `pskip` members of all entries, `none` for the null pointer. -/
abbrev SkipPointers := CBlockIndex → Option CBlockIndex

/-- Only follow `pskip` if `pprev->pskip` isn't better than `pskip->pprev`. -/
def followSkip (height heightWalk : Nat) : Bool :=
  let heightSkip := getSkipHeight heightWalk
  let heightSkipPrev := getSkipHeight (heightWalk - 1)
  heightSkip == height ||
    heightSkip > height && !(heightSkipPrev + 2 < heightSkip && heightSkipPrev ≥ height)

/-- The loop of `GetAncestor`.  It gives nothing if `assert(pindexWalk->pprev)` fails. -/
def getAncestorLoop (pskip : SkipPointers) (height : Nat) (pindexWalk : CBlockIndex)
    (heightWalk : Nat) : Option CBlockIndex :=
  if _walking : heightWalk > height then
    match (pskip pindexWalk).filter fun _ => followSkip height heightWalk with
    | some skip => getAncestorLoop pskip height skip (getSkipHeight heightWalk)
    | none => pindexWalk.pprev.bind fun prev =>
        getAncestorLoop pskip height prev (heightWalk - 1)
  else some pindexWalk
termination_by heightWalk
decreasing_by
  · exact getSkipHeight_lt (Nat.zero_lt_of_lt _walking)
  · exact Nat.sub_one_lt_of_lt _walking

/-- `GetAncestor`: `some none` is the null pointer it returns, `none` a failed assertion. -/
def SkipPointers.getAncestor (pskip : SkipPointers) (pindex : CBlockIndex) (height : Int) :
    Option (Option CBlockIndex) :=
  if height > pindex.nHeight ∨ height < 0 then some none
  else (getAncestorLoop pskip height.toNat pindex pindex.nHeight).map some

/-- `BuildSkip`, for an entry whose `pskip` is still null. -/
def SkipPointers.buildSkip (pskip : SkipPointers) (pindex : CBlockIndex) : Option SkipPointers :=
  match pindex.pprev with
  | none => some pskip
  | some prev => (pskip.getAncestor prev (getSkipHeight pindex.nHeight)).map
      (update pskip pindex)

/-! ## 3. The walk finds the ancestor -/

/-- Every pointer that is set leads to the ancestor at its skip height. -/
def SkipPointers.Exact (pskip : SkipPointers) : Prop :=
  ∀ p a, pskip p = some a → p.ancestorAt (getSkipHeight p.height) = some a

theorem exact_none : SkipPointers.Exact fun _ => none := by
  intro p a set
  cases set

theorem le_of_followSkip {height heightWalk : Nat} (follow : followSkip height heightWalk = true) :
    height ≤ getSkipHeight heightWalk := by
  simp only [followSkip, Bool.or_eq_true, beq_iff_eq, Bool.and_eq_true, decide_eq_true_eq] at follow
  rcases follow with here | ⟨above, -⟩
  · exact here.ge
  · exact above.le

theorem getAncestorLoop_eq {pskip : SkipPointers} (exact : pskip.Exact) {height : Nat}
    (p : CBlockIndex) (reached : height ≤ p.height) :
    getAncestorLoop pskip height p p.height = p.ancestorAt height := by
  -- both pointers lead to a lower entry that has the same ancestor at this height
  induction hn : p.height using Nat.strong_induction_on generalizing p with
  | _ n ih =>
    subst hn
    rw [getAncestorLoop]
    split
    · next walking =>
      split
      · next skip hskip =>
        obtain ⟨set, follow⟩ := Option.filter_eq_some_iff.mp hskip
        obtain ⟨below, hheight⟩ := ancestorAt_eq_some_iff.mp (exact p skip set)
        have lower := getSkipHeight_lt (Nat.zero_lt_of_lt walking)
        have enough : height ≤ skip.height := by
          rw [hheight]
          exact le_of_followSkip follow
        rw [ih _ lower skip enough hheight, ancestorAt_of_le below enough]
      · cases p with
        | root d => exact absurd walking (Nat.not_lt_zero _)
        | child q d =>
          have higher : height ≠ q.height + 1 := ne_of_lt walking
          rw [ancestorAt, if_neg higher]
          exact ih q.height (Nat.lt_succ_self _) q (Nat.le_of_lt_succ walking) rfl
    · next arrived =>
      rw [le_antisymm reached (not_lt.mp arrived)]
      exact ancestorAt_self.symm

theorem getAncestor_eq {pskip : SkipPointers} (exact : pskip.Exact) {p : CBlockIndex}
    {height : Nat} (reached : height ≤ p.height) :
    pskip.getAncestor p height = some (p.ancestorAt height) := by
  obtain ⟨a, ha⟩ := exists_ancestorAt reached
  rw [SkipPointers.getAncestor, if_neg (by simpa [CBlockIndex.nHeight] using reached),
    Int.toNat_natCast, CBlockIndex.nHeight, getAncestorLoop_eq exact p reached, ha]
  rfl

/-! ## 4. The pointers of a block tree -/

theorem buildSkip_eq {pskip : SkipPointers} (exact : pskip.Exact) (p : CBlockIndex) :
    ∃ pskip', pskip.buildSkip p = some pskip' ∧ pskip'.Exact := by
  cases p with
  | root d => exact ⟨pskip, rfl, exact⟩
  | child q d =>
    have below : getSkipHeight (q.height + 1) ≤ q.height :=
      Nat.le_of_lt_succ (getSkipHeight_lt (Nat.succ_pos _))
    refine ⟨update pskip (child q d) (q.ancestorAt (getSkipHeight (q.height + 1))), ?_, ?_⟩
    · show (pskip.getAncestor q (getSkipHeight (q.height + 1))).map _ = _
      rw [getAncestor_eq exact below]
      rfl
    · intro p a set
      rcases eq_or_ne p (child q d) with rfl | other
      · rw [update_self] at set
        rw [← set, height_child, ancestorAt, if_neg (ne_of_lt (Nat.lt_succ_of_le below))]
      · rw [update_of_ne other] at set
        exact exact p a set

/-- The pointers after `BuildSkip` was called for some entries, one after the other. -/
def buildSkips (blocks : List CBlockIndex) : Option SkipPointers :=
  blocks.foldlM SkipPointers.buildSkip fun _ => none

theorem foldlM_buildSkip {pskip : SkipPointers} (exact : pskip.Exact) (blocks : List CBlockIndex) :
    ∃ pskip', blocks.foldlM SkipPointers.buildSkip pskip = some pskip' ∧ pskip'.Exact := by
  induction blocks generalizing pskip with
  | nil => exact ⟨pskip, rfl, exact⟩
  | cons p blocks ih =>
    obtain ⟨next, built, exact'⟩ := buildSkip_eq exact p
    obtain ⟨pskip', rest, exact''⟩ := ih exact'
    exact ⟨pskip', by rw [List.foldlM_cons, built]; exact rest, exact''⟩

/-- The entry after some steps along `pprev`, if there is one. -/
def followPprev : Nat → CBlockIndex → Option CBlockIndex
  | 0, p => some p
  | n + 1, p => p.pprev.bind (followPprev n)

theorem ancestorAt_eq_followPprev {height : Nat} (p : CBlockIndex) (reached : height ≤ p.height) :
    p.ancestorAt height = followPprev (p.height - height) p := by
  induction p with
  | root d =>
    rw [Nat.le_zero.mp reached]
    rfl
  | child q d ih =>
    rcases Nat.le_or_eq_of_le_succ reached with below | rfl
    · rw [ancestorAt, if_neg (ne_of_lt (Nat.lt_succ_of_le below)), ih below,
        height_child, Nat.succ_sub below]
      rfl
    · rw [height_child, Nat.sub_self]
      exact ancestorAt_self (b := child q d)

/-- Whatever entries `BuildSkip` was called for, and in whatever order, no assertion has failed,
and `GetAncestor` finds the entry that as many steps along `pprev` lead to. -/
theorem skip_list_exact (blocks : List CBlockIndex) (pindex : CBlockIndex) (height : Int)
    (positive : 0 ≤ height) (reached : height ≤ pindex.nHeight) :
    ∃ pskip a, buildSkips blocks = some pskip ∧
      followPprev (pindex.nHeight - height.toNat) pindex = some a ∧
      pskip.getAncestor pindex height = some (some a) := by
  obtain ⟨pskip, built, exact⟩ := foldlM_buildSkip exact_none blocks
  lift height to Nat using positive
  have reached : height ≤ pindex.height := Int.ofNat_le.mp reached
  obtain ⟨a, ha⟩ := exists_ancestorAt reached
  refine ⟨pskip, a, built, ?_, ?_⟩
  · rw [← ha]
    exact (ancestorAt_eq_followPprev pindex reached).symm
  · rw [getAncestor_eq exact reached]
    exact congrArg some ha

/-- A chain of a given height -/
def lineTo : Nat → CBlockIndex
  | 0 => .root ⟨1, 1, 0, 0, 0, 0⟩
  | n + 1 => .child (lineTo n) ⟨.ofNat _ (n + 2), 1, 0, 0, 0, 0⟩

/-- The walk skips from height 12 to height 8, and goes on step by step. -/
theorem skip_list_exact_line :
    ∃ pskip a, buildSkips (lineTo 12).path = some pskip ∧ followPprev 7 (lineTo 12) = some a ∧
      pskip.getAncestor (lineTo 12) 5 = some (some a) :=
  skip_list_exact _ (lineTo 12) 5 (by decide) (by decide)

end RgmNode
