import RgmNode.Consensus.ActiveChain
import RgmNode.Consensus.SkipList

/-!
# Block locators

A locator lists the hashes of some blocks of a chain, from its tip back to the genesis block: the
first ones one block apart, the others twice as far apart each time.  A peer looks for the first of
them that is in its own active chain.

A block that is listed is at most twice as far from the tip as the next block after the one listed
before it.  So if the one before is above the fork, this one is not far below it.
-/

namespace RgmNode

open Lineage List

/-! ## 1. The code -/

namespace CChain

/-- The loop of `GetLocator`, in at most `rounds` rounds.  `size` is `vHave.size()`. -/
def locatorLoop (c : CChain) : Nat → Nat → Nat → CBlockIndex → Option (List CBlockIndex)
  | 0, _, _, _ => none
  | rounds + 1, nStep, size, pindex =>
    if pindex.nHeight = 0 then some [pindex]
    else
      let nHeight := pindex.nHeight - nStep
      let next := if c.contains pindex then c.entry nHeight else pindex.getAncestor nHeight
      match next with
      | none => some [pindex]
      | some next =>
        -- the last product may be out of range, and is not used then
        (c.locatorLoop rounds (if size + 1 > 10 then nStep * 2 else nStep) (size + 1) next).map
          (pindex :: ·)

/-- `GetLocator`; no chain has more blocks than the height of its tip allows rounds for. -/
def getLocator (c : CChain) (pindex : Option CBlockIndex) : Option (List Uint256) :=
  match pindex.or c.tip with
  | none => some []
  | some pindex =>
    (c.locatorLoop (pindex.nHeight + 1) 1 0 pindex).map (List.map CBlockIndex.getBlockHash)

end CChain

/-- `mapBlockIndex`: one entry for a hash, and with an entry all its ancestors. -/
structure BlockMap where
  entries : List CBlockIndex
  keys : ∀ p ∈ entries, ∀ q ∈ entries, p.getBlockHash = q.getBlockHash → p = q
  ancestors : ∀ p ∈ entries, ∀ a ≤ p, a ∈ entries

namespace BlockMap

def find (m : BlockMap) (hash : Uint256) : Option CBlockIndex :=
  m.entries.find? fun p => p.getBlockHash == hash

def findForkInGlobalIndex (m : BlockMap) (chain : CChain) : List Uint256 → Option CBlockIndex
  | [] => chain.entry 0
  | hash :: vHave =>
    match m.find hash with
    | none => m.findForkInGlobalIndex chain vHave
    | some pindex =>
      if chain.contains pindex then some pindex
      else if (if 0 ≤ chain.height then pindex.getAncestor chain.height.toNat else none) =
          chain.tip then chain.tip
      else m.findForkInGlobalIndex chain vHave

theorem find_hash {m : BlockMap} {p : CBlockIndex} (present : p ∈ m.entries) :
    m.find p.getBlockHash = some p := by
  cases found : m.find p.getBlockHash with
  | none => simpa using find?_eq_none.mp found p present
  | some q =>
    have same : q.getBlockHash = p.getBlockHash := by simpa using find?_some found
    rw [m.keys q (mem_of_find?_eq_some found) p present same]

end BlockMap

/-! ## 2. The locator -/

variable {A B C : CChain} {a b p q fork : CBlockIndex}

/-- How far a block is below the tip. -/
def depth (b p : CBlockIndex) : Nat := b.nHeight - p.nHeight

/-- The next block of a locator is lower, and about twice as far below the tip at most. -/
def Doubles (b p q : CBlockIndex) : Prop := q < p ∧ depth b q ≤ 2 * depth b p + 1

theorem CChain.next_eq (c : CChain) {height : Nat} (below : height ≤ p.height) :
    (if c.contains p then c.entry height else p.getAncestor height) = p.ancestorAt height := by
  split
  · next inChain =>
    obtain ⟨t, tip, le⟩ := CChain.contains_iff.mp inChain
    rw [c.entry_eq_tip, tip]
    exact ancestorAt_of_le le below
  · rfl

/-- The step is at most one more than the distance from the tip, so it at most doubles that. -/
theorem CChain.locatorLoop_spec (c : CChain) {rounds : Nat} (nStep size : Nat) (le : p ≤ b)
    (enough : p.height < rounds) (positive : 0 < nStep)
    (small : p.height ≠ 0 → nStep ≤ depth b p + 1) :
    ∃ rest, c.locatorLoop rounds nStep size p = some (p :: rest) ∧
      (p :: rest).IsChain (Doubles b) ∧ (p :: rest).getLast? = b.ancestorAt 0 := by
  induction rounds generalizing p nStep size with
  | zero => exact absurd enough (Nat.not_lt_zero _)
  | succ rounds ih =>
    rw [locatorLoop]
    split
    · next genesis =>
      exact ⟨[], rfl, .singleton p, (ancestorAt_eq_some_iff.mpr ⟨le, genesis⟩).symm⟩
    · next above =>
      obtain ⟨next, hnext⟩ := exists_ancestorAt (Nat.sub_le p.height nStep)
      obtain ⟨nextLe, height⟩ := ancestorAt_eq_some_iff.mp hnext
      have tall := height_mono le
      have step := small above
      simp only [depth, CBlockIndex.nHeight] at above step ih ⊢
      have lower : next.height < p.height := by omega
      obtain ⟨rest, loop, chain, last⟩ := ih
        (if size + 1 > 10 then nStep * 2 else nStep) (size + 1) (nextLe.trans le) (by omega)
        (by split <;> omega) (by intro _; split <;> omega)
      rw [c.next_eq (Nat.sub_le p.height nStep), hnext]
      dsimp only
      rw [loop]
      refine ⟨next :: rest, rfl, .cons_cons ⟨?_, ?_⟩ chain, ?_⟩
      · exact lt_of_le_of_ne nextLe fun same => lower.ne (congrArg Lineage.height same)
      · simp only [depth, CBlockIndex.nHeight]
        omega
      · rw [getLast?_cons_cons]
        exact last

/-! ## 3. The fork -/

/-- A block is the highest one that two tips have in common. -/
def IsFork (a b fork : CBlockIndex) : Prop := (fork ≤ a ∧ fork ≤ b) ∧ ∀ p ≤ a, p ≤ b → p ≤ fork

theorem CChain.contains_iff_le (tip : A.tip = some a) : A.contains p = true ↔ p ≤ a := by
  rw [contains_iff, tip]
  simp

theorem CChain.findForkFrom_spec (tip : A.tip = some a) (shared : q ≤ a) (le : q ≤ p) :
    ∃ fork, A.findForkFrom p = some fork ∧ IsFork a p fork := by
  induction p with
  | root d =>
    obtain rfl := le_root_iff.mp le
    exact ⟨.root d, by rw [findForkFrom, if_pos ((contains_iff_le tip).mpr shared)],
      ⟨shared, le_refl _⟩, fun _ _ h => h⟩
  | child p d ih =>
    rw [findForkFrom]
    split
    · next inChain =>
      exact ⟨_, rfl, ⟨(contains_iff_le tip).mp inChain, le_refl _⟩, fun _ _ h => h⟩
    · next outside =>
      have lower : ∀ r ≤ a, r ≤ child p d → r ≤ p := by
        intro r inChain below
        refine (le_child_iff.mp below).resolve_left ?_
        rintro rfl
        exact outside ((contains_iff_le tip).mpr inChain)
      obtain ⟨fork, found, ⟨le, below⟩, highest⟩ := ih (lower q shared le)
      exact ⟨fork, found, ⟨le, le_child_iff.mpr (.inr below)⟩,
        fun r ra rb => highest r ra (lower r ra rb)⟩

theorem CChain.findFork_spec (tip : A.tip = some a) (shared : q ≤ a) (le : q ≤ b) :
    ∃ fork, A.findFork b = some fork ∧ IsFork a b fork := by
  rw [findFork, height_eq_of_tip tip]
  split
  · next taller =>
    have taller : a.height < b.height := Int.ofNat_lt.mp taller
    obtain ⟨r, hr⟩ := exists_ancestorAt taller.le
    obtain ⟨rb, same⟩ := ancestorAt_eq_some_iff.mp hr
    -- what is in the chain is no higher than its tip
    have lower : ∀ s ≤ a, s ≤ b → s ≤ r := fun s sa sb =>
      le_of_le_of_height sb rb (same ▸ height_mono sa)
    obtain ⟨fork, found, ⟨fa, fr⟩, highest⟩ := findForkFrom_spec tip shared (lower q shared le)
    have walk : b.getAncestor (a.nHeight : Int).toNat = some r := hr
    rw [walk]
    exact ⟨fork, found, ⟨fa, fr.trans rb⟩, fun s sa sb => highest s sa (lower s sa sb)⟩
  · exact findForkFrom_spec tip shared le

/-! ## 4. The lookup -/

/-- The walk along a locator ends at a common block that is at most twice as far from the tip as
the fork: the block before it was above the fork. -/
theorem BlockMap.findForkInGlobalIndex_spec (m : BlockMap) {rest : List CBlockIndex}
    (tip : A.tip = some a) (isFork : IsFork a b fork) (le : p ≤ b) (known : b ∈ m.entries)
    (near : depth b p ≤ 2 * depth b fork) (chain : (p :: rest).IsChain (Doubles b))
    (last : (p :: rest).getLast? = a.ancestorAt 0) :
    ∃ found, m.findForkInGlobalIndex A ((p :: rest).map CBlockIndex.getBlockHash) = some found ∧
      (found ≤ a ∧ found ≤ b) ∧ depth b found ≤ 2 * depth b fork := by
  induction rest generalizing p with
  | nil =>
    have genesis := (ancestorAt_eq_some_iff.mp last.symm).1
    rw [map_cons, findForkInGlobalIndex, find_hash (m.ancestors b known p le)]
    exact ⟨p, if_pos ((CChain.contains_iff_le tip).mpr genesis), ⟨genesis, le⟩, near⟩
  | cons q rest ih =>
    have height : (0 ≤ A.height) = True := by simp [CChain.height_eq_of_tip tip]
    rw [map_cons, findForkInGlobalIndex, find_hash (m.ancestors b known p le)]
    simp only [height, if_true]
    split
    · next inChain => exact ⟨p, rfl, ⟨(CChain.contains_iff_le tip).mp inChain, le⟩, near⟩
    · next outside =>
      split
      · next shortcut =>
        -- the whole chain is below this block, so its tip is the fork
        rw [tip] at shortcut
        have below : a ≤ p := (ancestorAt_eq_some_iff.mp shortcut).1
        have top : a.height ≤ fork.height := height_mono (isFork.2 a (le_refl a) (below.trans le))
        refine ⟨a, tip, ⟨le_refl a, below.trans le⟩, ?_⟩
        rw [eq_of_le_of_height isFork.1.1 top]
        exact Nat.le_mul_of_pos_left _ (by decide)
      · obtain ⟨⟨lt, double⟩, chain⟩ := isChain_cons_cons.mp chain
        have above : fork.height < p.height := by
          by_contra low
          have below := le_of_le_of_height le isFork.1.2 (not_lt.mp low)
          exact outside ((CChain.contains_iff_le tip).mpr (below.trans isFork.1.1))
        have tall := height_mono le
        refine ih (lt.le.trans le) ?_ chain (getLast?_cons_cons ▸ last)
        refine double.trans ?_
        simp only [depth, CBlockIndex.nHeight]
        omega

theorem depth_le_of_le (le : p ≤ q) : depth b q ≤ depth b p :=
  Nat.sub_le_sub_left (height_mono le) _

/-- The locator of the tip `b` of one chain lists blocks of it, each lower than the one before,
down to the genesis block.  `FindFork` on the other finds the highest common block, and
`FindForkInGlobalIndex` a common block not much further from the tip. -/
def FindsFork (m : BlockMap) (A B C : CChain) (b : CBlockIndex) : Prop :=
  ∃ (blocks : List CBlockIndex) (fork found : CBlockIndex),
    (C.getLocator (some b) = some (blocks.map CBlockIndex.getBlockHash) ∧
      (∀ p ∈ blocks, B.contains p = true) ∧
      blocks.Pairwise (fun p q => q.nHeight < p.nHeight) ∧ blocks.getLast? = B.entry 0) ∧
    (A.findFork b = some fork ∧ A.contains fork = true ∧ B.contains fork = true ∧
      ∀ p, A.contains p = true → B.contains p = true → p.nHeight ≤ fork.nHeight) ∧
    m.findForkInGlobalIndex A (blocks.map CBlockIndex.getBlockHash) = some found ∧
    A.contains found = true ∧ B.contains found = true ∧
    depth b fork ≤ depth b found ∧ depth b found ≤ max 1 (2 * depth b fork)

theorem locator_finds_fork (m : BlockMap) (tipA : A.tip = some a) (tipB : B.tip = some b)
    (genesis : A.entry 0 = B.entry 0) (known : b ∈ m.entries) (C : CChain) :
    FindsFork m A B C b := by
  rw [A.entry_eq_tip, B.entry_eq_tip, tipA, tipB] at genesis
  obtain ⟨g, hg⟩ := exists_ancestorAt (Nat.zero_le b.height)
  have ga : g ≤ a := (ancestorAt_eq_some_iff.mp (genesis.trans hg)).1
  have gb : g ≤ b := (ancestorAt_eq_some_iff.mp hg).1
  obtain ⟨rest, loop, chain, last⟩ := C.locatorLoop_spec 1 0 (le_refl b)
    (Nat.lt_succ_self b.height) Nat.one_pos fun _ => Nat.le_add_left _ _
  obtain ⟨fork, hfork, isFork⟩ := CChain.findFork_spec tipA ga gb
  obtain ⟨found, hfound, ⟨foundA, foundB⟩, near⟩ := m.findForkInGlobalIndex_spec
    tipA isFork (le_refl b) known (by simp [depth]) chain (last.trans genesis.symm)
  have lower : (b :: rest).Pairwise (· > ·) := List.isChain_iff_pairwise.mp
    (chain.imp fun _ _ doubles => doubles.1)
  simp only [FindsFork, CChain.contains_iff_le tipA, CChain.contains_iff_le tipB]
  refine ⟨b :: rest, fork, found, ⟨?_, ?_, ?_, ?_⟩, ⟨hfork, isFork.1.1, isFork.1.2, ?_⟩, hfound,
    foundA, foundB, depth_le_of_le (isFork.2 _ foundA foundB), near.trans (le_max_right _ _)⟩
  · rw [CChain.getLocator]
    exact congrArg (Option.map _) loop
  · exact List.forall_mem_cons.mpr ⟨le_refl b, fun p hp => (List.rel_of_pairwise_cons lower hp).le⟩
  · exact lower.imp fun lt => lt_of_le_of_ne (height_mono lt.le)
      fun same => lt.ne (eq_of_le_of_height lt.le same.ge)
  · rw [last, B.entry_eq_tip, tipB]
    rfl
  · exact fun p pa pb => height_mono (isFork.2 p pa pb)

def lineMap : BlockMap where
  entries := (lineTo 20).path
  keys := by decide +kernel
  ancestors _ hp _ le := mem_path.mpr (le.trans (mem_path.mp hp))

/-- The chains fork at height 5.  The locator lists the heights 20 to 9, 7, 3 and 0, and the lookup
ends at 3. -/
theorem locator_finds_fork_line :
    FindsFork lineMap (CChain.empty.setTip (some (.child (lineTo 5) ⟨22, 1, 0, 0, 0, 0⟩)))
      (CChain.empty.setTip (some (lineTo 20))) .empty (lineTo 20) :=
  locator_finds_fork _ (CChain.tip_setTip _ _) (CChain.tip_setTip _ _) (by decide +kernel)
    (mem_path.mpr (le_refl _)) _

end RgmNode
