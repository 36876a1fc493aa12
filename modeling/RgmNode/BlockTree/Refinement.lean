import RgmNode.BlockTree.Activate
import RgmNode.Lib.Marks

/-!
# Failure marks of the block tree

The abstract state is the set of blocks with `BLOCK_FAILED_VALID`, the set of blocks with
`BLOCK_FAILED_CHILD` and `gFailedBlocks`.  Every operation of the tree except
`ResetBlockFailureFlags` only adds marks, in the ways of `Marks.Grow`; and
`ResetBlockFailureFlags` clears the line of its block.
-/

namespace RgmNode

open Lineage List BlockStatus Function

namespace ChainState

def marks (s : ChainState) : Marks CBlockIndex where
  own := { p | (s.nStatus p).failedValid = true }
  inherited := { p | (s.nStatus p).failedChild = true }
  tracked := { p | p ∈ s.gFailedBlocks }

/-- Everything the state refers to is in the block map, and so are all ancestors. -/
structure Known (s : ChainState) : Prop where
  closed : ∀ p ∈ s.mapBlockIndex, ∀ q ≤ p, q ∈ s.mapBlockIndex
  marked : ∀ p, (s.nStatus p).failed = true → p ∈ s.mapBlockIndex
  tracked : ∀ p ∈ s.gFailedBlocks, p ∈ s.mapBlockIndex
  candidates : ∀ p ∈ s.setBlockIndexCandidates, p ∈ s.mapBlockIndex
  unlinked : ∀ e ∈ s.mapBlocksUnlinked, e.2 ∈ s.mapBlockIndex
  tip : ∀ p, s.chainActive.tip = some p → p ∈ s.mapBlockIndex

/-- Every block of the map is the one that is found under its hash. -/
def FiledByHash (s : ChainState) : Prop :=
  ∀ p ∈ s.mapBlockIndex, s.find p.getBlockHash = some p

/-- A change of the state that forgets no block, refers to known blocks only and adds marks. -/
structure Evolves (F : Prop) (s s' : ChainState) : Prop where
  map : ∀ p ∈ s.mapBlockIndex, p ∈ s'.mapBlockIndex
  filed : s.FiledByHash → s'.FiledByHash
  known : Known s'
  grows : Marks.Grows F s.marks s'.marks

variable {F : Prop} {env : NodeEnv} {s s' s'' : ChainState} {p q : CBlockIndex}
  {ps : List CBlockIndex} {o : Oracle}

theorem Evolves.refl (h : Known s) : Evolves F s s := ⟨fun _ hp => hp, id, h, .refl⟩

theorem Evolves.trans (h : Evolves F s s') (h' : Evolves F s' s'') : Evolves F s s'' :=
  ⟨fun p hp => h'.map p (h.map p hp), h'.filed ∘ h.filed, h'.known, h.grows.trans h'.grows⟩

theorem Evolves.weaken (h : Evolves False s s') : Evolves F s s' :=
  ⟨h.map, h.filed, h.known, h.grows.weaken⟩

/-! ## 1. Changes that leave the marks alone -/

/-- A change of the status that keeps a flag of its block keeps it for every block. -/
theorem flag_modifyStatus {f : BlockStatus → BlockStatus} (flag : BlockStatus → Bool)
    (h : flag (f (s.nStatus p)) = flag (s.nStatus p)) (q : CBlockIndex) :
    flag ((s.modifyStatus p f).nStatus q) = flag (s.nStatus q) := by
  by_cases hq : q = p
  · subst hq
    simp [modifyStatus, h]
  · simp [modifyStatus, update_of_ne hq]

theorem marks_modifyStatus {f : BlockStatus → BlockStatus}
    (hv : (f (s.nStatus p)).failedValid = (s.nStatus p).failedValid)
    (hc : (f (s.nStatus p)).failedChild = (s.nStatus p).failedChild) :
    (s.modifyStatus p f).marks = s.marks := by
  simp only [marks, flag_modifyStatus failedValid hv, flag_modifyStatus failedChild hc]
  rfl

theorem failed_eq_true_iff :
    (s.nStatus p).failed = true ↔ p ∈ s.marks.own ∨ p ∈ s.marks.inherited := by
  simp [failed, marks]

theorem failed_eq_of_marks (h : s'.marks = s.marks) (p : CBlockIndex) :
    (s'.nStatus p).failed = (s.nStatus p).failed := by
  rw [Bool.eq_iff_iff, failed_eq_true_iff, failed_eq_true_iff, h]

section

variable (h : Known s)

include h

/-- A change that leaves map and marks alone evolves the state if what it refers to is known. -/
theorem Evolves.of_marks_eq (hmap : s'.mapBlockIndex = s.mapBlockIndex)
    (hmarks : s'.marks = s.marks) (hcand : ∀ p ∈ s'.setBlockIndexCandidates, p ∈ s.mapBlockIndex)
    (hunl : ∀ e ∈ s'.mapBlocksUnlinked, e.2 ∈ s.mapBlockIndex)
    (htip : ∀ p, s'.chainActive.tip = some p → p ∈ s.mapBlockIndex) : Evolves False s s' := by
  refine ⟨fun p hp => hmap ▸ hp, ?_, ⟨?_, ?_, ?_, ?_, ?_, ?_⟩, ?_⟩
  · intro hfiled
    simpa only [FiledByHash, find, hmap] using hfiled
  · rw [hmap]
    exact h.closed
  · intro p hp
    rw [failed_eq_true_iff, hmarks, ← failed_eq_true_iff] at hp
    rw [hmap]
    exact h.marked p hp
  · intro p hp
    have hp' : p ∈ s'.marks.tracked := hp
    rw [hmarks] at hp'
    rw [hmap]
    exact h.tracked p hp'
  · rw [hmap]
    exact hcand
  · rw [hmap]
    exact hunl
  · rw [hmap]
    exact htip
  · rw [hmarks]

theorem evolves_insertCandidate (hp : p ∈ s.mapBlockIndex) :
    Evolves False s (s.insertCandidate p) := by
  refine .of_marks_eq h rfl rfl (fun q hq => ?_) h.unlinked h.tip
  rcases mem_insert_iff.mp hq with rfl | hq
  · exact hp
  · exact h.candidates q hq

theorem evolves_eraseCandidates : Evolves False s (s.eraseCandidates ps) :=
  .of_marks_eq h rfl rfl (fun q hq => h.candidates q (mem_of_mem_filter hq)) h.unlinked h.tip

theorem evolves_noteInvalid : Evolves False s (s.noteInvalid p) :=
  .of_marks_eq h rfl rfl h.candidates h.unlinked h.tip

theorem evolves_invalidChainFound (hs : s.invalidChainFound p = some s') : Evolves False s s' := by
  unfold invalidChainFound at hs
  split at hs
  · cases hs
    exact evolves_noteInvalid h
  · cases hs

theorem evolves_setTip (hp : p ∈ s.mapBlockIndex) :
    Evolves False s { s with chainActive := s.chainActive.setTip (some p) } := by
  refine .of_marks_eq h rfl rfl h.candidates h.unlinked fun q hq => ?_
  rw [CChain.tip_setTip] at hq
  cases hq
  exact hp

theorem evolves_modifyStatus {f : BlockStatus → BlockStatus}
    (hv : (f (s.nStatus p)).failedValid = (s.nStatus p).failedValid)
    (hc : (f (s.nStatus p)).failedChild = (s.nStatus p).failedChild) :
    Evolves False s (s.modifyStatus p f) :=
  .of_marks_eq h rfl (marks_modifyStatus hv hc) h.candidates h.unlinked h.tip

end

/-! ## 2. Marking -/

theorem marks_markFailedValid :
    (s.markFailedValid p).marks = { s.marks with own := insert p s.marks.own } := by
  have hown : ∀ q, ((s.markFailedValid p).nStatus q).failedValid = true ↔
      q = p ∨ (s.nStatus q).failedValid = true := by
    intro q
    by_cases hq : q = p
    · subst hq
      simp [markFailedValid, modifyStatus]
    · simp [markFailedValid, modifyStatus, hq]
  have hinh : ∀ q, ((s.markFailedValid p).nStatus q).failedChild = (s.nStatus q).failedChild :=
    flag_modifyStatus failedChild rfl
  simp only [marks, hown, hinh]
  rfl

theorem marks_markFailedChild :
    (s.markFailedChild ps).marks =
      { s.marks with inherited := s.marks.inherited ∪ { q | q ∈ ps } } := by
  have hown : ∀ q, ((s.markFailedChild ps).nStatus q).failedValid =
      (s.nStatus q).failedValid := by
    intro q
    simp only [markFailedChild]
    split <;> rfl
  have hinh : ∀ q, ((s.markFailedChild ps).nStatus q).failedChild = true ↔
      (s.nStatus q).failedChild = true ∨ q ∈ ps := by
    intro q
    simp only [markFailedChild]
    split
    · next hq => simp [hq]
    · next hq => simp [hq]
  simp only [marks, hown, hinh]
  rfl

theorem Known.markFailedValid (h : Known s) (hp : p ∈ s.mapBlockIndex) :
    Known (s.markFailedValid p) := by
  refine { h with marked := fun q hq => ?_ }
  rw [failed_eq_true_iff, marks_markFailedValid] at hq
  rcases hq with (rfl | hq) | hq
  · exact hp
  · exact h.marked q (failed_eq_true_iff.mpr (.inl hq))
  · exact h.marked q (failed_eq_true_iff.mpr (.inr hq))

theorem Known.markFailedChild (h : Known s) (hps : ∀ q ∈ ps, q ∈ s.mapBlockIndex) :
    Known (s.markFailedChild ps) := by
  refine { h with marked := fun q hq => ?_ }
  rw [failed_eq_true_iff, marks_markFailedChild] at hq
  rcases hq with hq | (hq | hq)
  · exact h.marked q (failed_eq_true_iff.mpr (.inl hq))
  · exact h.marked q (failed_eq_true_iff.mpr (.inr hq))
  · exact hps q hq

section

variable (h : Known s) (hp : p ∈ s.mapBlockIndex)

include h hp

theorem Known.insertFailed : Known (s.insertFailed p) := by
  refine { h with tracked := fun q hq => ?_ }
  rcases mem_insert_iff.mp hq with rfl | hq
  · exact hp
  · exact h.tracked q hq

/-- Marking a block without tracking it, as `AcceptBlock` does. -/
theorem evolves_markFailedValid : Evolves True s (s.markFailedValid p) :=
  ⟨fun _ hq => hq, id, h.markFailedValid hp, by
    rw [marks_markFailedValid]
    exact .single (.mark _ p trivial)⟩

theorem evolves_markTracked : Evolves False s ((s.markFailedValid p).insertFailed p) := by
  refine ⟨fun _ hq => hq, id, (h.markFailedValid hp).insertFailed hp, ?_⟩
  have hmarks : ((s.markFailedValid p).insertFailed p).marks =
      { s.marks with
        own := insert p s.marks.own, tracked := insert p s.marks.tracked } := by
    have htracked : ((s.markFailedValid p).insertFailed p).marks.tracked =
        insert p s.marks.tracked := by
      ext q
      exact mem_insert_iff
    have hrest := marks_markFailedValid (s := s) (p := p)
    rw [Marks.mk.injEq] at hrest ⊢
    exact ⟨hrest.1, hrest.2.1, htracked⟩
  rw [hmarks]
  exact .single (.markTracked _ p)

end

/-- Passing a mark on to the blocks between a marked one and a descendant. -/
theorem evolves_markFailedChild_between (h : Known s) (hpq : p ≤ q) (hq : q ∈ s.mapBlockIndex)
    (hp : (s.nStatus p).failed = true) : Evolves False s (s.markFailedChild (between p q)) := by
  refine ⟨fun _ hx => hx, id, h.markFailedChild fun x hx => ?_, ?_⟩
  · exact h.closed q hq x ((mem_between hpq).mp hx).2
  · have hset : { x | x ∈ between p q } = { x | p < x ∧ x ≤ q } := by
      ext x
      exact mem_between hpq
    rw [marks_markFailedChild, hset]
    exact .single (.passOn _ p q (failed_eq_true_iff.mp hp))

/-! ## 3. Accepting headers and blocks -/

theorem mem_of_find {hash : Uint256} (h : s.find hash = some p) : p ∈ s.mapBlockIndex :=
  mem_of_find?_eq_some h

theorem getBlockHash_of_find {hash : Uint256} (h : s.find hash = some p) : p.getBlockHash = hash := by
  have hbeq := find?_some h
  exact beq_iff_eq.mp hbeq

theorem notMem_of_find_eq_none {hash : Uint256} (h : s.find hash = none)
    (hp : p.getBlockHash = hash) : p ∉ s.mapBlockIndex := by
  intro hmem
  have := find?_eq_none.mp h p hmem
  simp [hp] at this

/-- A new entry whose hash is not in the map does not hide another one. -/
theorem filedByHash_newEntry (hfind : s.find p.getBlockHash = none)
    (hmap : s'.mapBlockIndex = p :: s.mapBlockIndex := by rfl) (hfiled : s.FiledByHash) :
    s'.FiledByHash := by
  intro q hq
  rw [hmap] at hq
  simp only [find, hmap, find?_cons]
  by_cases hhash : p.getBlockHash = q.getBlockHash
  · -- only the new entry itself has the new hash
    rcases mem_cons.mp hq with rfl | hq
    · simp
    · exact absurd hq (notMem_of_find_eq_none hfind hhash.symm)
  · rcases mem_cons.mp hq with rfl | hq
    · exact absurd rfl hhash
    · rw [beq_false_of_ne hhash]
      exact hfiled q hq

/-- A new entry, below a known block or at the root, is a change that keeps the marks. -/
theorem evolves_newEntry (h : Known s) (hfind : s.find p.getBlockHash = none)
    (hbelow : ∀ q < p, q ∈ s.mapBlockIndex) {st : BlockStatus} (hst : st.failed = false)
    {tx ctx : CBlockIndex → Nat} {seq : CBlockIndex → Int} {best : Option CBlockIndex} :
    Evolves False s { s with
      mapBlockIndex := p :: s.mapBlockIndex
      nStatus := update s.nStatus p st
      nTx := tx, nChainTx := ctx, nSequenceId := seq, pindexBestHeader := best } := by
  have hnew := notMem_of_find_eq_none hfind rfl
  have hunmarked : (s.nStatus p).failed = false := by
    by_contra hf
    exact hnew (h.marked p (by simpa using hf))
  have hflags : ∀ q, (update s.nStatus p st q).failedValid = (s.nStatus q).failedValid ∧
      (update s.nStatus p st q).failedChild = (s.nStatus q).failedChild := by
    intro q
    by_cases hq : q = p
    · subst hq
      simp only [failed, Bool.or_eq_false_iff] at hst hunmarked
      simp [hst, hunmarked]
    · simp [update_of_ne hq]
  refine ⟨fun q hq => mem_cons_of_mem _ hq, filedByHash_newEntry hfind,
    ⟨?_, ?_, ?_, ?_, ?_, ?_⟩, ?_⟩
  · intro q hq x hx
    rcases mem_cons.mp hq with rfl | hq
    · rcases eq_or_lt_of_le hx with rfl | hlt
      · exact mem_cons_self
      · exact mem_cons_of_mem _ (hbelow x hlt)
    · exact mem_cons_of_mem _ (h.closed q hq x hx)
  · intro q hq
    refine mem_cons_of_mem _ (h.marked q ?_)
    simpa only [failed, (hflags q).1, (hflags q).2] using hq
  · exact fun q hq => mem_cons_of_mem _ (h.tracked q hq)
  · exact fun q hq => mem_cons_of_mem _ (h.candidates q hq)
  · exact fun e he => mem_cons_of_mem _ (h.unlinked e he)
  · exact fun q hq => mem_cons_of_mem _ (h.tip q hq)
  · simp only [marks, (hflags _).1, (hflags _).2]
    exact .refl

theorem evolves_addToBlockIndex (env : NodeEnv) (h : Known s) (block : CBlockHeader) :
    Evolves False s (s.addToBlockIndex env block).1 ∧
      (s.addToBlockIndex env block).2 ∈ (s.addToBlockIndex env block).1.mapBlockIndex := by
  unfold addToBlockIndex
  split
  · next pindex hfind => exact ⟨.refl h, mem_of_find hfind⟩
  · next hfind =>
    refine ⟨evolves_newEntry h ?_ ?_ rfl, mem_cons_self⟩
    · split <;> exact hfind
    · intro q hq
      split at hq
      · next pprev hprev => exact h.closed pprev (mem_of_find hprev) q (lt_child_iff.mp hq)
      · exact absurd hq.le (fun hle => hq.ne (le_root_iff.mp hle))

theorem failedAncestor_eq_some (h : s.failedAncestor q = some p) :
    p ∈ s.gFailedBlocks ∧ p ≤ q := by
  have hanc := find?_some h
  rw [beq_iff_eq] at hanc
  exact ⟨mem_of_find?_eq_some h, ancestorAt_height_iff.mp hanc⟩

variable {t : Int} {r : Arrival}

/-- All that `AcceptBlockHeader` can do. -/
inductive HeaderOutcome (env : NodeEnv) (s : ChainState) (block : CBlockHeader) :
    Option (ChainState × Arrival) → Prop where
  | refused (r : Reject) : HeaderOutcome env s block (some (s, .rejected r none))
  | failed {p : CBlockIndex} {r : Reject} (hp : (s.nStatus p).failed = true) :
      HeaderOutcome env s block (some (s, .rejected r (some p)))
  | known {p : CBlockIndex} (hp : p ∈ s.mapBlockIndex)
      (hhash : p.getBlockHash = block.getHash env.cr) :
      HeaderOutcome env s block (some (s, .accepted p))
  | added : HeaderOutcome env s block
      (some ((s.addToBlockIndex env block).1, .accepted (s.addToBlockIndex env block).2))
  | marked {p q : CBlockIndex} {r : Reject} (hp : p ≤ q) (hq : q ∈ s.mapBlockIndex)
      (hvalid : (s.nStatus p).failedValid = true) :
      HeaderOutcome env s block
        (some (s.markFailedChild (between p q), .rejected r (some p)))
  | aborted {p : CBlockIndex} (hp : p ∈ s.gFailedBlocks)
      (hvalid : (s.nStatus p).failedValid ≠ true) : HeaderOutcome env s block none

theorem acceptBlockHeader_outcome (env : NodeEnv) (s : ChainState) (block : CBlockHeader)
    (t : Int) : HeaderOutcome env s block (s.acceptBlockHeader env block t) := by
  unfold acceptBlockHeader
  dsimp only
  split
  · split
    · next pindex hfind =>
      split
      · next hfailed => exact .failed hfailed
      · exact .known (mem_of_find hfind) (getBlockHash_of_find hfind)
    · unfold acceptNewHeader
      split
      · exact .refused _
      split
      · exact .refused _
      next pindexPrev hprev =>
      split
      · next hfailed => exact .failed hfailed
      split
      · exact .refused _
      split
      · exact .added
      split
      · exact .added
      next failedit hancestor =>
      obtain ⟨hmem, hle⟩ := failedAncestor_eq_some hancestor
      split
      · next hvalid => exact .marked hle (mem_of_find hprev) hvalid
      · next hvalid => exact .aborted hmem hvalid
  · exact .added

theorem getBlockHash_addToBlockIndex (env : NodeEnv) (s : ChainState) (block : CBlockHeader) :
    (s.addToBlockIndex env block).2.getBlockHash = block.getHash env.cr := by
  unfold addToBlockIndex
  split
  · next hfind => exact getBlockHash_of_find hfind
  · dsimp only
    split <;> rfl

theorem getBlockHash_acceptBlockHeader {block : CBlockHeader}
    (hs : s.acceptBlockHeader env block t = some (s', .accepted p)) :
    p.getBlockHash = block.getHash env.cr := by
  have houtcome := acceptBlockHeader_outcome env s block t
  rw [hs] at houtcome
  cases houtcome with
  | known _ hhash => exact hhash
  | added => exact getBlockHash_addToBlockIndex env s block

theorem evolves_acceptBlockHeader {block : CBlockHeader} (h : Known s)
    (hs : s.acceptBlockHeader env block t = some (s', r)) :
    Evolves False s s' ∧ ∀ pindex, r = .accepted pindex → pindex ∈ s'.mapBlockIndex := by
  have houtcome := acceptBlockHeader_outcome env s block t
  rw [hs] at houtcome
  cases houtcome with
  | refused | failed => exact ⟨.refl h, nofun⟩
  | known hp _ => exact ⟨.refl h, fun _ he => by cases he; exact hp⟩
  | added =>
    have hadd := evolves_addToBlockIndex env h block
    exact ⟨hadd.1, fun _ he => by cases he; exact hadd.2⟩
  | marked hp hq hvalid =>
    refine ⟨evolves_markFailedChild_between h hp hq ?_, nofun⟩
    simp [failed, hvalid]

theorem evolves_linkBlock (h : Known s) (hp : p ∈ s.mapBlockIndex) :
    Evolves False s (s.linkBlock env p) := by
  have h1 : Evolves False s (s.assignSequence p) :=
    .of_marks_eq h rfl rfl h.candidates h.unlinked h.tip
  simp only [linkBlock]
  split
  · exact h1.trans (evolves_insertCandidate h1.known (h1.map p hp))
  · exact h1

theorem evolves_takeUnlinked (h : Known s) :
    Evolves False s (s.takeUnlinked p).1 ∧ ∀ q ∈ (s.takeUnlinked p).2, q ∈ s.mapBlockIndex := by
  refine ⟨.of_marks_eq h rfl rfl h.candidates
    (fun e he => h.unlinked e (mem_of_mem_filter he)) h.tip, fun q hq => ?_⟩
  obtain ⟨e, he, rfl⟩ := mem_map.mp hq
  exact h.unlinked e (mem_of_mem_filter he)

theorem evolves_linkQueue (rounds : Nat) {queue : List CBlockIndex} (h : Known s)
    (hq : ∀ q ∈ queue, q ∈ s.mapBlockIndex) : Evolves False s (linkQueue env rounds queue s) := by
  induction rounds generalizing s queue with
  | zero => exact .refl h
  | succ n ih =>
    cases queue with
    | nil => exact .refl h
    | cons pindex queue =>
      have h1 : Evolves False s (s.linkBlock env pindex) :=
        evolves_linkBlock h (hq _ mem_cons_self)
      obtain ⟨h2, hwait⟩ := evolves_takeUnlinked h1.known
      refine (h1.trans h2).trans (ih h2.known fun q hmem => ?_)
      rcases mem_append.mp hmem with hin | hin
      · exact (h1.trans h2).map q (hq q (mem_cons_of_mem _ hin))
      · exact h2.map q (hwait q hin)

theorem evolves_recordData (h : Known s) (nTx : Nat) :
    Evolves False s (s.recordData env nTx p) := by
  have h1 : Evolves False s { s with
      nTx := update s.nTx p nTx, nChainTx := update s.nChainTx p 0 } :=
    .of_marks_eq h rfl rfl h.candidates h.unlinked h.tip
  unfold recordData
  refine h1.trans (evolves_modifyStatus h1.known ?_ ?_)
  · simp
  · simp

theorem evolves_receivedBlockTransactions (h : Known s) (nTx : Nat)
    (hp : p ∈ s.mapBlockIndex) : Evolves False s (s.receivedBlockTransactions env nTx p) := by
  have h1 : Evolves False s (s.recordData env nTx p) := evolves_recordData h nTx
  have hqueue : ∀ q ∈ [p], q ∈ (s.recordData env nTx p).mapBlockIndex := by
    intro q hq
    obtain rfl := mem_singleton.mp hq
    exact h1.map _ hp
  simp only [receivedBlockTransactions]
  split
  · exact h1.trans (evolves_linkQueue _ h1.known hqueue)
  split
  · exact h1.trans (evolves_linkQueue _ h1.known hqueue)
  split
  · refine h1.trans (.of_marks_eq h1.known rfl rfl h1.known.candidates ?_ h1.known.tip)
    intro e he
    rcases mem_append.mp he with he | he
    · exact h1.known.unlinked e he
    · obtain rfl := mem_singleton.mp he
      exact h1.map _ hp
  · exact h1

theorem evolves_acceptBlock {block : CBlock} {fRequested : Bool} {out : BlockOutcome} (h : Known s)
    (hs : s.acceptBlock env block t fRequested out = some (s', r)) : Evolves True s s' := by
  unfold acceptBlock at hs
  split at hs
  · cases hs
  · next s1 pindex hheader =>
    obtain ⟨h1, hknown⟩ := evolves_acceptBlockHeader h hheader
    have hp : pindex ∈ s1.mapBlockIndex := hknown pindex rfl
    split at hs
    · obtain ⟨rfl, rfl⟩ := hs
      exact h1.weaken
    split at hs
    · obtain ⟨rfl, rfl⟩ := hs
      exact h1.weaken
    split at hs
    · obtain ⟨rfl, rfl⟩ := hs
      split
      · exact h1.weaken
      · exact h1.weaken.trans (evolves_markFailedValid h1.known hp)
    split at hs
    · obtain ⟨rfl, rfl⟩ := hs
      exact (h1.trans (evolves_receivedBlockTransactions h1.known _ hp)).weaken
    · obtain ⟨rfl, rfl⟩ := hs
      exact h1.weaken
  · next hheader =>
    obtain ⟨rfl, rfl⟩ := hs
    exact (evolves_acceptBlockHeader h hheader).1.weaken

/-! ## 4. Activating the best chain -/

/-- A change that neither links nor unlinks, marks no block, and moves no data. -/
structure Quiet (s s' : ChainState) : Prop where
  nTx : s'.nTx = s.nTx
  data : ∀ p, (s'.nStatus p).haveData = (s.nStatus p).haveData
  failed : ∀ p, (s'.nStatus p).failed = (s.nStatus p).failed
  nChainTx : s'.nChainTx = s.nChainTx
  nSequenceId : s'.nSequenceId = s.nSequenceId
  next : s'.nBlockSequenceId = s.nBlockSequenceId
  waits : s'.mapBlocksUnlinked = s.mapBlocksUnlinked
  candidates : ∀ p ∈ s'.setBlockIndexCandidates, p ∈ s.setBlockIndexCandidates
  map : ∀ p ∈ s.mapBlockIndex, p ∈ s'.mapBlockIndex
  tree : ∀ p ∈ s'.mapBlockIndex, BlockStatus.blockValidTree ≤ (s'.nStatus p).validity ∨
    (p ∈ s.mapBlockIndex ∧ (s.nStatus p).validity ≤ (s'.nStatus p).validity)

theorem Quiet.refl (s : ChainState) : Quiet s s :=
  ⟨rfl, fun _ => rfl, fun _ => rfl, rfl, rfl, rfl, rfl, fun _ hp => hp, fun _ hp => hp,
    fun _ hp => .inr ⟨hp, le_refl _⟩⟩

theorem Quiet.trans {s'' : ChainState} (h : Quiet s s') (h' : Quiet s' s'') : Quiet s s'' where
  nTx := h'.nTx.trans h.nTx
  data p := (h'.data p).trans (h.data p)
  failed p := (h'.failed p).trans (h.failed p)
  nChainTx := h'.nChainTx.trans h.nChainTx
  nSequenceId := h'.nSequenceId.trans h.nSequenceId
  next := h'.next.trans h.next
  waits := h'.waits.trans h.waits
  candidates p hp := h.candidates p (h'.candidates p hp)
  map p hp := h'.map p (h.map p hp)
  tree p hp := by
    rcases h'.tree p hp with htree | ⟨hp', hle'⟩
    · exact .inl htree
    · exact (h.tree p hp').imp (·.trans hle') fun ⟨hmem, hle⟩ => ⟨hmem, hle.trans hle'⟩

theorem quiet_move {c : CChain} {candidates : List CBlockIndex}
    (hc : ∀ p ∈ candidates, p ∈ s.setBlockIndexCandidates) :
    Quiet s { s with chainActive := c, setBlockIndexCandidates := candidates } :=
  ⟨rfl, fun _ => rfl, fun _ => rfl, rfl, rfl, rfl, rfl, hc, fun _ hp => hp,
    fun _ hp => .inr ⟨hp, le_refl _⟩⟩

theorem quiet_connected :
    Quiet s (s.modifyStatus x fun st =>
      ({ st with haveUndo := true }).raiseValidity blockValidScripts) := by
  refine ⟨rfl, flag_modifyStatus haveData (by simp),
    failed_eq_of_marks (marks_modifyStatus (by simp) (by simp)), rfl, rfl, rfl, rfl,
    fun _ hp => hp, fun _ hp => hp, fun p hp => .inr ⟨hp, ?_⟩⟩
  simp only [modifyStatus, update_apply]
  split
  · next heq =>
    rw [heq]
    exact le_validity_raiseValidity { s.nStatus x with haveUndo := true } _
  · exact le_refl _

/-- The coin database finds no block invalid. -/
def Oracle.Valid (o : Oracle) : Prop :=
  ∀ p corruptionPossible, o.connect p ≠ .invalid corruptionPossible

/-- What activating does to the state: it leaves the links alone if no block is invalid. -/
structure Activates (o : Oracle) (s s' : ChainState) : Prop where
  evolves : Evolves False s s'
  quiet : o.Valid → Quiet s s'

theorem Activates.refl (h : Known s) : Activates o s s := ⟨.refl h, fun _ => .refl s⟩

theorem Activates.trans (h : Activates o s s') (h' : Activates o s' s'') : Activates o s s'' :=
  ⟨h.evolves.trans h'.evolves, fun ho => (h.quiet ho).trans (h'.quiet ho)⟩

theorem activates_setTip (h : Known s) (hp : p ∈ s.mapBlockIndex) :
    Activates o s { s with chainActive := s.chainActive.setTip (some p) } :=
  ⟨evolves_setTip h hp, fun _ => quiet_move fun _ hq => hq⟩

theorem evolves_invalidBlockFound {corruptionPossible : Bool} (h : Known s)
    (hp : p ∈ s.mapBlockIndex) (hs : s.invalidBlockFound p corruptionPossible = some s') :
    Evolves False s s' := by
  unfold invalidBlockFound at hs
  split at hs
  · cases hs
    exact .refl h
  · have h1 : Evolves False s ((s.markFailedValid p).insertFailed p) := evolves_markTracked h hp
    have h2 : Evolves False s (((s.markFailedValid p).insertFailed p).eraseCandidates [p]) :=
      h1.trans (evolves_eraseCandidates h1.known)
    exact h2.trans (evolves_invalidChainFound h2.known hs)

theorem firstUnusable_le (h : s.firstUnusable q = some (some p)) : p ≤ q := by
  induction q with
  | root d =>
    simp only [firstUnusable] at h
    split at h
    · cases h
    split at h
    · cases h
      exact le_refl _
    · cases h
  | child q d ih =>
    simp only [firstUnusable] at h
    split at h
    · cases h
    split at h
    · cases h
    split at h
    · cases h
      exact le_refl _
    · exact (ih h).trans (lt_child_iff.mpr (le_refl _)).le

theorem evolves_dropCandidateChain (h : Known s) (hpq : p ≤ q) (hq : q ∈ s.mapBlockIndex) :
    Evolves False s (s.dropCandidateChain q p) := by
  simp only [dropCandidateChain]
  split
  · next hfailed =>
    have h1 : Evolves False s (s.noteInvalid q) := evolves_noteInvalid h
    have h2 := h1.trans (evolves_markFailedChild_between h1.known hpq hq hfailed)
    exact h2.trans (evolves_eraseCandidates h2.known)
  · refine .of_marks_eq h rfl rfl (fun x hx => h.candidates x (mem_of_mem_filter hx)) ?_ h.tip
    intro e he
    rcases mem_append.mp he with he | he
    · exact h.unlinked e he
    · -- an entry for a block between the unusable one and the candidate
      obtain ⟨x, hx, hmap⟩ := mem_filterMap.mp he
      obtain ⟨y, -, rfl⟩ := Option.map_eq_some_iff.mp hmap
      exact h.closed q hq x ((mem_between hpq).mp hx).2

theorem mem_of_foldl_best {f : CBlockIndex → CBlockIndex → Bool} {cs : List CBlockIndex} :
    ∀ {best : Option CBlockIndex},
      cs.foldl (fun best c => match best with
        | none => some c
        | some b => if f b c then some c else some b) best = some p →
      best = some p ∨ p ∈ cs := by
  induction cs with
  | nil => exact fun h => .inl h
  | cons c cs ih =>
    intro best h
    rcases ih h with hb | hmem
    · cases best with
      | none => exact .inr (by simp at hb; simp [hb])
      | some b =>
        simp only at hb
        split at hb
        · exact .inr (by simp at hb; simp [hb])
        · exact .inl hb
    · exact .inr (mem_cons_of_mem _ hmem)

theorem bestCandidate_mem (h : s.bestCandidate env = some p) : p ∈ s.setBlockIndexCandidates := by
  rcases mem_of_foldl_best h with hb | hmem
  · cases hb
  · exact hmem

theorem evolves_findMostWorkChain (rounds : Nat) {r : Option CBlockIndex} (h : Known s)
    (hs : findMostWorkChain env rounds s = some (s', r)) :
    Evolves False s s' ∧ ∀ p, r = some p → p ∈ s'.mapBlockIndex := by
  induction rounds generalizing s with
  | zero => cases hs
  | succ n ih =>
    rw [findMostWorkChain] at hs
    split at hs
    · obtain ⟨rfl, rfl⟩ := hs
      exact ⟨.refl h, nofun⟩
    next pindexNew hbest =>
    have hnew : pindexNew ∈ s.mapBlockIndex := h.candidates _ (bestCandidate_mem hbest)
    split at hs
    · cases hs
    · obtain ⟨rfl, rfl⟩ := hs
      exact ⟨.refl h, fun _ he => by cases he; exact hnew⟩
    · next pindexTest htest =>
      have h1 : Evolves False s (s.dropCandidateChain pindexNew pindexTest) :=
        evolves_dropCandidateChain h (firstUnusable_le htest) hnew
      obtain ⟨h2, hr⟩ := ih h1.known hs
      exact ⟨h1.trans h2, hr⟩

theorem activates_disconnectTip {b : Bool} (h : Known s) (hs : s.disconnectTip o = some (s', b)) :
    Activates o s s' := by
  unfold disconnectTip at hs
  split at hs
  · cases hs
  next pindexDelete htip =>
  split at hs
  · split at hs
    · cases hs
    · next pprev hprev =>
      obtain ⟨rfl, rfl⟩ := hs
      have hle : pprev ≤ pindexDelete := (parent?_lt hprev).le
      exact activates_setTip h (h.closed _ (h.tip _ htip) _ hle)
  · obtain ⟨rfl, rfl⟩ := hs
    exact .refl h

theorem activates_disconnectWhile (n : Nat) {more : CChain → Bool} {b : Bool} (h : Known s)
    (hs : disconnectWhile o more n s = some (s', b)) : Activates o s s' := by
  induction n generalizing s with
  | zero =>
    obtain ⟨rfl, rfl⟩ := hs
    exact .refl h
  | succ n ih =>
    rw [disconnectWhile] at hs
    split at hs
    · split at hs
      · cases hs
      · next s1 htip =>
        have h1 := activates_disconnectTip h htip
        exact h1.trans (ih h1.evolves.known hs)
      · next s1 htip =>
        obtain ⟨rfl, rfl⟩ := hs
        exact activates_disconnectTip h htip
    · obtain ⟨rfl, rfl⟩ := hs
      exact .refl h

theorem activates_pruneBlockIndexCandidates (h : Known s)
    (hs : s.pruneBlockIndexCandidates env = some s') : Activates o s s' := by
  simp only [pruneBlockIndexCandidates] at hs
  split at hs
  · cases hs
  · cases hs
    exact ⟨.of_marks_eq h rfl rfl (fun q hq => h.candidates q (mem_of_mem_filter hq))
      h.unlinked h.tip, fun _ => quiet_move fun _ hq => mem_of_mem_filter hq⟩

theorem activates_connectTip {v : ConnectVerdict} (h : Known s) (hp : p ∈ s.mapBlockIndex)
    (hs : s.connectTip o p = some (s', v)) :
    Activates o s s' ∧ ∀ c, v = .invalid c → ¬ o.Valid := by
  unfold connectTip at hs
  split at hs
  · split at hs
    · obtain ⟨rfl, rfl⟩ := hs
      refine ⟨?_, nofun⟩
      split
      · exact activates_setTip h hp
      · have h1 : Activates o s (s.modifyStatus p fun st =>
            ({ st with haveUndo := true }).raiseValidity blockValidScripts) :=
          ⟨evolves_modifyStatus h (by simp) (by simp), fun _ => quiet_connected⟩
        exact h1.trans (activates_setTip h1.evolves.known hp)
    · next c hverdict =>
      obtain ⟨s1, hfound, he⟩ := Option.map_eq_some_iff.mp hs
      obtain ⟨rfl, rfl⟩ := he
      have hnot : ¬ o.Valid := fun ho => ho p c hverdict
      exact ⟨⟨evolves_invalidBlockFound h hp hfound, fun ho => absurd ho hnot⟩, fun _ _ => hnot⟩
    · obtain ⟨rfl, rfl⟩ := hs
      exact ⟨.refl h, nofun⟩
  · cases hs

theorem activates_connectBatch {old : Option CBlockIndex} {lowest : CBlockIndex}
    {r : ConnectResult} (h : Known s) (hps : ∀ q ∈ ps, q ∈ s.mapBlockIndex)
    (hs : connectBatch env o old lowest ps s = some (s', r)) :
    Activates o s s' ∧ (r = .invalidFound → ¬ o.Valid) := by
  induction ps generalizing s with
  | nil =>
    obtain ⟨rfl, rfl⟩ := hs
    exact ⟨.refl h, nofun⟩
  | cons pindexConnect rest ih =>
    have hp : pindexConnect ∈ s.mapBlockIndex := hps _ mem_cons_self
    rw [connectBatch] at hs
    split at hs
    · cases hs
    · next s1 corruptionPossible htip =>
      obtain ⟨h1, hinvalid⟩ := activates_connectTip h hp htip
      have hnot := hinvalid _ rfl
      split at hs
      · obtain ⟨rfl, rfl⟩ := hs
        exact ⟨h1, fun _ => hnot⟩
      · obtain ⟨s2, hfound, he⟩ := Option.map_eq_some_iff.mp hs
        obtain ⟨rfl, rfl⟩ := he
        exact ⟨⟨h1.evolves.trans (evolves_invalidChainFound h1.evolves.known hfound),
          fun ho => absurd ho hnot⟩, fun _ => hnot⟩
    · next s1 htip =>
      obtain ⟨rfl, rfl⟩ := hs
      exact ⟨(activates_connectTip h hp htip).1, nofun⟩
    · next s1 htip =>
      obtain ⟨h1, -⟩ := activates_connectTip h hp htip
      split at hs
      · cases hs
      next s2 hprune =>
      have h2 := h1.trans (activates_pruneBlockIndexCandidates h1.evolves.known hprune)
      split at hs
      · obtain ⟨rfl, rfl⟩ := hs
        exact ⟨h2, nofun⟩
      · obtain ⟨h3, hr⟩ := ih h2.evolves.known
          (fun q hq => h2.evolves.map q (hps q (mem_cons_of_mem _ hq))) hs
        exact ⟨h2.trans h3, hr⟩

theorem mem_blocksBetween {lo hi : Nat} (h : p ∈ blocksBetween q lo hi) : p ≤ q := by
  obtain ⟨k, -, hk⟩ := mem_filterMap.mp h
  exact (ancestorAt_eq_some_iff.mp hk).1

theorem activates_connectTowards (batches : Nat) {old : Option CBlockIndex} {lo : Nat}
    {r : ConnectResult} (h : Known s) (hp : p ∈ s.mapBlockIndex)
    (hs : connectTowards env o old p batches lo s = some (s', r)) :
    Activates o s s' ∧ (r = .invalidFound → ¬ o.Valid) := by
  induction batches generalizing s lo with
  | zero =>
    obtain ⟨rfl, rfl⟩ := hs
    exact ⟨.refl h, nofun⟩
  | succ n ih =>
    rw [connectTowards] at hs
    split at hs
    · obtain ⟨rfl, rfl⟩ := hs
      exact ⟨.refl h, nofun⟩
    next lowest rest hblocks =>
    have hps : ∀ q ∈ lowest :: rest, q ∈ s.mapBlockIndex := fun q hq =>
      h.closed p hp q (mem_blocksBetween (hblocks ▸ hq))
    split at hs
    · next s1 hbatch =>
      obtain ⟨h1, -⟩ := activates_connectBatch h hps hbatch
      obtain ⟨h2, hr⟩ := ih h1.evolves.known (h1.evolves.map p hp) hs
      exact ⟨h1.trans h2, hr⟩
    · exact activates_connectBatch h hps hs

theorem activates_activateBestChainStep {r : ConnectResult} (h : Known s)
    (hp : p ∈ s.mapBlockIndex) (hs : s.activateBestChainStep env o p = some (s', r)) :
    Activates o s s' ∧ (r = .invalidFound → ¬ o.Valid) := by
  simp only [activateBestChainStep] at hs
  split at hs
  · cases hs
  · next s1 hdisc =>
    obtain ⟨rfl, rfl⟩ := hs
    exact ⟨activates_disconnectWhile _ h hdisc, fun hr => by cases hr⟩
  · next s1 hdisc =>
    have h1 := activates_disconnectWhile _ h hdisc
    obtain ⟨h2, hr⟩ := activates_connectTowards _ h1.evolves.known (h1.evolves.map p hp) hs
    exact ⟨h1.trans h2, hr⟩

theorem evolves_mostWork {cached r : Option CBlockIndex} (h : Known s)
    (he : (match cached with
      | some p => some (s, some p)
      | none => findMostWorkChain env (s.setBlockIndexCandidates.length + 1) s) = some (s', r))
    (hcached : ∀ p, cached = some p → p ∈ s.mapBlockIndex) :
    Evolves False s s' ∧ ∀ p, r = some p → p ∈ s'.mapBlockIndex := by
  split at he
  · next p =>
    obtain ⟨rfl, rfl⟩ := he
    exact ⟨.refl h, fun q hq => hcached q hq⟩
  · exact evolves_findMostWorkChain _ h he

theorem evolves_activateBestChain (rounds : Nat) {cached : Option CBlockIndex} (h : Known s)
    (hcached : ∀ p, cached = some p → p ∈ s.mapBlockIndex)
    (hs : activateBestChain env o rounds cached s = some s') : Evolves False s s' := by
  induction rounds generalizing s cached with
  | zero =>
    cases hs
    exact .refl h
  | succ n ih =>
    simp only [activateBestChain] at hs
    split at hs
    · cases hs
    · next s1 he =>
      cases hs
      exact (evolves_mostWork h he hcached).1
    · next s1 pindexMostWork he =>
      obtain ⟨h1, hknown⟩ := evolves_mostWork h he hcached
      have hp := hknown pindexMostWork rfl
      split at hs
      · cases hs
        exact h1
      split at hs
      · cases hs
      · next s2 hstep =>
        cases hs
        exact h1.trans (activates_activateBestChainStep h1.known hp hstep).1.evolves
      · next s2 hstep =>
        have h2 := h1.trans (activates_activateBestChainStep h1.known hp hstep).1.evolves
        exact h2.trans (ih h2.known (fun q hq => by cases hq) hs)
      · next s2 r _ _ hstep =>
        have h12 := (activates_activateBestChainStep h1.known hp hstep).1.evolves
        have h2 := h1.trans h12
        split at hs
        · cases hs
          exact h2
        · refine h2.trans (ih h2.known (fun q hq => ?_) hs)
          cases hq
          exact h12.map _ hp

/-! ## 5. Invalidating and reconsidering -/

/-- `InvalidateBlock` marks the blocks between the block and the old tip first and the block
itself last; the same marks result in the other order. -/
theorem evolves_markInvalidated {old : CChain} (h : Known s) (hp : p ∈ s.mapBlockIndex)
    (htip : ∀ t, old.tip = some t → t ∈ s.mapBlockIndex) :
    Evolves False s (s.markInvalidated (disconnectedAbove old p) p) := by
  let s1 := (s.markFailedValid p).insertFailed p
  have h1 := evolves_markTracked h hp
  have hfailed : (s1.nStatus p).failed = true := by
    simp [s1, insertFailed, markFailedValid, modifyStatus, failed]
  have h2 : Evolves False s1 (s1.markFailedChild (disconnectedAbove old p)) := by
    unfold disconnectedAbove
    split
    · next t hcontains ht =>
      obtain ⟨t', ht', hle⟩ := CChain.contains_iff.mp hcontains
      cases ht.symm.trans ht'
      exact evolves_markFailedChild_between h1.known hle (htip t ht) hfailed
    · refine .of_marks_eq h1.known rfl ?_ h1.known.candidates h1.known.unlinked h1.known.tip
      simp [markFailedChild]
  have h3 := h1.trans h2
  have hstatus : ∀ q, ((s.markInvalidated (disconnectedAbove old p) p).nStatus q) =
      ((s1.markFailedChild (disconnectedAbove old p)).nStatus q) := by
    intro q
    simp only [s1, markInvalidated, markFailedChild, eraseCandidates, markFailedValid,
      modifyStatus, insertFailed]
    by_cases hq : q = p
    · subst hq
      by_cases hw : q ∈ disconnectedAbove old q
      · simp [hw]
      · simp [hw]
    · simp [update_of_ne hq]
  refine h3.trans (.of_marks_eq h3.known rfl ?_ ?_ h3.known.unlinked h3.known.tip)
  · simp only [marks, hstatus]
    rfl
  · intro q hq
    exact h3.known.candidates q (mem_of_mem_filter (mem_of_mem_filter hq))

theorem mem_foldl_insert {l : List CBlockIndex} :
    ∀ (set : List CBlockIndex) (q : CBlockIndex),
      q ∈ l.foldl (fun set p => set.insert p) set → q ∈ l ∨ q ∈ set := by
  induction l with
  | nil => exact fun set q hq => .inr hq
  | cons a l ih =>
    intro set q hq
    rcases ih _ q hq with hl | hset
    · exact .inl (mem_cons_of_mem _ hl)
    · rcases mem_insert_iff.mp hset with rfl | hset
      · exact .inl mem_cons_self
      · exact .inr hset

/-- Valid blocks may become candidates again; none of them is marked. -/
theorem evolves_candidatesAgain (env : NodeEnv) (h : Known s) :
    Evolves False s (s.candidatesAgain env) := by
  refine ⟨fun _ hq => hq, id, ⟨h.closed, h.marked, ?_, ?_, h.unlinked, h.tip⟩, ?_⟩
  · exact fun q hq => h.tracked q (mem_of_mem_filter hq)
  · intro q hq
    rcases mem_foldl_insert _ q hq with hq | hq
    · exact mem_of_mem_filter hq
    · exact h.candidates q hq
  · let T : Set CBlockIndex := { q | q ∈ s.mapBlockIndex.filter (s.becomesCandidate env) }
    have hT : ∀ q ∈ T, q ∉ s.marks.own := by
      intro q hq hown
      have hvalid := (mem_filter.mp hq).2
      simp only [becomesCandidate, isValid, failed, Bool.and_eq_true,
        Bool.not_eq_true', Bool.or_eq_false_iff] at hvalid
      have hv : (s.nStatus q).failedValid = true := hown
      rw [hv] at hvalid
      exact absurd hvalid.1.1.1.1 (by decide)
    have hstep : Marks.Grow False s.marks { s.marks with tracked := s.marks.tracked \ T } :=
      .untrack _ T hT
    have htracked : s.marks.tracked \ T = { q | q ∈ s.gFailedBlocks.filter
        (· ∉ s.mapBlockIndex.filter (s.becomesCandidate env)) } := by
      ext q
      show q ∈ s.gFailedBlocks ∧ q ∉ T ↔ q ∈ s.gFailedBlocks.filter _
      rw [mem_filter, decide_eq_true_iff]
      rfl
    rw [htracked] at hstep
    exact .single hstep

theorem evolves_invalidateBlock (h : Known s) (hp : p ∈ s.mapBlockIndex)
    (hs : s.invalidateBlock env o p = some s') : Evolves False s s' := by
  simp only [invalidateBlock] at hs
  split at hs
  · cases hs
  · next s1 hdisc =>
    cases hs
    exact (activates_disconnectWhile _ h hdisc).evolves
  · next s1 hdisc =>
    have h1 := (activates_disconnectWhile _ h hdisc).evolves
    have h2 := h1.trans (evolves_markInvalidated h1.known (h1.map p hp)
      (fun t ht => h1.map t (h.tip t ht)))
    have h3 := h2.trans (evolves_candidatesAgain env h2.known)
    exact h3.trans (evolves_invalidChainFound h3.known hs)

/-- The first loop of `ResetBlockFailureFlags` clears every marked descendant. -/
theorem mem_cleared_iff (h : Known s) (hq : (s.nStatus q).failed = true) :
    q ∈ s.mapBlockIndex.filter (fun x =>
      !(s.nStatus x).isValid && x.getAncestor p.nHeight == some p) ↔ p ≤ q := by
  have hanc : q.getAncestor p.nHeight = some p ↔ p ≤ q := ancestorAt_height_iff
  rw [mem_filter, Bool.and_eq_true, beq_iff_eq, hanc]
  constructor
  · exact fun hmem => hmem.2.2
  · intro hle
    refine ⟨h.marked q hq, ?_, hle⟩
    simp [isValid, hq]

theorem nStatus_resetBlockFailureFlags (h : Known s) (q : CBlockIndex) :
    let st := (s.resetBlockFailureFlags env p).nStatus q
    (st.failedValid = true ↔ (s.nStatus q).failedValid = true ∧ q ∉ Marks.line p) ∧
      (st.failedChild = true ↔ (s.nStatus q).failedChild = true ∧ q ∉ Marks.line p) := by
  simp only [resetBlockFailureFlags]
  by_cases hbelow : q ≤ p
  · have hline : q ∈ Marks.line p := .inl hbelow
    simp [hbelow, hline, clearFailed]
  · rw [if_neg hbelow]
    by_cases hfailed : (s.nStatus q).failed = true
    · have hmem := mem_cleared_iff (p := p) h hfailed
      by_cases habove : p ≤ q
      · have hline : q ∈ Marks.line p := .inr habove
        rw [if_pos (hmem.mpr habove)]
        simp [hline, clearFailed]
      · have hline : q ∉ Marks.line p := fun hl => hl.elim hbelow habove
        rw [if_neg (fun hc => habove (hmem.mp hc))]
        simp [hline]
    · have hnone : (s.nStatus q).failedValid = false ∧ (s.nStatus q).failedChild = false := by
        simpa [failed] using hfailed
      split
      · simp [hnone, clearFailed]
      · simp [hnone]

/-- Reconsidering a block clears the marks of its line and tracks what it tracked before. -/
theorem marks_resetBlockFailureFlags (h : Known s) :
    (s.resetBlockFailureFlags env p).marks = Marks.clear p s.marks := by
  have hown : { q | ((s.resetBlockFailureFlags env p).nStatus q).failedValid = true } =
      s.marks.own \ Marks.line p := by
    ext q
    exact (nStatus_resetBlockFailureFlags h q).1
  have hinh : { q | ((s.resetBlockFailureFlags env p).nStatus q).failedChild = true } =
      s.marks.inherited \ Marks.line p := by
    ext q
    exact (nStatus_resetBlockFailureFlags h q).2
  unfold marks Marks.clear
  rw [hown, hinh]
  rfl

theorem known_resetBlockFailureFlags (h : Known s) : Known (s.resetBlockFailureFlags env p) := by
  refine { h with marked := fun q hq => ?_, candidates := fun q hq => ?_ }
  · rw [failed_eq_true_iff, marks_resetBlockFailureFlags h] at hq
    exact h.marked q (failed_eq_true_iff.mpr (hq.imp (·.1) (·.1)))
  · rcases mem_foldl_insert _ q hq with hq | hq
    · exact mem_of_mem_filter (mem_of_mem_filter hq)
    · exact h.candidates q hq

end ChainState

end RgmNode
