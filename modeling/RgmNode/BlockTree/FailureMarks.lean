import RgmNode.BlockTree.Refinement
import RgmNode.Lib.Transition

/-!
# Failure marks over whole runs

`gFailedBlocks` is meant to list blocks with `BLOCK_FAILED_VALID`, and a block with
`BLOCK_FAILED_CHILD` is meant to have an ancestor with `BLOCK_FAILED_VALID`; one is asserted in
`AcceptBlockHeader`, the other in `CheckBlockIndex`.  Every operation keeps both, except
`ResetBlockFailureFlags`: it never takes a block out of `gFailedBlocks`, and it clears the
ancestors of its block without the other branches above them.
-/

namespace RgmNode

open Lineage Transition ChainState Option

variable {env : NodeEnv} {s s' t : ChainState} {op : TreeOp} {p : CBlockIndex}

/-! ## 1. One step -/

/-- Operations that track every block they mark, and do not reset. -/
def TreeOp.tracks : TreeOp → Bool
  | .header .. => true
  | .connectFails .. => true
  | .invalidate .. => true
  | .block .. => false
  | .activate .. => true
  | .reset .. => false

theorem evolves_treeStep_of_tracks (h : Known s) (hop : op.tracks = true)
    (hs : treeStep env s op = some s') : Evolves False s s' := by
  cases op with
  | header block t =>
    obtain ⟨⟨s1, r⟩, hacc, rfl⟩ := Option.map_eq_some_iff.mp hs
    exact (evolves_acceptBlockHeader h hacc).1
  | connectFails pindex corruptionPossible =>
    simp only [treeStep] at hs
    split at hs
    · next hp => exact evolves_invalidBlockFound h hp hs
    · cases hs
      exact .refl h
  | activate rounds o =>
    exact evolves_activateBestChain rounds h (fun q hq => by cases hq) hs
  | invalidate pindex o =>
    simp only [treeStep] at hs
    split at hs
    · next hp => exact evolves_invalidateBlock h hp hs
    · cases hs
      exact .refl h
  | block => cases hop
  | reset => cases hop

/-- Every operation adds marks or clears the line of a known block. -/
theorem treeStep_cases (h : Known s) (hs : treeStep env s op = some s') :
    Evolves True s s' ∨
      ∃ p, op = .reset p ∧ p ∈ s.mapBlockIndex ∧ s' = s.resetBlockFailureFlags env p := by
  cases hop : op.tracks with
  | true => exact .inl (evolves_treeStep_of_tracks h hop hs).weaken
  | false =>
    cases op with
    | block block t fRequested out =>
      obtain ⟨⟨s1, r⟩, hacc, rfl⟩ := Option.map_eq_some_iff.mp hs
      exact .inl (evolves_acceptBlock h hacc)
    | reset pindex =>
      simp only [treeStep] at hs
      split at hs
      · next hp => exact .inr ⟨pindex, rfl, hp, (Option.some.inj hs).symm⟩
      · cases hs
        exact .inl (.refl h)
    | header | connectFails | activate | invalidate => cases hop

theorem known_treeStep (h : Known s) (hs : treeStep env s op = some s') : Known s' := by
  rcases treeStep_cases h hs with hev | ⟨p, -, -, rfl⟩
  · exact hev.known
  · exact known_resetBlockFailureFlags h

theorem filedByHash_treeStep (h : Known s) (hf : s.FiledByHash)
    (hs : treeStep env s op = some s') : s'.FiledByHash := by
  rcases treeStep_cases h hs with hev | ⟨p, -, -, rfl⟩
  · exact hev.filed hf
  · exact hf

/-! ## 2. The set of failed blocks -/

structure Unmarked (s : ChainState) : Prop where
  known : Known s
  clean : ∀ p, (s.nStatus p).failed = false
  none : s.gFailedBlocks = []

theorem marks_linkQueue (rounds : Nat) (queue : List CBlockIndex) :
    (linkQueue env rounds queue s).marks = s.marks := by
  induction rounds generalizing s queue with
  | zero => rfl
  | succ n ih =>
    cases queue with
    | nil => rfl
    | cons pindex queue =>
      rw [linkQueue, ih]
      simp only [linkBlock]
      split <;> rfl

theorem marks_recordData (nTx : Nat) : (s.recordData env nTx p).marks = s.marks := by
  unfold recordData
  rw [marks_modifyStatus (by simp) (by simp)]
  rfl

theorem marks_receivedBlockTransactions (nTx : Nat) :
    (s.receivedBlockTransactions env nTx p).marks = s.marks := by
  simp only [receivedBlockTransactions]
  split
  · rw [marks_linkQueue, marks_recordData]
  split
  · rw [marks_linkQueue, marks_recordData]
  split <;> exact marks_recordData nTx

theorem known_empty : Known ChainState.empty where
  closed := nofun
  marked := nofun
  tracked := nofun
  candidates := nofun
  unlinked := nofun
  tip := nofun

theorem marks_addToBlockIndex_empty (block : CBlockHeader) :
    (empty.addToBlockIndex env block).1.marks = empty.marks := by
  have hflags : ∀ q, ((empty.addToBlockIndex env block).1.nStatus q).failedValid = false ∧
      ((empty.addToBlockIndex env block).1.nStatus q).failedChild = false := by
    intro q
    simp only [addToBlockIndex, find, empty, List.find?_nil, Function.update_apply]
    split <;> exact ⟨rfl, rfl⟩
  simp only [marks, (hflags _).1, (hflags _).2]
  rfl

theorem evolves_initBlockIndex (env : NodeEnv) : Evolves False empty (initBlockIndex env) := by
  obtain ⟨hadd, hmem⟩ := evolves_addToBlockIndex env known_empty (genesisHeader env)
  exact hadd.trans (evolves_receivedBlockTransactions hadd.known 1 hmem)

theorem unmarked_initBlockIndex (env : NodeEnv) : Unmarked (initBlockIndex env) := by
  have hmarks : (initBlockIndex env).marks = empty.marks := by
    rw [initBlockIndex, marks_receivedBlockTransactions, marks_addToBlockIndex_empty]
  refine ⟨(evolves_initBlockIndex env).known, fun p => ?_, ?_⟩
  · rw [← Bool.not_eq_true, failed_eq_true_iff, hmarks]
    simp [marks, empty, BlockStatus.null]
  · refine List.eq_nil_iff_forall_not_mem.mpr fun b hb => ?_
    have htracked : b ∈ (initBlockIndex env).marks.tracked := hb
    cases htracked

/-- In every run of a node that starts with the genesis block, the block map finds each of its
blocks under its hash. -/
theorem filedByHash_of_runs (h : Runs (treeStep env) (fun _ _ => True) (initBlockIndex env) s) :
    s.FiledByHash := by
  have hinit := evolves_initBlockIndex env
  exact (h.invariant (fun t => Known t ∧ t.FiledByHash)
    (fun _ _ _ hinv _ hs => ⟨known_treeStep hinv.1 hs, filedByHash_treeStep hinv.1 hinv.2 hs⟩)
    ⟨hinit.known, hinit.filed nofun⟩).2

/-- What `gFailedBlocks` is for: its blocks carry the mark, so the assertion in
`AcceptBlockHeader` holds for every header, and a header is only rejected for a known parent
if a block above it carries the mark. -/
structure FailedBlocksTruthful (env : NodeEnv) (s : ChainState) : Prop where
  flagged : ∀ b ∈ s.gFailedBlocks, (s.nStatus b).failedValid = true
  noAbort : ∀ block now, s.acceptBlockHeader env block now ≠ none
  blame : ∀ block now s' r b,
    s.acceptBlockHeader env block now = some (s', .rejected r (some b)) →
    r.strRejectReason = "bad-prevblk" → ∃ a ≤ b, (s.nStatus a).failedValid = true

/-- Header arrivals, connections, invalidations, and resets that touch no block of
`gFailedBlocks`: none is the block itself, an ancestor or a descendant of it. -/
def ResetsSpareFailed (s : ChainState) : TreeOp → Prop
  | .header .. => True
  | .connectFails .. => True
  | .invalidate .. => True
  | .reset pindex => ∀ b ∈ s.gFailedBlocks, ¬ b ≤ pindex ∧ ¬ pindex ≤ b
  | .activate .. => True
  | .block .. => False

instance (s : ChainState) (op : TreeOp) : Decidable (ResetsSpareFailed s op) :=
  match op with
  | .header .. | .connectFails .. | .invalidate .. | .activate .. => isTrue trivial
  | .reset pindex =>
    inferInstanceAs (Decidable (∀ b ∈ s.gFailedBlocks, ¬ b ≤ pindex ∧ ¬ pindex ≤ b))
  | .block .. => isFalse id

theorem spares_line_iff :
    (∀ b ∈ s.gFailedBlocks, ¬ b ≤ p ∧ ¬ p ≤ b) ↔ ∀ b ∈ s.marks.tracked, b ∉ Marks.line p := by
  simp [marks, Marks.line, not_or]

/-- The assertion of `AcceptBlockHeader` is the only way in which it does not return, and it
needs a block of `gFailedBlocks` without the mark. -/
theorem acceptBlockHeader_ne_none (hflag : ∀ b ∈ s.gFailedBlocks, (s.nStatus b).failedValid = true)
    (block : CBlockHeader) (now : Int) : s.acceptBlockHeader env block now ≠ none := by
  intro habort
  have houtcome := acceptBlockHeader_outcome env s block now
  rw [habort] at houtcome
  cases houtcome with
  | aborted hp hvalid => exact hvalid (hflag _ hp)

/-- A header that is rejected for its parent names a marked block. -/
theorem failed_of_acceptBlockHeader_rejected {block : CBlockHeader} {now : Int} {r : Reject}
    {b : CBlockIndex}
    (hs : s.acceptBlockHeader env block now = some (s', .rejected r (some b))) :
    (s.nStatus b).failed = true := by
  have houtcome := acceptBlockHeader_outcome env s block now
  rw [hs] at houtcome
  cases houtcome with
  | failed hp => exact hp
  | marked _ _ hvalid => simp [BlockStatus.failed, hvalid]

theorem failedBlocksTruthful_of_marks (ht : s.marks.Truthful) (hj : s.marks.Justified) :
    FailedBlocksTruthful env s where
  flagged := ht
  noAbort := acceptBlockHeader_ne_none ht
  blame := by
    intro block now s' r b hs _
    rcases failed_eq_true_iff.mp (failed_of_acceptBlockHeader_rejected hs) with hown | hinh
    · exact ⟨b, le_refl b, hown⟩
    · obtain ⟨a, hab, ha⟩ := hj b hinh
      exact ⟨a, hab.le, ha⟩

/-- What the operations on `gFailedBlocks` keep together. -/
def MarksConsistent (s : ChainState) : Prop :=
  Known s ∧ s.marks.Truthful ∧ s.marks.Justified ∧ s.marks.Complete

theorem marksConsistent_of_unmarked (h : Unmarked s) : MarksConsistent s := by
  have hclean : ∀ q, (s.nStatus q).failedValid = false ∧ (s.nStatus q).failedChild = false :=
    fun q => by simpa [BlockStatus.failed] using h.clean q
  refine ⟨h.known, ?_, ?_, ?_⟩
  · intro q hq
    have hq' : q ∈ s.gFailedBlocks := hq
    rw [h.none] at hq'
    cases hq'
  · intro q hq
    have hq' : (s.nStatus q).failedChild = true := hq
    rw [(hclean q).2] at hq'
    cases hq'
  · intro q hq
    have hq' : (s.nStatus q).failedValid = true := hq
    rw [(hclean q).1] at hq'
    cases hq'

theorem marksConsistent_step (h : MarksConsistent s) (hg : ResetsSpareFailed s op)
    (hs : treeStep env s op = some s') : MarksConsistent s' := by
  obtain ⟨hk, ht, hj, hc⟩ := h
  have grown : Evolves False s s' → MarksConsistent s' := fun hev =>
    ⟨hev.known, hev.grows.truthful ht, hev.grows.justified hj, hev.grows.complete hc⟩
  cases op with
  | header | connectFails | invalidate | activate =>
    exact grown (evolves_treeStep_of_tracks hk rfl hs)
  | block => exact hg.elim
  | reset pindex =>
    simp only [treeStep] at hs
    split at hs
    · cases hs
      have hline := spares_line_iff.mp hg
      refine ⟨known_resetBlockFailureFlags hk, ?_⟩
      rw [marks_resetBlockFailureFlags hk]
      exact ⟨(Marks.truthful_clear_iff ht).mpr hline,
        Marks.justified_clear_of_complete hj hc hline, Marks.complete_clear hc⟩
    · cases hs
      exact ⟨hk, ht, hj, hc⟩

/-- In every run from an unmarked tree whose resets touch no block of `gFailedBlocks`, the set
is truthful; and a reset keeps its blocks marked exactly if it touches none of them. -/
theorem failedBlocks_truthful_spec (env : NodeEnv) :
    (∀ s t, Unmarked s → Runs (treeStep env) ResetsSpareFailed s t →
      FailedBlocksTruthful env t) ∧
    (∀ s p, Known s → (∀ b ∈ s.gFailedBlocks, (s.nStatus b).failedValid = true) →
      ((∀ b ∈ (s.resetBlockFailureFlags env p).gFailedBlocks,
          ((s.resetBlockFailureFlags env p).nStatus b).failedValid = true) ↔
        ∀ b ∈ s.gFailedBlocks, ¬ b ≤ p ∧ ¬ p ≤ b)) := by
  constructor
  · intro s t hs hruns
    obtain ⟨-, ht, hj, -⟩ := Runs.invariant MarksConsistent
      (fun _ _ _ h hg hstep => marksConsistent_step h hg hstep) hruns
      (marksConsistent_of_unmarked hs)
    exact failedBlocksTruthful_of_marks ht hj
  · intro s p hk hflag
    have ht : s.marks.Truthful := hflag
    have hreset : (s.resetBlockFailureFlags env p).marks.Truthful ↔ _ :=
      marks_resetBlockFailureFlags hk ▸ Marks.truthful_clear_iff ht
    exact hreset.trans spares_line_iff.symm

/-- Hashes that tell headers apart by their nonce. -/
def nonceCrypto : Crypto :=
  { sha256 := fun b =>
      BitVec.ofNat 256 (LittleEndian.decode (if b.length = 80 then b.drop 76 else b))
    ripemd160 := fun _ => 0
    sha1 := fun _ => 0
    scrypt := fun _ => 0 }

def regtestEnv : NodeEnv := ⟨nonceCrypto, .regtest, false, fun _ => 0⟩

def regtestNow : Int := 1772066100

/-- A header on top of the one with nonce `prev`; the genesis block has nonce 1. -/
def regtestHeader (prev nNonce : UInt32) : CBlockHeader :=
  { nVersion := 4
    hashPrevBlock := BitVec.ofNat 256 prev.toNat
    hashMerkleRoot := 0
    nTime := 1772066000 + nNonce
    nBits := 0x207fffff
    nNonce
    auxpow := none }

def regtestRoot : CBlockIndex := .root (regTestParams.genesis.indexData nonceCrypto)

def firstBlock : CBlockIndex :=
  .child regtestRoot ((regtestHeader 1 2).indexData nonceCrypto)

/-- The two blocks on top of `firstBlock`. -/
def leftBlock : CBlockIndex := .child firstBlock ((regtestHeader 2 3).indexData nonceCrypto)
def rightBlock : CBlockIndex := .child firstBlock ((regtestHeader 2 4).indexData nonceCrypto)

def allConnect : ChainState.Oracle := ⟨fun _ => .ok, fun _ => true⟩

/-- One of two headers on top of `firstBlock` is invalidated and the other one reconsidered. -/
def spareRun : List TreeOp :=
  [.activate 3 allConnect, .header (regtestHeader 1 2) regtestNow,
    .header (regtestHeader 2 3) regtestNow, .header (regtestHeader 2 4) regtestNow,
    .invalidate leftBlock allConnect, .reset rightBlock]

/-- This reset touches no block of `gFailedBlocks`. -/
theorem failedBlocks_truthful_spared :
    ∃ s, runGuarded (treeStep regtestEnv) ResetsSpareFailed (initBlockIndex regtestEnv) spareRun =
        some s ∧ leftBlock ∈ s.gFailedBlocks ∧ FailedBlocksTruthful regtestEnv s := by
  have hrun : ((runGuarded (treeStep regtestEnv) ResetsSpareFailed (initBlockIndex regtestEnv)
      spareRun).any (leftBlock ∈ ·.gFailedBlocks)) = true := by
    decide +kernel
  obtain ⟨s, hs, hfailed⟩ := any_eq_true _ _ |>.mp hrun
  exact ⟨s, hs, of_decide_eq_true hfailed, (failedBlocks_truthful_spec regtestEnv).1 _ s
    (unmarked_initBlockIndex regtestEnv) (runs_of_runGuarded hs)⟩

/-- After start-up a header arrives, its block is invalidated and reconsidered. -/
def reconsiderRun : List TreeOp :=
  [.activate 3 allConnect, .header (regtestHeader 1 2) regtestNow,
    .invalidate firstBlock allConnect, .reset firstBlock]

/-- The reconsidered block stays in `gFailedBlocks` without its mark, and the next header on
top of it runs into the assertion. -/
theorem reconsiderRun_aborts :
    Unmarked (initBlockIndex regtestEnv) ∧
    ∃ s, runList (treeStep regtestEnv) (initBlockIndex regtestEnv) reconsiderRun = some s ∧
      firstBlock ∈ s.gFailedBlocks ∧ (s.nStatus firstBlock).failedValid = false ∧
      s.acceptBlockHeader regtestEnv (regtestHeader 2 3) regtestNow = none := by
  have hrun : ((runList (treeStep regtestEnv) (initBlockIndex regtestEnv) reconsiderRun).any
      fun s => decide (firstBlock ∈ s.gFailedBlocks) && !(s.nStatus firstBlock).failedValid &&
        (s.acceptBlockHeader regtestEnv (regtestHeader 2 3) regtestNow).isNone) = true := by
    decide +kernel
  obtain ⟨s, hs, hbad⟩ := any_eq_true _ _ |>.mp hrun
  simp only [Bool.and_eq_true, decide_eq_true_eq, Bool.not_eq_true', isNone_iff_eq_none]
    at hbad
  exact ⟨unmarked_initBlockIndex regtestEnv, s, hs, hbad.1.1, hbad.1.2, hbad.2⟩

/-! ## 3. Marks on descendants -/

/-- Every block marked for an ancestor has a marked ancestor. -/
def FailureMarksJustified (s : ChainState) : Prop :=
  ∀ x, (s.nStatus x).failedChild = true → ∃ a < x, (s.nStatus a).failedValid = true

/-- A reset of `pindex` finds, for every block marked for an ancestor that is neither an
ancestor nor a descendant of `pindex`, a marked ancestor that is not one of `pindex`. -/
def ResetsLeaveCauses (s : ChainState) : TreeOp → Prop
  | .reset pindex => pindex ∈ s.mapBlockIndex →
      ∀ x, (s.nStatus x).failedChild = true → ¬ x ≤ pindex → ¬ pindex ≤ x →
        ∃ a < x, (s.nStatus a).failedValid = true ∧ ¬ a ≤ pindex
  | _ => True

theorem justified_reset_iff (hk : Known s) :
    FailureMarksJustified (s.resetBlockFailureFlags env p) ↔
      ∀ x, (s.nStatus x).failedChild = true → ¬ x ≤ p → ¬ p ≤ x →
        ∃ a < x, (s.nStatus a).failedValid = true ∧ ¬ a ≤ p := by
  have hjust : FailureMarksJustified (s.resetBlockFailureFlags env p) ↔
      (s.resetBlockFailureFlags env p).marks.Justified := Iff.rfl
  rw [hjust, marks_resetBlockFailureFlags hk, Marks.justified_clear_iff]
  simp only [marks, Marks.line, Set.mem_ofPred_eq, not_or, and_imp]

theorem justified_step (hk : Known s) (hj : FailureMarksJustified s) (hg : ResetsLeaveCauses s op)
    (hs : treeStep env s op = some s') : FailureMarksJustified s' := by
  rcases treeStep_cases hk hs with hev | ⟨p, rfl, hp, rfl⟩
  · exact hev.grows.justified hj
  · exact (justified_reset_iff hk).mpr (hg hp)

/-- In every run whose resets leave causes, the marks on descendants are justified; and a
reset keeps them so exactly under this condition. -/
theorem failureMarks_justified_spec (env : NodeEnv) :
    (∀ s t, Known s → FailureMarksJustified s → Runs (treeStep env) ResetsLeaveCauses s t →
      FailureMarksJustified t) ∧
    (∀ s p, Known s → (FailureMarksJustified (s.resetBlockFailureFlags env p) ↔
      ∀ x, (s.nStatus x).failedChild = true → ¬ x ≤ p → ¬ p ≤ x →
        ∃ a < x, (s.nStatus a).failedValid = true ∧ ¬ a ≤ p)) := by
  constructor
  · intro s t hk hj hruns
    have hboth := Runs.invariant (fun s => Known s ∧ FailureMarksJustified s)
      (fun _ _ _ h hg hstep => ⟨known_treeStep h.1 hstep, justified_step h.1 h.2 hg hstep⟩)
      hruns ⟨hk, hj⟩
    exact hboth.2
  · exact fun s p hk => justified_reset_iff hk

/-- A block with one transaction and the header `regtestHeader prev nNonce` arrives. -/
def regtestBlock (prev nNonce : UInt32) : TreeOp :=
  .block { regtestHeader prev nNonce with vtx := [⟨1, [], [], 0⟩] } regtestNow true
    ⟨.ok (), true⟩

/-- The chain grows to `leftBlock`, `rightBlock` arrives beside it, `firstBlock` is
invalidated, `FindMostWorkChain` meets `rightBlock`, and `leftBlock` is reconsidered. -/
def siblingRun : List TreeOp :=
  [.activate 3 allConnect, regtestBlock 1 2, .activate 3 allConnect, regtestBlock 2 3,
    .activate 3 allConnect, regtestBlock 2 4, .invalidate firstBlock allConnect,
    .activate 3 allConnect, .reset leftBlock]

/-- If `firstBlock` is reconsidered instead, the mark of `rightBlock` goes with its cause. -/
theorem failureMarks_justified_first :
    ∃ s t, Runs (treeStep regtestEnv) ResetsLeaveCauses (initBlockIndex regtestEnv) s ∧
      (s.nStatus rightBlock).failedChild = true ∧ ResetsLeaveCauses s (.reset firstBlock) ∧
      treeStep regtestEnv s (.reset firstBlock) = some t ∧ FailureMarksJustified t := by
  have hrun : ((runList (treeStep regtestEnv) (initBlockIndex regtestEnv) siblingRun.dropLast).any
      fun s => (s.nStatus rightBlock).failedChild && decide (firstBlock ∈ s.mapBlockIndex) &&
        s.mapBlockIndex.all fun x => !(s.nStatus x).failedChild || decide (firstBlock ≤ x)) =
      true := by
    decide +kernel
  obtain ⟨s, hs, htest⟩ := any_eq_true _ _ |>.mp hrun
  simp only [Bool.and_eq_true, decide_eq_true_eq, List.all_eq_true] at htest
  obtain ⟨⟨hright, hmem⟩, hmarks⟩ := htest
  have hunmarked := unmarked_initBlockIndex regtestEnv
  have hruns : Runs (treeStep regtestEnv) ResetsLeaveCauses (initBlockIndex regtestEnv) s := by
    refine runs_of_runList (fun op hop t => ?_) hs
    simp only [siblingRun, List.dropLast, List.mem_cons, List.not_mem_nil, or_false] at hop
    rcases hop with rfl | rfl | rfl | rfl | rfl | rfl | rfl | rfl <;> exact trivial
  have hknown : Known s :=
    hruns.invariant Known (fun _ _ _ h _ hstep => known_treeStep h hstep) hunmarked.known
  -- the marked blocks are all built on the one that is reconsidered
  have hcauses : ResetsLeaveCauses s (.reset firstBlock) := by
    intro _ x hx _ hbelow
    have hin := hmarks x (hknown.marked x (by simp [BlockStatus.failed, hx]))
    simp [hx, hbelow] at hin
  have hstep : treeStep regtestEnv s (.reset firstBlock) =
      some (s.resetBlockFailureFlags regtestEnv firstBlock) := if_pos hmem
  refine ⟨s, _, hruns, hright, hcauses, hstep, ?_⟩
  refine (failureMarks_justified_spec regtestEnv).1 _ _ hunmarked.known (fun x hx => ?_)
    (hruns.tail hcauses hstep)
  have hclean := hunmarked.clean x
  simp [BlockStatus.failed, hx] at hclean

/-- `rightBlock` stays marked although no ancestor of it is. -/
theorem siblingRun_unjustified :
    Unmarked (initBlockIndex regtestEnv) ∧
    ∃ s, runList (treeStep regtestEnv) (initBlockIndex regtestEnv) siblingRun = some s ∧
      (s.nStatus rightBlock).failedChild = true ∧
      ∀ a < rightBlock, (s.nStatus a).failedValid = false := by
  have hrun : ((runList (treeStep regtestEnv) (initBlockIndex regtestEnv) siblingRun).any
      fun s => (s.nStatus rightBlock).failedChild && !(s.nStatus firstBlock).failedValid &&
        !(s.nStatus regtestRoot).failedValid) = true := by
    decide +kernel
  obtain ⟨s, hs, hbad⟩ := any_eq_true _ _ |>.mp hrun
  simp only [Bool.and_eq_true, Bool.not_eq_true'] at hbad
  refine ⟨unmarked_initBlockIndex regtestEnv, s, hs, hbad.1.1, fun a ha => ?_⟩
  rcases le_child_iff.mp (lt_child_iff.mp ha) with rfl | hroot
  · exact hbad.1.2
  · rw [le_root_iff.mp hroot]
    exact hbad.2

end RgmNode
