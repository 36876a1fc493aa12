import RgmNode.BlockTree.State

/-!
# Pruning block files

`FindFilesToPrune`, `FindFilesToPruneManual` and the part of `FlushStateToDisk` that calls
them (`validation.cpp`), and the `pruneblockchain` RPC (`rpc/blockchain.cpp`).  Writing the
block index and unlinking the files are left out: the files removed are those the two
functions collect.

Both functions compute the last block that may go as an `unsigned int`.  The difference wraps
around where the chain is shorter than `MIN_BLOCKS_TO_KEEP`, and on the networks that prune
from height 1000 on nothing stops them there.

* `mem_findFilesToPrune`, `mem_findFilesToPruneManual` — what a file that is removed looked like
-/

namespace RgmNode

open List

/-! ## 1. Block files -/

/-- `BLOCKFILE_CHUNK_SIZE + UNDOFILE_CHUNK_SIZE` -/
def pruneBuffer : UInt64 := 0x1000000 + 0x100000

/-- `nPruneAfterHeight` -/
def Network.pruneAfterHeight : Network → Nat
  | .main => 100000
  | .test => 1000
  | .regtest => 1000

/-- The conversion of an integer to `unsigned int`. -/
def toUnsigned (n : Int) : Nat := (n % 2 ^ 32).toNat

/-- `nTimeMax`, as `AddToBlockIndex` computes it -/
def CBlockIndex.getBlockTimeMax : CBlockIndex → Nat
  | .root d => d.nTime.toNat
  | .child p d => max (CBlockIndex.getBlockTimeMax p) d.nTime.toNat

/-- `FindEarliestAtLeast`; the binary search finds the first entry, for `nTimeMax` never falls
along a chain. -/
def CChain.findEarliestAtLeast (c : CChain) (nTime : Int) : Option CBlockIndex :=
  c.vChain.find? (nTime ≤ ·.getBlockTimeMax)

structure CBlockFileInfo where
  nBlocks : UInt32
  nSize : UInt32
  nUndoSize : UInt32
  nHeightFirst : UInt32
  nHeightLast : UInt32
  nTimeFirst : UInt64
  nTimeLast : UInt64
deriving DecidableEq, Repr

namespace CBlockFileInfo

/-- `SetNull` -/
def null : CBlockFileInfo := ⟨0, 0, 0, 0, 0, 0, 0⟩

/-- What a file and its undo file take; the sum is one of `unsigned int`. -/
def usage (f : CBlockFileInfo) : UInt64 := (f.nSize + f.nUndoSize).toUInt64

end CBlockFileInfo

/-- The block tree with the places of the blocks on disk. -/
structure BlockFiles where
  tree : ChainState
  nFile : CBlockIndex → Nat
  nDataPos : CBlockIndex → UInt32
  nUndoPos : CBlockIndex → UInt32
  vinfoBlockFile : List CBlockFileInfo
  nLastBlockFile : Nat
  fCheckForPruning : Bool
  /-- the height of the tip is an `int` -/
  height_lt : ∀ tip, tree.chainActive.tip = some tip → tip.nHeight < 2 ^ 31
  /-- the last file has its entry -/
  last_lt : nLastBlockFile < vinfoBlockFile.length
  /-- `nHeightLast` bounds the heights of the blocks in a file -/
  bounded : ∀ p ∈ tree.mapBlockIndex, (tree.nStatus p).haveData = true →
    p.nHeight ≤ (vinfoBlockFile.getD (nFile p) .null).nHeightLast.toNat

/-- The options: `fPruneMode`, `nPruneTarget` and `fReindex`. -/
structure PruneOptions where
  fPruneMode : Bool
  nPruneTarget : UInt64
  fReindex : Bool
deriving DecidableEq, Repr

namespace BlockFiles

/-- `vinfoBlockFile[fileNumber]` -/
def info (s : BlockFiles) (fileNumber : Nat) : CBlockFileInfo :=
  s.vinfoBlockFile.getD fileNumber .null

def Holds (s : BlockFiles) (fileNumber : Nat) (p : CBlockIndex) : Prop :=
  p ∈ s.tree.mapBlockIndex ∧ (s.tree.nStatus p).haveData = true ∧ s.nFile p = fileNumber

def calculateCurrentUsage (s : BlockFiles) : UInt64 :=
  s.vinfoBlockFile.foldl (fun retval file => retval + file.usage) 0

/-- The entries `PruneOneBlockFile` changes: it looks at `nFile` only. -/
def inFile (s : BlockFiles) (fileNumber : Nat) (p : CBlockIndex) : Bool :=
  decide (p ∈ s.tree.mapBlockIndex) && s.nFile p == fileNumber

def pruneOneBlockFile (s : BlockFiles) (fileNumber : Nat) : BlockFiles where
  tree :=
    { s.tree with
      nStatus := fun p =>
        if s.inFile fileNumber p then
          { s.tree.nStatus p with haveData := false, haveUndo := false }
        else s.tree.nStatus p
      mapBlocksUnlinked := s.tree.mapBlocksUnlinked.filter fun entry =>
        !(s.inFile fileNumber entry.2 && entry.2.pprev == some entry.1) }
  nFile p := if s.inFile fileNumber p then 0 else s.nFile p
  nDataPos p := if s.inFile fileNumber p then 0 else s.nDataPos p
  nUndoPos p := if s.inFile fileNumber p then 0 else s.nUndoPos p
  vinfoBlockFile := s.vinfoBlockFile.set fileNumber .null
  nLastBlockFile := s.nLastBlockFile
  fCheckForPruning := s.fCheckForPruning
  height_lt := s.height_lt
  last_lt := by
    rw [List.length_set]
    exact s.last_lt
  bounded := by
    intro p hp hdata
    -- a block that still has data is in another file, whose entry is as it was
    cases hin : s.inFile fileNumber p with
    | true => simp [hin] at hdata
    | false =>
      have hne : s.nFile p ≠ fileNumber := by
        intro heq
        simp [inFile, hp, heq] at hin
      simp only [hin, Bool.false_eq_true, if_false] at hdata ⊢
      rw [List.getD_eq_getElem?_getD, List.getElem?_set_ne hne.symm, ← List.getD_eq_getElem?_getD]
      exact s.bounded p hp hdata

theorem info_pruneOneBlockFile {s : BlockFiles} {fileNumber other : Nat}
    (h : other ≠ fileNumber) : (s.pruneOneBlockFile fileNumber).info other = s.info other := by
  simp only [info, pruneOneBlockFile, getD_eq_getElem?_getD, getElem?_set_ne h.symm]

/-! ## 2. Which files go -/

/-- `nLastBlockWeCanPrune` of `FindFilesToPrune` -/
def lastBlockWeCanPrune (s : BlockFiles) : Nat :=
  toUnsigned (s.tree.chainActive.height - minBlocksToKeep)

/-- The file holds something, and nothing above the last block that may go. -/
def MayPrune (nLast : Nat) (f : CBlockFileInfo) : Prop :=
  f.nSize ≠ 0 ∧ f.nHeightLast.toNat ≤ nLast

instance (nLast : Nat) (f : CBlockFileInfo) : Decidable (MayPrune nLast f) :=
  inferInstanceAs (Decidable (_ ∧ _))

/-- The loop of `FindFilesToPruneManual`. -/
def pruneManualLoop (nLast : Nat) : List Nat → BlockFiles → List Nat × BlockFiles
  | [], s => ([], s)
  | fileNumber :: rest, s =>
    if MayPrune nLast (s.info fileNumber) then
      let (setFilesToPrune, s) := pruneManualLoop nLast rest (s.pruneOneBlockFile fileNumber)
      (fileNumber :: setFilesToPrune, s)
    else pruneManualLoop nLast rest s

def findFilesToPruneManual (s : BlockFiles) (nManualPruneHeight : Nat) : List Nat × BlockFiles :=
  match s.tree.chainActive.tip with
  | none => ([], s)
  | some _ =>
    pruneManualLoop (min nManualPruneHeight s.lastBlockWeCanPrune)
      (List.range s.nLastBlockFile) s

/-- The loop of `FindFilesToPrune`: it stops as soon as the target is met. -/
def pruneLoop (nPruneTarget : UInt64) (nLast : Nat) :
    List Nat → UInt64 → BlockFiles → List Nat × BlockFiles
  | [], _, s => ([], s)
  | fileNumber :: rest, nCurrentUsage, s =>
    let nBytesToPrune := (s.info fileNumber).usage
    if (s.info fileNumber).nSize = 0 then pruneLoop nPruneTarget nLast rest nCurrentUsage s
    else if nCurrentUsage + pruneBuffer < nPruneTarget then ([], s)
    else if nLast < (s.info fileNumber).nHeightLast.toNat then
      pruneLoop nPruneTarget nLast rest nCurrentUsage s
    else
      let (setFilesToPrune, s) :=
        pruneLoop nPruneTarget nLast rest (nCurrentUsage - nBytesToPrune)
          (s.pruneOneBlockFile fileNumber)
      (fileNumber :: setFilesToPrune, s)

def findFilesToPrune (nPruneTarget : UInt64) (nPruneAfterHeight : Nat) (s : BlockFiles) :
    List Nat × BlockFiles :=
  match s.tree.chainActive.tip with
  | none => ([], s)
  | some _ =>
    if nPruneTarget = 0 then ([], s)
    else if s.tree.chainActive.height ≤ nPruneAfterHeight then ([], s)
    else if nPruneTarget ≤ s.calculateCurrentUsage + pruneBuffer then
      pruneLoop nPruneTarget s.lastBlockWeCanPrune (List.range s.nLastBlockFile)
        s.calculateCurrentUsage s
    else ([], s)

/-- The part of `FlushStateToDisk` that chooses the files. -/
def flushPrune (net : Network) (opts : PruneOptions) (s : BlockFiles) (nManualPruneHeight : Nat) :
    List Nat × BlockFiles :=
  if opts.fPruneMode && (s.fCheckForPruning || 0 < nManualPruneHeight) && !opts.fReindex then
    if 0 < nManualPruneHeight then s.findFilesToPruneManual nManualPruneHeight
    else
      let (setFilesToPrune, s) := findFilesToPrune opts.nPruneTarget net.pruneAfterHeight s
      (setFilesToPrune, { s with fCheckForPruning := false })
  else ([], s)

/-! ## 3. The RPC -/

/-- `JSONRPCError` -/
inductive RPCError where
  /-- `RPC_MISC_ERROR` -/
  | misc (message : String)
  /-- `RPC_INVALID_PARAMETER` -/
  | invalidParameter (message : String)
deriving DecidableEq, Repr

/-- The height `pruneblockchain` works with: its argument, or the height of the first block
that is not older than a time two hours before it. -/
def pruneHeightParam (s : BlockFiles) (heightParam : Int) : Except RPCError Nat :=
  if heightParam < 0 then .error (.invalidParameter "Negative block height.")
  else if 1000000000 < heightParam then
    match s.tree.chainActive.findEarliestAtLeast (heightParam - 7200) with
    | none =>
      .error (.invalidParameter "Could not find block with at least the specified timestamp.")
    | some pindex => .ok pindex.nHeight
  else .ok heightParam.toNat

/-- `pruneblockchain` for an `int` argument: its result, the files that go and the state
after it.  Where `height` is passed on as an `int` it is at most the height of the tip. -/
def pruneblockchain (net : Network) (opts : PruneOptions) (s : BlockFiles) (heightParam : Int) :
    Except RPCError (Nat × List Nat × BlockFiles) :=
  if !opts.fPruneMode then
    .error (.misc "Cannot prune blocks because node is not in prune mode.")
  else
    match s.pruneHeightParam heightParam with
    | .error e => .error e
    | .ok height =>
      let chainHeight := toUnsigned s.tree.chainActive.height
      if chainHeight < net.pruneAfterHeight then
        .error (.misc "Blockchain is too short for pruning.")
      else if chainHeight < height then
        .error (.invalidParameter "Blockchain is shorter than the attempted prune height.")
      else
        let nLast := toUnsigned (chainHeight - minBlocksToKeep)
        let height := if nLast < height then nLast else height
        .ok (height, s.flushPrune net opts height)

/-! ## 4. What a file that goes looked like -/

variable {s : BlockFiles} {nLast fileNumber : Nat}

theorem mayPrune_cons {f : Nat} {rest : List Nat} (hf : f ∉ rest)
    (h : fileNumber ∈ rest ∧ MayPrune nLast ((s.pruneOneBlockFile f).info fileNumber)) :
    fileNumber ∈ f :: rest ∧ MayPrune nLast (s.info fileNumber) := by
  have hne : fileNumber ≠ f := fun heq => hf (heq ▸ h.1)
  rw [info_pruneOneBlockFile hne] at h
  exact h.imp_left (mem_cons_of_mem _)

/-- A file the manual loop removes may go, by its entry before the loop. -/
theorem mayPrune_of_mem_pruneManualLoop {files : List Nat} (hnodup : files.Nodup)
    (h : fileNumber ∈ (pruneManualLoop nLast files s).1) :
    fileNumber ∈ files ∧ MayPrune nLast (s.info fileNumber) := by
  induction files generalizing s with
  | nil => cases h
  | cons f rest ih =>
    obtain ⟨hf, hrest⟩ := nodup_cons.mp hnodup
    unfold pruneManualLoop at h
    split at h
    · next hmay =>
      rcases mem_cons.mp h with heq | hlater
      · subst heq
        exact ⟨mem_cons_self, hmay⟩
      · exact mayPrune_cons hf (ih hrest hlater)
    · exact (ih hrest h).imp_left (mem_cons_of_mem _)

theorem mayPrune_of_mem_pruneLoop {files : List Nat} {target usage : UInt64}
    (hnodup : files.Nodup) (h : fileNumber ∈ (pruneLoop target nLast files usage s).1) :
    fileNumber ∈ files ∧ MayPrune nLast (s.info fileNumber) := by
  induction files generalizing s usage with
  | nil => cases h
  | cons f rest ih =>
    obtain ⟨hf, hrest⟩ := nodup_cons.mp hnodup
    unfold pruneLoop at h
    split at h
    · exact (ih hrest h).imp_left (mem_cons_of_mem _)
    · next hsize =>
      split at h
      · cases h
      · split at h
        · exact (ih hrest h).imp_left (mem_cons_of_mem _)
        · next hlast =>
          rcases mem_cons.mp h with heq | hlater
          · subst heq
            exact ⟨mem_cons_self, hsize, not_lt.mp hlast⟩
          · exact mayPrune_cons hf (ih hrest hlater)

theorem mem_findFilesToPruneManual {nManualPruneHeight : Nat}
    (h : fileNumber ∈ (s.findFilesToPruneManual nManualPruneHeight).1) :
    MayPrune (min nManualPruneHeight s.lastBlockWeCanPrune) (s.info fileNumber) := by
  unfold findFilesToPruneManual at h
  split at h
  · cases h
  · exact (mayPrune_of_mem_pruneManualLoop nodup_range h).2

theorem mem_findFilesToPrune {target : UInt64} {nPruneAfterHeight : Nat}
    (h : fileNumber ∈ (findFilesToPrune target nPruneAfterHeight s).1) :
    (nPruneAfterHeight : Int) < s.tree.chainActive.height ∧
      MayPrune s.lastBlockWeCanPrune (s.info fileNumber) := by
  unfold findFilesToPrune at h
  split at h
  · cases h
  · split at h
    · cases h
    · split at h
      · cases h
      · next hheight =>
        split at h
        · exact ⟨not_le.mp hheight, (mayPrune_of_mem_pruneLoop nodup_range h).2⟩
        · cases h

/-- The files `pruneblockchain` removes are chosen by one of the two functions. -/
theorem mem_flushPrune {net : Network} {opts : PruneOptions} {nManualPruneHeight : Nat}
    (h : fileNumber ∈ (s.flushPrune net opts nManualPruneHeight).1) :
    MayPrune s.lastBlockWeCanPrune (s.info fileNumber) := by
  unfold flushPrune at h
  split at h
  · split at h
    · obtain ⟨hsize, hle⟩ := mem_findFilesToPruneManual h
      exact ⟨hsize, hle.trans (min_le_right _ _)⟩
    · exact (mem_findFilesToPrune h).2
  · cases h

/-! ## 5. Recent blocks -/

/-- The tip is fewer than `MIN_BLOCKS_TO_KEEP` blocks above the block. -/
def NearTip (s : BlockFiles) (p : CBlockIndex) : Prop :=
  ∃ tip, s.tree.chainActive.tip = some tip ∧ tip.nHeight < p.nHeight + minBlocksToKeep

/-- No recent block is in one of the files. -/
def KeepsRecent (s : BlockFiles) (setFilesToPrune : List Nat) : Prop :=
  ∀ fileNumber ∈ setFilesToPrune, ∀ p, s.Holds fileNumber p → ¬ s.NearTip p

def AtHeight (s : BlockFiles) (nHeight : Nat) : Prop :=
  ∃ tip, s.tree.chainActive.tip = some tip ∧ tip.nHeight = nHeight

/-- Above `MIN_BLOCKS_TO_KEEP` the difference does not wrap around. -/
theorem keepsRecent_of_mayPrune {setFilesToPrune : List Nat} {nHeight : Nat}
    (hheight : s.AtHeight nHeight) (hkeep : minBlocksToKeep ≤ nHeight)
    (h : ∀ f ∈ setFilesToPrune, MayPrune s.lastBlockWeCanPrune (s.info f)) :
    s.KeepsRecent setFilesToPrune := by
  obtain ⟨tip, htip, rfl⟩ := hheight
  have hint := s.height_lt tip htip
  have hlast : s.lastBlockWeCanPrune = tip.nHeight - minBlocksToKeep := by
    rw [lastBlockWeCanPrune, CChain.height_eq_of_tip htip, toUnsigned, Int.emod_eq_of_lt]
    · omega
    · omega
    · omega
  rintro f hf p ⟨hp, hdata, rfl⟩ ⟨tip', htip', hnear⟩
  rw [htip, Option.some.injEq] at htip'
  subst htip'
  have hbound := s.bounded p hp hdata
  have hle := (h _ hf).2
  rw [info] at hle
  omega

/-! ## 6. Short chains -/

def shortLine : Nat → CBlockIndex
  | 0 => .root ⟨0, 1, 0, 0, 0, 0⟩
  | n + 1 => .child (shortLine n) ⟨BitVec.ofNat 256 (n + 1), 1, 0, 0, 0, 0⟩

theorem nHeight_shortLine (n : Nat) : (shortLine n).nHeight = n := by
  induction n with
  | zero => rfl
  | succ n ih => rw [shortLine, CBlockIndex.nHeight_child, ih]

def shortTree (n : Nat) : ChainState where
  mapBlockIndex := [shortLine n]
  nStatus _ := { BlockStatus.null with validity := 5, haveData := true, haveUndo := true }
  nTx _ := 1
  nChainTx p := p.nHeight + 1
  nSequenceId _ := 0
  nBlockSequenceId := 1
  chainActive := CChain.empty.setTip (some (shortLine n))
  setBlockIndexCandidates := [shortLine n]
  mapBlocksUnlinked := []
  gFailedBlocks := []
  pindexBestInvalid := none
  pindexBestHeader := some (shortLine n)

theorem tip_shortTree (n : Nat) : (shortTree n).chainActive.tip = some (shortLine n) :=
  CChain.tip_setTip _ _

/-- A block file that is nearly full, up to this height. -/
def fullFile (n : Nat) : CBlockFileInfo :=
  ⟨100, 0x7ffffff, 0, 0, UInt32.ofNat n, 0, 0⟩

/-- Eighteen full files, the tip in the first one. -/
def shortFiles (n : Nat) (h : n < minBlocksToKeep) : BlockFiles where
  tree := shortTree n
  nFile _ := 0
  nDataPos _ := 0
  nUndoPos _ := 0
  vinfoBlockFile := List.replicate 18 (fullFile n)
  nLastBlockFile := 17
  fCheckForPruning := true
  height_lt := by
    intro tip htip
    rw [tip_shortTree, Option.some.injEq] at htip
    rw [← htip, nHeight_shortLine]
    exact h.trans (by decide)
  last_lt := by simp
  bounded := by
    intro p hp _
    obtain rfl := List.mem_singleton.mp hp
    have hlt : n < 2 ^ 32 := h.trans (by decide)
    rw [nHeight_shortLine]
    simp [fullFile, UInt32.toNat_ofNat_of_lt' hlt]

section Short

variable {n : Nat} (h : n < minBlocksToKeep)

theorem atHeight_shortFiles : (shortFiles n h).AtHeight n :=
  ⟨shortLine n, tip_shortTree n, nHeight_shortLine n⟩

theorem height_shortFiles : (shortFiles n h).tree.chainActive.height = n :=
  (CChain.height_eq_of_tip (tip_shortTree n)).trans (congrArg _ (nHeight_shortLine n))

theorem usage_fullFile : (fullFile n).usage = 0x7ffffff := by
  change ((0x7ffffff : UInt32) + 0).toUInt64 = 0x7ffffff
  decide

theorem usage_shortFiles : (shortFiles n h).calculateCurrentUsage = 18 * 0x7ffffff := by
  simp [calculateCurrentUsage, shortFiles, List.replicate, usage_fullFile]

theorem not_keepsRecent_shortFiles {setFilesToPrune : List Nat} (hmem : 0 ∈ setFilesToPrune) :
    ¬ (shortFiles n h).KeepsRecent setFilesToPrune := by
  intro hkeep
  refine hkeep 0 hmem (shortLine n) ⟨mem_singleton.mpr rfl, rfl, rfl⟩ ?_
  exact ⟨shortLine n, tip_shortTree n, Nat.lt_add_of_pos_right (by decide)⟩

/-- The difference wraps around, and every file may go. -/
theorem height_le_lastBlock_shortFiles : n ≤ (shortFiles n h).lastBlockWeCanPrune := by
  have hkeep : n < 1440 := h
  rw [lastBlockWeCanPrune, height_shortFiles, toUnsigned, minBlocksToKeep]
  omega

theorem mayPrune_shortFiles {nLast : Nat} (hle : n ≤ nLast) :
    MayPrune nLast ((shortFiles n h).info 0) := by
  have hlt : n < 2 ^ 32 := h.trans (by decide)
  refine ⟨show (0x7ffffff : UInt32) ≠ 0 by decide, ?_⟩
  change (UInt32.ofNat n).toNat ≤ nLast
  rwa [UInt32.toNat_ofNat_of_lt' hlt]

theorem mem_findFilesToPrune_shortFiles {nPruneAfterHeight : Nat} (hafter : nPruneAfterHeight < n) :
    0 ∈ (findFilesToPrune (2200 * 1024 * 1024) nPruneAfterHeight (shortFiles n h)).1 := by
  have hheight := height_shortFiles h
  have hlast := mayPrune_shortFiles h (height_le_lastBlock_shortFiles h)
  have htip : (shortFiles n h).tree.chainActive.tip = some (shortLine n) := tip_shortTree n
  unfold findFilesToPrune
  rw [htip]
  rw [if_neg (by decide), if_neg (by omega), usage_shortFiles, if_pos (by decide)]
  -- the first file is looked at first
  change 0 ∈ (pruneLoop _ _ (0 :: _) _ _).1
  unfold pruneLoop
  rw [if_neg hlast.1, if_neg (by decide), if_neg (not_lt.mpr hlast.2)]
  exact mem_cons_self

theorem mem_findFilesToPruneManual_shortFiles :
    0 ∈ ((shortFiles n h).findFilesToPruneManual n).1 := by
  have hlast := mayPrune_shortFiles h
    (le_min (le_refl n) (height_le_lastBlock_shortFiles h))
  have htip : (shortFiles n h).tree.chainActive.tip = some (shortLine n) := tip_shortTree n
  unfold findFilesToPruneManual
  rw [htip]
  change 0 ∈ (pruneManualLoop _ (0 :: _) _).1
  unfold pruneManualLoop
  rw [if_pos hlast]
  exact mem_cons_self

def pruneOptions : PruneOptions := ⟨true, 2200 * 1024 * 1024, false⟩

/-- A chain that is long enough to prune may be pruned up to its own tip. -/
theorem pruneblockchain_shortFiles (net : Network) (hafter : net.pruneAfterHeight ≤ n) :
    ∃ s', pruneblockchain net pruneOptions (shortFiles n h) n =
      .ok (n, ((shortFiles n h).findFilesToPruneManual n).1, s') := by
  have hkeep : n < 1440 := h
  have hpos : 0 < n := lt_of_lt_of_le (by cases net <;> decide) hafter
  have hchain : toUnsigned (shortFiles n h).tree.chainActive.height = n := by
    rw [height_shortFiles, toUnsigned]
    omega
  have hlast : n ≤ toUnsigned (n - minBlocksToKeep) := by
    rw [toUnsigned, minBlocksToKeep]
    omega
  have hparam : (shortFiles n h).pruneHeightParam n = .ok n := by
    rw [pruneHeightParam, if_neg (by omega), if_neg (by omega), Int.toNat_natCast]
  have hflush : (shortFiles n h).flushPrune net pruneOptions n =
      (shortFiles n h).findFilesToPruneManual n := by
    rw [flushPrune, if_pos (by simp [pruneOptions, hpos]), if_pos hpos]
  refine ⟨((shortFiles n h).findFilesToPruneManual n).2, ?_⟩
  unfold pruneblockchain
  rw [if_neg (by decide), hparam]
  dsimp only
  rw [hchain, if_neg (not_lt.mpr hafter), if_neg (lt_irrefl n), if_neg (not_lt.mpr hlast), hflush]

end Short

/-- A chain below the height at which the RPC starts is refused. -/
theorem pruneAfterHeight_le_of_pruneblockchain {net : Network} {opts : PruneOptions}
    {heightParam : Int} {reply : Nat × List Nat × BlockFiles} {nHeight : Nat}
    (hheight : s.AtHeight nHeight) (h : pruneblockchain net opts s heightParam = .ok reply) :
    net.pruneAfterHeight ≤ nHeight ∧
      ∃ height, reply.2 = s.flushPrune net opts height := by
  obtain ⟨tip, htip, rfl⟩ := hheight
  have hint := s.height_lt tip htip
  have hchain : toUnsigned s.tree.chainActive.height = tip.nHeight := by
    rw [CChain.height_eq_of_tip htip, toUnsigned]
    omega
  unfold pruneblockchain at h
  split at h
  · cases h
  · split at h
    · cases h
    · dsimp only at h
      split at h
      · cases h
      · next hafter =>
        rw [hchain] at hafter
        split at h
        · cases h
        · cases h
          exact ⟨not_lt.mp hafter, _, rfl⟩

/-- At a given height no layout of the block files loses a recent block exactly if the chain
is too short to be pruned or at least `MIN_BLOCKS_TO_KEEP` high. -/
theorem keepsRecent_iff (net : Network) (nHeight : Nat) :
    ((∀ (nPruneTarget : UInt64) (s : BlockFiles), s.AtHeight nHeight →
        s.KeepsRecent (findFilesToPrune nPruneTarget net.pruneAfterHeight s).1) ↔
      nHeight ≤ net.pruneAfterHeight ∨ minBlocksToKeep ≤ nHeight) ∧
    ((∀ (opts : PruneOptions) (s : BlockFiles) (heightParam : Int)
        (reply : Nat × List Nat × BlockFiles), s.AtHeight nHeight →
        pruneblockchain net opts s heightParam = .ok reply → s.KeepsRecent reply.2.1) ↔
      nHeight < net.pruneAfterHeight ∨ minBlocksToKeep ≤ nHeight) := by
  refine ⟨⟨fun hall => ?_, fun hcond nPruneTarget s hheight => ?_⟩,
    ⟨fun hall => ?_, fun hcond opts s heightParam reply hheight hreply => ?_⟩⟩
  · by_contra hcond
    obtain ⟨hafter, hkeep⟩ := not_or.mp hcond
    have hshort := not_le.mp hkeep
    exact not_keepsRecent_shortFiles hshort
      (mem_findFilesToPrune_shortFiles hshort (not_le.mp hafter))
      (hall _ _ (atHeight_shortFiles hshort))
  · rcases hcond with hafter | hkeep
    · intro f hf
      obtain ⟨tip, htip, rfl⟩ := hheight
      have hlt := (mem_findFilesToPrune hf).1
      rw [CChain.height_eq_of_tip htip] at hlt
      omega
    · exact keepsRecent_of_mayPrune hheight hkeep fun f hf => (mem_findFilesToPrune hf).2
  · by_contra hcond
    obtain ⟨hafter, hkeep⟩ := not_or.mp hcond
    have hshort := not_le.mp hkeep
    obtain ⟨s', hreply⟩ := pruneblockchain_shortFiles hshort net (not_lt.mp hafter)
    exact not_keepsRecent_shortFiles hshort (mem_findFilesToPruneManual_shortFiles hshort)
      (hall _ _ _ _ (atHeight_shortFiles hshort) hreply)
  · obtain ⟨hafter, height, hflush⟩ := pruneAfterHeight_le_of_pruneblockchain hheight hreply
    rcases hcond with hlt | hkeep
    · omega
    · refine keepsRecent_of_mayPrune hheight hkeep fun f hf => ?_
      rw [hflush] at hf
      exact mem_flushPrune hf

/-- On the test network, at height 1200: both ways to prune remove the file with the tip. -/
theorem pruning_removes_tip :
    (shortFiles 1200 (by decide)).AtHeight 1200 ∧
      (shortFiles 1200 (by decide)).Holds 0 (shortLine 1200) ∧
      (shortFiles 1200 (by decide)).NearTip (shortLine 1200) ∧
      0 ∈ (findFilesToPrune (2200 * 1024 * 1024) Network.test.pruneAfterHeight
        (shortFiles 1200 (by decide))).1 ∧
      ∃ setFilesToPrune s', 0 ∈ setFilesToPrune ∧
        pruneblockchain .test pruneOptions (shortFiles 1200 (by decide)) 1200 =
          .ok (1200, setFilesToPrune, s') := by
  have h : 1200 < minBlocksToKeep := by decide
  obtain ⟨s', hreply⟩ := pruneblockchain_shortFiles h .test (by decide)
  exact ⟨atHeight_shortFiles h, ⟨mem_singleton.mpr rfl, rfl, rfl⟩,
    ⟨shortLine 1200, tip_shortTree 1200, Nat.lt_add_of_pos_right (by decide)⟩,
    mem_findFilesToPrune_shortFiles h (by decide),
    _, s', mem_findFilesToPruneManual_shortFiles h, hreply⟩

end BlockFiles

end RgmNode
