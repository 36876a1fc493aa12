import RgmNode.BlockTree.FailureMarks

/-!
# Blocks that arrive in any order

A block is linked once it and all its ancestors have data.  `ReceivedBlockTransactions` links a
block whose parent is linked and then, from a queue, the blocks that waited for it in
`mapBlocksUnlinked`; a block whose parent is not linked starts to wait.

1. `Linking` — which blocks are linked, queued and waiting; `linking_linkQueue` — the loop
2. `linking_receivedBlockTransactions` — the arrival of a block
3. `Quiet.delivered` — what activating valid blocks leaves alone
4. `blocks_link_in_any_order` — which blocks are linked in every run without invalid blocks
-/

namespace RgmNode

open Lineage Transition List Function BlockStatus Option

namespace ChainState

variable {env : NodeEnv} {s s' : ChainState} {p q x : CBlockIndex} {queue : List CBlockIndex}

/-! ## 1. The loop -/

/-- The transactions of the blocks from the root to a block. -/
def lineTx (s : ChainState) : CBlockIndex → Nat
  | .root d => s.nTx (.root d)
  | .child p d => s.lineTx p + s.nTx (.child p d)

theorem lineTx_congr (h : ∀ q ≤ x, s'.nTx q = s.nTx q) : s'.lineTx x = s.lineTx x := by
  induction x with
  | root d => exact h _ (le_refl _)
  | child p d ih =>
    rw [lineTx, lineTx, h _ (le_refl _), ih fun q hq => h q (le_child_iff.mpr (.inr hq))]

/-- The linked blocks are those with a count: they and their parents have data.  Of the others
with data those whose parent is linked are in the queue, the rest wait for their parent. -/
structure Linking (s : ChainState) (queue : List CBlockIndex) : Prop where
  counted : ∀ p, s.nTx p ≠ 0 ↔ (s.nStatus p).haveData = true
  data : ∀ p, s.nChainTx p ≠ 0 → (s.nStatus p).haveData = true
  parent : ∀ p q, s.nChainTx p ≠ 0 → p.pprev = some q → s.nChainTx q ≠ 0
  total : ∀ p, s.nChainTx p ≠ 0 → s.nChainTx p = s.lineTx p
  queued : ∀ p, p ∈ queue ↔ (s.nStatus p).haveData = true ∧ s.nChainTx p = 0 ∧
    ∀ q, p.pprev = some q → s.nChainTx q ≠ 0
  nodup : queue.Nodup
  waits : ∀ q p, (q, p) ∈ s.mapBlocksUnlinked ↔
    p.pprev = some q ∧ (s.nStatus p).haveData = true ∧ s.nChainTx q = 0
  waitsOnce : s.mapBlocksUnlinked.Nodup
  candidates : ∀ p ∈ s.setBlockIndexCandidates, s.nChainTx p ≠ 0

/-- The sequence ids of the linked blocks are below the next one, distinct, and grow from parent to
child. -/
structure Sequenced (s : ChainState) : Prop where
  unlinked : ∀ p, s.nChainTx p = 0 → s.nSequenceId p = 0
  below : ∀ p, s.nChainTx p ≠ 0 → s.nSequenceId p < s.nBlockSequenceId
  parent : ∀ p q, s.nChainTx p ≠ 0 → p.pprev = some q → s.nSequenceId q < s.nSequenceId p
  distinct : ∀ p q, s.nChainTx p ≠ 0 → s.nChainTx q ≠ 0 → s.nSequenceId p = s.nSequenceId q → p = q

theorem Sequenced.congr (h : Sequenced s) (hcount : s'.nChainTx = s.nChainTx)
    (hids : s'.nSequenceId = s.nSequenceId) (hnext : s'.nBlockSequenceId = s.nBlockSequenceId) :
    Sequenced s' where
  unlinked := by rw [hcount, hids]; exact h.unlinked
  below := by rw [hcount, hids, hnext]; exact h.below
  parent := by rw [hcount, hids]; exact h.parent
  distinct := by rw [hcount, hids]; exact h.distinct

/-- The count of the parent, which is zero above the root. -/
def prevChainTx (s : ChainState) (p : CBlockIndex) : Nat :=
  match p.pprev with
  | some q => s.nChainTx q
  | none => 0

theorem linkBlock_eq (env : NodeEnv) (s : ChainState) (x : CBlockIndex) :
    ∃ candidates, (∀ p ∈ candidates, p = x ∨ p ∈ s.setBlockIndexCandidates) ∧
    s.linkBlock env x = { s with
      nChainTx := update s.nChainTx x (s.prevChainTx x + s.nTx x)
      nSequenceId := update s.nSequenceId x s.nBlockSequenceId
      nBlockSequenceId := s.nBlockSequenceId + 1
      setBlockIndexCandidates := candidates } := by
  simp only [linkBlock]
  split
  · exact ⟨s.setBlockIndexCandidates.insert x, fun p hp => mem_insert_iff.mp hp, rfl⟩
  · exact ⟨s.setBlockIndexCandidates, fun p hp => .inr hp, rfl⟩

/-- The blocks that wait for `x`. -/
def waiting (s : ChainState) (x : CBlockIndex) : List CBlockIndex :=
  (s.mapBlocksUnlinked.filter (·.1 = x)).map (·.2)

theorem mem_waiting : p ∈ s.waiting x ↔ (x, p) ∈ s.mapBlocksUnlinked := by
  simp [waiting]

theorem takeUnlinked_linkBlock (env : NodeEnv) (s : ChainState) (x : CBlockIndex) :
    ((s.linkBlock env x).takeUnlinked x).2 = s.waiting x := by
  obtain ⟨candidates, -, hlink⟩ := linkBlock_eq env s x
  rw [hlink]
  rfl

/-- What a round does: `x` is linked and gets the next sequence id, and nobody waits for it. -/
structure LinkRound (s : ChainState) (x : CBlockIndex) (s' : ChainState) : Prop where
  nTx : s'.nTx = s.nTx
  nStatus : s'.nStatus = s.nStatus
  self : s'.nChainTx x = s.prevChainTx x + s.nTx x
  other : ∀ y, y ≠ x → s'.nChainTx y = s.nChainTx y
  waits : s'.mapBlocksUnlinked = s.mapBlocksUnlinked.filter (·.1 ≠ x)
  candidates : ∀ p ∈ s'.setBlockIndexCandidates, p = x ∨ p ∈ s.setBlockIndexCandidates
  seqSelf : s'.nSequenceId x = s.nBlockSequenceId
  seqOther : ∀ y, y ≠ x → s'.nSequenceId y = s.nSequenceId y
  next : s'.nBlockSequenceId = s.nBlockSequenceId + 1

theorem linkRound_linkBlock (env : NodeEnv) (s : ChainState) (x : CBlockIndex) :
    LinkRound s x ((s.linkBlock env x).takeUnlinked x).1 := by
  obtain ⟨candidates, hcandidates, hlink⟩ := linkBlock_eq env s x
  rw [hlink]
  exact ⟨rfl, rfl, update_self .., fun y hy => update_of_ne hy .., rfl,
    hcandidates, update_self .., fun y hy => update_of_ne hy .., rfl⟩

section Round

variable (h : Linking s (x :: queue)) (hr : LinkRound s x s')

include h

theorem Linking.head : (s.nStatus x).haveData = true ∧ s.nChainTx x = 0 ∧
    ∀ q, x.pprev = some q → s.nChainTx q ≠ 0 :=
  (h.queued x).mp mem_cons_self

include hr

theorem LinkRound.self_ne_zero : s'.nChainTx x ≠ 0 := by
  intro hzero
  rw [hr.self] at hzero
  exact (h.counted x).mpr h.head.1 (Nat.add_eq_zero_iff.mp hzero).2

theorem LinkRound.linked (hp : s.nChainTx p ≠ 0) : s'.nChainTx p = s.nChainTx p :=
  hr.other p fun heq => hp (heq ▸ h.head.2.1)

/-- A block that is not linked after the round was not linked before. -/
theorem LinkRound.eq_zero_iff : s'.nChainTx p = 0 ↔ p ≠ x ∧ s.nChainTx p = 0 := by
  constructor
  · intro hzero
    have hne : p ≠ x := fun heq => hr.self_ne_zero h (heq ▸ hzero)
    exact ⟨hne, (hr.other p hne) ▸ hzero⟩
  · rintro ⟨hne, hzero⟩
    rw [hr.other p hne, hzero]

theorem LinkRound.total (hp : s'.nChainTx p ≠ 0) : s'.nChainTx p = s'.lineTx p := by
  rw [lineTx_congr fun q _ => congrFun hr.nTx q]
  by_cases heq : p = x
  · subst heq
    obtain ⟨-, -, hparent⟩ := h.head
    rw [hr.self]
    cases p with
    | root d => exact zero_add _
    | child q d => exact congrArg (· + s.nTx (.child q d)) (h.total q (hparent q rfl))
  · rw [hr.other p heq] at hp ⊢
    exact h.total p hp

/-- The blocks that waited for `x` are queued behind the others. -/
theorem LinkRound.queued_waiting (hp : p ∈ s.waiting x) :
    (s.nStatus p).haveData = true ∧ s.nChainTx p = 0 ∧ p.pprev = some x ∧ p ≠ x := by
  obtain ⟨-, hzero, hparent⟩ := h.head
  obtain ⟨hprev, hdata, -⟩ := (h.waits x p).mp (mem_waiting.mp hp)
  refine ⟨hdata, ?_, hprev, ?_⟩
  · by_contra hlinked
    exact h.parent p x hlinked hprev hzero
  · rintro rfl
    exact hparent p hprev hzero

theorem linking_round : Linking s' (queue ++ s.waiting x) where
  counted := by
    rw [hr.nTx, hr.nStatus]
    exact h.counted
  data p hp := by
    rw [hr.nStatus]
    by_cases heq : p = x
    · exact heq ▸ h.head.1
    · exact h.data p (hr.other p heq ▸ hp)
  parent p q hp hq := by
    have hlinked : s.nChainTx q ≠ 0 := by
      by_cases heq : p = x
      · exact h.head.2.2 q (heq ▸ hq)
      · exact h.parent p q (hr.other p heq ▸ hp) hq
    rwa [hr.linked h hlinked]
  total p hp := hr.total h hp
  queued p := by
    rw [hr.nStatus, hr.eq_zero_iff h, mem_append]
    constructor
    · rintro (hp | hp)
      · obtain ⟨hdata, hzero, hparent⟩ := (h.queued p).mp (mem_cons_of_mem _ hp)
        have hne : p ≠ x := fun heq => (nodup_cons.mp h.nodup).1 (heq ▸ hp)
        refine ⟨hdata, ⟨hne, hzero⟩, fun q hq => ?_⟩
        rw [hr.linked h (hparent q hq)]
        exact hparent q hq
      · obtain ⟨hdata, hzero, hprev, hne⟩ := hr.queued_waiting h hp
        refine ⟨hdata, ⟨hne, hzero⟩, fun q hq => ?_⟩
        cases hprev.symm.trans hq
        exact hr.self_ne_zero h
    · rintro ⟨hdata, ⟨hne, hzero⟩, hparent⟩
      by_cases hold : ∀ q, p.pprev = some q → s.nChainTx q ≠ 0
      · exact .inl ((mem_cons.mp ((h.queued p).mpr ⟨hdata, hzero, hold⟩)).resolve_left hne)
      · push Not at hold
        obtain ⟨q, hq, hqzero⟩ := hold
        obtain rfl : q = x := by
          by_contra hother
          exact hparent q hq ((hr.eq_zero_iff h).mpr ⟨hother, hqzero⟩)
        exact .inr (mem_waiting.mpr ((h.waits q p).mpr ⟨hq, hdata, hqzero⟩))
  nodup := by
    refine nodup_append'.mpr ⟨(nodup_cons.mp h.nodup).2, ?_, ?_⟩
    · refine (h.waitsOnce.filter _).map_on ?_
      intro a ha b hb heq
      have hkey : a.1 = b.1 := by
        have hax : a.1 = x := by simpa using (mem_filter.mp ha).2
        have hbx : b.1 = x := by simpa using (mem_filter.mp hb).2
        rw [hax, hbx]
      exact Prod.ext hkey heq
    · -- the parent of a queued block is linked, that of a waiting one is not
      intro p hp hwait
      obtain ⟨-, hzero, -⟩ := h.head
      obtain ⟨-, -, hprev, -⟩ := hr.queued_waiting h hwait
      exact ((h.queued p).mp (mem_cons_of_mem _ hp)).2.2 x hprev hzero
  waits q p := by
    rw [hr.waits, hr.nStatus, hr.eq_zero_iff h, mem_filter, h.waits q p, decide_eq_true_eq]
    exact ⟨fun ⟨⟨hq, hdata, hzero⟩, hne⟩ => ⟨hq, hdata, hne, hzero⟩,
      fun ⟨hq, hdata, hne, hzero⟩ => ⟨⟨hq, hdata, hzero⟩, hne⟩⟩
  waitsOnce := by
    rw [hr.waits]
    exact h.waitsOnce.filter _
  candidates p hp := by
    rcases hr.candidates p hp with rfl | hp
    · exact hr.self_ne_zero h
    · rw [hr.linked h (h.candidates p hp)]
      exact h.candidates p hp

theorem sequenced_round (hseq : Sequenced s) : Sequenced s' where
  unlinked p hp := by
    obtain ⟨hne, hzero⟩ := (hr.eq_zero_iff h).mp hp
    rw [hr.seqOther p hne]
    exact hseq.unlinked p hzero
  below p hp := by
    rw [hr.next]
    by_cases heq : p = x
    · rw [heq, hr.seqSelf]
      exact Int.lt_succ _
    · rw [hr.seqOther p heq]
      exact (hseq.below p (hr.other p heq ▸ hp)).trans (Int.lt_succ _)
  parent p q hp hq := by
    obtain ⟨-, hzero, hparent⟩ := h.head
    by_cases heq : p = x
    · -- the parent of the new block has an older id
      subst heq
      have hlinked := hparent q hq
      have hne : q ≠ p := fun heq => hlinked (heq ▸ hzero)
      rw [hr.seqSelf, hr.seqOther q hne]
      exact hseq.below q hlinked
    · have hlinked := h.parent p q (hr.other p heq ▸ hp) hq
      have hne : q ≠ x := fun heq => hlinked (heq ▸ hzero)
      rw [hr.seqOther p heq, hr.seqOther q hne]
      exact hseq.parent p q (hr.other p heq ▸ hp) hq
  distinct p q hp hq hsame := by
    have hold : ∀ {y}, y ≠ x → s'.nChainTx y ≠ 0 → s'.nSequenceId y < s.nBlockSequenceId := by
      intro y hy hlinked
      rw [hr.seqOther y hy]
      exact hseq.below y (hr.other y hy ▸ hlinked)
    by_cases hpx : p = x
    · by_cases hqx : q = x
      · exact hpx.trans hqx.symm
      · rw [hpx, hr.seqSelf] at hsame
        exact absurd hsame (hold hqx hq).ne'
    · by_cases hqx : q = x
      · rw [hqx, hr.seqSelf] at hsame
        exact absurd hsame (hold hpx hp).ne
      · rw [hr.seqOther p hpx, hr.seqOther q hqx] at hsame
        exact hseq.distinct p q (hr.other p hpx ▸ hp) (hr.other q hqx ▸ hq) hsame

end Round

/-- The loop ends with an empty queue: a block enters it once, when it stops to wait. -/
theorem linking_linkQueue (rounds : Nat) (h : Linking s queue) (hseq : Sequenced s)
    (hrounds : queue.length + s.mapBlocksUnlinked.length ≤ rounds) :
    Linking (linkQueue env rounds queue s) [] ∧ Sequenced (linkQueue env rounds queue s) := by
  induction rounds generalizing s queue with
  | zero =>
    obtain rfl : queue = [] := eq_nil_of_length_eq_zero (by omega)
    exact ⟨h, hseq⟩
  | succ n ih =>
    cases queue with
    | nil => exact ⟨h, hseq⟩
    | cons x queue =>
      have hr := linkRound_linkBlock env s x
      rw [linkQueue, takeUnlinked_linkBlock]
      refine ih (linking_round h hr) (sequenced_round h hr hseq) ?_
      rw [hr.waits, waiting, length_append, length_map]
      have hsplit := length_eq_length_filter_add (l := s.mapBlocksUnlinked)
        (·.1 = x)
      simp only [length_cons, ne_eq, decide_not] at hrounds hsplit ⊢
      omega

/-! ## 2. Arrivals -/

/-- The parent of every linked block is linked, so all its ancestors are. -/
theorem Linking.linked_of_le (h : Linking s queue) (hx : s.nChainTx x ≠ 0) (hq : q ≤ x) :
    s.nChainTx q ≠ 0 := by
  induction x with
  | root d => exact le_root_iff.mp hq ▸ hx
  | child p d ih =>
    rcases le_child_iff.mp hq with rfl | hq
    · exact hx
    · exact ih (h.parent (.child p d) p hx rfl) hq

section Record

variable {nTx : Nat} (h : Linking s []) (hdata : (s.nStatus p).haveData = false) (hpos : 0 < nTx)

theorem haveData_recordData :
    ((s.recordData env nTx p).nStatus q).haveData = true ↔
      q = p ∨ (s.nStatus q).haveData = true := by
  by_cases heq : q = p
  · subst heq
    simp [recordData, modifyStatus]
  · simp [recordData, modifyStatus, heq]

include h hdata

theorem Linking.not_linked : s.nChainTx p = 0 := by
  by_contra hlinked
  rw [h.data p hlinked] at hdata
  cases hdata

theorem nChainTx_recordData : (s.recordData env nTx p).nChainTx = s.nChainTx := by
  refine funext fun q => ?_
  by_cases heq : q = p
  · rw [heq, h.not_linked hdata]
    exact update_self ..
  · exact update_of_ne heq ..

include hpos

/-- The state after the data of `p` has been recorded, with `p` in the queue or among the waiting
blocks. -/
theorem linking_recordData {unlinked : List (CBlockIndex × CBlockIndex)} {queue : List CBlockIndex}
    (hqueue : ∀ y, y ∈ queue ↔ y = p ∧ ∀ q, p.pprev = some q → s.nChainTx q ≠ 0)
    (hnodup : queue.Nodup)
    (hunlinked : ∀ e, e ∈ unlinked ↔ e ∈ s.mapBlocksUnlinked ∨
      (e.2 = p ∧ p.pprev = some e.1 ∧ s.nChainTx e.1 = 0))
    (honce : unlinked.Nodup) :
    Linking { s.recordData env nTx p with mapBlocksUnlinked := unlinked } queue where
  counted q := by
    show update s.nTx p nTx q ≠ 0 ↔ ((s.recordData env nTx p).nStatus q).haveData = true
    rw [haveData_recordData]
    by_cases heq : q = p
    · rw [heq, update_self]
      exact ⟨fun _ => .inl rfl, fun _ => hpos.ne'⟩
    · rw [update_of_ne heq, h.counted q]
      exact ⟨.inr, fun hq => hq.resolve_left heq⟩
  data q hq := by
    rw [nChainTx_recordData h hdata] at hq
    exact haveData_recordData.mpr (.inr (h.data q hq))
  parent q r hq hr := by
    rw [nChainTx_recordData h hdata] at hq ⊢
    exact h.parent q r hq hr
  total q hq := by
    rw [nChainTx_recordData h hdata] at hq ⊢
    rw [h.total q hq]
    refine (lineTx_congr fun r hr => update_of_ne ?_ ..).symm
    rintro rfl
    exact h.linked_of_le hq hr (h.not_linked hdata)
  queued q := by
    rw [nChainTx_recordData h hdata, haveData_recordData, hqueue]
    constructor
    · rintro ⟨rfl, hparent⟩
      exact ⟨.inl rfl, h.not_linked hdata, hparent⟩
    · rintro ⟨rfl | hq, hzero, hparent⟩
      · exact ⟨rfl, hparent⟩
      · cases (h.queued q).mpr ⟨hq, hzero, hparent⟩
  nodup := hnodup
  waits r q := by
    rw [nChainTx_recordData h hdata, haveData_recordData]
    refine (hunlinked (r, q)).trans ?_
    rw [h.waits r q]
    constructor
    · rintro (⟨hr, hq, hzero⟩ | ⟨rfl, hr, hzero⟩)
      · exact ⟨hr, .inr hq, hzero⟩
      · exact ⟨hr, .inl rfl, hzero⟩
    · rintro ⟨hr, rfl | hq, hzero⟩
      · exact .inr ⟨rfl, hr, hzero⟩
      · exact .inl ⟨hr, hq, hzero⟩
  waitsOnce := honce
  candidates q hq := by
    rw [nChainTx_recordData h hdata]
    exact h.candidates q hq

end Record

theorem linkQueue_frame (env : NodeEnv) (rounds : Nat) (queue : List CBlockIndex) (s : ChainState) :
    (linkQueue env rounds queue s).nStatus = s.nStatus ∧
      (linkQueue env rounds queue s).mapBlockIndex = s.mapBlockIndex ∧
      (linkQueue env rounds queue s).nTx = s.nTx := by
  induction rounds generalizing s queue with
  | zero => exact ⟨rfl, rfl, rfl⟩
  | succ n ih =>
    cases queue with
    | nil => exact ⟨rfl, rfl, rfl⟩
    | cons x queue =>
      obtain ⟨candidates, -, hlink⟩ := linkBlock_eq env s x
      obtain ⟨hstatus, hmap, hcount⟩ := ih (queue ++ ((s.linkBlock env x).takeUnlinked x).2)
        ((s.linkBlock env x).takeUnlinked x).1
      rw [linkQueue, hstatus, hmap, hcount, hlink]
      exact ⟨rfl, rfl, rfl⟩

theorem receivedBlockTransactions_frame (env : NodeEnv) (s : ChainState) (nTx : Nat)
    (p : CBlockIndex) :
    (s.receivedBlockTransactions env nTx p).nStatus = (s.recordData env nTx p).nStatus ∧
      (s.receivedBlockTransactions env nTx p).mapBlockIndex = s.mapBlockIndex ∧
      (s.receivedBlockTransactions env nTx p).nTx = update s.nTx p nTx := by
  simp only [receivedBlockTransactions]
  split
  · exact linkQueue_frame env _ _ _
  split
  · exact linkQueue_frame env _ _ _
  split <;> exact ⟨rfl, rfl, rfl⟩

/-- The data of a block arrives: the block is linked, with what waited for it, or waits. -/
theorem linking_receivedBlockTransactions {nTx : Nat} (h : Linking s []) (hseq : Sequenced s)
    (hdata : (s.nStatus p).haveData = false) (hpos : 0 < nTx)
    (hvalid : ∀ q, p.pprev = some q →
      ((s.recordData env nTx p).nStatus q).isValid blockValidTree = true) :
    Linking (s.receivedBlockTransactions env nTx p) [] ∧
      Sequenced (s.receivedBlockTransactions env nTx p) := by
  have hseq' : Sequenced (s.recordData env nTx p) :=
    hseq.congr (nChainTx_recordData h hdata) rfl rfl
  -- the parent is linked, or there is none
  have hlink : (∀ q, p.pprev = some q → s.nChainTx q ≠ 0) →
      Linking (linkQueue env ((s.recordData env nTx p).mapBlocksUnlinked.length + 1) [p]
          (s.recordData env nTx p)) [] ∧
        Sequenced (linkQueue env ((s.recordData env nTx p).mapBlocksUnlinked.length + 1) [p]
          (s.recordData env nTx p)) := by
    intro hparent
    refine linking_linkQueue _ ?_ hseq' (add_comm _ _).le
    refine linking_recordData h hdata hpos (fun y => ?_) (nodup_singleton p) (fun e => ?_)
      h.waitsOnce
    · rw [mem_singleton]
      exact ⟨fun hy => ⟨hy, hparent⟩, And.left⟩
    · refine ⟨.inl, ?_⟩
      rintro (he | ⟨-, hprev, hzero⟩)
      · exact he
      · exact absurd hzero (hparent e.1 hprev)
  simp only [receivedBlockTransactions]
  split
  · next hroot =>
    refine hlink fun q hq => ?_
    rw [hroot] at hq
    cases hq
  next q hprev =>
  split
  · next hlinked =>
    refine hlink fun r hr => ?_
    rw [hprev] at hr
    rw [nChainTx_recordData h hdata] at hlinked
    exact some.inj hr ▸ hlinked
  next hunlinked =>
  rw [nChainTx_recordData h hdata] at hunlinked
  rw [if_pos (hvalid q hprev)]
  have hzero : s.nChainTx q = 0 := not_not.mp hunlinked
  have hnew : (q, p) ∉ s.mapBlocksUnlinked := by
    intro hmem
    have hp := ((h.waits q p).mp hmem).2.1
    rw [hdata] at hp
    cases hp
  refine ⟨linking_recordData h hdata hpos (fun y => ?_) nodup_nil (fun e => ?_) ?_,
    hseq'.congr rfl rfl rfl⟩
  · refine ⟨fun hy => (by cases hy), ?_⟩
    rintro ⟨-, hparent⟩
    exact absurd hzero (hparent q hprev)
  · refine mem_append.trans (or_congr_right ?_)
    rw [mem_singleton]
    constructor
    · rintro rfl
      exact ⟨rfl, hprev, hzero⟩
    · rintro ⟨rfl, hr, -⟩
      exact Prod.ext (some.inj (hr.symm.trans hprev)) rfl
  · refine nodup_append'.mpr ⟨h.waitsOnce, nodup_singleton _, ?_⟩
    intro e he hlast
    exact hnew (mem_singleton.mp hlast ▸ he)

/-- A block of `bodies` with `n` transactions belongs to the entry `p`; the genesis block, which is
not delivered, has one. -/
def Carried (env : NodeEnv) (bodies : Set CBlock) (p : CBlockIndex) (n : Nat) : Prop :=
  (p.getBlockHash = (genesisHeader env).getHash env.cr ∧ n = 1) ∨
    ∃ block ∈ bodies, block.getHash env.cr = p.getBlockHash ∧ block.vtx.length = n

/-- The state between two arrivals, as long as no block is invalid and the blocks that arrive are
among `bodies`. -/
structure Delivered (env : NodeEnv) (bodies : Set CBlock) (s : ChainState) : Prop where
  known : Known s
  clean : ∀ p, (s.nStatus p).failed = false
  tree : ∀ p ∈ s.mapBlockIndex, BlockStatus.blockValidTree ≤ (s.nStatus p).validity
  filed : ∀ p, (s.nStatus p).haveData = true → p ∈ s.mapBlockIndex
  carried : ∀ p, (s.nStatus p).haveData = true → Carried env bodies p (s.nTx p)
  linking : Linking s []
  sequenced : Sequenced s

theorem le_validity_recordData (env : NodeEnv) (s : ChainState) (nTx : Nat) (p q : CBlockIndex) :
    (s.nStatus q).validity ≤ ((s.recordData env nTx p).nStatus q).validity := by
  by_cases heq : q = p
  · rw [heq]
    simp only [recordData, modifyStatus, update_self]
    exact le_validity_raiseValidity { s.nStatus p with haveData := true, optWitness := _ } _
  · simp [recordData, modifyStatus, heq]

variable {bodies : Set CBlock}

theorem delivered_receivedBlockTransactions {nTx : Nat} (h : Delivered env bodies s)
    (hp : p ∈ s.mapBlockIndex) (hdata : (s.nStatus p).haveData = false) (hpos : 0 < nTx)
    (hbody : Carried env bodies p nTx) :
    Delivered env bodies (s.receivedBlockTransactions env nTx p) := by
  obtain ⟨hstatus, hmap, hcount⟩ := receivedBlockTransactions_frame env s nTx p
  have hreceived : Evolves False s (s.receivedBlockTransactions env nTx p) :=
    evolves_receivedBlockTransactions h.known nTx hp
  have hclean : ∀ q, ((s.recordData env nTx p).nStatus q).failed = false := fun q =>
    (failed_eq_of_marks (marks_recordData nTx) q).trans (h.clean q)
  have hvalid : ∀ q ∈ s.mapBlockIndex,
      blockValidTree ≤ ((s.recordData env nTx p).nStatus q).validity := fun q hq =>
    (h.tree q hq).trans (le_validity_recordData env s nTx p q)
  have hparent : ∀ q, p.pprev = some q →
      ((s.recordData env nTx p).nStatus q).isValid blockValidTree = true := by
    intro q hq
    have hmem : q ∈ s.mapBlockIndex := h.known.closed p hp q (parent?_lt hq).le
    simp [isValid, hclean q, hvalid q hmem]
  obtain ⟨hlinking, hsequenced⟩ :=
    linking_receivedBlockTransactions h.linking h.sequenced hdata hpos hparent
  refine ⟨hreceived.known, fun q => hstatus ▸ hclean q, fun q hq => ?_, fun q hq => ?_,
    fun q hq => ?_, hlinking, hsequenced⟩
  · rw [hstatus]
    exact hvalid q (hmap ▸ hq)
  · rw [hstatus, haveData_recordData] at hq
    rw [hmap]
    rcases hq with rfl | hq
    · exact hp
    · exact h.filed q hq
  · rw [hstatus, haveData_recordData] at hq
    rw [hcount]
    by_cases heq : q = p
    · rw [heq, update_self]
      exact hbody
    · rw [update_of_ne heq]
      exact h.carried q (hq.resolve_left heq)

/-! ## 3. What leaves the links alone -/

theorem Quiet.delivered (hq : Quiet s s') (hknown : Known s') (h : Delivered env bodies s) :
    Delivered env bodies s' where
  known := hknown
  clean p := (hq.failed p).trans (h.clean p)
  tree p hp := by
    rcases hq.tree p hp with htree | ⟨hmem, hle⟩
    · exact htree
    · exact (h.tree p hmem).trans hle
  filed p hp := hq.map p (h.filed p (hq.data p ▸ hp))
  carried p hp := by
    rw [hq.nTx]
    exact h.carried p (hq.data p ▸ hp)
  linking :=
    { counted := fun p => by rw [hq.nTx, hq.data]; exact h.linking.counted p
      data := fun p hp => by rw [hq.data]; exact h.linking.data p (hq.nChainTx ▸ hp)
      parent := by rw [hq.nChainTx]; exact h.linking.parent
      total := fun p hp => by
        rw [lineTx_congr fun q _ => congrFun hq.nTx q, hq.nChainTx]
        exact h.linking.total p (hq.nChainTx ▸ hp)
      queued := fun p => by rw [hq.data, hq.nChainTx]; exact h.linking.queued p
      nodup := nodup_nil
      waits := fun q p => by rw [hq.waits, hq.data, hq.nChainTx]; exact h.linking.waits q p
      waitsOnce := hq.waits ▸ h.linking.waitsOnce
      candidates := fun p hp => by
        rw [hq.nChainTx]
        exact h.linking.candidates p (hq.candidates p hp) }
  sequenced := h.sequenced.congr hq.nChainTx hq.nSequenceId hq.next

theorem quiet_addToBlockIndex (h : Delivered env bodies s) (block : CBlockHeader) :
    Quiet s (s.addToBlockIndex env block).1 := by
  unfold addToBlockIndex
  split
  · exact .refl s
  next hfind =>
  -- whatever the parent is, the entry is not in the map, so it has no data and no count
  suffices hnew : ∀ p, p ∉ s.mapBlockIndex → ∀ best, Quiet s { s with
      mapBlockIndex := p :: s.mapBlockIndex
      nStatus := update s.nStatus p
        (null.raiseValidity blockValidTree)
      nTx := update s.nTx p 0
      nChainTx := update s.nChainTx p 0
      nSequenceId := update s.nSequenceId p 0
      pindexBestHeader := best } by
    refine hnew _ (notMem_of_find_eq_none hfind ?_) _
    split <;> rfl
  intro p hp best
  have hdata : (s.nStatus p).haveData = false := by
    by_contra hdata
    exact hp (h.filed p (eq_true_of_ne_false hdata))
  have hzero : s.nChainTx p = 0 := h.linking.not_linked hdata
  have htx : s.nTx p = 0 := by
    by_contra hcount
    rw [(h.linking.counted p).mp hcount] at hdata
    cases hdata
  refine ⟨?_, fun q => ?_, fun q => ?_, ?_, ?_, rfl, rfl, fun _ hq => hq,
    fun q hq => mem_cons_of_mem _ hq, fun q hq => ?_⟩
  · exact update_eq_self_iff.mpr htx.symm
  · show (update s.nStatus p _ q).haveData = _
    rw [update_apply]
    split
    · next heq => rw [heq, hdata]; rfl
    · rfl
  · show (update s.nStatus p _ q).failed = _
    rw [update_apply]
    split
    · next heq => rw [heq, h.clean p]; rfl
    · rfl
  · exact update_eq_self_iff.mpr hzero.symm
  · exact update_eq_self_iff.mpr (h.sequenced.unlinked p hzero).symm
  · show _ ≤ (update s.nStatus p _ q).validity ∨
      (q ∈ s.mapBlockIndex ∧ _ ≤ (update s.nStatus p _ q).validity)
    rw [update_apply]
    split
    · exact .inl (by decide)
    · next hne => exact .inr ⟨(mem_cons.mp hq).resolve_left hne, le_refl _⟩

section Activate

variable {o : Oracle}

/-- The blocks on the way from a linked candidate to the active chain can all be connected. -/
theorem firstUnusable_eq_none (h : Delivered env bodies s) (hx : s.nChainTx x ≠ 0) :
    s.firstUnusable x = some none := by
  induction x with
  | root d =>
    have hdata := h.linking.data _ hx
    simp [firstUnusable, h.clean, hdata]
  | child p d ih =>
    have hdata := h.linking.data _ hx
    have hparent := ih (h.linking.parent _ p hx rfl)
    simp [firstUnusable, h.clean, hdata, hx, hparent]

theorem findMostWorkChain_eq (h : Delivered env bodies s) {rounds : Nat} {r : Option CBlockIndex}
    (hs : findMostWorkChain env rounds s = some (s', r)) : s' = s := by
  cases rounds with
  | zero => cases hs
  | succ n =>
    rw [findMostWorkChain] at hs
    split at hs
    · exact (Prod.mk.inj (some.inj hs)).1.symm
    · next pindexNew hbest =>
      have hlinked := h.linking.candidates _ (bestCandidate_mem hbest)
      rw [firstUnusable_eq_none h hlinked] at hs
      exact (Prod.mk.inj (some.inj hs)).1.symm

variable (ho : o.Valid)

include ho

/-- Activating the best chain of valid blocks leaves the links alone. -/
theorem delivered_activateBestChain (rounds : Nat) {cached : Option CBlockIndex}
    (h : Delivered env bodies s) (hcached : ∀ p, cached = some p → p ∈ s.mapBlockIndex)
    (hs : activateBestChain env o rounds cached s = some s') : Delivered env bodies s' := by
  induction rounds generalizing s cached with
  | zero =>
    cases hs
    exact h
  | succ n ih =>
    simp only [activateBestChain] at hs
    -- the chain to activate is found without a change
    have hfound : ∀ s1 r, (match cached with
        | some p => some (s, some p)
        | none => findMostWorkChain env (s.setBlockIndexCandidates.length + 1) s) =
          some (s1, r) → s1 = s ∧ ∀ p, r = some p → p ∈ s.mapBlockIndex := by
      intro s1 r he
      split at he
      · next p =>
        obtain ⟨rfl, rfl⟩ := he
        exact ⟨rfl, hcached⟩
      · have hsame := findMostWorkChain_eq h he
        subst hsame
        exact ⟨rfl, (evolves_findMostWorkChain _ h.known he).2⟩
    split at hs
    · cases hs
    · next s1 he =>
      cases hs
      exact (hfound _ _ he).1 ▸ h
    · next s1 pindexMostWork he =>
      obtain ⟨rfl, hknown⟩ := hfound _ _ he
      have hp := hknown pindexMostWork rfl
      split at hs
      · cases hs
        exact h
      split at hs
      · cases hs
      · next s2 hstep =>
        cases hs
        obtain ⟨hact, -⟩ := activates_activateBestChainStep h.known hp hstep
        exact (hact.quiet ho).delivered hact.evolves.known h
      · next s2 hstep =>
        exact absurd ho ((activates_activateBestChainStep h.known hp hstep).2 rfl)
      · next s2 r _ _ hstep =>
        obtain ⟨hact, -⟩ := activates_activateBestChainStep h.known hp hstep
        have h2 := (hact.quiet ho).delivered hact.evolves.known h
        split at hs
        · cases hs
          exact h2
        · refine ih h2 (fun q hq => ?_) hs
          cases hq
          exact hact.evolves.map _ hp

end Activate

/-! ## 4. Runs -/

theorem delivered_acceptBlockHeader {block : CBlockHeader} {t : Int} {r : Arrival}
    (h : Delivered env bodies s) (hs : s.acceptBlockHeader env block t = some (s', r)) :
    Delivered env bodies s' := by
  have houtcome := acceptBlockHeader_outcome env s block t
  rw [hs] at houtcome
  cases houtcome with
  | refused | failed | known => exact h
  | added =>
    exact (quiet_addToBlockIndex h block).delivered
      (evolves_addToBlockIndex env h.known block).1.known h
  | marked _ _ hvalid =>
    -- no block has failed
    rw [(Bool.or_eq_false_iff.mp (h.clean _)).1] at hvalid
    cases hvalid

theorem delivered_acceptBlock {block : CBlock} {t : Int} {fRequested : Bool} {out : BlockOutcome}
    {r : Arrival} (h : Delivered env bodies s) (hcheck : out.check = .ok ()) (hvtx : block.vtx ≠ [])
    (hbody : block ∈ bodies) (hs : s.acceptBlock env block t fRequested out = some (s', r)) :
    Delivered env bodies s' := by
  unfold acceptBlock at hs
  split at hs
  · cases hs
  · next s1 pindex hheader =>
    have h1 : Delivered env bodies s1 := delivered_acceptBlockHeader h hheader
    have hp : pindex ∈ s1.mapBlockIndex :=
      (evolves_acceptBlockHeader h.known hheader).2 pindex rfl
    split at hs
    · obtain ⟨rfl, rfl⟩ := hs
      exact h1
    next hdata =>
    split at hs
    · obtain ⟨rfl, rfl⟩ := hs
      exact h1
    rw [hcheck] at hs
    simp only at hs
    split at hs
    · obtain ⟨rfl, rfl⟩ := hs
      exact delivered_receivedBlockTransactions h1 hp (eq_false_of_ne_true hdata)
        (length_pos_iff.mpr hvtx)
        (.inr ⟨block, hbody, (getBlockHash_acceptBlockHeader hheader).symm, rfl⟩)
    · obtain ⟨rfl, rfl⟩ := hs
      exact h1
  · next s1 notAccepted _ hheader =>
    obtain ⟨rfl, rfl⟩ := hs
    exact delivered_acceptBlockHeader h hheader

/-- Headers and blocks of `bodies` arrive and the best chain is activated, and no block is
invalid. -/
def Delivers (bodies : Set CBlock) (_ : ChainState) : TreeOp → Prop
  | .header .. => True
  | .block block _ _ out => block ∈ bodies ∧ out.check = .ok () ∧ block.vtx ≠ []
  | .activate _ o => o.Valid
  | _ => False

theorem delivered_empty : Delivered env bodies empty where
  known := known_empty
  clean p := rfl
  tree p hp := by cases hp
  filed p hp := by cases hp
  carried p hp := by cases hp
  linking :=
    { counted := fun p => ⟨fun hp => absurd rfl hp, nofun⟩
      data := fun p hp => absurd rfl hp
      parent := fun p q hp => absurd rfl hp
      total := fun p hp => absurd rfl hp
      queued := fun p => ⟨nofun, nofun⟩
      nodup := nodup_nil
      waits := fun q p => ⟨nofun, fun ⟨_, hp, _⟩ => (by cases hp)⟩
      waitsOnce := nodup_nil
      candidates := fun p hp => by cases hp }
  sequenced :=
    { unlinked := fun p _ => rfl
      below := fun p hp => absurd rfl hp
      parent := fun p q hp => absurd rfl hp
      distinct := fun p q hp => absurd rfl hp }

theorem delivered_initBlockIndex (env : NodeEnv) : Delivered env bodies (initBlockIndex env) := by
  obtain ⟨hadd, hmem⟩ := evolves_addToBlockIndex env known_empty (genesisHeader env)
  have hquiet : Quiet empty (empty.addToBlockIndex env (genesisHeader env)).1 :=
    quiet_addToBlockIndex (delivered_empty : Delivered env bodies empty) _
  refine delivered_receivedBlockTransactions (hquiet.delivered hadd.known delivered_empty) hmem ?_
    one_pos (.inl ⟨getBlockHash_addToBlockIndex env empty _, rfl⟩)
  rw [hquiet.data]
  rfl

theorem delivered_step (h : Delivered env bodies s) {op : TreeOp} (hop : Delivers bodies s op)
    (hs : treeStep env s op = some s') : Delivered env bodies s' := by
  cases op with
  | header block t =>
    obtain ⟨⟨s1, r⟩, hacc, rfl⟩ := map_eq_some_iff.mp hs
    exact delivered_acceptBlockHeader h hacc
  | block block t fRequested out =>
    obtain ⟨⟨s1, r⟩, hacc, rfl⟩ := map_eq_some_iff.mp hs
    obtain ⟨hbody, hcheck, hvtx⟩ := hop
    exact delivered_acceptBlock h hcheck hvtx hbody hacc
  | activate rounds o => exact delivered_activateBestChain hop rounds h (fun q hq => by cases hq) hs
  | connectFails | invalidate | reset => cases hop

theorem delivered_of_runs (h : Runs (treeStep env) (Delivers bodies) (initBlockIndex env) s) :
    Delivered env bodies s :=
  h.invariant (Delivered env bodies) (fun _ _ _ hinv hop hs => delivered_step hinv hop hs)
    (delivered_initBlockIndex env)

/-- With an empty queue the linked blocks are those whose line has all its data. -/
theorem Linking.linked_iff (h : Linking s []) :
    s.nChainTx p ≠ 0 ↔ ∀ q ≤ p, (s.nStatus q).haveData = true := by
  constructor
  · exact fun hp q hq => h.data q (h.linked_of_le hp hq)
  · intro hline hzero
    induction p with
    | root d =>
      cases (h.queued _).mpr ⟨hline _ (le_refl _), hzero, nofun⟩
    | child q d ih =>
      have hparent : s.nChainTx q ≠ 0 := ih fun r hr => hline r (le_child_iff.mpr (.inr hr))
      cases (h.queued _).mpr ⟨hline _ (le_refl _), hzero, fun r hr => some.inj hr ▸ hparent⟩

/-- The waiting blocks are those with data whose line lacks some. -/
theorem Linking.waits_iff (h : Linking s []) :
    (q, p) ∈ s.mapBlocksUnlinked ↔ p.pprev = some q ∧ (s.nStatus p).haveData = true ∧
      ∃ a < p, (s.nStatus a).haveData = false := by
  rw [h.waits q p]
  refine and_congr_right fun hq => and_congr_right fun _ => ?_
  have hlinked := h.linked_iff (p := q)
  constructor
  · intro hzero
    have hmissing : ¬ ∀ a ≤ q, (s.nStatus a).haveData = true := fun hall => hlinked.mpr hall hzero
    push Not at hmissing
    obtain ⟨a, ha, hdata⟩ := hmissing
    exact ⟨a, lt_of_le_of_lt ha (parent?_lt hq), eq_false_of_ne_true hdata⟩
  · rintro ⟨a, ha, hdata⟩
    by_contra hne
    have hall := hlinked.mp hne a (le_of_lt_of_parent? ha hq)
    rw [hdata] at hall
    cases hall

end ChainState

/-- A block with `n` transactions and the header `regtestHeader prev nNonce`. -/
def sizedBlock (prev nNonce : UInt32) (n : Nat) : CBlock :=
  { regtestHeader prev nNonce with vtx := replicate n ⟨1, [], [], 0⟩ }

/-- A block of three transactions and two on top of it, of four and of two. -/
def sizedBlocks : List CBlock := [sizedBlock 2 3 4, sizedBlock 2 4 2, sizedBlock 1 2 3]

/-- Two blocks arrive before the block they are built on. -/
def reversedRun : List TreeOp :=
  .activate 3 allConnect :: .header (regtestHeader 1 2) regtestNow ::
    sizedBlocks.map (fun block => .block block regtestNow true ⟨.ok (), true⟩) ++
    [.activate 3 allConnect]

end RgmNode
