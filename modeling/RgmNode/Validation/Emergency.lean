import RgmNode.Lib.Transition
import RgmNode.Validation.MergeMining

/-!
# The emergency minimum-difficulty rule

On `main`, from height 364 on, a block whose time is more than three hours after its
parent's may have the least difficulty.  A header chain grows one header at a time; each is
accepted at a time of the node's clock, and consecutive headers arrive at most ten minutes
apart.

The rule compares the new time with the parent's timestamp, not with a clock, and a
timestamp may lag behind the clock as far as the median time allows.
-/

namespace RgmNode

open Transition CBlockIndex List Nat UInt32

/-! ## 1. Header chains with a clock -/

/-- A tip and the clock time at which it was accepted, `none` for the genesis block. -/
structure ClockedTip where
  tip : CBlockIndex
  clock : Option Int

/-- A header that arrives at a clock time, with what the checks read of the node's state. -/
structure HeaderArrival where
  ctx : HeaderContext
  header : CBlockHeader
  clock : Int

/-- Consecutive arrivals are in order and at most ten minutes apart. -/
def arrivesInTime (last : Option Int) (now : Int) : Bool :=
  match last with
  | none => true
  | some c => c ≤ now && now ≤ c + 600

/-- A header is accepted on top of the tip, on `main`. -/
def acceptHeader (cr : Crypto) (s : ClockedTip) (i : HeaderArrival) : Option ClockedTip :=
  if arrivesInTime s.clock i.clock = true ∧
      contextualCheckBlockHeader mainParams i.ctx i.header s.tip i.clock = .ok () then
    some ⟨.child s.tip (i.header.indexData cr), some i.clock⟩
  else none

/-- The genesis block of `main`, with the hash the parameters assert. -/
def mainGenesis : ClockedTip :=
  { tip := .root
      { hashBlock := mainConsensus.hashGenesisBlock
        nVersion := mainParams.genesis.nVersion
        hashMerkleRoot := mainParams.genesis.hashMerkleRoot
        nTime := mainParams.genesis.nTime
        nBits := mainParams.genesis.nBits
        nNonce := mainParams.genesis.nNonce }
    clock := none }

/-- The header takes the emergency branch of `GetNextWorkRequired` on top of the tip. -/
def takesEmergencyBranch (s : ClockedTip) (i : HeaderArrival) : Bool :=
  emergencyMinDifficulty s.tip i.header.toCPureBlockHeader
    (mainParams.getConsensus (s.tip.nHeight + 1))

/-- A header that can become the parent of a block at an emergency height has a timestamp
at most 3000 s behind the clock at which it is accepted. -/
def TimestampKeepsUp (s : ClockedTip) (i : HeaderArrival) : Prop :=
  363 ≤ s.tip.nHeight + 1 → i.clock - 3000 ≤ i.header.getBlockTime

variable {cr : Crypto} {s t u : ClockedTip} {i : HeaderArrival} {c now : Int}

@[simp] theorem arrivesInTime_some :
    arrivesInTime (some c) now = true ↔ c ≤ now ∧ now ≤ c + 600 := by
  simp [arrivesInTime]

theorem acceptHeader_eq_some (h : acceptHeader cr s i = some u) :
    arrivesInTime s.clock i.clock = true ∧
      HeaderRules mainParams i.ctx i.header s.tip i.clock ∧
      u = ⟨.child s.tip (i.header.indexData cr), some i.clock⟩ := by
  unfold acceptHeader at h
  split at h
  · next hc =>
    exact ⟨hc.1, contextualCheckBlockHeader_ok_iff.mp hc.2, (Option.some.inj h).symm⟩
  · cases h

theorem takesEmergencyBranch_iff :
    takesEmergencyBranch s i = true ↔
      363 ≤ s.tip.nHeight ∧ s.tip.getBlockTime + 10800 < i.header.getBlockTime := by
  have hheight : (mainParams.getConsensus (s.tip.nHeight + 1)).nEmergencyMinDiffHeight = 364 :=
    getConsensus_shared .main _ (·.nEmergencyMinDiffHeight) rfl
  have htimeout :
      (mainParams.getConsensus (s.tip.nHeight + 1)).nEmergencyMinDiffTimeout = 10800 :=
    getConsensus_shared .main _ (·.nEmergencyMinDiffTimeout) rfl
  simp only [takesEmergencyBranch, emergencyMinDifficulty, hheight, htimeout, ge_iff_le,
    gt_iff_lt, Bool.and_eq_true, decide_eq_true_eq]
  omega

/-! ## 2. Chains whose timestamps keep up -/

/-- The tip of a chain that keeps up lags at most 3000 s behind its clock. -/
def TipKeepsUp (s : ClockedTip) : Prop :=
  363 ≤ s.tip.nHeight → ∃ c, s.clock = some c ∧ c - 3000 ≤ s.tip.getBlockTime

theorem tipKeepsUp_step (hg : TimestampKeepsUp s i) (h : acceptHeader cr s i = some u) :
    TipKeepsUp u := by
  obtain ⟨-, -, rfl⟩ := acceptHeader_eq_some h
  intro hheight
  exact ⟨i.clock, rfl, hg hheight⟩

theorem tipKeepsUp_of_runs (h : Runs (acceptHeader cr) TimestampKeepsUp mainGenesis t) :
    TipKeepsUp t := by
  refine Runs.invariant TipKeepsUp (fun _ _ _ _ hg hs => tipKeepsUp_step hg hs) h ?_
  intro h0
  exact absurd h0 (by decide)

/-- On top of a tip that lags at most 3000 s no header takes the emergency branch: it would
have to be more than two hours ahead of the clock. -/
theorem no_emergency_of_lag (hc : s.clock = some c) (hlag : c - 3000 ≤ s.tip.getBlockTime)
    (h : acceptHeader cr s i = some u) : takesEmergencyBranch s i = false := by
  obtain ⟨harrives, hrules, -⟩ := acceptHeader_eq_some h
  have hnew := hrules.timeTooNew
  rw [hc, arrivesInTime_some] at harrives
  by_contra he
  rw [Bool.not_eq_false, takesEmergencyBranch_iff] at he
  omega

/-! ## 3. Chains that lag -/

/-- Apart from the genesis block no time in the chain is more than two hours ahead of the
clock. -/
def TimesBounded (s : ClockedTip) : Prop :=
  ∀ c, s.clock = some c → ∀ x ∈ s.tip.times.take s.tip.nHeight, x ≤ c + 7200

theorem timesBounded_step (hb : TimesBounded s) (hfirst : s.clock = none → s.tip.nHeight = 0)
    (h : acceptHeader cr s i = some u) : TimesBounded u := by
  obtain ⟨harrives, hrules, rfl⟩ := acceptHeader_eq_some h
  rintro c ⟨⟩ x hx
  rw [nHeight_child, times_child, take_succ_cons, mem_cons] at hx
  rcases hx with rfl | hx
  · exact hrules.timeTooNew
  cases hclock : s.clock with
  | none =>
    rw [hfirst hclock] at hx
    simp at hx
  | some c0 =>
    have hle := hb c0 hclock x hx
    rw [hclock, arrivesInTime_some] at harrives
    omega

theorem timesBounded_of_runs {G : ClockedTip → HeaderArrival → Prop}
    (h : Runs (acceptHeader cr) G mainGenesis t) :
    (t.clock = none → t.tip.nHeight = 0) ∧ TimesBounded t := by
  refine Runs.invariant (fun t => (t.clock = none → t.tip.nHeight = 0) ∧ TimesBounded t)
    ?_ h ⟨fun _ => rfl, nofun⟩
  intro t i u ⟨hfirst, hb⟩ _ hs
  refine ⟨?_, timesBounded_step hb hfirst hs⟩
  obtain ⟨-, -, rfl⟩ := acceptHeader_eq_some hs
  rintro ⟨⟩

/-- Far from the genesis block the median time is at most two hours ahead of the clock. -/
theorem getMedianTimePast_le_clock (hb : TimesBounded s) (hc : s.clock = some c)
    (hheight : 11 ≤ s.tip.nHeight) : s.tip.getMedianTimePast ≤ c + 7200 := by
  refine getMedianTimePast_le fun x hx => hb c hc x ?_
  have hsub : s.tip.times.take nMedianTimeSpan <+: s.tip.times.take s.tip.nHeight :=
    take_prefix_take_left hheight
  exact hsub.subset hx

/-- In the node's block map the block of a checkpoint has the checkpoint's height. -/
def CheckpointsKnown (ctx : HeaderContext) : Prop :=
  ∀ c ∈ mainParams.mapCheckpoints, ∀ p, ctx.find c.2 = some p → p.nHeight = c.1

variable {ctx : HeaderContext}

theorem forksBelowCheckpoint_eq_false {h : Nat} (hk : CheckpointsKnown ctx) (hh : 363 ≤ h) :
    forksBelowCheckpoint mainParams ctx h = false := by
  unfold forksBelowCheckpoint
  cases hl : getLastCheckpoint mainParams.mapCheckpoints ctx.find with
  | none => simp
  | some p =>
    obtain ⟨c, hc, hp⟩ := exists_of_findSome?_eq_some hl
    rw [mem_reverse] at hc
    have hheight := hk c hc p hp
    have hmax : ∀ c ∈ mainParams.mapCheckpoints, c.1 ≤ 363 := by decide
    have := hmax c hc
    simp only [Bool.and_eq_false_imp, decide_eq_false_iff_not]
    omega

/-- The header a miner builds on `p` with a chosen time: version 4 and the required work. -/
def headerOn (p : CBlockIndex) (nTime : UInt32) : CBlockHeader :=
  { nVersion := 4
    hashPrevBlock := p.getBlockHash
    hashMerkleRoot := 0
    nTime := nTime
    nBits := getNextWorkRequired (some p) ⟨4, 0, 0, nTime, 0, 0⟩
      (mainParams.getConsensus (p.nHeight + 1))
    nNonce := 0
    auxpow := none }

/-- Such a header is accepted if its time is in the window and it violates no checkpoint. -/
theorem headerOn_rules {p : CBlockIndex} {nTime : UInt32}
    (hck : forksBelowCheckpoint mainParams ctx (p.nHeight + 1) = false)
    (hold : p.getMedianTimePast < nTime.toNat) (hnew : (nTime.toNat : Int) ≤ c + 7200) :
    HeaderRules mainParams ctx (headerOn p nTime) p c where
  legacy := .inl (fAllowLegacyBlocks_eq_true .main _)
  auxpow := .inr (show ((4 : Int32) &&& CPureBlockHeader.versionAuxpow != 0) = false by decide)
  diffbits := by
    show getNextWorkRequired (some p) ⟨4, 0, 0, nTime, 0, 0⟩ _ = _
    exact getNextWorkRequired_congr rfl
  checkpoint := hck
  timeTooOld := hold
  timeTooNew := hnew
  bip66 := .inl (show (3 : Int32) ≤ 4 % CPureBlockHeader.versionAuxpow by decide)
  bip65 := .inl (show (4 : Int32) ≤ 4 % CPureBlockHeader.versionAuxpow by decide)

theorem acceptHeader_headerOn {nTime : UInt32} (harrives : arrivesInTime s.clock c = true)
    (hck : forksBelowCheckpoint mainParams ctx (s.tip.nHeight + 1) = false)
    (hold : s.tip.getMedianTimePast < nTime.toNat) (hnew : (nTime.toNat : Int) ≤ c + 7200) :
    acceptHeader cr s ⟨ctx, headerOn s.tip nTime, c⟩ =
      some ⟨.child s.tip ((headerOn s.tip nTime).indexData cr), some c⟩ := by
  rw [acceptHeader, if_pos]
  exact ⟨harrives, contextualCheckBlockHeader_ok_iff.mpr (headerOn_rules hck hold hnew)⟩

/-- On top of a tip that lags more than 3000 s behind its clock the emergency branch can be
taken within ten minutes. -/
theorem exists_emergency_header (cr : Crypto) (hk : CheckpointsKnown ctx) (hb : TimesBounded s)
    (hc : s.clock = some c) (hheight : 363 ≤ s.tip.nHeight) (hlag : s.tip.getBlockTime < c - 3000)
    (hrange : c + 7800 < 2 ^ 32) :
    ∃ header u, acceptHeader cr s ⟨ctx, header, c + 600⟩ = some u ∧
      takesEmergencyBranch s ⟨ctx, header, c + 600⟩ = true := by
  have hmedian := getMedianTimePast_le_clock hb hc (by omega)
  have hpos : 0 ≤ s.tip.getBlockTime := by
    exact Int.natCast_nonneg _
  -- the latest time that is not too far ahead of the clock
  obtain ⟨n, hn⟩ : ∃ n : Nat, (n : Int) = c + 7800 := ⟨(c + 7800).toNat, by omega⟩
  have htime : ((ofNat n).toNat : Int) = c + 7800 := by
    rw [toNat_ofNat_of_lt' (by show n < 2 ^ 32; omega), hn]
  refine ⟨headerOn s.tip (ofNat n), _, acceptHeader_headerOn ?_ ?_ ?_ ?_, ?_⟩
  · rw [hc, arrivesInTime_some]
    omega
  · exact forksBelowCheckpoint_eq_false hk (by omega)
  · omega
  · omega
  · rw [takesEmergencyBranch_iff]
    refine ⟨hheight, ?_⟩
    show s.tip.getBlockTime + 10800 < ((ofNat n).toNat : Int)
    omega

/-! ## 4. Whole chains -/

/-- In every chain whose timestamps keep up no header takes the emergency branch; and on
every chain, no header that may arrive next takes it exactly if the tip keeps up. -/
theorem emergencyRule_spec (cr : Crypto) :
    (∀ t, Runs (acceptHeader cr) TimestampKeepsUp mainGenesis t → ∀ i u,
      acceptHeader cr t i = some u → takesEmergencyBranch t i = false) ∧
    (∀ t c ctx, Runs (acceptHeader cr) (fun _ _ => True) mainGenesis t → t.clock = some c →
      CheckpointsKnown ctx → 363 ≤ t.tip.nHeight → c + 7800 < 2 ^ 32 →
      ((∀ header now u, acceptHeader cr t ⟨ctx, header, now⟩ = some u →
          takesEmergencyBranch t ⟨ctx, header, now⟩ = false) ↔
        c - 3000 ≤ t.tip.getBlockTime)) := by
  constructor
  · intro t hruns i u hstep
    by_contra he
    have hheight := (takesEmergencyBranch_iff.mp (Bool.not_eq_false _ ▸ he)).1
    obtain ⟨c, hc, hlag⟩ := tipKeepsUp_of_runs hruns hheight
    exact he (no_emergency_of_lag hc hlag hstep)
  · intro t c ctx hruns hc hk hheight hrange
    constructor
    · intro hnone
      by_contra hlag
      obtain ⟨header, u, hstep, he⟩ := exists_emergency_header cr hk
        (timesBounded_of_runs hruns).2 hc hheight (Int.not_le.mp hlag) hrange
      rw [hnone header _ u hstep] at he
      cases he
    · intro hlag header now u hstep
      exact no_emergency_of_lag hc hlag hstep

/-! ## 5. Two chains -/

/-- A node that enforces checkpoints and knows none of their blocks yet. -/
def freshNode : HeaderContext := ⟨true, fun _ => none⟩

/-- A chain whose timestamps advance by `dt` seconds a block and whose clock advances by
`dc`, both from the time of the genesis block. -/
def pacedChain (cr : Crypto) (dt dc : Nat) : Nat → ClockedTip
  | 0 => mainGenesis
  | n + 1 =>
    ⟨.child (pacedChain cr dt dc n).tip
      ((headerOn (pacedChain cr dt dc n).tip (ofNat (1772064000 + dt * (n + 1)))).indexData
        cr), some (1772064000 + dc * (n + 1) : Nat)⟩

/-- The header that extends `pacedChain`, and the clock time at which it arrives. -/
def pacedArrival (cr : Crypto) (dt dc n : Nat) : HeaderArrival :=
  ⟨freshNode, headerOn (pacedChain cr dt dc n).tip (ofNat (1772064000 + dt * (n + 1))),
    (1772064000 + dc * (n + 1) : Nat)⟩

section Paced

variable {dt dc n : Nat}

theorem nHeight_pacedChain : (pacedChain cr dt dc n).tip.nHeight = n := by
  induction n with
  | zero => rfl
  | succ n ih => rw [pacedChain, nHeight_child, ih]

theorem toNat_pacedTime (hn : dt * n < 2 ^ 31) :
    (ofNat (1772064000 + dt * n)).toNat = 1772064000 + dt * n :=
  toNat_ofNat_of_lt' (by show _ < 2 ^ 32; omega)

theorem getBlockTime_pacedChain (hn : dt * n < 2 ^ 31) :
    (pacedChain cr dt dc n).tip.getBlockTime = (1772064000 + dt * n : Nat) := by
  cases n with
  | zero => rfl
  | succ n =>
    show ((ofNat (1772064000 + dt * (n + 1))).toNat : Int) = _
    rw [toNat_pacedTime hn]

theorem times_pacedChain_le (hn : dt * n < 2 ^ 31) :
    ∀ x ∈ (pacedChain cr dt dc n).tip.times, x ≤ (1772064000 + dt * n : Nat) := by
  induction n with
  | zero =>
    intro x hx
    exact (mem_singleton.mp hx).le
  | succ n ih =>
    have hmono : dt * n ≤ dt * (n + 1) := mul_le_mul_left _ (le_succ n)
    intro x hx
    rw [pacedChain, times_child, mem_cons] at hx
    rcases hx with rfl | hx
    · show ((ofNat (1772064000 + dt * (n + 1))).toNat : Int) ≤ _
      rw [toNat_pacedTime hn]
    · have := ih (by omega) x hx
      omega

/-- Timestamps that rise, but no faster than the clock, are accepted. -/
theorem acceptHeader_pacedArrival (hdt : 1 ≤ dt) (hle : dt ≤ dc) (hdc : dc ≤ 600)
    (hn : dt * (n + 1) < 2 ^ 31) :
    acceptHeader cr (pacedChain cr dt dc n) (pacedArrival cr dt dc n) =
      some (pacedChain cr dt dc (n + 1)) := by
  have hsucc : dt * (n + 1) = dt * n + dt := mul_succ dt n
  have hclock : dc * (n + 1) = dc * n + dc := mul_succ dc n
  have hscale : dt * (n + 1) ≤ dc * (n + 1) := mul_le_mul_right _ hle
  have hmedian : (pacedChain cr dt dc n).tip.getMedianTimePast ≤ (1772064000 + dt * n : Nat) :=
    getMedianTimePast_le fun x hx =>
      times_pacedChain_le (by omega) x (mem_of_mem_take hx)
  refine acceptHeader_headerOn ?_ rfl ?_ ?_
  · cases n with
    | zero => rfl
    | succ n =>
      show arrivesInTime (some _) _ = true
      rw [arrivesInTime_some]
      omega
  · rw [toNat_pacedTime hn]
    omega
  · rw [toNat_pacedTime hn]
    omega

theorem runs_pacedChain {G : ClockedTip → HeaderArrival → Prop}
    (hG : ∀ k, dt * (k + 1) < 2 ^ 31 → G (pacedChain cr dt dc k) (pacedArrival cr dt dc k))
    (hdt : 1 ≤ dt) (hle : dt ≤ dc) (hdc : dc ≤ 600) (hn : dt * n < 2 ^ 31) :
    Runs (acceptHeader cr) G mainGenesis (pacedChain cr dt dc n) := by
  induction n with
  | zero => exact .refl
  | succ n ih =>
    have hmono : dt * n ≤ dt * (n + 1) := mul_le_mul_left _ (le_succ n)
    exact .tail (ih (by omega)) (hG n hn) (acceptHeader_pacedArrival hdt hle hdc hn)

end Paced

/-- A chain whose timestamps follow the clock, a minute a block: its tip at height 400 is
followed by no emergency header. -/
theorem pacedChain_no_emergency :
    ∀ i u, acceptHeader zeroCrypto (pacedChain zeroCrypto 60 60 400) i = some u →
      takesEmergencyBranch (pacedChain zeroCrypto 60 60 400) i = false :=
  (emergencyRule_spec zeroCrypto).1 _ (runs_pacedChain (fun k hk _ => by
    show ((1772064000 + 60 * (k + 1) : Nat) : Int) - 3000 ≤
      ((ofNat (1772064000 + 60 * (k + 1))).toNat : Int)
    rw [toNat_pacedTime hk]
    omega) (by decide) (by decide) (by decide) (by decide))

/-- Timestamps that advance by one second a block while a block arrives every ten minutes:
on top of height 400 a header is accepted through the emergency branch. -/
theorem laggingChain_emergency :
    ∃ i u, Runs (acceptHeader zeroCrypto) (fun _ _ => True) mainGenesis
        (pacedChain zeroCrypto 1 600 400) ∧
      (pacedChain zeroCrypto 1 600 400).tip.nHeight = 400 ∧
      acceptHeader zeroCrypto (pacedChain zeroCrypto 1 600 400) i = some u ∧
      takesEmergencyBranch (pacedChain zeroCrypto 1 600 400) i = true := by
  have hruns : Runs (acceptHeader zeroCrypto) (fun _ _ => True) mainGenesis
      (pacedChain zeroCrypto 1 600 400) :=
    runs_pacedChain (fun _ _ => trivial) (by decide) (by decide) (by decide) (by decide)
  have hknown : CheckpointsKnown freshNode := nofun
  obtain ⟨header, u, hstep, he⟩ := exists_emergency_header zeroCrypto hknown
    (timesBounded_of_runs hruns).2 rfl
    (by rw [nHeight_pacedChain]; decide)
    (by rw [getBlockTime_pacedChain (by decide)]; decide) (by decide)
  exact ⟨_, u, hruns, nHeight_pacedChain, hstep, he⟩

end RgmNode
