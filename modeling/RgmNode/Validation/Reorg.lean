import RgmNode.Validation.Supply

/-!
# Reorganisations

* `coins_determined_by_tip` — the unspent outputs depend on the tip, not on the way to it
* `disconnectTip_succeeds` — the undo data on disk leads back to the parent of the tip
-/

namespace RgmNode

open Transition CoinsView Option Function

variable {env : ConnectEnv} {ops : PubKeyOps} {disk : CBlockIndex → CBlock} {st st' : CoinsTip}
  {d d' : BlockIndexData} {p : CBlockIndex}

/-- The states a node comes to from the genesis block. -/
abbrev Reached (env : ConnectEnv) (ops : PubKeyOps) (disk : CBlockIndex → CBlock)
    (d : BlockIndexData) : CoinsTip → Prop :=
  Runs (tipStep env ops disk) (ConnectsAbove env disk) (genesisTip d)

/-- What a later block sees of the outputs of a transaction. -/
def CCoins.content (c : CCoins) : Bool × List CTxOut × Nat := (c.fCoinBase, c.vout, c.nHeight)

theorem Restored.content_eq {view w : CoinsView} (h : Restored view w) (txid : Uint256) :
    (unspent (w.coins txid)).map CCoins.content =
      (unspent (view.coins txid)).map CCoins.content := by
  cases hc : unspent (view.coins txid) with
  | none => rw [h.of_none hc]
  | some c =>
    obtain ⟨q, hq, hmatch⟩ := h.of_some hc
    rw [hq, map_some, map_some, CCoins.content, hmatch.coinBase, hmatch.vout, hmatch.height]
    rfl

/-- Two nodes with the same tip have the same coins, whatever branches they have followed and
left again. -/
theorem coins_determined_by_tip (henv : env.ChecksBlocks) (hops : ops.Lawful)
    (hrun : Reached env ops disk d st) (hrun' : Reached env ops disk d' st')
    (htip : st.tip = st'.tip) :
    st.view.hashBlock = st'.view.hashBlock ∧
      ∀ txid, (unspent (st.view.coins txid)).map CCoins.content =
        (unspent (st'.view.coins txid)).map CCoins.content := by
  have hinv := tipInv_of_runs henv hops hrun
  have hinv' := tipInv_of_runs henv hops hrun'
  obtain ⟨view, hbacked, hrestored⟩ := hinv.backed
  obtain ⟨view', hbacked', hrestored'⟩ := hinv'.backed
  rw [← htip] at hbacked'
  obtain rfl := hbacked.unique hbacked'
  refine ⟨?_, fun txid => ?_⟩
  · rw [hinv.best, hinv'.best, htip]
  · rw [hrestored.content_eq, hrestored'.content_eq]

/-- The blocks of the active chain above the genesis block have undo data. -/
def UndoKept (st : CoinsTip) : Prop :=
  ∀ a p : CBlockIndex, a.pprev = some p → a ≤ st.tip → (st.undo a).isSome

theorem undoKept_step {op : TipOp} (hkept : UndoKept st)
    (h : tipStep env ops disk st op = some st') : UndoKept st' := by
  intro a p ha hle
  cases op with
  | connect s pindex =>
    obtain ⟨hparent, view', -, rfl⟩ := tipStep_connect h
    dsimp only at hle ⊢
    rcases hle.eq_or_lt with rfl | hlt
    · split
      · assumption
      · rw [update_self, isSome_some]
    · have hold := hkept a p ha (Lineage.le_of_lt_of_parent? hlt hparent)
      split
      · exact hold
      · rwa [update_of_ne hlt.ne]
  | disconnect =>
    obtain ⟨pprev, view', hparent, -, rfl⟩ := tipStep_disconnect h
    exact hkept a p ha (hle.trans (Lineage.parent?_lt hparent).le)

theorem undoKept_genesis : UndoKept (genesisTip d) := by
  intro a p hparent hle
  cases Lineage.le_root_iff.mp hle
  cases hparent

/-- No reorganisation gets stuck: the block at the tip can always be disconnected. -/
theorem disconnectTip_succeeds (henv : env.ChecksBlocks) (hops : ops.Lawful)
    (hrun : Reached env ops disk d st) (hparent : st.tip.pprev = some p) :
    ∃ st', tipStep env ops disk st .disconnect = some st' ∧ st'.tip = p := by
  have hkept := hrun.invariant UndoKept (fun _ _ _ hkept _ => undoKept_step hkept) undoKept_genesis
  have hinv := tipInv_of_runs henv hops hrun
  obtain ⟨view, hbacked, hrestored⟩ := hinv.backed
  have hbest := hinv.best
  obtain ⟨file, hfile⟩ := isSome_iff_exists.mp (hkept _ p hparent le_rfl)
  simp only [tipStep, hparent]
  generalize st.connected = connected at hbacked
  generalize st.tip = tip at hbacked hbest hfile hparent ⊢
  cases hbacked with
  | genesis d => cases hparent
  | block hbelow hsteps _ _ =>
    cases hparent
    -- the undo data may be of an earlier time, but it is the one of the same coins
    obtain ⟨_, _, _, _, _, _, _, _, hbelow', hsteps', hread, hmatch⟩ := hinv.undo p _ file hfile
    obtain rfl := hbelow.unique hbelow'
    obtain rfl := (hsteps.unique hsteps').2
    obtain ⟨w, hw, -⟩ := hsteps.disconnectBlock hbelow.sound rfl hread hmatch hrestored hbest
    rw [hfile, hw]
    exact ⟨_, rfl, rfl⟩

open SupplyExample

theorem coins_determined_by_tip_reconnect : ∃ st st', ExampleRuns st ∧ ExampleRuns st' ∧
    st.tip = indexAt 31 ∧
    (unspent (st.view.coins ((UndoExample.coinbase 2).getHash nonceCrypto))).isSome ∧
    ∀ txid, (unspent (st.view.coins txid)).map CCoins.content =
      (unspent (st'.view.coins txid)).map CCoins.content := by
  obtain ⟨st, st', hrun, hrun', htip, htip', hcoin, -⟩ := reconnected
  exact ⟨st, st', hrun, hrun', htip, hcoin,
    (coins_determined_by_tip (fun _ _ => rfl) noKeys_lawful hrun hrun' (htip.trans htip'.symm)).2⟩

theorem disconnectTip_succeeds_spend : ∃ st st', st.tip = indexAt 31 ∧
    exampleStep st .disconnect = some st' ∧ st'.tip = indexAt 30 := by
  obtain ⟨st, -, hrun, -, htip, -⟩ := reconnected
  obtain ⟨st', hstep⟩ := disconnectTip_succeeds (fun _ _ => rfl) noKeys_lawful hrun
    (congrArg CBlockIndex.pprev htip)
  exact ⟨st, st', htip, hstep⟩

end RgmNode
