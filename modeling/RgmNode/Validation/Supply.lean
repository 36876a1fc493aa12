import RgmNode.Primitives.Unique
import RgmNode.Validation.Issuance
import RgmNode.Validation.Value

/-!
# The supply

Blocks are connected to the tip of the active chain and disconnected from it, with the undo data
that was written when a block was connected for the first time.  The unspent outputs are worth
at most what the connected blocks have issued, without the burnt fees, and no sum of amounts
leaves the range of a 64-bit integer.

1. `BlockSteps.restored` — a block does the same to views that show the same coins
2. `CoinsTip`, `tipStep` — the tip, its view and the undo data on disk
3. `TipInv` — the view is the one the blocks of the active chain give, each connected once
4. `money_conserved` — the bounds along every run
-/

namespace RgmNode

open Checks WriteBack Transition Option List CoinsView Function

/-! ## 1. Views that show the same coins -/

variable {view w view' w' : CoinsView} {txid : Uint256} {c q : CCoins} {cr : Crypto}
  {tx : CTransaction} {nHeight : Nat}

theorem Restored.of_some_right (h : Restored view w) (hsome : unspent (w.coins txid) = some q) :
    ∃ c, unspent (view.coins txid) = some c ∧ c.Matches q := by
  cases hc : unspent (view.coins txid) with
  | none =>
    rw [h.of_none hc] at hsome
    cases hsome
  | some c =>
    obtain ⟨q', hq', hmatch⟩ := h.of_some hc
    cases hq'.symm.trans hsome
    exact ⟨c, rfl, hmatch⟩

theorem CCoins.Matches.unspent (h : c.Matches q) :
    Rel CCoins.Matches (unspent (some c)) (unspent (some q)) := by
  have hpruned : q.isPruned = c.isPruned := congrArg (all · CTxOut.isNull) h.vout
  cases hp : c.isPruned with
  | true =>
    rw [RgmNode.unspent, RgmNode.unspent, present_of_gone hp, present_of_gone (hpruned.trans hp)]
    exact .none
  | false =>
    rw [RgmNode.unspent, RgmNode.unspent, present_of_not_gone hp,
      present_of_not_gone (hpruned.trans hp)]
    exact .some h

theorem CCoins.Matches.spend (h : c.Matches q) (n : Nat) :
    (c.spend n).Matches (q.spend n) where
  coinBase := h.coinBase
  vout := congrArg (fun vout => (vout.set n CTxOut.null).rdropWhile CTxOut.isNull) h.vout
  height := h.height
  version := h.version

/-- Views that show the same coins still do so when both get matching coins for a
transaction. -/
theorem Restored.update (h : Restored view w) (hview : ∀ k, k ≠ txid → view'.coins k = view.coins k)
    (hw : ∀ k, k ≠ txid → w'.coins k = w.coins k) (hc : view'.coins txid = some c)
    (hq : w'.coins txid = some q) (hmatch : c.Matches q) : Restored view' w' := by
  intro k
  by_cases hk : k = txid
  · subst hk
    rw [hc, hq]
    exact hmatch.unspent
  · rw [hview k hk, hw k hk]
    exact h k

theorem spendInputUndo_restored {txin : CTxIn} {undo' : CTxInUndo} (hw : Restored view w)
    (h : w.spendInputUndo txin = some (w', undo')) :
    ∃ view' undo, view.spendInputUndo txin = some (view', undo) ∧ Restored view' w' ∧
      undo.Matches undo' := by
  obtain ⟨q, txout, hstep⟩ := spendStep_of_spendInputUndo h
  obtain ⟨c, hc, hmatch⟩ := hw.of_some_right hstep.unspent_eq
  have hcoins : view.coins txin.prevout.hash = some c := eq_of_present hc
  have hout : c.output txin.prevout.n.toNat = some txout := by
    have hq := hstep.output
    rwa [CCoins.output, hmatch.vout] at hq
  have hat : view.outputAt txin.prevout = some txout := by
    rw [outputAt_of_coins hcoins, hout]
  obtain ⟨view', undo, hspend⟩ := spendInputUndo_of_outputAt hat
  obtain ⟨c', txout', hstep'⟩ := spendStep_of_spendInputUndo hspend
  cases hcoins.symm.trans hstep'.coins
  cases hout.symm.trans hstep'.output
  refine ⟨view', undo, hspend, ?_, ?_⟩
  · exact hw.update (fun k hk => hstep'.coins_of_ne hk) (fun k hk => hstep.coins_of_ne hk)
      hstep'.coins_self hstep.coins_self (hmatch.spend _)
  · have hleft : (q.spend txin.prevout.n.toNat).vout = (c.spend txin.prevout.n.toNat).vout :=
      (hmatch.spend _).vout
    rw [hstep.undo, hstep'.undo, hleft]
    split
    · exact ⟨rfl, hmatch.coinBase, hmatch.height, fun _ => hmatch.version⟩
    · exact ⟨rfl, rfl, rfl, fun _ _ => rfl⟩

theorem spendInputsUndo_restored {vin : List CTxIn} {undos' : CTxUndo} (hw : Restored view w)
    (h : w.spendInputsUndo vin = some (w', undos')) :
    ∃ view' undos, view.spendInputsUndo vin = some (view', undos) ∧ Restored view' w' ∧
      Forall₂ CTxInUndo.Matches undos undos' := by
  induction vin generalizing view w undos' with
  | nil =>
    cases h
    exact ⟨view, [], rfl, hw, .nil⟩
  | cons txin vin ih =>
    obtain ⟨⟨mid, undo'⟩, hstep, h⟩ := bind_eq_some_iff.mp h
    obtain ⟨⟨last, rest'⟩, hrest, h⟩ := map_eq_some_iff.mp h
    cases h
    obtain ⟨vmid, undo, hvstep, hmid, hundo⟩ := spendInputUndo_restored hw hstep
    obtain ⟨view', rest, hvrest, hview', hothers⟩ := ih hmid hrest
    refine ⟨view', undo :: rest, ?_, hview', .cons hundo hothers⟩
    rw [spendInputsUndo, hvstep, bind_some, hvrest, map_some]

theorem AddStep.restored (h : AddStep cr w w' tx nHeight) (hw : Restored view w) :
    ∃ view', AddStep cr view view' tx nHeight ∧ Restored view' w' := by
  have hfresh : unspent (view.coins (tx.getHash cr)) = none := by
    cases hc : unspent (view.coins (tx.getHash cr)) with
    | none => rfl
    | some c =>
      obtain ⟨q, hq, -⟩ := hw.of_some hc
      rw [h.fresh] at hq
      cases hq
  have hadd : AddStep cr view { view with
      coins := update view.coins (tx.getHash cr) (some (CCoins.fromTx tx nHeight)) }
      tx nHeight := ⟨hfresh, rfl⟩
  refine ⟨_, hadd, hw.update (fun k hk => hadd.coins_of_ne hk) (fun k hk => h.coins_of_ne hk)
    hadd.coins_self h.coins_self (.refl _)⟩

theorem AddStep.addCoins (h : AddStep cr view view' tx nHeight) :
    view.addCoins cr tx nHeight = some view' := by
  have hnew : (view.coins (tx.getHash cr)).any (!·.isPruned) = false :=
    unspent_eq_none_iff.mp h.fresh
  rw [CoinsView.addCoins, hnew, Bool.and_false, h.after]
  rfl

theorem updateAllUndo_restored {txs : List CTransaction} {undos' : List CTxUndo}
    (hcoinbase : ∀ tx ∈ txs, tx.isCoinBase = false) (hw : Restored view w)
    (h : w.updateAllUndo cr nHeight txs = some (w', undos')) :
    ∃ view' undos, view.updateAllUndo cr nHeight txs = some (view', undos) ∧
      Restored view' w' ∧ Forall₂ (Forall₂ CTxInUndo.Matches) undos undos' := by
  induction txs generalizing view w undos' with
  | nil =>
    cases h
    exact ⟨view, [], rfl, hw, .nil⟩
  | cons tx txs ih =>
    rw [forall_mem_cons] at hcoinbase
    obtain ⟨spent, mid, us', rest', hspend, hadd, hrest, rfl⟩ :=
      updateAllUndo_cons_eq_some hcoinbase.1 h
    obtain ⟨vspent, us, hvspend, hspent, hus⟩ := spendInputsUndo_restored hw hspend
    obtain ⟨vmid, hvadd, hmid⟩ := hadd.restored hspent
    obtain ⟨view', rest, hvrest, hview', hothers⟩ := ih hcoinbase.2 hmid hrest
    have hvstep : view.updateCoinsUndo cr tx nHeight = some (vmid, us) := by
      rw [updateCoinsUndo, if_neg (ne_true_of_eq_false hcoinbase.1), hvspend,
        bind_some, hvadd.addCoins, map_some]
    refine ⟨view', us :: rest, ?_, hview', .cons hus hothers⟩
    rw [updateAllUndo, hvstep, bind_some, hvrest, map_some]

section Steps

variable {env : ConnectEnv} {block : CBlock} {pindex : CBlockIndex}
  {after after' mid mid' : CoinsView} {coinbase coinbase' : CTransaction}
  {txs txs' : List CTransaction} {undos undos' : CBlockUndo}

/-- A block does the same to views that show the same coins. -/
theorem BlockSteps.restored (h : BlockSteps env block pindex w after' coinbase txs mid' undos')
    (hw : Restored view w) :
    ∃ after mid undos, BlockSteps env block pindex view after coinbase txs mid undos ∧
      Restored after after' ∧ Forall₂ (Forall₂ CTxInUndo.Matches) undos undos' := by
  obtain ⟨mid, hadd, hmid⟩ := h.added.restored hw
  obtain ⟨after, undos, hrest, hafter, hundos⟩ := updateAllUndo_restored h.others hmid h.rest
  have hfirst : view.updateCoinsUndo env.cr coinbase pindex.nHeight = some (mid, []) := by
    rw [updateCoinsUndo, if_pos h.first, bind_some, hadd.addCoins, map_some]
  have hrecorded : view.recordedUndo env.cr block pindex.nHeight = some undos := by
    rw [recordedUndo, h.vtx, updateAllUndo, hfirst, bind_some, hrest, map_some, map_some, tail_cons]
  exact ⟨after, mid, undos, ⟨h.vtx, h.length, h.positive, h.height, h.checked, h.first, h.others,
    hadd, h.sound, hrest, hrecorded⟩, hafter, hundos⟩

/-- What a block does to a view is determined by the view. -/
theorem BlockSteps.unique (h : BlockSteps env block pindex view after coinbase txs mid undos)
    (h' : BlockSteps env block pindex view after' coinbase' txs' mid' undos') :
    after = after' ∧ undos = undos' := by
  obtain ⟨rfl, rfl⟩ := cons_eq_cons.mp (h.vtx.symm.trans h'.vtx)
  obtain rfl : mid = mid' := h.added.after.trans h'.added.after.symm
  exact Prod.mk.inj (some.inj (h.rest.symm.trans h'.rest))

end Steps

theorem Restored.sound (h : Restored view w) (hsound : view.Sound) : w.Sound := by
  intro txid q hq
  obtain ⟨c, hc, hmatch⟩ := h.of_some_right hq
  have hs := hsound txid c hc
  have hclean : c.vout.rdropWhile CTxOut.isNull = c.vout := congrArg CCoins.vout hs.cleaned
  refine ⟨?_, hmatch.vout ▸ hs.outputs, hmatch.height ▸ hs.positive, hmatch.height ▸ hs.height,
    hmatch.vout ▸ hs.size⟩
  rw [CCoins.cleanup, hmatch.vout, hclean, ← hmatch.vout]

theorem CTxInUndo.Matches.trans {a b c : CTxInUndo} (hab : a.Matches b) (hbc : b.Matches c) :
    a.Matches c where
  txout := hbc.txout.trans hab.txout
  coinBase := hbc.coinBase.trans hab.coinBase
  height := hbc.height.trans hab.height
  version := by
    intro hpos hnonneg
    have hb := hab.version hpos hnonneg
    rw [hbc.version (hab.height ▸ hpos) (hb ▸ hnonneg), hb]

/-! ## 2. The tip -/

/-- The fees of a list of transactions that are connected one after the other. -/
def blockFees (cr : Crypto) (nHeight : Nat) : CoinsView → List CTransaction → Option CAmount
  | _, [] => some 0
  | view, tx :: txs => do
    let fee ← (txFee view tx).toOption
    let view ← view.updateCoins cr tx nHeight
    let rest ← blockFees cr nHeight view txs
    return fee + rest

/-- The tip of the active chain with the view of its coins, the undo data on disk, and the
height and the fees of each connected block above the genesis block, the last one first. -/
structure CoinsTip where
  tip : CBlockIndex
  view : CoinsView
  undo : CBlockIndex → Option Bytes
  connected : List (Nat × CAmount)

inductive TipOp where
  | connect (s : ChainState) (pindex : CBlockIndex)
  | disconnect

/-- `ConnectTip` and `DisconnectTip`, as far as the coins go; `disk` is what `ReadBlockFromDisk`
reads.  Undo data is written only if there is none for the block. -/
def tipStep (env : ConnectEnv) (ops : PubKeyOps) (disk : CBlockIndex → CBlock) (st : CoinsTip) :
    TipOp → Option CoinsTip
  | .connect s pindex =>
    -- assert(pindexNew->pprev == chainActive.Tip())
    if pindex.pprev = some st.tip then
      match connectBlock env s (disk pindex) pindex st.view false with
      | .error _ => none
      | .ok view =>
        let undo := (st.view.recordedUndo env.cr (disk pindex) pindex.nHeight).getD []
        let nFees := (blockFees env.cr pindex.nHeight st.view (disk pindex).vtx).getD 0
        some
          { tip := pindex
            view
            undo :=
              if (st.undo pindex).isSome then st.undo
              else Function.update st.undo pindex
                (some (undoWriteToDisk env.cr ops undo st.tip.getBlockHash))
            connected := (pindex.nHeight, nFees) :: st.connected }
    else none
  | .disconnect =>
    match st.tip.pprev with
    | none => none
    | some pprev =>
      match CoinsView.disconnectBlock env.cr ops (st.undo st.tip) (disk st.tip) st.tip st.view with
      | some (view, true) => some { st with tip := pprev, view, connected := st.connected.tail }
      | _ => none

/-- The blocks that are connected are above the genesis block. -/
def ConnectsAbove (env : ConnectEnv) (disk : CBlockIndex → CBlock) (_ : CoinsTip) : TipOp → Prop
  | .connect s pindex => AboveGenesis env ⟨s, disk pindex, pindex⟩
  | .disconnect => True

def genesisTip (d : BlockIndexData) : CoinsTip :=
  ⟨.root d, ⟨fun _ => none, d.hashBlock⟩, fun _ => none, []⟩

theorem blockFees_of_connectTx {env : ConnectEnv} {s : ChainState} {pindex : CBlockIndex}
    {fScriptChecks : Bool} {flags : ScriptFlags} {pr pr' : ConnectProgress}
    {txs : List CTransaction}
    (h : txs.foldlM (connectTx env s pindex fScriptChecks flags) pr = .ok pr') :
    ∃ fees, blockFees env.cr pindex.nHeight pr.view txs = some fees ∧
      pr'.nFees = pr.nFees + fees := by
  induction txs generalizing pr with
  | nil =>
    cases h
    exact ⟨0, rfl, (add_zero _).symm⟩
  | cons tx txs ih =>
    obtain ⟨mid, hround, hrest⟩ := bind_eq_ok_iff.mp h
    obtain ⟨fee, undo, hround⟩ := connectedTx_of_eq_ok hround
    obtain ⟨rest, hfees, hsum⟩ := ih hrest
    refine ⟨fee + rest, ?_, ?_⟩
    · rw [blockFees, hround.txFee, updateCoins_eq_map, hround.coins]
      exact congrArg (fun r => r.bind fun rest => some (fee + rest)) hfees
    · rw [hsum, hround.fees, add_assoc]

/-! ## 3. The blocks of the active chain, each connected once -/

def blockIssue (net : Network) (b : Nat × CAmount) : CAmount :=
  getRGMBlockSubsidy b.1 (net.params.getConsensus b.1) - b.2 / 50

/-- The view that the blocks of a line give from the genesis block on, and their fees. -/
inductive Backed (env : ConnectEnv) (disk : CBlockIndex → CBlock) :
    CBlockIndex → CoinsView → List (Nat × CAmount) → Prop
  | genesis (d : BlockIndexData) : Backed env disk (.root d) ⟨fun _ => none, d.hashBlock⟩ []
  | block {p : CBlockIndex} {d : BlockIndexData} {view after mid : CoinsView}
      {connected : List (Nat × CAmount)} {coinbase : CTransaction} {txs : List CTransaction}
      {undos : CBlockUndo} {nFees : CAmount} :
      Backed env disk p view connected →
      BlockSteps env (disk (.child p d)) (.child p d) view after coinbase txs mid undos →
      0 ≤ nFees → after.total ≤ view.total + blockIssue env.net (p.nHeight + 1, nFees) →
      Backed env disk (.child p d) { after with hashBlock := d.hashBlock }
        ((p.nHeight + 1, nFees) :: connected)

namespace Backed

variable {env : ConnectEnv} {disk : CBlockIndex → CBlock} {p : CBlockIndex}
  {view view' : CoinsView} {connected connected' : List (Nat × CAmount)}

section

variable (h : Backed env disk p view connected)

include h

theorem sound : view.Sound := by
  induction h with
  | genesis d => exact nofun
  | block _ hsteps _ _ ih => exact hsteps.sound_after ih

theorem unique (h' : Backed env disk p view' connected') : view = view' := by
  induction h generalizing view' connected' with
  | genesis d =>
    cases h' with
    | genesis => rfl
  | block _ hsteps _ _ ih =>
    cases h' with
    | block hbelow hsteps' _ _ =>
      obtain rfl := ih hbelow
      rw [(hsteps.unique hsteps').1]

/-- The unspent outputs are worth at most what the blocks have issued. -/
theorem total_le : view.total ≤ (connected.map (blockIssue env.net)).sum := by
  induction h with
  | genesis d => exact (Finset.sum_eq_zero fun _ _ => rfl).le
  | block _ _ _ hle ih =>
    rw [map_cons, sum_cons]
    have hafter := hle
    exact hafter.trans (by linarith)

theorem sum_le_issuance :
    (connected.map (blockIssue env.net)).sum ≤ issuance env.net p.nHeight := by
  induction h with
  | genesis d => exact Finset.sum_nonneg fun _ _ => getRGMBlockSubsidy_nonneg _
  | @block p d view after mid connected coinbase txs undos nFees _ _ hfees _ ih =>
    have hnext : issuance env.net (p.nHeight + 1) = issuance env.net p.nHeight +
        getRGMBlockSubsidy (p.nHeight + 1) (env.net.params.getConsensus (p.nHeight + 1)) :=
      Finset.sum_range_succ _ _
    have hburn : 0 ≤ nFees / 50 := Int.ediv_nonneg hfees (by decide)
    rw [map_cons, sum_cons, CBlockIndex.nHeight_child, blockIssue]
    linarith

end

end Backed

/-- The undo data on disk is the one of the block on the view its line gives. -/
def UndoMatches (env : ConnectEnv) (ops : PubKeyOps) (disk : CBlockIndex → CBlock)
    (p : CBlockIndex) (d : BlockIndexData) (file : Bytes) : Prop :=
  ∃ view connected after coinbase txs mid undos undos', Backed env disk p view connected ∧
    BlockSteps env (disk (.child p d)) (.child p d) view after coinbase txs mid undos ∧
    undoReadFromDisk env.cr ops file p.getBlockHash = some undos' ∧
    List.Forall₂ (List.Forall₂ CTxInUndo.Matches) undos undos'

/-- The view at the tip shows the coins that the blocks of the active chain give. -/
structure TipInv (env : ConnectEnv) (ops : PubKeyOps) (disk : CBlockIndex → CBlock)
    (st : CoinsTip) : Prop where
  backed : ∃ view, Backed env disk st.tip view st.connected ∧ Restored view st.view
  best : st.view.hashBlock = st.tip.getBlockHash
  undo : ∀ p d file, st.undo (.child p d) = some file → UndoMatches env ops disk p d file

section Invariant

variable {env : ConnectEnv} {ops : PubKeyOps} {disk : CBlockIndex → CBlock} {st st' : CoinsTip}

theorem tipInv_genesis (d : BlockIndexData) : TipInv env ops disk (genesisTip d) where
  backed := ⟨_, .genesis d, .refl _⟩
  best := rfl
  undo := nofun

theorem forall₂_trans {α : Type} {R : α → α → Prop} (hR : ∀ a b c, R a b → R b c → R a c)
    {as bs cs : List α} (hab : Forall₂ R as bs) (hbc : Forall₂ R bs cs) :
    Forall₂ R as cs := by
  induction hab generalizing cs with
  | nil => exact hbc
  | cons hfirst _ ih =>
    cases hbc with
    | cons hfirst' hrest' => exact .cons (hR _ _ _ hfirst hfirst') (ih hrest')

theorem tipStep_connect {s : ChainState} {pindex : CBlockIndex}
    (h : tipStep env ops disk st (.connect s pindex) = some st') :
    pindex.pprev = some st.tip ∧ ∃ view',
      connectBlock env s (disk pindex) pindex st.view false = .ok view' ∧
      st' =
        { tip := pindex
          view := view'
          undo :=
            if (st.undo pindex).isSome then st.undo
            else update st.undo pindex (some (undoWriteToDisk env.cr ops
              ((st.view.recordedUndo env.cr (disk pindex) pindex.nHeight).getD [])
              st.tip.getBlockHash))
          connected := (pindex.nHeight,
            (blockFees env.cr pindex.nHeight st.view (disk pindex).vtx).getD 0) ::
          st.connected } := by
  simp only [tipStep] at h
  split at h
  · next hparent =>
    split at h
    · cases h
    · next view' hconnect => exact ⟨hparent, view', hconnect, (some.inj h).symm⟩
  · cases h

theorem tipStep_disconnect (h : tipStep env ops disk st .disconnect = some st') :
    ∃ pprev view', st.tip.pprev = some pprev ∧
      disconnectBlock env.cr ops (st.undo st.tip) (disk st.tip) st.tip st.view =
        some (view', true) ∧
      st' = { st with tip := pprev, view := view', connected := st.connected.tail } := by
  simp only [tipStep] at h
  split at h
  · cases h
  · next pprev hparent =>
    split at h
    · next view' hdisconnect =>
      exact ⟨pprev, view', hparent, hdisconnect, (some.inj h).symm⟩
    · cases h

/-- The undo data that is there after a block is connected is the one of the block. -/
theorem undoMatches_connect {p : CBlockIndex} {d : BlockIndexData} {new : Bytes}
    (hinv : TipInv env ops disk st) (hnew : UndoMatches env ops disk p d new)
    (p' : CBlockIndex) (d' : BlockIndexData) (file : Bytes)
    (hfile : (if (st.undo (.child p d)).isSome then st.undo
      else update st.undo (.child p d) (some new)) (.child p' d') = some file) :
    UndoMatches env ops disk p' d' file := by
  split at hfile
  · exact hinv.undo p' d' file hfile
  · by_cases hsame : (Lineage.child p' d') = .child p d
    · obtain ⟨rfl, rfl⟩ := Lineage.child.inj hsame
      rw [update_self] at hfile
      cases hfile
      exact hnew
    · rw [update_of_ne hsame] at hfile
      exact hinv.undo p' d' file hfile

theorem tipInv_connect (henv : env.ChecksBlocks) (hops : ops.Lawful)
    (hinv : TipInv env ops disk st) {s : ChainState} {pindex : CBlockIndex}
    (habove : AboveGenesis env ⟨s, disk pindex, pindex⟩)
    (h : tipStep env ops disk st (.connect s pindex) = some st') : TipInv env ops disk st' := by
  obtain ⟨hparent, view', hconnect, rfl⟩ := tipStep_connect h
  cases pindex with
  | root d => cases hparent
  | child p d =>
    cases hparent
    obtain ⟨view, hbacked, hrestored⟩ := hinv.backed
    have hsound := hrestored.sound hbacked.sound
    obtain ⟨pprev, pr, coinbase, txs, mid', undos', hconnected, hsteps'⟩ :=
      habove.steps henv hconnect
    obtain ⟨after, mid, undos, hsteps, hafter, hundos⟩ := hsteps'.restored hrestored
    obtain ⟨fScriptChecks, hloop⟩ := hconnected.loop
    obtain ⟨nFees, hfees, hsum⟩ := blockFees_of_connectTx hloop
    obtain rfl : pr.nFees = nFees := hsum.trans (zero_add _)
    obtain ⟨hnonneg, htotal⟩ := hconnected.total_le henv habove.height habove.hashes hsound
    have hview' : view'.total = after.total := by
      rw [hconnected.after]
      exact hafter.total_eq
    rw [hview', hrestored.total_eq] at htotal
    have hrecorded : st.view.recordedUndo env.cr (disk (.child st.tip d))
        (CBlockIndex.nHeight (.child st.tip d)) = some undos' := hsteps'.recorded
    have hfees' : blockFees env.cr (CBlockIndex.nHeight (.child st.tip d)) st.view
        (disk (.child st.tip d)).vtx = some pr.nFees := hfees
    rw [hrecorded, hfees']
    refine ⟨⟨_, .block hbacked hsteps hnonneg htotal, ?_⟩, ?_, undoMatches_connect hinv ?_⟩
    · rw [hconnected.after]
      exact hafter
    · rw [hconnected.after]
    · exact ⟨view, st.connected, after, coinbase, txs, mid, undos, CBlockUndo.back undos',
        hbacked, hsteps, hsteps'.undoReadFromDisk hsound hops _,
        forall₂_trans (R := Forall₂ CTxInUndo.Matches)
          (fun _ _ _ => forall₂_trans fun _ _ _ => .trans) hundos
          (forall₂_matches_back undos')⟩

theorem tipInv_disconnect (hinv : TipInv env ops disk st)
    (h : tipStep env ops disk st .disconnect = some st') : TipInv env ops disk st' := by
  obtain ⟨view, hbacked, hrestored⟩ := hinv.backed
  obtain ⟨pprev, view', hparent, hdisconnect, rfl⟩ := tipStep_disconnect h
  obtain ⟨tip, tipView, undo, connected⟩ := st
  have hbest := hinv.best
  dsimp only at hbacked hrestored hdisconnect hbest hparent ⊢
  cases hbacked with
  | genesis d => cases hparent
  | @block p d below after mid connected coinbase txs undos nFees hbelow hsteps hfees hle =>
    obtain rfl : p = pprev := some.inj hparent
    cases hfile : undo (.child p d) with
    | none =>
      rw [hfile] at hdisconnect
      unfold disconnectBlock at hdisconnect
      split at hdisconnect <;> cases hdisconnect
    | some file =>
      obtain ⟨v, l, after', coinbase', txs', mid', undos', read, hbelow', hsteps', hread, hmatch⟩ :=
        hinv.undo p d file hfile
      obtain rfl := hbelow.unique hbelow'
      obtain rfl := (hsteps.unique hsteps').2
      obtain ⟨w, hw, hback, hhash⟩ := hsteps.disconnectBlock hbelow.sound rfl hread hmatch hrestored
        hbest
      rw [hfile, hw] at hdisconnect
      obtain ⟨rfl, -⟩ := Prod.mk.inj (some.inj hdisconnect)
      exact ⟨⟨below, hbelow, hback⟩, hhash, hinv.undo⟩

theorem tipInv_of_runs (henv : env.ChecksBlocks) (hops : ops.Lawful) {d : BlockIndexData}
    (hrun : Runs (tipStep env ops disk) (ConnectsAbove env disk) (genesisTip d) st) :
    TipInv env ops disk st := by
  refine hrun.invariant (TipInv env ops disk) (fun st op st' hinv hguard hstep => ?_)
    (tipInv_genesis d)
  cases op with
  | connect s pindex => exact tipInv_connect henv hops hinv hguard hstep
  | disconnect => exact tipInv_disconnect hinv hstep

end Invariant

/-! ## 4. No sum overflows -/

/-- The sums `ConnectBlock` makes of amounts are in range, whether it accepts the block or not:
`nValueIn` after every input of every transaction it comes to, the fee of each and `nFees`, and
the block reward. -/
structure NoOverflow (env : ConnectEnv) (s : ChainState) (block : CBlock) (pindex : CBlockIndex)
    (view : CoinsView) : Prop where
  inputs : ∀ before tx after pr, LoopReaches env s block pindex view before (tx :: after) pr →
    tx.isCoinBase = false → ∀ spent, pr.view.spentBy tx = some spent →
    ∀ k, FitsInt64 ((spent.take k).map (·.2.nValue)).sum
  fees : ∀ before tx after pr fee, LoopReaches env s block pindex view before (tx :: after) pr →
    txFee pr.view tx = .ok fee → FitsInt64 fee ∧ FitsInt64 (pr.nFees + fee)
  reward : ∀ pr, LoopReaches env s block pindex view block.vtx [] pr →
    FitsInt64 (pr.nFees - pr.nFees.tdiv 50) ∧
      FitsInt64 (pr.nFees - pr.nFees.tdiv 50 +
        getRGMBlockSubsidy pindex.nHeight (env.net.params.getConsensus pindex.nHeight))

theorem spentBy_nonneg {spent : List (CCoins × CTxOut)} (hsound : view.Sound)
    (h : view.spentBy tx = some spent) : ∀ v ∈ spent.map (·.2.nValue), 0 ≤ v := by
  intro v hv
  obtain ⟨⟨c, o⟩, hmem, rfl⟩ := mem_map.mp hv
  obtain ⟨k, hk⟩ := getElem?_of_mem hmem
  rw [getElem?_of_mapM_eq_some h] at hk
  obtain ⟨i, -, haccess⟩ := bind_eq_some_iff.mp hk
  unfold access at haccess
  split at haccess
  · cases haccess
  · next c' hcoins =>
    obtain ⟨o', hout, heq⟩ := map_eq_some_iff.mp haccess
    obtain ⟨rfl, rfl⟩ := Prod.mk.inj heq
    obtain ⟨hat, hnull⟩ := CCoins.output_eq_some_iff.mp hout
    have hunspent : unspent (view.coins i.prevout.hash) = some c' := by
      rw [hcoins]
      exact present_of_not_gone (CCoins.not_isPruned_of_output hout)
    rcases (hsound _ _ hunspent).outputs o' (mem_of_getElem? hat) with rfl | ⟨hlow, -, -⟩
    · cases hnull
    · exact hlow

theorem fitsInt64_of_bounds {x : CAmount} (hlow : -maxMoney ≤ x) (hhigh : x ≤ 3 * maxMoney) :
    FitsInt64 x := by
  have hmoney : maxMoney = 1000000000000000000 := by decide
  constructor
  · linarith
  · linarith

theorem getRGMBlockSubsidy_le_maxMoney (nHeight : Nat) (params : Consensus.Params) :
    getRGMBlockSubsidy nHeight params ≤ maxMoney := by
  have hbase : baseSubsidy (nHeight / params.nSubsidyHalvingInterval) ≤ 50 * 100000000 := by
    rw [baseSubsidy_eq_div]
    exact Nat.div_le_self _ _
  have hmoney : maxMoney = 1000000000000000000 := by decide
  rw [getRGMBlockSubsidy_eq]
  split <;> push_cast <;> linarith

theorem noOverflow_of_total_le {env : ConnectEnv} (henv : env.ChecksBlocks) {i : ConnectInput}
    (habove : AboveGenesis env i) (hsound : view.Sound) (htotal : view.total ≤ maxMoney) :
    NoOverflow env i.s i.block i.pindex view := by
  have hbounds : ∀ {before rest pr}, LoopReaches env i.s i.block i.pindex view before rest pr →
      pr.view.Sound ∧ 0 ≤ pr.nFees ∧ pr.view.total + pr.nFees ≤ 2 * maxMoney := by
    intro before rest pr h
    obtain ⟨hs, hfees, hle⟩ := h.total_le henv habove.height habove.hashes hsound
    have hcoinbase := (henv.blockChecked h.recheck).coinbaseValue_range.2
    exact ⟨hs, hfees, by linarith⟩
  refine ⟨?_, ?_, ?_⟩
  · intro before tx after pr h hcoinbase spent hspent k
    obtain ⟨hs, hfees, hle⟩ := hbounds h
    have hvalues := spentBy_nonneg hs hspent
    have hpart : ((spent.take k).map (·.2.nValue)).Sublist (spent.map (·.2.nValue)) :=
      (take_sublist k spent).map _
    have hsum := hpart.sum_le_sum hvalues
    have hall := sum_spentBy_le hs (h.checked henv) hspent
    have hlow : 0 ≤ ((spent.take k).map (·.2.nValue)).sum :=
      sum_nonneg fun v hv => hvalues v (hpart.subset hv)
    exact fitsInt64_of_bounds (by linarith) (by linarith)
  · intro before tx after pr fee h hfee
    obtain ⟨hs, hfees, hle⟩ := hbounds h
    have htotal' := hs.total_nonneg
    cases hcoinbase : tx.isCoinBase with
    | true =>
      rw [txFee, if_pos hcoinbase] at hfee
      cases hfee
      exact ⟨fitsInt64_of_bounds (by linarith) (by linarith),
        fitsInt64_of_bounds (by linarith) (by linarith)⟩
    | false =>
      obtain ⟨spent, hspent, hrange, rfl⟩ := txFee_eq_ok hcoinbase hfee
      have hall := sum_spentBy_le hs (h.checked henv) hspent
      have hin := sum_nonneg (spentBy_nonneg hs hspent)
      have hout := moneyRange_iff.mp hrange.2
      exact ⟨fitsInt64_of_bounds (by linarith) (by linarith),
        fitsInt64_of_bounds (by linarith) (by linarith)⟩
  · intro pr h
    obtain ⟨hs, hfees, hle⟩ := hbounds h
    have htotal' := hs.total_nonneg
    have hburn : pr.nFees.tdiv 50 = pr.nFees / 50 := Int.tdiv_eq_ediv_of_nonneg hfees
    have hlow : 0 ≤ pr.nFees / 50 := Int.ediv_nonneg hfees (by decide)
    have hhigh : pr.nFees / 50 ≤ pr.nFees := Int.ediv_le_self _ hfees
    have hsubsidy : 0 ≤ getRGMBlockSubsidy i.pindex.nHeight
        (env.net.params.getConsensus i.pindex.nHeight) := getRGMBlockSubsidy_nonneg _
    have hsubsidy' := getRGMBlockSubsidy_le_maxMoney i.pindex.nHeight
      (env.net.params.getConsensus i.pindex.nHeight)
    exact ⟨fitsInt64_of_bounds (by linarith) (by linarith),
      fitsInt64_of_bounds (by linarith) (by linarith)⟩

/-- Along every run of the main network the unspent outputs are worth at most the subsidies of
the connected blocks without a fiftieth of their fees, and no sum overflows in a block that is
connected or tried. -/
theorem money_conserved {env : ConnectEnv} (henv : env.ChecksBlocks) (hmain : env.net = .main)
    {ops : PubKeyOps} (hops : ops.Lawful) (disk : CBlockIndex → CBlock) (d : BlockIndexData)
    {st : CoinsTip}
    (hrun : Runs (tipStep env ops disk) (ConnectsAbove env disk) (genesisTip d) st) :
    st.view.total ≤ (st.connected.map fun b =>
        getRGMBlockSubsidy b.1 (mainParams.getConsensus b.1) - b.2 / 50).sum ∧
      ∀ s pindex, pindex.pprev = some st.tip → AboveGenesis env ⟨s, disk pindex, pindex⟩ →
        NoOverflow env s (disk pindex) pindex st.view := by
  obtain ⟨view, hbacked, hrestored⟩ := (tipInv_of_runs henv hops hrun).backed
  have hle : st.view.total ≤ (st.connected.map (blockIssue env.net)).sum := by
    rw [hrestored.total_eq]
    exact hbacked.total_le
  have hissued := hbacked.sum_le_issuance
  rw [hmain] at hle hissued
  have hsupply := (issuance_le_mainSupply st.tip.nHeight).trans mainSupply_le_maxMoney
  refine ⟨hle, fun s pindex _ habove => ?_⟩
  exact noOverflow_of_total_le henv habove (hrestored.sound hbacked.sound)
    (hle.trans (hissued.trans hsupply))

namespace SupplyExample

open UndoExample

/-- The node of the other example, on the main network. -/
def mainEnv : ConnectEnv :=
  { UndoExample.env with
    net := .main
    checkBlock := fun block fJustCheck =>
      checkBlock nonceCrypto mainParams block (!fJustCheck) (!fJustCheck) }

def genesisData : BlockIndexData := mainParams.genesis.indexData nonceCrypto

/-- Every block has a coinbase, the last one also a transaction that spends the first coinbase, as
soon as that is mature, and pays a fee of 100. -/
def blockAt (nHeight : Nat) : CBlock :=
  let spends := if nHeight = 31 then [spend 32 (coinbase 1) 1 450] else []
  let b := blockOf (.ofNat nHeight) (.ofNat nHeight + 1) (coinbase (.ofNat nHeight) :: spends)
  ⟨{ b.toCBlockHeader with nBits := 0x1e0ffff0 }, b.vtx⟩

def indexAt : Nat → CBlockIndex
  | 0 => .root genesisData
  | n + 1 => .child (indexAt n) ((blockAt (n + 1)).indexData nonceCrypto)

def disk (p : CBlockIndex) : CBlock := blockAt p.nHeight

def tree : ChainState :=
  { ChainState.initBlockIndex mainEnv.toNodeEnv with mapBlockIndex := (List.range 31).map indexAt }

def connectAt (nHeight : Nat) : TipOp := .connect tree (indexAt nHeight)

abbrev exampleStep := tipStep mainEnv noKeys disk

abbrev ExampleRuns := Runs exampleStep (ConnectsAbove mainEnv disk) (genesisTip genesisData)

theorem connectsAbove_connectAt {n : Nat} (hn : n ∈ List.range' 1 31) (st : CoinsTip) :
    ConnectsAbove mainEnv disk st (connectAt n) := by
  have hall : ∀ n ∈ List.range' 1 31,
      (disk (indexAt n)).getHash nonceCrypto ≠ (mainParams.getConsensus 0).hashGenesisBlock ∧
        (indexAt n).nHeight < 2 ^ 31 ∧ ∀ a ∈ (indexAt n).path, CBlockIndex.getBlockHash a ≠ 0 := by
    decide +kernel
  obtain ⟨hblock, hheight, hhashes⟩ := hall n hn
  exact ⟨hblock, hheight, fun a ha => hhashes a (Lineage.mem_path.mpr ha)⟩

/-- All blocks are connected, the last one is disconnected and connected again with the undo data
of the first time. -/
theorem reconnected : ∃ st st', ExampleRuns st ∧ ExampleRuns st' ∧ st.tip = indexAt 31 ∧
    st'.tip = indexAt 31 ∧ (unspent (st.view.coins ((coinbase 2).getHash nonceCrypto))).isSome ∧
    st'.connected = (31, 100) :: (List.range' 1 30).reverse.map (·, 0) := by
  have hok : ((runList exampleStep (genesisTip genesisData)
      ((List.range' 1 31).map connectAt)).any fun st =>
        (exampleStep st .disconnect).any fun mid =>
          (exampleStep mid (connectAt 31)).any fun st' =>
            decide (st.tip = indexAt 31 ∧ st'.tip = indexAt 31 ∧
              (unspent (st.view.coins ((coinbase 2).getHash nonceCrypto))).isSome ∧
              st'.connected = (31, 100) :: (List.range' 1 30).reverse.map (·, 0))) = true := by
    decide +kernel
  obtain ⟨st, hst, hok⟩ := (Option.any_eq_true _ _).mp hok
  obtain ⟨mid, hmid, hok⟩ := (Option.any_eq_true _ _).mp hok
  obtain ⟨st', hst', hok⟩ := (Option.any_eq_true _ _).mp hok
  have hrun : ExampleRuns st := by
    refine runs_of_runList (List.forall_mem_map.mpr fun n hn => ?_) hst
    exact connectsAbove_connectAt hn
  have hback : ExampleRuns mid := .tail (i := .disconnect) hrun trivial hmid
  have hforth : ExampleRuns st' := hback.tail (connectsAbove_connectAt (by decide) mid) hst'
  exact ⟨st, st', hrun, hforth, of_decide_eq_true hok⟩

theorem noKeys_lawful : noKeys.Lawful := ⟨nofun⟩

end SupplyExample

open SupplyExample in
theorem money_conserved_reconnect :
    ∃ st, ExampleRuns st ∧ st.connected = (31, 100) :: (List.range' 1 30).reverse.map (·, 0) ∧
      st.view.total ≤ 31 * 5000000000 - 2 := by
  obtain ⟨-, st, -, hrun, -, -, -, hconnected⟩ := reconnected
  have hle := (money_conserved (fun _ _ => rfl) rfl noKeys_lawful _ _ hrun).1
  rw [hconnected] at hle
  exact ⟨st, hrun, hconnected, hle.trans (by decide +kernel)⟩

end RgmNode
