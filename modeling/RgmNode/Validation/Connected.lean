import RgmNode.Validation.Undo

/-!
# What `ConnectBlock` has found

A block above the genesis block that `ConnectBlock` accepts, part by part: the block passed
`CheckBlock`, no transaction overwrites another, the loop over the transactions went through and
the coinbase takes no more than the reward.

* `connectedTx_of_eq_ok` — one round of the loop
* `connectedBlock_of_eq_ok` — a whole block
-/

namespace RgmNode

open Checks Option

/-! ## 1. Coins and records -/

namespace CoinsView

theorem spendInput_eq_map (view : CoinsView) (txin : CTxIn) :
    view.spendInput txin = (view.spendInputUndo txin).map (·.1) := by
  unfold spendInput spendInputUndo
  cases view.coins txin.prevout.hash with
  | none => rfl
  | some c =>
    dsimp only
    cases c.output txin.prevout.n.toNat with
    | none => rfl
    | some txout => rfl

theorem foldlM_spendInput_eq_map (view : CoinsView) (vin : List CTxIn) :
    vin.foldlM spendInput view = (view.spendInputsUndo vin).map (·.1) := by
  induction vin generalizing view with
  | nil => rfl
  | cons txin vin ih =>
    rw [List.foldlM_cons, spendInput_eq_map, spendInputsUndo]
    cases view.spendInputUndo txin with
    | none => rfl
    | some r =>
      have hrest := ih r.1
      cases hr : r.1.spendInputsUndo vin with
      | none | some r' =>
        simpa [hr] using hrest

/-- `UpdateCoins` changes the coins whether the records are looked at or not. -/
theorem updateCoins_eq_map (cr : Crypto) (view : CoinsView) (tx : CTransaction) (nHeight : Nat) :
    view.updateCoins cr tx nHeight = (view.updateCoinsUndo cr tx nHeight).map (·.1) := by
  unfold updateCoins updateCoinsUndo spendInputs
  cases tx.isCoinBase with
  | true =>
    simp only [if_true, bind_some]
    cases view.addCoins cr tx nHeight with
    | none => rfl
    | some added => rfl
  | false =>
    simp only [Bool.false_eq_true, if_false, foldlM_spendInput_eq_map]
    cases view.spendInputsUndo tx.vin with
    | none => rfl
    | some r =>
      simp only [map_some, bind_some]
      cases r.1.addCoins cr tx nHeight with
      | none => rfl
      | some added => rfl

end CoinsView

/-! ## 2. Transactions -/

variable {env : ConnectEnv} {s : ChainState} {pindex : CBlockIndex} {fScriptChecks : Bool}
  {flags : ScriptFlags} {pr pr' : ConnectProgress} {tx : CTransaction}

/-- A transaction that passes, with its fee and what is recorded of its inputs. -/
structure ConnectedTx (env : ConnectEnv) (s : ChainState) (pindex : CBlockIndex)
    (pr pr' : ConnectProgress) (tx : CTransaction) (fee : CAmount) (undo : CTxUndo) : Prop where
  txFee : txFee pr.view tx = .ok fee
  inputs : tx.isCoinBase = false →
    ∃ nSpendHeight, checkTxInputs env.net.params pr.view nSpendHeight tx = .ok ()
  coins : pr.view.updateCoinsUndo env.cr tx pindex.nHeight = some (pr'.view, undo)
  fees : pr'.nFees = pr.nFees + fee

variable {view : CoinsView} {block : CBlock}

theorem checkTxInputs_of_checkInputs {checks : List ScriptCheck} (hcoinbase : tx.isCoinBase = false)
    (h : checkInputs env s view fScriptChecks flags tx = .ok checks) :
    ∃ nSpendHeight, checkTxInputs env.net.params view nSpendHeight tx = .ok () := by
  unfold checkInputs at h
  rw [if_neg (ne_true_of_eq_false hcoinbase)] at h
  obtain ⟨nSpendHeight, -, h⟩ := bind_eq_ok_iff.mp h
  obtain ⟨⟨⟩, hinputs, -⟩ := bind_eq_ok_iff.mp h
  exact ⟨nSpendHeight, hinputs⟩

theorem connectedTx_of_eq_ok (h : connectTx env s pindex fScriptChecks flags pr tx = .ok pr') :
    ∃ fee undo, ConnectedTx env s pindex pr pr' tx fee undo := by
  obtain ⟨_, -, h⟩ := bind_eq_ok_iff.mp h
  obtain ⟨cost, -, h⟩ := bind_eq_ok_iff.mp h
  obtain ⟨_, -, h⟩ := bind_eq_ok_iff.mp h
  obtain ⟨fee, hfee, h⟩ := bind_eq_ok_iff.mp h
  obtain ⟨checks, hchecks, h⟩ := bind_eq_ok_iff.mp h
  obtain ⟨view, hview, h⟩ := bind_eq_ok_iff.mp h
  cases h
  rw [demand_eq_ok_iff, CoinsView.updateCoins_eq_map, map_eq_some_iff] at hview
  obtain ⟨⟨view', undo⟩, hcoins, rfl⟩ := hview
  exact ⟨fee, undo, hfee, fun hcoinbase => checkTxInputs_of_checkInputs hcoinbase hchecks, hcoins,
    rfl⟩

/-- The loop updates the coins, and what it spends is recorded. -/
theorem updateAllUndo_of_connectTx {txs : List CTransaction}
    (h : txs.foldlM (connectTx env s pindex fScriptChecks flags) pr = .ok pr') :
    ∃ undos, pr.view.updateAllUndo env.cr pindex.nHeight txs = some (pr'.view, undos) := by
  induction txs generalizing pr with
  | nil =>
    cases h
    exact ⟨[], rfl⟩
  | cons tx txs ih =>
    obtain ⟨mid, hround, hrest⟩ := bind_eq_ok_iff.mp h
    obtain ⟨fee, undo, hround⟩ := connectedTx_of_eq_ok hround
    obtain ⟨undos, hundos⟩ := ih hrest
    refine ⟨undo :: undos, ?_⟩
    rw [CoinsView.updateAllUndo, hround.coins, bind_some, hundos, map_some]

/-! ## 3. Blocks -/

/-- A block above the genesis block that is connected, with the variables of the loop at its
end. -/
structure ConnectedBlock (env : ConnectEnv) (s : ChainState) (block : CBlock)
    (pindex pprev : CBlockIndex) (view view' : CoinsView) (pr : ConnectProgress) : Prop where
  parent : pindex.pprev = some pprev
  best : pprev.getBlockHash = view.hashBlock
  recheck : recheckBlock env block false = .ok ()
  bip30 : checkBIP30 env pprev view block = .ok ()
  loop : ∃ fScriptChecks, block.vtx.foldlM
    (connectTx env s pindex fScriptChecks (blockFlags env pindex)) ⟨view, 0, 0, []⟩ = .ok pr
  reward : ∃ coinbase nValueOut, block.vtx.head? = some coinbase ∧
    coinbase.getValueOut = some nValueOut ∧
    nValueOut ≤ pr.nFees - pr.nFees.tdiv 50 +
      getRGMBlockSubsidy pindex.nHeight (env.net.params.getConsensus pindex.nHeight)
  after : view' = { pr.view with hashBlock := pindex.getBlockHash }

theorem connectedBlock_of_eq_ok {view' : CoinsView}
    (habove : block.getHash env.cr ≠ (env.net.params.getConsensus 0).hashGenesisBlock)
    (h : connectBlock env s block pindex view false = .ok view') :
    ∃ pprev pr, ConnectedBlock env s block pindex pprev view view' pr := by
  obtain ⟨⟨⟩, hrecheck, h⟩ := bind_eq_ok_iff.mp h
  obtain ⟨hbest, h⟩ := require_bind_eq_ok_iff.mp h
  obtain ⟨v, hv, h⟩ := bind_eq_ok_iff.mp h
  cases h
  rw [connectCoins, if_neg habove] at hv
  obtain ⟨fScriptChecks, -, hv⟩ := bind_eq_ok_iff.mp hv
  obtain ⟨pprev, hpprev, hv⟩ := bind_eq_ok_iff.mp hv
  obtain ⟨⟨⟩, hbip30, hv⟩ := bind_eq_ok_iff.mp hv
  obtain ⟨pr, hloop, hv⟩ := bind_eq_ok_iff.mp hv
  obtain ⟨coinbase, hcoinbase, hv⟩ := bind_eq_ok_iff.mp hv
  obtain ⟨nValueOut, hvalue, hv⟩ := bind_eq_ok_iff.mp hv
  obtain ⟨hreward, hv⟩ := require_bind_eq_ok_iff.mp hv
  obtain ⟨-, hv⟩ := require_bind_eq_ok_iff.mp hv
  cases hv
  rw [demand_eq_ok_iff] at hpprev hcoinbase hvalue
  rw [hpprev] at hbest
  exact ⟨pprev, pr, hpprev, hbest, hrecheck, hbip30, ⟨fScriptChecks, hloop⟩,
    ⟨coinbase, nValueOut, hcoinbase, hvalue, hreward⟩, rfl⟩

/-- What `ConnectBlock` records of a block is the records of the loop, but for the coinbase. -/
theorem ConnectedBlock.undos {pprev : CBlockIndex} {view' : CoinsView}
    (h : ConnectedBlock env s block pindex pprev view view' pr) :
    ∃ undos, view.updateAllUndo env.cr pindex.nHeight block.vtx = some (pr.view, undos) := by
  obtain ⟨fScriptChecks, hloop⟩ := h.loop
  exact updateAllUndo_of_connectTx hloop

/-- Without a known block at the height of BIP 34 no transaction of the block has unspent outputs
before it. -/
theorem all_isPruned_of_checkBIP30 {pprev : CBlockIndex}
    (h : checkBIP30 env pprev view block = .ok ())
    (hnull : ∀ a : CBlockIndex, a ≤ pprev → a.getBlockHash ≠ 0) (htx : tx ∈ block.vtx) :
    (view.coins (tx.getHash env.cr)).all (·.isPruned) = true := by
  refine require_eq_ok_iff.mp h ?_ tx htx
  split
  · rfl
  · next a hancestor =>
    exact bne_iff_ne.mpr (hnull a (Lineage.ancestorAt_eq_some_iff.mp hancestor).1)

theorem CBlockIndex.nHeight_pos {p q : CBlockIndex} (h : p.pprev = some q) : 0 < p.nHeight := by
  have hnext : p.nHeight = q.nHeight + 1 := Lineage.height_of_parent? h
  rw [hnext]
  exact Nat.succ_pos _

end RgmNode
