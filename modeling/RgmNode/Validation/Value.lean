import Mathlib.Algebra.Order.BigOperators.Group.Finset
import Mathlib.Data.Fintype.EquivFin
import Mathlib.Tactic.Linarith
import RgmNode.Validation.Disconnect

/-!
# The value of the unspent outputs

What spending, adding and whole blocks do to the sum of all unspent outputs.  A transaction
takes at least its fee out of the sum, and the coinbase puts back no more than the fees without
the burnt part, and the subsidy.
-/

namespace RgmNode

open Checks WriteBack List CoinsView CTxOut

/-! ## 1. Outputs -/

/-- The value of the outputs that are not null. -/
def outputsValue (vout : List CTxOut) : CAmount :=
  ((vout.filter fun o => !o.isNull).map (·.nValue)).sum

theorem outputsValue_cons (o : CTxOut) (vout : List CTxOut) :
    outputsValue (o :: vout) = (if o.isNull then 0 else o.nValue) + outputsValue vout := by
  unfold outputsValue
  cases h : o.isNull with
  | true => simp [h]
  | false => simp [h]

theorem outputsValue_append (a b : List CTxOut) :
    outputsValue (a ++ b) = outputsValue a + outputsValue b := by
  simp [outputsValue]

theorem outputsValue_eq_zero {vout : List CTxOut} (h : ∀ o ∈ vout, o.isNull = true) :
    outputsValue vout = 0 := by
  have hnone : (vout.filter fun o => !o.isNull) = [] :=
    filter_eq_nil_iff.mpr fun o ho => by simp [h o ho]
  rw [outputsValue, hnone]
  rfl

theorem outputsValue_rdropWhile (vout : List CTxOut) :
    outputsValue (vout.rdropWhile isNull) = outputsValue vout := by
  have hsplit : vout.rdropWhile isNull ++ vout.rtakeWhile isNull = vout :=
    rdropWhile_append_rtakeWhile
  have hend : outputsValue (vout.rtakeWhile isNull) = 0 :=
    outputsValue_eq_zero fun o ho => mem_rtakeWhile_imp ho
  calc outputsValue (vout.rdropWhile isNull)
      = outputsValue (vout.rdropWhile isNull) +
          outputsValue (vout.rtakeWhile isNull) := by rw [hend, add_zero]
    _ = outputsValue vout := by rw [← outputsValue_append, hsplit]

theorem outputsValue_set {vout : List CTxOut} {n : Nat} {o : CTxOut} (hn : vout[n]? = some o)
    (hnull : o.isNull = false) :
    outputsValue (vout.set n null) + o.nValue = outputsValue vout := by
  induction vout generalizing n with
  | nil => cases hn
  | cons a vout ih =>
    cases n with
    | zero =>
      cases hn
      have hzero : null.isNull = true := rfl
      rw [set_cons_zero, outputsValue_cons, outputsValue_cons, hzero, hnull]
      simp only [if_true, Bool.false_eq_true, if_false]
      ring
    | succ n =>
      rw [set_cons_succ, outputsValue_cons, outputsValue_cons, add_assoc, ih hn]

theorem outputsValue_nonneg {vout : List CTxOut}
    (h : ∀ o ∈ vout, o.isNull = false → 0 ≤ o.nValue) : 0 ≤ outputsValue vout := by
  refine sum_nonneg fun v hv => ?_
  obtain ⟨o, ho, rfl⟩ := mem_map.mp hv
  obtain ⟨hmem, hnull⟩ := mem_filter.mp ho
  exact h o hmem (by simpa using hnull)

namespace CCoins

def value (c : CCoins) : CAmount := outputsValue c.vout

theorem value_spend {c : CCoins} {n : Nat} {o : CTxOut} (h : c.output n = some o) :
    (c.spend n).value + o.nValue = c.value := by
  obtain ⟨hn, hnull⟩ := output_eq_some_iff.mp h
  have hspend : (c.spend n).value = outputsValue (c.vout.set n null) :=
    outputsValue_rdropWhile _
  rw [hspend]
  exact outputsValue_set hn hnull

theorem Sound.value_nonneg {c : CCoins} (h : c.Sound) : 0 ≤ c.value := by
  refine outputsValue_nonneg fun o ho hnull => ?_
  rcases h.outputs o ho with rfl | ⟨hlow, -, -⟩
  · cases hnull
  · exact hlow

theorem value_fromTx_le {tx : CTransaction} (h : TxChecked tx) (nHeight : Nat) :
    (fromTx tx nHeight).value ≤ (tx.vout.map (·.nValue)).sum := by
  have hdrop : (fromTx tx nHeight).value = outputsValue (tx.vout.map fun o =>
      if CScript.isUnspendable o.scriptPubKey then null else o) :=
    outputsValue_rdropWhile _
  have hrange : ∀ o ∈ tx.vout, 0 ≤ o.nValue := fun o ho =>
    (moneyRange_iff.mp (h.outputs.1 _ (mem_map_of_mem ho))).1
  rw [hdrop]
  generalize tx.vout = outs at hrange
  induction outs with
  | nil => exact le_refl 0
  | cons o outs ih =>
    rw [forall_mem_cons] at hrange
    have hrest := ih hrange.2
    rw [map_cons, outputsValue_cons, map_cons]
    have hfirst : (if (if CScript.isUnspendable o.scriptPubKey then null else o).isNull
        then 0 else (if CScript.isUnspendable o.scriptPubKey then null else o).nValue) ≤
          o.nValue := by
      split
      · exact hrange.1
      · split
        · exact hrange.1
        · exact le_refl _
    exact add_le_add hfirst hrest

end CCoins

/-! ## 2. Views -/

variable {view view' w : CoinsView} {txid : Uint256} {out : COutPoint} {undo : CTxInUndo}
  {undos : CTxUndo} {c : CCoins} {txout : CTxOut} {tx : CTransaction} {vin : List CTxIn}
  {spent : List (CCoins × CTxOut)}

instance : Finite Uint256 := Finite.of_injective BitVec.toFin fun _ _ h => BitVec.toFin_inj.mp h

noncomputable instance : Fintype Uint256 := Fintype.ofFinite _

def coinsValue (o : Option CCoins) : CAmount := o.elim 0 CCoins.value

theorem coinsValue_some : coinsValue (some c) = c.value := rfl

theorem coinsValue_unspent (o : Option CCoins) : coinsValue (unspent o) = coinsValue o := by
  cases o with
  | none => rfl
  | some c =>
    cases hp : c.isPruned with
    | true =>
      rw [unspent, present_of_gone hp]
      exact (outputsValue_eq_zero fun o ho => all_eq_true.mp hp o ho).symm
    | false => rw [unspent, present_of_not_gone hp]

noncomputable def CoinsView.total (view : CoinsView) : CAmount :=
  ∑ txid : Uint256, coinsValue (view.coins txid)

theorem CoinsView.total_update (h : ∀ k, k ≠ txid → view'.coins k = view.coins k) :
    view'.total + coinsValue (view.coins txid) =
      view.total + coinsValue (view'.coins txid) := by
  have hrest : ∑ k ∈ Finset.univ.erase txid, coinsValue (view'.coins k) =
      ∑ k ∈ Finset.univ.erase txid, coinsValue (view.coins k) :=
    Finset.sum_congr rfl fun k hk => by rw [h k (Finset.ne_of_mem_erase hk)]
  have hview := Finset.add_sum_erase Finset.univ (fun k => coinsValue (view.coins k))
    (Finset.mem_univ txid)
  have hview' := Finset.add_sum_erase Finset.univ (fun k => coinsValue (view'.coins k))
    (Finset.mem_univ txid)
  rw [total, total, ← hview, ← hview', hrest]
  ring

theorem CoinsView.Sound.total_nonneg (h : view.Sound) : 0 ≤ view.total := by
  refine Finset.sum_nonneg fun txid _ => ?_
  rw [← coinsValue_unspent]
  cases hc : unspent (view.coins txid) with
  | none => exact le_refl 0
  | some c => exact (h txid c hc).value_nonneg

theorem Restored.total_eq (h : Restored view w) : w.total = view.total := by
  refine Finset.sum_congr rfl fun txid _ => ?_
  rw [← coinsValue_unspent (w.coins txid), ← coinsValue_unspent (view.coins txid)]
  cases hc : unspent (view.coins txid) with
  | none => rw [h.of_none hc]
  | some c =>
    obtain ⟨q, hq, hmatch⟩ := h.of_some hc
    rw [hq]
    exact congrArg outputsValue hmatch.vout

theorem SpendStep.txout_eq (h : SpendStep view view' out undo c txout) : undo.txout = txout := by
  rw [h.undo]
  split <;> rfl

theorem SpendStep.total (h : SpendStep view view' out undo c txout) :
    view'.total + undo.txout.nValue = view.total := by
  have hupdate := total_update fun k hk => h.coins_of_ne hk
  have hvalue := CCoins.value_spend h.output
  rw [h.coins, h.coins_self, coinsValue_some, coinsValue_some] at hupdate
  rw [h.txout_eq]
  linarith

/-- The outputs of a transaction are added to the sum, but for those that cannot be spent. -/
theorem AddStep.total_le {cr : Crypto} {nHeight : Nat} (h : AddStep cr view view' tx nHeight)
    (htx : TxChecked tx) : view'.total ≤ view.total + (tx.vout.map (·.nValue)).sum := by
  have hupdate := total_update fun k hk => h.coins_of_ne hk
  have hle := CCoins.value_fromTx_le htx nHeight
  have hfresh : coinsValue (view.coins (tx.getHash cr)) = 0 := by
    rw [← coinsValue_unspent, h.fresh]
    rfl
  rw [h.coins_self, coinsValue_some] at hupdate
  linarith

/-! ## 3. The outputs a transaction spends -/

theorem mapM_cons_eq_some_iff {α β : Type} {f : α → Option β} {a : α} {as : List α}
    {bs : List β} :
    (a :: as).mapM f = some bs ↔ ∃ b bs', f a = some b ∧ as.mapM f = some bs' ∧ bs = b :: bs' := by
  rw [mapM_cons]
  constructor
  · intro h
    obtain ⟨b, hb, h⟩ := Option.bind_eq_some_iff.mp h
    obtain ⟨bs', hbs', h⟩ := Option.bind_eq_some_iff.mp h
    exact ⟨b, bs', hb, hbs', (Option.some.inj h).symm⟩
  · rintro ⟨b, bs', hb, hbs', rfl⟩
    rw [hb, hbs']
    rfl

theorem mapM_eq_some_of_imp {α β : Type} {f g : α → Option β} {as : List α} {bs : List β}
    (h : ∀ a ∈ as, ∀ b, f a = some b → g a = some b) (hf : as.mapM f = some bs) :
    as.mapM g = some bs := by
  induction as generalizing bs with
  | nil => exact hf
  | cons a as ih =>
    rw [forall_mem_cons] at h
    obtain ⟨b, bs', hb, hbs', rfl⟩ := mapM_cons_eq_some_iff.mp hf
    exact mapM_cons_eq_some_iff.mpr ⟨b, bs', h.1 b hb, ih h.2 hbs', rfl⟩

theorem mapM_map_eq_some {α β γ : Type} {f : α → Option β} {g : β → γ} {as : List α}
    {bs : List β} (h : as.mapM f = some bs) :
    as.mapM (fun a => (f a).map g) = some (bs.map g) := by
  induction as generalizing bs with
  | nil =>
    cases h
    rfl
  | cons a as ih =>
    obtain ⟨b, bs', hb, hbs', rfl⟩ := mapM_cons_eq_some_iff.mp h
    exact mapM_cons_eq_some_iff.mpr ⟨g b, bs'.map g, by rw [hb]; rfl, ih hbs', rfl⟩

def CoinsView.outputAt (view : CoinsView) (p : COutPoint) : Option CTxOut :=
  (view.access p).map (·.2)

theorem CoinsView.outputAt_of_coins {p : COutPoint} (h : view.coins p.hash = some c) :
    view.outputAt p = c.output p.n.toNat := by
  unfold outputAt access
  rw [h]
  dsimp only
  cases c.output p.n.toNat with
  | none => rfl
  | some o => rfl

theorem SpendStep.outputAt (h : SpendStep view view' out undo c txout) (p : COutPoint) :
    view'.outputAt p = if p = out then none else view.outputAt p := by
  by_cases hhash : p.hash = out.hash
  · have hbefore : view.coins p.hash = some c := by rw [hhash, h.coins]
    have hafter : view'.coins p.hash = some (c.spend out.n.toNat) := by rw [hhash, h.coins_self]
    rw [outputAt_of_coins hbefore, outputAt_of_coins hafter, CCoins.output_spend]
    have hplace : p.n.toNat = out.n.toNat ↔ p = out := by
      obtain ⟨hash, n⟩ := p
      obtain ⟨hash', n'⟩ := out
      rw [UInt32.toNat_inj, COutPoint.mk.injEq, and_iff_right hhash]
    simp only [hplace]
  · have hne : p ≠ out := fun heq => hhash (congrArg COutPoint.hash heq)
    rw [if_neg hne]
    unfold CoinsView.outputAt CoinsView.access
    rw [h.coins_of_ne hhash]

theorem SpendStep.outputAt_self (h : SpendStep view view' out undo c txout) :
    view.outputAt out = some undo.txout := by
  rw [outputAt_of_coins h.coins, h.output, h.txout_eq]

/-- The outputs that are spent one after the other are those that were there before. -/
theorem outputs_of_spendInputsUndo (h : view.spendInputsUndo vin = some (view', undos)) :
    vin.mapM (fun i => view.outputAt i.prevout) = some (undos.map (·.txout)) := by
  induction vin generalizing view undos with
  | nil =>
    cases h
    rfl
  | cons txin vin ih =>
    obtain ⟨mid, undo, rest, c, txout, hspend, hrest, rfl⟩ := spendInputsUndo_cons_eq_some h
    refine mapM_cons_eq_some_iff.mpr ⟨_, _, hspend.outputAt_self, ?_, rfl⟩
    refine mapM_eq_some_of_imp (fun i _ o ho => ?_) (ih hrest)
    rw [hspend.outputAt] at ho
    split at ho
    · cases ho
    · exact ho

theorem spendInputUndo_of_outputAt {txin : CTxIn} {o : CTxOut}
    (h : view.outputAt txin.prevout = some o) :
    ∃ view' undo, view.spendInputUndo txin = some (view', undo) := by
  unfold spendInputUndo
  cases hc : view.coins txin.prevout.hash with
  | none =>
    unfold outputAt access at h
    rw [hc] at h
    cases h
  | some c =>
    rw [outputAt_of_coins hc] at h
    simp only [h]
    exact ⟨_, _, rfl⟩

/-- Different outputs that are there can be spent one after the other. -/
theorem spendInputsUndo_of_outputs {outs : List CTxOut} (hdistinct : (vin.map (·.prevout)).Nodup)
    (h : vin.mapM (fun i => view.outputAt i.prevout) = some outs) :
    ∃ view' undos, view.spendInputsUndo vin = some (view', undos) := by
  induction vin generalizing view outs with
  | nil => exact ⟨view, [], rfl⟩
  | cons txin vin ih =>
    obtain ⟨o, outs', ho, hrest, rfl⟩ := mapM_cons_eq_some_iff.mp h
    rw [map_cons, nodup_cons] at hdistinct
    obtain ⟨mid, undo, hstep⟩ := spendInputUndo_of_outputAt ho
    obtain ⟨c, txout, hspend⟩ := spendStep_of_spendInputUndo hstep
    have hmid : vin.mapM (fun i => mid.outputAt i.prevout) = some outs' := by
      refine mapM_eq_some_of_imp (fun i hi o ho => ?_) hrest
      have hne : i.prevout ≠ txin.prevout := fun heq =>
        hdistinct.1 (heq ▸ mem_map_of_mem hi)
      rw [hspend.outputAt, if_neg hne]
      exact ho
    obtain ⟨view', undos, hundos⟩ := ih hdistinct.2 hmid
    refine ⟨view', undo :: undos, ?_⟩
    rw [spendInputsUndo, hstep, Option.bind_some, hundos, Option.map_some]

theorem spendInputsUndo_total (h : view.spendInputsUndo vin = some (view', undos)) :
    view'.total + (undos.map (·.txout.nValue)).sum = view.total := by
  induction vin generalizing view undos with
  | nil =>
    cases h
    rw [map_nil, sum_nil, add_zero]
  | cons txin vin ih =>
    obtain ⟨mid, undo, rest, c, txout, hspend, hrest, rfl⟩ := spendInputsUndo_cons_eq_some h
    have hmid := hspend.total
    have hend := ih hrest
    rw [map_cons, sum_cons]
    linarith

/-- The outputs that are spent by a transaction, where they are spent one after the other. -/
theorem sum_spentBy (h : view.spendInputsUndo tx.vin = some (view', undos))
    (hspent : view.spentBy tx = some spent) :
    view'.total + (spent.map (·.2.nValue)).sum = view.total := by
  have houts := outputs_of_spendInputsUndo h
  have hsame : spent.map (·.2) = undos.map (·.txout) :=
    Option.some.inj ((mapM_map_eq_some hspent).symm.trans houts)
  have hvalues : spent.map (·.2.nValue) = undos.map (·.txout.nValue) := by
    have := congrArg (List.map nValue) hsame
    rwa [map_map, map_map] at this
  rw [hvalues]
  exact spendInputsUndo_total h

/-- What the inputs of a checked transaction find is not more than there is. -/
theorem sum_spentBy_le (hsound : view.Sound) (htx : TxChecked tx)
    (hspent : view.spentBy tx = some spent) : (spent.map (·.2.nValue)).sum ≤ view.total := by
  obtain ⟨view', undos, hundos⟩ := spendInputsUndo_of_outputs htx.distinct (mapM_map_eq_some hspent)
  have hsum := sum_spentBy hundos hspent
  have hnonneg : 0 ≤ view'.total :=
    CoinsView.Sound.total_nonneg (spendInputsUndo_every (fun _ _ hc => hc.spend _) hundos hsound)
  linarith

/-! ## 4. Transactions -/

section Blocks

variable {env : ConnectEnv} {s : ChainState} {block : CBlock} {pindex pprev : CBlockIndex}
  {pr pr' : ConnectProgress}

theorem txFee_eq_ok {fee : CAmount} (hcoinbase : tx.isCoinBase = false)
    (h : txFee view tx = .ok fee) :
    ∃ spent, view.spentBy tx = some spent ∧ InRange 0 (tx.vout.map (·.nValue)) ∧
      fee = (spent.map (·.2.nValue)).sum - (tx.vout.map (·.nValue)).sum := by
  unfold txFee at h
  rw [if_neg (ne_true_of_eq_false hcoinbase)] at h
  obtain ⟨nValueIn, hin, h⟩ := bind_eq_ok_iff.mp h
  obtain ⟨nValueOut, hout, h⟩ := bind_eq_ok_iff.mp h
  cases h
  rw [demand_eq_ok_iff] at hin hout
  obtain ⟨hrange, rfl⟩ := getValueOut_eq_some_iff.mp hout
  rw [getValueIn, if_neg (ne_true_of_eq_false hcoinbase)] at hin
  obtain ⟨spent, hspent, rfl⟩ := Option.map_eq_some_iff.mp hin
  exact ⟨spent, hspent, hrange, rfl⟩

/-- A transaction takes at least its fee out of the sum. -/
theorem ConnectedTx.total_le {fee : CAmount} {undo : CTxUndo}
    (h : ConnectedTx env s pindex pr pr' tx fee undo) (hcoinbase : tx.isCoinBase = false)
    (htx : TxChecked tx) : 0 ≤ fee ∧ pr'.view.total + fee ≤ pr.view.total := by
  obtain ⟨spent, hspent, -, rfl⟩ := txFee_eq_ok hcoinbase h.txFee
  obtain ⟨nSpendHeight, hinputs⟩ := h.inputs hcoinbase
  obtain ⟨spent', horder, -⟩ := checkTxInputs_eq_ok_iff.mp hinputs
  cases hspent.symm.trans horder.spentBy
  obtain ⟨mid, hmid, hadd⟩ := updateCoinsUndo_eq_some hcoinbase h.coins
  have hin := sum_spentBy hmid hspent
  have hout := hadd.total_le htx
  exact ⟨sub_nonneg.mpr horder.balance, by linarith⟩

/-- The transactions after the coinbase take at least their fees out of the sum. -/
theorem connectTxs_total {fScriptChecks : Bool} {flags : ScriptFlags} {txs : List CTransaction}
    (hcoinbase : ∀ tx ∈ txs, tx.isCoinBase = false) (hchecked : ∀ tx ∈ txs, TxChecked tx)
    (h : txs.foldlM (connectTx env s pindex fScriptChecks flags) pr = .ok pr') :
    pr.nFees ≤ pr'.nFees ∧ pr'.view.total + pr'.nFees ≤ pr.view.total + pr.nFees := by
  induction txs generalizing pr with
  | nil =>
    cases h
    exact ⟨le_refl _, le_refl _⟩
  | cons tx txs ih =>
    rw [forall_mem_cons] at hcoinbase hchecked
    obtain ⟨mid, hround, hrest⟩ := bind_eq_ok_iff.mp h
    obtain ⟨fee, undo, hround⟩ := connectedTx_of_eq_ok hround
    obtain ⟨hnonneg, htotal⟩ := hround.total_le hcoinbase.1 hchecked.1
    obtain ⟨hfees, hloop⟩ := ih hcoinbase.2 hchecked.2 hrest
    have hsum := hround.fees
    constructor
    · linarith
    · linarith

/-! ## 5. Blocks -/

/-- The loop over the transactions of a block has come to the transactions `rest`. -/
structure LoopReaches (env : ConnectEnv) (s : ChainState) (block : CBlock) (pindex : CBlockIndex)
    (view : CoinsView) (before rest : List CTransaction) (pr : ConnectProgress) : Prop where
  recheck : recheckBlock env block false = .ok ()
  bip30 : ∃ pprev, pindex.pprev = some pprev ∧ checkBIP30 env pprev view block = .ok ()
  vtx : block.vtx = before ++ rest
  loop : ∃ fScriptChecks, before.foldlM
    (connectTx env s pindex fScriptChecks (blockFlags env pindex)) ⟨view, 0, 0, []⟩ = .ok pr

theorem LoopReaches.checked {before after : List CTransaction}
    (h : LoopReaches env s block pindex view before (tx :: after) pr) (henv : env.ChecksBlocks) :
    TxChecked tx := by
  refine (henv.blockChecked h.recheck).checked tx ?_
  rw [h.vtx]
  exact mem_append_right _ mem_cons_self

theorem ConnectedBlock.reaches (h : ConnectedBlock env s block pindex pprev view view' pr) :
    LoopReaches env s block pindex view block.vtx [] pr :=
  ⟨h.recheck, ⟨pprev, h.parent, h.bip30⟩, (append_nil _).symm, h.loop⟩

def coinbaseValue (block : CBlock) : CAmount :=
  block.vtx.head?.elim 0 fun tx => (tx.vout.map (·.nValue)).sum

theorem coinbaseValue_eq {coinbase : CTransaction} (h : block.vtx.head? = some coinbase) :
    coinbaseValue block = (coinbase.vout.map (·.nValue)).sum := by
  rw [coinbaseValue, h]
  rfl

theorem BlockChecked.coinbaseValue_range (h : BlockChecked block) :
    0 ≤ coinbaseValue block ∧ coinbaseValue block ≤ maxMoney := by
  obtain ⟨coinbase, txs, hvtx, -, -⟩ := h.first
  have hrange := (h.checked coinbase (hvtx ▸ mem_cons_self)).outputs.2
  have hhead : block.vtx.head? = some coinbase := congrArg List.head? hvtx
  rw [coinbaseValue_eq hhead]
  rw [zero_add] at hrange
  exact moneyRange_iff.mp hrange

/-- At every point of the loop the unspent outputs and the fees together are not more than the
outputs before the block and those of its coinbase. -/
theorem LoopReaches.total_le {before rest : List CTransaction}
    (h : LoopReaches env s block pindex view before rest pr) (henv : env.ChecksBlocks)
    (hheight : pindex.nHeight < 2 ^ 31)
    (hhashes : ∀ a : CBlockIndex, a ≤ pindex → a.getBlockHash ≠ 0) (hsound : view.Sound) :
    pr.view.Sound ∧ 0 ≤ pr.nFees ∧
      pr.view.total + pr.nFees ≤ view.total + coinbaseValue block := by
  have hblock := henv.blockChecked h.recheck
  obtain ⟨fScriptChecks, hloop⟩ := h.loop
  cases before with
  | nil =>
    cases hloop
    refine ⟨hsound, le_refl 0, ?_⟩
    have hvalue := hblock.coinbaseValue_range.1
    linarith
  | cons coinbase txs =>
    obtain ⟨coinbase', txs', hvtx, hcoinbase, hothers⟩ := hblock.first
    obtain ⟨rfl, rfl⟩ : coinbase = coinbase' ∧ txs ++ rest = txs' :=
      cons_eq_cons.mp (h.vtx.symm.trans hvtx)
    have hchecked : ∀ tx ∈ coinbase :: (txs ++ rest), TxChecked tx := hvtx ▸ hblock.checked
    rw [forall_mem_cons] at hchecked
    obtain ⟨pprev, hparent, hbip30⟩ := h.bip30
    have hpos := CBlockIndex.nHeight_pos hparent
    have hbelow : pprev ≤ pindex := (Lineage.parent?_lt hparent).le
    have hfresh := unspent_eq_none_of_all (all_isPruned_of_checkBIP30 hbip30
      (fun a ha => hhashes a (ha.trans hbelow)) (hvtx ▸ mem_cons_self : coinbase ∈ block.vtx))
    obtain ⟨mid, hround, hrest⟩ := bind_eq_ok_iff.mp hloop
    obtain ⟨fee, undo, hround⟩ := connectedTx_of_eq_ok hround
    have hadd := updateCoinsUndo_coinbase hcoinbase hfresh hround.coins
    have hmid := hadd.every hsound (fromTx_sound hchecked.1 hpos hheight)
    have hfirst : ∀ tx ∈ txs, tx ∈ txs ++ rest := fun tx htx => mem_append_left _ htx
    have hzero : fee = 0 := by
      have hfee := hround.txFee
      rw [txFee, if_pos hcoinbase] at hfee
      exact (Except.ok.inj hfee).symm
    have hfees := hround.fees
    have hadded := hadd.total_le hchecked.1
    obtain ⟨hnonneg, htotal⟩ := connectTxs_total (fun tx htx => hothers tx (hfirst tx htx))
      (fun tx htx => hchecked.2 tx (hfirst tx htx)) hrest
    obtain ⟨undos, hundos⟩ := updateAllUndo_of_connectTx hrest
    have hsound' : pr.view.Sound := updateAllUndo_every (fun _ _ hc => hc.spend _) hundos hmid
      (fun tx htx => hothers tx (hfirst tx htx))
      fun tx htx => fromTx_sound (hchecked.2 tx (hfirst tx htx)) hpos hheight
    have hvalue := coinbaseValue_eq (congrArg List.head? hvtx)
    refine ⟨hsound', ?_, ?_⟩
    · linarith
    · linarith

/-- A block adds at most the subsidy, without a fiftieth of its fees. -/
theorem ConnectedBlock.total_le (h : ConnectedBlock env s block pindex pprev view view' pr)
    (henv : env.ChecksBlocks) (hheight : pindex.nHeight < 2 ^ 31)
    (hhashes : ∀ a : CBlockIndex, a ≤ pindex → a.getBlockHash ≠ 0) (hsound : view.Sound) :
    0 ≤ pr.nFees ∧ view'.total ≤ view.total +
      (getRGMBlockSubsidy pindex.nHeight (env.net.params.getConsensus pindex.nHeight) -
        pr.nFees / 50) := by
  obtain ⟨-, hnonneg, htotal⟩ := h.reaches.total_le henv hheight hhashes hsound
  obtain ⟨coinbase, nValueOut, hhead, hout, hreward⟩ := h.reward
  obtain ⟨-, rfl⟩ := getValueOut_eq_some_iff.mp hout
  have hvalue := coinbaseValue_eq hhead
  have hburn : pr.nFees.tdiv 50 = pr.nFees / 50 := Int.tdiv_eq_ediv_of_nonneg hnonneg
  have hafter : view'.total = pr.view.total := by
    rw [h.after]
    rfl
  refine ⟨hnonneg, ?_⟩
  linarith

end Blocks

end RgmNode
