import RgmNode.BlockTree.FailureMarks
import RgmNode.Validation.CoinsCache
import RgmNode.Validation.Connected

/-!
# `DisconnectBlock` undoes `ConnectBlock`

A record of coins drops the outputs at its end that are spent, and its height, version and
coinbase flag are recorded with the last spend only.  Read backwards, every spend finds the
record as it left it, and gives it back the output and, if it was the last one, the rest.

1. `set_resize_spent` — the output that was spent is put back into the list
2. `Restored` — views that show the same coins, but for negative versions
3. `SpendStep.applyTxInUndo` — one input
4. `restoreInputs_spendInputsUndo`, `AddStep.removeOutputs` — one transaction
5. `BlockSteps.disconnectBlock` — one block
6. `disconnectBlock_undoes_connectBlock` — blocks above the genesis block
-/

namespace RgmNode

open Checks WriteBack Transition List CTxOut Function

/-! ## 1. Lists of outputs -/

/-- Null outputs are the null output, not others with its amount. -/
def ExactNulls (vout : List CTxOut) : Prop := ∀ o ∈ vout, o.isNull = true → o = CTxOut.null

theorem rdropWhile_append_replicate {vout : List CTxOut} (h : ExactNulls vout) :
    vout.rdropWhile isNull ++
      replicate (vout.length - (vout.rdropWhile isNull).length) null = vout := by
  have hsplit : vout.rdropWhile isNull ++ vout.rtakeWhile isNull = vout :=
    rdropWhile_append_rtakeWhile
  have hnull : ∀ o ∈ vout.rtakeWhile isNull, o = null := by
    intro o ho
    refine h o ?_ (mem_rtakeWhile_imp ho)
    rw [← hsplit]
    exact mem_append_right _ ho
  have hlen : vout.length - (vout.rdropWhile isNull).length =
      (vout.rtakeWhile isNull).length := by
    have := congrArg List.length hsplit
    rw [length_append] at this
    omega
  rw [hlen, ← eq_replicate_of_mem hnull, hsplit]

variable {n : Nat} {o : CTxOut} {vin : List CTxIn} {undos : CTxUndo} {P : CCoins → Prop}

/-- The output that was spent is put back: the list is made long enough for it again. -/
theorem set_resize_spent {vout : List CTxOut} (hclean : vout.rdropWhile isNull = vout)
    (hnulls : ExactNulls vout) (hn : vout[n]? = some o) :
    let left := (vout.set n null).rdropWhile isNull
    (if left.length < n + 1 then resizeOutputs left (n + 1) else left).set n o = vout := by
  intro left
  have hlt : n < vout.length := (List.getElem?_eq_some_iff.mp hn).1
  have hnulls' : ExactNulls (vout.set n null) := by
    intro x hx hxnull
    rcases mem_or_eq_of_mem_set hx with hx | rfl
    · exact hnulls x hx hxnull
    · rfl
  have hback : (vout.set n null).set n o = vout := by
    rw [List.set_set, ← (List.getElem?_eq_some_iff.mp hn).2, List.set_getElem_self]
  have hpad := rdropWhile_append_replicate hnulls'
  rw [length_set] at hpad
  by_cases hlast : vout.length = n + 1
  · -- it was the last output: nulls before it may have been dropped too
    by_cases hshort : left.length < n + 1
    · rw [if_pos hshort, ← hlast]
      exact (congrArg (set · n o) hpad).trans hback
    · have hfull : vout.length - left.length = 0 := by omega
      rw [if_neg hshort]
      rw [hfull, replicate_zero, append_nil] at hpad
      exact (congrArg (set · n o) hpad).trans hback
  · -- an output after it is there, so that nothing was dropped
    have hkeep : left = vout.set n null := by
      refine rdropWhile_eq_self_iff.mpr fun hne => ?_
      have hne' : vout ≠ [] := ne_nil_of_length_pos (by omega)
      have hsame : (vout.set n null).getLast hne = vout.getLast hne' := by
        rw [getLast_eq_getElem, getLast_eq_getElem, getElem_set]
        simp only [length_set]
        rw [if_neg (by omega)]
      rw [hsame]
      exact rdropWhile_eq_self_iff.mp hclean hne'
    have hsize : ¬ left.length < n + 1 := by
      rw [hkeep, length_set]
      omega
    rw [if_neg hsize, hkeep, hback]

/-! ## 2. The same coins -/

variable {view view' w : CoinsView} {txid : Uint256} {c c' : CCoins}

/-- Coins that are the same, but for a version that is negative. -/
structure CCoins.Matches (c c' : CCoins) : Prop where
  coinBase : c'.fCoinBase = c.fCoinBase
  vout : c'.vout = c.vout
  height : c'.nHeight = c.nHeight
  version : 0 ≤ c.nVersion.toInt → c'.nVersion = c.nVersion

theorem CCoins.Matches.refl (c : CCoins) : c.Matches c := ⟨rfl, rfl, rfl, fun _ => rfl⟩

theorem CCoins.Matches.eq_of_version (h : c.Matches c') :
    { c' with nVersion := c.nVersion } = c := by
  rw [h.coinBase, h.vout, h.height]

theorem CCoins.Matches.eq_of_nonneg (h : c.Matches c') (hversion : 0 ≤ c.nVersion.toInt) : c' = c :=
  calc c' = { c' with nVersion := c.nVersion } := by rw [← h.version hversion]
    _ = c := h.eq_of_version

/-- Every transaction has the same unspent outputs in both views. -/
def Restored (view view' : CoinsView) : Prop :=
  ∀ txid, Option.Rel CCoins.Matches (unspent (view.coins txid)) (unspent (view'.coins txid))

theorem Restored.refl (view : CoinsView) : Restored view view := fun txid => by
  cases unspent (view.coins txid) with
  | none => exact .none
  | some c => exact .some (.refl c)

theorem Restored.of_none (h : Restored view w) (hnone : unspent (view.coins txid) = none) :
    unspent (w.coins txid) = none := by
  have hsee := h txid
  rw [hnone] at hsee
  cases hw : unspent (w.coins txid) with
  | none => rfl
  | some q =>
    rw [hw] at hsee
    cases hsee

theorem Restored.of_some (h : Restored view w) (hsome : unspent (view.coins txid) = some c) :
    ∃ q, unspent (w.coins txid) = some q ∧ c.Matches q := by
  have hsee := h txid
  rw [hsome] at hsee
  cases hw : unspent (w.coins txid) with
  | none =>
    rw [hw] at hsee
    cases hsee
  | some q =>
    rw [hw] at hsee
    cases hsee with
    | some hmatch => exact ⟨q, rfl, hmatch⟩

/-- Coins with unspent outputs as they come from blocks. -/
structure CCoins.Sound (c : CCoins) : Prop where
  cleaned : c.cleanup = c
  outputs : ∀ o ∈ c.vout, CCoins.UsualOutput o
  positive : 0 < c.nHeight
  height : c.nHeight < 2 ^ 31
  size : c.vout.length ≤ maxBlockBaseSize

def CoinsView.Every (P : CCoins → Prop) (view : CoinsView) : Prop :=
  ∀ txid c, unspent (view.coins txid) = some c → P c

open CoinsView

theorem CoinsView.Every.update (h : view.Every P) (hc : P c) (txid : Uint256) :
    Every P { view with coins := Function.update view.coins txid (some c) } := by
  intro k c' hc'
  dsimp only at hc'
  by_cases hk : k = txid
  · subst hk
    rw [update_self] at hc'
    obtain rfl := Option.some.inj (eq_of_present hc')
    exact hc
  · rw [update_of_ne hk] at hc'
    exact h k c' hc'

def CoinsView.Sound (view : CoinsView) : Prop := view.Every CCoins.Sound

open CCoins

theorem CCoins.UsualOutput.eq_null (h : UsualOutput o) (hnull : o.isNull = true) :
    o = null := by
  rcases h with h | ⟨hlow, -, -⟩
  · exact h
  · rw [isNull_of_nonneg hlow] at hnull
    cases hnull

theorem CCoins.Sound.exactNulls (h : c.Sound) : ExactNulls c.vout := fun o ho =>
  (h.outputs o ho).eq_null

theorem CCoins.output_eq_some_iff :
    c.output n = some o ↔ c.vout[n]? = some o ∧ o.isNull = false := by
  unfold CCoins.output
  cases c.vout[n]? with
  | none => simp
  | some o' =>
    dsimp only
    constructor
    · intro h
      split at h
      · cases h
      · next hnull =>
        cases h
        exact ⟨rfl, eq_false_of_ne_true hnull⟩
    · rintro ⟨h, hnull⟩
      cases h
      rw [hnull]
      rfl

theorem CCoins.not_isPruned_of_output (h : c.output n = some o) : c.isPruned = false := by
  obtain ⟨hn, hnull⟩ := output_eq_some_iff.mp h
  refine eq_false_of_ne_true fun hpruned => ?_
  have hall := all_eq_true.mp hpruned o (mem_of_getElem? hn)
  rw [hnull] at hall
  cases hall

theorem CCoins.cleanup_cleanup (c : CCoins) : c.cleanup.cleanup = c.cleanup :=
  congrArg (fun vout => { c with vout }) (rdropWhile_idempotent _ _)

theorem CCoins.Sound.spend (h : c.Sound) (n : Nat) : (c.spend n).Sound where
  cleaned := cleanup_cleanup _
  outputs := by
    intro o ho
    have hset : o ∈ c.vout.set n null := (List.rdropWhile_prefix _ _).subset ho
    rcases mem_or_eq_of_mem_set hset with ho | rfl
    · exact h.outputs o ho
    · exact Or.inl rfl
  positive := h.positive
  height := h.height
  size := by
    have hle : (c.spend n).vout.length ≤ (c.vout.set n null).length :=
      (List.rdropWhile_prefix _ _).length_le
    rw [length_set] at hle
    exact hle.trans h.size

/-! ## 3. One input -/

variable {out : COutPoint} {undo undo' : CTxInUndo} {txout : CTxOut}

/-- A record that is the same, but for a version that is negative or not recorded. -/
structure CTxInUndo.Matches (undo undo' : CTxInUndo) : Prop where
  txout : undo'.txout = undo.txout
  coinBase : undo'.fCoinBase = undo.fCoinBase
  height : undo'.nHeight = undo.nHeight
  version : 0 < undo.nHeight → 0 ≤ undo.nVersion.toInt → undo'.nVersion = undo.nVersion

theorem CTxInUndo.matches_back (undo : CTxInUndo) : undo.Matches undo.back where
  txout := rfl
  coinBase := rfl
  height := rfl
  version := by
    intro hpos hnonneg
    rw [CTxInUndo.back]
    simp only [if_pos hpos, versionBack_of_nonneg hnonneg]

/-- What an input spends, and what is recorded of it. -/
structure SpendStep (view view' : CoinsView) (out : COutPoint) (undo : CTxInUndo) (c : CCoins)
    (txout : CTxOut) : Prop where
  coins : view.coins out.hash = some c
  output : c.output out.n.toNat = some txout
  after : view' = { view with
    coins := Function.update view.coins out.hash (some (c.spend out.n.toNat)) }
  undo : undo = if (c.spend out.n.toNat).vout = [] then
    ⟨txout, c.fCoinBase, c.nHeight, c.nVersion⟩ else ⟨txout, false, 0, 0⟩

theorem spendStep_of_spendInputUndo {txin : CTxIn}
    (h : view.spendInputUndo txin = some (view', undo)) :
    ∃ c txout, SpendStep view view' txin.prevout undo c txout := by
  unfold spendInputUndo at h
  cases hc : view.coins txin.prevout.hash with
  | none =>
    rw [hc] at h
    cases h
  | some c =>
    simp only [hc] at h
    cases hout : c.output txin.prevout.n.toNat with
    | none =>
      rw [hout] at h
      cases h
    | some txout =>
      simp only [hout, Option.some.injEq, Prod.mk.injEq] at h
      exact ⟨c, txout, hc, hout, h.1.symm, h.2.symm⟩

namespace SpendStep

section

variable (h : SpendStep view view' out undo c txout)

include h

theorem unspent_eq : unspent (view.coins out.hash) = some c := by
  rw [h.coins]
  exact present_of_not_gone (not_isPruned_of_output h.output)

theorem coins_of_ne (hne : txid ≠ out.hash) : view'.coins txid = view.coins txid := by
  rw [h.after]
  exact update_of_ne hne _ _

theorem coins_self : view'.coins out.hash = some (c.spend out.n.toNat) := by
  rw [h.after]
  exact update_self _ _ _

end

/-- What coins keep when an output is spent, the view keeps. -/
theorem every {P : CCoins → Prop} (hP : ∀ c n, P c → P (c.spend n))
    (h : SpendStep view view' out undo c txout) (hview : view.Every P) : view'.Every P := by
  rw [h.after]
  exact hview.update (hP _ _ (hview _ _ h.unspent_eq)) out.hash

theorem sound (h : SpendStep view view' out undo c txout) (hsound : view.Sound) : view'.Sound :=
  h.every (fun _ _ hc => hc.spend _) hsound

theorem size_eq (h : SpendStep view view' out undo c txout) (hsound : view.Sound) :
    (out.n + 1).toNat = out.n.toNat + 1 := by
  have hlt : out.n.toNat < c.vout.length :=
    (List.getElem?_eq_some_iff.mp (output_eq_some_iff.mp h.output).1).1
  have hsize : c.vout.length ≤ 1000000 := (hsound _ _ h.unspent_eq).size
  rw [UInt32.toNat_add, UInt32.toNat_one]
  exact Nat.mod_eq_of_lt (by omega)

end SpendStep

theorem CCoins.output_cleanup (c : CCoins) (m : Nat) : c.cleanup.output m = c.output m := by
  have hsplit : c.cleanup.vout ++ c.vout.rtakeWhile isNull = c.vout :=
    rdropWhile_append_rtakeWhile
  have hget : c.vout[m]? = (c.cleanup.vout ++ c.vout.rtakeWhile isNull)[m]? :=
    congrArg (·[m]?) hsplit.symm
  unfold CCoins.output
  rw [hget]
  rcases Nat.lt_or_ge m c.cleanup.vout.length with hlt | hge
  · rw [getElem?_append_left hlt]
  · rw [getElem?_append_right hge, getElem?_eq_none hge]
    cases hend : (c.vout.rtakeWhile isNull)[m - c.cleanup.vout.length]? with
    | none => rfl
    | some o => exact (if_pos (mem_rtakeWhile_imp (mem_of_getElem? hend))).symm

/-- A spent output is not available, the others are as before. -/
theorem CCoins.output_spend (c : CCoins) (n m : Nat) :
    (c.spend n).output m = if m = n then none else c.output m := by
  rw [CCoins.spend, output_cleanup]
  unfold CCoins.output
  by_cases h : m = n
  · subst h
    rw [if_pos rfl]
    rcases Nat.lt_or_ge m c.vout.length with hlt | hge
    · rw [getElem?_set_self hlt]
      rfl
    · rw [getElem?_eq_none (by rwa [length_set])]
  · rw [if_neg h, getElem?_set_ne (Ne.symm h)]

theorem CCoins.not_isPruned_of_cleaned (h : c.cleanup = c) (hne : c.vout ≠ []) :
    c.isPruned = false := by
  refine eq_false_of_ne_true fun hpruned => hne ?_
  rw [← h] at hpruned ⊢
  exact vout_cleanup_of_isPruned hpruned

/-- Coins that are changed under one transaction only, and match there. -/
theorem Restored.put (hw : Restored view' w) (hsame : ∀ k, k ≠ txid → view'.coins k = view.coins k)
    (hc : unspent (view.coins txid) = some c) (hmatch : c.Matches c') (hclean : c.cleanup = c) :
    Restored view (w.putCoins txid c') := by
  intro k
  by_cases hk : k = txid
  · subst hk
    have hself : (w.putCoins k c').coins k = some c'.cleanup := update_self _ _ _
    have hcleanup : c'.cleanup.vout = c.vout := by
      have hcv : c.vout.rdropWhile isNull = c.vout := congrArg vout hclean
      rw [cleanup, hmatch.vout]
      exact hcv
    have hpruned : c'.cleanup.isPruned = c.isPruned := by
      rw [isPruned, isPruned, hcleanup]
    rw [hc, hself, unspent, present_of_not_gone (hpruned.trans (not_gone_of_present hc))]
    exact .some ⟨hmatch.coinBase, hcleanup, hmatch.height, hmatch.version⟩
  · have hother : (w.putCoins txid c').coins k = w.coins k := update_of_ne hk _ _
    rw [hother, ← hsame k hk]
    exact hw k

theorem CoinsView.isPruned_coinsAt (h : unspent (w.coins txid) = none) :
    (w.coinsAt txid).isPruned = true := by
  unfold coinsAt
  cases hc : w.coins txid with
  | none => rfl
  | some c =>
    rw [hc] at h
    exact gone_of_present h

theorem CoinsView.coinsAt_of_unspent (h : unspent (w.coins txid) = some c) :
    w.coinsAt txid = c ∧ c.isPruned = false := by
  refine ⟨?_, not_gone_of_present h⟩
  rw [coinsAt, eq_of_present h]
  rfl

/-- The output an input has spent is given back. -/
theorem SpendStep.applyTxInUndo (h : SpendStep view view' out undo c txout) (hsound : view.Sound)
    (hw : Restored view' w) (hundo : undo.Matches undo') :
    (CoinsView.applyTxInUndo undo' w out).2 = true ∧
      Restored view (CoinsView.applyTxInUndo undo' w out).1 := by
  have hc := hsound _ _ h.unspent_eq
  have hat := (output_eq_some_iff.mp h.output).1
  have hclean : c.vout.rdropWhile isNull = c.vout := congrArg vout hc.cleaned
  have hback := set_resize_spent hclean hc.exactNulls hat
  unfold CoinsView.applyTxInUndo
  by_cases hlast : (c.spend out.n.toNat).vout = []
  · -- the last output: the record was pruned, and its other fields are in the undo data
    have hu : undo = ⟨txout, c.fCoinBase, c.nHeight, c.nVersion⟩ := by
      rw [h.undo, if_pos hlast]
    subst hu
    have hpruned : (c.spend out.n.toNat).isPruned = true := by rw [isPruned, hlast]; rfl
    have hnone : unspent (view'.coins out.hash) = none := by
      rw [h.coins_self]
      exact present_of_gone hpruned
    have hgone := isPruned_coinsAt (hw.of_none hnone)
    have hheight : undo'.nHeight ≠ 0 := by
      rw [hundo.height]
      exact ne_of_gt hc.positive
    have hleft : (c.vout.set out.n.toNat null).rdropWhile isNull = [] := hlast
    simp only [hleft] at hback
    simp only [if_pos hheight, hgone, h.size_eq hsound, hundo.txout, hback]
    refine ⟨rfl, hw.put (fun k hk => h.coins_of_ne hk) h.unspent_eq ?_ hc.cleaned⟩
    exact ⟨hundo.coinBase, rfl, hundo.height, fun hv => hundo.version hc.positive hv⟩
  · -- the record is still there, and has kept its other fields
    have hu : undo = ⟨txout, false, 0, 0⟩ := by rw [h.undo, if_neg hlast]
    subst hu
    have hthere : (c.spend out.n.toNat).isPruned = false :=
      not_isPruned_of_cleaned (hc.spend _).cleaned hlast
    have hsome : unspent (view'.coins out.hash) = some (c.spend out.n.toNat) := by
      rw [h.coins_self]
      exact present_of_not_gone hthere
    obtain ⟨q, hq, hmatch⟩ := hw.of_some hsome
    obtain ⟨hcoins, hnot⟩ := coinsAt_of_unspent hq
    have hheight : ¬ undo'.nHeight ≠ 0 := by rw [hundo.height]; exact not_not_intro rfl
    have hout : q.output out.n.toNat = none := by
      have hspent := c.output_spend out.n.toNat out.n.toNat
      rwa [if_pos rfl, CCoins.output, ← hmatch.vout] at hspent
    have hvout : q.vout = (c.vout.set out.n.toNat null).rdropWhile isNull :=
      hmatch.vout
    simp only [if_neg hheight, hcoins, hnot, hout, h.size_eq hsound, hundo.txout, hvout, hback]
    refine ⟨rfl, hw.put (fun k hk => h.coins_of_ne hk) h.unspent_eq ?_ hc.cleaned⟩
    exact ⟨hmatch.coinBase, rfl, hmatch.height, hmatch.version⟩

theorem SpendStep.usual (h : SpendStep view view' out undo c txout) (hsound : view.Sound) :
    undo.Usual := by
  have hc := hsound _ _ h.unspent_eq
  obtain ⟨hat, hnull⟩ := output_eq_some_iff.mp h.output
  have htxout : undo.txout = txout := by
    rw [h.undo]
    split <;> rfl
  have hheight : undo.nHeight < 2 ^ 31 := by
    rw [h.undo]
    split
    · exact hc.height
    · exact Nat.two_pow_pos 31
  rcases hc.outputs txout (mem_of_getElem? hat) with rfl | ⟨hlow, hhigh, hscript⟩
  · cases hnull
  · exact ⟨hheight, htxout ▸ hlow, htxout ▸ hhigh, htxout ▸ hscript⟩

/-! ## 4. One transaction -/

variable {cr : Crypto} {tx : CTransaction} {txs : List CTransaction} {nHeight : Nat}

theorem spendInputsUndo_cons_eq_some {txin : CTxIn}
    (h : view.spendInputsUndo (txin :: vin) = some (view', undos)) :
    ∃ mid undo rest c txout, SpendStep view mid txin.prevout undo c txout ∧
      mid.spendInputsUndo vin = some (view', rest) ∧ undos = undo :: rest := by
  obtain ⟨⟨mid, undo⟩, hstep, h⟩ := Option.bind_eq_some_iff.mp h
  obtain ⟨⟨last, rest⟩, hrest, h⟩ := Option.map_eq_some_iff.mp h
  cases h
  obtain ⟨c, txout, hspend⟩ := spendStep_of_spendInputUndo hstep
  exact ⟨mid, undo, rest, c, txout, hspend, hrest, rfl⟩

/-- What is recorded of the inputs of a transaction can be read back. -/
theorem spendInputsUndo_usual (h : view.spendInputsUndo vin = some (view', undos))
    (hsound : view.Sound) : undos.length = vin.length ∧ ∀ u ∈ undos, u.Usual := by
  induction vin generalizing view undos with
  | nil =>
    cases h
    exact ⟨rfl, nofun⟩
  | cons txin vin ih =>
    obtain ⟨mid, undo, rest, c, txout, hspend, hrest, rfl⟩ := spendInputsUndo_cons_eq_some h
    obtain ⟨hlen, husual⟩ := ih hrest (hspend.sound hsound)
    exact ⟨congrArg Nat.succ hlen, forall_mem_cons.mpr ⟨hspend.usual hsound, husual⟩⟩

theorem spendInputsUndo_every (hP : ∀ c n, P c → P (c.spend n))
    (h : view.spendInputsUndo vin = some (view', undos)) (hview : view.Every P) :
    view'.Every P := by
  induction vin generalizing view undos with
  | nil =>
    cases h
    exact hview
  | cons txin vin ih =>
    obtain ⟨mid, undo, rest, c, txout, hspend, hrest, rfl⟩ := spendInputsUndo_cons_eq_some h
    exact ih hrest (hspend.every hP hview)

/-- The outputs the inputs of a transaction have spent are given back, last one first. -/
theorem restoreInputs_spendInputsUndo {undos' : CTxUndo}
    (h : view.spendInputsUndo vin = some (view', undos)) (hsound : view.Sound)
    (hw : Restored view' w) (hundo : Forall₂ CTxInUndo.Matches undos undos') :
    (w.restoreInputs (vin.zip undos')).2 = true ∧
      Restored view (w.restoreInputs (vin.zip undos')).1 := by
  induction vin generalizing view undos undos' with
  | nil =>
    cases h
    exact ⟨rfl, hw⟩
  | cons txin vin ih =>
    obtain ⟨mid, undo, rest, c, txout, hspend, hrest, rfl⟩ := spendInputsUndo_cons_eq_some h
    cases hundo with
    | cons hfirst hothers =>
      obtain ⟨hclean, hmid⟩ := ih hrest (hspend.sound hsound) hothers
      obtain ⟨hclean', hback⟩ := hspend.applyTxInUndo hsound hmid hfirst
      exact ⟨Bool.and_eq_true_iff.mpr ⟨hclean, hclean'⟩, hback⟩

/-- What `addCoins` does to a view without the coins of the transaction. -/
structure AddStep (cr : Crypto) (view view' : CoinsView) (tx : CTransaction) (nHeight : Nat) :
    Prop where
  fresh : unspent (view.coins (tx.getHash cr)) = none
  after : view' = { view with
    coins := Function.update view.coins (tx.getHash cr) (some (CCoins.fromTx tx nHeight)) }

theorem AddStep.coins_self (h : AddStep cr view view' tx nHeight) :
    view'.coins (tx.getHash cr) = some (fromTx tx nHeight) := by
  rw [h.after]
  exact update_self _ _ _

theorem AddStep.coins_of_ne (h : AddStep cr view view' tx nHeight) (hne : txid ≠ tx.getHash cr) :
    view'.coins txid = view.coins txid := by
  rw [h.after]
  exact update_of_ne hne _ _

theorem unspent_eq_none_iff {o : Option CCoins} :
    unspent o = none ↔ o.any (!·.isPruned) = false := by
  cases o with
  | none => exact ⟨fun _ => rfl, fun _ => rfl⟩
  | some c =>
    cases hp : c.isPruned with
    | true => simp [unspent, present_of_gone hp, hp]
    | false => simp [unspent, present_of_not_gone hp, hp]

theorem unspent_eq_none_of_all {o : Option CCoins} (h : o.all (·.isPruned) = true) :
    unspent o = none := by
  cases o with
  | none => rfl
  | some c => exact present_of_gone h

theorem addStep_of_addCoins (h : view.addCoins cr tx nHeight = some view')
    (hfresh : tx.isCoinBase = true → unspent (view.coins (tx.getHash cr)) = none) :
    AddStep cr view view' tx nHeight := by
  unfold addCoins at h
  split at h
  · cases h
  · next hnew =>
    refine ⟨?_, (Option.some.inj h).symm⟩
    cases hcoinbase : tx.isCoinBase with
    | true => exact hfresh hcoinbase
    | false =>
      rw [hcoinbase] at hnew
      exact unspent_eq_none_iff.mpr (eq_false_of_ne_true hnew)

theorem fromTx_output (h : o ∈ (fromTx tx nHeight).vout) :
    o = null ∨ o ∈ tx.vout ∧ CScript.isUnspendable o.scriptPubKey = false := by
  have hmap := (List.rdropWhile_prefix isNull _).subset h
  obtain ⟨o', ho', heq⟩ := mem_map.mp hmap
  split at heq
  · exact Or.inl heq.symm
  · next hspendable =>
    subst heq
    exact Or.inr ⟨ho', eq_false_of_ne_true hspendable⟩

theorem clearUnspendable_of_vout (h : c.vout = (fromTx tx nHeight).vout) :
    c.clearUnspendable = c := by
  have hsame : ∀ o ∈ c.vout,
      (if CScript.isUnspendable o.scriptPubKey then null else o) = id o := by
    intro o ho
    rw [h] at ho
    rcases fromTx_output ho with rfl | ⟨-, hspendable⟩
    · exact ite_self _
    · rw [if_neg (ne_true_of_eq_false hspendable), id]
  have hdrop : c.vout.rdropWhile isNull = c.vout := by
    rw [h]
    exact rdropWhile_idempotent _ _
  rw [clearUnspendable, map_congr_left hsame, map_id, cleanup, hdrop]

theorem isPruned_clearUnspendable (h : c.isPruned = true) : c.clearUnspendable.isPruned = true := by
  have hall := all_eq_true.mp h
  refine all_eq_true.mpr fun o ho => ?_
  obtain ⟨o', ho', heq⟩ := mem_map.mp ((List.rdropWhile_prefix isNull _).subset ho)
  split at heq
  · subst heq
    rfl
  · subst heq
    exact hall o' ho'

theorem CCoins.same_of_isPruned {a b : CCoins} (ha : a.isPruned = true) (hb : b.isPruned = true) :
    a.same b = true := by
  simp [same, ha, hb]

theorem CCoins.same_self (c : CCoins) : c.same c = true := by
  simp [same]

/-- The outputs that were added are found as they were added, and removed. -/
theorem AddStep.removeOutputs (h : AddStep cr view view' tx nHeight) (hw : Restored view' w) :
    (w.removeOutputs cr nHeight tx).2 = true ∧
      Restored view (w.removeOutputs cr nHeight tx).1 := by
  constructor
  · cases hp : (fromTx tx nHeight).isPruned with
    | true =>
      have hnone : unspent (view'.coins (tx.getHash cr)) = none := by
        rw [h.coins_self]
        exact present_of_gone hp
      have hgone := isPruned_clearUnspendable (isPruned_coinsAt (hw.of_none hnone))
      refine same_of_isPruned ?_ hp
      split
      · exact hgone
      · exact hgone
    | false =>
      have hsome : unspent (view'.coins (tx.getHash cr)) = some (fromTx tx nHeight) := by
        rw [h.coins_self]
        exact present_of_not_gone hp
      obtain ⟨q, hq, hmatch⟩ := hw.of_some hsome
      unfold CoinsView.removeOutputs
      dsimp only
      rw [(coinsAt_of_unspent hq).1, clearUnspendable_of_vout hmatch.vout]
      split
      · have heq : { q with nVersion := (fromTx tx nHeight).nVersion } =
            fromTx tx nHeight := hmatch.eq_of_version
        rw [heq]
        exact same_self _
      · next hversion =>
        rw [hmatch.eq_of_nonneg (Int.not_lt.mp hversion)]
        exact same_self _
  · intro k
    by_cases hk : k = tx.getHash cr
    · subst hk
      have hput : (w.removeOutputs cr nHeight tx).1.coins (tx.getHash cr) =
          some cleared.cleanup := update_self _ _ _
      rw [h.fresh, hput]
      exact .none
    · have hother : (w.removeOutputs cr nHeight tx).1.coins k = w.coins k :=
        update_of_ne hk _ _
      rw [hother, ← h.coins_of_ne hk]
      exact hw k

theorem fromTx_sound (htx : TxChecked tx) (hpos : 0 < nHeight) (hheight : nHeight < 2 ^ 31) :
    (fromTx tx nHeight).Sound where
  cleaned := cleanup_cleanup _
  outputs := by
    intro o ho
    rcases fromTx_output ho with rfl | ⟨hmem, hspendable⟩
    · exact Or.inl rfl
    · have hrange := moneyRange_iff.mp (htx.outputs.1 _ (mem_map_of_mem hmem))
      have hscript : ¬ maxScriptSize < o.scriptPubKey.length := by
        intro hlong
        rw [CScript.isUnspendable, decide_eq_true hlong, Bool.or_true] at hspendable
        cases hspendable
      exact Or.inr ⟨hrange.1, hrange.2, Nat.le_of_not_lt hscript⟩
  positive := hpos
  height := hheight
  size := by
    have hle := (List.rdropWhile_prefix isNull (tx.vout.map fun o =>
      if CScript.isUnspendable o.scriptPubKey then null else o)).length_le
    rw [length_map] at hle
    exact hle.trans htx.length_vout

theorem AddStep.every (h : AddStep cr view view' tx nHeight) (hview : view.Every P)
    (hadded : P (fromTx tx nHeight)) : view'.Every P := by
  rw [h.after]
  exact hview.update hadded (tx.getHash cr)

/-- `UpdateCoins` for a transaction that is no coinbase: its inputs, then its outputs. -/
theorem updateCoinsUndo_eq_some (hcoinbase : tx.isCoinBase = false)
    (h : view.updateCoinsUndo cr tx nHeight = some (view', undos)) :
    ∃ mid, view.spendInputsUndo tx.vin = some (mid, undos) ∧
      AddStep cr mid view' tx nHeight := by
  unfold updateCoinsUndo at h
  rw [hcoinbase] at h
  obtain ⟨⟨mid, us⟩, hspend, h⟩ := Option.bind_eq_some_iff.mp h
  obtain ⟨added, hadd, h⟩ := Option.map_eq_some_iff.mp h
  cases h
  refine ⟨mid, hspend, addStep_of_addCoins hadd fun hyes => ?_⟩
  rw [hcoinbase] at hyes
  cases hyes

theorem updateCoinsUndo_coinbase (hcoinbase : tx.isCoinBase = true)
    (hfresh : unspent (view.coins (tx.getHash cr)) = none)
    (h : view.updateCoinsUndo cr tx nHeight = some (view', undos)) :
    AddStep cr view view' tx nHeight := by
  unfold updateCoinsUndo at h
  rw [hcoinbase] at h
  obtain ⟨⟨mid, us⟩, hspend, h⟩ := Option.bind_eq_some_iff.mp h
  obtain ⟨added, hadd, h⟩ := Option.map_eq_some_iff.mp h
  cases h
  cases hspend
  exact addStep_of_addCoins hadd fun _ => hfresh

/-! ## 5. One block -/

/-- The first transaction spends its inputs and adds its outputs before the others. -/
theorem updateAllUndo_cons_eq_some {undos : List CTxUndo} (hcoinbase : tx.isCoinBase = false)
    (h : view.updateAllUndo cr nHeight (tx :: txs) = some (view', undos)) :
    ∃ spent mid us rest, view.spendInputsUndo tx.vin = some (spent, us) ∧
      AddStep cr spent mid tx nHeight ∧
      mid.updateAllUndo cr nHeight txs = some (view', rest) ∧ undos = us :: rest := by
  obtain ⟨⟨mid, us⟩, hstep, h⟩ := Option.bind_eq_some_iff.mp h
  obtain ⟨⟨last, rest⟩, hrest, h⟩ := Option.map_eq_some_iff.mp h
  cases h
  obtain ⟨spent, hspend, hadd⟩ := updateCoinsUndo_eq_some hcoinbase hstep
  exact ⟨spent, mid, us, rest, hspend, hadd, hrest, rfl⟩

/-- What coins keep when an output is spent, the transactions after the coinbase keep, if the
coins of each of them have it. -/
theorem updateAllUndo_every (hP : ∀ c n, P c → P (c.spend n)) {undos : List CTxUndo}
    (h : view.updateAllUndo cr nHeight txs = some (view', undos)) (hview : view.Every P)
    (hcoinbase : ∀ tx ∈ txs, tx.isCoinBase = false)
    (hadded : ∀ tx ∈ txs, P (fromTx tx nHeight)) : view'.Every P := by
  induction txs generalizing view undos with
  | nil =>
    cases h
    exact hview
  | cons tx txs ih =>
    rw [forall_mem_cons] at hadded hcoinbase
    obtain ⟨spent, mid, us, rest, hspend, hadd, hrest, rfl⟩ :=
      updateAllUndo_cons_eq_some hcoinbase.1 h
    exact ih hrest (hadd.every (spendInputsUndo_every hP hspend hview) hadded.1) hcoinbase.2
      hadded.2

section

variable (hpos : 0 < nHeight) (hheight : nHeight < 2 ^ 31)
include hpos hheight

/-- The coins are sound after the inputs and outputs of a transaction. -/
theorem AddStep.sound {us : CTxUndo} (h : AddStep cr view view' tx nHeight)
    (hspend : w.spendInputsUndo tx.vin = some (view, us)) (hsound : w.Sound)
    (hchecked : TxChecked tx) : view'.Sound :=
  h.every (spendInputsUndo_every (fun _ _ hc => hc.spend _) hspend hsound)
    (fromTx_sound hchecked hpos hheight)

section

variable {undos : List CTxUndo} (h : view.updateAllUndo cr nHeight txs = some (view', undos))
    (hsound : view.Sound) (hchecked : ∀ tx ∈ txs, TxChecked tx)
    (hcoinbase : ∀ tx ∈ txs, tx.isCoinBase = false)

include h hsound hchecked hcoinbase

/-- What is recorded of the transactions after the coinbase can be read back. -/
theorem updateAllUndo_usual :
    undos.length = txs.length ∧
      ∀ us ∈ undos, us.length ≤ maxBlockBaseSize ∧ ∀ u ∈ us, CTxInUndo.Usual u := by
  induction txs generalizing view undos with
  | nil =>
    cases h
    exact ⟨rfl, nofun⟩
  | cons tx txs ih =>
    rw [forall_mem_cons] at hchecked hcoinbase
    obtain ⟨spent, mid, us, rest, hspend, hadd, hrest, rfl⟩ :=
      updateAllUndo_cons_eq_some hcoinbase.1 h
    obtain ⟨hlen, husual⟩ := spendInputsUndo_usual hspend hsound
    have hmid := hadd.sound hpos hheight hspend hsound hchecked.1
    obtain ⟨hlen', hrecords⟩ := ih hrest hmid hchecked.2 hcoinbase.2
    refine ⟨congrArg Nat.succ hlen', forall_mem_cons.mpr ⟨⟨?_, husual⟩, hrecords⟩⟩
    rw [hlen]
    exact hchecked.1.length_vin

/-- The transactions after the coinbase are disconnected, last one first. -/
theorem foldrM_disconnectTx {undos' : List CTxUndo} (hw : Restored view' w)
    (hundo : Forall₂ (Forall₂ CTxInUndo.Matches) undos undos') :
    ∃ w', (txs.zip (undos'.map some)).foldrM (disconnectTx cr nHeight) (w, true) =
        some (w', true) ∧ Restored view w' := by
  induction txs generalizing view undos undos' with
  | nil =>
    cases h
    exact ⟨w, rfl, hw⟩
  | cons tx txs ih =>
    rw [forall_mem_cons] at hchecked hcoinbase
    obtain ⟨spent, mid, us, rest, hspend, hadd, hrest, rfl⟩ :=
      updateAllUndo_cons_eq_some hcoinbase.1 h
    obtain ⟨hlen, -⟩ := spendInputsUndo_usual hspend hsound
    have hmid := hadd.sound hpos hheight hspend hsound hchecked.1
    cases hundo with
    | @cons _ us' _ rest' hfirst hothers =>
      obtain ⟨w₁, hrun, hw₁⟩ := ih hrest hmid hchecked.2 hcoinbase.2 hothers
      obtain ⟨hclean, hw₂⟩ := hadd.removeOutputs hw₁
      obtain ⟨hclean', hw₃⟩ := restoreInputs_spendInputsUndo hspend hsound hw₂ hfirst
      refine ⟨_, ?_, hw₃⟩
      have hlen' : ¬ us'.length ≠ tx.vin.length :=
        not_not_intro (hfirst.length_eq.symm.trans hlen)
      rw [map_cons, zip_cons_cons, foldrM_cons, hrun]
      show disconnectTx cr nHeight (tx, some us') (w₁, true) = _
      simp only [disconnectTx, if_neg hlen', hclean, hclean', Bool.and_self]

end

end

/-- The records of a block, with those of its transactions after the coinbase read back. -/
theorem forall₂_matches_back (undos : CBlockUndo) :
    Forall₂ (Forall₂ CTxInUndo.Matches) undos (CBlockUndo.back undos) := by
  rw [CBlockUndo.back, forall₂_map_right_iff]
  refine forall₂_same.mpr fun us _ => ?_
  rw [forall₂_map_right_iff]
  exact forall₂_same.mpr fun u _ => u.matches_back

section Connected

variable {env : ConnectEnv} {s : ChainState} {block : CBlock} {pindex pprev : CBlockIndex}
  {pr : ConnectProgress}

/-- What a connected block does to the coins: its coinbase, then the other transactions. -/
structure BlockSteps (env : ConnectEnv) (block : CBlock) (pindex : CBlockIndex)
    (view after : CoinsView) (coinbase : CTransaction) (txs : List CTransaction)
    (mid : CoinsView) (undos : CBlockUndo) : Prop where
  vtx : block.vtx = coinbase :: txs
  length : block.vtx.length ≤ maxBlockBaseSize
  positive : 0 < pindex.nHeight
  height : pindex.nHeight < 2 ^ 31
  checked : ∀ tx ∈ txs, TxChecked tx
  first : coinbase.isCoinBase = true
  others : ∀ tx ∈ txs, tx.isCoinBase = false
  added : AddStep env.cr view mid coinbase pindex.nHeight
  sound : (CCoins.fromTx coinbase pindex.nHeight).Sound
  rest : mid.updateAllUndo env.cr pindex.nHeight txs = some (after, undos)
  recorded : view.recordedUndo env.cr block pindex.nHeight = some undos

theorem ConnectedBlock.steps (h : ConnectedBlock env s block pindex pprev view view' pr)
    (henv : env.ChecksBlocks) (hheight : pindex.nHeight < 2 ^ 31)
    (hnull : ∀ a : CBlockIndex, a ≤ pprev → a.getBlockHash ≠ 0) :
    ∃ coinbase txs mid undos,
      BlockSteps env block pindex view pr.view coinbase txs mid undos := by
  have hblock := henv.blockChecked h.recheck
  obtain ⟨coinbase, txs, hvtx, hcoinbase, hothers⟩ := hblock.first
  obtain ⟨undos, hundos⟩ := h.undos
  have hchecked : ∀ tx ∈ coinbase :: txs, TxChecked tx := hvtx ▸ hblock.checked
  rw [forall_mem_cons] at hchecked
  have hpos : 0 < pindex.nHeight := CBlockIndex.nHeight_pos h.parent
  have hrecorded : view.recordedUndo env.cr block pindex.nHeight = some undos.tail := by
    rw [recordedUndo, hundos, Option.map_some]
  rw [hvtx] at hundos
  obtain ⟨⟨mid, us⟩, hfirst, hothers'⟩ := Option.bind_eq_some_iff.mp hundos
  obtain ⟨⟨after, undos'⟩, hrest, heq⟩ := Option.map_eq_some_iff.mp hothers'
  cases heq
  have hmem : coinbase ∈ block.vtx := hvtx ▸ mem_cons_self
  have hfresh := unspent_eq_none_of_all (all_isPruned_of_checkBIP30 h.bip30 hnull hmem)
  exact ⟨coinbase, txs, mid, undos', hvtx, hblock.length, hpos, hheight, hchecked.2, hcoinbase,
    hothers, updateCoinsUndo_coinbase hcoinbase hfresh hfirst,
    fromTx_sound hchecked.1 hpos hheight, hrest, hrecorded⟩

namespace BlockSteps

variable {after mid : CoinsView} {coinbase : CTransaction} {undos undos' : CBlockUndo}

/-- What coins keep when an output is spent, the block keeps. -/
theorem every {P : CCoins → Prop} (hP : ∀ c n, P c → P (c.spend n))
    (h : BlockSteps env block pindex view after coinbase txs mid undos) (hview : view.Every P)
    (hadded : ∀ tx ∈ block.vtx, P (fromTx tx pindex.nHeight)) : after.Every P := by
  rw [h.vtx, forall_mem_cons] at hadded
  exact updateAllUndo_every hP h.rest (h.added.every hview hadded.1) h.others hadded.2

variable (h : BlockSteps env block pindex view after coinbase txs mid undos)
  (hsound : view.Sound)
include h hsound

theorem sound_after : after.Sound := by
  refine h.every (fun _ _ hc => hc.spend _) hsound ?_
  rw [h.vtx, forall_mem_cons]
  exact ⟨h.sound, fun tx htx => fromTx_sound (h.checked tx htx) h.positive h.height⟩

/-- What is recorded of the block can be read back. -/
theorem usual :
    undos.length = txs.length ∧
      ∀ us ∈ undos, us.length ≤ maxBlockBaseSize ∧ ∀ u ∈ us, CTxInUndo.Usual u :=
  updateAllUndo_usual h.positive h.height h.rest (h.added.every hsound h.sound) h.checked h.others

theorem undoReadFromDisk {ops : PubKeyOps} (hops : ops.Lawful) (hashBlock : Uint256) :
    RgmNode.undoReadFromDisk env.cr ops (undoWriteToDisk env.cr ops undos hashBlock) hashBlock =
      some (CBlockUndo.back undos) := by
  obtain ⟨hlen, hrecords⟩ := h.usual hsound
  have hsize : maxBlockBaseSize ≤ maxSize := by decide
  have hvtx := h.length
  rw [h.vtx, length_cons] at hvtx
  refine undoReadFromDisk_write hops hashBlock (by omega) fun us hus => ?_
  exact ⟨(hrecords us hus).1.trans hsize, (hrecords us hus).2⟩

/-- A view that shows the coins after the block shows those before it when the block is
disconnected, with records that match those of the block. -/
theorem disconnectBlock (hparent : pindex.pprev = some pprev) {ops : PubKeyOps} {file : Bytes}
    (hfile : RgmNode.undoReadFromDisk env.cr ops file pprev.getBlockHash = some undos')
    (hundos : Forall₂ (Forall₂ CTxInUndo.Matches) undos undos')
    (hw : Restored after w) (hbest : w.hashBlock = pindex.getBlockHash) :
    ∃ w', CoinsView.disconnectBlock env.cr ops (some file) block pindex w = some (w', true) ∧
      Restored view w' ∧ w'.hashBlock = pprev.getBlockHash := by
  have hmid := h.added.every hsound h.sound
  obtain ⟨hlen, -⟩ := h.usual hsound
  obtain ⟨w₁, hrun, hw₁⟩ := foldrM_disconnectTx h.positive h.height h.rest hmid h.checked h.others
    hw hundos
  obtain ⟨hclean, hw₂⟩ := h.added.removeOutputs hw₁
  have hcount : ¬ undos'.length + 1 ≠ block.vtx.length := by
    rw [h.vtx, length_cons, ← hlen, hundos.length_eq]
    exact not_not_intro rfl
  have hloop : (block.vtx.zip (none :: undos'.map some)).foldrM
      (disconnectTx env.cr pindex.nHeight) (w, true) =
        some ((w₁.removeOutputs env.cr pindex.nHeight coinbase).1, true) := by
    rw [h.vtx, zip_cons_cons, foldrM_cons, hrun]
    show disconnectTx env.cr pindex.nHeight (coinbase, none) (w₁, true) = _
    simp only [disconnectTx, hclean, Bool.and_self]
  refine ⟨{ (w₁.removeOutputs env.cr pindex.nHeight coinbase).1 with
    hashBlock := pprev.getBlockHash }, ?_, hw₂, rfl⟩
  unfold CoinsView.disconnectBlock
  rw [if_neg (not_not_intro hbest.symm), hparent]
  simp only [hfile, if_neg hcount, hloop, Option.map_some]

end BlockSteps

end Connected

/-! ## 6. Runs of blocks -/

/-- A block that is connected: the block tree at the time, the block and its entry. -/
structure ConnectInput where
  s : ChainState
  block : CBlock
  pindex : CBlockIndex

/-- `ConnectBlock` on a view of coins. -/
def connectStep (env : ConnectEnv) (view : CoinsView) (i : ConnectInput) : Option CoinsView :=
  (connectBlock env i.s i.block i.pindex view false).toOption

theorem connectStep_eq_some_iff {env : ConnectEnv} {i : ConnectInput} :
    connectStep env view i = some view' ↔
      connectBlock env i.s i.block i.pindex view false = .ok view' := by
  unfold connectStep
  cases connectBlock env i.s i.block i.pindex view false with
  | error e => exact ⟨nofun, nofun⟩
  | ok v => exact ⟨fun h => congrArg _ (Option.some.inj h), fun h => congrArg _ (Except.ok.inj h)⟩

/-- A block above the genesis block.  Its height is an `int`, and neither it nor a block below
it has the null hash, which stands for no block. -/
structure AboveGenesis (env : ConnectEnv) (i : ConnectInput) : Prop where
  block : i.block.getHash env.cr ≠ (env.net.params.getConsensus 0).hashGenesisBlock
  height : i.pindex.nHeight < 2 ^ 31
  hashes : ∀ a : CBlockIndex, a ≤ i.pindex → a.getBlockHash ≠ 0

def NonnegVersions (block : CBlock) : Prop := ∀ tx ∈ block.vtx, 0 ≤ tx.nVersion.toInt

/-- The view after the genesis block: its coins cannot be spent. -/
def genesisView (env : ConnectEnv) : CoinsView :=
  ⟨fun _ => none, (env.net.params.getConsensus 0).hashGenesisBlock⟩

section Runs

variable {env : ConnectEnv} {i : ConnectInput}

theorem AboveGenesis.steps (habove : AboveGenesis env i) (henv : env.ChecksBlocks)
    (h : connectBlock env i.s i.block i.pindex view false = .ok view') :
    ∃ pprev pr coinbase txs mid undos,
      ConnectedBlock env i.s i.block i.pindex pprev view view' pr ∧
        BlockSteps env i.block i.pindex view pr.view coinbase txs mid undos := by
  obtain ⟨pprev, pr, hblock⟩ := connectedBlock_of_eq_ok habove.block h
  have hparent : pprev ≤ i.pindex := (Lineage.parent?_lt hblock.parent).le
  obtain ⟨coinbase, txs, mid, undos, hsteps⟩ := hblock.steps henv habove.height
    fun a ha => habove.hashes a (ha.trans hparent)
  exact ⟨pprev, pr, coinbase, txs, mid, undos, hblock, hsteps⟩

/-- Coins above the genesis block are sound, and without negative versions if the blocks have
none. -/
theorem sound_and_versions_of_runs (henv : env.ChecksBlocks)
    (h : Runs (connectStep env) (fun _ i => AboveGenesis env i ∧ NonnegVersions i.block)
      (genesisView env) view) :
    view.Sound ∧ view.Every fun c => 0 ≤ c.nVersion.toInt := by
  refine h.invariant (fun v => v.Sound ∧ v.Every fun c => 0 ≤ c.nVersion.toInt) ?_ ⟨nofun, nofun⟩
  rintro v i v' ⟨hsound, hversions⟩ ⟨habove, hblock⟩ hstep
  obtain ⟨pprev, pr, coinbase, txs, mid, undos, hconnected, hsteps⟩ :=
    habove.steps henv (connectStep_eq_some_iff.mp hstep)
  have hnonneg : pr.view.Every fun c => 0 ≤ c.nVersion.toInt :=
    hsteps.every (fun _ _ hc => hc) hversions hblock
  rw [hconnected.after]
  exact ⟨hsteps.sound_after hsound, hnonneg⟩

/-- Views that show the same coins have the same unspent outputs, if no version is negative. -/
theorem Restored.unspent_eq {w : CoinsView} (h : Restored view w)
    (hversions : view.Every fun c => 0 ≤ c.nVersion.toInt) (txid : Uint256) :
    unspent (w.coins txid) = unspent (view.coins txid) := by
  cases hc : unspent (view.coins txid) with
  | none => exact h.of_none hc
  | some c =>
    obtain ⟨q, hq, hmatch⟩ := h.of_some hc
    rw [hq, hmatch.eq_of_nonneg (hversions txid c hc)]

/-- A block that is connected to a view is disconnected from it with the data that was written
for it, cleanly: all transactions have the unspent outputs they had, with the same height,
version and coinbase flag, and the best block is the one before.  Only the versions in the blocks
below have to be nonnegative. -/
theorem disconnectBlock_undoes_connectBlock (henv : env.ChecksBlocks) {ops : PubKeyOps}
    (hops : ops.Lawful)
    (hrun : Runs (connectStep env) (fun _ i => AboveGenesis env i ∧ NonnegVersions i.block)
      (genesisView env) view)
    (habove : AboveGenesis env i)
    (hconnect : connectBlock env i.s i.block i.pindex view false = .ok view') :
    ∃ pprev undo view'', i.pindex.pprev = some pprev ∧
      view.recordedUndo env.cr i.block i.pindex.nHeight = some undo ∧
      CoinsView.disconnectBlock env.cr ops
          (some (undoWriteToDisk env.cr ops undo pprev.getBlockHash)) i.block i.pindex view' =
        some (view'', true) ∧
      (∀ txid, unspent (view''.coins txid) = unspent (view.coins txid)) ∧
      view''.hashBlock = view.hashBlock := by
  obtain ⟨hsound, hnonneg⟩ := sound_and_versions_of_runs henv hrun
  obtain ⟨pprev, pr, coinbase, txs, mid, undos, hconnected, hsteps⟩ := habove.steps henv hconnect
  have hself : Restored pr.view view' := by
    rw [hconnected.after]
    exact Restored.refl pr.view
  have hbest : view'.hashBlock = i.pindex.getBlockHash := by rw [hconnected.after]
  obtain ⟨w, hw, hrestored, hhash⟩ := hsteps.disconnectBlock hsound hconnected.parent
    (hsteps.undoReadFromDisk hsound hops pprev.getBlockHash) (forall₂_matches_back undos) hself
    hbest
  exact ⟨pprev, undos, w, hconnected.parent, hsteps.recorded, hw, hrestored.unspent_eq hnonneg,
    hhash.trans hconnected.best⟩

end Runs

namespace UndoExample

/-- Hashes that tell transactions of different versions apart, on the regression test network;
`CheckBlock` is the one of the code. -/
def env : ConnectEnv :=
  { regtestEnv with
    sg := ⟨fun _ _ => [], fun _ _ _ => false, fun _ => false, fun _ _ => none, fun _ _ _ => false⟩
    hashAssumeValid := 0
    nScriptCheckThreads := 0
    checkBlock := fun block fJustCheck =>
      checkBlock nonceCrypto regTestParams block (!fJustCheck) (!fJustCheck)
    csvActive := fun _ => false
    sequenceLocks := fun _ _ _ _ => true }

def noKeys : PubKeyOps := ⟨fun _ => false, fun _ => none⟩

def free (nValue : CAmount) : CTxOut := ⟨nValue, [Opcode.op1]⟩

def burnt : CTxOut := ⟨0, [Opcode.ret]⟩

def coinbase (nVersion : Int32) : CTransaction :=
  ⟨nVersion, [⟨COutPoint.null, [0, 0], 0, []⟩], [burnt, free 1000, burnt], 0⟩

def spend (nVersion : Int32) (prev : CTransaction) (n : UInt32) (nValue : CAmount) :
    CTransaction :=
  ⟨nVersion, [⟨⟨prev.getHash nonceCrypto, n⟩, [], 0, []⟩], [free nValue, burnt, free nValue], 0⟩

def blockOf (prev nNonce : UInt32) (vtx : List CTransaction) : CBlock :=
  let root := (Merkle.computeMerkleRoot nonceCrypto (vtx.map (·.getHash nonceCrypto))).1
  ⟨{ regtestHeader prev nNonce with hashMerkleRoot := root }, vtx⟩

def block1 : CBlock := blockOf 1 2 [coinbase 1]

/-- It spends the last output of the coinbase of block 1. -/
def spendOld : CTransaction := spend 3 (coinbase 1) 1 500

/-- A transaction spends another one of the same block. -/
def block2 : CBlock := blockOf 2 3 [coinbase 2, spendOld, spend 4 spendOld 0 200]

def genesis : CBlockIndex :=
  .root { regTestParams.genesis.indexData nonceCrypto with
    hashBlock := (regTestParams.getConsensus 0).hashGenesisBlock }

def index1 : CBlockIndex := .child genesis (block1.indexData nonceCrypto)
def index2 : CBlockIndex := .child index1 (block2.indexData nonceCrypto)

def tree : ChainState :=
  { ChainState.initBlockIndex regtestEnv with mapBlockIndex := [genesis, index1] }

end UndoExample

open UndoExample in
/-- Block 2 spends the last output of an old transaction and an output of its own, and has
outputs that cannot be spent; it is disconnected cleanly. -/
theorem disconnectBlock_undoes_block2 :
    ∃ view view' undo view'',
      Runs (connectStep env) (fun _ i => AboveGenesis env i ∧ NonnegVersions i.block)
        (genesisView env) view ∧
      connectBlock env tree block2 index2 view false = .ok view' ∧
      CoinsView.disconnectBlock env.cr noKeys
          (some (undoWriteToDisk env.cr noKeys undo index1.getBlockHash)) block2 index2 view' =
        some (view'', true) ∧
      ∀ txid, unspent (view''.coins txid) = unspent (view.coins txid) := by
  have hok : ((connectStep env (genesisView env) ⟨tree, block1, index1⟩).any fun v =>
      (connectBlock env tree block2 index2 v false).isOk) = true := by decide +kernel
  obtain ⟨view, hview, hnext⟩ := (Option.any_eq_true _ _).mp hok
  have hhashes : ∀ a : CBlockIndex, a ≤ index2 → a.getBlockHash ≠ 0 := by
    intro a ha
    rcases Lineage.le_child_iff.mp ha with rfl | ha
    · decide +kernel
    rcases Lineage.le_child_iff.mp ha with rfl | ha
    · decide +kernel
    obtain rfl := Lineage.le_root_iff.mp ha
    decide +kernel
  have habove1 : AboveGenesis env ⟨tree, block1, index1⟩ :=
    ⟨by decide +kernel, by decide +kernel,
      fun a ha => hhashes a (ha.trans (Lineage.parent?_lt rfl).le)⟩
  have habove2 : AboveGenesis env ⟨tree, block2, index2⟩ :=
    ⟨by decide +kernel, by decide +kernel, hhashes⟩
  have hversions : NonnegVersions block1 := by
    unfold NonnegVersions
    decide +kernel
  have henv : env.ChecksBlocks := fun _ _ => rfl
  have hops : noKeys.Lawful := ⟨nofun⟩
  have hrun := Runs.tail (G := fun _ i => AboveGenesis env i ∧ NonnegVersions i.block) .refl
    ⟨habove1, hversions⟩ hview
  cases hconnect : connectBlock env tree block2 index2 view false with
  | error e =>
    rw [hconnect] at hnext
    cases hnext
  | ok view' =>
    obtain ⟨pprev, undo, view'', hparent, -, hdisconnect, hcoins, -⟩ :=
      disconnectBlock_undoes_connectBlock henv hops hrun habove2 hconnect
    cases hparent
    exact ⟨view, view', undo, view'', hrun, hconnect, hdisconnect, hcoins⟩

end RgmNode
