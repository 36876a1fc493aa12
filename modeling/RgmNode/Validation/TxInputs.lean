import Mathlib.Algebra.Order.BigOperators.Group.List
import RgmNode.Validation.Connect

/-!
# What `CheckTxInputs` accepts

Sums that are checked after every addition, and `CheckTxInputs` as one condition on the outputs
that are spent.
-/

namespace RgmNode

open Checks List

variable {cp : CChainParams} {view : CoinsView} {nSpendHeight : Nat} {tx : CTransaction}
  {spent : List (CCoins × CTxOut)}

/-! ## 1. Sums in range -/

variable {start : CAmount}

theorem sum_nonneg_of_range {values : List CAmount} (h : ∀ v ∈ values, moneyRange v = true) :
    0 ≤ values.sum :=
  sum_nonneg fun v hv => (moneyRange_iff.mp (h v hv)).1

/-- The values from `start` on and their sum are in range. -/
def InRange (start : CAmount) (values : List CAmount) : Prop :=
  (∀ v ∈ values, moneyRange v = true) ∧ moneyRange (start + values.sum) = true

theorem inRange_nil (h : moneyRange start = true) : InRange start [] :=
  ⟨nofun, by simpa using h⟩

/-- A sum that is checked after every addition: the last check implies the others. -/
theorem inRange_cons {values : List CAmount} (h : moneyRange start = true) :
    InRange start (v :: values) ↔
      moneyRange v = true ∧ moneyRange (start + v) = true ∧ InRange (start + v) values := by
  rw [InRange, forall_mem_cons, sum_cons, ← add_assoc]
  constructor
  · rintro ⟨⟨hv, hvalues⟩, hsum⟩
    refine ⟨hv, ?_, hvalues, hsum⟩
    have hrest := sum_nonneg_of_range hvalues
    rw [moneyRange_iff] at h hv hsum ⊢
    exact ⟨add_nonneg h.1 hv.1, (le_add_of_nonneg_right hrest).trans hsum.2⟩
  · rintro ⟨hv, -, hvalues, hsum⟩
    exact ⟨⟨hv, hvalues⟩, hsum⟩

/-! ## 2. The value of the outputs -/

/-- One round of the loop of `GetValueOut`. -/
def addValueOut (sum : Option CAmount) (o : CTxOut) : Option CAmount :=
  match sum with
  | none => none
  | some nValueOut =>
    if moneyRange o.nValue && moneyRange (nValueOut + o.nValue) then some (nValueOut + o.nValue)
    else none

theorem foldl_addValueOut_none (outs : List CTxOut) : outs.foldl addValueOut none = none := by
  induction outs with
  | nil => rfl
  | cons o outs ih => exact ih

theorem foldl_addValueOut_iff {outs : List CTxOut} (h : moneyRange start = true) :
    outs.foldl addValueOut (some start) = some v ↔
      InRange start (outs.map (·.nValue)) ∧ v = start + (outs.map (·.nValue)).sum := by
  induction outs generalizing start with
  | nil =>
    constructor
    · intro hv
      cases hv
      exact ⟨inRange_nil h, by simp⟩
    · rintro ⟨-, rfl⟩
      simp
  | cons o outs ih =>
    rw [foldl_cons, map_cons, inRange_cons h, sum_cons, ← add_assoc]
    by_cases hround : moneyRange o.nValue = true ∧ moneyRange (start + o.nValue) = true
    · have hadd : addValueOut (some start) o = some (start + o.nValue) := by
        simp [addValueOut, hround.1, hround.2]
      rw [hadd, ih hround.2]
      constructor
      · rintro ⟨hrest, rfl⟩
        exact ⟨⟨hround.1, hround.2, hrest⟩, rfl⟩
      · rintro ⟨⟨-, -, hrest⟩, rfl⟩
        exact ⟨hrest, rfl⟩
    · have hadd : addValueOut (some start) o = none := by
        rw [addValueOut, if_neg]
        rwa [Bool.and_eq_true]
      rw [hadd, foldl_addValueOut_none]
      constructor
      · nofun
      · rintro ⟨⟨hv, hsum, -⟩, -⟩
        exact absurd ⟨hv, hsum⟩ hround

/-- `GetValueOut` is the sum of the outputs, where all sums are in range. -/
theorem getValueOut_eq_some_iff :
    tx.getValueOut = some v ↔
      InRange 0 (tx.vout.map (·.nValue)) ∧ v = (tx.vout.map (·.nValue)).sum := by
  have hfold : tx.getValueOut = tx.vout.foldl addValueOut (some 0) := rfl
  rw [hfold, foldl_addValueOut_iff (by decide), zero_add]

/-! ## 3. `CheckTxInputs` -/

theorem checkTxInput_eq_ok_iff {nValueIn : CAmount} {c : CCoins × CTxOut} :
    checkTxInput cp nSpendHeight nValueIn c = .ok v ↔
      (isMature cp c.1 nSpendHeight ∧ pqSpendActive cp c.2.scriptPubKey nSpendHeight) ∧
        (moneyRange c.2.nValue = true ∧ moneyRange (nValueIn + c.2.nValue) = true) ∧
        v = nValueIn + c.2.nValue := by
  unfold checkTxInput ensure
  rw [require_bind_eq_ok_iff, require_bind_eq_ok_iff, require_bind_eq_ok_iff]
  constructor
  · rintro ⟨hmature, hactive, hrange, h⟩
    exact ⟨⟨hmature, hactive⟩, hrange, (Except.ok.inj h).symm⟩
  · rintro ⟨⟨hmature, hactive⟩, hrange, rfl⟩
    exact ⟨hmature, hactive, hrange, rfl⟩

theorem foldlM_checkTxInput_iff (h : moneyRange start = true) :
    spent.foldlM (checkTxInput cp nSpendHeight) start = .ok v ↔
      (∀ c ∈ spent, isMature cp c.1 nSpendHeight ∧
        pqSpendActive cp c.2.scriptPubKey nSpendHeight) ∧
      InRange start (spent.map (·.2.nValue)) ∧ v = start + (spent.map (·.2.nValue)).sum := by
  induction spent generalizing start with
  | nil =>
    constructor
    · intro hv
      cases hv
      exact ⟨nofun, inRange_nil h, by simp⟩
    · rintro ⟨-, -, rfl⟩
      simp [pure, Except.pure]
  | cons c spent ih =>
    rw [foldlM_cons, bind_eq_ok_iff, map_cons, inRange_cons h, sum_cons,
      forall_mem_cons, ← add_assoc]
    constructor
    · rintro ⟨u, hu, hrest⟩
      obtain ⟨hchecks, hrange, rfl⟩ := checkTxInput_eq_ok_iff.mp hu
      obtain ⟨hchecks', hrange', rfl⟩ := (ih hrange.2).mp hrest
      exact ⟨⟨hchecks, hchecks'⟩, ⟨hrange.1, hrange.2, hrange'⟩, rfl⟩
    · rintro ⟨⟨hchecks, hchecks'⟩, ⟨hrange, hsum, hrange'⟩, rfl⟩
      exact ⟨_, checkTxInput_eq_ok_iff.mpr ⟨hchecks, ⟨hrange, hsum⟩, rfl⟩,
        (ih hsum).mpr ⟨hchecks', hrange', rfl⟩⟩

/-- What `CheckTxInputs` asks of a transaction apart from the gate: the outputs `spent` are there
and mature, and they pay for the outputs of the transaction, in range. -/
structure InOrder (cp : CChainParams) (view : CoinsView) (nSpendHeight : Nat) (tx : CTransaction)
    (spent : List (CCoins × CTxOut)) : Prop where
  have_inputs : view.haveInputs tx = true
  spentBy : view.spentBy tx = some spent
  mature : ∀ c ∈ spent, isMature cp c.1 nSpendHeight
  inRange : InRange 0 (spent.map (·.2.nValue))
  outRange : InRange 0 (tx.vout.map (·.nValue))
  balance : (tx.vout.map (·.nValue)).sum ≤ (spent.map (·.2.nValue)).sum

/-- The fee of a transaction is in range, if its inputs and outputs are. -/
theorem InOrder.fee_range (h : InOrder cp view nSpendHeight tx spent) :
    moneyRange ((spent.map (·.2.nValue)).sum - (tx.vout.map (·.nValue)).sum) = true := by
  have hin := moneyRange_iff.mp h.inRange.2
  have hout := moneyRange_iff.mp h.outRange.2
  rw [zero_add] at hin hout
  rw [moneyRange_iff]
  exact ⟨sub_nonneg.mpr h.balance, (sub_le_self _ hout.1).trans hin.2⟩

/-- `CheckTxInputs` accepts a transaction that is in order and passes the gate. -/
theorem checkTxInputs_eq_ok_iff :
    checkTxInputs cp view nSpendHeight tx = .ok () ↔
      ∃ spent, InOrder cp view nSpendHeight tx spent ∧
        ∀ c ∈ spent, pqSpendActive cp c.2.scriptPubKey nSpendHeight := by
  unfold checkTxInputs ensure
  rw [require_bind_eq_ok_iff]
  constructor
  · rintro ⟨hhave, h⟩
    obtain ⟨spent, hspent, h⟩ := bind_eq_ok_iff.mp h
    obtain ⟨nValueIn, hloop, h⟩ := bind_eq_ok_iff.mp h
    obtain ⟨nValueOut, hout, h⟩ := bind_eq_ok_iff.mp h
    obtain ⟨hbalance, -⟩ := require_bind_eq_ok_iff.mp h
    obtain ⟨hchecks, hrange, rfl⟩ := (foldlM_checkTxInput_iff (by decide)).mp hloop
    obtain ⟨hrange', rfl⟩ := getValueOut_eq_some_iff.mp (demand_eq_ok_iff.mp hout)
    rw [zero_add] at hbalance
    exact ⟨spent, ⟨hhave, demand_eq_ok_iff.mp hspent, fun c hc => (hchecks c hc).1, hrange,
      hrange', hbalance⟩, fun c hc => (hchecks c hc).2⟩
  · rintro ⟨spent, h, hgate⟩
    refine ⟨h.have_inputs, bind_eq_ok_iff.mpr ⟨spent, demand_eq_ok_iff.mpr h.spentBy, ?_⟩⟩
    refine bind_eq_ok_iff.mpr ⟨(spent.map (·.2.nValue)).sum, ?_, ?_⟩
    · exact (foldlM_checkTxInput_iff (by decide)).mpr
        ⟨fun c hc => ⟨h.mature c hc, hgate c hc⟩, h.inRange, (zero_add _).symm⟩
    refine bind_eq_ok_iff.mpr ⟨(tx.vout.map (·.nValue)).sum, ?_, ?_⟩
    · exact demand_eq_ok_iff.mpr (getValueOut_eq_some_iff.mpr ⟨h.outRange, rfl⟩)
    refine require_bind_eq_ok_iff.mpr ⟨h.balance, ?_⟩
    refine require_bind_eq_ok_iff.mpr ⟨sub_nonneg.mpr h.balance, ?_⟩
    exact require_eq_ok_iff.mpr h.fee_range

end RgmNode
