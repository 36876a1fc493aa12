import RgmNode.Wallet.CreateTransaction

/-!
# The balance of a created transaction

What the inputs of a created transaction are worth goes to the recipients, to the change and to the
fee.  A round of the fee loop ends with a draft that balances: the change, its raise, its discard
and the two corrections of the fee only move value between the three.
-/

namespace RgmNode

open Checks InputCoin List CTxOut Int

/-! ## 1. What is asked of a transaction -/

def CTxOut.total (vout : List CTxOut) : CAmount := (vout.map CTxOut.nValue).sum

@[simp]
theorem CTxOut.total_cons (o : CTxOut) (vout : List CTxOut) :
    CTxOut.total (o :: vout) = o.nValue + CTxOut.total vout := rfl

namespace CRecipient

def total (vecSend : List CRecipient) : CAmount := (vecSend.map nAmount).sum

/-- The number of recipients that the fee is subtracted from -/
def payers (vecSend : List CRecipient) : Nat := vecSend.countP fSubtractFeeFromAmount

/-- What a recipient pays of the fee: its part and, if it is the first that pays, what the division
leaves over and the raise of the change -/
def charge (nFeeRet raise : CAmount) (nSubtract : Nat) (fFirst : Bool) (r : CRecipient) : CAmount :=
  if r.fSubtractFeeFromAmount then
    nFeeRet / nSubtract + (if fFirst then nFeeRet % nSubtract + raise else 0)
  else 0

/-- What the recipients get -/
def charged (nFeeRet raise : CAmount) (nSubtract : Nat) : List CRecipient → Bool → List CAmount
  | [], _ => []
  | r :: vecSend, fFirst =>
    (r.nAmount - r.charge nFeeRet raise nSubtract fFirst) ::
      charged nFeeRet raise nSubtract vecSend (fFirst && !r.fSubtractFeeFromAmount)

/-- The recipients with an unspendable script that pay the fee have enough for it.  That the others
do is checked: their outputs would be dust. -/
def Afford (nFeeRet raise : CAmount) (nSubtract : Nat) : List CRecipient → Bool → Prop
  | [], _ => True
  | r :: vecSend, fFirst =>
    (r.fSubtractFeeFromAmount = true → CScript.isUnspendable r.scriptPubKey = true →
      r.charge nFeeRet raise nSubtract fFirst ≤ r.nAmount) ∧
    Afford nFeeRet raise nSubtract vecSend (fFirst && !r.fSubtractFeeFromAmount)

instance decidableAfford (nFeeRet raise : CAmount) (nSubtract : Nat) :
    ∀ vecSend fFirst, Decidable (Afford nFeeRet raise nSubtract vecSend fFirst)
  | [], _ => .isTrue trivial
  | _ :: vecSend, _ =>
    @instDecidableAnd _ _ inferInstance (decidableAfford nFeeRet raise nSubtract vecSend _)

/-- What the recipients that pay the fee lose -/
def lost : List CRecipient → List CTxOut → CAmount
  | r :: vecSend, o :: vout =>
    (if r.fSubtractFeeFromAmount then r.nAmount - o.nValue else 0) + lost vecSend vout
  | _, _ => 0

@[simp]
theorem total_nil : total [] = 0 := rfl

@[simp]
theorem total_cons (r : CRecipient) (vecSend : List CRecipient) :
    total (r :: vecSend) = r.nAmount + total vecSend := rfl

theorem total_nonneg {vecSend : List CRecipient} (h : ∀ r ∈ vecSend, moneyRange r.nAmount = true) :
    0 ≤ total vecSend :=
  sum_nonneg_of_range (forall_mem_map.mpr h)

end CRecipient

def dustRaise (discardThreshold nChange : CAmount) (scriptChange : CScript) : CAmount :=
  if 0 < nChange ∧ (⟨nChange, scriptChange⟩ : CTxOut).isDust discardThreshold then
    discardThreshold - nChange
  else 0

namespace Created

variable (c : Created)

def payees : List CTxOut :=
  if c.nChangePosInOut = -1 then c.tx.vout else c.tx.vout.eraseIdx c.nChangePosInOut.toNat

def change : Option CTxOut :=
  if c.nChangePosInOut = -1 then none else c.tx.vout[c.nChangePosInOut.toNat]?

/-- The raise of the change, if that was dust -/
def changeRaise (discardThreshold : CAmount) (vecSend : List CRecipient) : CAmount :=
  c.change.elim 0 fun o =>
    dustRaise discardThreshold (total c.setCoins - CRecipient.total vecSend) o.scriptPubKey

/-- The transaction spends different coins of the wallet and balances. -/
structure Balanced (coins : List InputCoin) (discardThreshold : CAmount)
    (vecSend : List CRecipient) : Prop where
  noOverflow : CRecipient.total vecSend < 2 ^ 63
  inputs : c.tx.vin.map CTxIn.prevout = c.setCoins.map outpoint
  inputs_nodup : (c.setCoins.map outpoint).Nodup
  inputs_subset : c.setCoins ⊆ coins
  balance : total c.setCoins - CTxOut.total c.tx.vout = c.nFeeRet
  fee_nonneg : 0 ≤ c.nFeeRet
  scripts : c.payees.map CTxOut.scriptPubKey = vecSend.map CRecipient.scriptPubKey
  exact : List.Forall₂ (fun r o => r.fSubtractFeeFromAmount = false → o.nValue = r.nAmount)
    vecSend c.payees
  lost : CRecipient.lost vecSend c.payees ≤ c.nFeeRet + c.changeRaise discardThreshold vecSend
  outputs_nonneg : ∀ o ∈ c.tx.vout, 0 ≤ o.nValue
  change_large : ∀ o ∈ c.change, CScript.isUnspendable o.scriptPubKey = false →
    discardThreshold ≤ o.nValue

end Created

/-- Settings that no sum of amounts overflows with -/
structure WalletSettings.Sane (w : WalletSettings) : Prop where
  threshold : moneyRange w.discardThreshold = true
  minTxFee : 0 ≤ w.minTxFee.nSatoshisPerK ∧ w.minTxFee.nSatoshisPerK * 1000 ≤ maxMoney
  minRelayTxFee : 0 ≤ w.minRelayTxFeeRate.nSatoshisPerK ∧
    w.minRelayTxFeeRate.nSatoshisPerK < 2 ^ 31
  maxTxFee : w.maxTxFee ≤ maxMoney

/-- The coins that may be selected are different coins of the wallet. -/
structure CreateEnv.Selects (env : CreateEnv) (coinControl : Option CCoinControl)
    (coins : List InputCoin) : Prop where
  fine : Fine coins
  available_nodup : ((env.vAvailableCoins.map COutput.toInputCoin).map outpoint).Nodup
  available : env.vAvailableCoins.map COutput.toInputCoin ⊆ coins
  preset : ∀ vPreset, env.selectionEnv.presetCoins
    (coinControl.elim [] CCoinControl.setSelected) = some vPreset → vPreset ⊆ coins

/-! ## 2. Fees -/

theorem maxMoney_lt_maxFee : 4 * maxMoney < maxFee := by decide

section

variable {w : WalletSettings}

theorem WalletSettings.Sane.getMinChange (h : w.Sane) :
    0 ≤ w.getMinChange ∧ w.getMinChange ≤ 3 * maxMoney := by
  obtain ⟨hlow, hhigh⟩ := moneyRange_iff.mp h.threshold
  obtain ⟨hrate, hmul⟩ := h.minTxFee
  have hmax : 4 * maxMoney < 2 ^ 63 := by decide
  have hfits : int64 (w.minTxFee.nSatoshisPerK * ((1000 : Nat) : Int)) =
      w.minTxFee.nSatoshisPerK * 1000 :=
    int64_of_fits (by push_cast; linarith) (by push_cast; linarith)
  have hfee : w.minTxFee.getFeePerK = w.minTxFee.nSatoshisPerK := by
    rw [CFeeRate.getFeePerK, CFeeRate.getFee, hfits, mul_tdiv_cancel _ (by decide)]
    split
    · next hzero => rw [if_neg (by rw [hzero.1]; decide), if_neg (by rw [hzero.1]; decide)]
    · rfl
  have hdouble : int64 (w.minTxFee.nSatoshisPerK * 2) = w.minTxFee.nSatoshisPerK * 2 :=
    int64_of_fits (by linarith) (by linarith)
  rw [WalletSettings.getMinChange, hfee, int64_of_fits (by linarith) (by linarith)]
  constructor <;> linarith

theorem WalletSettings.clampFee_le (vout : List CTxOut) (nTxBytes : Nat) (estimate : CAmount) :
    w.clampFee vout nTxBytes estimate ≤ w.maxTxFee := by
  rw [clampFee]
  generalize max _ (w.getRequiredFee vout nTxBytes) = nFeeNeeded
  split
  · exact le_refl _
  · next h => exact not_lt.mp h

theorem feeNeeded_le (hw : w.maxTxFee ≤ maxMoney) {coinControl : Option CCoinControl}
    (hcontrol : ∀ cc ∈ coinControl, cc.nMinimumTotalFee ≤ maxMoney) (vout : List CTxOut)
    (nBytes : Nat) : feeNeeded w coinControl vout nBytes ≤ maxFee := by
  have hmax := maxMoney_lt_maxFee
  have hmoney : 0 ≤ maxMoney := by decide
  have hclamp : ∀ estimate, w.clampFee vout nBytes estimate ≤ maxFee := by
    intro estimate
    have := w.clampFee_le vout nBytes estimate
    linarith
  have hbase : (if coinControl.elim FeeRatePreset.minimum CCoinControl.nPriority = .minimum then
      w.getMinimumFee vout nBytes
      else w.getRGMPriorityFee vout nBytes (coinControl.elim .minimum CCoinControl.nPriority)) ≤
      maxFee := by
    split
    · exact hclamp _
    · exact hclamp _
  cases coinControl with
  | none => exact hbase
  | some cc =>
    rw [feeNeeded]
    generalize (if _ = FeeRatePreset.minimum then _ else _) = nFeeNeeded at hbase ⊢
    split
    · exact cc.nFeeRate.getFee_le nBytes
    · split
      · have := hcontrol cc rfl
        linarith
      · exact hbase

end

/-! ## 3. The recipients -/

section Recipients

variable {vecSend : List CRecipient} {discardThreshold nFeeRet : CAmount} {nSubtract : Nat}

open CRecipient

/-- The sum that is formed is the sum of the amounts, unless it overflows. -/
theorem sumRecipients_eq {nValue : CAmount} {n : Nat}
    (hrange : ∀ r ∈ vecSend, moneyRange r.nAmount = true) (hvalue : 0 ≤ nValue)
    (hfits : nValue + total vecSend < 2 ^ 63) (hn : n < 2 ^ 32) :
    sumRecipients vecSend nValue n =
      .ok (nValue + total vecSend, (n + CRecipient.payers vecSend) % 2 ^ 32) := by
  induction vecSend generalizing nValue n with
  | nil =>
    rw [CRecipient.total_nil, add_zero]
    exact congrArg (fun k => Except.ok (nValue, k)) (Nat.mod_eq_of_lt hn).symm
  | cons r vecSend ih =>
    obtain ⟨hr, hrest⟩ := forall_mem_cons.mp hrange
    obtain ⟨hnonneg, -⟩ := moneyRange_iff.mp hr
    have htotal := total_nonneg hrest
    rw [CRecipient.total_cons] at hfits ⊢
    rw [sumRecipients, if_neg (by rintro (h | h) <;> linarith),
      int64_of_fits (by linarith) (by linarith),
      ih hrest (by linarith) (by linarith) (by split <;> [exact Nat.mod_lt _ (by decide); exact hn]),
      add_assoc, CRecipient.payers, CRecipient.payers, countP_cons]
    congr 2
    split
    · rw [Nat.mod_add_mod]
      congr 1
      omega
    · rfl

theorem CRecipient.charge_bounds (r : CRecipient) (fFirst : Bool) (hfee : 0 ≤ nFeeRet)
    (hn : r.fSubtractFeeFromAmount = true → 0 < nSubtract) :
    0 ≤ r.charge nFeeRet 0 nSubtract fFirst ∧ r.charge nFeeRet 0 nSubtract fFirst ≤ nFeeRet := by
  rw [charge]
  split
  · next hsub =>
    have hpos : (1 : Int) ≤ nSubtract := by exact_mod_cast hn hsub
    have hdiv : 0 ≤ nFeeRet / (nSubtract : Int) := ediv_nonneg hfee (by linarith)
    have hmod : 0 ≤ nFeeRet % (nSubtract : Int) := emod_nonneg _ (by linarith)
    have hsum : (nSubtract : Int) * (nFeeRet / nSubtract) + nFeeRet % nSubtract = nFeeRet :=
      mul_ediv_add_emod _ _
    have hle : 1 * (nFeeRet / (nSubtract : Int)) ≤ nSubtract * (nFeeRet / nSubtract) :=
      Int.mul_le_mul_of_nonneg_right hpos hdiv
    split
    · constructor <;> linarith
    · constructor <;> linarith
  · exact ⟨le_refl _, hfee⟩

theorem CRecipient.payout_eq (r : CRecipient) (fFirst : Bool) (hr : moneyRange r.nAmount = true)
    (hfee : 0 ≤ nFeeRet) (hmax : nFeeRet ≤ maxFee)
    (hn : r.fSubtractFeeFromAmount = true → 0 < nSubtract) :
    r.payout nFeeRet nSubtract fFirst = r.nAmount - r.charge nFeeRet 0 nSubtract fFirst := by
  obtain ⟨hlow, hhigh⟩ := moneyRange_iff.mp hr
  have hmoney := maxMoney_lt_maxFee
  have hroom : 2 * maxFee ≤ 2 ^ 63 := by decide
  have hall := (r.charge_bounds true hfee hn).2
  rw [charge] at hall
  rw [payout, charge]
  split
  · next hsub =>
    have hpos : (1 : Int) ≤ nSubtract := by exact_mod_cast hn hsub
    rw [if_pos hsub, if_pos rfl] at hall
    have hdiv : 0 ≤ nFeeRet / (nSubtract : Int) := ediv_nonneg hfee (by linarith)
    have hmod : 0 ≤ nFeeRet % (nSubtract : Int) := emod_nonneg _ (by linarith)
    rw [tdiv_eq_ediv_of_nonneg hfee, tmod_eq_emod_of_nonneg hfee,
      int64_of_fits (by linarith) (by linarith)]
    split
    · rw [int64_of_fits (by linarith) (by linarith)]
      ring
    · ring
  · ring

theorem CRecipient.payers_cons (r : CRecipient) (vecSend : List CRecipient) :
    payers (r :: vecSend) = payers vecSend + if r.fSubtractFeeFromAmount then 1 else 0 :=
  countP_cons

/-- What the recipients get is the amounts without the fee, its remainder and the raise. -/
theorem CRecipient.sum_charged (nFeeRet raise : CAmount) (nSubtract : Nat)
    (vecSend : List CRecipient) (fFirst : Bool) :
    (charged nFeeRet raise nSubtract vecSend fFirst).sum = total vecSend -
      (payers vecSend * (nFeeRet / nSubtract) +
        if fFirst = true ∧ 0 < payers vecSend then nFeeRet % nSubtract + raise else 0) := by
  induction vecSend generalizing fFirst with
  | nil => simp [charged, payers]
  | cons r vecSend ih =>
    rw [charged, sum_cons, ih, total_cons, payers_cons, charge]
    cases hsub : r.fSubtractFeeFromAmount with
    | true =>
      simp only [if_true, Bool.not_true, Bool.and_false, Bool.false_eq_true, false_and, if_false,
        Nat.succ_pos, and_true, Nat.cast_add, Nat.cast_one]
      ring
    | false =>
      simp only [Bool.false_eq_true, if_false, Bool.not_false, Bool.and_true, add_zero]
      ring

theorem CRecipient.charged_of_payers_eq_zero {vecSend : List CRecipient}
    (h : payers vecSend = 0) (nFeeRet raise : CAmount) (nSubtract : Nat) (fFirst : Bool) :
    charged nFeeRet raise nSubtract vecSend fFirst = vecSend.map nAmount := by
  induction vecSend generalizing fFirst with
  | nil => rfl
  | cons r vecSend ih =>
    rw [payers_cons, Nat.add_eq_zero_iff] at h
    have hsub : ¬ r.fSubtractFeeFromAmount = true := fun hsub => by simp [hsub] at h
    rw [charged, ih h.1, charge, if_neg hsub, sub_zero, map_cons]

/-- An output is to a recipient, not dust, and pays it exactly if the fee is not subtracted. -/
structure Pays (discardThreshold : CAmount) (r : CRecipient) (o : CTxOut) : Prop where
  script : o.scriptPubKey = r.scriptPubKey
  notDust : o.isDust discardThreshold = false
  exact : r.fSubtractFeeFromAmount = false → o.nValue = r.nAmount

/-- The outputs to the payees get the amounts without their parts of the fee. -/
theorem payees_spec {fFirst : Bool} {vout : List CTxOut}
    (hrange : ∀ r ∈ vecSend, moneyRange r.nAmount = true) (hfee : 0 ≤ nFeeRet)
    (hmax : nFeeRet ≤ maxFee)
    (h : payees discardThreshold nFeeRet nSubtract vecSend fFirst = .ok vout) :
    Forall₂ (Pays discardThreshold) vecSend vout ∧
      (∀ o ∈ vout, -maxFee ≤ o.nValue ∧ o.nValue ≤ maxMoney) ∧
      vout.map CTxOut.nValue = charged nFeeRet 0 nSubtract vecSend fFirst := by
  induction vecSend generalizing fFirst vout with
  | nil =>
    cases h
    exact ⟨.nil, by simp, rfl⟩
  | cons r vecSend ih =>
    obtain ⟨hr, hrest⟩ := forall_mem_cons.mp hrange
    rw [payees] at h
    split at h
    · cases h
    next hpositive =>
    split at h
    · cases h
    next hdust =>
    obtain ⟨rest, hpayees, rfl⟩ := map_eq_ok_iff.mp h
    obtain ⟨hpays, hbounds, hvalues⟩ := ih hrest hpayees
    have hn : r.fSubtractFeeFromAmount = true → 0 < nSubtract :=
      fun hsub => pos_of_ne_zero fun hzero => hpositive ⟨hsub, hzero⟩
    have hpayout := r.payout_eq fFirst hr hfee hmax hn
    obtain ⟨hlow, hhigh⟩ := moneyRange_iff.mp hr
    obtain ⟨hcharge, hcharge'⟩ := r.charge_bounds fFirst hfee hn
    refine ⟨.cons ⟨rfl, Bool.not_eq_true _ ▸ hdust, fun hsub => ?_⟩ hpays, ?_, ?_⟩
    · dsimp only
      rw [payout, hsub]
      rfl
    · refine forall_mem_cons.mpr ⟨?_, hbounds⟩
      constructor <;> linarith
    · rw [map_cons, charged, hvalues, hpayout]

/-- The raise of the change is subtracted from the first of the recipients that pay the fee. -/
theorem subtractFromFirst_spec {changeDelta : CAmount} {vout vout' : List CTxOut}
    (hpays : Forall₂ (Pays discardThreshold) vecSend vout)
    (hbounds : ∀ o ∈ vout, -maxFee ≤ o.nValue ∧ o.nValue ≤ maxMoney) (hdelta : 0 ≤ changeDelta)
    (hmax : changeDelta ≤ maxMoney)
    (hvalues : vout.map CTxOut.nValue = charged nFeeRet 0 nSubtract vecSend true)
    (h : subtractFromFirst discardThreshold changeDelta vecSend vout = .ok vout') :
    Forall₂ (Pays discardThreshold) vecSend vout' ∧
      vout'.map CTxOut.nValue = charged nFeeRet changeDelta nSubtract vecSend true := by
  have hmoney := maxMoney_lt_maxFee
  have hroom : 2 * maxFee ≤ 2 ^ 63 := by decide
  -- no one pays it after the first
  have hrest : ∀ vecSend : List CRecipient, charged nFeeRet changeDelta nSubtract vecSend false =
      charged nFeeRet 0 nSubtract vecSend false := by
    intro vecSend
    induction vecSend with
    | nil => rfl
    | cons r vecSend ih => simpa [charged, charge] using ih
  induction hpays generalizing vout' with
  | nil =>
    cases h
    exact ⟨.nil, rfl⟩
  | @cons r o vecSend vout hpay hpays ih =>
    obtain ⟨⟨hlow, hhigh⟩, hbounds'⟩ := forall_mem_cons.mp hbounds
    rw [map_cons, charged] at hvalues
    obtain ⟨hvalue, hvalues⟩ := cons.inj hvalues
    rw [subtractFromFirst] at h
    rw [charged]
    split at h
    · next hsub =>
      rw [int64_of_fits (by linarith) (by linarith)] at h
      dsimp only at h
      split at h
      · cases h
      · next hdust =>
        cases h
        refine ⟨.cons ⟨hpay.script, Bool.not_eq_true _ ▸ hdust, fun hno => ?_⟩ hpays, ?_⟩
        · rw [hsub] at hno
          cases hno
        · rw [charge, if_pos hsub, if_pos rfl] at hvalue ⊢
          rw [hsub, Bool.not_true, Bool.and_false] at hvalues ⊢
          rw [map_cons, hvalues, hrest, hvalue]
          congr 1
          ring
    · next hsub =>
      obtain ⟨rest, hsubtract, rfl⟩ := map_eq_ok_iff.mp h
      rw [Bool.not_eq_true] at hsub
      rw [hsub, Bool.not_false, Bool.and_true] at hvalues ⊢
      obtain ⟨hpays', hvalues'⟩ := ih hbounds' hvalues hsubtract
      refine ⟨.cons hpay hpays', ?_⟩
      rw [map_cons, hvalues', hvalue, charge, charge, hsub]
      rfl

end Recipients

/-! ## 4. Drafts -/

/-- The outputs of a draft are those to the payees, and the change where there is one. -/
inductive Draft.Splits (payees : List CTxOut) : Option CTxOut → Draft → Prop where
  | whole (nFeeRet : CAmount) : Splits payees none ⟨payees, -1, nFeeRet⟩
  | around (pos : Nat) (hpos : pos ≤ payees.length) (o : CTxOut) (nFeeRet : CAmount) :
      Splits payees (some o) ⟨payees.insertIdx pos o, pos, nFeeRet⟩

/-- A draft gives what its inputs are worth to the payees, the change and the fee. -/
structure Draft.Balances (discardThreshold : CAmount) (vecSend : List CRecipient)
    (nValueIn : CAmount) (payees : List CTxOut) (change : Option CTxOut) (d : Draft) : Prop where
  splits : d.Splits payees change
  pays : List.Forall₂ (Pays discardThreshold) vecSend payees
  fee_nonneg : 0 ≤ d.nFeeRet
  change_nonneg : ∀ o ∈ change, 0 ≤ o.nValue
  change_notDust : ∀ o ∈ change, o.isDust discardThreshold = false
  balance : CTxOut.total payees + change.elim 0 CTxOut.nValue + d.nFeeRet = nValueIn
  lost : CRecipient.total vecSend - CTxOut.total payees ≤ d.nFeeRet +
    change.elim 0 fun o =>
      dustRaise discardThreshold (nValueIn - CRecipient.total vecSend) o.scriptPubKey
  values : payees.map CTxOut.nValue = CRecipient.charged d.nFeeRet
    (change.elim 0 fun o =>
      dustRaise discardThreshold (nValueIn - CRecipient.total vecSend) o.scriptPubKey)
    (CRecipient.payers vecSend) vecSend true

theorem Draft.Balances.total_payees {discardThreshold nValueIn : CAmount}
    {vecSend : List CRecipient} {payees : List CTxOut} {change : Option CTxOut} {d : Draft}
    (h : d.Balances discardThreshold vecSend nValueIn payees change)
    (hzero : CRecipient.payers vecSend = 0) :
    CTxOut.total payees = CRecipient.total vecSend := by
  rw [CTxOut.total, h.values, CRecipient.charged_of_payers_eq_zero hzero]
  rfl

theorem dustRaise_nonneg (discardThreshold nChange : CAmount) (script : CScript) :
    0 ≤ dustRaise discardThreshold nChange script := by
  rw [dustRaise]
  split
  · next h =>
    obtain ⟨-, hdust⟩ := h
    rw [isDust] at hdust
    split at hdust
    · cases hdust
    · have hlt : nChange < discardThreshold := of_decide_eq_true hdust
      linarith
  · exact le_refl _

/-- An output with the script of one that is not dust and a value at least the threshold is not
dust. -/
theorem CTxOut.isDust_of_le {discardThreshold nValue : CAmount} {script : CScript}
    (h : discardThreshold ≤ nValue) :
    (⟨nValue, script⟩ : CTxOut).isDust discardThreshold = false := by
  rw [isDust]
  split
  · rfl
  · exact decide_eq_false (not_lt.mpr h)

theorem CTxOut.isDust_mono {discardThreshold : CAmount} {o : CTxOut}
    (h : o.isDust discardThreshold = false) {nValue : CAmount} (hle : o.nValue ≤ nValue) :
    (⟨nValue, o.scriptPubKey⟩ : CTxOut).isDust discardThreshold = false := by
  rw [isDust] at h ⊢
  split
  · rfl
  · next hspend =>
    rw [if_neg hspend] at h
    have hlarge := not_lt.mp (of_decide_eq_false h)
    exact decide_eq_false (not_lt.mpr (le_trans hlarge hle))

section

variable {env : CreateEnv} {rand : CreateRandom} {coinControl : Option CCoinControl}
  {vecSend : List CRecipient} {discardThreshold nFeeRet nValueIn : CAmount} {nSubtract : Nat}
  {nChangePosRequest : Int32} {coins setCoins : List InputCoin} {vout payees : List CTxOut}
  {newTxOut : CTxOut} {d : Draft} {round k fuel : Nat}

theorem insertChange_splits (hlen : vout.length < 2 ^ 31)
    (h : insertChange rand round nChangePosRequest nFeeRet vout newTxOut = .ok d) :
    d.Splits vout (some newTxOut) ∧ d.nFeeRet = nFeeRet := by
  rw [insertChange] at h
  split at h
  · cases h
    exact ⟨.around _ (rand.changePos_le round vout.length) _ _, rfl⟩
  · split at h
    · cases h
    · next hnot hsize =>
      cases h
      have hhigh := nChangePosRequest.toInt_lt
      have hlow := nChangePosRequest.le_toInt
      -- a negative position is a large unsigned one
      have hnat : ((nChangePosRequest.toInt.toNat : Nat) : Int) = nChangePosRequest.toInt := by
        omega
      have hpos : nChangePosRequest.toInt.toNat ≤ vout.length := by
        omega
      refine ⟨?_, rfl⟩
      have hsplits : Draft.Splits vout (some newTxOut)
          ⟨vout.insertIdx nChangePosRequest.toInt.toNat newTxOut,
            (nChangePosRequest.toInt.toNat : Nat), nFeeRet⟩ := .around _ hpos newTxOut nFeeRet
      rwa [hnat] at hsplits

/-- What the coins have to reach: the recipients pay the fee, or it comes on top. -/
def valueToSelect (vecSend : List CRecipient) (nSubtract : Nat) (nFeeRet : CAmount) : CAmount :=
  if nSubtract = 0 then CRecipient.total vecSend + nFeeRet else CRecipient.total vecSend

structure Paid (discardThreshold : CAmount) (vecSend : List CRecipient) (nSubtract : Nat)
    (nFeeRet : CAmount) (vout : List CTxOut) : Prop where
  pays : List.Forall₂ (Pays discardThreshold) vecSend vout
  bounds : ∀ o ∈ vout, -maxFee ≤ o.nValue ∧ o.nValue ≤ maxMoney
  count : CRecipient.payers vecSend = nSubtract
  values : vout.map CTxOut.nValue = CRecipient.charged nFeeRet 0 nSubtract vecSend true
  total : CTxOut.total vout + nFeeRet = valueToSelect vecSend nSubtract nFeeRet

section

variable (h : Paid discardThreshold vecSend nSubtract nFeeRet vout) (hfee : 0 ≤ nFeeRet)

include h hfee

theorem Paid.balances_around (hlen : vout.length < 2 ^ 31)
    (hvalue : newTxOut.nValue = nValueIn - valueToSelect vecSend nSubtract nFeeRet)
    (hpositive : 0 < newTxOut.nValue) (hdust : newTxOut.isDust discardThreshold = false)
    (hd : insertChange rand round nChangePosRequest nFeeRet vout newTxOut = .ok d) :
    d.Balances discardThreshold vecSend nValueIn vout (some newTxOut) := by
  obtain ⟨hsplits, hfeeEq⟩ := insertChange_splits hlen hd
  have htotal := h.total
  have hraise := dustRaise_nonneg discardThreshold (nValueIn - CRecipient.total vecSend)
    newTxOut.scriptPubKey
  refine ⟨hsplits, h.pays, hfeeEq ▸ hfee, ?_, ?_, ?_, ?_, ?_⟩
  · rintro o ⟨⟩
    exact hpositive.le
  · rintro o ⟨⟩
    exact hdust
  · rw [Option.elim_some]
    linarith
  · rw [Option.elim_some]
    rw [valueToSelect] at htotal
    split at htotal <;> linarith
  · rw [Option.elim_some, hfeeEq, h.count, h.values]
    rcases eq_or_ne nSubtract 0 with hzero | hsub
    · rw [CRecipient.charged_of_payers_eq_zero (h.count.trans hzero),
        CRecipient.charged_of_payers_eq_zero (h.count.trans hzero)]
    · -- the change is what is left of the inputs, and it is not dust
      rw [valueToSelect, if_neg hsub] at hvalue
      rw [dustRaise, ← hvalue, if_neg]
      rintro ⟨-, hbad⟩
      rw [hdust] at hbad
      cases hbad

theorem Paid.balances_whole {nChange : CAmount} (hchange : 0 ≤ nChange)
    (hnone : nSubtract = 0 ∨ nChange = 0)
    (hvalue : nChange = nValueIn - valueToSelect vecSend nSubtract nFeeRet) :
    (⟨vout, -1, nFeeRet + nChange⟩ : Draft).Balances discardThreshold vecSend nValueIn vout
      none := by
  have htotal := h.total
  refine ⟨.whole _, h.pays, (by dsimp only; linarith), (by rintro o ⟨⟩), (by rintro o ⟨⟩), ?_, ?_,
    ?_⟩
  · rw [Option.elim_none]
    linarith
  · rw [Option.elim_none]
    rw [valueToSelect] at htotal
    split at htotal <;> linarith
  · rw [Option.elim_none, h.count, h.values]
    rcases hnone with hzero | rfl
    · rw [CRecipient.charged_of_payers_eq_zero (h.count.trans hzero),
        CRecipient.charged_of_payers_eq_zero (h.count.trans hzero)]
    · rw [add_zero]

theorem Paid.balances_raised {nChange : CAmount} {scriptChange : CScript} {vout' : List CTxOut}
    (hlen : vout.length < 2 ^ 31) (hsub : 0 < nSubtract) (hhigh : discardThreshold ≤ maxMoney)
    (hvalue : nChange = nValueIn - valueToSelect vecSend nSubtract nFeeRet)
    (hpositive : 0 < nChange)
    (hdust : (⟨nChange, scriptChange⟩ : CTxOut).isDust discardThreshold = true)
    (hvout' : subtractFromFirst discardThreshold (discardThreshold - nChange) vecSend vout =
      .ok vout')
    (hd : insertChange rand round nChangePosRequest nFeeRet vout' ⟨discardThreshold, scriptChange⟩ =
      .ok d) :
    d.Balances discardThreshold vecSend nValueIn vout' (some ⟨discardThreshold, scriptChange⟩) := by
  have hlt : nChange < discardThreshold := by
    by_contra hnot
    rw [isDust_of_le (not_lt.mp hnot)] at hdust
    cases hdust
  obtain ⟨hpays', hvalues'⟩ := subtractFromFirst_spec h.pays h.bounds (by linarith) (by linarith)
    h.values hvout'
  have htotal' : CTxOut.total vout' = CTxOut.total vout - (discardThreshold - nChange) := by
    have hpayers : 0 < CRecipient.payers vecSend := h.count ▸ hsub
    rw [CTxOut.total, hvalues', CRecipient.sum_charged, CTxOut.total, h.values,
      CRecipient.sum_charged, if_pos ⟨rfl, hpayers⟩, if_pos ⟨rfl, hpayers⟩]
    ring
  have hlen' : vout'.length < 2 ^ 31 := by
    rw [← hpays'.length_eq, h.pays.length_eq]
    exact hlen
  obtain ⟨hsplits, hfeeEq⟩ := insertChange_splits hlen' hd
  have htotal := h.total
  rw [valueToSelect, if_neg hsub.ne'] at htotal hvalue
  refine ⟨hsplits, hpays', hfeeEq ▸ hfee, ?_, ?_, ?_, ?_, ?_⟩
  · rintro o ⟨⟩
    exact (hpositive.trans hlt).le
  · rintro o ⟨⟩
    exact isDust_of_le (le_refl _)
  · rw [Option.elim_some]
    linarith
  · rw [Option.elim_some, ← hvalue, dustRaise, if_pos ⟨hpositive, hdust⟩]
    linarith
  · rw [Option.elim_some, ← hvalue, dustRaise, if_pos ⟨hpositive, hdust⟩, hfeeEq, h.count]
    exact hvalues'

end

/-- The change is added, raised at the cost of a recipient, or discarded to the fee. -/
theorem addChange_spec (hw : env.settings.Sane)
    (hpaid : Paid env.settings.discardThreshold vecSend nSubtract nFeeRet vout) (hfee : 0 ≤ nFeeRet)
    (hmax : nFeeRet ≤ maxFee) (hlen : vout.length < 2 ^ 31)
    (hreach : valueToSelect vecSend nSubtract nFeeRet ≤ nValueIn) (hin : nValueIn ≤ maxMoney)
    (hselect : 0 ≤ valueToSelect vecSend nSubtract nFeeRet)
    (h : addChange env rand coinControl vecSend nSubtract nChangePosRequest round setCoins
      (nValueIn - valueToSelect vecSend nSubtract nFeeRet) nFeeRet vout = .ok d) :
    ∃ payees change, d.Balances env.settings.discardThreshold vecSend nValueIn payees change := by
  obtain ⟨hlow, hhigh⟩ := moneyRange_iff.mp hw.threshold
  have hmoney := maxMoney_lt_maxFee
  have hroom : 2 * maxFee ≤ 2 ^ 63 := by decide
  generalize hchange : nValueIn - valueToSelect vecSend nSubtract nFeeRet = nChange at h
  generalize hT : env.settings.discardThreshold = discardThreshold at *
  rw [addChange] at h
  dsimp only at h
  rw [hT] at h
  split at h
  · next hpositive =>
    obtain ⟨scriptChange, -, h⟩ := bind_eq_ok_iff.mp h
    split at h
    · next hraise =>
      obtain ⟨hsub, hdust⟩ := hraise
      rw [int64_of_fits (by linarith) (by linarith)] at h
      obtain ⟨vout', hvout', h⟩ := bind_eq_ok_iff.mp h
      rw [add_sub_cancel, int64_of_fits (by linarith) (by linarith)] at h
      rw [if_neg (by rw [isDust_of_le (le_refl _)]; decide)] at h
      exact ⟨vout', _, hpaid.balances_raised hfee hlen hsub hhigh hchange.symm hpositive hdust hvout'
        h⟩
    · next hkeep =>
      split at h
      · next hdust =>
        cases h
        have hnone : nSubtract = 0 := by
          by_contra hsub
          exact hkeep ⟨pos_of_ne_zero hsub, hdust⟩
        rw [int64_of_fits (by linarith) (by linarith)]
        exact ⟨vout, none, hpaid.balances_whole hfee hpositive.le (.inl hnone) hchange.symm⟩
      · next hdust =>
        exact ⟨vout, some ⟨nChange, scriptChange⟩, hpaid.balances_around hfee hlen hchange.symm
          hpositive (Bool.not_eq_true _ ▸ hdust) h⟩
  · next hnot =>
    cases h
    have hnone : nChange = 0 := le_antisymm (not_lt.mp hnot) (by linarith)
    have hwhole := hpaid.balances_whole hfee (le_of_eq hnone.symm) (.inr hnone) hchange.symm
    rw [hnone, add_zero] at hwhole
    exact ⟨vout, none, hwhole⟩

/-! ## 5. Rounds -/

theorem modify_insertIdx (pos : Nat) (hpos : pos ≤ vout.length) (o : CTxOut)
    (f : CTxOut → CTxOut) : (vout.insertIdx pos o).modify pos f = vout.insertIdx pos (f o) := by
  induction vout generalizing pos with
  | nil =>
    obtain rfl := Nat.le_zero.mp hpos
    rfl
  | cons head vout ih =>
    cases pos with
    | zero => rfl
    | succ pos =>
      rw [insertIdx_succ_cons, insertIdx_succ_cons, modify_succ_cons,
        ih pos (Nat.le_of_succ_le_succ hpos)]

section

variable {pos : Nat} (hpos : pos ≤ payees.length)

include hpos

theorem Draft.moveChange_around (o : CTxOut) (amount : CAmount) :
    (⟨payees.insertIdx pos o, pos, nFeeRet⟩ : Draft).moveChange amount =
      payees.insertIdx pos ⟨int64 (o.nValue + amount), o.scriptPubKey⟩ :=
  modify_insertIdx pos hpos o _

theorem Draft.changeValue_around (o : CTxOut) :
    (⟨payees.insertIdx pos o, pos, nFeeRet⟩ : Draft).changeValue = o.nValue := by
  rw [Draft.changeValue]
  rw [toNat_natCast, getElem?_insertIdx_self, if_pos hpos]
  rfl

/-- Value is moved between the change and the fee. -/
theorem Draft.Balances.move {o : CTxOut} {extra : CAmount}
    (h : (⟨payees.insertIdx pos o, pos, nFeeRet⟩ : Draft).Balances discardThreshold vecSend nValueIn payees (some o))
    (hzero : CRecipient.payers vecSend = 0) (hchange : 0 ≤ o.nValue + extra)
    (hfee : 0 ≤ nFeeRet - extra)
    (hdust : (⟨o.nValue + extra, o.scriptPubKey⟩ : CTxOut).isDust discardThreshold = false) :
    (⟨payees.insertIdx pos ⟨o.nValue + extra, o.scriptPubKey⟩, pos, nFeeRet - extra⟩ : Draft).Balances
      discardThreshold vecSend nValueIn payees (some ⟨o.nValue + extra, o.scriptPubKey⟩) := by
  have hbalance := h.balance
  have hexact := h.total_payees hzero
  have hraise := dustRaise_nonneg discardThreshold (nValueIn - CRecipient.total vecSend)
    o.scriptPubKey
  refine ⟨.around _ hpos _ _, h.pays, hfee, ?_, ?_, ?_, ?_, ?_⟩
  · rintro o' ⟨⟩
    exact hchange
  · rintro o' ⟨⟩
    exact hdust
  · rw [Option.elim_some] at hbalance ⊢
    linarith
  · rw [Option.elim_some]
    linarith
  · rw [h.values, CRecipient.charged_of_payers_eq_zero hzero,
      CRecipient.charged_of_payers_eq_zero hzero]

end

def RoundEnd.Fair (discardThreshold : CAmount) (vecSend : List CRecipient) (nValueIn : CAmount) :
    RoundEnd → Prop
  | .done d => ∃ payees change, d.Balances discardThreshold vecSend nValueIn payees change
  | .again nFeeRet => 0 ≤ nFeeRet ∧ nFeeRet ≤ maxFee

theorem settleFee_fair {change : Option CTxOut} {nFeeNeeded : CAmount}
    (hthreshold : moneyRange discardThreshold = true)
    (hd : d.Balances discardThreshold vecSend nValueIn payees change)
    (hcount : CRecipient.payers vecSend = nSubtract) (hsum : 0 ≤ CRecipient.total vecSend)
    (hin : nValueIn ≤ maxMoney) (hneeded : 0 ≤ nFeeNeeded) (hmax : nFeeNeeded ≤ maxFee) :
    (settleFee discardThreshold nSubtract d nFeeNeeded).Fair discardThreshold vecSend nValueIn := by
  obtain ⟨hlow, hhigh⟩ := moneyRange_iff.mp hthreshold
  have hmoney := maxMoney_lt_maxFee
  have hroom : 2 * maxFee ≤ 2 ^ 63 := by decide
  have hfee := hd.fee_nonneg
  have hagain : (RoundEnd.again nFeeNeeded).Fair discardThreshold vecSend nValueIn :=
    ⟨hneeded, hmax⟩
  have hdone : (RoundEnd.done d).Fair discardThreshold vecSend nValueIn := ⟨payees, change, hd⟩
  -- the change can be moved where there is one, and no recipient pays the fee
  cases hd.splits with
  | whole nFeeRet =>
    rw [settleFee]
    split
    · rw [if_neg (by rintro ⟨-, hpos, -⟩; exact hpos rfl)]
      exact hdone
    · rw [if_neg (by rintro ⟨hpos, -, -⟩; exact hpos rfl)]
      exact hagain
  | around pos hpos o nFeeRet =>
    have hnonneg : 0 ≤ o.nValue := hd.change_nonneg o rfl
    have hbalance := hd.balance
    rw [Option.elim_some] at hbalance
    rw [settleFee]
    dsimp only
    split
    · next hle =>
      split
      · next hextra =>
        obtain ⟨-, -, hn⟩ := hextra
        have htotal := hd.total_payees (hcount.trans hn)
        rw [Draft.moveChange_around hpos, int64_of_fits (x := nFeeRet - nFeeNeeded) (by linarith)
          (by linarith), int64_of_fits (by linarith) (by linarith),
          int64_of_fits (by linarith) (by linarith)]
        exact ⟨payees, _, hd.move hpos (hcount.trans hn) (by linarith) (by linarith)
          (isDust_mono (hd.change_notDust o rfl) (by linarith))⟩
      · exact hdone
    · next hlt =>
      have hadditional : int64 (nFeeNeeded - nFeeRet) = nFeeNeeded - nFeeRet :=
        int64_of_fits (by linarith) (by linarith)
      rw [hadditional, Draft.changeValue_around hpos,
        int64_of_fits (x := discardThreshold + (nFeeNeeded - nFeeRet)) (by linarith) (by linarith)]
      split
      · next hreduce =>
        obtain ⟨-, hn, hlarge⟩ := hreduce
        have htotal := hd.total_payees (hcount.trans hn)
        have hmove := hd.move hpos (hcount.trans hn) (by linarith) (by linarith)
          (isDust_of_le (by linarith : discardThreshold ≤ o.nValue + -(nFeeNeeded - nFeeRet)))
        rw [Draft.moveChange_around hpos, int64_of_fits (by linarith) (by linarith),
          int64_of_fits (by linarith) (by linarith)]
        rw [sub_neg_eq_add] at hmove
        exact ⟨payees, _, hmove⟩
      · exact hagain

/-- The payees are paid the amounts, without the fee if they pay it. -/
theorem paid_of_payees (hrange : ∀ r ∈ vecSend, moneyRange r.nAmount = true) (hfee : 0 ≤ nFeeRet)
    (hmax : nFeeRet ≤ maxFee)
    (h : RgmNode.payees discardThreshold nFeeRet (CRecipient.payers vecSend) vecSend true =
      .ok vout) :
    Paid discardThreshold vecSend (CRecipient.payers vecSend) nFeeRet vout := by
  obtain ⟨hpays, hbounds, hvalues⟩ := payees_spec hrange hfee hmax h
  refine ⟨hpays, hbounds, rfl, hvalues, ?_⟩
  rw [CTxOut.total, hvalues, CRecipient.sum_charged, valueToSelect]
  rcases eq_zero_or_pos (CRecipient.payers vecSend) with hzero | hpos
  · rw [hzero]
    simp
  · rw [if_pos ⟨rfl, hpos⟩, if_neg hpos.ne', add_zero, mul_ediv_add_emod]
    ring

section

variable (hw : env.settings.Sane) (hcoins : env.Selects coinControl coins)
  (hcontrol : ∀ cc ∈ coinControl, cc.nMinimumTotalFee ≤ maxMoney)
  (hrange : ∀ r ∈ vecSend, moneyRange r.nAmount = true)
  (hsum : CRecipient.total vecSend ≤ maxMoney) (hlen : vecSend.length < 2 ^ 31)

include hw hcoins hcontrol hrange hsum hlen

/-- A round selects coins of the wallet and ends with a draft that balances, or asks for a fee that
is in range. -/
theorem createRound_spec (hfee : 0 ≤ nFeeRet) (hmax : nFeeRet ≤ maxFee) {roundEnd : RoundEnd}
    (h : createRound env rand coinControl vecSend (CRecipient.total vecSend)
      (CRecipient.payers vecSend) nChangePosRequest k nFeeRet = .ok (setCoins, roundEnd)) :
    (setCoins.map outpoint).Nodup ∧ setCoins ⊆ coins ∧
      roundEnd.Fair env.settings.discardThreshold vecSend (total setCoins) := by
  have hnonneg := CRecipient.total_nonneg hrange
  have hmoney := maxMoney_lt_maxFee
  have hroom : 2 * maxFee ≤ 2 ^ 63 := by decide
  obtain ⟨hminLow, hminHigh⟩ := hw.getMinChange
  have hselect : 0 ≤ valueToSelect vecSend (CRecipient.payers vecSend) nFeeRet ∧
      valueToSelect vecSend (CRecipient.payers vecSend) nFeeRet ≤ maxMoney + maxFee := by
    rw [valueToSelect]
    split <;> constructor <;> linarith
  have htarget : (if CRecipient.payers vecSend = 0 then
      int64 (CRecipient.total vecSend + nFeeRet) else CRecipient.total vecSend) =
      valueToSelect vecSend (CRecipient.payers vecSend) nFeeRet := by
    rw [int64_of_fits (by linarith) (by linarith)]
    rfl
  rw [createRound] at h
  dsimp only at h
  rw [htarget] at h
  obtain ⟨vout, hpayees, h⟩ := bind_eq_ok_iff.mp h
  have hpaid := paid_of_payees hrange hfee hmax hpayees
  split at h
  · cases h
  next chosen nValueIn hselected =>
  obtain ⟨-, h⟩ := require_bind_eq_ok_iff.mp h
  obtain ⟨d, hadd, h⟩ := bind_eq_ok_iff.mp h
  split at h
  · cases h
  have hroomSelect : valueToSelect vecSend (CRecipient.payers vecSend) nFeeRet +
      env.selectionEnv.nMinChange < 2 ^ 63 := by
    show _ + env.settings.getMinChange < _
    linarith [hselect.2]
  have hselection : Selection coins (valueToSelect vecSend (CRecipient.payers vecSend) nFeeRet)
      (chosen, nValueIn) :=
    SelectionEnv.selectCoins_spec hroomSelect hminLow hcoins.fine
      hcoins.available_nodup hcoins.available
      (by cases coinControl with
          | none => exact nodup_nil
          | some cc => exact cc.nodup) hcoins.preset hselected
  have hvalue : nValueIn = total chosen := hselection.value
  have hreach : valueToSelect vecSend (CRecipient.payers vecSend) nFeeRet ≤ nValueIn :=
    hselection.reaches
  have hworth : nValueIn ≤ maxMoney := by
    rw [hvalue]
    exact (hcoins.fine.of_subset hselection.nodup hselection.subset).worth
  rw [int64_of_fits (by linarith) (by linarith)] at hadd
  obtain ⟨payees, change, hd⟩ := addChange_spec hw hpaid hfee hmax
    (by rw [← hpaid.pays.length_eq]; exact hlen) hreach hworth hselect.1 hadd
  split at h
  · cases h
    exact ⟨hselection.nodup, hselection.subset, payees, change, hvalue ▸ hd⟩
  · obtain ⟨hrelay, h⟩ := require_bind_eq_ok_iff.mp h
    cases h
    refine ⟨hselection.nodup, hselection.subset, ?_⟩
    rw [← hvalue]
    have hneeded := le_trans (CFeeRate.getFee_nonneg hw.minRelayTxFee.1 hw.minRelayTxFee.2
      (Nat.mod_lt _ (by decide))) hrelay
    exact settleFee_fair hw.threshold hd rfl hnonneg hworth hneeded (feeNeeded_le hw.maxTxFee hcontrol _ _)

/-- The loop ends with a draft that balances. -/
theorem feeLoop_spec (hfee : 0 ≤ nFeeRet) (hmax : nFeeRet ≤ maxFee)
    (h : feeLoop env rand coinControl vecSend (CRecipient.total vecSend)
      (CRecipient.payers vecSend) nChangePosRequest fuel k nFeeRet = some (.ok (setCoins, d))) :
    (setCoins.map outpoint).Nodup ∧ setCoins ⊆ coins ∧ ∃ payees change,
      d.Balances env.settings.discardThreshold vecSend (total setCoins) payees change := by
  induction fuel generalizing k nFeeRet with
  | zero => cases h
  | succ fuel ih =>
    rw [feeLoop] at h
    split at h
    · cases h
    · next hround =>
      cases h
      exact createRound_spec hw hcoins hcontrol hrange hsum hlen hfee hmax hround
    · next hround =>
      obtain ⟨-, -, hlow, hhigh⟩ :=
        createRound_spec hw hcoins hcontrol hrange hsum hlen hfee hmax hround
      exact ih hlow hhigh h

end

/-! ## 6. The number of outputs

The recipients are counted by an `unsigned int`, and the place of the change is an `int`.  The limit
on the weight keeps both in range. -/

theorem length_payees {fFirst : Bool}
    (h : RgmNode.payees discardThreshold nFeeRet nSubtract vecSend fFirst = .ok vout) :
    vout.length = vecSend.length := by
  induction vecSend generalizing fFirst vout with
  | nil =>
    cases h
    rfl
  | cons r vecSend ih =>
    rw [RgmNode.payees] at h
    split at h
    · cases h
    split at h
    · cases h
    obtain ⟨rest, hrest, rfl⟩ := map_eq_ok_iff.mp h
    rw [length_cons, length_cons, ih hrest]

theorem length_subtractFromFirst {changeDelta : CAmount} {vout' : List CTxOut}
    (h : subtractFromFirst discardThreshold changeDelta vecSend vout = .ok vout') :
    vout'.length = vout.length := by
  induction vecSend generalizing vout vout' with
  | nil =>
    cases h
    rfl
  | cons r vecSend ih =>
    cases vout with
    | nil =>
      cases h
      rfl
    | cons o vout =>
      rw [subtractFromFirst] at h
      dsimp only at h
      split at h
      · split at h
        · cases h
        · cases h
          rfl
      · obtain ⟨rest, hrest, rfl⟩ := map_eq_ok_iff.mp h
        rw [length_cons, length_cons, ih hrest]

theorem le_length_insertIdx (pos : Nat) (o : CTxOut) :
    vout.length ≤ (vout.insertIdx pos o).length := by
  rw [length_insertIdx]
  split
  · exact Nat.le_succ _
  · exact le_refl _

theorem le_length_insertChange
    (h : insertChange rand round nChangePosRequest nFeeRet vout newTxOut = .ok d) :
    vout.length ≤ d.vout.length := by
  rw [insertChange] at h
  split at h
  · cases h
    exact le_length_insertIdx _ _
  · split at h
    · cases h
    · cases h
      exact le_length_insertIdx _ _

theorem le_length_addChange {nChange : CAmount}
    (h : addChange env rand coinControl vecSend nSubtract nChangePosRequest round setCoins nChange
      nFeeRet vout = .ok d) : vout.length ≤ d.vout.length := by
  rw [addChange] at h
  dsimp only at h
  split at h
  · obtain ⟨scriptChange, -, h⟩ := bind_eq_ok_iff.mp h
    split at h
    · obtain ⟨vout', hvout', h⟩ := bind_eq_ok_iff.mp h
      rw [← length_subtractFromFirst hvout']
      split at h
      · cases h
        exact le_refl _
      · exact le_length_insertChange h
    · split at h
      · cases h
        exact le_refl _
      · exact le_length_insertChange h
  · cases h
    exact le_refl _

theorem length_settleFee {nFeeNeeded : CAmount} {d' : Draft}
    (h : settleFee discardThreshold nSubtract d nFeeNeeded = .done d') :
    d'.vout.length = d.vout.length := by
  rw [settleFee] at h
  dsimp only at h
  split at h
  · split at h
    · obtain rfl := RoundEnd.done.inj h
      exact length_modify _ _ _
    · obtain rfl := RoundEnd.done.inj h
      rfl
  · split at h
    · obtain rfl := RoundEnd.done.inj h
      exact length_modify _ _ _
    · cases h

theorem le_length_createRound {nValue : CAmount}
    (h : createRound env rand coinControl vecSend nValue nSubtract nChangePosRequest k nFeeRet =
      .ok (setCoins, .done d)) : vecSend.length ≤ d.vout.length := by
  rw [createRound] at h
  dsimp only at h
  obtain ⟨vout, hpayees, h⟩ := bind_eq_ok_iff.mp h
  split at h
  · cases h
  obtain ⟨-, h⟩ := require_bind_eq_ok_iff.mp h
  obtain ⟨draft, hadd, h⟩ := bind_eq_ok_iff.mp h
  split at h
  · cases h
  have hlen := le_length_addChange hadd
  rw [length_payees hpayees] at hlen
  split at h
  · obtain ⟨-, hdone⟩ := Prod.mk.inj (Except.ok.inj h)
    obtain rfl := RoundEnd.done.inj hdone
    exact hlen
  · obtain ⟨-, h⟩ := require_bind_eq_ok_iff.mp h
    obtain ⟨-, hsettle⟩ := Prod.mk.inj (Except.ok.inj h)
    rwa [length_settleFee hsettle]

theorem le_length_feeLoop {nValue : CAmount}
    (h : feeLoop env rand coinControl vecSend nValue nSubtract nChangePosRequest fuel k nFeeRet =
      some (.ok (setCoins, d))) : vecSend.length ≤ d.vout.length := by
  induction fuel generalizing k nFeeRet with
  | zero => cases h
  | succ fuel ih =>
    rw [feeLoop] at h
    split at h
    · cases h
    · next hround =>
      cases h
      exact le_length_createRound hround
    · exact ih h

theorem length_vout_le_weight (tx : CTransaction) : tx.vout.length ≤ tx.weight := by
  have hout : tx.vout.length ≤ (tx.vout.flatMap serialize).length := by
    have hsum : (tx.vout.map fun o => o.serialize.length).length ≤
        (tx.vout.map fun o => o.serialize.length).sum := by
      refine length_le_sum_of_one_le _ fun n hn => ?_
      obtain ⟨o, -, rfl⟩ := mem_map.mp hn
      rw [serialize, length_append, serInt64, LittleEndian.length_encode]
      omega
    rwa [length_map, ← length_flatMap] at hsum
  have hfactor : witnessScaleFactor - 1 = 3 := rfl
  have hlen : tx.vout.length ≤ tx.serializeNoWitness.length := by
    rw [CTransaction.serializeNoWitness, serVector, serVector]
    simp only [length_append]
    omega
  rw [CTransaction.weight, hfactor]
  omega

theorem map_prevout_signInputs {sign : Nat → InputCoin → Option SignatureData} {nIn : Nat}
    {vin vin' : List CTxIn} (h : signInputs sign nIn setCoins vin = some vin') :
    vin'.map CTxIn.prevout = vin.map CTxIn.prevout := by
  induction setCoins generalizing nIn vin with
  | nil =>
    cases h
    rfl
  | cons coin setCoins ih =>
    obtain ⟨sigdata, -, h⟩ := Option.bind_eq_some_iff.mp h
    rw [ih h]
    refine ext_getElem? fun i => ?_
    rw [getElem?_map, getElem?_map, getElem?_modify]
    cases vin[i]? with
    | none => rfl
    | some txin =>
      split <;> rfl

theorem finishTransaction_eq_ok {sign : Bool} {c : Created}
    (h : finishTransaction env sign setCoins d = .ok c) :
    (c.tx.vout = d.vout ∧ c.setCoins = setCoins ∧ c.nFeeRet = d.nFeeRet ∧
      c.nChangePosInOut = d.nChangePosInOut) ∧
      c.tx.vin.map CTxIn.prevout = setCoins.map outpoint ∧
      c.tx.vout.length < maxStandardTxWeight := by
  rw [finishTransaction] at h
  dsimp only at h
  split at h
  · cases h
  next vin hvin =>
  split at h
  · cases h
  next hweight =>
  split at h
  · cases h
  cases h
  refine ⟨⟨rfl, rfl, rfl, rfl⟩, ?_, ?_⟩
  · have hfill : (fillVin env.settings.fWalletRbf setCoins).map CTxIn.prevout =
        setCoins.map outpoint := by
      rw [fillVin, map_map]
      rfl
    rw [← hfill]
    split at hvin
    · exact map_prevout_signInputs hvin
    · cases hvin
      rfl
  · exact lt_of_le_of_lt (length_vout_le_weight _) (not_le.mp hweight)

end

/-! ## 7. The transaction -/

section

variable {vecSend : List CRecipient} {discardThreshold nFeeRet nValueIn : CAmount}
  {payees : List CTxOut} {change : Option CTxOut}

theorem Created.perm_vout (c : Created) : c.tx.vout.Perm (c.change.toList ++ c.payees) := by
  rw [Created.change, Created.payees]
  split
  · exact .refl _
  · rcases lt_or_ge c.nChangePosInOut.toNat c.tx.vout.length with hlt | hge
    · rw [getElem?_eq_getElem hlt]
      exact (getElem_cons_eraseIdx_perm hlt).symm
    · rw [getElem?_eq_none hge, eraseIdx_of_length_le hge]
      exact .refl _

theorem Created.total_vout (c : Created) :
    CTxOut.total c.tx.vout = CTxOut.total c.payees + c.change.elim 0 CTxOut.nValue := by
  rw [CTxOut.total, (c.perm_vout.map CTxOut.nValue).sum_eq, CTxOut.total]
  cases c.change with
  | none => simp
  | some o =>
    simp only [Option.toList_some, singleton_append, map_cons, sum_cons, Option.elim_some]
    ring

theorem Draft.Splits.created {d : Draft} {c : Created} (h : d.Splits payees change)
    (hvout : c.tx.vout = d.vout) (hpos : c.nChangePosInOut = d.nChangePosInOut) :
    c.payees = payees ∧ c.change = change := by
  rw [Created.payees, Created.change, hvout, hpos]
  cases h with
  | whole nFeeRet => exact ⟨rfl, rfl⟩
  | around pos hle o nFeeRet =>
    have hnot : ¬ ((pos : Nat) : Int) = -1 := by omega
    rw [toNat_natCast, eraseIdx_insertIdx_self, getElem?_insertIdx_self, if_pos hle]
    exact ⟨rfl, rfl⟩

theorem CRecipient.lost_eq
    (h : Forall₂ (fun r o => r.fSubtractFeeFromAmount = false → o.nValue = r.nAmount)
      vecSend payees) :
    lost vecSend payees = total vecSend - CTxOut.total payees := by
  induction h with
  | nil => rfl
  | @cons r o vecSend payees hr _ ih =>
    rw [lost, ih, total_cons, CTxOut.total_cons]
    split
    · ring
    · next hsub =>
      rw [hr (Bool.not_eq_true _ ▸ hsub)]
      ring

theorem map_script_of_pays (h : Forall₂ (Pays discardThreshold) vecSend payees) :
    payees.map CTxOut.scriptPubKey = vecSend.map CRecipient.scriptPubKey := by
  induction h with
  | nil => rfl
  | cons hpay _ ih => rw [map_cons, map_cons, hpay.script, ih]

/-- A recipient gets a negative value only if it pays more of the fee than its amount and its script
is unspendable. -/
theorem nonneg_iff_afford (hthreshold : 0 ≤ discardThreshold) {raise : CAmount} {nSubtract : Nat}
    {fFirst : Bool} (hrange : ∀ r ∈ vecSend, moneyRange r.nAmount = true)
    (h : Forall₂ (Pays discardThreshold) vecSend payees)
    (hvalues : payees.map CTxOut.nValue =
      CRecipient.charged nFeeRet raise nSubtract vecSend fFirst) :
    (∀ o ∈ payees, 0 ≤ o.nValue) ↔ CRecipient.Afford nFeeRet raise nSubtract vecSend fFirst := by
  induction h generalizing fFirst with
  | nil => simp [CRecipient.Afford]
  | @cons r o vecSend payees hpay _ ih =>
    obtain ⟨hr, hrest⟩ := forall_mem_cons.mp hrange
    rw [map_cons, CRecipient.charged] at hvalues
    obtain ⟨hvalue, hvalues⟩ := cons.inj hvalues
    rw [forall_mem_cons, CRecipient.Afford, ih hrest hvalues]
    refine and_congr_left fun _ => ⟨fun hnonneg _ _ => by linarith, fun hafford => ?_⟩
    cases hsub : r.fSubtractFeeFromAmount with
    | false =>
      rw [hpay.exact hsub]
      exact (moneyRange_iff.mp hr).1
    | true =>
      cases hspend : CScript.isUnspendable r.scriptPubKey with
      | true => linarith [hafford hsub hspend]
      | false =>
        have hdust := hpay.notDust
        rw [isDust, hpay.script, hspend] at hdust
        exact le_trans hthreshold (not_lt.mp (of_decide_eq_false hdust))

theorem Created.forall_mem_vout (c : Created) {p : CTxOut → Prop} :
    (∀ o ∈ c.tx.vout, p o) ↔ (∀ o ∈ c.change, p o) ∧ ∀ o ∈ c.payees, p o := by
  simp only [c.perm_vout.mem_iff, forall_mem_append, Option.mem_toList, Option.mem_def]

/-- The sum of the amounts of a transaction that balances is at most what its inputs are worth. -/
theorem Created.Balanced.total_le {c : Created} {coins : List InputCoin}
    (h : c.Balanced coins discardThreshold vecSend) :
    CRecipient.total vecSend ≤ InputCoin.total c.setCoins := by
  have hbalance := h.balance
  have hlost := h.lost
  rw [c.total_vout] at hbalance
  rw [CRecipient.lost_eq h.exact, Created.changeRaise] at hlost
  have hchange := (c.forall_mem_vout.mp h.outputs_nonneg).1
  cases hc : c.change with
  | none =>
    rw [hc, Option.elim_none] at hbalance hlost
    linarith
  | some o =>
    rw [hc, Option.elim_some] at hbalance hlost
    have hnonneg := hchange o hc
    rw [dustRaise] at hlost
    split at hlost
    · next hdust => linarith [hdust.1]
    · linarith

/-- A transaction of a draft that balances does so exactly if no recipient gets a negative value. -/
theorem Draft.Balances.created_iff {d : Draft} {c : Created} {coins : List InputCoin}
    (hd : d.Balances discardThreshold vecSend (InputCoin.total c.setCoins) payees change)
    (hthreshold : 0 ≤ discardThreshold)
    (hrange : ∀ r ∈ vecSend, moneyRange r.nAmount = true)
    (hsum : CRecipient.total vecSend ≤ maxMoney) (hvout : c.tx.vout = d.vout)
    (hfee : c.nFeeRet = d.nFeeRet) (hpos : c.nChangePosInOut = d.nChangePosInOut)
    (hvin : c.tx.vin.map CTxIn.prevout = c.setCoins.map outpoint)
    (hnodup : (c.setCoins.map outpoint).Nodup) (hsub : c.setCoins ⊆ coins) :
    c.Balanced coins discardThreshold vecSend ↔
      CRecipient.Afford c.nFeeRet (c.changeRaise discardThreshold vecSend)
        (CRecipient.payers vecSend) vecSend true := by
  obtain ⟨hpayees, hchange⟩ := hd.splits.created hvout hpos
  have hmax : maxMoney < 2 ^ 63 := by decide
  have hexact := hd.pays.imp fun _ _ hpay => hpay.exact
  have hvalues := hd.values
  rw [← hfee, ← hchange, ← hpayees] at hvalues
  have hafford := nonneg_iff_afford hthreshold hrange (hpayees ▸ hd.pays) hvalues
  refine ⟨fun hb => hafford.mp (c.forall_mem_vout.mp hb.outputs_nonneg).2, fun haff =>
    ⟨lt_of_le_of_lt hsum hmax, hvin, hnodup, hsub, ?_, hfee ▸ hd.fee_nonneg, ?_,
      hpayees ▸ hexact, ?_, ?_, ?_⟩⟩
  · rw [c.total_vout, hpayees, hchange]
    linarith [hd.balance]
  · rw [hpayees]
    exact map_script_of_pays hd.pays
  · rw [Created.changeRaise, hpayees, hchange, hfee, CRecipient.lost_eq hexact]
    exact hd.lost
  · exact c.forall_mem_vout.mpr ⟨hchange ▸ hd.change_nonneg, hafford.mpr haff⟩
  · intro o ho hspend
    have hdust := hd.change_notDust o (hchange ▸ ho)
    rw [isDust, hspend] at hdust
    exact not_lt.mp (of_decide_eq_false hdust)

end

namespace SampleWallet

def keyScript : CScript := CScript.payToPubkeyHash (0 : Uint160).bytes

def coin : InputCoin := ⟨⟨0, 0⟩, ⟨1000000000, keyScript⟩⟩

/-- A signature and a public key of the usual sizes -/
def signature : SignatureData := ⟨pushAll [List.replicate 72 0x30, List.replicate 33 2], []⟩

def settings : WalletSettings :=
  ⟨1000000, ⟨1000000⟩, ⟨1000000⟩, ⟨100000⟩, 10000000000, 20, false, false⟩

def wallet (vAvailableCoins : List COutput) : CreateEnv where
  cr := ⟨fun _ => 0, fun _ => 0, fun _ => 0, fun _ => 0⟩
  settings := settings
  selection := ⟨0, fun _ => none, fun _ _ => true, true, false, 25⟩
  vAvailableCoins := vAvailableCoins
  getDepthInMainChain := fun _ => 10
  nLockTime := 0
  gChangeType := .legacy
  makeNewPQKey := none
  addPQKey := false
  getReservedKey := fun _ => some .invalid
  fFreePriority := fun _ => false
  dummySignature := fun _ => some signature
  produceSignature := fun _ _ _ => some signature
  withinChainLimits := fun _ => true

def random : CreateRandom where
  select _ _ := ⟨id, List.Perm.refl, fun _ _ _ => false⟩
  changePos _ _ := 0
  changePos_le _ _ := Nat.zero_le _

/-- Ten recipients that get more than there is -/
def tooMuch : List CRecipient := List.replicate 10 ⟨keyScript, 930000000000000000, false⟩

/-- A recipient with `OP_RETURN` pays the fee. -/
def burn : List CRecipient := [⟨[0x6a], 100000, true⟩, ⟨keyScript, 500000000, false⟩]

/-- Two recipients that pay the fee, one of them with `OP_RETURN`, and one that does not -/
def mixed : List CRecipient :=
  [⟨keyScript, 300000000, true⟩, ⟨[0x6a], 100000000, true⟩, ⟨keyScript, 200000000, false⟩]

theorem sane : settings.Sane := by
  constructor <;> decide

theorem selects : (wallet [⟨coin, 10, true, false⟩]).Selects none [coin] where
  fine := ⟨by decide, by decide, by decide⟩
  available_nodup := by decide
  available := List.Subset.refl _
  preset := by
    intro vPreset h
    cases h
    exact nil_subset _

end SampleWallet

end RgmNode
