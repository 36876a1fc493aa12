import RgmNode.Wallet.Balance

/-!
# The fee search stops

The loop of `CWallet::CreateTransaction` is repeated while the fee that a round needs is more than
the fee it has.  That a round starts with a larger fee than the one before is not plain: the fee of a
round is not the one it started with if change that is dust was added to it, and it is an `int64_t`.

* `createTransaction_stops` — a repeated round starts with a larger fee, and the loop ends, with
  settings and a coin control that are in the range of money
-/

namespace RgmNode

open Checks SelectionEnv

/-! ## 1. The rounds -/

structure FeeSearch where
  env : CreateEnv
  rand : CreateRandom
  coinControl : Option CCoinControl
  vecSend : List CRecipient
  nValue : CAmount
  nSubtract : Nat
  nChangePosRequest : Int32

namespace FeeSearch

variable (s : FeeSearch)

def round (k : Nat) (nFeeRet : CAmount) : Except CreateFailure (List InputCoin × RoundEnd) :=
  createRound s.env s.rand s.coinControl s.vecSend s.nValue s.nSubtract s.nChangePosRequest k
    nFeeRet

def loop (fuel k : Nat) (nFeeRet : CAmount) :
    Option (Except CreateFailure (List InputCoin × Draft)) :=
  feeLoop s.env s.rand s.coinControl s.vecSend s.nValue s.nSubtract s.nChangePosRequest fuel k
    nFeeRet

/-- The fee that the next round starts with, if there is one -/
def nextFee (k : Nat) (nFeeRet : CAmount) : Option CAmount :=
  match s.round k nFeeRet with
  | .ok (_, .again nFeeNext) => some nFeeNext
  | _ => none

/-- The loop comes to round `k` with a fee. -/
inductive Starts : Nat → CAmount → Prop
  | first : Starts 0 0
  | next {k : Nat} {nFeeRet nFeeNext : CAmount} : Starts k nFeeRet →
      s.nextFee k nFeeRet = some nFeeNext → Starts (k + 1) nFeeNext

end FeeSearch

/-- The fee search stops: each repeated round starts with a larger fee, and enough rounds give a
result. -/
structure FeeSearchStops (env : CreateEnv) (rand : CreateRandom)
    (coinControl : Option CCoinControl) (vecSend : List CRecipient) (nChangePosRequest : Int32) :
    Prop where
  increases : ∀ nValue nSubtract k nFeeRet nFeeNext,
    sumRecipients vecSend 0 0 = .ok (nValue, nSubtract) →
    let s : FeeSearch := ⟨env, rand, coinControl, vecSend, nValue, nSubtract, nChangePosRequest⟩
    s.Starts k nFeeRet → s.nextFee k nFeeRet = some nFeeNext → nFeeRet < nFeeNext
  ends : ∀ sign, ∃ fuel result,
    createTransaction env rand coinControl vecSend nChangePosRequest sign fuel = some result

/-! ## 2. The fee of a round -/

section Round

variable {s : FeeSearch} {nChange nFeeRet nFeeNext maxFee : CAmount} {k : Nat} {vout : List CTxOut}
  {setCoins : List InputCoin} {d : Draft}

theorem CTxOut.lt_of_isDust {o : CTxOut} {dustLimit : CAmount} (h : o.isDust dustLimit = true) :
    o.nValue < dustLimit := by
  rw [CTxOut.isDust] at h
  split at h
  · cases h
  · exact of_decide_eq_true h

theorem insertChange_fee {rand : CreateRandom} {nChangePosRequest : Int32} {newTxOut : CTxOut}
    (h : insertChange rand k nChangePosRequest nFeeRet vout newTxOut = .ok d) :
    d.nFeeRet = nFeeRet := by
  rw [insertChange] at h
  split at h
  · cases h
    rfl
  · split at h
    · cases h
    · cases h
      rfl

/-- `addChange` with what the loop is given -/
def FeeSearch.addChange (s : FeeSearch) (k : Nat) (setCoins : List InputCoin)
    (nChange nFeeRet : CAmount) (vout : List CTxOut) : Except CreateFailure Draft :=
  RgmNode.addChange s.env s.rand s.coinControl s.vecSend s.nSubtract s.nChangePosRequest k setCoins
    nChange nFeeRet vout

/-- The fee is the one that the round started with, or change that is dust was added to it. -/
theorem addChange_fee (h : s.addChange k setCoins nChange nFeeRet vout = .ok d) :
    d.nFeeRet = nFeeRet ∨
      (0 < nChange ∧ nChange < s.env.settings.discardThreshold ∧
        d.nFeeRet = int64 (nFeeRet + nChange)) := by
  rw [FeeSearch.addChange, addChange] at h
  dsimp only at h
  split at h
  · next hpos =>
    obtain ⟨scriptChange, -, h⟩ := bind_eq_ok_iff.mp h
    split at h
    · next hdust =>
      obtain ⟨vout', -, h⟩ := bind_eq_ok_iff.mp h
      split at h
      · cases h
        exact .inr ⟨hpos, CTxOut.lt_of_isDust hdust.2, rfl⟩
      · exact .inl (insertChange_fee h)
    · split at h
      · next hdust =>
        cases h
        exact .inr ⟨hpos, CTxOut.lt_of_isDust hdust, rfl⟩
      · exact .inl (insertChange_fee h)
  · cases h
    exact .inl rfl

theorem le_fee_of_addChange (hfee : 0 ≤ nFeeRet)
    (hroom : nFeeRet + s.env.settings.discardThreshold ≤ 2 ^ 63)
    (h : s.addChange k setCoins nChange nFeeRet vout = .ok d) : nFeeRet ≤ d.nFeeRet := by
  obtain hsame | ⟨hpos, hlt, hadded⟩ := addChange_fee h
  · exact hsame.ge
  · rw [hadded, int64_of_fits (by linarith) (by linarith)]
    linarith

theorem settleFee_again {discardThreshold nFeeNeeded : CAmount} {nSubtract : Nat}
    (h : settleFee discardThreshold nSubtract d nFeeNeeded = .again nFeeNext) :
    d.nFeeRet < nFeeNext ∧ nFeeNext = nFeeNeeded := by
  rw [settleFee] at h
  split at h
  · split at h <;> cases h
  · next hless =>
    dsimp only at h
    split at h
    · cases h
    · obtain rfl := RoundEnd.again.inj h
      exact ⟨not_le.mp hless, rfl⟩

theorem nextFee_eq_some_iff :
    s.nextFee k nFeeRet = some nFeeNext ↔
      ∃ setCoins, s.round k nFeeRet = .ok (setCoins, .again nFeeNext) := by
  rw [FeeSearch.nextFee]
  rcases s.round k nFeeRet with _ | ⟨setCoins, _ | _⟩ <;> simp

/-- A round that is repeated has less than the fee that it needs. -/
theorem exists_of_nextFee (h : s.nextFee k nFeeRet = some nFeeNext) :
    ∃ setCoins nChange vout d nBytes, s.addChange k setCoins nChange nFeeRet vout = .ok d ∧
      d.nFeeRet < nFeeNext ∧ nFeeNext = feeNeeded s.env.settings s.coinControl d.vout nBytes := by
  obtain ⟨setCoins, hround⟩ := nextFee_eq_some_iff.mp h
  rw [FeeSearch.round, createRound] at hround
  dsimp only at hround
  obtain ⟨vout, -, hround⟩ := bind_eq_ok_iff.mp hround
  split at hround
  · cases hround
  obtain ⟨-, hround⟩ := require_bind_eq_ok_iff.mp hround
  obtain ⟨d, hadd, hround⟩ := bind_eq_ok_iff.mp hround
  split at hround
  · cases hround
  split at hround
  · cases (Prod.mk.inj (Except.ok.inj hround)).2
  obtain ⟨-, hround⟩ := require_bind_eq_ok_iff.mp hround
  obtain ⟨hless, hneeded⟩ := settleFee_again (Prod.mk.inj (Except.ok.inj hround)).2
  exact ⟨_, _, _, d, _, hadd, hless, hneeded⟩

/-! ## 3. The loop -/

/-- No fee that may be needed comes near the largest `int64_t`. -/
structure FeeSearch.Room (s : FeeSearch) (maxFee : CAmount) : Prop where
  needed : ∀ vout nBytes, feeNeeded s.env.settings s.coinControl vout nBytes ≤ maxFee
  threshold : s.env.settings.discardThreshold < 2 ^ 63
  dust : maxFee + s.env.settings.discardThreshold ≤ 2 ^ 63

/-- A round that is repeated is followed by one with a larger fee, which is one that may be
needed. -/
theorem lt_of_nextFee (hs : s.Room maxFee) (hfee : 0 ≤ nFeeRet)
    (hroom : nFeeRet + s.env.settings.discardThreshold ≤ 2 ^ 63)
    (h : s.nextFee k nFeeRet = some nFeeNext) : nFeeRet < nFeeNext ∧ nFeeNext ≤ maxFee := by
  obtain ⟨setCoins, nChange, vout, d, nBytes, hadd, hless, heq⟩ := exists_of_nextFee h
  refine ⟨lt_of_le_of_lt (le_fee_of_addChange hfee hroom hadd) hless, ?_⟩
  rw [heq]
  exact hs.needed _ _

/-- Every round starts with a fee that leaves room for dust. -/
theorem FeeSearch.Starts.room (h : s.Starts k nFeeRet) (hs : s.Room maxFee) :
    0 ≤ nFeeRet ∧ nFeeRet + s.env.settings.discardThreshold ≤ 2 ^ 63 := by
  induction h with
  | first => exact ⟨le_refl 0, by linarith [hs.threshold]⟩
  | next hstart hnext ih =>
    obtain ⟨hlt, hle⟩ := lt_of_nextFee hs ih.1 ih.2 hnext
    exact ⟨by linarith [ih.1], by linarith [hs.dust]⟩

theorem loop_of_nextFee (fuel : Nat) (h : s.nextFee k nFeeRet = some nFeeNext) :
    s.loop (fuel + 1) k nFeeRet = s.loop fuel (k + 1) nFeeNext := by
  obtain ⟨setCoins, hround⟩ := nextFee_eq_some_iff.mp h
  rw [FeeSearch.round] at hround
  rw [FeeSearch.loop, feeLoop, hround]
  rfl

theorem loop_of_nextFee_eq_none (fuel : Nat) (h : s.nextFee k nFeeRet = none) :
    ∃ result, s.loop (fuel + 1) k nFeeRet = some result := by
  rw [FeeSearch.nextFee, FeeSearch.round] at h
  rw [FeeSearch.loop, feeLoop]
  split
  · exact ⟨_, rfl⟩
  · exact ⟨_, rfl⟩
  · next hround =>
    rw [hround] at h
    cases h

/-- There are no more rounds than fees that are larger, up to the largest that may be needed. -/
theorem loop_ends (hs : s.Room maxFee) (fuel : Nat) (hfuel : maxFee - nFeeRet ≤ fuel)
    (h : s.Starts k nFeeRet) : ∃ result, s.loop (fuel + 1) k nFeeRet = some result := by
  -- by induction on the fees that are left; a round that is repeated uses up one
  induction fuel generalizing k nFeeRet with
  | zero =>
    rcases hnext : s.nextFee k nFeeRet with _ | nFeeNext
    · exact loop_of_nextFee_eq_none 0 hnext
    · obtain ⟨hlt, hle⟩ := lt_of_nextFee hs (h.room hs).1 (h.room hs).2 hnext
      push_cast at hfuel
      linarith
  | succ fuel ih =>
    rcases hnext : s.nextFee k nFeeRet with _ | nFeeNext
    · exact loop_of_nextFee_eq_none _ hnext
    · obtain ⟨hlt, hle⟩ := lt_of_nextFee hs (h.room hs).1 (h.room hs).2 hnext
      rw [loop_of_nextFee _ hnext]
      refine ih ?_ (.next h hnext)
      push_cast at hfuel
      have : nFeeRet + 1 ≤ nFeeNext := hlt
      linarith

end Round

/-! ## 4. The function -/

/-- With a discard threshold, a largest fee and a minimum fee of the coin control that are at most
`MAX_MONEY` each, the fee search stops for all wallets, recipients and random choices: no fee that
may be needed comes near the range of an `int64_t`. -/
theorem createTransaction_stops {env : CreateEnv} {coinControl : Option CCoinControl}
    (hthreshold : env.settings.discardThreshold ≤ maxMoney)
    (hmax : env.settings.maxTxFee ≤ maxMoney)
    (hcontrol : ∀ cc ∈ coinControl, cc.nMinimumTotalFee ≤ maxMoney) (rand : CreateRandom)
    (vecSend : List CRecipient) (nChangePosRequest : Int32) :
    FeeSearchStops env rand coinControl vecSend nChangePosRequest := by
  have hroom : ∀ nValue nSubtract, FeeSearch.Room ⟨env, rand, coinControl, vecSend, nValue,
      nSubtract, nChangePosRequest⟩ maxFee := fun nValue nSubtract =>
    ⟨feeNeeded_le hmax hcontrol, lt_of_le_of_lt hthreshold (by decide),
      le_trans (add_le_add_right hthreshold maxFee) (by decide)⟩
  refine ⟨fun nValue nSubtract k nFeeRet nFeeNext _ hstart hnext => ?_, fun sign => ?_⟩
  · have hs := hroom nValue nSubtract
    exact (lt_of_nextFee hs (hstart.room hs).1 (hstart.room hs).2 hnext).1
  · refine ⟨maxFee.toNat + 1, ?_⟩
    rw [createTransaction]
    split
    · exact ⟨_, rfl⟩
    split
    · exact ⟨_, rfl⟩
    next nValue nSubtract _ _ =>
    obtain ⟨result, hresult⟩ := loop_ends (hroom nValue nSubtract) maxFee.toNat
      (by rw [sub_zero]; exact Int.self_le_toNat maxFee) .first
    rw [FeeSearch.loop] at hresult
    rw [hresult]
    exact ⟨_, rfl⟩

namespace SampleWallet

/-- A coin control with the largest minimum fee there is -/
def generous : CCoinControl where
  destChange := .noDestination
  fAllowOtherInputs := true
  nMinimumTotalFee := maxMoney
  fOverrideFeeRate := false
  nFeeRate := ⟨0⟩
  nPriority := .minimum
  setSelected := []
  nodup := List.nodup_nil

end SampleWallet

open SampleWallet in
theorem createTransaction_stops_generous :
    generous.nMinimumTotalFee = maxMoney ∧
      FeeSearchStops (wallet [⟨coin, 10, true, false⟩]) random (some generous) mixed (-1) := by
  refine ⟨rfl, createTransaction_stops (by decide) (by decide) ?_ random mixed (-1)⟩
  rintro cc ⟨⟩
  exact le_refl _

end RgmNode
