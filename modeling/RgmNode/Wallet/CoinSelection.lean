import Mathlib.Algebra.Order.BigOperators.Group.List
import Mathlib.Data.List.Nodup
import Mathlib.Tactic.Linarith
import RgmNode.Validation.Coins

/-!
# Coin selection

`SelectCoins`, `SelectCoinsMinConf` and `ApproximateBestSubset` of `wallet.cpp`.  The random
choices are parameters; sums of amounts wrap around as those of an `int64_t`.
-/

namespace RgmNode

open List

/-- A result of arithmetic on `int64_t`. -/
def int64 (x : Int) : CAmount := x.bmod (2 ^ 64)

theorem int64_of_fits {x : Int} (hlow : -2 ^ 63 ≤ x) (hhigh : x < 2 ^ 63) : int64 x = x := by
  refine Int.bmod_eq_of_le ?_ ?_
  · norm_num at hlow ⊢
    exact hlow
  · norm_num at hhigh ⊢
    exact hhigh

/-! ## 1. The code -/

/-- A wallet transaction and the index of one of its outputs, with that output. -/
structure InputCoin where
  outpoint : COutPoint
  txout : CTxOut
deriving DecidableEq

structure COutput extends InputCoin where
  nDepth : Int
  fSpendable : Bool
  /-- `tx->IsFromMe(ISMINE_ALL)` -/
  fFromMe : Bool

namespace InputCoin

def nValue (c : InputCoin) : CAmount := c.txout.nValue

/-- `insert` into a set of coins -/
def insert (c : InputCoin) (set : List InputCoin) : List InputCoin :=
  if set.any (·.outpoint == c.outpoint) then set else set ++ [c]

end InputCoin

def takeCoins (coins : List InputCoin) : List InputCoin × CAmount :=
  coins.foldl (fun r c => (c.insert r.1, int64 (r.2 + c.nValue))) ([], 0)

/-- The vectors and sums of `ApproximateBestSubset` -/
structure Subset where
  vfIncluded : List Bool
  nTotal : CAmount
  fReachedTarget : Bool
  vfBest : List Bool
  nBest : CAmount

namespace Subset

/-- The body of the innermost loop, at a coin that is tried or not. -/
def visit (vValue : List CAmount) (nTargetValue : CAmount) (tried : Bool) (s : Subset) (i : Nat) :
    Subset :=
  if tried then
    let nTotal := int64 (s.nTotal + vValue.getD i 0)
    let vfIncluded := s.vfIncluded.set i true
    if nTargetValue ≤ nTotal then
      { vfIncluded := vfIncluded.set i false
        nTotal := int64 (nTotal - vValue.getD i 0)
        fReachedTarget := true
        vfBest := if nTotal < s.nBest then vfIncluded else s.vfBest
        nBest := if nTotal < s.nBest then nTotal else s.nBest }
    else { s with vfIncluded, nTotal }
  else s

def firstPass (vValue : List CAmount) (nTargetValue : CAmount) (randbool : Nat → Bool)
    (s : Subset) : Subset :=
  (List.range vValue.length).foldl (fun s i => s.visit vValue nTargetValue (randbool i) i) s

def secondPass (vValue : List CAmount) (nTargetValue : CAmount) (s : Subset) : Subset :=
  (List.range vValue.length).foldl
    (fun s i => s.visit vValue nTargetValue (!s.vfIncluded.getD i false) i) s

end Subset

/-- One repetition of `ApproximateBestSubset`, from the best subset so far. -/
def approximateOnce (vValue : List CAmount) (nTargetValue : CAmount) (randbool : Nat → Bool)
    (best : List Bool × CAmount) : List Bool × CAmount :=
  let s : Subset := ⟨List.replicate vValue.length false, 0, false, best.1, best.2⟩
  let s := s.firstPass vValue nTargetValue randbool
  let s := if s.fReachedTarget then s else s.secondPass vValue nTargetValue
  (s.vfBest, s.nBest)

def approximateLoop (vValue : List CAmount) (nTargetValue : CAmount)
    (randbool : Nat → Nat → Bool) : Nat → List Bool × CAmount → List Bool × CAmount
  | 0, best => best
  | left + 1, best =>
    if best.2 = nTargetValue then best
    else approximateLoop vValue nTargetValue randbool left
      (approximateOnce vValue nTargetValue (randbool left) best)

/-- `ApproximateBestSubset`, with 1000 repetitions: `vfBest` and `nBest` -/
def approximateBestSubset (vValue : List CAmount) (nTotalLower nTargetValue : CAmount)
    (randbool : Nat → Nat → Bool) : List Bool × CAmount :=
  approximateLoop vValue nTargetValue randbool 1000
    (List.replicate vValue.length true, nTotalLower)

/-- The random choices of one call of `SelectCoinsMinConf` -/
structure SelectionRandom where
  shuffle : List COutput → List COutput
  shuffle_perm : ∀ coins, (shuffle coins).Perm coins
  /-- of the two calls of `ApproximateBestSubset`, by repetition and coin -/
  randbool : Bool → Nat → Nat → Bool

structure SelectionEnv where
  /-- `GetMinChange()` -/
  nMinChange : CAmount
  /-- `mapWallet`, for the outputs of a transaction -/
  mapWallet : Uint256 → Option (List CTxOut)
  /-- `mempool.TransactionWithinChainLimit` -/
  withinChainLimit : Uint256 → Nat → Bool
  bSpendZeroConfChange : Bool
  /-- `-walletrejectlongchains` -/
  fRejectLongChains : Bool
  /-- the smaller of `-limitancestorcount` and `-limitdescendantcount` -/
  nMaxChainLength : Nat

/-- The coins below the target, their sum and the smallest larger coin. -/
structure Candidates where
  vValue : List InputCoin
  nTotalLower : CAmount
  coinLowestLarger : Option InputCoin

/-- The largest `CAmount`, which stands for no coin in `coinLowestLarger`. -/
def maxAmount : CAmount := 2 ^ 63 - 1

namespace SelectionEnv

variable (env : SelectionEnv)

section

variable (nTargetValue : CAmount) (nConfMine nConfTheirs : Int) (nMaxAncestors : Nat)

/-- The loop over the coins; an `error` is a coin of the target value. -/
def sortCoins : List COutput → Candidates → Except InputCoin Candidates
  | [], s => .ok s
  | output :: vCoins, s =>
    let n := output.nValue
    if !output.fSpendable then sortCoins vCoins s
    else if output.nDepth < (if output.fFromMe then nConfMine else nConfTheirs) then
      sortCoins vCoins s
    else if !env.withinChainLimit output.outpoint.hash nMaxAncestors then sortCoins vCoins s
    else if n = nTargetValue then .error output.toInputCoin
    else if n < int64 (nTargetValue + env.nMinChange) then
      sortCoins vCoins
        { s with
          vValue := s.vValue ++ [output.toInputCoin]
          nTotalLower := int64 (s.nTotalLower + n) }
    else if n < (s.coinLowestLarger.elim maxAmount InputCoin.nValue) then
      sortCoins vCoins { s with coinLowestLarger := some output.toInputCoin }
    else sortCoins vCoins s

end

/-- The subset sum, for the target itself or with room for change -/
def bestSubset (rand : SelectionRandom) (nTotalLower nTargetValue : CAmount)
    (vValue : List CAmount) : List Bool × CAmount :=
  let best := approximateBestSubset vValue nTotalLower nTargetValue (rand.randbool false)
  if best.2 ≠ nTargetValue ∧ int64 (nTargetValue + env.nMinChange) ≤ nTotalLower then
    approximateBestSubset vValue nTotalLower (int64 (nTargetValue + env.nMinChange))
      (rand.randbool true)
  else best

/-- The last part of `SelectCoinsMinConf`: the subset sum, or the larger coin -/
def solveSubset (rand : SelectionRandom) (nTargetValue : CAmount) (s : Candidates) :
    List InputCoin × CAmount :=
  -- sorted by value, the largest first
  let vValue := s.vValue.mergeSort fun a b => decide (b.nValue ≤ a.nValue)
  let best := env.bestSubset rand s.nTotalLower nTargetValue (vValue.map InputCoin.nValue)
  let subset := takeCoins (((vValue.zip best.1).filter Prod.snd).map Prod.fst)
  match s.coinLowestLarger with
  | none => subset
  | some coin =>
    if (best.2 ≠ nTargetValue ∧ best.2 < int64 (nTargetValue + env.nMinChange)) ∨
        coin.nValue ≤ best.2 then
      takeCoins [coin]
    else subset

/-- `SelectCoinsMinConf` after the loop over the coins -/
def selectSorted (rand : SelectionRandom) (nTargetValue : CAmount) :
    Except InputCoin Candidates → Option (List InputCoin × CAmount)
  | .error coin => some (takeCoins [coin])
  | .ok s =>
    if s.nTotalLower = nTargetValue then some (takeCoins s.vValue)
    else if s.nTotalLower < nTargetValue then s.coinLowestLarger.map fun coin => takeCoins [coin]
    else some (env.solveSubset rand nTargetValue s)

/-- `SelectCoinsMinConf`: the set of coins and their value; `none` for `false` -/
def selectCoinsMinConf (rand : SelectionRandom) (nTargetValue : CAmount)
    (nConfMine nConfTheirs : Int) (nMaxAncestors : Nat) (vCoins : List COutput) :
    Option (List InputCoin × CAmount) :=
  env.selectSorted rand nTargetValue (env.sortCoins nTargetValue nConfMine nConfTheirs
    nMaxAncestors (rand.shuffle vCoins) ⟨[], 0, none⟩)

/-- The attempts of `SelectCoins`: own and foreign confirmations and ancestors in the mempool -/
def attempts : List (Int × Int × Nat) :=
  [(1, 6, 0), (1, 1, 0)] ++
    (if env.bSpendZeroConfChange then
      [(0, 1, 2), (0, 1, min 4 (env.nMaxChainLength / 3)), (0, 1, env.nMaxChainLength / 2),
        (0, 1, env.nMaxChainLength)]
    else []) ++
    (if env.bSpendZeroConfChange && !env.fRejectLongChains then [(0, 1, 2 ^ 64 - 1)] else [])

/-- The attempts are made in turn, each with random choices of its own. -/
def tryInTurn (rand : Nat → SelectionRandom) (nTargetValue : CAmount) (vCoins : List COutput) :
    List (Int × Int × Nat) → Option (List InputCoin × CAmount)
  | [] => none
  | (nConfMine, nConfTheirs, nMaxAncestors) :: rest =>
    match env.selectCoinsMinConf (rand rest.length) nTargetValue nConfMine nConfTheirs
        nMaxAncestors vCoins with
    | some r => some r
    | none => tryInTurn rand nTargetValue vCoins rest

/-- The preset inputs; `none` if one is not an output of a wallet transaction. -/
def presetCoins : List COutPoint → Option (List InputCoin)
  | [] => some []
  | outpoint :: rest =>
    match env.mapWallet outpoint.hash with
    | none => none
    | some vout =>
      match vout[outpoint.n.toNat]? with
      | none => none
      | some txout => (presetCoins rest).map (⟨outpoint, txout⟩ :: ·)

/-- `SelectCoins`: the set of coins and their value; `none` for `false`.  The coin control gives
`fAllowOtherInputs` and the selected outpoints, in order. -/
def selectCoins (rand : Nat → SelectionRandom) (fAllowOtherInputs : Bool)
    (setSelected : List COutPoint) (vAvailableCoins : List COutput) (nTargetValue : CAmount) :
    Option (List InputCoin × CAmount) :=
  if !setSelected.isEmpty && !fAllowOtherInputs then
    -- all that is available goes into the transaction
    let r := takeCoins ((vAvailableCoins.filter COutput.fSpendable).map COutput.toInputCoin)
    if nTargetValue ≤ r.2 then some r else none
  else
    match env.presetCoins setSelected with
    | none => none
    | some vPreset =>
      let preset := takeCoins vPreset
      let vCoins := vAvailableCoins.filter fun o => !preset.1.any (·.outpoint == o.outpoint)
      let res :=
        if nTargetValue ≤ preset.2 then some ([], 0)
        else env.tryInTurn rand (int64 (nTargetValue - preset.2)) vCoins env.attempts
      res.map fun r => (preset.1.foldl (fun set c => c.insert set) r.1, int64 (r.2 + preset.2))

end SelectionEnv

/-! ## 2. Sets of coins -/

namespace InputCoin

def total (coins : List InputCoin) : CAmount := (coins.map nValue).sum

@[simp]
theorem total_nil : total [] = 0 := rfl

@[simp]
theorem total_cons (c : InputCoin) (coins : List InputCoin) :
    total (c :: coins) = c.nValue + total coins := by
  simp [total]

@[simp]
theorem total_append (coins others : List InputCoin) :
    total (coins ++ others) = total coins + total others := by
  simp [total]

/-- Coins that a wallet may have: no output twice, and worth no more than there is money. -/
structure Fine (coins : List InputCoin) : Prop where
  nodup : (coins.map outpoint).Nodup
  nonneg : ∀ c ∈ coins, 0 ≤ c.nValue
  worth : total coins ≤ maxMoney

variable {coins others : List InputCoin}

theorem total_nonneg (h : ∀ c ∈ coins, 0 ≤ c.nValue) : 0 ≤ total coins :=
  sum_nonneg (forall_mem_map.mpr h)

theorem total_le_of_sublist (hsub : others.Sublist coins) (h : ∀ c ∈ coins, 0 ≤ c.nValue) :
    total others ≤ total coins :=
  (hsub.map nValue).sum_le_sum (forall_mem_map.mpr h)

theorem total_le_of_subset (h : ∀ c ∈ coins, 0 ≤ c.nValue) (hnodup : (others.map outpoint).Nodup)
    (hsub : others ⊆ coins) : total others ≤ total coins := by
  obtain ⟨between, hperm, hsublist⟩ :=
    subperm_of_subset (List.Nodup.of_map outpoint hnodup) hsub
  rw [total, ← (hperm.map nValue).sum_eq]
  exact total_le_of_sublist hsublist h

theorem Fine.of_subset (h : Fine coins) (hnodup : (others.map outpoint).Nodup)
    (hsub : others ⊆ coins) : Fine others :=
  ⟨hnodup, fun c hc => h.nonneg c (hsub hc),
    le_trans (total_le_of_subset h.nonneg hnodup hsub) h.worth⟩

/-- Different coins whose values add up without overflow. -/
structure Addable (coins : List InputCoin) : Prop where
  nodup : (coins.map outpoint).Nodup
  nonneg : ∀ c ∈ coins, 0 ≤ c.nValue
  worth : total coins < 2 ^ 63

theorem Fine.addable (h : Fine coins) : Addable coins :=
  ⟨h.nodup, h.nonneg, lt_of_le_of_lt h.worth (by decide)⟩

theorem Addable.of_subset (h : Addable coins) (hnodup : (others.map outpoint).Nodup)
    (hsub : others ⊆ coins) : Addable others :=
  ⟨hnodup, fun c hc => h.nonneg c (hsub hc),
    lt_of_le_of_lt (total_le_of_subset h.nonneg hnodup hsub) h.worth⟩

theorem Addable.sublist (h : Addable coins) (hsub : others.Sublist coins) : Addable others :=
  h.of_subset ((hsub.map outpoint).nodup h.nodup) hsub.subset

theorem Addable.perm (h : Addable coins) (hperm : others.Perm coins) : Addable others :=
  h.of_subset ((hperm.map outpoint).nodup_iff.mpr h.nodup) hperm.subset

theorem Addable.int64_total (h : Addable coins) : int64 (total coins) = total coins := by
  have hnonneg := total_nonneg h.nonneg
  exact int64_of_fits (by linarith) h.worth

theorem insert_of_nodup {c : InputCoin} {set : List InputCoin}
    (h : ((set ++ [c]).map outpoint).Nodup) : c.insert set = set ++ [c] := by
  refine if_neg fun hany => ?_
  obtain ⟨d, hd, heq⟩ := any_eq_true.mp hany
  rw [map_append] at h
  exact (nodup_append.mp h).2.2 _ (mem_map_of_mem hd) _ mem_cons_self
    (beq_iff_eq.mp heq)

theorem foldl_insert (set : List InputCoin) (h : ((set ++ coins).map outpoint).Nodup) :
    coins.foldl (fun set c => c.insert set) set = set ++ coins := by
  induction coins generalizing set with
  | nil => rw [foldl_nil, append_nil]
  | cons c coins ih =>
    rw [append_cons] at h ⊢
    have hfirst := ((sublist_append_left (set ++ [c]) coins).map outpoint).nodup h
    rw [foldl_cons, insert_of_nodup hfirst, ih _ h]

end InputCoin

open InputCoin

variable {coins : List InputCoin}

theorem takeCoins_eq (h : Addable coins) : takeCoins coins = (coins, total coins) := by
  -- the fold from the coins that are already taken
  have hfold : ∀ rest taken : List InputCoin, Addable (taken ++ rest) →
      rest.foldl (fun r c => (c.insert r.1, int64 (r.2 + c.nValue))) (taken, total taken) =
        (taken ++ rest, total (taken ++ rest)) := by
    intro rest
    induction rest with
    | nil =>
      intro taken _
      rw [foldl_nil, append_nil]
    | cons c rest ih =>
      intro taken hfine
      rw [append_cons] at hfine ⊢
      have hfirst : Addable (taken ++ [c]) := hfine.sublist (sublist_append_left _ _)
      have hsum : total (taken ++ [c]) = total taken + c.nValue := by simp
      rw [foldl_cons, insert_of_nodup hfirst.nodup, ← hsum, hfirst.int64_total]
      exact ih _ hfine
  exact hfold coins [] h

/-! ## 3. The best subset -/

/-- The elements at the places that are marked. -/
def chosen {α : Type} (xs : List α) (marks : List Bool) : List α :=
  ((xs.zip marks).filter Prod.snd).map Prod.fst

section Chosen

variable {α : Type}

theorem chosen_cons (x : α) (xs : List α) (mark : Bool) (marks : List Bool) :
    chosen (x :: xs) (mark :: marks) =
      if mark then x :: chosen xs marks else chosen xs marks := by
  cases mark <;> simp [chosen]

theorem chosen_sublist (xs : List α) (marks : List Bool) : (chosen xs marks).Sublist xs := by
  induction xs generalizing marks with
  | nil => simp [chosen]
  | cons x xs ih =>
    cases marks with
    | nil => simp [chosen]
    | cons mark marks =>
      rw [chosen_cons]
      split
      · exact (ih marks).cons_cons x
      · exact (ih marks).cons x

theorem chosen_replicate_true (xs : List α) :
    chosen xs (List.replicate xs.length true) = xs := by
  induction xs with
  | nil => rfl
  | cons x xs ih => rw [length_cons, replicate_succ, chosen_cons, if_pos rfl, ih]

theorem chosen_replicate_false (xs : List α) :
    chosen xs (List.replicate xs.length false) = [] := by
  induction xs with
  | nil => rfl
  | cons x xs ih =>
    rw [length_cons, replicate_succ, chosen_cons, if_neg Bool.false_ne_true, ih]

theorem map_chosen {β : Type} (f : α → β) (xs : List α) (marks : List Bool) :
    (chosen xs marks).map f = chosen (xs.map f) marks := by
  simp [chosen, zip_map_left, filter_map, Function.comp_def]

end Chosen

theorem sum_chosen_set {vs : List CAmount} {marks : List Bool} {i : Nat}
    (hlen : marks.length = vs.length) (hi : i < vs.length) (hfalse : marks.getD i false = false) :
    (chosen vs (marks.set i true)).sum = (chosen vs marks).sum + vs.getD i 0 := by
  induction vs generalizing marks i with
  | nil => cases hi
  | cons v vs ih =>
    cases marks with
    | nil => cases hlen
    | cons mark marks =>
      cases i with
      | zero =>
        obtain rfl : mark = false := hfalse
        rw [set_cons_zero, chosen_cons, chosen_cons, if_pos rfl, if_neg Bool.false_ne_true,
          sum_cons, getD_cons_zero, Int.add_comm]
      | succ i =>
        have hrest := ih (Nat.succ.inj hlen) (Nat.lt_of_succ_lt_succ hi) hfalse
        rw [set_cons_succ, chosen_cons, chosen_cons, getD_cons_succ]
        split
        · rw [sum_cons, sum_cons, hrest, Int.add_assoc]
        · exact hrest

namespace Subset

/-- The sums are those of the marked places, and the best subset reaches the target. -/
structure Right (vs : List CAmount) (nTargetValue : CAmount) (s : Subset) : Prop where
  length : s.vfIncluded.length = vs.length
  nTotal : s.nTotal = (chosen vs s.vfIncluded).sum
  lengthBest : s.vfBest.length = vs.length
  nBest : s.nBest = (chosen vs s.vfBest).sum
  reaches : nTargetValue ≤ s.nBest

section

variable {vs : List CAmount} {nTargetValue : CAmount} {s : Subset} {i : Nat}

theorem sum_chosen_bounds (hnonneg : ∀ v ∈ vs, 0 ≤ v) (marks : List Bool) :
    0 ≤ (chosen vs marks).sum ∧ (chosen vs marks).sum ≤ vs.sum :=
  ⟨sum_nonneg fun v hv => hnonneg v ((chosen_sublist vs marks).subset hv),
    (chosen_sublist vs marks).sum_le_sum hnonneg⟩

variable (hnonneg : ∀ v ∈ vs, 0 ≤ v) (hsum : vs.sum < 2 ^ 63)
include hnonneg hsum

/-- A coin that is not included is tried: the marks are right again, and no other changes. -/
theorem right_visit (tried : Bool) (h : s.Right vs nTargetValue) (hi : i < vs.length)
    (hfalse : tried = true → s.vfIncluded.getD i false = false) :
    (s.visit vs nTargetValue tried i).Right vs nTargetValue ∧
      ∀ j, j ≠ i → (s.visit vs nTargetValue tried i).vfIncluded.getD j false =
        s.vfIncluded.getD j false := by
  unfold visit
  cases tried with
  | false => exact ⟨h, fun j _ => rfl⟩
  | true =>
    have hset := sum_chosen_set h.length hi (hfalse rfl)
    have hbounds := sum_chosen_bounds hnonneg (s.vfIncluded.set i true)
    have hbounds' := sum_chosen_bounds hnonneg s.vfIncluded
    have hnew : int64 (s.nTotal + vs.getD i 0) = (chosen vs (s.vfIncluded.set i true)).sum := by
      rw [h.nTotal, ← hset]
      exact int64_of_fits (by linarith) (by linarith)
    have hback : int64 ((chosen vs (s.vfIncluded.set i true)).sum - vs.getD i 0) = s.nTotal := by
      rw [hset, Int.add_sub_cancel, h.nTotal]
      exact int64_of_fits (by linarith) (by linarith)
    have hundo : (s.vfIncluded.set i true).set i false = s.vfIncluded := by
      rw [set_set]
      have hlt : i < s.vfIncluded.length := by rwa [h.length]
      have hget : s.vfIncluded[i] = false := by
        have hfalse := hfalse rfl
        rwa [getD_eq_getElem?_getD, getElem?_eq_getElem hlt] at hfalse
      rw [← hget, set_getElem_self]
    have hlen : (s.vfIncluded.set i true).length = vs.length := by rw [length_set, h.length]
    have hother : ∀ j, j ≠ i →
        (s.vfIncluded.set i true).getD j false = s.vfIncluded.getD j false := by
      intro j hj
      rw [getD_eq_getElem?_getD, getElem?_set_ne (Ne.symm hj), getD_eq_getElem?_getD]
    dsimp only
    rw [if_pos rfl, hnew]
    split
    · next hreached =>
      rw [hundo, hback]
      refine ⟨⟨h.length, h.nTotal, ?_, ?_, ?_⟩, fun j _ => rfl⟩
      · dsimp only
        split
        · exact hlen
        · exact h.lengthBest
      · dsimp only
        split
        · rfl
        · exact h.nBest
      · dsimp only
        split
        · exact hreached
        · exact h.reaches
    · exact ⟨⟨hlen, rfl, h.lengthBest, h.nBest, h.reaches⟩, hother⟩

theorem right_firstPass (h : s.Right vs nTargetValue)
    (hempty : ∀ j, s.vfIncluded.getD j false = false) (randbool : Nat → Bool) :
    (s.firstPass vs nTargetValue randbool).Right vs nTargetValue := by
  -- over any different places that are not included yet
  have hfold : ∀ places : List Nat, places.Nodup → (∀ j ∈ places, j < vs.length) →
      ∀ s : Subset, s.Right vs nTargetValue →
        (∀ j ∈ places, s.vfIncluded.getD j false = false) →
        (places.foldl (fun s i => s.visit vs nTargetValue (randbool i) i) s).Right
          vs nTargetValue := by
    intro places
    induction places with
    | nil => exact fun _ _ s hs _ => hs
    | cons j places ih =>
      intro hnodup hlt s hs hfree
      obtain ⟨hj, hnodup⟩ := nodup_cons.mp hnodup
      obtain ⟨hjlt, hlt⟩ := forall_mem_cons.mp hlt
      obtain ⟨hjfree, hfree⟩ := forall_mem_cons.mp hfree
      obtain ⟨hright, hother⟩ :=
        right_visit hnonneg hsum (randbool j) hs hjlt fun _ => hjfree
      refine ih hnodup hlt _ hright fun k hk => ?_
      have hne : k ≠ j := fun heq => hj (heq ▸ hk)
      rw [hother k hne, hfree k hk]
  exact hfold _ nodup_range (fun j hj => mem_range.mp hj) s h fun j _ => hempty j

theorem right_secondPass (h : s.Right vs nTargetValue) :
    (s.secondPass vs nTargetValue).Right vs nTargetValue := by
  have hfold : ∀ places : List Nat, (∀ j ∈ places, j < vs.length) →
      ∀ s : Subset, s.Right vs nTargetValue →
        (places.foldl (fun s i => s.visit vs nTargetValue (!s.vfIncluded.getD i false) i) s).Right
          vs nTargetValue := by
    intro places
    induction places with
    | nil => exact fun _ s hs => hs
    | cons j places ih =>
      intro hlt s hs
      obtain ⟨hjlt, hlt⟩ := forall_mem_cons.mp hlt
      exact ih hlt _ (right_visit hnonneg hsum _ hs hjlt fun htried => by simpa using htried).1
  exact hfold _ (fun j hj => mem_range.mp hj) s h

end

end Subset

structure BestOf (vs : List CAmount) (nTargetValue : CAmount) (best : List Bool × CAmount) :
    Prop where
  length : best.1.length = vs.length
  value : best.2 = (chosen vs best.1).sum
  reaches : nTargetValue ≤ best.2

section

variable {vs : List CAmount} {nTargetValue : CAmount} {best : List Bool × CAmount}

variable (hnonneg : ∀ v ∈ vs, 0 ≤ v) (hsum : vs.sum < 2 ^ 63)
include hnonneg hsum

theorem bestOf_once (h : BestOf vs nTargetValue best) (randbool : Nat → Bool) :
    BestOf vs nTargetValue (approximateOnce vs nTargetValue randbool best) := by
  have hstart : Subset.Right vs nTargetValue
      ⟨List.replicate vs.length false, 0, false, best.1, best.2⟩ :=
    ⟨length_replicate, by rw [chosen_replicate_false]; rfl, h.length, h.value, h.reaches⟩
  have hempty : ∀ j, (List.replicate vs.length false).getD j false = false := by
    intro j
    rw [getD_eq_getElem?_getD, getElem?_replicate]
    split <;> rfl
  have hfirst := Subset.right_firstPass hnonneg hsum hstart hempty randbool
  rw [approximateOnce]
  split
  · exact ⟨hfirst.lengthBest, hfirst.nBest, hfirst.reaches⟩
  · have hsecond := Subset.right_secondPass hnonneg hsum hfirst
    exact ⟨hsecond.lengthBest, hsecond.nBest, hsecond.reaches⟩

/-- The subset that is found reaches the target, and is worth what is returned. -/
theorem approximateBestSubset_spec (hreach : nTargetValue ≤ vs.sum)
    (randbool : Nat → Nat → Bool) :
    BestOf vs nTargetValue (approximateBestSubset vs vs.sum nTargetValue randbool) := by
  have hloop : ∀ left best, BestOf vs nTargetValue best →
      BestOf vs nTargetValue (approximateLoop vs nTargetValue randbool left best) := by
    intro left
    induction left with
    | zero => exact fun best h => h
    | succ left ih =>
      intro best h
      rw [approximateLoop]
      split
      · exact h
      · exact ih _ (bestOf_once hnonneg hsum h (randbool left))
  exact hloop 1000 _ ⟨length_replicate, by rw [chosen_replicate_true], hreach⟩

end

/-! ## 4. What is selected -/

/-- Coins of a list, each once, with what they are worth, which reaches the target. -/
structure Selection (coins : List InputCoin) (nTargetValue : CAmount)
    (r : List InputCoin × CAmount) : Prop where
  nodup : (r.1.map outpoint).Nodup
  subset : r.1 ⊆ coins
  value : r.2 = total r.1
  reaches : nTargetValue ≤ r.2

namespace Selection

variable {nTargetValue : CAmount} {r : List InputCoin × CAmount}

theorem of_subset {others : List InputCoin} (h : Selection coins nTargetValue r)
    (hsub : coins ⊆ others) : Selection others nTargetValue r :=
  ⟨h.nodup, List.Subset.trans h.subset hsub, h.value, h.reaches⟩

theorem of_takeCoins {taken : List InputCoin} (hfine : Addable taken) (hsub : taken ⊆ coins)
    (hreach : nTargetValue ≤ total taken) : Selection coins nTargetValue (takeCoins taken) := by
  rw [takeCoins_eq hfine]
  exact ⟨hfine.nodup, hsub, rfl, hreach⟩

theorem of_coin {coin : InputCoin} (hone : Addable [coin]) (hmem : coin ∈ coins)
    (hreach : nTargetValue ≤ coin.nValue) : Selection coins nTargetValue (takeCoins [coin]) := by
  have hsub : [coin] ⊆ coins := cons_subset.mpr ⟨hmem, nil_subset _⟩
  refine of_takeCoins hone hsub ?_
  rwa [total_cons, total_nil, Int.add_zero]

end Selection

namespace SelectionEnv

variable {env : SelectionEnv} {nTargetValue : CAmount}

/-- Spendable, deep enough and not too far down a chain of unconfirmed transactions -/
def eligible (env : SelectionEnv) (nConfMine nConfTheirs : Int) (nMaxAncestors : Nat)
    (output : COutput) : Bool :=
  output.fSpendable &&
    !decide (output.nDepth < if output.fFromMe then nConfMine else nConfTheirs) &&
    env.withinChainLimit output.outpoint.hash nMaxAncestors

/-- The coins that may be selected -/
def eligibleCoins (env : SelectionEnv) (nConfMine nConfTheirs : Int) (nMaxAncestors : Nat)
    (vCoins : List COutput) : List InputCoin :=
  (vCoins.filter (env.eligible nConfMine nConfTheirs nMaxAncestors)).map COutput.toInputCoin

/-- A round of the loop for such a coin -/
def sortStep (env : SelectionEnv) (nTargetValue : CAmount) (s : Candidates) (c : InputCoin) :
    Except InputCoin Candidates :=
  if c.nValue = nTargetValue then .error c
  else if c.nValue < int64 (nTargetValue + env.nMinChange) then
    .ok { s with vValue := s.vValue ++ [c], nTotalLower := int64 (s.nTotalLower + c.nValue) }
  else if c.nValue < s.coinLowestLarger.elim maxAmount InputCoin.nValue then
    .ok { s with coinLowestLarger := some c }
  else .ok s

/-- The coins that are summed -/
def lowerCoins (env : SelectionEnv) (nTargetValue : CAmount) (coins : List InputCoin) :
    List InputCoin :=
  coins.filter fun c => c.nValue < int64 (nTargetValue + env.nMinChange)

/-- What the loop knows of the coins it has seen: the smaller ones with their sum, which may have
wrapped around, and the smallest of the others. -/
structure Sorted (env : SelectionEnv) (nTargetValue : CAmount) (seen : List InputCoin)
    (s : Candidates) : Prop where
  lower : s.vValue = env.lowerCoins nTargetValue seen
  sum : s.nTotalLower = int64 (total s.vValue)
  apart : ∀ c ∈ seen, c.nValue ≠ nTargetValue
  larger : ∀ coin ∈ s.coinLowestLarger, coin ∈ seen ∧
    int64 (nTargetValue + env.nMinChange) ≤ coin.nValue
  least : ∀ c ∈ seen, int64 (nTargetValue + env.nMinChange) ≤ c.nValue →
    s.coinLowestLarger.elim maxAmount InputCoin.nValue ≤ c.nValue

/-- What the loop ends with: a coin of the target value, or all coins are seen. -/
def SortOutcome (env : SelectionEnv) (nTargetValue : CAmount) (coins : List InputCoin) :
    Except InputCoin Candidates → Prop
  | .error coin => coin ∈ coins ∧ coin.nValue = nTargetValue
  | .ok s => Sorted env nTargetValue coins s

section Sorting

variable {nConfMine nConfTheirs : Int} {nMaxAncestors : Nat} {vCoins : List COutput}
  {seen : List InputCoin} {s : Candidates}

theorem sortCoins_eq_foldlM :
    env.sortCoins nTargetValue nConfMine nConfTheirs nMaxAncestors vCoins s =
      (env.eligibleCoins nConfMine nConfTheirs nMaxAncestors vCoins).foldlM
        (env.sortStep nTargetValue) s := by
  induction vCoins generalizing s with
  | nil => rfl
  | cons output vCoins ih =>
    rw [sortCoins, eligibleCoins, filter_cons, eligible]
    by_cases hspend : output.fSpendable = true
    swap
    · simp [hspend, ih, eligibleCoins]
    by_cases hdepth : output.nDepth < if output.fFromMe then nConfMine else nConfTheirs
    · simp [hspend, hdepth, ih, eligibleCoins]
    by_cases hchain : env.withinChainLimit output.outpoint.hash nMaxAncestors = true
    swap
    · simp [hspend, hdepth, hchain, ih, eligibleCoins]
    -- a round of the loop
    simp only [hspend, hdepth, hchain, ih, decide_false, Bool.not_true, Bool.not_false, Bool.and_self,
      Bool.false_eq_true, if_false, if_true, map_cons, foldlM_cons, sortStep]
    split
    · rfl
    split
    · rfl
    split <;> rfl

theorem eligibleCoins_sublist :
    (env.eligibleCoins nConfMine nConfTheirs nMaxAncestors vCoins).Sublist
      (vCoins.map COutput.toInputCoin) :=
  filter_sublist.map _

theorem Sorted.sublist (h : Sorted env nTargetValue seen s) : s.vValue.Sublist seen :=
  h.lower ▸ filter_sublist

theorem Sorted.sortStep (h : Sorted env nTargetValue seen s) (c : InputCoin) :
    SortOutcome env nTargetValue (seen ++ [c]) (env.sortStep nTargetValue s c) := by
  have hself : c ∈ seen ++ [c] := mem_append_right _ mem_cons_self
  have hlower : env.lowerCoins nTargetValue (seen ++ [c]) = s.vValue ++
      if c.nValue < int64 (nTargetValue + env.nMinChange) then [c] else [] := by
    rw [h.lower, lowerCoins, filter_append, ← lowerCoins]
    congr 1
    simp only [filter_cons, filter_nil, decide_eq_true_eq]
  have hlarger : ∀ coin ∈ s.coinLowestLarger, coin ∈ seen ++ [c] ∧ _ := fun coin hcoin =>
    ⟨mem_append_left _ (h.larger coin hcoin).1, (h.larger coin hcoin).2⟩
  unfold SelectionEnv.sortStep
  split
  · next heq => exact ⟨hself, heq⟩
  next hne =>
  have hapart := forall_mem_append.mpr ⟨h.apart, forall_mem_singleton.mpr hne⟩
  split
  · next hlt =>
    rw [if_pos hlt] at hlower
    refine ⟨hlower.symm, ?_, hapart, hlarger, forall_mem_append.mpr ⟨h.least, ?_⟩⟩
    · rw [h.sum, total_append, total_cons, total_nil, Int.add_zero, int64, int64, int64,
        Int.bmod_add_bmod]
    · exact forall_mem_singleton.mpr fun hge => absurd hlt (not_lt.mpr hge)
  next hge =>
  rw [if_neg hge, append_nil] at hlower
  split
  · next hless =>
    refine ⟨hlower.symm, h.sum, hapart, ?_, forall_mem_append.mpr ⟨fun d hd hd' => ?_, ?_⟩⟩
    · rintro _ ⟨⟩
      exact ⟨hself, not_lt.mp hge⟩
    · exact hless.le.trans (h.least d hd hd')
    · exact forall_mem_singleton.mpr fun _ => le_refl _
  · next hless =>
    exact ⟨hlower.symm, h.sum, hapart, hlarger, forall_mem_append.mpr
      ⟨h.least, forall_mem_singleton.mpr fun _ => not_lt.mp hless⟩⟩

theorem Sorted.foldlM (h : Sorted env nTargetValue seen s) (coins : List InputCoin) :
    SortOutcome env nTargetValue (seen ++ coins) (coins.foldlM (env.sortStep nTargetValue) s) := by
  induction coins generalizing s seen with
  | nil =>
    rw [append_nil]
    exact h
  | cons c coins ih =>
    have hstep := h.sortStep c
    rw [foldlM_cons, append_cons]
    cases hc : env.sortStep nTargetValue s c with
    | error coin =>
      rw [hc] at hstep
      exact ⟨mem_append_left _ hstep.1, hstep.2⟩
    | ok s' =>
      rw [hc] at hstep
      exact ih hstep

theorem sortCoins_spec : SortOutcome env nTargetValue
    (env.eligibleCoins nConfMine nConfTheirs nMaxAncestors vCoins)
    (env.sortCoins nTargetValue nConfMine nConfTheirs nMaxAncestors vCoins ⟨[], 0, none⟩) := by
  have hstart : Sorted env nTargetValue [] ⟨[], 0, none⟩ := ⟨rfl, rfl, nofun, nofun, nofun⟩
  rw [sortCoins_eq_foldlM]
  exact hstart.foldlM _

end Sorting

variable {vCoins : List COutput} {r : List InputCoin × CAmount}

section

variable (hfits : int64 (nTargetValue + env.nMinChange) = nTargetValue + env.nMinChange)
include hfits

variable (hmin : 0 ≤ env.nMinChange)
include hmin

/-- Either call leaves a subset that reaches the target. -/
theorem bestSubset_spec {vs : List CAmount}
    (hnonneg : ∀ v ∈ vs, 0 ≤ v) (hsum : vs.sum < 2 ^ 63) (hreach : nTargetValue ≤ vs.sum)
    (rand : SelectionRandom) :
    BestOf vs nTargetValue (env.bestSubset rand vs.sum nTargetValue vs) := by
  rw [bestSubset]
  split
  · next h =>
    have hspec := approximateBestSubset_spec hnonneg hsum h.2 (rand.randbool true)
    refine { hspec with reaches := le_trans ?_ hspec.reaches }
    linarith
  · exact approximateBestSubset_spec hnonneg hsum hreach (rand.randbool false)

theorem solveSubset_spec (hone : ∀ coin ∈ coins, Addable [coin])
    {s : Candidates} (hs : Sorted env nTargetValue coins s) (hlower : Addable s.vValue)
    (hreach : nTargetValue ≤ s.nTotalLower) (rand : SelectionRandom) :
    Selection coins nTargetValue (env.solveSubset rand nTargetValue s) := by
  have hperm := mergeSort_perm s.vValue fun a b => decide (b.nValue ≤ a.nValue)
  have hsorted : Addable (s.vValue.mergeSort fun a b => decide (b.nValue ≤ a.nValue)) :=
    hlower.perm hperm
  have hsum : s.nTotalLower =
      ((s.vValue.mergeSort fun a b => decide (b.nValue ≤ a.nValue)).map nValue).sum := by
    rw [hs.sum, hlower.int64_total, total, (hperm.map nValue).sum_eq]
  have hsubset : (s.vValue.mergeSort fun a b => decide (b.nValue ≤ a.nValue)) ⊆ coins :=
    List.Subset.trans hperm.subset hs.sublist.subset
  rw [solveSubset]
  generalize s.vValue.mergeSort (fun a b => decide (b.nValue ≤ a.nValue)) = vValue
    at hsorted hsum hsubset ⊢
  have hbest := bestSubset_spec hfits hmin (forall_mem_map.mpr hsorted.nonneg)
    hsorted.worth (hsum ▸ hreach) rand
  rw [← hsum] at hbest
  have hsub := chosen_sublist vValue
    (env.bestSubset rand s.nTotalLower nTargetValue (vValue.map nValue)).1
  have hreach' : nTargetValue ≤ total (chosen vValue
      (env.bestSubset rand s.nTotalLower nTargetValue (vValue.map nValue)).1) := by
    rw [total, map_chosen, ← hbest.value]
    exact hbest.reaches
  have hchosen := Selection.of_takeCoins (hsorted.sublist hsub)
    (List.Subset.trans hsub.subset hsubset) hreach'
  cases hlarger : s.coinLowestLarger with
  | none => exact hchosen
  | some coin =>
    obtain ⟨hmem, hlarge⟩ := hs.larger coin hlarger
    dsimp only
    split
    · exact .of_coin (hone coin hmem) hmem (by linarith)
    · exact hchosen

theorem selectSorted_spec (hone : ∀ coin ∈ coins, Addable [coin])
    {sorted : Except InputCoin Candidates} (hsorted : SortOutcome env nTargetValue coins sorted)
    (hlower : ∀ s, sorted = .ok s → Addable s.vValue)
    {rand : SelectionRandom} (h : env.selectSorted rand nTargetValue sorted = some r) :
    Selection coins nTargetValue r := by
  cases sorted with
  | error coin =>
    cases h
    exact .of_coin (hone coin hsorted.1) hsorted.1 (ge_of_eq hsorted.2)
  | ok s =>
    have hs : Sorted env nTargetValue coins s := hsorted
    replace hlower := hlower s rfl
    rw [selectSorted] at h
    split at h
    · next heq =>
      cases h
      exact .of_takeCoins hlower hs.sublist.subset (by rw [← hlower.int64_total, ← hs.sum, heq])
    split at h
    · obtain ⟨coin, hcoin, rfl⟩ := Option.map_eq_some_iff.mp h
      obtain ⟨hmem, hlarge⟩ := hs.larger coin hcoin
      exact .of_coin (hone coin hmem) hmem (by linarith)
    · next hge =>
      cases h
      exact solveSubset_spec hfits hmin hone hs hlower (not_lt.mp hge) rand

theorem selectCoinsMinConf_spec (hfine : Addable (vCoins.map COutput.toInputCoin))
    {rand : SelectionRandom} {nConfMine nConfTheirs : Int} {nMaxAncestors : Nat}
    (h : env.selectCoinsMinConf rand nTargetValue nConfMine nConfTheirs nMaxAncestors vCoins =
      some r) : Selection (vCoins.map COutput.toInputCoin) nTargetValue r := by
  have hperm := (rand.shuffle_perm vCoins).map COutput.toInputCoin
  have heligible := (hfine.perm hperm).sublist (@eligibleCoins_sublist env nConfMine nConfTheirs
    nMaxAncestors _)
  rw [selectCoinsMinConf] at h
  refine .of_subset (selectSorted_spec hfits hmin (fun _ hmem => heligible.sublist
    (singleton_sublist.mpr hmem)) sortCoins_spec (fun s hs => ?_) h)
    (List.Subset.trans eligibleCoins_sublist.subset hperm.subset)
  have hsorted : Sorted env nTargetValue _ s := hs ▸ sortCoins_spec
  exact heligible.sublist hsorted.sublist

theorem tryInTurn_spec (hfine : Addable (vCoins.map COutput.toInputCoin))
    {rand : Nat → SelectionRandom} {attempts : List (Int × Int × Nat)}
    (h : env.tryInTurn rand nTargetValue vCoins attempts = some r) :
    Selection (vCoins.map COutput.toInputCoin) nTargetValue r := by
  induction attempts with
  | nil => cases h
  | cons attempt rest ih =>
    obtain ⟨nConfMine, nConfTheirs, nMaxAncestors⟩ := attempt
    rw [tryInTurn] at h
    split at h
    · next r' hr' =>
      cases h
      exact selectCoinsMinConf_spec hfits hmin hfine hr'
    · exact ih h

end

theorem map_outpoint_presetCoins {outpoints : List COutPoint} {vPreset : List InputCoin}
    (h : env.presetCoins outpoints = some vPreset) : vPreset.map outpoint = outpoints := by
  induction outpoints generalizing vPreset with
  | nil =>
    cases h
    rfl
  | cons o outpoints ih =>
    rw [presetCoins] at h
    split at h
    · cases h
    split at h
    · cases h
    · obtain ⟨rest, hrest, rfl⟩ := Option.map_eq_some_iff.mp h
      rw [map_cons, ih hrest]

/-- `SelectCoins` selects coins of the wallet, each once, for what they are worth, and reaches the
target. -/
theorem selectCoins_spec (hroom : nTargetValue + env.nMinChange < 2 ^ 63)
    (hmin : 0 ≤ env.nMinChange) (hfine : Fine coins) {vAvailableCoins : List COutput}
    {setSelected : List COutPoint}
    (hnodup : ((vAvailableCoins.map COutput.toInputCoin).map outpoint).Nodup)
    (havailable : vAvailableCoins.map COutput.toInputCoin ⊆ coins) (hselected : setSelected.Nodup)
    (hpreset : ∀ vPreset, env.presetCoins setSelected = some vPreset → vPreset ⊆ coins)
    {rand : Nat → SelectionRandom} {fAllowOtherInputs : Bool}
    (h : env.selectCoins rand fAllowOtherInputs setSelected vAvailableCoins nTargetValue = some r) :
    Selection coins nTargetValue r := by
  have hall := hfine.addable.of_subset hnodup havailable
  rw [selectCoins] at h
  split at h
  · have hsub : ((vAvailableCoins.filter COutput.fSpendable).map COutput.toInputCoin).Sublist
        (vAvailableCoins.map COutput.toInputCoin) := filter_sublist.map _
    have htake := takeCoins_eq (hall.sublist hsub)
    dsimp only at h
    split at h
    · next hreach =>
      cases h
      refine .of_takeCoins (hall.sublist hsub) (List.Subset.trans hsub.subset havailable) ?_
      rwa [htake] at hreach
    · cases h
  · split at h
    · cases h
    · next vPreset hvPreset =>
      have hpresetFine : Fine vPreset :=
        hfine.of_subset (by rwa [map_outpoint_presetCoins hvPreset]) (hpreset vPreset hvPreset)
      have hworth := total_nonneg hpresetFine.nonneg
      rw [takeCoins_eq hpresetFine.addable] at h
      obtain ⟨⟨set, value⟩, hres, rfl⟩ := Option.map_eq_some_iff.mp h
      -- what is left to select comes from coins that are not preset
      have hrest : Selection ((vAvailableCoins.filter fun o =>
          !vPreset.any (·.outpoint == o.outpoint)).map COutput.toInputCoin)
          (nTargetValue - total vPreset) (set, value) := by
        have hsub : ((vAvailableCoins.filter fun o =>
            !vPreset.any (·.outpoint == o.outpoint)).map COutput.toInputCoin).Sublist
            (vAvailableCoins.map COutput.toInputCoin) := filter_sublist.map _
        split at hres
        · next hreach =>
          cases hres
          exact ⟨nodup_nil, nil_subset _, rfl, by linarith⟩
        · rw [int64_of_fits (by linarith) (by linarith)] at hres
          exact tryInTurn_spec (int64_of_fits (by linarith) (by linarith)) hmin
            (hall.sublist hsub) hres
      have hdisjoint : ∀ a ∈ set.map outpoint, ∀ b ∈ vPreset.map outpoint, a ≠ b := by
        intro a ha b hb heq
        obtain ⟨c, hc, rfl⟩ := mem_map.mp ha
        obtain ⟨d, hd, rfl⟩ := mem_map.mp hb
        obtain ⟨o, ho, rfl⟩ := mem_map.mp (hrest.subset hc)
        have hnot := (mem_filter.mp ho).2
        rw [Bool.not_eq_true', any_eq_false] at hnot
        exact hnot d hd (beq_iff_eq.mpr heq.symm)
      have hnodup' : ((set ++ vPreset).map outpoint).Nodup := by
        rw [map_append]
        exact nodup_append.mpr ⟨hrest.nodup, hpresetFine.nodup, hdisjoint⟩
      have hsubset : set ++ vPreset ⊆ coins := by
        refine append_subset.mpr ⟨fun c hc => ?_, hpreset vPreset hvPreset⟩
        obtain ⟨o, ho, rfl⟩ := mem_map.mp (hrest.subset hc)
        exact havailable (mem_map_of_mem (mem_of_mem_filter ho))
      have hboth := hfine.of_subset hnodup' hsubset
      have hsum : value + total vPreset = total (set ++ vPreset) := by
        rw [total_append]
        exact congrArg (· + total vPreset) hrest.value
      rw [foldl_insert set hnodup', hsum, hboth.addable.int64_total]
      refine ⟨hnodup', hsubset, rfl, ?_⟩
      have hreach := hrest.reaches
      linarith

end SelectionEnv

end RgmNode
