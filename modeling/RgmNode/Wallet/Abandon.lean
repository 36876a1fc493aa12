import RgmNode.BlockTree.Accept
import RgmNode.Lib.OrderedMap

/-!
# Abandoning transactions

`CWallet::AbandonTransaction` (`wallet/wallet.cpp`) with the depth of a wallet transaction
(`auxpow.cpp`).  The cached amounts that `MarkDirty` clears, the records written to the wallet
file and the notifications are left out.

The loop looks up the spends of the transaction it was called for, not of the one it is at, so
that it goes no further than one step.
-/

namespace RgmNode

open List COutPoint Function

/-! ## 1. Wallet transactions -/

/-- `ABANDON_HASH` -/
def abandonHash : Uint256 := 1

/-- A wallet transaction: the members that the depth is computed from. -/
structure CWalletTx where
  tx : CTransaction
  hashBlock : Uint256
  nIndex : Int
deriving DecidableEq, Repr

namespace CWalletTx

def hashUnset (wtx : CWalletTx) : Bool := wtx.hashBlock = 0 || wtx.hashBlock = abandonHash

def isAbandoned (wtx : CWalletTx) : Bool := wtx.hashBlock = abandonHash

def setAbandoned (wtx : CWalletTx) : CWalletTx := { wtx with hashBlock := abandonHash }

def getDepthInMainChain (s : ChainState) (wtx : CWalletTx) : Int :=
  if wtx.hashUnset then 0
  else
    match s.find wtx.hashBlock with
    | none => 0
    | some pindex =>
      if !s.chainActive.contains pindex then 0
      else (if wtx.nIndex = -1 then -1 else 1) * (s.chainActive.height - pindex.nHeight + 1)

theorem getDepthInMainChain_of_isAbandoned {s : ChainState} {wtx : CWalletTx}
    (h : wtx.isAbandoned = true) : wtx.getDepthInMainChain s = 0 := by
  have hunset : wtx.hashUnset = true := by
    rw [hashUnset, Bool.or_eq_true]
    exact .inr h
  rw [getDepthInMainChain, if_pos hunset]

end CWalletTx

/-! ## 2. The spends of a wallet -/

structure TxWallet where
  mapWallet : Uint256 → Option CWalletTx
  mapTxSpends : List (COutPoint × Uint256)
  /-- the index is in the order of its keys -/
  sorted : mapTxSpends.Pairwise fun a b => a.1.order ≤ b.1.order
  /-- it holds the inputs of the transactions of the wallet (`AddToSpends`) -/
  indexed : ∀ outpoint wtxid, (outpoint, wtxid) ∈ mapTxSpends ↔
    ∃ wtx, mapWallet wtxid = some wtx ∧ wtx.tx.isCoinBase = false ∧
      outpoint ∈ wtx.tx.vin.map CTxIn.prevout

namespace TxWallet

open OrderedMap

variable (w : TxWallet)

/-- A transaction of the wallet spends an output of another one. -/
def Spends (hash spender : Uint256) : Prop := ∃ e ∈ w.mapTxSpends, e.1.hash = hash ∧ e.2 = spender

/-- The walk over the index: from the first spend of `hashTx` on, as long as it is of `now`. -/
def spendsFrom (hashTx now : Uint256) : List Uint256 :=
  let fromHash := w.mapTxSpends.dropWhile fun e => e.1.order < COutPoint.order ⟨hashTx, 0⟩
  (fromHash.takeWhile fun e => e.1.hash = now).map (·.2)

variable {w} {hashTx now hash : Uint256}

theorem hash_eq_iff_order {o : COutPoint} :
    o.hash = hashTx ↔ order ⟨hashTx, 0⟩ ≤ o.order ∧
      o.order < order ⟨hashTx, 0⟩ + 2 ^ 32 := by
  have hdiv := o.order_div
  have hzero : order ⟨hashTx, 0⟩ = Uint256.memOrder hashTx * 2 ^ 32 := by
    simp [order]
  constructor
  · intro heq
    rw [heq] at hdiv
    omega
  · intro hrange
    apply Uint256.memOrder_injective
    omega

theorem fromHash_eq :
    (w.mapTxSpends.dropWhile (·.1.order < order ⟨hashTx, 0⟩)) =
      w.mapTxSpends.filter fun e => !decide (e.1.order < order ⟨hashTx, 0⟩) := by
  apply dropWhile_eq_filter
  refine w.sorted.imp fun {a b} hle hb => ?_
  exact decide_eq_true (lt_of_le_of_lt hle (of_decide_eq_true hb))

/-- A spend of `hashTx` has only such spends before it. -/
theorem hash_first (w : TxWallet) (hashTx : Uint256) :
    (w.mapTxSpends.filter fun e => !decide (e.1.order < order ⟨hashTx, 0⟩)).Pairwise
      fun a b => b.1.hash = hashTx → a.1.hash = hashTx := by
  refine (w.sorted.sublist filter_sublist).imp_of_mem fun {a b} ha _ hle hb => ?_
  have hge : order ⟨hashTx, 0⟩ ≤ a.1.order := by
    have := (mem_filter.mp ha).2
    simpa using this
  exact hash_eq_iff_order.mpr ⟨hge, hle.trans_lt (hash_eq_iff_order.mp hb).2⟩

/-- For the transaction of the call the walk finds all spends. -/
theorem mem_spendsFrom_self : hash ∈ w.spendsFrom hashTx hashTx ↔ w.Spends hashTx hash := by
  have hwalk : hash ∈ w.spendsFrom hashTx hashTx ↔
      ∃ e ∈ w.mapTxSpends, (order ⟨hashTx, 0⟩ ≤ e.1.order ∧ e.1.hash = hashTx) ∧
        e.2 = hash := by
    unfold spendsFrom
    dsimp only
    rw [fromHash_eq, takeWhile_eq_filter (by simpa using hash_first w hashTx)]
    simp only [mem_map, mem_filter, Bool.not_eq_true', decide_eq_false_iff_not, not_lt,
      decide_eq_true_eq, and_assoc]
  rw [hwalk]
  constructor
  · rintro ⟨e, he, ⟨-, heq⟩, hspender⟩
    exact ⟨e, he, heq, hspender⟩
  · rintro ⟨e, he, heq, hspender⟩
    exact ⟨e, he, ⟨(hash_eq_iff_order.mp heq).1, heq⟩, hspender⟩

/-- For any other transaction it stops at the first spend of the transaction of the call. -/
theorem spendsFrom_other (hspent : w.Spends hashTx hash) (hne : now ≠ hashTx) :
    w.spendsFrom hashTx now = [] := by
  obtain ⟨e, he, heq, -⟩ := hspent
  have hin : e ∈ w.mapTxSpends.filter fun e =>
      !decide (e.1.order < order ⟨hashTx, 0⟩) := by
    refine mem_filter.mpr ⟨he, ?_⟩
    simpa using (hash_eq_iff_order.mp heq).1
  have hfirst := hash_first w hashTx
  unfold spendsFrom
  dsimp only
  rw [fromHash_eq]
  generalize w.mapTxSpends.filter _ = l at hin hfirst
  cases l with
  | nil => rfl
  | cons first rest =>
    have hhead : first.1.hash = hashTx := by
      rcases mem_cons.mp hin with rfl | hlater
      · exact heq
      · exact (pairwise_cons.mp hfirst).1 e hlater heq
    rw [takeWhile_cons_of_neg (by simp [hhead, hne.symm])]
    rfl

/-! ## 3. The loop -/

/-- What the call reads besides the wallet: the block tree and the hashes in the mempool. -/
structure AbandonEnv where
  chain : ChainState
  inMempool : Uint256 → Bool

/-- How the loop ends: with the wallet after it, at an assertion, or not in the rounds given. -/
inductive AbandonEnd where
  | finished (w : TxWallet)
  | aborted
  | outOfRounds

def setAbandoned (w : TxWallet) (hash : Uint256) : TxWallet where
  mapWallet := update w.mapWallet hash
    ((w.mapWallet hash).map fun wtx => { wtx.setAbandoned with nIndex := -1 })
  mapTxSpends := w.mapTxSpends
  sorted := w.sorted
  indexed outpoint wtxid := by
    rw [w.indexed]
    by_cases heq : wtxid = hash
    · subst heq
      simp [update_self, CWalletTx.setAbandoned]
    · rw [update_of_ne heq]

variable (env : AbandonEnv)

/-- The loop of `AbandonTransaction`. -/
def abandonLoop (hashTx : Uint256) :
    Nat → List Uint256 → List Uint256 → TxWallet → AbandonEnd
  | _, [], _, w => .finished w
  | 0, _ :: _, _, _ => .outOfRounds
  | rounds + 1, now :: todo, done, w =>
    let done := now :: done
    match w.mapWallet now with
    | none => .aborted
    | some wtx =>
      let currentconfirm := wtx.getDepthInMainChain env.chain
      if 0 < currentconfirm then .aborted
      else if currentconfirm = 0 ∧ wtx.isAbandoned = false then
        if env.inMempool now then .aborted
        else
          let w := w.setAbandoned now
          -- the lower bound is that of `hashTx`
          let todo := (w.spendsFrom hashTx now).foldl
            (fun todo hash => if hash ∈ done then todo else insertHash hash todo) todo
          abandonLoop hashTx rounds todo done w
      else abandonLoop hashTx rounds todo done w

/-- `AbandonTransaction`; `none` where an assertion fails.  Every transaction is visited once, so
there are no more rounds than spends, and one. -/
def abandonTransaction (w : TxWallet) (hashTx : Uint256) : Option (Bool × TxWallet) :=
  match w.mapWallet hashTx with
  | none => none
  | some origtx =>
    if 0 < origtx.getDepthInMainChain env.chain || env.inMempool hashTx then some (false, w)
    else
      match abandonLoop env hashTx (w.mapTxSpends.length + 1) [hashTx] [] w with
      | .finished w => some (true, w)
      | .aborted | .outOfRounds => none

/-! ## 4. What the loop does -/

def Abandoned (w : TxWallet) (hash : Uint256) : Prop :=
  ∃ wtx, w.mapWallet hash = some wtx ∧ wtx.isAbandoned = true

/-- The transaction is in the wallet with depth 0. -/
def Unconfirmed (w : TxWallet) (hash : Uint256) : Prop :=
  ∃ wtx, w.mapWallet hash = some wtx ∧ wtx.getDepthInMainChain env.chain = 0

variable {h : Uint256} {todo done : List Uint256}

theorem mem_foldl_insertHash {news : List Uint256} :
    h ∈ news.foldl (fun todo hash => if hash ∈ done then todo else insertHash hash todo) todo ↔
      h ∈ todo ∨ h ∈ news ∧ h ∉ done := by
  induction news generalizing todo with
  | nil => simp
  | cons new news ih =>
    rw [foldl_cons, ih]
    split
    · next hdone =>
      simp only [mem_cons]
      constructor
      · tauto
      · rintro (h1 | ⟨rfl | h1, h2⟩)
        · exact .inl h1
        · exact absurd hdone h2
        · exact .inr ⟨h1, h2⟩
    · next hdone =>
      rw [mem_insertHash]
      simp only [mem_cons]
      constructor
      · rintro ((rfl | h1) | h1)
        · exact .inr ⟨.inl rfl, hdone⟩
        · exact .inl h1
        · exact .inr ⟨.inr h1.1, h1.2⟩
      · tauto

theorem length_insertHash_le : (insertHash hash todo).length ≤ todo.length + 1 := by
  induction todo with
  | nil => exact le_refl _
  | cons h todo ih =>
    rw [insertHash]
    split
    · exact Nat.le_succ _
    · split
      · exact le_refl _
      · exact Nat.succ_le_succ ih

theorem length_foldl_insertHash_le {news : List Uint256} :
    (news.foldl (fun todo hash => if hash ∈ done then todo else insertHash hash todo)
      todo).length ≤ todo.length + news.length := by
  induction news generalizing todo with
  | nil => exact le_refl _
  | cons new news ih =>
    rw [foldl_cons, length_cons]
    refine ih.trans ?_
    split
    · omega
    · have hle : (insertHash new todo).length ≤ todo.length + 1 := length_insertHash_le
      omega

variable {env} {wtx : CWalletTx}

theorem mapWallet_setAbandoned (hwtx : w.mapWallet now = some wtx) :
    (w.setAbandoned now).mapWallet now = some { wtx.setAbandoned with nIndex := -1 } := by
  refine (update_self _ _ _).trans ?_
  rw [hwtx]
  rfl

theorem mapWallet_setAbandoned_of_ne (hne : h ≠ now) :
    (w.setAbandoned now).mapWallet h = w.mapWallet h :=
  update_of_ne hne _ _

theorem abandoned_setAbandoned (hwtx : w.mapWallet now = some wtx) :
    (w.setAbandoned now).Abandoned h ↔ h = now ∨ w.Abandoned h := by
  by_cases heq : h = now
  · subst heq
    exact ⟨fun _ => .inl rfl, fun _ => ⟨_, mapWallet_setAbandoned hwtx, decide_eq_true rfl⟩⟩
  · rw [Abandoned, mapWallet_setAbandoned_of_ne heq]
    exact ⟨.inr, fun hor => hor.resolve_left heq⟩

theorem unconfirmed_setAbandoned (hwtx : w.mapWallet now = some wtx)
    (hdepth : wtx.getDepthInMainChain env.chain = 0) :
    (w.setAbandoned now).Unconfirmed env h ↔ w.Unconfirmed env h := by
  by_cases heq : h = now
  · subst heq
    refine ⟨fun _ => ⟨wtx, hwtx, hdepth⟩, fun _ => ⟨_, mapWallet_setAbandoned hwtx, ?_⟩⟩
    exact CWalletTx.getDepthInMainChain_of_isAbandoned (decide_eq_true rfl)
  · rw [Unconfirmed, Unconfirmed, mapWallet_setAbandoned_of_ne heq]

/-- What the loop makes of transactions other than the one of the call: each that has depth 0 is
abandoned, and none is added. -/
theorem abandonLoop_rest {rounds : Nat} (hrounds : todo.length ≤ rounds)
    (hspent : ∀ h ∈ todo, w.Spends hashTx h) (hne : ∀ h ∈ todo, h ≠ hashTx) :
    abandonLoop env hashTx rounds todo done w = .aborted ∨
      ∃ w', abandonLoop env hashTx rounds todo done w = .finished w' ∧
        ∀ h, w'.Abandoned h ↔ w.Abandoned h ∨ h ∈ todo ∧ w.Unconfirmed env h := by
  induction todo generalizing w done rounds with
  | nil =>
    refine .inr ⟨w, ?_, by simp⟩
    cases rounds <;> rfl
  | cons now todo ih =>
    obtain ⟨rounds, rfl⟩ : ∃ k, rounds = k + 1 := Nat.exists_eq_succ_of_ne_zero (by
      rintro rfl
      simp at hrounds)
    have hrest : todo.length ≤ rounds := Nat.le_of_succ_le_succ hrounds
    obtain ⟨hnow, hlater⟩ := forall_mem_cons.mp hne
    obtain ⟨hspend, hspends⟩ := forall_mem_cons.mp hspent
    rw [abandonLoop]
    cases hwtx : w.mapWallet now with
    | none => exact .inl rfl
    | some wtx =>
      dsimp only
      split
      · exact .inl rfl
      · split
        · next hopen =>
          obtain ⟨hdepth, -⟩ := hopen
          split
          · exact .inl rfl
          · have hself : (w.setAbandoned now).Spends hashTx now := hspend
            rw [spendsFrom_other hself hnow]
            rcases ih (w := w.setAbandoned now) hrest hspends hlater with
              hab | ⟨w', hfin, hiff⟩
            · exact .inl hab
            · refine .inr ⟨w', hfin, fun h => ?_⟩
              rw [hiff, abandoned_setAbandoned hwtx, unconfirmed_setAbandoned hwtx hdepth, mem_cons]
              have hself : w.Unconfirmed env now := ⟨wtx, hwtx, hdepth⟩
              constructor
              · rintro ((rfl | hold) | ⟨hmem, hun⟩)
                · exact .inr ⟨.inl rfl, hself⟩
                · exact .inl hold
                · exact .inr ⟨.inr hmem, hun⟩
              · rintro (hold | ⟨rfl | hmem, hun⟩)
                · exact .inl (.inr hold)
                · exact .inl (.inl rfl)
                · exact .inr ⟨hmem, hun⟩
        · next hclosed =>
          rcases ih hrest hspends hlater with hab | ⟨w', hfin, hiff⟩
          · exact .inl hab
          · refine .inr ⟨w', hfin, fun h => ?_⟩
            rw [hiff, mem_cons]
            constructor
            · rintro (hold | ⟨hmem, hun⟩)
              · exact .inl hold
              · exact .inr ⟨.inr hmem, hun⟩
            · rintro (hold | ⟨rfl | hmem, hun⟩)
              · exact .inl hold
              · -- it has depth 0 and is left alone, so it is abandoned already
                obtain ⟨wtx', hwtx', hdepth⟩ := hun
                cases hwtx.symm.trans hwtx'
                refine .inl ⟨wtx, hwtx, ?_⟩
                by_contra hnot
                exact hclosed ⟨hdepth, by simpa using hnot⟩
              · exact .inr ⟨hmem, hun⟩

theorem length_spendsFrom_le : (w.spendsFrom hashTx now).length ≤ w.mapTxSpends.length := by
  unfold spendsFrom
  rw [length_map]
  exact (takeWhile_sublist _).length_le.trans (dropWhile_sublist _).length_le

theorem abandonLoop_spec {origtx : CWalletTx} (horig : w.mapWallet hashTx = some origtx)
    (hdepth : origtx.getDepthInMainChain env.chain = 0) (hpool : env.inMempool hashTx = false) :
    abandonLoop env hashTx (w.mapTxSpends.length + 1) [hashTx] [] w = .aborted ∨
      ∃ w', abandonLoop env hashTx (w.mapTxSpends.length + 1) [hashTx] [] w = .finished w' ∧
        ∀ h, w'.Abandoned h ↔ w.Abandoned h ∨ ¬ w.Abandoned hashTx ∧
          (h = hashTx ∨ w.Spends hashTx h ∧ w.Unconfirmed env h) := by
  have habandoned : w.Abandoned hashTx ↔ origtx.isAbandoned = true := by
    constructor
    · rintro ⟨wtx, hwtx, hab⟩
      cases horig.symm.trans hwtx
      exact hab
    · exact fun hab => ⟨origtx, horig, hab⟩
  rw [abandonLoop, horig]
  dsimp only
  rw [if_neg (by omega)]
  cases hab : origtx.isAbandoned with
  | true =>
    rw [if_neg (by simp)]
    refine .inr ⟨w, ?_, ?_⟩
    · cases w.mapTxSpends.length <;> rfl
    · intro h
      simp [habandoned, hab]
  | false =>
    rw [if_pos ⟨hdepth, rfl⟩, hpool]
    have hnot : ¬ w.Abandoned hashTx := by simp [habandoned, hab]
    -- the spends of the transaction, without itself
    set todo := ((w.setAbandoned hashTx).spendsFrom hashTx hashTx).foldl
      (fun todo hash => if hash ∈ [hashTx] then todo else insertHash hash todo) [] with htodo
    have hmem : ∀ h, h ∈ todo ↔ w.Spends hashTx h ∧ h ≠ hashTx := by
      intro h
      rw [mem_foldl_insertHash, mem_spendsFrom_self, mem_singleton]
      simp only [not_mem_nil, false_or]
      exact Iff.rfl
    have hrounds : todo.length ≤ w.mapTxSpends.length := by
      refine length_foldl_insertHash_le.trans ?_
      rw [length_nil, zero_add]
      exact length_spendsFrom_le
    have hspends : ∀ h ∈ todo, (w.setAbandoned hashTx).Spends hashTx h :=
      fun h hh => ((hmem h).mp hh).1
    rcases abandonLoop_rest hrounds hspends (fun h hh => ((hmem h).mp hh).2) with
      haborted | ⟨w', hfin, hiff⟩
    · exact .inl haborted
    · refine .inr ⟨w', hfin, fun h => ?_⟩
      rw [hiff, abandoned_setAbandoned horig, unconfirmed_setAbandoned horig hdepth, hmem]
      constructor
      · rintro ((rfl | hold) | ⟨⟨hspent, -⟩, hun⟩)
        · exact .inr ⟨hnot, .inl rfl⟩
        · exact .inl hold
        · exact .inr ⟨hnot, .inr ⟨hspent, hun⟩⟩
      · rintro (hold | ⟨-, rfl | ⟨hspent, hun⟩⟩)
        · exact .inl (.inr hold)
        · exact .inl (.inl rfl)
        · by_cases heq : h = hashTx
          · exact .inl (.inl heq)
          · exact .inr ⟨⟨hspent, heq⟩, hun⟩

/-- Which transactions are abandoned after the call: those that were, and if the transaction was
not yet, it and its unconfirmed spenders. -/
theorem abandoned_abandonTransaction {w' : TxWallet} (hun : w.Unconfirmed env hashTx)
    (hreturn : abandonTransaction env w hashTx = some (true, w')) (h : Uint256) :
    w'.Abandoned h ↔ w.Abandoned h ∨ ¬ w.Abandoned hashTx ∧
      (h = hashTx ∨ w.Spends hashTx h ∧ w.Unconfirmed env h) := by
  obtain ⟨origtx, horig, hdepth⟩ := hun
  rw [abandonTransaction, horig] at hreturn
  dsimp only at hreturn
  split at hreturn
  · cases hreturn
  · next hopen =>
    have hpool : env.inMempool hashTx = false := by
      rw [Bool.or_eq_true, not_or] at hopen
      simpa using hopen.2
    rcases abandonLoop_spec horig hdepth hpool with haborted | ⟨w₁, hfin, hiff⟩
    · rw [haborted] at hreturn
      cases hreturn
    · rw [hfin] at hreturn
      obtain rfl : w₁ = w' := by simpa using hreturn
      exact hiff h

/-! ## 5. What depends on a transaction -/

/-- Reachable through spends of the wallet, over transactions with depth 0. -/
def DependsOn (env : AbandonEnv) (w : TxWallet) (hashTx : Uint256) : Uint256 → Prop :=
  Relation.ReflTransGen (fun a b => w.Spends a b ∧ w.Unconfirmed env b) hashTx

/-- Everything that depends on the transaction is abandoned, and nothing else is changed. -/
def AbandonsDependents (env : AbandonEnv) (w w' : TxWallet) (hashTx : Uint256) : Prop :=
  (∀ h, DependsOn env w hashTx h → w'.Abandoned h) ∧
    ∀ h, ¬ DependsOn env w hashTx h → (w'.Abandoned h ↔ w.Abandoned h)

/-- What depends on the transaction is abandoned already, or the call gets to it: it is the
transaction, which is not abandoned yet, or spends an output of it. -/
def WithinReach (env : AbandonEnv) (w : TxWallet) (hashTx : Uint256) : Prop :=
  ∀ h, DependsOn env w hashTx h →
    w.Abandoned h ∨ ¬ w.Abandoned hashTx ∧ (h = hashTx ∨ w.Spends hashTx h)

/-- Abandoning a transaction abandons all that depends on it exactly if nothing that still has to
be abandoned is more than one spend away. -/
theorem abandonsDependents_iff (env : AbandonEnv) (w w' : TxWallet) (hashTx : Uint256)
    (hun : w.Unconfirmed env hashTx)
    (hreturn : abandonTransaction env w hashTx = some (true, w')) :
    AbandonsDependents env w w' hashTx ↔ WithinReach env w hashTx := by
  have hiff := abandoned_abandonTransaction hun hreturn
  constructor
  · intro hall h hdep
    rcases (hiff h).mp (hall.1 h hdep) with hold | ⟨hnot, hself | ⟨hspent, -⟩⟩
    · exact .inl hold
    · exact .inr ⟨hnot, .inl hself⟩
    · exact .inr ⟨hnot, .inr hspent⟩
  · intro hreach
    refine ⟨fun h hdep => ?_, fun h hdep => ?_⟩
    · rw [hiff]
      rcases hreach h hdep with hold | ⟨hnot, hself | hspent⟩
      · exact .inl hold
      · exact .inr ⟨hnot, .inl hself⟩
      · -- the last step to it says that it has depth 0
        rcases Relation.ReflTransGen.cases_tail hdep with rfl | ⟨a, -, -, hunh⟩
        · exact .inr ⟨hnot, .inl rfl⟩
        · exact .inr ⟨hnot, .inr ⟨hspent, hunh⟩⟩
    · rw [hiff]
      refine ⟨fun hnew => ?_, .inl⟩
      rcases hnew with hold | ⟨-, rfl | hstep⟩
      · exact hold
      · exact (hdep .refl).elim
      · exact (hdep (.single hstep)).elim

/-! ## 6. Transactions in a row -/

/-- A transaction in no block that spends one output. -/
def looseTx (prevout : COutPoint) : CWalletTx :=
  ⟨⟨1, [⟨prevout, [], CTxIn.sequenceFinal, []⟩], [], 0⟩, 0, -1⟩

theorem lookup_looseTxs {entries : List (COutPoint × Uint256)} (hnodup : (entries.map (·.2)).Nodup)
    {wtxid : Uint256} :
    (entries.map fun e => (e.2, looseTx e.1)).lookup wtxid = some wtx ↔
      ∃ prevout, (prevout, wtxid) ∈ entries ∧ wtx = looseTx prevout := by
  induction entries with
  | nil => simp
  | cons e entries ih =>
    obtain ⟨hnew, hrest⟩ := nodup_cons.mp hnodup
    rw [List.map_cons, List.lookup_cons]
    by_cases heq : wtxid = e.2
    · subst heq
      simp only [beq_self_eq_true, Option.some.injEq]
      constructor
      · rintro rfl
        exact ⟨e.1, mem_cons_self, rfl⟩
      · rintro ⟨prevout, hmem, rfl⟩
        rcases mem_cons.mp hmem with heq | hmem
        · exact congrArg looseTx (congrArg Prod.fst heq).symm
        · exact absurd (mem_map_of_mem hmem) hnew
    · rw [beq_false_of_ne heq]
      simp only [ih hrest, mem_cons]
      constructor
      · rintro ⟨prevout, hmem, rfl⟩
        exact ⟨prevout, .inr hmem, rfl⟩
      · rintro ⟨prevout, hfirst | hmem, rfl⟩
        · exact absurd (congrArg Prod.snd hfirst) heq
        · exact ⟨prevout, hmem, rfl⟩

def looseWallet (spends : List (COutPoint × Uint256))
    (hsorted : spends.Pairwise fun a b => a.1.order ≤ b.1.order)
    (hnodup : (spends.map (·.2)).Nodup) (hnull : ∀ e ∈ spends, e.1.isNull = false) : TxWallet where
  mapWallet wtxid := (spends.map fun e => (e.2, looseTx e.1)).lookup wtxid
  mapTxSpends := spends
  sorted := hsorted
  indexed outpoint wtxid := by
    simp only [lookup_looseTxs hnodup]
    constructor
    · intro hmem
      exact ⟨_, ⟨outpoint, hmem, rfl⟩, hnull _ hmem, List.mem_singleton.mpr rfl⟩
    · rintro ⟨_, ⟨prevout, hmem, rfl⟩, -, hout⟩
      obtain rfl := List.mem_singleton.mp hout
      exact hmem

def emptyEnv : AbandonEnv := ⟨ChainState.empty, fun _ => false⟩

/-- The first transaction spends an output that is not of the wallet, the second one spends the
first. -/
def twoInRow : TxWallet :=
  looseWallet [(⟨10, 0⟩, 11), (⟨99, 0⟩, 10)] (by decide +kernel) (by decide) (by decide)

def threeInRow : TxWallet :=
  looseWallet [(⟨10, 0⟩, 11), (⟨11, 0⟩, 12), (⟨99, 0⟩, 10)] (by decide +kernel) (by decide)
    (by decide)

/-- One spend is followed. -/
theorem abandon_twoInRow :
    ∃ w', abandonTransaction emptyEnv twoInRow 10 = some (true, w') ∧
      AbandonsDependents emptyEnv twoInRow w' 10 := by
  have hreturn : (abandonTransaction emptyEnv twoInRow 10).map (·.1) = some true := by
    decide +kernel
  obtain ⟨⟨b, w'⟩, hw', rfl⟩ := Option.map_eq_some_iff.mp hreturn
  have hnot : ¬ twoInRow.Abandoned 10 := by
    rintro ⟨wtx, hwtx, hab⟩
    cases hwtx
    cases hab
  have hspends : twoInRow.Spends 10 11 := ⟨_, mem_cons_self, rfl, rfl⟩
  have hreach : WithinReach emptyEnv twoInRow 10 := by
    intro h hdep
    refine .inr ⟨hnot, ?_⟩
    rcases Relation.ReflTransGen.cases_tail hdep with rfl | ⟨a, -, ⟨e, he, -, rfl⟩, -⟩
    · exact .inl rfl
    · rcases mem_cons.mp he with rfl | he
      · exact .inr hspends
      · obtain rfl := mem_singleton.mp he
        exact .inl rfl
  exact ⟨w', hw',
    (abandonsDependents_iff emptyEnv twoInRow w' 10 ⟨_, rfl, rfl⟩ hw').mpr hreach⟩

/-- The second one is not: the third transaction depends on the first and stays. -/
theorem abandon_stops_at_third :
    threeInRow.Unconfirmed emptyEnv 10 ∧ emptyEnv.inMempool 10 = false ∧
      DependsOn emptyEnv threeInRow 10 12 ∧
      ∃ w', abandonTransaction emptyEnv threeInRow 10 = some (true, w') ∧
        w'.Abandoned 11 ∧ ¬ w'.Abandoned 12 := by
  have htest : (abandonTransaction emptyEnv threeInRow 10).any (fun r => r.1 &&
      (r.2.mapWallet 11).any (·.isAbandoned) && (r.2.mapWallet 12).all (!·.isAbandoned)) =
        true := by
    decide +kernel
  obtain ⟨⟨b, w'⟩, hw', hall⟩ := (Option.any_eq_true _ _).mp htest
  simp only [Bool.and_eq_true] at hall
  obtain ⟨⟨rfl, h11⟩, h12⟩ := hall
  have hun : threeInRow.Unconfirmed emptyEnv 10 := ⟨_, rfl, rfl⟩
  have hfirst : threeInRow.Spends 10 11 ∧ threeInRow.Unconfirmed emptyEnv 11 :=
    ⟨⟨_, mem_cons_self, rfl, rfl⟩, _, rfl, rfl⟩
  have hsecond : threeInRow.Spends 11 12 ∧ threeInRow.Unconfirmed emptyEnv 12 :=
    ⟨⟨_, mem_cons_of_mem _ mem_cons_self, rfl, rfl⟩, _, rfl, rfl⟩
  refine ⟨hun, rfl, .tail (.single hfirst) hsecond, w', hw', ?_, ?_⟩
  · obtain ⟨wtx, hwtx, hab⟩ := (Option.any_eq_true _ _).mp h11
    exact ⟨wtx, hwtx, hab⟩
  · rintro ⟨wtx, hwtx, hab⟩
    rw [hwtx] at h12
    simp [hab] at h12

end TxWallet

end RgmNode
