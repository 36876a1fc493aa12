import RgmNode.BlockTree.FailureMarks
import RgmNode.Validation.Connect

/-!
# Spending post-quantum outputs

An output for a post-quantum key hash is a witness program of version 2.  A node without the
witness rules would let anyone spend it, so `CheckTxInputs` has a gate: the spend is rejected
below `nQuantumSafeHeight`.  On every network the witness rules start at the same height.
-/

namespace RgmNode

open Checks Transition ChainState List

variable {env : ConnectEnv} {s : ChainState} {block : CBlock} {pindex q : CBlockIndex}
  {view view' v : CoinsView} {fScriptChecks fJustCheck : Bool} {flags : ScriptFlags}
  {tx : CTransaction} {pr pr' : ConnectProgress} {checks : List ScriptCheck}

/-! ## 1. The coins while a block is connected -/

/-- The view after the transactions of a block before the one that is looked at. -/
def viewAfter (cr : Crypto) (nHeight : Nat) (view : CoinsView) (txs : List CTransaction) :
    Option CoinsView :=
  txs.foldlM (fun v tx => v.updateCoins cr tx nHeight) view

theorem hashBlock_spendInput {txin : CTxIn} (h : view.spendInput txin = some view') :
    view'.hashBlock = view.hashBlock := by
  unfold CoinsView.spendInput at h
  split at h
  · cases h
  · split at h
    · cases h
      rfl
    · cases h

theorem hashBlock_foldlM_spendInput {vin : List CTxIn}
    (h : vin.foldlM CoinsView.spendInput view = some view') :
    view'.hashBlock = view.hashBlock := by
  induction vin generalizing view with
  | nil =>
    obtain rfl : view = view' := by simpa using h
    rfl
  | cons txin vin ih =>
    obtain ⟨v, hv, h⟩ := Option.bind_eq_some_iff.mp h
    rw [ih h, hashBlock_spendInput hv]

theorem hashBlock_updateCoins {cr : Crypto} {nHeight : Nat}
    (h : view.updateCoins cr tx nHeight = some view') : view'.hashBlock = view.hashBlock := by
  obtain ⟨v, hv, h⟩ := Option.bind_eq_some_iff.mp h
  have hspent : v.hashBlock = view.hashBlock := by
    unfold CoinsView.spendInputs at hv
    split at hv
    · cases hv
      rfl
    · exact hashBlock_foldlM_spendInput hv
  unfold CoinsView.addCoins at h
  split at h
  · cases h
  · cases h
    exact hspent

/-! ## 2. What a round of the loop checks -/

/-- A transaction that passes has its checks made or queued, and its coins are spent. -/
theorem connectTx_eq_ok (h : connectTx env s pindex fScriptChecks flags pr tx = .ok pr') :
    ∃ checks, checkInputs env s pr.view fScriptChecks flags tx = .ok checks ∧
      pr.view.updateCoins env.cr tx pindex.nHeight = some pr'.view ∧
      pr'.vChecks = pr.vChecks ++ checks := by
  obtain ⟨-, -, h⟩ := bind_eq_ok_iff.mp h
  obtain ⟨cost, -, h⟩ := bind_eq_ok_iff.mp h
  obtain ⟨-, -, h⟩ := bind_eq_ok_iff.mp h
  obtain ⟨fee, -, h⟩ := bind_eq_ok_iff.mp h
  obtain ⟨checks, hchecks, h⟩ := bind_eq_ok_iff.mp h
  obtain ⟨v, hv, h⟩ := bind_eq_ok_iff.mp h
  cases h
  exact ⟨checks, hchecks, demand_eq_ok_iff.mp hv, rfl⟩

/-- The loop leaves the best block of the view alone and forgets no queued check. -/
theorem connectTxs_eq_ok {txs : List CTransaction}
    (h : txs.foldlM (connectTx env s pindex fScriptChecks flags) pr = .ok pr') :
    viewAfter env.cr pindex.nHeight pr.view txs = some pr'.view ∧
      pr'.view.hashBlock = pr.view.hashBlock ∧ ∀ c ∈ pr.vChecks, c ∈ pr'.vChecks := by
  induction txs generalizing pr with
  | nil =>
    cases h
    exact ⟨rfl, rfl, fun _ hc => hc⟩
  | cons tx txs ih =>
    rw [foldlM_cons, bind_eq_ok_iff] at h
    obtain ⟨pr₁, h₁, h⟩ := h
    obtain ⟨checks, -, hview, hqueue⟩ := connectTx_eq_ok h₁
    obtain ⟨hafter, hbest, hkeep⟩ := ih h
    refine ⟨?_, hbest.trans (hashBlock_updateCoins hview), fun c hc => hkeep c ?_⟩
    · rw [viewAfter, foldlM_cons, hview]
      exact hafter
    · rw [hqueue]
      exact mem_append_left _ hc

/-- The gate is passed by every output that is spent. -/
theorem checkTxInputs_eq_ok {cp : CChainParams} {nSpendHeight : Nat}
    {spent : List (CCoins × CTxOut)} (hspent : view.spentBy tx = some spent)
    (h : checkTxInputs cp view nSpendHeight tx = .ok ()) :
    ∀ c ∈ spent, pqSpendActive cp c.2.scriptPubKey nSpendHeight := by
  obtain ⟨-, -, h⟩ := bind_eq_ok_iff.mp h
  obtain ⟨spent', hspent', h⟩ := bind_eq_ok_iff.mp h
  obtain ⟨nValueIn, hloop, -⟩ := bind_eq_ok_iff.mp h
  obtain rfl : spent = spent' := by simpa [hspent] using hspent'
  intro c hc
  obtain ⟨before, after, rfl⟩ := append_of_mem hc
  obtain ⟨sum, sum', -, hround, -⟩ := foldlM_append_cons_eq_ok_iff.mp hloop
  obtain ⟨-, hround⟩ := require_bind_eq_ok_iff.mp hround
  exact (require_bind_eq_ok_iff.mp hround).1

theorem ScriptCheck.run_of_runNow {cr : Crypto} {sg : Schemes} {check : ScriptCheck}
    (h : check.runNow cr sg = .ok ()) : check.run cr sg = .ok () := by
  unfold runNow at h
  split at h
  · next hrun => exact hrun
  · dsimp only at h
    split at h <;> cases h

/-- With script checks on, an input check that passes has looked at each output that is spent:
it passed the gate, and its script was run or is queued to be run. -/
theorem checkInputs_eq_ok (hcb : tx.isCoinBase = false)
    (h : checkInputs env s view true flags tx = .ok checks) :
    ∃ q spent, s.find view.hashBlock = some q ∧ view.spentBy tx = some spent ∧
      (∀ c ∈ spent, pqSpendActive env.net.params c.2.scriptPubKey (q.nHeight + 1)) ∧
      ∀ c ∈ scriptChecks tx flags spent, c ∈ checks ∨ c.run env.cr env.sg = .ok () := by
  unfold checkInputs at h
  rw [if_neg (by simp [hcb])] at h
  obtain ⟨nSpendHeight, hheight, h⟩ := bind_eq_ok_iff.mp h
  obtain ⟨q, hq, hheight⟩ := bind_eq_ok_iff.mp hheight
  cases hheight
  obtain ⟨⟨⟩, hinputs, h⟩ := bind_eq_ok_iff.mp h
  obtain ⟨spent, hspent, h⟩ := bind_eq_ok_iff.mp h
  rw [demand_eq_ok_iff] at hq hspent
  refine ⟨q, spent, hq, hspent, checkTxInputs_eq_ok hspent hinputs, fun c hc => ?_⟩
  split at h
  · cases h
    exact .inl hc
  · obtain ⟨⟨⟩, hall, -⟩ := bind_eq_ok_iff.mp h
    exact .inr (ScriptCheck.run_of_runNow (forM_eq_ok_iff.mp hall c hc))

/-! ## 3. Whole blocks -/

/-- Input `nIn` of `tx`, a transaction of the block, spends the output `o`. -/
structure SpendsInBlock (env : ConnectEnv) (block : CBlock) (pindex : CBlockIndex)
    (view : CoinsView) (tx : CTransaction) (nIn : Nat) (o : CTxOut) : Prop where
  noCoinBase : tx.isCoinBase = false
  input : nIn < tx.vin.length
  output : ∃ before after v c, block.vtx = before ++ tx :: after ∧
    viewAfter env.cr pindex.nHeight view before = some v ∧
    v.access (tx.input nIn).prevout = some (c, o)

/-- The transactions of a block are connected, unless it is the genesis block. -/
theorem connectBlock_eq_ok
    (h : connectBlock env s block pindex view fJustCheck = .ok view') :
    (∀ q, pindex.pprev = some q → q.getBlockHash = view.hashBlock) ∧
      (block.getHash env.cr = (env.net.params.getConsensus 0).hashGenesisBlock ∧
          view'.coins = view.coins ∨
        ∃ v, connectTransactions env s block pindex view = .ok v ∧ view'.coins = v.coins) := by
  obtain ⟨⟨⟩, -, h⟩ := bind_eq_ok_iff.mp h
  obtain ⟨hprev, h⟩ := require_bind_eq_ok_iff.mp h
  obtain ⟨v, hv, h⟩ := bind_eq_ok_iff.mp h
  have hcoins : view'.coins = v.coins := by
    cases h
    split <;> rfl
  refine ⟨fun q hq => by simpa [hq] using hprev, ?_⟩
  unfold connectCoins at hv
  split at hv
  · next hgen =>
    cases hv
    exact .inl ⟨hgen, hcoins⟩
  · exact .inr ⟨v, hv, hcoins⟩

theorem connectTransactions_pprev (h : connectTransactions env s block pindex view = .ok v) :
    ∃ q, pindex.pprev = some q := by
  obtain ⟨_, -, h⟩ := bind_eq_ok_iff.mp h
  obtain ⟨q, hq, -⟩ := bind_eq_ok_iff.mp h
  exact ⟨q, demand_eq_ok_iff.mp hq⟩

/-- A spend in a block that is connected with script checks passed the gate at the height
after the best block of the view, and its script succeeded. -/
theorem connectTransactions_spend {nIn : Nat} {o : CTxOut}
    (hchecks : scriptChecksOn env s pindex = .ok true)
    (h : connectTransactions env s block pindex view = .ok v)
    (hspend : SpendsInBlock env block pindex view tx nIn o) :
    ∃ q, s.find view.hashBlock = some q ∧
      pqSpendActive env.net.params o.scriptPubKey (q.nHeight + 1) ∧
      ScriptCheck.run env.cr env.sg
        ⟨⟨tx, nIn, o.nValue⟩, o.scriptPubKey, blockFlags env pindex⟩ = .ok () := by
  obtain ⟨before, after, v', c, hvtx, hafter, hacc⟩ := hspend.output
  obtain ⟨on, hon, h⟩ := bind_eq_ok_iff.mp h
  cases hon.symm.trans hchecks
  obtain ⟨pprev, -, h⟩ := bind_eq_ok_iff.mp h
  obtain ⟨⟨⟩, -, h⟩ := bind_eq_ok_iff.mp h
  obtain ⟨pr, hloop, h⟩ := bind_eq_ok_iff.mp h
  obtain ⟨_, -, h⟩ := bind_eq_ok_iff.mp h
  obtain ⟨_, -, h⟩ := bind_eq_ok_iff.mp h
  obtain ⟨_, -, h⟩ := bind_eq_ok_iff.mp h
  obtain ⟨hqueue, -⟩ := require_bind_eq_ok_iff.mp h
  -- the state of the loop before and after the transaction
  rw [hvtx] at hloop
  obtain ⟨pr₁, pr₂, hbefore, hround, hrest⟩ := foldlM_append_cons_eq_ok_iff.mp hloop
  obtain ⟨hview₁, hbest₁, -⟩ := connectTxs_eq_ok hbefore
  cases hview₁.symm.trans hafter
  obtain ⟨checks, hinputs, -, hadded⟩ := connectTx_eq_ok hround
  obtain ⟨q, spent, hq, hspent, hgate, hrun⟩ := checkInputs_eq_ok hspend.noCoinBase hinputs
  -- the output is the one at the place of the input
  have hplace : spent[nIn]? = some (c, o) := by
    rw [getElem?_of_mapM_eq_some hspent]
    simpa [CTransaction.input, getElem?_eq_getElem hspend.input] using hacc
  rw [hbest₁] at hq
  refine ⟨q, hq, hgate (c, o) (mem_of_getElem? hplace), ?_⟩
  have hmem : ⟨⟨tx, nIn, o.nValue⟩, o.scriptPubKey, blockFlags env pindex⟩ ∈
      scriptChecks tx (blockFlags env pindex) spent := by
    refine mem_map.mpr ⟨((c, o), nIn), ?_, rfl⟩
    exact mk_mem_zipIdx_iff_getElem?.mpr hplace
  rcases hrun _ hmem with hqueued | hnow
  · refine hqueue _ ((connectTxs_eq_ok hrest).2.2 _ ?_)
    rw [hadded]
    exact mem_append_right _ hqueued
  · exact hnow

/-! ## 4. Post-quantum outputs -/

theorem witness_mem_blockFlags (hpprev : pindex.pprev = some q)
    (h : (env.net.params.getConsensus (q.nHeight + 1)).nQuantumSafeHeight ≤ q.nHeight + 1) :
    .witness ∈ blockFlags env pindex := by
  have hheight : pindex.nHeight = q.nHeight + 1 := by
    cases pindex with
    | root => cases hpprev
    | child p d =>
      cases hpprev
      rfl
  have hsame : (env.net.params.getConsensus (q.nHeight + 1)).nSegwitHeight =
      (env.net.params.getConsensus (q.nHeight + 1)).nQuantumSafeHeight := by
    rw [getConsensus_shared env.net _ Consensus.Params.nSegwitHeight (by cases env.net <;> rfl),
      getConsensus_shared env.net _ Consensus.Params.nQuantumSafeHeight
        (by cases env.net <;> rfl)]
    cases env.net <;> rfl
  have hon : isWitnessEnabled pindex.pprev (env.net.params.getConsensus pindex.nHeight) = true := by
    rw [hpprev, hheight]
    simp only [isWitnessEnabled, hsame, ge_iff_le, decide_eq_true_eq]
    exact h
  unfold blockFlags
  rw [if_pos hon]
  exact mem_append_right _ mem_cons_self

theorem not_pqSpendActive {cp : CChainParams} {nSpendHeight : Nat} {program : Bytes}
    (hlen : program.length = 20)
    (h : pqSpendActive cp (CScript.payToPQKeyHash program) nSpendHeight) :
    (cp.getConsensus nSpendHeight).nQuantumSafeHeight ≤ nSpendHeight := by
  by_contra hlt
  refine h (Nat.lt_of_not_le hlt) ?_
  rw [solver_payToPQKeyHash hlen]
  exact ⟨rfl, rfl⟩

/-- The public key of a post-quantum output has signed the input that spends it. -/
structure PQSigned (env : ConnectEnv) (tx : CTransaction) (nIn : Nat) (amount : CAmount)
    (program : Bytes) : Prop where
  scriptSig : (tx.input nIn).scriptSig = []
  witness : ∃ sig pubkey, (tx.input nIn).scriptWitness = [sig, pubkey] ∧
    pubkey.length = 1312 ∧ (env.cr.hash160 pubkey).bytes = program ∧
    pqVerify env.sg pubkey (SpendContext.getSigHash env.cr ⟨tx, nIn, amount⟩).bytes sig = true

/-- In every block that is accepted with script checks on, in every state a node reaches, each
spend of a post-quantum output is signed with its key, and the transactions of a genesis block
spend nothing.  At every height the gate or the witness rules are in force. -/
theorem connectBlock_pqSpend (env : ConnectEnv) :
    (∀ s block pindex view view' fJustCheck,
      Runs (treeStep env.toNodeEnv) (fun _ _ => True) (initBlockIndex env.toNodeEnv) s →
      (∀ q, pindex.pprev = some q → q ∈ s.mapBlockIndex) →
      scriptChecksOn env s pindex = .ok true →
      connectBlock env s block pindex view fJustCheck = .ok view' →
      block.getHash env.cr = (env.net.params.getConsensus 0).hashGenesisBlock ∧
          view'.coins = view.coins ∨
        ∀ tx nIn o program, SpendsInBlock env block pindex view tx nIn o →
          program.length = 20 → o.scriptPubKey = CScript.payToPQKeyHash program →
          PQSigned env tx nIn o.nValue program) ∧
    ∀ pindex q, pindex.pprev = some q →
      q.nHeight + 1 < (env.net.params.getConsensus (q.nHeight + 1)).nQuantumSafeHeight ∨
        .witness ∈ blockFlags env pindex := by
  refine ⟨?_, fun pindex q hq => ?_⟩
  · intro s block pindex view view' fJustCheck hrun hknown hchecks haccept
    obtain ⟨hprev, hgen | ⟨v, hconnect, -⟩⟩ := connectBlock_eq_ok haccept
    · exact .inl hgen
    refine .inr fun tx nIn o program hspend hlen hscript => ?_
    obtain ⟨q', hq', hgate, hscripts⟩ := connectTransactions_spend hchecks hconnect hspend
    -- the best block of the view is the parent of the block
    obtain ⟨q, hq⟩ : ∃ q, pindex.pprev = some q := connectTransactions_pprev hconnect
    obtain rfl : q = q' := by
      rw [← hprev q hq, filedByHash_of_runs hrun q (hknown q hq)] at hq'
      exact Option.some.inj hq'
    rw [hscript] at hgate hscripts
    have hflag : .witness ∈ blockFlags env pindex :=
      witness_mem_blockFlags hq (not_pqSpendActive hlen hgate)
    obtain ⟨hsig, -, hwit⟩ := (VerifyContext.verifyScript_payToPQKeyHash_iff hlen hflag).mp hscripts
    exact ⟨hsig, hwit⟩
  · rcases Nat.lt_or_ge (q.nHeight + 1)
      (env.net.params.getConsensus (q.nHeight + 1)).nQuantumSafeHeight with hlt | hge
    · exact .inl hlt
    · exact .inr (witness_mem_blockFlags hq hge)

def regtestLine : Nat → CBlockIndex
  | 0 => regtestRoot
  | n + 1 => .child (regtestLine n) ((regtestHeader 0 (.ofNat (n + 2))).indexData nonceCrypto)

/-- The headers of the first `n` blocks of the line arrive. -/
def regtestHeaders (n : Nat) : List TreeOp :=
  (List.range n).map fun i => .header (regtestHeader (.ofNat (i + 1)) (.ofNat (i + 2))) regtestNow

/-- A node whose post-quantum scheme accepts every signature of the right length. -/
def lenientEnv : ConnectEnv :=
  { regtestEnv with
    cr := { nonceCrypto with ripemd160 := fun _ => 1 }
    sg := ⟨fun _ _ => [], fun _ _ _ => false, fun _ => false, fun _ _ => none, fun _ _ _ => true⟩
    hashAssumeValid := 0
    nScriptCheckThreads := 0
    checkBlock := fun _ _ => .ok ()
    csvActive := fun _ => false
    sequenceLocks := fun _ _ _ _ => true }

def pqOutput : CTxOut := ⟨100, CScript.payToPQKeyHash (Uint160.bytes 1)⟩

/-- One output for a post-quantum key hash, after block 49. -/
def pqView : CoinsView where
  coins := fun hash => if hash = 7 then some ⟨false, [pqOutput], 1, 1⟩ else none
  hashBlock := (regtestLine 49).getBlockHash

def pqSpendTx : CTransaction :=
  ⟨1, [⟨⟨7, 0⟩, [], 0, [List.replicate 2420 1, List.replicate 1312 1]⟩], [], 0⟩

/-- A block with a coinbase and a transaction that spends the output. -/
def pqBlock : CBlock := ⟨regtestHeader 50 51, [⟨1, [⟨COutPoint.null, [], 0, []⟩], [], 0⟩, pqSpendTx]⟩

/-- Block 50 may spend the output. -/
theorem connectBlock_pqSpend_regtest :
    ∃ s view', Runs (treeStep lenientEnv.toNodeEnv) (fun _ _ => True)
        (initBlockIndex lenientEnv.toNodeEnv) s ∧
      connectBlock lenientEnv s pqBlock (regtestLine 50) pqView false = .ok view' ∧
      PQSigned lenientEnv pqSpendTx 0 100 (Uint160.bytes 1) := by
  have hrun : ((runList (treeStep lenientEnv.toNodeEnv) (initBlockIndex lenientEnv.toNodeEnv)
      (regtestHeaders 49)).any fun s =>
        decide (regtestLine 49 ∈ s.mapBlockIndex) &&
        (connectBlock lenientEnv s pqBlock (regtestLine 50) pqView false).isOk) = true := by
    decide +kernel
  have hview : ((viewAfter lenientEnv.cr 50 pqView (pqBlock.vtx.take 1)).any fun v =>
      decide (v.access ⟨7, 0⟩ = some (⟨false, [pqOutput], 1, 1⟩, pqOutput))) = true := by
    decide +kernel
  obtain ⟨s, hs, hok⟩ := Option.any_eq_true _ _ |>.mp hrun
  obtain ⟨v, hv, hacc⟩ := Option.any_eq_true _ _ |>.mp hview
  rw [Bool.and_eq_true, decide_eq_true_eq] at hok
  have hruns : Runs (treeStep lenientEnv.toNodeEnv) (fun _ _ => True) _ s :=
    runs_of_runList (fun _ _ _ => trivial) hs
  cases hconnect : connectBlock lenientEnv s pqBlock (regtestLine 50) pqView false with
  | error e =>
    rw [hconnect] at hok
    cases hok.2
  | ok view' =>
    refine ⟨s, view', hruns, hconnect, ?_⟩
    have hknown : ∀ q, (regtestLine 50).pprev = some q → q ∈ s.mapBlockIndex := by
      intro q hq
      cases hq
      exact hok.1
    have hspend : SpendsInBlock lenientEnv pqBlock (regtestLine 50) pqView pqSpendTx 0 pqOutput :=
      ⟨rfl, by decide, _, [], v, _, rfl, hv, of_decide_eq_true hacc⟩
    rcases (connectBlock_pqSpend lenientEnv).1 s pqBlock (regtestLine 50) pqView view' false hruns
      hknown rfl hconnect with ⟨hgen, -⟩ | hall
    · exact absurd hgen (by decide +kernel)
    · exact hall pqSpendTx 0 pqOutput (Uint160.bytes 1) hspend rfl rfl

end RgmNode
