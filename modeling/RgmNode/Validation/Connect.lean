import Mathlib.Data.Fintype.Basic
import RgmNode.BlockTree.Accept
import RgmNode.Validation.Coins

/-!
# Connecting a block

`CheckTxInputs`, `CheckInputs` and `ConnectBlock` of `validation.cpp`.  `CheckBlock`, the
version bits of the `CSV` deployment and `SequenceLocks` are parameters here; writing undo
data and the transaction index is left out.
-/

namespace RgmNode

open Checks

/-- Why `ConnectBlock` does not succeed: the block is rejected, or the process stops at an
assertion, an exception or a system error. -/
inductive ConnectFailure where
  | rejected (r : Reject)
  | aborted
deriving DecidableEq, Repr

/-- An assertion, and the value it says is there. -/
def demand {α : Type} : Option α → Except ConnectFailure α
  | none => .error .aborted
  | some a => .ok a

@[simp] theorem demand_eq_ok_iff {α : Type} {x : Option α} {a : α} :
    demand x = .ok a ↔ x = some a := by
  cases x with
  | none => exact ⟨nofun, nofun⟩
  | some b => simp [demand]

/-- A check that rejects the block. -/
def ensure (c : Prop) [Decidable c] (r : Reject) : Except ConnectFailure Unit :=
  require c (.rejected r)

/-! ## 1. Inputs -/

/-- A spent coinbase is as deep as `nCoinbaseMaturity` of the height it was mined at asks. -/
def isMature (cp : CChainParams) (c : CCoins) (nSpendHeight : Nat) : Prop :=
  c.fCoinBase = true →
    ((cp.getConsensus c.nHeight).nCoinbaseMaturity : Int) ≤ (nSpendHeight : Int) - c.nHeight

instance (cp : CChainParams) (c : CCoins) (nSpendHeight : Nat) :
    Decidable (isMature cp c nSpendHeight) :=
  inferInstanceAs (Decidable (_ → _))

/-- The gate for post-quantum outputs: they may be spent from `nQuantumSafeHeight` on. -/
def pqSpendActive (cp : CChainParams) (scriptPubKey : CScript) (nSpendHeight : Nat) : Prop :=
  nSpendHeight < (cp.getConsensus nSpendHeight).nQuantumSafeHeight →
    ¬ ((solver scriptPubKey).solved = true ∧
      (solver scriptPubKey).typeRet = some .witnessV2PQKeyHash)

instance (cp : CChainParams) (scriptPubKey : CScript) (nSpendHeight : Nat) :
    Decidable (pqSpendActive cp scriptPubKey nSpendHeight) :=
  inferInstanceAs (Decidable (_ → _))

/-- One round of the loop of `CheckTxInputs`, for the output the input spends. -/
def checkTxInput (cp : CChainParams) (nSpendHeight : Nat) (nValueIn : CAmount)
    (spent : CCoins × CTxOut) : Except ConnectFailure CAmount := do
  ensure (isMature cp spent.1 nSpendHeight)
    (.invalid .invalid "bad-txns-premature-spend-of-coinbase"
      s!"tried to spend coinbase at depth {(nSpendHeight : Int) - spent.1.nHeight}")
  ensure (pqSpendActive cp spent.2.scriptPubKey nSpendHeight)
    (.dos 100 .invalid "pq-spend-not-yet-active")
  ensure (moneyRange spent.2.nValue = true ∧ moneyRange (nValueIn + spent.2.nValue) = true)
    (.dos 100 .invalid "bad-txns-inputvalues-outofrange")
  return nValueIn + spent.2.nValue

/-- `CheckTxInputs`; the debug text with the two amounts is left out -/
def checkTxInputs (cp : CChainParams) (view : CoinsView) (nSpendHeight : Nat)
    (tx : CTransaction) : Except ConnectFailure Unit := do
  ensure (view.haveInputs tx = true) (.invalid .unset "" "Inputs unavailable")
  let spent ← demand (view.spentBy tx)
  let nValueIn ← spent.foldlM (checkTxInput cp nSpendHeight) 0
  let nValueOut ← demand tx.getValueOut
  ensure (nValueOut ≤ nValueIn) (.dos 100 .invalid "bad-txns-in-belowout")
  let nTxFee := nValueIn - nValueOut
  ensure (0 ≤ nTxFee) (.dos 100 .invalid "bad-txns-fee-negative")
  ensure (moneyRange nTxFee = true) (.dos 100 .invalid "bad-txns-fee-outofrange")

/-- `CScriptCheck`: an input and the output it spends -/
structure ScriptCheck where
  spend : SpendContext
  scriptPubKey : CScript
  nFlags : ScriptFlags
deriving DecidableEq, Repr

/-- `CScriptCheck::operator()` -/
def ScriptCheck.run (cr : Crypto) (sg : Schemes) (check : ScriptCheck) :
    Except ScriptError Unit :=
  let txin := check.spend.txTo.input check.spend.nIn
  VerifyContext.verifyScript ⟨cr, sg, check.nFlags, check.spend.checker cr sg⟩
    txin.scriptSig check.scriptPubKey txin.scriptWitness

/-- A check that is made at once: a failure under the mandatory flags alone is punished. -/
def ScriptCheck.runNow (cr : Crypto) (sg : Schemes) (check : ScriptCheck) :
    Except ConnectFailure Unit :=
  match check.run cr sg with
  | .ok _ => .ok ()
  | .error e =>
    let mandatory := { check with
      nFlags := check.nFlags.filter (· ∉ standardNotMandatoryVerifyFlags) }
    if mandatory.nFlags.length < check.nFlags.length ∧ mandatory.run cr sg = .ok () then
      .error (.rejected (.invalid .nonstandard
        s!"non-mandatory-script-verify-flag ({e.toText})"))
    else
      .error (.rejected (.dos 100 .invalid
        s!"mandatory-script-verify-flag-failed ({e.toText})"))

/-- The script checks of a transaction that spends `spent`. -/
def scriptChecks (tx : CTransaction) (flags : ScriptFlags) (spent : List (CCoins × CTxOut)) :
    List ScriptCheck :=
  spent.zipIdx.map fun c => ⟨⟨tx, c.2, c.1.2.nValue⟩, c.1.2.scriptPubKey, flags⟩

/-! ## 2. Transactions -/

/-- What `ConnectBlock` reads besides the block tree: the signature schemes, the options
`-assumevalid` and `-par`, and the checks that are parameters here. -/
structure ConnectEnv extends NodeEnv where
  sg : Schemes
  hashAssumeValid : Uint256
  nScriptCheckThreads : Nat
  /-- `CheckBlock(block, state, !fJustCheck, !fJustCheck)` -/
  checkBlock : CBlock → Bool → Except Reject Unit
  /-- the `CSV` deployment is active after the given entry -/
  csvActive : Option CBlockIndex → Bool
  /-- `SequenceLocks`, with the lock time flag for sequence numbers and the heights of the
  coins spent -/
  sequenceLocks : CTransaction → Bool → List Nat → CBlockIndex → Bool

def getSpendHeight (s : ChainState) (view : CoinsView) : Except ConnectFailure Nat := do
  let pindexPrev ← demand (s.find view.hashBlock)
  return pindexPrev.nHeight + 1

/-- `CheckInputs`, with the script checks that are left for the queue. -/
def checkInputs (env : ConnectEnv) (s : ChainState) (view : CoinsView) (fScriptChecks : Bool)
    (flags : ScriptFlags) (tx : CTransaction) : Except ConnectFailure (List ScriptCheck) :=
  if tx.isCoinBase then return []
  else do
    let nSpendHeight ← getSpendHeight s view
    checkTxInputs env.net.params view nSpendHeight tx
    if fScriptChecks then
      let spent ← demand (view.spentBy tx)
      let checks := scriptChecks tx flags spent
      if env.nScriptCheckThreads ≠ 0 then return checks
      else
        checks.forM (ScriptCheck.runNow env.cr env.sg)
        return []
    else return []

/-- `MAX_BLOCK_SIGOPS_COST` -/
def maxBlockSigOpsCost : Nat := 80000

/-- The variables of the loop over the transactions. -/
structure ConnectProgress where
  view : CoinsView
  nFees : CAmount
  nSigOpsCost : Nat
  vChecks : List ScriptCheck

def checkFinal (env : ConnectEnv) (pindex : CBlockIndex) (view : CoinsView) (tx : CTransaction) :
    Except ConnectFailure Unit :=
  if tx.isCoinBase then return ()
  else do
    ensure (view.haveInputs tx = true) (.dos 100 .invalid "bad-txns-inputs-missingorspent")
    let spent ← demand (view.spentBy tx)
    ensure (env.sequenceLocks tx (env.csvActive pindex.pprev) (spent.map (·.1.nHeight)) pindex)
      (.dos 100 .invalid "bad-txns-nonfinal")

/-- The fee of a transaction, 0 for a coinbase. -/
def txFee (view : CoinsView) (tx : CTransaction) : Except ConnectFailure CAmount :=
  if tx.isCoinBase then return 0
  else do
    let nValueIn ← demand (view.getValueIn tx)
    let nValueOut ← demand tx.getValueOut
    return nValueIn - nValueOut

/-- One round of the loop over the transactions. -/
def connectTx (env : ConnectEnv) (s : ChainState) (pindex : CBlockIndex) (fScriptChecks : Bool)
    (flags : ScriptFlags) (pr : ConnectProgress) (tx : CTransaction) :
    Except ConnectFailure ConnectProgress := do
  checkFinal env pindex pr.view tx
  let cost ← demand (getTransactionSigOpCost pr.view flags tx)
  ensure (pr.nSigOpsCost + cost ≤ maxBlockSigOpsCost) (.dos 100 .invalid "bad-blk-sigops")
  let fee ← txFee pr.view tx
  let checks ← checkInputs env s pr.view fScriptChecks flags tx
  let view ← demand (pr.view.updateCoins env.cr tx pindex.nHeight)
  return ⟨view, pr.nFees + fee, pr.nSigOpsCost + cost, pr.vChecks ++ checks⟩

/-! ## 3. Blocks -/

def getRGMBlockSubsidy (nHeight : Nat) (params : Consensus.Params) : CAmount :=
  let halvings := nHeight / params.nSubsidyHalvingInterval
  if 64 ≤ halvings then 0
  else
    let nSubsidy : CAmount := ((50 * 100000000) >>> halvings : Nat)
    -- the golden block: every thousandth one pays five times as much
    if nHeight % 1000 = 0 ∧ 0 < nHeight then nSubsidy * 5 else nSubsidy

/-- `GetBlockProofEquivalentTime`; the division throws where the tip has no proof -/
def getBlockProofEquivalentTime (pto pfrom tip : CBlockIndex) (params : Consensus.Params) :
    Option Int :=
  let sign : Int := if pfrom.nChainWork < pto.nChainWork then 1 else -1
  let work := if pfrom.nChainWork < pto.nChainWork then pto.nChainWork - pfrom.nChainWork
    else pfrom.nChainWork - pto.nChainWork
  if getBlockProof tip.nBits = 0 then none
  else
    let r : Nat := work * params.nPowTargetSpacing.toNat % 2 ^ 256 / getBlockProof tip.nBits
    if 2 ^ 63 ≤ r then some (sign * (2 ^ 63 - 1)) else some (sign * r)

/-- `fScriptChecks`: off for a block that is buried below the block of `-assumevalid`. -/
def scriptChecksOn (env : ConnectEnv) (s : ChainState) (pindex : CBlockIndex) :
    Except ConnectFailure Bool :=
  let params := env.net.params.getConsensus pindex.nHeight
  match if env.hashAssumeValid = 0 then none else s.find env.hashAssumeValid with
  | none => return true
  | some assumed =>
    if assumed.getAncestor pindex.nHeight = some pindex then do
      let best ← demand s.pindexBestHeader
      if best.getAncestor pindex.nHeight = some pindex ∧
          params.nMinimumChainWork.toNat ≤ best.nChainWork then
        let time ← demand (getBlockProofEquivalentTime best pindex best params)
        return decide (time ≤ 60 * 60 * 24 * 7 * 2)
      else return true
    else return true

/-- `BIP34Hash`, not set on any network -/
def bip34Hash : Uint256 := 0

/-- The rule of BIP 30: no transaction overwrites one with unspent outputs. -/
def checkBIP30 (env : ConnectEnv) (pprev : CBlockIndex) (view : CoinsView) (block : CBlock) :
    Except ConnectFailure Unit :=
  let fEnforceBIP30 : Bool :=
    match pprev.getAncestor (env.net.params.getConsensus 0).bip34Height with
    | none => true
    | some pindexBIP34height => pindexBIP34height.getBlockHash != bip34Hash
  ensure (fEnforceBIP30 = true → ∀ tx ∈ block.vtx,
      (view.coins (tx.getHash env.cr)).all (·.isPruned) = true)
    (.dos 100 .invalid "bad-txns-BIP30")

def blockFlags (env : ConnectEnv) (pindex : CBlockIndex) : ScriptFlags :=
  let params := env.net.params.getConsensus 0
  [.p2sh] ++
    (if params.bip66Height ≤ pindex.nHeight then [.derSig] else []) ++
    (if params.bip65Height ≤ pindex.nHeight then [.checkLockTimeVerify] else []) ++
    (if env.csvActive pindex.pprev then [.checkSequenceVerify] else []) ++
    (if ChainState.isWitnessEnabled pindex.pprev (env.net.params.getConsensus pindex.nHeight) then
      [.witness, .nullDummy] else [])

/-- The part of `ConnectBlock` after the genesis block is dealt with. -/
def connectTransactions (env : ConnectEnv) (s : ChainState) (block : CBlock)
    (pindex : CBlockIndex) (view : CoinsView) : Except ConnectFailure CoinsView := do
  let fScriptChecks ← scriptChecksOn env s pindex
  let pprev ← demand pindex.pprev
  checkBIP30 env pprev view block
  let pr ← block.vtx.foldlM (connectTx env s pindex fScriptChecks (blockFlags env pindex))
    ⟨view, 0, 0, []⟩
  let nBlockSubsidy :=
    getRGMBlockSubsidy pindex.nHeight (env.net.params.getConsensus pindex.nHeight)
  -- two percent of the fees are burnt
  let nBurnAmount := pr.nFees.tdiv 50
  let blockReward := pr.nFees - nBurnAmount + nBlockSubsidy
  let coinbase ← demand block.vtx.head?
  let nValueOut ← demand coinbase.getValueOut
  ensure (nValueOut ≤ blockReward) (.dos 100 .invalid "bad-cb-amount")
  -- the queue is waited for
  ensure (∀ check ∈ pr.vChecks, check.run env.cr env.sg = .ok ()) (.dos 100 .unset "")
  return pr.view

/-- The block that is checked again: a corrupted one stops the node. -/
def recheckBlock (env : ConnectEnv) (block : CBlock) (fJustCheck : Bool) :
    Except ConnectFailure Unit :=
  match env.checkBlock block fJustCheck with
  | .ok _ => .ok ()
  | .error r => if r.corruptionPossible then .error .aborted else .error (.rejected r)

/-- The coins after a block; those of the genesis block cannot be spent. -/
def connectCoins (env : ConnectEnv) (s : ChainState) (block : CBlock) (pindex : CBlockIndex)
    (view : CoinsView) : Except ConnectFailure CoinsView :=
  if block.getHash env.cr = (env.net.params.getConsensus 0).hashGenesisBlock then .ok view
  else connectTransactions env s block pindex view

def connectBlock (env : ConnectEnv) (s : ChainState) (block : CBlock) (pindex : CBlockIndex)
    (view : CoinsView) (fJustCheck : Bool) : Except ConnectFailure CoinsView := do
  recheckBlock env block fJustCheck
  let hashPrevBlock := match pindex.pprev with
    | none => 0
    | some pprev => pprev.getBlockHash
  -- assert(hashPrevBlock == view.GetBestBlock())
  require (hashPrevBlock = view.hashBlock) .aborted
  let view ← connectCoins env s block pindex view
  return if fJustCheck then view else { view with hashBlock := pindex.getBlockHash }

end RgmNode
