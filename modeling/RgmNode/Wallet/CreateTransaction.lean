import RgmNode.Mempool.TxMemPool
import RgmNode.Script.Destination
import RgmNode.Script.Sign
import RgmNode.Wallet.FeeRate

/-!
# Creating a transaction

`CWallet::CreateTransaction` of `wallet.cpp`, with the fee functions it calls.  The fee is found in
a loop: each round pays the recipients with the fee so far, selects coins and adds change, and ends
or asks for more.

Arithmetic on amounts wraps around as that of an `int64_t`.  The coin age priorities are left out;
whether a transaction may be sent free is a parameter, as are keys, signatures and the memory pool.
-/

namespace RgmNode

open Checks

/-! ## 1. Fees -/

def CTxOut.isDust (o : CTxOut) (dustLimit : CAmount) : Bool :=
  if CScript.isUnspendable o.scriptPubKey then false else decide (o.nValue < dustLimit)

inductive FeeRatePreset where
  | minimum
  | more
  | wow
  | amaze
  | manyGenerous
  | suchExpensive
deriving DecidableEq

structure WalletSettings where
  discardThreshold : CAmount
  payTxFee : CFeeRate
  minTxFee : CFeeRate
  minRelayTxFeeRate : CFeeRate
  maxTxFee : CAmount
  nBytesPerSigOp : Nat
  fWalletRbf : Bool
  /-- `-changetype`, if it is set -/
  fChangeTypeSet : Bool

def getRGMDustFee (vout : List CTxOut) (dustLimit : CAmount) : CAmount :=
  vout.foldl (fun nFee txout => if txout.isDust dustLimit then int64 (nFee + dustLimit) else nFee) 0

namespace WalletSettings

variable (w : WalletSettings)

def getMinChange : CAmount := int64 (w.discardThreshold + int64 (w.minTxFee.getFeePerK * 2))

def getDogecoinFeeRate : FeeRatePreset → CFeeRate
  | .suchExpensive => ⟨100000000 / 100 * 521⟩
  | .manyGenerous => ⟨int64 (w.minTxFee.getFeePerK * 100)⟩
  | .amaze => ⟨int64 (w.minTxFee.getFeePerK * 10)⟩
  | .wow => ⟨int64 (w.minTxFee.getFeePerK * 5)⟩
  | .more => ⟨int64 (w.minTxFee.getFeePerK * 2)⟩
  | .minimum => w.minTxFee

def getRequiredFee (vout : List CTxOut) (nTxBytes : Nat) : CAmount :=
  max (int64 (w.minTxFee.getFee nTxBytes + getRGMDustFee vout w.discardThreshold))
    (w.minRelayTxFeeRate.getFee nTxBytes)

/-- What `GetMinimumFee` and `GetRGMPriorityFee` share: the fee the user has set, or else
`estimate`, between the required fee and the maximum -/
def clampFee (vout : List CTxOut) (nTxBytes : Nat) (estimate : CAmount) : CAmount :=
  let nFeeNeeded := w.payTxFee.getFee nTxBytes
  let nFeeNeeded := if nFeeNeeded = 0 then estimate else nFeeNeeded
  let nFeeNeeded := max nFeeNeeded (w.getRequiredFee vout nTxBytes)
  if w.maxTxFee < nFeeNeeded then w.maxTxFee else nFeeNeeded

def getMinimumFee (vout : List CTxOut) (nTxBytes : Nat) : CAmount :=
  w.clampFee vout nTxBytes (w.getRequiredFee vout nTxBytes)

def getRGMPriorityFee (vout : List CTxOut) (nTxBytes : Nat) (nPriority : FeeRatePreset) : CAmount :=
  w.clampFee vout nTxBytes ((w.getDogecoinFeeRate nPriority).getFee nTxBytes)

end WalletSettings

/-! ## 2. What the function is given -/

structure CRecipient where
  scriptPubKey : CScript
  nAmount : CAmount
  fSubtractFeeFromAmount : Bool

structure CCoinControl where
  destChange : CTxDestination
  fAllowOtherInputs : Bool
  nMinimumTotalFee : CAmount
  fOverrideFeeRate : Bool
  nFeeRate : CFeeRate
  nPriority : FeeRatePreset
  /-- a `std::set`, in its order -/
  setSelected : List COutPoint
  nodup : setSelected.Nodup

inductive OutputType where
  | legacy
  | p2shSegwit
  | bech32
  | pq
deriving DecidableEq

/-- `GetDestinationForKey`; `none` where the assertion fails -/
def getDestinationForKey (cr : Crypto) (key : CPubKey) : OutputType → Option CTxDestination
  | .legacy => some (.keyID (key.getID cr))
  | .p2shSegwit =>
    ((CTxDestination.witnessV0KeyHash (key.getID cr)).getScriptForDestination).map
      fun witnessScript => .scriptID (cr.hash160 witnessScript)
  | .bech32 => some (.witnessV0KeyHash (key.getID cr))
  | .pq => none

structure CreateEnv where
  cr : Crypto
  settings : WalletSettings
  selection : SelectionEnv
  /-- `AvailableCoins` -/
  vAvailableCoins : List COutput
  /-- `GetDepthInMainChain` of the transaction of a coin -/
  getDepthInMainChain : InputCoin → Int
  /-- `GetLocktimeForNewTransaction` -/
  nLockTime : UInt32
  gChangeType : OutputType
  /-- the hash of the post-quantum key that `MakeNewKey` makes, if it does -/
  makeNewPQKey : Option Uint160
  /-- `AddPQKey` -/
  addPQKey : Bool
  /-- `GetReservedKey`, by round -/
  getReservedKey : Nat → Option CPubKey
  /-- the priority of the transaction is enough for it to be free -/
  fFreePriority : CTransaction → Bool
  /-- `ProduceSignature` of `DummySignTx` -/
  dummySignature : InputCoin → Option SignatureData
  /-- `ProduceSignature` for an input of a transaction -/
  produceSignature : CTransaction → Nat → InputCoin → Option SignatureData
  /-- `CalculateMemPoolAncestors` succeeds, or is not asked -/
  withinChainLimits : CTransaction → Bool

/-- The random choices: those of coin selection by round and attempt, and the place of the change
by round and number of outputs. -/
structure CreateRandom where
  select : Nat → Nat → SelectionRandom
  changePos : Nat → Nat → Nat
  changePos_le : ∀ round size, changePos round size ≤ size

/-- How the function does not return `true` -/
inductive CreateFailure where
  | failed (strFailReason : String)
  /-- an assertion fails -/
  | aborted
deriving DecidableEq

/-- The transaction and what is returned beside it. -/
structure Created where
  tx : CTransaction
  setCoins : List InputCoin
  nFeeRet : CAmount
  nChangePosInOut : Int
deriving DecidableEq

/-! ## 3. One round of the loop -/

/-- The first loop: `nValue` and the number of recipients that the fee is subtracted from -/
def sumRecipients : List CRecipient → CAmount → Nat → Except CreateFailure (CAmount × Nat)
  | [], nValue, nSubtract => .ok (nValue, nSubtract)
  | recipient :: vecSend, nValue, nSubtract =>
    if nValue < 0 ∨ recipient.nAmount < 0 then
      .error (.failed "Transaction amounts must not be negative")
    else
      sumRecipients vecSend (int64 (nValue + recipient.nAmount))
        (if recipient.fSubtractFeeFromAmount then (nSubtract + 1) % 2 ^ 32 else nSubtract)

/-- What a recipient gets of its amount; the number that the fee is divided by is not zero -/
def CRecipient.payout (nFeeRet : CAmount) (nSubtract : Nat) (fFirst : Bool) (r : CRecipient) :
    CAmount :=
  if r.fSubtractFeeFromAmount then
    let nValue := int64 (r.nAmount - nFeeRet.tdiv nSubtract)
    -- the first receiver pays the remainder
    if fFirst then int64 (nValue - nFeeRet.tmod nSubtract) else nValue
  else r.nAmount

def dustReason (nFeeRet nValue : CAmount) (fSubtractFeeFromAmount : Bool) : String :=
  if fSubtractFeeFromAmount ∧ 0 < nFeeRet then
    if nValue < 0 then "The transaction amount is too small to pay the fee"
    else "The transaction amount is too small to send after the fee has been deducted"
  else "Transaction amount too small"

def payees (discardThreshold nFeeRet : CAmount) (nSubtract : Nat) :
    List CRecipient → Bool → Except CreateFailure (List CTxOut)
  | [], _ => .ok []
  | recipient :: vecSend, fFirst =>
    let txout : CTxOut := ⟨recipient.payout nFeeRet nSubtract fFirst, recipient.scriptPubKey⟩
    -- the counter is an `unsigned int`
    if recipient.fSubtractFeeFromAmount ∧ nSubtract = 0 then .error .aborted
    else if txout.isDust discardThreshold then
      .error (.failed (dustReason nFeeRet txout.nValue recipient.fSubtractFeeFromAmount))
    else
      (payees discardThreshold nFeeRet nSubtract vecSend
        (fFirst && !recipient.fSubtractFeeFromAmount)).map (txout :: ·)

/-- The raise of a dust change is subtracted from the first recipient that pays the fee. -/
def subtractFromFirst (discardThreshold changeDelta : CAmount) :
    List CRecipient → List CTxOut → Except CreateFailure (List CTxOut)
  | recipient :: vecSend, txout :: vout =>
    if recipient.fSubtractFeeFromAmount then
      let txout : CTxOut := { txout with nValue := int64 (txout.nValue - changeDelta) }
      if txout.isDust discardThreshold then
        .error (.failed
          "The transaction amount is too small to send after the fee has been deducted")
      else .ok (txout :: vout)
    else (subtractFromFirst discardThreshold changeDelta vecSend vout).map (txout :: ·)
  | _, vout => .ok vout

/-- The type of the change address, by the types of the inputs -/
def changeType (env : CreateEnv) (setCoins : List InputCoin) : OutputType :=
  let isType (types : List TxnOutType) (coin : InputCoin) : Bool :=
    let ⟨solved, whichType, _⟩ := solver coin.txout.scriptPubKey
    solved && whichType.any (types.contains ·)
  if env.settings.fChangeTypeSet then env.gChangeType
  else if setCoins.any (isType [.witnessV2PQKeyHash]) then .pq
  else if setCoins.any (isType [.witnessV0KeyHash, .witnessV0ScriptHash]) then .bech32
  else env.gChangeType

/-- The destination of the change that is not sent to a custom address -/
def changeDestination (env : CreateEnv) (round : Nat) (setCoins : List InputCoin) :
    Except CreateFailure (Option CTxDestination) :=
  match changeType env setCoins with
  | .pq =>
    match env.makeNewPQKey with
    | none => .error (.failed "PQ change key generation failed")
    | some hash160 =>
      if env.addPQKey then .ok (CTxDestination.unknown 2 hash160.bytes)
      else .error (.failed "Failed to store PQ change key")
  | type =>
    match env.getReservedKey round with
    | none => .error (.failed "Keypool ran out, please call keypoolrefill first")
    | some vchPubKey => .ok (getDestinationForKey env.cr vchPubKey type)

def changeScript (env : CreateEnv) (coinControl : Option CCoinControl) (round : Nat)
    (setCoins : List InputCoin) : Except CreateFailure CScript := do
  let destChange := coinControl.elim .noDestination CCoinControl.destChange
  let dest ←
    if destChange = .noDestination then changeDestination env round setCoins
    else .ok (some destChange)
  match dest.bind CTxDestination.getScriptForDestination with
  | none => .error .aborted
  | some scriptChange => .ok scriptChange

/-- The outputs, the place of the change and the fee -/
structure Draft where
  vout : List CTxOut
  nChangePosInOut : Int
  nFeeRet : CAmount

/-- The change output is put at the requested place, or at a random one for `-1`. -/
def insertChange (rand : CreateRandom) (round : Nat) (nChangePosRequest : Int32)
    (nFeeRet : CAmount) (vout : List CTxOut) (newTxOut : CTxOut) : Except CreateFailure Draft :=
  if nChangePosRequest.toInt = -1 then
    let nChangePosInOut := rand.changePos round vout.length
    .ok ⟨vout.insertIdx nChangePosInOut newTxOut, nChangePosInOut, nFeeRet⟩
  -- compared as an `unsigned int`
  else if (vout.length : Int) < nChangePosRequest.toInt % 2 ^ 32 then
    .error (.failed "Change index out of range")
  else
    .ok ⟨vout.insertIdx nChangePosRequest.toInt.toNat newTxOut, nChangePosRequest.toInt, nFeeRet⟩

def addChange (env : CreateEnv) (rand : CreateRandom) (coinControl : Option CCoinControl)
    (vecSend : List CRecipient) (nSubtract : Nat) (nChangePosRequest : Int32) (round : Nat)
    (setCoins : List InputCoin) (nChange nFeeRet : CAmount) (vout : List CTxOut) :
    Except CreateFailure Draft := do
  let discardThreshold := env.settings.discardThreshold
  if 0 < nChange then
    let scriptChange ← changeScript env coinControl round setCoins
    let newTxOut : CTxOut := ⟨nChange, scriptChange⟩
    if 0 < nSubtract ∧ newTxOut.isDust discardThreshold then
      -- raise the change, and deduct from the recipient
      let changeDelta := int64 (discardThreshold - nChange)
      let newTxOut : CTxOut := ⟨int64 (nChange + changeDelta), scriptChange⟩
      let vout ← subtractFromFirst discardThreshold changeDelta vecSend vout
      if newTxOut.isDust discardThreshold then .ok ⟨vout, -1, int64 (nFeeRet + nChange)⟩
      else insertChange rand round nChangePosRequest nFeeRet vout newTxOut
    else if newTxOut.isDust discardThreshold then
      -- discard the change to the fee
      .ok ⟨vout, -1, int64 (nFeeRet + nChange)⟩
    else insertChange rand round nChangePosRequest nFeeRet vout newTxOut
  else .ok ⟨vout, -1, nFeeRet⟩

def fillVin (fWalletRbf : Bool) (setCoins : List InputCoin) : List CTxIn :=
  setCoins.map fun coin =>
    ⟨coin.outpoint, [], 0xffffffff - (if fWalletRbf then 2 else 1), []⟩

def signInputs (sign : Nat → InputCoin → Option SignatureData) :
    Nat → List InputCoin → List CTxIn → Option (List CTxIn)
  | _, [], vin => some vin
  | nIn, coin :: setCoins, vin =>
    (sign nIn coin).bind fun sigdata =>
      signInputs sign (nIn + 1) setCoins
        (vin.modify nIn fun txin =>
          { txin with scriptSig := sigdata.scriptSig, scriptWitness := sigdata.scriptWitness })

def feeNeeded (w : WalletSettings) (coinControl : Option CCoinControl) (vout : List CTxOut)
    (nBytes : Nat) : CAmount :=
  let nPriority := coinControl.elim .minimum CCoinControl.nPriority
  let nFeeNeeded :=
    if nPriority = .minimum then w.getMinimumFee vout nBytes
    else w.getRGMPriorityFee vout nBytes nPriority
  match coinControl with
  | none => nFeeNeeded
  | some cc =>
    if cc.fOverrideFeeRate then cc.nFeeRate.getFee nBytes
    else if 0 < nFeeNeeded ∧ nFeeNeeded < cc.nMinimumTotalFee then cc.nMinimumTotalFee
    else nFeeNeeded

inductive RoundEnd where
  | done (draft : Draft)
  /-- include more fee and try again -/
  | again (nFeeRet : CAmount)

def Draft.moveChange (d : Draft) (amount : CAmount) : List CTxOut :=
  d.vout.modify d.nChangePosInOut.toNat fun o => { o with nValue := int64 (o.nValue + amount) }

def Draft.changeValue (d : Draft) : CAmount :=
  (d.vout[d.nChangePosInOut.toNat]?.map CTxOut.nValue).getD 0

/-- The fee and what it needs to be are compared: the change takes what was paid too much, or gives
what is missing. -/
def settleFee (discardThreshold : CAmount) (nSubtract : Nat) (d : Draft) (nFeeNeeded : CAmount) :
    RoundEnd :=
  if nFeeNeeded ≤ d.nFeeRet then
    if nFeeNeeded < d.nFeeRet ∧ d.nChangePosInOut ≠ -1 ∧ nSubtract = 0 then
      let extraFeePaid := int64 (d.nFeeRet - nFeeNeeded)
      .done { d with
        vout := d.moveChange extraFeePaid
        nFeeRet := int64 (d.nFeeRet - extraFeePaid) }
    else .done d
  else
    let additionalFeeNeeded := int64 (nFeeNeeded - d.nFeeRet)
    if d.nChangePosInOut ≠ -1 ∧ nSubtract = 0 ∧
        int64 (discardThreshold + additionalFeeNeeded) ≤ d.changeValue then
      .done { d with
        vout := d.moveChange (-additionalFeeNeeded)
        nFeeRet := int64 (d.nFeeRet + additionalFeeNeeded) }
    else .again nFeeNeeded

/-- `MAX_FREE_TRANSACTION_CREATE_SIZE` -/
def maxFreeTransactionCreateSize : Nat := 0

/-- Coins are selected with the wallet's `GetMinChange`. -/
def CreateEnv.selectionEnv (env : CreateEnv) : SelectionEnv :=
  { env.selection with nMinChange := env.settings.getMinChange }

def createRound (env : CreateEnv) (rand : CreateRandom) (coinControl : Option CCoinControl)
    (vecSend : List CRecipient) (nValue : CAmount) (nSubtract : Nat) (nChangePosRequest : Int32)
    (k : Nat) (nFeeRet : CAmount) : Except CreateFailure (List InputCoin × RoundEnd) := do
  let w := env.settings
  let nValueToSelect := if nSubtract = 0 then int64 (nValue + nFeeRet) else nValue
  let vout ← payees w.discardThreshold nFeeRet nSubtract vecSend true
  match env.selectionEnv.selectCoins (rand.select k)
      (coinControl.elim false CCoinControl.fAllowOtherInputs)
      (coinControl.elim [] CCoinControl.setSelected) env.vAvailableCoins nValueToSelect with
  | none => .error (.failed "Insufficient funds")
  | some (setCoins, nValueIn) =>
    require (∀ coin ∈ setCoins, 0 ≤ env.getDepthInMainChain coin) .aborted
    let nChange := int64 (nValueIn - nValueToSelect)
    let d ← addChange env rand coinControl vecSend nSubtract nChangePosRequest k setCoins nChange
      nFeeRet vout
    match signInputs (fun _ => env.dummySignature) 0 setCoins (fillVin w.fWalletRbf setCoins) with
    | none => .error (.failed "Signing transaction failed")
    | some vin =>
      let tx : CTransaction := ⟨1, vin, d.vout, env.nLockTime⟩
      let nBytes := (getVirtualTransactionSize w.nBytesPerSigOp tx.weight 0).toNat % 2 ^ 32
      if nBytes ≤ maxFreeTransactionCreateSize ∧ env.fFreePriority tx then .ok (setCoins, .done d)
      else
        let nFeeNeeded := feeNeeded w coinControl d.vout nBytes
        require (w.minRelayTxFeeRate.getFee nBytes ≤ nFeeNeeded)
          (.failed "Transaction too large for fee policy")
        .ok (setCoins, settleFee w.discardThreshold nSubtract d nFeeNeeded)

/-! ## 4. The function -/

/-- The loop, for at most `fuel` rounds -/
def feeLoop (env : CreateEnv) (rand : CreateRandom) (coinControl : Option CCoinControl)
    (vecSend : List CRecipient) (nValue : CAmount) (nSubtract : Nat) (nChangePosRequest : Int32) :
    Nat → Nat → CAmount → Option (Except CreateFailure (List InputCoin × Draft))
  | 0, _, _ => none
  | fuel + 1, k, nFeeRet =>
    match createRound env rand coinControl vecSend nValue nSubtract nChangePosRequest k nFeeRet with
    | .error e => some (.error e)
    | .ok (setCoins, .done d) => some (.ok (setCoins, d))
    | .ok (_, .again nFeeRet) =>
      feeLoop env rand coinControl vecSend nValue nSubtract nChangePosRequest fuel (k + 1) nFeeRet

/-- `MAX_STANDARD_TX_WEIGHT` -/
def maxStandardTxWeight : Nat := 400000

/-- The part after the loop: signing and the limits on size and unconfirmed chains -/
def finishTransaction (env : CreateEnv) (sign : Bool) (setCoins : List InputCoin) (d : Draft) :
    Except CreateFailure Created :=
  let vin := fillVin env.settings.fWalletRbf setCoins
  let tx : CTransaction := ⟨1, vin, d.vout, env.nLockTime⟩
  match (if sign then signInputs (env.produceSignature tx) 0 setCoins vin else some vin) with
  | none => .error (.failed "Signing transaction failed")
  | some vin =>
    let tx : CTransaction := { tx with vin }
    if maxStandardTxWeight ≤ tx.weight then .error (.failed "Transaction too large")
    else if !env.withinChainLimits tx then
      .error (.failed "Transaction has too long of a mempool chain")
    else .ok ⟨tx, setCoins, d.nFeeRet, d.nChangePosInOut⟩

/-- `CreateTransaction`; `none` if the loop goes on for more than `fuel` rounds -/
def createTransaction (env : CreateEnv) (rand : CreateRandom) (coinControl : Option CCoinControl)
    (vecSend : List CRecipient) (nChangePosRequest : Int32) (sign : Bool) (fuel : Nat) :
    Option (Except CreateFailure Created) :=
  match sumRecipients vecSend 0 0 with
  | .error e => some (.error e)
  | .ok (nValue, nSubtract) =>
    if vecSend.isEmpty then
      some (.error (.failed "Transaction must have at least one recipient"))
    else
      (feeLoop env rand coinControl vecSend nValue nSubtract nChangePosRequest fuel 0 0).map
        fun result => result.bind fun r => finishTransaction env sign r.1 r.2

end RgmNode
