import RgmNode.Script.Script
import RgmNode.Primitives.Keys

/-!
# The script interpreter

`EvalScript` of `script/interpreter.cpp`.  Stacks are lists whose head is the top.  A failed
evaluation keeps the stack it left, which `CombineSignatures` reads.
-/

namespace RgmNode

open CScript

/-- `ScriptError`, the values `EvalScript` and `VerifyScript` report -/
inductive ScriptError where
  | unknownError | evalFalse | opReturn | scriptSize | pushSize | opCount | stackSize
  | sigCount | pubkeyCount | verify | equalVerify | checkMultiSigVerify | checkSigVerify
  | numEqualVerify | badOpcode | disabledOpcode | invalidStackOperation
  | invalidAltstackOperation | unbalancedConditional | negativeLocktime
  | unsatisfiedLocktime | sigHashtype | sigDer | minimalData | sigPushOnly | sigHighS
  | sigNullDummy | pubkeyType | cleanStack | minimalIf | sigNullFail
  | discourageUpgradableNops | discourageUpgradableWitnessProgram
  | witnessProgramWrongLength | witnessProgramWitnessEmpty | witnessProgramMismatch
  | witnessMalleated | witnessMalleatedP2SH | witnessUnexpected | witnessPubkeyType
deriving DecidableEq, Repr

/-- `ScriptErrorString` -/
def ScriptError.toText : ScriptError → String
  | .evalFalse =>
    "Script evaluated without error but finished with a false/empty top stack element"
  | .verify => "Script failed an OP_VERIFY operation"
  | .equalVerify => "Script failed an OP_EQUALVERIFY operation"
  | .checkMultiSigVerify => "Script failed an OP_CHECKMULTISIGVERIFY operation"
  | .checkSigVerify => "Script failed an OP_CHECKSIGVERIFY operation"
  | .numEqualVerify => "Script failed an OP_NUMEQUALVERIFY operation"
  | .scriptSize => "Script is too big"
  | .pushSize => "Push value size limit exceeded"
  | .opCount => "Operation limit exceeded"
  | .stackSize => "Stack size limit exceeded"
  | .sigCount => "Signature count negative or greater than pubkey count"
  | .pubkeyCount => "Pubkey count negative or limit exceeded"
  | .badOpcode => "Opcode missing or not understood"
  | .disabledOpcode => "Attempted to use a disabled opcode"
  | .invalidStackOperation => "Operation not valid with the current stack size"
  | .invalidAltstackOperation => "Operation not valid with the current altstack size"
  | .opReturn => "OP_RETURN was encountered"
  | .unbalancedConditional => "Invalid OP_IF construction"
  | .negativeLocktime => "Negative locktime"
  | .unsatisfiedLocktime => "Locktime requirement not satisfied"
  | .sigHashtype => "Signature hash type missing or not understood"
  | .sigDer => "Non-canonical DER signature"
  | .minimalData => "Data push larger than necessary"
  | .sigPushOnly => "Only non-push operators allowed in signatures"
  | .sigHighS => "Non-canonical signature: S value is unnecessarily high"
  | .sigNullDummy => "Dummy CHECKMULTISIG argument must be zero"
  | .minimalIf => "OP_IF/NOTIF argument must be minimal"
  | .sigNullFail => "Signature must be zero for failed CHECK(MULTI)SIG operation"
  | .discourageUpgradableNops => "NOPx reserved for soft-fork upgrades"
  | .discourageUpgradableWitnessProgram => "Witness version reserved for soft-fork upgrades"
  | .pubkeyType => "Public key is neither compressed or uncompressed"
  | .witnessProgramWrongLength => "Witness program has incorrect length"
  | .witnessProgramWitnessEmpty => "Witness program was passed an empty witness"
  | .witnessProgramMismatch => "Witness program hash mismatch"
  | .witnessMalleated => "Witness requires empty scriptSig"
  | .witnessMalleatedP2SH => "Witness requires only-redeemscript scriptSig"
  | .witnessUnexpected => "Witness provided for non-witness script"
  | .witnessPubkeyType => "Using non-compressed keys in segwit"
  | .cleanStack | .unknownError => "unknown error"

inductive VerifyFlag where
  | p2sh | strictEnc | derSig | lowS | nullDummy | sigPushOnly | minimalData
  | discourageUpgradableNops | cleanStack | checkLockTimeVerify | checkSequenceVerify
  | witness | discourageUpgradableWitnessProgram | minimalIf | nullFail | witnessPubkeyType
deriving DecidableEq, Repr

abbrev ScriptFlags := List VerifyFlag

/-- `MANDATORY_SCRIPT_VERIFY_FLAGS` -/
def mandatoryScriptVerifyFlags : ScriptFlags := [.p2sh]

/-- `STANDARD_NOT_MANDATORY_VERIFY_FLAGS` -/
def standardNotMandatoryVerifyFlags : ScriptFlags :=
  [.derSig, .strictEnc, .minimalData, .nullDummy, .discourageUpgradableNops, .cleanStack,
    .minimalIf, .nullFail, .checkLockTimeVerify, .checkSequenceVerify, .lowS, .witness,
    .discourageUpgradableWitnessProgram, .witnessPubkeyType]

/-- `STANDARD_SCRIPT_VERIFY_FLAGS` -/
def standardScriptVerifyFlags : ScriptFlags :=
  mandatoryScriptVerifyFlags ++ standardNotMandatoryVerifyFlags

inductive SigVersion where
  | base
  | witnessV0
deriving DecidableEq, Repr

/-- The virtual functions of `BaseSignatureChecker`. -/
structure SignatureChecker where
  checkSig : (vchSig vchPubKey : Bytes) → (scriptCode : CScript) → SigVersion → Bool
  checkLockTime : Int → Bool
  checkSequence : Int → Bool
  getSigHash : Uint256

/-- `BaseSignatureChecker` itself. -/
def baseSignatureChecker : SignatureChecker :=
  { checkSig := fun _ _ _ _ => false
    checkLockTime := fun _ => false
    checkSequence := fun _ => false
    getSigHash := 0 }

/-- The arguments of `EvalScript` besides stack and script. -/
structure EvalContext where
  cr : Crypto
  sg : Schemes
  flags : ScriptFlags
  checker : SignatureChecker
  sigversion : SigVersion

/-! ## 1. Encodings -/

def isCompressedOrUncompressedPubKey (vchPubKey : Bytes) : Bool :=
  match vchPubKey with
  | 0x04 :: _ => vchPubKey.length = 65
  | 0x02 :: _ => vchPubKey.length = 33
  | 0x03 :: _ => vchPubKey.length = 33
  | _ => false

def isCompressedPubKey (vchPubKey : Bytes) : Bool :=
  vchPubKey.length = 33 && (vchPubKey.getD 0 0 = 0x02 || vchPubKey.getD 0 0 = 0x03)

/-- One of the two integers of a DER signature, of length `len` with first byte at `pos`. -/
def isValidDerInteger (sig : Bytes) (pos len : Nat) : Bool :=
  sig.getD (pos - 2) 0 = 0x02 && len ≠ 0 && sig.getD pos 0 &&& 0x80 = 0 &&
    !(1 < len && sig.getD pos 0 = 0 && sig.getD (pos + 1) 0 &&& 0x80 = 0)

def isValidSignatureEncoding (sig : Bytes) : Bool :=
  let lenR := (sig.getD 3 0).toNat
  let lenS := (sig.getD (5 + lenR) 0).toNat
  9 ≤ sig.length && sig.length ≤ 73 && sig.getD 0 0 = 0x30 &&
    (sig.getD 1 0).toNat = sig.length - 3 && 5 + lenR < sig.length &&
    lenR + lenS + 7 = sig.length && isValidDerInteger sig 4 lenR &&
    isValidDerInteger sig (lenR + 6) lenS

def isDefinedHashtypeSignature (vchSig : Bytes) : Bool :=
  match vchSig.getLast? with
  | none => false
  | some last => 1 ≤ last &&& 0x7f && last &&& 0x7f ≤ 3

/-- `CheckSignatureEncoding`: the error it sets, if any -/
def checkSignatureEncoding (ctx : EvalContext) (vchSig : Bytes) : Option ScriptError :=
  if vchSig.isEmpty then none
  else if (.derSig ∈ ctx.flags ∨ .lowS ∈ ctx.flags ∨ .strictEnc ∈ ctx.flags) ∧
      isValidSignatureEncoding vchSig = false then some .sigDer
  else if .lowS ∈ ctx.flags ∧ ctx.sg.ecCheckLowS vchSig.dropLast = false then some .sigHighS
  else if .strictEnc ∈ ctx.flags ∧ isDefinedHashtypeSignature vchSig = false then
    some .sigHashtype
  else none

/-- `CheckPubKeyEncoding`: the error it sets, if any -/
def checkPubKeyEncoding (ctx : EvalContext) (vchPubKey : Bytes) : Option ScriptError :=
  if .strictEnc ∈ ctx.flags ∧ isCompressedOrUncompressedPubKey vchPubKey = false then
    some .pubkeyType
  else if .witnessPubkeyType ∈ ctx.flags ∧ ctx.sigversion = .witnessV0 ∧
      isCompressedPubKey vchPubKey = false then some .witnessPubkeyType
  else none

/-- The first error of a signature and of the key it is checked with. -/
def checkEncodings (ctx : EvalContext) (vchSig vchPubKey : Bytes) : Option ScriptError :=
  (checkSignatureEncoding ctx vchSig).or (checkPubKeyEncoding ctx vchPubKey)

def checkMinimalPush (data : Bytes) (opcode : UInt8) : Bool :=
  match data with
  | [] => opcode = Opcode.op0
  | [b] =>
    if 1 ≤ b && b ≤ 16 then opcode = 0x50 + b
    else if b = 0x81 then opcode = 0x4f
    else opcode = 1
  | _ =>
    if data.length ≤ 75 then opcode.toNat = data.length
    else if data.length ≤ 255 then opcode = Opcode.pushData1
    else if data.length ≤ 65535 then opcode = Opcode.pushData2
    else true

/-! ## 2. Instructions -/

inductive StackOp where
  | drop2 | dup2 | dup3 | over2 | rot2 | swap2 | ifDup | depth | drop | dup | nip | over | rot
  | swap | tuck | size
deriving DecidableEq, Repr

inductive UnaryOp where
  | add1 | sub1 | negate | abs | not | notEqual0
deriving DecidableEq, Repr

inductive BinaryOp where
  | add | sub | boolAnd | boolOr | numEqual | numEqualVerify | numNotEqual | lessThan
  | greaterThan | lessThanOrEqual | greaterThanOrEqual | min | max
deriving DecidableEq, Repr

inductive HashOp where
  | ripemd160 | sha1 | sha256 | hash160 | hash256
deriving DecidableEq, Repr

/-- What the interpreter does for an opcode above `OP_PUSHDATA4`. -/
inductive Instruction where
  | smallInt (n : Int)
  | nop | checkLockTimeVerify | checkSequenceVerify | upgradableNop
  | ifOp (negated : Bool) | elseOp | endIf | verify | returnOp
  | toAltStack | fromAltStack | stackOp (op : StackOp) | pick | roll
  | equal (andVerify : Bool)
  | unary (op : UnaryOp) | binary (op : BinaryOp) | within
  | hash (op : HashOp) | codeSeparator
  | checkSig (andVerify : Bool) | checkMultiSig (andVerify : Bool)
  | disabled | bad
deriving DecidableEq, Repr

/-- The opcodes of `opcodetype`. -/
def instruction (opcode : UInt8) : Instruction :=
  match opcode.toNat with
  | 0x4f => .smallInt (-1)
  | 0x51 => .smallInt 1 | 0x52 => .smallInt 2 | 0x53 => .smallInt 3 | 0x54 => .smallInt 4
  | 0x55 => .smallInt 5 | 0x56 => .smallInt 6 | 0x57 => .smallInt 7 | 0x58 => .smallInt 8
  | 0x59 => .smallInt 9 | 0x5a => .smallInt 10 | 0x5b => .smallInt 11 | 0x5c => .smallInt 12
  | 0x5d => .smallInt 13 | 0x5e => .smallInt 14 | 0x5f => .smallInt 15 | 0x60 => .smallInt 16
  | 0x61 => .nop
  | 0x63 => .ifOp false | 0x64 => .ifOp true | 0x67 => .elseOp | 0x68 => .endIf
  | 0x69 => .verify | 0x6a => .returnOp
  | 0x6b => .toAltStack | 0x6c => .fromAltStack
  | 0x6d => .stackOp .drop2 | 0x6e => .stackOp .dup2 | 0x6f => .stackOp .dup3
  | 0x70 => .stackOp .over2 | 0x71 => .stackOp .rot2 | 0x72 => .stackOp .swap2
  | 0x73 => .stackOp .ifDup | 0x74 => .stackOp .depth | 0x75 => .stackOp .drop
  | 0x76 => .stackOp .dup | 0x77 => .stackOp .nip | 0x78 => .stackOp .over
  | 0x79 => .pick | 0x7a => .roll
  | 0x7b => .stackOp .rot | 0x7c => .stackOp .swap | 0x7d => .stackOp .tuck
  | 0x7e | 0x7f | 0x80 | 0x81 => .disabled
  | 0x82 => .stackOp .size
  | 0x83 | 0x84 | 0x85 | 0x86 => .disabled
  | 0x87 => .equal false | 0x88 => .equal true
  | 0x8b => .unary .add1 | 0x8c => .unary .sub1
  | 0x8d | 0x8e => .disabled
  | 0x8f => .unary .negate | 0x90 => .unary .abs | 0x91 => .unary .not
  | 0x92 => .unary .notEqual0
  | 0x93 => .binary .add | 0x94 => .binary .sub
  | 0x95 | 0x96 | 0x97 | 0x98 | 0x99 => .disabled
  | 0x9a => .binary .boolAnd | 0x9b => .binary .boolOr | 0x9c => .binary .numEqual
  | 0x9d => .binary .numEqualVerify | 0x9e => .binary .numNotEqual
  | 0x9f => .binary .lessThan | 0xa0 => .binary .greaterThan
  | 0xa1 => .binary .lessThanOrEqual | 0xa2 => .binary .greaterThanOrEqual
  | 0xa3 => .binary .min | 0xa4 => .binary .max
  | 0xa5 => .within
  | 0xa6 => .hash .ripemd160 | 0xa7 => .hash .sha1 | 0xa8 => .hash .sha256
  | 0xa9 => .hash .hash160 | 0xaa => .hash .hash256
  | 0xab => .codeSeparator
  | 0xac => .checkSig false | 0xad => .checkSig true
  | 0xae => .checkMultiSig false | 0xaf => .checkMultiSig true
  | 0xb0 => .upgradableNop
  | 0xb1 => .checkLockTimeVerify | 0xb2 => .checkSequenceVerify
  | 0xb3 | 0xb4 | 0xb5 | 0xb6 | 0xb7 | 0xb8 | 0xb9 => .upgradableNop
  | _ => .bad

/-- The variables of `EvalScript` that change from one instruction to the next. -/
structure Machine where
  stack : List Bytes
  altstack : List Bytes
  /-- `vfExec`, the innermost conditional first -/
  vfExec : List Bool
  nOpCount : Nat
  /-- the script from `pbegincodehash` on -/
  codeHash : CScript
deriving DecidableEq, Repr

/-- What an instruction leaves: a machine, or an error and the stack at that point. -/
abbrev EvalResult := Except (ScriptError × List Bytes) Machine

namespace Machine

def fail (m : Machine) (e : ScriptError) : EvalResult := .error (e, m.stack)

def withStack (m : Machine) (stack : List Bytes) : Machine := { m with stack }

def push (m : Machine) (vch : Bytes) : Machine := m.withStack (vch :: m.stack)

/-- Every enclosing conditional takes the branch it is in. -/
def fExec (m : Machine) : Bool := !m.vfExec.contains false

end Machine

/-- `vchTrue` and `vchFalse` -/
def boolBytes (b : Bool) : Bytes := if b then [1] else []

/-! ## 3. What an instruction does -/

/-- A rearrangement; `none` if the stack is too short. -/
def StackOp.apply : StackOp → List Bytes → Option (List Bytes)
  | .drop2, _ :: _ :: s => some s
  | .dup2, x2 :: x1 :: s => some (x2 :: x1 :: x2 :: x1 :: s)
  | .dup3, x3 :: x2 :: x1 :: s => some (x3 :: x2 :: x1 :: x3 :: x2 :: x1 :: s)
  | .over2, x4 :: x3 :: x2 :: x1 :: s => some (x2 :: x1 :: x4 :: x3 :: x2 :: x1 :: s)
  | .rot2, x6 :: x5 :: x4 :: x3 :: x2 :: x1 :: s => some (x2 :: x1 :: x6 :: x5 :: x4 :: x3 :: s)
  | .swap2, x4 :: x3 :: x2 :: x1 :: s => some (x2 :: x1 :: x4 :: x3 :: s)
  | .ifDup, x :: s => some (if castToBool x then x :: x :: s else x :: s)
  | .depth, s => some (CScriptNum.serialize s.length :: s)
  | .drop, _ :: s => some s
  | .dup, x :: s => some (x :: x :: s)
  | .nip, x2 :: _ :: s => some (x2 :: s)
  | .over, x2 :: x1 :: s => some (x1 :: x2 :: x1 :: s)
  | .rot, x3 :: x2 :: x1 :: s => some (x1 :: x3 :: x2 :: s)
  | .swap, x2 :: x1 :: s => some (x1 :: x2 :: s)
  | .tuck, x2 :: x1 :: s => some (x2 :: x1 :: x2 :: s)
  | .size, x :: s => some (CScriptNum.serialize x.length :: x :: s)
  | _, _ => none

def UnaryOp.apply (bn : Int) : UnaryOp → Int
  | .add1 => bn + 1
  | .sub1 => bn - 1
  | .negate => -bn
  | .abs => if bn < 0 then -bn else bn
  | .not => if bn = 0 then 1 else 0
  | .notEqual0 => if bn ≠ 0 then 1 else 0

def BinaryOp.apply (bn1 bn2 : Int) : BinaryOp → Int
  | .add => bn1 + bn2
  | .sub => bn1 - bn2
  | .boolAnd => if bn1 ≠ 0 ∧ bn2 ≠ 0 then 1 else 0
  | .boolOr => if bn1 ≠ 0 ∨ bn2 ≠ 0 then 1 else 0
  | .numEqual => if bn1 = bn2 then 1 else 0
  | .numEqualVerify => if bn1 = bn2 then 1 else 0
  | .numNotEqual => if bn1 ≠ bn2 then 1 else 0
  | .lessThan => if bn1 < bn2 then 1 else 0
  | .greaterThan => if bn1 > bn2 then 1 else 0
  | .lessThanOrEqual => if bn1 ≤ bn2 then 1 else 0
  | .greaterThanOrEqual => if bn1 ≥ bn2 then 1 else 0
  | .min => if bn1 < bn2 then bn1 else bn2
  | .max => if bn1 > bn2 then bn1 else bn2

def HashOp.apply (cr : Crypto) (vch : Bytes) : HashOp → Bytes
  | .ripemd160 => (cr.ripemd160 vch).bytes
  | .sha1 => (cr.sha1 vch).bytes
  | .sha256 => (cr.sha256 vch).bytes
  | .hash160 => (cr.hash160 vch).bytes
  | .hash256 => (cr.hash256 vch).bytes

/-- `OP_CHECKLOCKTIMEVERIFY` and `OP_CHECKSEQUENCEVERIFY`: `enabled` is the flag, `check` what
the operand has to pass. -/
def execLock (ctx : EvalContext) (m : Machine) (enabled : VerifyFlag) (check : Int → Bool) :
    EvalResult :=
  if enabled ∉ ctx.flags then
    if .discourageUpgradableNops ∈ ctx.flags then m.fail .discourageUpgradableNops else .ok m
  else
    match m.stack with
    | [] => m.fail .invalidStackOperation
    | top :: _ =>
      match CScriptNum.ofVch top (.minimalData ∈ ctx.flags) 5 with
      | none => m.fail .unknownError
      | some n =>
        if n < 0 then m.fail .negativeLocktime
        else if check n then .ok m
        else m.fail .unsatisfiedLocktime

/-- The argument of `OP_IF` in a witness script is empty or 1. -/
def violatesMinimalIf (ctx : EvalContext) (vch : Bytes) : Bool :=
  ctx.sigversion = .witnessV0 && .minimalIf ∈ ctx.flags && vch ≠ [] && vch ≠ [1]

def execIf (ctx : EvalContext) (m : Machine) (negated : Bool) : EvalResult :=
  if m.fExec then
    match m.stack with
    | [] => m.fail .unbalancedConditional
    | vch :: s =>
      if violatesMinimalIf ctx vch then m.fail .minimalIf
      else .ok { m with stack := s, vfExec := (castToBool vch ^^ negated) :: m.vfExec }
  else .ok { m with vfExec := false :: m.vfExec }

/-- `OP_PICK` and `OP_ROLL` -/
def execPick (ctx : EvalContext) (m : Machine) (remove : Bool) : EvalResult :=
  match m.stack with
  | top :: x :: s =>
    match CScriptNum.ofVch top (.minimalData ∈ ctx.flags) with
    | none => m.fail .unknownError
    | some n =>
      match if n < 0 then none else (x :: s)[n.toNat]? with
      | none => (m.withStack (x :: s)).fail .invalidStackOperation
      | some vch =>
        .ok (m.withStack (vch :: if remove then (x :: s).eraseIdx n.toNat else x :: s))
  | _ => m.fail .invalidStackOperation

/-- Put the result of a comparison on the stack; the `VERIFY` forms take a true one off. -/
def pushBool (m : Machine) (s : List Bytes) (value andVerify : Bool) (e : ScriptError) :
    EvalResult :=
  if andVerify then
    if value then .ok (m.withStack s) else (m.withStack (boolBytes false :: s)).fail e
  else .ok (m.withStack (boolBytes value :: s))

def execUnary (ctx : EvalContext) (m : Machine) (op : UnaryOp) : EvalResult :=
  match m.stack with
  | [] => m.fail .invalidStackOperation
  | top :: s =>
    match CScriptNum.ofVch top (.minimalData ∈ ctx.flags) with
    | none => m.fail .unknownError
    | some bn => .ok (m.withStack (CScriptNum.serialize (op.apply bn) :: s))

def execBinary (ctx : EvalContext) (m : Machine) (op : BinaryOp) : EvalResult :=
  match m.stack with
  | x2 :: x1 :: s =>
    match CScriptNum.ofVch x1 (.minimalData ∈ ctx.flags),
        CScriptNum.ofVch x2 (.minimalData ∈ ctx.flags) with
    | some bn1, some bn2 =>
      let bn := op.apply bn1 bn2
      if op = .numEqualVerify then pushBool m s (bn ≠ 0) true .numEqualVerify
      else .ok (m.withStack (CScriptNum.serialize bn :: s))
    | _, _ => m.fail .unknownError
  | _ => m.fail .invalidStackOperation

def execWithin (ctx : EvalContext) (m : Machine) : EvalResult :=
  match m.stack with
  | x3 :: x2 :: x1 :: s =>
    match CScriptNum.ofVch x1 (.minimalData ∈ ctx.flags),
        CScriptNum.ofVch x2 (.minimalData ∈ ctx.flags),
        CScriptNum.ofVch x3 (.minimalData ∈ ctx.flags) with
    | some bn1, some bn2, some bn3 =>
      .ok (m.withStack (boolBytes (bn2 ≤ bn1 && bn1 < bn3) :: s))
    | _, _, _ => m.fail .unknownError
  | _ => m.fail .invalidStackOperation

/-- The script a signature commits to: without the signatures, except in a witness script. -/
def signedCode (ctx : EvalContext) (m : Machine) (sigs : List Bytes) : CScript :=
  match ctx.sigversion with
  | .base => sigs.foldl (fun code sig => code.findAndDelete (pushData sig)) m.codeHash
  | .witnessV0 => m.codeHash

def execCheckSig (ctx : EvalContext) (m : Machine) (andVerify : Bool) : EvalResult :=
  match m.stack with
  | vchPubKey :: vchSig :: s =>
    match checkEncodings ctx vchSig vchPubKey with
    | some e => m.fail e
    | none =>
      let fSuccess :=
        ctx.checker.checkSig vchSig vchPubKey (signedCode ctx m [vchSig]) ctx.sigversion
      if !fSuccess && .nullFail ∈ ctx.flags && !vchSig.isEmpty then m.fail .sigNullFail
      else pushBool m s fSuccess andVerify .checkSigVerify
  | _ => m.fail .invalidStackOperation

/-- The loop of `OP_CHECKMULTISIG`: each signature is tried with the keys left, until there
are fewer keys than signatures. -/
def checkMultiSigLoop (ctx : EvalContext) (scriptCode : CScript) :
    List Bytes → List Bytes → Except ScriptError Bool
  | [], _ => .ok true
  | _ :: _, [] => .ok false
  | vchSig :: sigs, vchPubKey :: keys =>
    match checkEncodings ctx vchSig vchPubKey with
    | some e => .error e
    | none =>
      let left :=
        if ctx.checker.checkSig vchSig vchPubKey scriptCode ctx.sigversion then sigs
        else vchSig :: sigs
      if keys.length < left.length then .ok false
      else checkMultiSigLoop ctx scriptCode left keys
termination_by structural _ keys => keys

/-- `OP_CHECKMULTISIG` once its arguments are taken apart: `s` is the stack below the
signatures, which starts with the extra element. -/
def finishMultiSig (ctx : EvalContext) (m : Machine) (andVerify : Bool)
    (keys sigs s : List Bytes) : EvalResult :=
  match checkMultiSigLoop ctx (signedCode ctx m sigs) sigs keys with
  | .error e => m.fail e
  | .ok fSuccess =>
    if !fSuccess && .nullFail ∈ ctx.flags && sigs.any (!·.isEmpty) then
      (m.withStack (sigs.dropWhile (·.isEmpty) ++ s)).fail .sigNullFail
    else
      match s with
      | [] => (m.withStack []).fail .invalidStackOperation
      | dummy :: s =>
        if .nullDummy ∈ ctx.flags && !dummy.isEmpty then
          (m.withStack (dummy :: s)).fail .sigNullDummy
        else pushBool m s fSuccess andVerify .checkMultiSigVerify

/-- `OP_CHECKMULTISIG` from the count of signatures on. -/
def execSigs (ctx : EvalContext) (m : Machine) (andVerify : Bool) (keys : List Bytes) :
    List Bytes → EvalResult
  | [] => m.fail .invalidStackOperation
  | top :: s =>
    match CScriptNum.ofVch top (.minimalData ∈ ctx.flags) with
    | none => m.fail .unknownError
    | some nSigsCount =>
      if nSigsCount < 0 || keys.length < nSigsCount then m.fail .sigCount
      else if s.length < nSigsCount.toNat + 1 then m.fail .invalidStackOperation
      else finishMultiSig ctx m andVerify keys (s.take nSigsCount.toNat) (s.drop nSigsCount.toNat)

def execCheckMultiSig (ctx : EvalContext) (m : Machine) (andVerify : Bool) : EvalResult :=
  match m.stack with
  | [] => m.fail .invalidStackOperation
  | top :: s =>
    match CScriptNum.ofVch top (.minimalData ∈ ctx.flags) with
    | none => m.fail .unknownError
    | some nKeysCount =>
      if nKeysCount < 0 || maxPubkeysPerMultisig < nKeysCount then m.fail .pubkeyCount
      else
        let m := { m with nOpCount := m.nOpCount + nKeysCount.toNat }
        if maxOpsPerScript < m.nOpCount then m.fail .opCount
        else if s.length < nKeysCount.toNat + 1 then m.fail .invalidStackOperation
        else execSigs ctx m andVerify (s.take nKeysCount.toNat) (s.drop nKeysCount.toNat)

/-- The `switch` of `EvalScript`; `pc` is the script behind the instruction. -/
def execute (ctx : EvalContext) (m : Machine) (pc : CScript) : Instruction → EvalResult
  | .smallInt n => .ok (m.push (CScriptNum.serialize n))
  | .nop => .ok m
  | .checkLockTimeVerify => execLock ctx m .checkLockTimeVerify ctx.checker.checkLockTime
  | .checkSequenceVerify =>
    -- an operand with the disable flag (bit 31) is not checked
    execLock ctx m .checkSequenceVerify fun n =>
      n.toNat.testBit 31 || ctx.checker.checkSequence n
  | .upgradableNop =>
    if .discourageUpgradableNops ∈ ctx.flags then m.fail .discourageUpgradableNops else .ok m
  | .ifOp negated => execIf ctx m negated
  | .elseOp =>
    match m.vfExec with
    | [] => m.fail .unbalancedConditional
    | b :: vfExec => .ok { m with vfExec := (!b) :: vfExec }
  | .endIf =>
    match m.vfExec with
    | [] => m.fail .unbalancedConditional
    | _ :: vfExec => .ok { m with vfExec }
  | .verify =>
    match m.stack with
    | [] => m.fail .invalidStackOperation
    | vch :: s => if castToBool vch then .ok (m.withStack s) else m.fail .verify
  | .returnOp => m.fail .opReturn
  | .toAltStack =>
    match m.stack with
    | [] => m.fail .invalidStackOperation
    | vch :: s => .ok { m with stack := s, altstack := vch :: m.altstack }
  | .fromAltStack =>
    match m.altstack with
    | [] => m.fail .invalidAltstackOperation
    | vch :: altstack => .ok { m with stack := vch :: m.stack, altstack }
  | .stackOp op =>
    match op.apply m.stack with
    | none => m.fail .invalidStackOperation
    | some s => .ok (m.withStack s)
  | .pick => execPick ctx m false
  | .roll => execPick ctx m true
  | .equal andVerify =>
    match m.stack with
    | x2 :: x1 :: s => pushBool m s (x1 = x2) andVerify .equalVerify
    | _ => m.fail .invalidStackOperation
  | .unary op => execUnary ctx m op
  | .binary op => execBinary ctx m op
  | .within => execWithin ctx m
  | .hash op =>
    match m.stack with
    | [] => m.fail .invalidStackOperation
    | vch :: s => .ok (m.withStack (op.apply ctx.cr vch :: s))
  | .codeSeparator => .ok { m with codeHash := pc }
  | .checkSig andVerify => execCheckSig ctx m andVerify
  | .checkMultiSig andVerify => execCheckMultiSig ctx m andVerify
  | .disabled => m.fail .disabledOpcode
  | .bad => m.fail .badOpcode

/-! ## 4. Scripts -/

/-- An instruction above `OP_16` counts towards the limit. -/
def countOp (m : Machine) (opcode : UInt8) : Machine :=
  if Opcode.op16 < opcode then { m with nOpCount := m.nOpCount + 1 } else m

/-- One round of the loop of `EvalScript`, after `GetOp`. -/
def evalOp (ctx : EvalContext) (opcode : UInt8) (data : Bytes) (pc : CScript) (m : Machine) :
    EvalResult :=
  let counted := countOp m opcode
  if maxScriptElementSize < data.length then m.fail .pushSize
  else if Opcode.op16 < opcode && maxOpsPerScript < counted.nOpCount then m.fail .opCount
  else if instruction opcode = .disabled then m.fail .disabledOpcode
  else if m.fExec && opcode ≤ Opcode.pushData4 then
    if .minimalData ∈ ctx.flags && !checkMinimalPush data opcode then m.fail .minimalData
    else .ok (counted.push data)
  else if m.fExec || (0x63 ≤ opcode && opcode ≤ 0x68) then
    execute ctx counted pc (instruction opcode)
  else .ok counted

/-- The loop of `EvalScript`; every round takes a byte of the script. -/
def evalLoop (ctx : EvalContext) : Nat → CScript → Machine → EvalResult
  | _, [], m => .ok m
  | 0, _ :: _, m => m.fail .unknownError
  | rounds + 1, pc, m =>
    match pc.getOp with
    | .error _ => m.fail .badOpcode
    | .ok (opcode, data, pc) =>
      match evalOp ctx opcode data pc m with
      | .error e => .error e
      | .ok m =>
        if 1000 < m.stack.length + m.altstack.length then m.fail .stackSize
        else evalLoop ctx rounds pc m

/-- `EvalScript`: the stack it leaves, or an error with the stack at that point. -/
def evalScript (ctx : EvalContext) (stack : List Bytes) (script : CScript) :
    Except (ScriptError × List Bytes) (List Bytes) :=
  if maxScriptSize < script.length then .error (.scriptSize, stack)
  else
    match evalLoop ctx script.length script ⟨stack, [], [], 0, script⟩ with
    | .error e => .error e
    | .ok m => if m.vfExec.isEmpty then .ok m.stack else .error (.unbalancedConditional, m.stack)

/-! ## 5. The loop without its counter -/

section Rounds

variable {ctx : EvalContext}

/-- The loop from `pc` on, with enough rounds. -/
def evalFrom (ctx : EvalContext) (pc : CScript) (m : Machine) : EvalResult :=
  evalLoop ctx pc.length pc m

@[simp] theorem evalFrom_nil (m : Machine) : evalFrom ctx [] m = .ok m := rfl

theorem evalLoop_eq_evalFrom {rounds : Nat} {pc : CScript} (h : pc.length ≤ rounds)
    (m : Machine) : evalLoop ctx rounds pc m = evalFrom ctx pc m := by
  -- two runs with enough rounds agree, by induction on the rounds of the first
  have hboth : ∀ n k (q : CScript) (m : Machine), q.length ≤ n → q.length ≤ k →
      evalLoop ctx n q m = evalLoop ctx k q m := by
    intro n
    induction n with
    | zero =>
      intro k q m hn _
      obtain rfl := List.length_eq_zero_iff.mp (Nat.le_zero.mp hn)
      simp [evalLoop]
    | succ n ih =>
      intro k q m hn hk
      cases q with
      | nil => simp [evalLoop]
      | cons b q =>
        cases k with
        | zero => simp at hk
        | succ k =>
          simp only [evalLoop]
          cases hop : getOp (b :: q) with
          | error e => rfl
          | ok r =>
            obtain ⟨opcode, data, rest⟩ := r
            have hlt := length_getOp hop
            have hstep : ∀ m', evalLoop ctx n rest m' = evalLoop ctx k rest m' :=
              fun m' => ih k rest m' (by omega) (by omega)
            simp only [hstep]
  exact hboth _ _ pc m h le_rfl

/-- How the loop goes on after an instruction: the size of the stacks is limited. -/
def resume (ctx : EvalContext) (pc : CScript) : EvalResult → EvalResult
  | .error e => .error e
  | .ok m =>
    if 1000 < m.stack.length + m.altstack.length then m.fail .stackSize else evalFrom ctx pc m

theorem evalFrom_of_getOp {pc rest : CScript} {opcode : UInt8} {data : Bytes} (m : Machine)
    (h : pc.getOp = .ok (opcode, data, rest)) :
    evalFrom ctx pc m = resume ctx rest (evalOp ctx opcode data rest m) := by
  have hlt := length_getOp h
  cases pc with
  | nil => cases h
  | cons b q =>
    have hrest : ∀ m', evalLoop ctx q.length rest m' = evalFrom ctx rest m' :=
      evalLoop_eq_evalFrom (Nat.lt_succ_iff.mp hlt)
    show evalLoop ctx (q.length + 1) (b :: q) m = _
    simp only [evalLoop, h, hrest]
    cases evalOp ctx opcode data rest m <;> rfl

theorem resume_eq_ok_iff {pc : CScript} {r : EvalResult} {m : Machine} :
    resume ctx pc r = .ok m ↔
      ∃ m', r = .ok m' ∧ m'.stack.length + m'.altstack.length ≤ 1000 ∧
        evalFrom ctx pc m' = .ok m := by
  cases r with
  | error e => exact ⟨nofun, (by rintro ⟨_, ⟨⟩, -⟩)⟩
  | ok m' =>
    rw [resume]
    split
    · next hsize =>
      refine ⟨nofun, ?_⟩
      rintro ⟨_, ⟨⟩, hle, -⟩
      exact absurd hle (not_le.mpr hsize)
    · next hsize =>
      constructor
      · exact fun h => ⟨m', rfl, Nat.le_of_not_lt hsize, h⟩
      · rintro ⟨_, ⟨⟩, -, h⟩
        exact h

theorem resume_nil_eq_ok_iff {r : EvalResult} {m : Machine} :
    resume ctx [] r = .ok m ↔ r = .ok m ∧ m.stack.length + m.altstack.length ≤ 1000 := by
  rw [resume_eq_ok_iff]
  constructor
  · rintro ⟨m', rfl, hle, ⟨⟩⟩
    exact ⟨rfl, hle⟩
  · exact fun ⟨hr, hle⟩ => ⟨m, hr, hle, rfl⟩

/-- An instruction above `OP_16` outside of every conditional. -/
theorem evalFrom_op {opcode : UInt8} {rest : CScript} {m : Machine} (hexec : m.vfExec = [])
    (hop : Opcode.op16 < opcode) (hlive : instruction opcode ≠ .disabled)
    (hcount : m.nOpCount < maxOpsPerScript) :
    evalFrom ctx (opcode :: rest) m =
      resume ctx rest (execute ctx { m with nOpCount := m.nOpCount + 1 } rest
        (instruction opcode)) := by
  have hfExec : m.fExec = true := by simp [Machine.fExec, hexec]
  have hpush : ¬ opcode ≤ Opcode.pushData4 := by
    have hlt : 96 < opcode.toNat := UInt8.lt_iff_toNat_lt.mp hop
    show ¬ opcode.toNat ≤ 78
    omega
  have hget : getOp (opcode :: rest) = .ok (opcode, [], rest) := by
    simp only [getOp, hpush, if_false]
  rw [evalFrom_of_getOp m hget]
  congr 1
  simp [evalOp, countOp, hop, hlive, hpush, hfExec, not_lt.mpr (Nat.succ_le_of_lt hcount)]

/-- A script that is evaluated: its loop ends outside of every conditional. -/
theorem evalScript_eq_ok_iff {stack out : List Bytes} {script : CScript} :
    evalScript ctx stack script = .ok out ↔
      script.length ≤ maxScriptSize ∧
        ∃ m, evalFrom ctx script ⟨stack, [], [], 0, script⟩ = .ok m ∧ m.vfExec = [] ∧
          m.stack = out := by
  rw [evalScript]
  split
  · next hsize => exact ⟨nofun, fun h => absurd h.1 (by omega)⟩
  next hsize =>
  show (match evalFrom ctx script ⟨stack, [], [], 0, script⟩ with
    | .error e => .error e
    | .ok m => if m.vfExec.isEmpty then .ok m.stack
      else .error (.unbalancedConditional, m.stack)) = Except.ok out ↔ _
  cases hrun : evalFrom ctx script ⟨stack, [], [], 0, script⟩ with
  | error e => exact ⟨nofun, (by rintro ⟨-, _, ⟨⟩, -⟩)⟩
  | ok m =>
    dsimp only
    split
    · next hend =>
      rw [List.isEmpty_iff] at hend
      constructor
      · rintro ⟨⟩
        exact ⟨Nat.le_of_not_lt hsize, m, rfl, hend, rfl⟩
      · rintro ⟨-, _, ⟨⟩, -, rfl⟩
        rfl
    · next hend =>
      refine ⟨nofun, ?_⟩
      rintro ⟨-, _, ⟨⟩, hnil, -⟩
      exact absurd (List.isEmpty_iff.mpr hnil) hend

end Rounds

end RgmNode
