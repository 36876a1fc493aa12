import RgmNode.Script.Standard

/-!
# Destinations and their scripts

`CTxDestination`, `ExtractDestination` and `GetScriptForDestination` of `script/standard.cpp`.
-/

namespace RgmNode

open UInt8 Opcode Uint256

/-! ## 1. The code -/

/-- `WitnessUnknown`; of the array of 40 bytes the first `length` count. -/
structure WitnessUnknown where
  version : Nat
  program : Bytes
  length_le : program.length ≤ 40
deriving DecidableEq

inductive CTxDestination where
  | noDestination
  | keyID (hash : Uint160)
  | scriptID (hash : Uint160)
  | witnessV0KeyHash (hash : Uint160)
  | witnessV0ScriptHash (hash : Uint256)
  | witnessUnknown (id : WitnessUnknown)
deriving DecidableEq

namespace CTxDestination

/-- The copy of a program into a `WitnessUnknown`, which has room for 40 bytes. -/
def unknown (version : Nat) (program : Bytes) : Option CTxDestination :=
  if h : program.length ≤ 40 then some (.witnessUnknown ⟨version, program, h⟩) else none

def extractDestination (cr : Crypto) (scriptPubKey : CScript) : Option CTxDestination :=
  let ⟨solved, whichType, vSolutions⟩ := solver scriptPubKey
  if solved then
    match whichType with
    | some .pubKey =>
      let pubKey := CPubKey.ofBytes (vSolutions.getD 0 [])
      if pubKey.isValid then some (.keyID (pubKey.getID cr)) else none
    | some .pubKeyHash => some (.keyID (Uint160.ofBytes (vSolutions.getD 0 [])))
    | some .scriptHash => some (.scriptID (Uint160.ofBytes (vSolutions.getD 0 [])))
    | some .witnessV0KeyHash => some (.witnessV0KeyHash (Uint160.ofBytes (vSolutions.getD 0 [])))
    | some .witnessV0ScriptHash =>
      some (.witnessV0ScriptHash (ofBytes (vSolutions.getD 0 [])))
    | some .witnessV2PQKeyHash => unknown 2 (vSolutions.getD 0 [])
    | some .witnessUnknown => unknown (firstByte (vSolutions.getD 0 [])) (vSolutions.getD 1 [])
    -- multisig outputs have more than one address
    | _ => none
  else none

/-- `GetScriptForDestination`; `none` where the assertion of `EncodeOP_N` fails. -/
def getScriptForDestination : CTxDestination → Option CScript
  | .noDestination => some []
  | .keyID hash => some (CScript.payToPubkeyHash hash.bytes)
  | .scriptID hash => some (CScript.payToScriptHash hash)
  | .witnessV0KeyHash hash => some ([Opcode.op0] ++ CScript.pushData hash.bytes)
  | .witnessV0ScriptHash hash => some ([Opcode.op0] ++ CScript.pushData hash.bytes)
  | .witnessUnknown id =>
    if id.version ≤ 16 then some ([Opcode.encodeOpN id.version] ++ CScript.pushData id.program)
    else none

end CTxDestination

/-! ## 2. Scripts of witness programs -/

namespace CScript

variable {version : Nat} {program : Bytes}

theorem isWitnessProgram_length {s : CScript} (h : s.isWitnessProgram = some (version, program)) :
    2 ≤ program.length ∧ program.length ≤ 40 := by
  unfold isWitnessProgram at h
  split at h
  · next opcode size rest =>
    split at h
    · cases h
    next hlen =>
    split at h
    · cases h
    split at h
    · obtain ⟨-, rfl⟩ := Prod.mk.inj (Option.some.inj h)
      simp only [Bool.or_eq_true, decide_eq_true_eq] at hlen
      omega
    · cases h
  · cases h

/-- `OP_0` or `OP_1` to `OP_16`, and the program -/
def witnessProgram (version : Nat) (program : Bytes) : CScript :=
  [Opcode.encodeOpN version] ++ pushData program

theorem witnessProgram_eq (h : program.length ≤ 40) :
    witnessProgram version program =
      encodeOpN version :: ofNat program.length :: program := by
  rw [witnessProgram, pushData, if_pos (lt_of_le_of_lt h (by decide))]
  rfl

end CScript

theorem Opcode.encodeOpN_decodeOpN {opcode : UInt8}
    (h : opcode = op0 ∨ op1 ≤ opcode ∧ opcode ≤ op16) :
    encodeOpN (decodeOpN opcode) = opcode ∧ decodeOpN opcode ≤ 16 := by
  rcases h with rfl | ⟨hlow, hhigh⟩
  · decide
  · have hlow' : 0x51 ≤ opcode.toNat := le_iff_toNat_le.mp hlow
    have hhigh' : opcode.toNat ≤ 0x60 := le_iff_toNat_le.mp hhigh
    have hne : opcode ≠ op0 := by
      rintro rfl
      exact absurd hlow' (by decide)
    have hpos : opcode.toNat - 0x50 ≠ 0 := by omega
    have hback : 0x50 + (opcode.toNat - 0x50) = opcode.toNat := by omega
    rw [decodeOpN, if_neg hne, encodeOpN, if_neg hpos, hback, UInt8.ofNat_toNat]
    exact ⟨rfl, by omega⟩

theorem Opcode.decodeOpN_encodeOpN {n : Nat} (h : n ≤ 16) : decodeOpN (encodeOpN n) = n := by
  have hall : ∀ n : Fin 17, decodeOpN (encodeOpN n) = n := by decide
  exact hall ⟨n, Nat.lt_succ_of_le h⟩

theorem Opcode.encodeOpN_range {n : Nat} (h : n ≤ 16) :
    encodeOpN n = op0 ∨ op1 ≤ encodeOpN n ∧ encodeOpN n ≤ op16 := by
  have hall : ∀ n : Fin 17, encodeOpN n = op0 ∨ op1 ≤ encodeOpN n ∧ encodeOpN n ≤ op16 := by decide
  exact hall ⟨n, Nat.lt_succ_of_le h⟩

namespace CScript

variable {version : Nat} {program : Bytes}

/-- The witness programs are the scripts that push a version and a program. -/
theorem isWitnessProgram_iff {s : CScript} : s.isWitnessProgram = some (version, program) ↔
    version ≤ 16 ∧ 2 ≤ program.length ∧ program.length ≤ 40 ∧ s = witnessProgram version program := by
  constructor
  · intro h
    obtain ⟨hmin, hmax⟩ := isWitnessProgram_length h
    obtain ⟨opcode, rfl, rfl, hop⟩ := isWitnessProgram_eq_some h
    obtain ⟨hback, hle⟩ := encodeOpN_decodeOpN hop
    refine ⟨hle, hmin, hmax, ?_⟩
    rw [witnessProgram_eq hmax, hback]
  · rintro ⟨hversion, hmin, hmax, rfl⟩
    have hsize : (ofNat program.length).toNat = program.length := by
      rw [toNat_ofNat']
      omega
    have hlen : ¬ (decide (program.length + 2 < 4) || decide (42 < program.length + 2)) = true := by
      simp only [Bool.or_eq_true, decide_eq_true_eq]
      omega
    have hop : ¬ (decide (encodeOpN version ≠ op0) &&
        (decide (encodeOpN version < op1) ||
          decide (op16 < encodeOpN version))) = true := by
      simp only [Bool.and_eq_true, Bool.or_eq_true, decide_eq_true_eq]
      rintro ⟨hne, hout⟩
      obtain ⟨hlow, hhigh⟩ := (encodeOpN_range hversion).resolve_left hne
      exact hout.elim (UInt8.not_lt.mpr hlow) (UInt8.not_lt.mpr hhigh)
    rw [witnessProgram_eq hmax, isWitnessProgram, if_neg hlen, if_neg hop, if_pos hsize,
      decodeOpN_encodeOpN hversion]

theorem isWitnessProgram_witnessProgram (hversion : version ≤ 16) (hmin : 2 ≤ program.length)
    (hmax : program.length ≤ 40) :
    (witnessProgram version program).isWitnessProgram = some (version, program) :=
  isWitnessProgram_iff.mpr ⟨hversion, hmin, hmax, rfl⟩

/-- A script hash is not pushed by a number. -/
theorem isPayToScriptHash_of_isWitnessProgram {s : CScript}
    (h : s.isWitnessProgram = some (version, program)) : s.isPayToScriptHash = false := by
  by_contra hne
  obtain ⟨hash, rfl⟩ := isPayToScriptHash_iff_exists.mp (eq_true_of_ne_false hne)
  cases h

end CScript

open CScript

theorem solver_of_isWitnessProgram {s : CScript} {version : Nat} {program : Bytes}
    (h : s.isWitnessProgram = some (version, program)) :
    solver s = solveWitnessProgram version program := by
  rw [solver, if_neg (ne_true_of_eq_false (isPayToScriptHash_of_isWitnessProgram h)), h]

/-- What `Solver` can make of a script: a script hash, a witness program, or a type without
either. -/
theorem solver_cases (s : CScript) :
    (∃ hash : Uint160, s = payToScriptHash hash) ∨
      (∃ version program, s.isWitnessProgram = some (version, program)) ∨
      (solver s).typeRet ∈ [some .nullData, some .pubKey, some .pubKeyHash, some .multiSig,
        some TxnOutType.nonStandard] := by
  cases hhash : s.isPayToScriptHash with
  | true => exact .inl (isPayToScriptHash_iff_exists.mp hhash)
  | false =>
    cases hprog : s.isWitnessProgram with
    | some p => exact .inr (.inl ⟨p.1, p.2, rfl⟩)
    | none =>
      refine .inr (.inr ?_)
      rw [solver, if_neg (ne_true_of_eq_false hhash), hprog]
      dsimp only
      split
      · exact List.mem_cons_self
      · rcases typeRet_solveTemplates s with ht | ht | ht | ht <;> rw [ht] <;> decide

/-! ## 3. From a destination to its script and back -/

namespace CTxDestination

variable {cr : Crypto} {d : CTxDestination} {script : CScript}

/-- The destinations that have a script: keys, scripts, and witness programs of the lengths and
versions that a script can have. -/
def Scriptable : CTxDestination → Prop
  | .noDestination => False
  | .keyID _ | .scriptID _ | .witnessV0KeyHash _ | .witnessV0ScriptHash _ => True
  | .witnessUnknown id => 1 ≤ id.version ∧ id.version ≤ 16 ∧ 2 ≤ id.program.length

def ofProgram (version : Nat) (program : Bytes) : Option CTxDestination :=
  if version = 0 then
    if program.length = 20 then some (.witnessV0KeyHash (Uint160.ofBytes program))
    else if program.length = 32 then some (.witnessV0ScriptHash (ofBytes program))
    else none
  else unknown version program

theorem extractDestination_of_isWitnessProgram {version : Nat} {program : Bytes}
    (h : script.isWitnessProgram = some (version, program)) :
    extractDestination cr script = ofProgram version program := by
  obtain ⟨hversion, -, -, -⟩ := isWitnessProgram_iff.mp h
  rw [extractDestination, solver_of_isWitnessProgram h, solveWitnessProgram, ofProgram]
  by_cases hzero : version = 0
  · subst hzero
    by_cases h20 : program.length = 20
    · simp [h20]
    · by_cases h32 : program.length = 32
      · simp [h32]
      · simp [h20, h32]
  · have hfirst : firstByte [ofNat version] = version := by
      show (ofNat version).toNat = version
      rw [toNat_ofNat']
      omega
    by_cases hpq : version = 2 ∧ program.length = 20
    · simp [hpq]
    · simp [hzero, hpq, hfirst]

theorem extractDestination_witnessProgram {version : Nat} {program : Bytes} (hversion : version ≤ 16)
    (hmin : 2 ≤ program.length) (hmax : program.length ≤ 40) :
    extractDestination cr (witnessProgram version program) = ofProgram version program :=
  extractDestination_of_isWitnessProgram (isWitnessProgram_witnessProgram hversion hmin hmax)

theorem extractDestination_payToScriptHash (hash : Uint160) :
    extractDestination cr (payToScriptHash hash) = some (.scriptID hash) := by
  exact congrArg (fun x => some (scriptID x)) (Uint160.ofBytes_bytes hash)

theorem extractDestination_getScript (h : d.Scriptable) :
    ∃ script, getScriptForDestination d = some script ∧ extractDestination cr script = some d := by
  cases d with
  | noDestination => exact absurd h id
  | keyID hash =>
    refine ⟨_, rfl, ?_⟩
    exact congrArg (fun x => some (keyID x)) (Uint160.ofBytes_bytes hash)
  | scriptID hash => exact ⟨_, rfl, extractDestination_payToScriptHash hash⟩
  | witnessV0KeyHash hash =>
    have hlen := Uint160.length_bytes hash
    refine ⟨witnessProgram 0 hash.bytes, rfl, ?_⟩
    rw [extractDestination_witnessProgram (Nat.zero_le 16) (by omega) (by omega), ofProgram,
      if_pos rfl, if_pos hlen, Uint160.ofBytes_bytes]
  | witnessV0ScriptHash hash =>
    have hlen := length_bytes hash
    refine ⟨witnessProgram 0 hash.bytes, rfl, ?_⟩
    rw [extractDestination_witnessProgram (Nat.zero_le 16) (by omega) (by omega), ofProgram,
      if_pos rfl, if_neg (by omega), if_pos hlen, ofBytes_bytes]
  | witnessUnknown id =>
    obtain ⟨hone, hversion, hmin⟩ := h
    refine ⟨witnessProgram id.version id.program, if_pos hversion, ?_⟩
    rw [extractDestination_witnessProgram hversion hmin id.length_le, ofProgram, if_neg (ne_of_gt hone), unknown, dif_pos id.length_le]

/-- A type without a script hash or a witness program has no destination but a key. -/
theorem keyID_of_extractDestination (h : extractDestination cr script = some d)
    (ht : (solver script).typeRet ∈ [some .nullData, some .pubKey, some .pubKeyHash,
      some .multiSig, some TxnOutType.nonStandard]) : ∃ hash, d = .keyID hash := by
  rw [extractDestination] at h
  generalize solver script = solution at h ht
  obtain ⟨solved, whichType, vSolutions⟩ := solution
  dsimp only at h ht
  split at h
  · simp only [List.mem_cons, List.not_mem_nil, or_false] at ht
    rcases ht with rfl | rfl | rfl | rfl | rfl
    · cases h
    · dsimp only at h
      split at h
      · cases h
        exact ⟨_, rfl⟩
      · cases h
    · cases h
      exact ⟨_, rfl⟩
    · cases h
    · cases h
  · cases h

theorem getScript_ofProgram {version : Nat} {program : Bytes}
    (h : script.isWitnessProgram = some (version, program))
    (hd : ofProgram version program = some d) : getScriptForDestination d = some script := by
  obtain ⟨hversion, -, -, rfl⟩ := isWitnessProgram_iff.mp h
  rw [ofProgram] at hd
  split at hd
  · next hzero =>
    subst hzero
    split at hd
    · next hlen =>
      cases hd
      rw [getScriptForDestination, Uint160.bytes_ofBytes hlen]
      rfl
    split at hd
    · next hlen =>
      cases hd
      rw [getScriptForDestination, bytes_ofBytes hlen]
      rfl
    · cases hd
  · rw [unknown] at hd
    split at hd
    · cases hd
      exact if_pos hversion
    · cases hd

/-- A script hash or a witness program stands in one script only. -/
theorem getScript_extractDestination (h : extractDestination cr script = some d)
    (hkey : ∀ hash, d ≠ .keyID hash) : getScriptForDestination d = some script := by
  rcases solver_cases script with ⟨hash, rfl⟩ | ⟨version, program, hprog⟩ | ht
  · rw [extractDestination_payToScriptHash] at h
    cases h
    rfl
  · rw [extractDestination_of_isWitnessProgram hprog] at h
    exact getScript_ofProgram hprog h
  · obtain ⟨hash, rfl⟩ := keyID_of_extractDestination h ht
    exact absurd rfl (hkey hash)

/-- Destinations and scripts correspond: every destination with a script is found in it, and no
script but that of the destination pays to a script hash or a witness program. -/
theorem destinations_correspond (cr : Crypto) :
    (∀ d : CTxDestination, d.Scriptable → ∃ script, getScriptForDestination d = some script ∧
      extractDestination cr script = some d) ∧
    ∀ script d, extractDestination cr script = some d → (∀ hash, d ≠ .keyID hash) →
      getScriptForDestination d = some script :=
  ⟨fun _ h => extractDestination_getScript h, fun _ _ h hkey => getScript_extractDestination h hkey⟩

theorem destinations_correspond_sixteen :
    let cr : Crypto := ⟨fun _ => 0, fun _ => 0, fun _ => 0, fun _ => 0⟩
    let d : CTxDestination := .witnessUnknown ⟨16, [7, 8], by decide⟩
    (∃ script, getScriptForDestination d = some script ∧ extractDestination cr script = some d) ∧
      getScriptForDestination d = some [0x60, 2, 7, 8] :=
  ⟨(destinations_correspond _).1 _ ⟨by decide, by decide, by decide⟩,
    (destinations_correspond ⟨fun _ => 0, fun _ => 0, fun _ => 0, fun _ => 0⟩).2 _ _
      (by decide +kernel) nofun⟩

end CTxDestination

end RgmNode
