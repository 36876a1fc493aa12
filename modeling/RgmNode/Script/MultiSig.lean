import Mathlib.Data.List.TakeWhile
import RgmNode.Lib.Matching
import RgmNode.Script.ScriptHash
import RgmNode.Script.Standard

/-!
# Multisig scripts

What `OP_CHECKMULTISIG` asks for in `m <keys> n OP_CHECKMULTISIG`, as an output, behind a script hash
and as a witness script.
-/

namespace RgmNode

open Checks Matching List Opcode VerifyContext UInt8

/-- `GetScriptForMultisig` -/
def multiSigScript (nRequired : Nat) (keys : List Bytes) : CScript :=
  pushAll ([UInt8.ofNat nRequired] :: keys ++ [[UInt8.ofNat keys.length]]) ++
    [Opcode.checkMultiSig]

/-! ## 1. Reading the script -/

section Reading

variable {pc rest : CScript} {opcode : UInt8} {data : Bytes}

namespace CScript

theorem eq_of_getOp_direct (h : getOp pc = .ok (opcode, data, rest))
    (hsize : data.length < 0x4c) (hop : opcode.toNat = data.length) :
    pc = pushData data ++ rest := by
  obtain ⟨body, rfl, -⟩ := getOp_eq_ok h
  generalize body ++ rest = pc at h ⊢
  have hle : opcode ≤ pushData4 := by
    rw [le_iff_toNat_le, hop]
    show data.length ≤ 78
    omega
  have hlt : opcode < pushData1 := by
    rw [lt_iff_toNat_lt, hop]
    exact hsize
  simp only [getOp, hle, if_true, pushSize, hlt] at h
  split at h
  · cases h
  · obtain ⟨-, rfl, rfl⟩ : opcode = opcode ∧ pc.take opcode.toNat = data ∧
        pc.drop opcode.toNat = rest := by simpa using h
    rw [pushData, if_pos hsize, ← hop, cons_append]
    simp

theorem eq_of_getOp_op (h : getOp pc = .ok (opcode, data, rest))
    (hop : ¬ opcode ≤ pushData4) : data = [] ∧ pc = opcode :: rest := by
  obtain ⟨body, rfl, hbody⟩ := getOp_eq_ok h
  obtain ⟨rfl, rfl⟩ := hbody hop
  exact ⟨rfl, rfl⟩

end CScript

inductive KeyPushes : CScript → List Bytes → CScript → Prop where
  | nil {pc : CScript} : KeyPushes pc [] pc
  | cons {pc rest rest' : CScript} {opcode : UInt8} {key : Bytes} {keys : List Bytes} :
      pc.getOp = .ok (opcode, key, rest) → isPubKeySize key = true →
      KeyPushes rest keys rest' → KeyPushes pc (key :: keys) rest'

/-- The scan for public keys stops at an instruction behind them, or the script cannot be
read. -/
theorem takePubKeys_spec (rounds : Nat) (h : pc.getOp = .ok (opcode, data, rest)) :
    (∃ behind, KeyPushes pc (takePubKeys rounds opcode data rest).1 behind ∧
        behind.getOp = .ok (takePubKeys rounds opcode data rest).2) ∨
      (takePubKeys rounds opcode data rest).2.1 = 0xff := by
  induction rounds generalizing pc opcode data rest with
  | zero => exact .inl ⟨pc, .nil, h⟩
  | succ rounds ih =>
    simp only [takePubKeys]
    split
    · next hkey =>
      cases hnext : rest.getOp with
      | error pc' => exact .inr rfl
      | ok next =>
        obtain ⟨opcode', data', rest'⟩ := next
        rcases ih hnext with ⟨behind, hkeys, hbehind⟩ | hff
        · exact .inl ⟨behind, .cons h hkey hkeys, hbehind⟩
        · exact .inr hff
    · exact .inl ⟨pc, .nil, h⟩

theorem matchOp_smallInteger {found : List Bytes}
    (h : matchOp opcode data .smallInteger = some found) :
    (opcode = op0 ∨ op1 ≤ opcode ∧ opcode ≤ op16) ∧
      found = [[ofNat (decodeOpN opcode)]] := by
  simp only [matchOp] at h
  split at h
  · next hop =>
    cases h
    refine ⟨?_, rfl⟩
    simpa using hop
  · cases h

/-- A small integer that is not zero is read from its own opcode. -/
theorem eq_encodeOpN (hop : opcode = op0 ∨ op1 ≤ opcode ∧ opcode ≤ op16)
    (hpos : 1 ≤ firstByte [ofNat (decodeOpN opcode)]) :
    ∃ n, 1 ≤ n ∧ n ≤ 16 ∧ opcode = encodeOpN n ∧ decodeOpN opcode = n := by
  rcases hop with rfl | ⟨hlo, hhi⟩
  · exact absurd hpos (by decide)
  · have hlo' : 0x51 ≤ opcode.toNat := le_iff_toNat_le.mp hlo
    have hhi' : opcode.toNat ≤ 0x60 := le_iff_toNat_le.mp hhi
    refine ⟨opcode.toNat - 0x50, by omega, by omega, ?_, ?_⟩
    · rw [encodeOpN, if_neg (by omega), Nat.add_sub_cancel' (by omega), UInt8.ofNat_toNat]
    · have hne : opcode ≠ op0 := by
        rintro rfl
        exact absurd hlo (by decide)
      rw [decodeOpN, if_neg hne]

variable {vSolutions : List Bytes}

/-- The first opcode of a template, unless it stands for a list of keys. -/
theorem matchTemplate_cons {op2 : TemplateOp} {template : List TemplateOp} (hop : op2 ≠ .pubKeys)
    (h : matchTemplate (op2 :: template) pc = some vSolutions) :
    ∃ opcode data rest found more, pc.getOp = .ok (opcode, data, rest) ∧
      matchOp opcode data op2 = some found ∧ matchTemplate template rest = some more ∧
      vSolutions = found ++ more := by
  rw [matchTemplate] at h
  · split at h
    · cases h
    next opcode data rest hget =>
    split at h
    · next found more hfound hmore =>
      exact ⟨opcode, data, rest, found, more, hget, hfound, hmore, (Option.some.inj h).symm⟩
    · cases h
  · exact fun hcase _ => hop hcase
  · exact fun _ _ hcase _ => hop hcase

theorem matchTemplate_pubKeys {op2 : TemplateOp} {template : List TemplateOp}
    (hop : ∀ data, matchOp 0xff data op2 = none)
    (h : matchTemplate (.pubKeys :: op2 :: template) pc = some vSolutions) :
    ∃ keys behind opcode data rest found more, KeyPushes pc keys behind ∧
      behind.getOp = .ok (opcode, data, rest) ∧ matchOp opcode data op2 = some found ∧
      matchTemplate template rest = some more ∧ vSolutions = keys ++ found ++ more := by
  rw [matchTemplate] at h
  split at h
  · cases h
  next opcode data rest hget =>
  dsimp only at h
  split at h
  swap
  · cases h
  next found more hfound hmore =>
  rcases takePubKeys_spec (rest.length + 1) hget with ⟨behind, hkeys, hbehind⟩ | hff
  · exact ⟨_, behind, _, _, _, found, more, hkeys, hbehind, hfound, hmore,
      (Option.some.inj h).symm⟩
  · rw [hff, hop] at hfound
    cases hfound

/-- The two counts are the first and the last solution, and the keys stand between them. -/
theorem multiSigCounts_iff {a b : UInt8} {keys : List Bytes} :
    multiSigCounts ([a] :: keys ++ [[b]]) = true ↔
      1 ≤ a.toNat ∧ a.toNat ≤ b.toNat ∧ keys.length = b.toNat := by
  have hlast : ([a] :: keys ++ [[b]]).getLastD [] = [b] := getLastD_concat
  simp only [multiSigCounts, hlast, firstByte, Bool.and_eq_true, decide_eq_true_eq]
  simp
  omega

theorem matchTemplate_multiSig (h : matchTemplate multiSigTemplate pc = some vSolutions)
    (hcounts : multiSigCounts vSolutions = true) :
    ∃ nRequired keys behind,
      (1 ≤ nRequired ∧ nRequired ≤ keys.length ∧ keys.length ≤ 16) ∧
      vSolutions = [ofNat nRequired] :: keys ++ [[ofNat keys.length]] ∧
      pc = encodeOpN nRequired :: behind ∧
      KeyPushes behind keys [encodeOpN keys.length, checkMultiSig] := by
  obtain ⟨opM, dataM, pc₁, foundM, more, hM, hfoundM, h₁, rfl⟩ :=
    matchTemplate_cons (by decide) h
  obtain ⟨keys, pc₂, opN, dataN, pc₃, foundN, more, hkeys, hN, hfoundN, h₂, rfl⟩ :=
    matchTemplate_pubKeys (fun _ => rfl) h₁
  obtain ⟨opC, dataC, pc₄, foundC, more, hC, hfoundC, h₃, rfl⟩ :=
    matchTemplate_cons (by decide) h₂
  obtain ⟨hopM, rfl⟩ := matchOp_smallInteger hfoundM
  obtain ⟨hopN, rfl⟩ := matchOp_smallInteger hfoundN
  -- `OP_CHECKMULTISIG` is the last instruction
  obtain ⟨⟨rfl, rfl⟩, rfl⟩ : (opC = checkMultiSig ∧ dataC = []) ∧ [] = foundC := by
    simpa [matchOp] using hfoundC
  obtain ⟨rfl, rfl⟩ : pc₄ = [] ∧ [] = more := by simpa [matchTemplate] using h₃
  have hcheck := (CScript.eq_of_getOp_op hC (by decide)).2
  subst hcheck
  have hsol : ([[ofNat (decodeOpN opM)]] : List Bytes) ++
      (keys ++ [[ofNat (decodeOpN opN)]] ++ ([] ++ [])) =
      [ofNat (decodeOpN opM)] :: keys ++ [[ofNat (decodeOpN opN)]] := by
    simp
  rw [hsol] at hcounts ⊢
  obtain ⟨hm, hmn, hlen⟩ := multiSigCounts_iff.mp hcounts
  obtain ⟨m, hm1, hm16, rfl, hdecM⟩ := eq_encodeOpN hopM hm
  obtain ⟨n, hn1, hn16, rfl, hdecN⟩ := eq_encodeOpN hopN (le_trans hm hmn)
  have hbyte : ∀ k : Nat, k ≤ 16 → (ofNat k).toNat = k := fun k hk => by
    exact Nat.mod_eq_of_lt (by omega)
  rw [hdecM, hdecN, hbyte m hm16, hbyte n hn16] at hmn
  rw [hdecN, hbyte n hn16] at hlen
  subst hlen
  have hcodeM := (CScript.eq_of_getOp_op hM (encodeOpN_small m (by omega) hm1).2.2.2).2
  have hcodeN := (CScript.eq_of_getOp_op hN (encodeOpN_small _ (by omega) hn1).2.2.2).2
  rw [hcodeN] at hkeys
  exact ⟨m, keys, pc₁, ⟨hm1, hmn, hn16⟩, by rw [hdecM, hdecN], hcodeM, hkeys⟩

end Reading

/-! ## 2. The script that is evaluated -/

section Shape

variable {ctx : EvalContext} {m out : Machine} {pc rest : CScript} {keys : List Bytes}

theorem isPubKeySize_iff {key : Bytes} :
    isPubKeySize key = true ↔ 33 ≤ key.length ∧ key.length ≤ 65 := by
  simp [isPubKeySize]

theorem pushOne_of_isPubKeySize {key : Bytes} (h : isPubKeySize key = true) :
    pushOne key = CScript.pushData key := by
  match key, isPubKeySize_iff.mp h with
  | _ :: _ :: _, _ => rfl

/-- Where pushes have to be minimal, a key is pushed by an opcode of its length. -/
theorem eq_pushOne_of_evalFrom {key : Bytes} {opcode : UInt8} (hexec : m.vfExec = [])
    (hmin : .minimalData ∈ ctx.flags) (hget : pc.getOp = .ok (opcode, key, rest))
    (hkey : isPubKeySize key = true) (h : evalFrom ctx pc m = .ok out) :
    pc = pushOne key ++ rest := by
  obtain ⟨hlo, hhi⟩ := isPubKeySize_iff.mp hkey
  have hop : opcode ≤ pushData4 := by
    by_contra hop
    rw [(CScript.eq_of_getOp_op hget hop).1] at hlo
    exact absurd hlo (by decide)
  rw [evalFrom_of_getOp m hget] at h
  have hminimal : checkMinimalPush key opcode = true := by
    by_contra hbad
    have hfExec : m.fExec = true := by simp [Machine.fExec, hexec]
    have hsize : ¬ maxScriptElementSize < key.length := by
      show ¬ 520 < key.length
      omega
    have hcount : ¬ op16 < opcode := by
      have hnat : opcode.toNat ≤ 78 := le_iff_toNat_le.mp hop
      show ¬ 96 < opcode.toNat
      omega
    have hfail : evalOp ctx opcode key rest m = m.fail .minimalData := by
      simp [evalOp, hsize, hcount, instruction_push_ne_disabled hop, hfExec, hop, hmin, hbad]
    rw [hfail] at h
    cases h
  have hlen : opcode.toNat = key.length := by
    obtain _ | ⟨a, _ | ⟨b, tail⟩⟩ := key
    · cases hlo
    · simp at hlo
    · have hle : (a :: b :: tail).length ≤ 75 := by omega
      simp only [checkMinimalPush, hle, if_true, decide_eq_true_eq] at hminimal
      exact hminimal
  rw [pushOne_of_isPubKeySize hkey]
  exact CScript.eq_of_getOp_direct hget (by omega) hlen

theorem eq_pushAll_of_evalFrom (hkeys : KeyPushes pc keys rest) (hexec : m.vfExec = [])
    (hmin : .minimalData ∈ ctx.flags) (h : evalFrom ctx pc m = .ok out) :
    pc = pushAll keys ++ rest := by
  induction hkeys generalizing m with
  | nil => rfl
  | @cons pc rest rest' opcode key keys hget hkey _ ih =>
    obtain rfl := eq_pushOne_of_evalFrom hexec hmin hget hkey h
    have hlen : key.length ≤ 0xffffffff := by
      have := (isPubKeySize_iff.mp hkey).2
      omega
    rw [evalFrom_pushOne hexec hlen, resume_pushResult_iff] at h
    rw [ih (m := m.push key) hexec h.2]
    simp [pushAll]

theorem pushOne_small {n : Nat} (h1 : 1 ≤ n) (h16 : n ≤ 16) :
    pushOne [ofNat n] = [encodeOpN n] := by
  have hall : ∀ n : Nat, n < 17 → 1 ≤ n → pushOne [ofNat n] = [encodeOpN n] := by
    decide
  exact hall n (by omega) h1

theorem isPubKeySize_of_keyPushes (hkeys : KeyPushes pc keys rest) :
    ∀ key ∈ keys, isPubKeySize key = true := by
  induction hkeys with
  | nil => exact nofun
  | cons _ hkey _ ih => exact forall_mem_cons.mpr ⟨hkey, ih⟩

end Shape

/-- The outputs that `GetScriptForMultisig` makes: at most sixteen keys, and one signature at
least. -/
structure MultiSigOutput (scriptPubKey : CScript) (nRequired : Nat) (keys : List Bytes) : Prop where
  script : scriptPubKey = multiSigScript nRequired keys
  required : 1 ≤ nRequired
  enough : nRequired ≤ keys.length
  most : keys.length ≤ 16
  sizes : ∀ key ∈ keys, isPubKeySize key = true
  solved : solver scriptPubKey = ⟨true, some .multiSig,
    [UInt8.ofNat nRequired] :: keys ++ [[UInt8.ofNat keys.length]]⟩

/-- A multisig output that evaluates where pushes have to be minimal. -/
theorem solver_multiSig_shape {ctx : EvalContext} {scriptPubKey : CScript}
    {stack out : List Bytes} (hsolved : (solver scriptPubKey).solved = true)
    (htype : (solver scriptPubKey).typeRet = some .multiSig) (hmin : .minimalData ∈ ctx.flags)
    (heval : evalScript ctx stack scriptPubKey = .ok out) :
    ∃ nRequired keys, MultiSigOutput scriptPubKey nRequired keys := by
  obtain ⟨hmatch, hcounts⟩ := matchTemplate_of_solver_multiSig htype
  obtain ⟨nRequired, keys, behind, ⟨h1, hle, h16⟩, hsol, hscript, hkeys⟩ :=
    matchTemplate_multiSig hmatch (hcounts ▸ hsolved)
  obtain ⟨-, m, hrun, -, -⟩ := evalScript_eq_ok_iff.mp heval
  -- the count of signatures is pushed first
  have hfirst : scriptPubKey = pushOne [ofNat nRequired] ++ behind := by
    rw [pushOne_small h1 (by omega), hscript]
    rfl
  nth_rewrite 1 [hfirst] at hrun
  rw [evalFrom_pushOne rfl (by simp), resume_pushResult_iff] at hrun
  have hbehind := eq_pushAll_of_evalFrom hkeys rfl hmin hrun.2
  refine ⟨nRequired, keys, ?_, h1, hle, h16, isPubKeySize_of_keyPushes hkeys, ?_⟩
  · rw [hfirst, hbehind, multiSigScript]
    simp [pushAll, pushOne_small h1 (by omega : nRequired ≤ 16),
      pushOne_small (by omega : 1 ≤ keys.length) h16]
  · rw [← hsol, ← hsolved, ← htype]

/-! ## 3. `OP_CHECKMULTISIG` -/

section CheckMultiSig

variable {ctx : EvalContext} {m : Machine} {sigs keys below : List Bytes} {code : CScript}

/-- The keys up to the first one whose encoding is refused. -/
def allowedKeys (ctx : EvalContext) (keys : List Bytes) : List Bytes :=
  keys.takeWhile fun key => checkPubKeyEncoding ctx key = none

/-- Among the keys that may be used, the loop looks for the signatures in the order of the
keys. -/
theorem checkMultiSigLoop_eq_true_iff :
    checkMultiSigLoop ctx code sigs keys = .ok true ↔
      (∀ sig ∈ sigs, checkSignatureEncoding ctx sig = none) ∧
        greedy (fun sig key => ctx.checker.checkSig sig key code ctx.sigversion) sigs
          (allowedKeys ctx keys) = true := by
  induction keys generalizing sigs with
  | nil =>
    cases sigs with
    | nil => exact ⟨fun _ => ⟨by simp, rfl⟩, fun _ => rfl⟩
    | cons sig sigs => exact ⟨(by rintro ⟨⟩), (by rintro ⟨-, ⟨⟩⟩)⟩
  | cons key keys ih =>
    cases sigs with
    | nil => exact ⟨fun _ => ⟨by simp, by simp [greedy]⟩, fun _ => by simp [checkMultiSigLoop]⟩
    | cons sig sigs =>
      rw [checkMultiSigLoop]
      cases hkey : checkPubKeyEncoding ctx key with
      | some e =>
        -- the loop ends here, with the error for the signature or for the key
        have hnone : allowedKeys ctx (key :: keys) = [] := by simp [allowedKeys, hkey]
        obtain ⟨e', henc⟩ : ∃ e', checkEncodings ctx sig key = some e' := by
          rw [checkEncodings, hkey]
          cases checkSignatureEncoding ctx sig with
          | none => exact ⟨e, rfl⟩
          | some e' => exact ⟨e', rfl⟩
        rw [henc, hnone]
        exact ⟨(by rintro ⟨⟩), (by rintro ⟨-, ⟨⟩⟩)⟩
      | none =>
      have hallowed : allowedKeys ctx (key :: keys) = key :: allowedKeys ctx keys := by
        simp [allowedKeys, hkey]
      have henc : checkEncodings ctx sig key = checkSignatureEncoding ctx sig := by
        rw [checkEncodings, hkey, Option.or_none]
      rw [henc, hallowed]
      cases hsig : checkSignatureEncoding ctx sig with
      | some e =>
        refine ⟨(by rintro ⟨⟩), fun h => ?_⟩
        rw [h.1 sig mem_cons_self] at hsig
        cases hsig
      | none =>
        -- the signatures that are left after this key
        generalize hleft : (if ctx.checker.checkSig sig key code ctx.sigversion = true then sigs
          else sig :: sigs) = left
        have hgreedy : greedy (fun sig key => ctx.checker.checkSig sig key code ctx.sigversion)
            (sig :: sigs) (key :: allowedKeys ctx keys) =
            greedy (fun sig key => ctx.checker.checkSig sig key code ctx.sigversion) left
              (allowedKeys ctx keys) := by
          rw [← hleft, greedy]
          split <;> rfl
        have hall : (∀ s ∈ sig :: sigs, checkSignatureEncoding ctx s = none) ↔
            ∀ s ∈ left, checkSignatureEncoding ctx s = none := by
          rw [← hleft, forall_mem_cons]
          split
          · exact and_iff_right hsig
          · rw [forall_mem_cons]
        rw [hgreedy, hall]
        dsimp only
        split
        · next hshort =>
          refine ⟨(by rintro ⟨⟩), fun h => ?_⟩
          have hle := (length_le_of_greedy h.2).trans (takeWhile_sublist _).length_le
          exact absurd hle (not_le.mpr hshort)
        · exact ih

/-- The loop goes through the signatures and the keys from their ends. -/
theorem checkMultiSigLoop_reverse_iff :
    checkMultiSigLoop ctx code sigs.reverse keys.reverse = .ok true ↔
      (∀ sig ∈ sigs, checkSignatureEncoding ctx sig = none) ∧
        SublistForall₂ (fun sig key => ctx.checker.checkSig sig key code ctx.sigversion = true) sigs
          (allowedKeys ctx keys.reverse).reverse := by
  rw [checkMultiSigLoop_eq_true_iff, greedy_iff]
  refine and_congr (by simp) ⟨fun hmatch => ?_, fun hmatch => ?_⟩
  · simpa using sublistForall₂_reverse hmatch
  · simpa using sublistForall₂_reverse hmatch

theorem ofVch_small {n : Nat} (h1 : 1 ≤ n) (h16 : n ≤ 16) (fRequireMinimal : Bool) :
    CScriptNum.ofVch [ofNat n] fRequireMinimal = some (n : Int) := by
  have hall : ∀ n : Nat, n < 17 → 1 ≤ n → ∀ b,
      CScriptNum.ofVch [ofNat n] b = some (n : Int) := by
    decide
  exact hall n (by omega) h1 fRequireMinimal

/-- The arguments of `OP_CHECKMULTISIG` on the stack: keys, signatures, and the extra element. -/
theorem execCheckMultiSig_eq (h1 : 1 ≤ sigs.length) (hle : sigs.length ≤ keys.length)
    (h16 : keys.length ≤ 16) (hops : m.nOpCount + keys.length ≤ maxOpsPerScript)
    (hstack : m.stack = [ofNat keys.length] ::
      (keys ++ [ofNat sigs.length] :: (sigs ++ [] :: below))) :
    execCheckMultiSig ctx m false =
      finishMultiSig ctx { m with nOpCount := m.nOpCount + keys.length } false keys sigs
        ([] :: below) := by
  have hmax : ¬ (maxPubkeysPerMultisig : Int) < (keys.length : Int) := by
    show ¬ (20 : Int) < (keys.length : Int)
    omega
  have hneg : ∀ n : Nat, ¬ (n : Int) < 0 := fun n => by omega
  have hcount : ¬ (keys.length : Int) < (sigs.length : Int) := by omega
  rw [execCheckMultiSig, hstack]
  simp only [ofVch_small (by omega : 1 ≤ keys.length) h16, hneg, hmax, decide_false, Bool.or_self,
    Bool.false_eq_true, if_false, Int.toNat_natCast, not_lt.mpr hops]
  rw [if_neg (by simp), take_left, drop_left, execSigs]
  simp only [ofVch_small h1 (by omega : sigs.length ≤ 16), hneg, hcount, decide_false,
    Bool.or_self, Bool.false_eq_true, if_false, Int.toNat_natCast]
  rw [if_neg (by simp), take_left, drop_left]

/-- It leaves a true element if the loop succeeds, and none otherwise. -/
theorem finishMultiSig_eq_ok_iff {out : Machine} :
    finishMultiSig ctx m false keys sigs ([] :: below) = .ok out ∧
        out.stack.head?.any castToBool = true ↔
      checkMultiSigLoop ctx (signedCode ctx m sigs) sigs keys = .ok true ∧
        out = m.withStack ([1] :: below) := by
  unfold finishMultiSig
  cases hloop : checkMultiSigLoop ctx (signedCode ctx m sigs) sigs keys with
  | error e => exact ⟨(by rintro ⟨⟨⟩, -⟩), (by rintro ⟨⟨⟩, -⟩)⟩
  | ok fSuccess =>
    cases fSuccess with
    | true =>
      simp only [Bool.not_true, Bool.false_and, Bool.false_eq_true, if_false, isEmpty_nil,
        Bool.and_false, pushBool, true_and]
      constructor
      · rintro ⟨⟨⟩, -⟩
        rfl
      · rintro rfl
        exact ⟨rfl, rfl⟩
    | false =>
      refine ⟨?_, (by rintro ⟨⟨⟩, -⟩)⟩
      rintro ⟨h, htrue⟩
      dsimp only at h
      split at h
      · cases h
      · simp only [isEmpty_nil, Bool.not_true, Bool.and_false, Bool.false_eq_true, if_false,
          pushBool] at h
        cases h
        cases htrue

end CheckMultiSig

/-! ## 4. Spending a multisig output -/

section Spending

variable {ctx : EvalContext} {scriptPubKey : CScript} {nRequired : Nat} {keys sigs : List Bytes}

/-- A signature check sees the script without the signatures. -/
def codeWithout (ctx : EvalContext) (scriptPubKey : CScript) (sigs : List Bytes) : CScript :=
  signedCode ctx ⟨[], [], [], 0, scriptPubKey⟩ sigs

/-- The signatures are of the right form, and keys of the list accept them in its order.  A check
starts with the last key and ends at one whose encoding is refused. -/
def SigsAccepted (ctx : EvalContext) (scriptPubKey : CScript) (keys sigs : List Bytes) : Prop :=
  (∀ sig ∈ sigs, checkSignatureEncoding ctx sig = none) ∧
    SublistForall₂ (fun sig key => ctx.checker.checkSig sig key
      (codeWithout ctx scriptPubKey sigs.reverse) ctx.sigversion = true) sigs
      (allowedKeys ctx keys.reverse).reverse

namespace MultiSigOutput

variable (h : MultiSigOutput scriptPubKey nRequired keys)

/-- The elements the script pushes before `OP_CHECKMULTISIG`. -/
def pushes (nRequired : Nat) (keys : List Bytes) : List Bytes :=
  [UInt8.ofNat nRequired] :: keys ++ [[UInt8.ofNat keys.length]]

theorem forall_mem_pushes {P : Bytes → Prop} (hsigs : P [ofNat nRequired])
    (hkeys : ∀ key ∈ keys, P key) (hlen : P [ofNat keys.length]) :
    ∀ v ∈ pushes nRequired keys, P v :=
  forall_mem_append.mpr ⟨forall_mem_cons.mpr ⟨hsigs, hkeys⟩,
    forall_mem_singleton.mpr hlen⟩

include h

theorem length_pushes_le : ∀ v ∈ pushes nRequired keys, v.length ≤ 65 :=
  forall_mem_pushes (by simp) (fun key hkey => (isPubKeySize_iff.mp (h.sizes key hkey)).2) (by simp)

theorem pushable (flags : ScriptFlags) {depth : Nat} (hdepth : depth ≤ 900) :
    Pushable flags depth (pushes nRequired keys) := by
  have hmost := h.most
  have hsmall : ∀ n : Nat, n < 17 → [ofNat n] ≠ ([0x81] : Bytes) := by decide
  have henough := h.enough
  refine ⟨fun v hv => (h.length_pushes_le v hv).trans (by decide), fun _ hmem => ?_, .inr ?_⟩
  · refine forall_mem_pushes (P := (· ≠ [0x81])) (hsmall nRequired (by omega)) ?_
      (hsmall keys.length (by omega)) _ hmem rfl
    rintro key hkey rfl
    exact absurd (isPubKeySize_iff.mp (h.sizes _ hkey)).1 (by decide)
  · simp only [pushes, length_append, length_cons, length_nil]
    omega

theorem script_eq : scriptPubKey = pushAll (pushes nRequired keys) ++ [checkMultiSig] :=
  h.script

theorem length_le : scriptPubKey.length ≤ maxScriptSize := by
  have hmost := h.most
  have hreq := h.required
  have henough := h.enough
  have hkeys : (pushAll keys).length ≤ keys.length * (65 + 5) :=
    length_pushAll_le fun key hkey => (isPubKeySize_iff.mp (h.sizes key hkey)).2
  have hlen : scriptPubKey.length = (pushAll keys).length + 3 := by
    rw [h.script, multiSigScript]
    simp [pushAll, pushOne_small hreq (by omega : nRequired ≤ 16),
      pushOne_small (by omega : 1 ≤ keys.length) hmost]
  rw [hlen]
  show (pushAll keys).length + 3 ≤ 10000
  omega

/-- Run on the signatures and the extra element below them, the script leaves a true element
exactly if the signatures are accepted. -/
theorem evalScript_iff {out : List Bytes} (hsigs : sigs.length = nRequired) :
    evalScript ctx (sigs.reverse ++ [[]]) scriptPubKey = .ok out ∧
        out.head?.any castToBool = true ↔
      SigsAccepted ctx scriptPubKey keys sigs ∧ out = [[1]] := by
  have hmost := h.most
  have henough := h.enough
  have hreq := h.required
  -- the machine before `OP_CHECKMULTISIG`
  let before : Machine := ⟨[ofNat keys.length] :: (keys.reverse ++
    [ofNat nRequired] :: (sigs.reverse ++ [[]])), [], [], 0, scriptPubKey⟩
  have hpushes : ∀ m, evalFrom ctx scriptPubKey ⟨sigs.reverse ++ [[]], [], [], 0, scriptPubKey⟩ =
      .ok m ↔ evalFrom ctx [checkMultiSig] before = .ok m := by
    intro m
    have hlen : ∀ v ∈ pushes nRequired keys, v.length ≤ 0xffffffff := fun v hv =>
      (h.length_pushes_le v hv).trans (by decide)
    rw [congrFun (congrArg (evalFrom ctx) h.script_eq) _, evalFrom_pushAll_append_iff rfl hlen,
      and_iff_right (h.pushable _ (by simp; omega))]
    simp [pushes, before, Machine.withStack]
  have hop : evalFrom ctx [checkMultiSig] before =
      resume ctx [] (finishMultiSig ctx { before with nOpCount := 1 + keys.reverse.length } false
        keys.reverse sigs.reverse [[]]) := by
    rw [evalFrom_of_getOp before (show CScript.getOp [checkMultiSig] =
      .ok (checkMultiSig, [], []) from rfl)]
    congr 1
    show execCheckMultiSig ctx { before with nOpCount := 1 } false = _
    exact execCheckMultiSig_eq (by simp; omega) (by simp; omega) (by simpa using hmost)
      (by simp [maxOpsPerScript]; omega) (by simp [before, hsigs])
  rw [evalScript_eq_ok_iff, and_iff_right h.length_le, SigsAccepted, ← checkMultiSigLoop_reverse_iff]
  simp only [hpushes, hop, resume_nil_eq_ok_iff]
  constructor
  · rintro ⟨⟨m, ⟨hm, -⟩, -, rfl⟩, htrue⟩
    obtain ⟨hloop, rfl⟩ := finishMultiSig_eq_ok_iff.mp ⟨hm, htrue⟩
    exact ⟨hloop, rfl⟩
  · rintro ⟨hloop, rfl⟩
    let after : Machine := { before with nOpCount := 1 + keys.reverse.length }
    have hcode : checkMultiSigLoop ctx (signedCode ctx after sigs.reverse) sigs.reverse
        keys.reverse = .ok true := hloop
    have hm : finishMultiSig ctx after false keys.reverse sigs.reverse [[]] =
        .ok (after.withStack [[1]]) := (finishMultiSig_eq_ok_iff.mpr ⟨hcode, rfl⟩).1
    exact ⟨⟨_, ⟨hm, by simp [after, before, Machine.withStack]⟩, rfl, rfl⟩, rfl⟩

end MultiSigOutput

end Spending

/-! ## 5. The standard rules -/

section Standard

variable {vc : VerifyContext} {scriptPubKey : CScript} {nRequired : Nat} {keys sigs : List Bytes}
  {sigversion : SigVersion}

/-- The arguments of `EvalScript` for the scripts of an input. -/
def VerifyContext.within (vc : VerifyContext) (sigversion : SigVersion) : EvalContext :=
  ⟨vc.cr, vc.sg, vc.flags, vc.checker, sigversion⟩

/-- A multisig script accepts the extra element and signatures that are accepted. -/
theorem MultiSigOutput.accepts_iff (h : MultiSigOutput scriptPubKey nRequired keys)
    (hcount : sigs.length = nRequired) :
    vc.Accepts sigversion scriptPubKey ([] :: sigs) ↔
      SigsAccepted (vc.within sigversion) scriptPubKey keys sigs := by
  simp only [Accepts, eval_eq_ok_iff, reverse_cons]
  constructor
  · rintro ⟨out, heval, -, htrue⟩
    exact ((h.evalScript_iff hcount).mp ⟨heval, htrue⟩).1
  · intro hsigs
    obtain ⟨heval, htrue⟩ := (h.evalScript_iff hcount).mpr ⟨hsigs, rfl⟩
    exact ⟨_, heval, rfl, htrue⟩

/-- A signature that passes the rules is empty or in strict DER: it can be pushed. -/
theorem pushable_of_checkSignatureEncoding {sig : Bytes} (hflags : vc.flags = standardScriptVerifyFlags)
    (h : checkSignatureEncoding (vc.within sigversion) sig = none) :
    sig.length ≤ maxScriptElementSize ∧ sig ≠ [0x81] := by
  have hder : .derSig ∈ (vc.within sigversion).flags := show .derSig ∈ vc.flags by
    rw [hflags]
    decide
  unfold checkSignatureEncoding at h
  split at h
  · next hempty =>
    rw [isEmpty_iff.mp hempty]
    exact ⟨by simp, by simp⟩
  split at h
  · cases h
  · next hok =>
    have hvalid : isValidSignatureEncoding sig = true := by
      by_contra hbad
      exact hok ⟨.inl hder, by simpa using hbad⟩
    simp only [isValidSignatureEncoding, Bool.and_eq_true, decide_eq_true_eq] at hvalid
    obtain ⟨⟨⟨⟨⟨⟨⟨hlo, hhi⟩, -⟩, -⟩, -⟩, -⟩, -⟩, -⟩ := hvalid
    refine ⟨hhi.trans (by decide), ?_⟩
    rintro rfl
    exact absurd hlo (by decide)

end Standard

end RgmNode
