import RgmNode.Script.Interpreter

/-!
# Scripts of pushes

`PushAll` of `script/sign.cpp` writes the script that puts given elements on the stack; such
scripts are what wallets put into inputs, and a witness program is one.
-/

namespace RgmNode

open List Opcode UInt8

/-- The part of `PushAll` for one element. -/
def pushOne : Bytes → CScript
  | [] => [Opcode.op0]
  | [b] => if 1 ≤ b && b ≤ 16 then [Opcode.encodeOpN b.toNat] else CScript.pushData [b]
  | v => CScript.pushData v

def pushAll (values : List Bytes) : CScript := values.flatMap pushOne

open CScript

theorem pushOne_eq_pushData {v : Bytes} (h : 2 ≤ v.length) : pushOne v = pushData v := by
  match v, h with
  | _ :: _ :: _, _ => rfl

/-! ## 1. One push -/

section OnePush

variable {ctx : EvalContext} {m : Machine} {v rest : Bytes}

/-- What pushing `v` does: too long an element fails, and so does one that has an opcode of
its own where pushes have to be minimal (`OP_1NEGATE`, which `PushAll` does not use). -/
def pushResult (ctx : EvalContext) (m : Machine) (v : Bytes) : EvalResult :=
  if maxScriptElementSize < v.length then m.fail .pushSize
  else if .minimalData ∈ ctx.flags ∧ v = [0x81] then m.fail .minimalData
  else .ok (m.push v)

theorem encodeOpN_small : ∀ n : Nat, n < 17 → 1 ≤ n →
    CScriptNum.serialize n = [ofNat n] ∧
    instruction (encodeOpN n) = .smallInt n ∧
    ¬ op16 < encodeOpN n ∧ ¬ encodeOpN n ≤ pushData4 := by
  decide

theorem instruction_push_ne_disabled {opcode : UInt8} (h : opcode ≤ pushData4) :
    instruction opcode ≠ .disabled := by
  have hall : ∀ n < 0x4f, instruction (ofNat n) ≠ .disabled := by decide
  have hlt : opcode.toNat < 0x4f := Nat.lt_succ_iff.mpr (le_iff_toNat_le.mp h)
  simpa using hall opcode.toNat hlt

theorem pushOpcode_le (n : Nat) : pushOpcode n ≤ pushData4 := by
  unfold pushOpcode
  split
  · next h =>
    show n % 256 ≤ 78
    omega
  · split
    · decide
    · split <;> decide

theorem toNat_pushOpcode {n : Nat} (h : n ≤ 75) : (pushOpcode n).toNat = n := by
  rw [pushOpcode, if_pos (by omega)]
  exact Nat.mod_eq_of_lt (by omega)

/-- The element is not one of those with an opcode of their own. -/
theorem checkMinimalPush_pushOpcode (h81 : v ≠ [0x81])
    (hsmall : ∀ b, v = [b] → ¬ (1 ≤ b ∧ b ≤ 16)) (hlen : v.length ≤ maxScriptElementSize) :
    checkMinimalPush v (pushOpcode v.length) = true := by
  match v, h81, hsmall, hlen with
  | [], _, _, _ => rfl
  | [b], h81, hsmall, _ =>
    have hb : ¬ (1 ≤ b ∧ b ≤ 16) := hsmall b rfl
    have hb81 : b ≠ 0x81 := fun h => h81 (by rw [h])
    simp only [checkMinimalPush, Bool.and_eq_true, decide_eq_true_eq, hb, hb81, if_false]
    rfl
  | a :: b :: tail, _, _, hlen =>
    have hmax : (a :: b :: tail).length ≤ 520 := hlen
    simp only [checkMinimalPush]
    split
    · exact decide_eq_true (toNat_pushOpcode (by omega))
    · split
      · exact decide_eq_true (by rw [pushOpcode, if_neg (by omega), if_pos (by omega)])
      · rw [if_pos (by omega)]
        refine decide_eq_true ?_
        rw [pushOpcode, if_neg (by omega), if_neg (by omega), if_pos (by omega)]

theorem evalOp_pushOpcode (hexec : m.fExec = true)
    (hsmall : ∀ b, v = [b] → ¬ (1 ≤ b ∧ b ≤ 16)) :
    evalOp ctx (pushOpcode v.length) v rest m = pushResult ctx m v := by
  have hle := pushOpcode_le v.length
  have hcount : ¬ op16 < pushOpcode v.length := by
    have hnat : (pushOpcode v.length).toNat ≤ 78 := le_iff_toNat_le.mp hle
    show ¬ 96 < (pushOpcode v.length).toNat
    omega
  simp only [evalOp, pushResult, countOp, hcount, hexec, hle, if_false, decide_false,
    Bool.false_and, Bool.false_eq_true, instruction_push_ne_disabled hle, decide_true,
    Bool.and_self, if_true]
  split
  · rfl
  next hlen =>
  by_cases hmin : .minimalData ∈ ctx.flags ∧ v = [0x81]
  · rw [if_pos hmin]
    rw [hmin.2]
    simp [hmin.1, checkMinimalPush, pushOpcode]
  · rw [if_neg hmin, if_neg]
    intro hbad
    simp only [Bool.and_eq_true, decide_eq_true_eq, Bool.not_eq_true'] at hbad
    have hgood := checkMinimalPush_pushOpcode (fun h => hmin ⟨hbad.1, h⟩) hsmall
      (Nat.le_of_not_lt hlen)
    rw [hgood] at hbad
    exact absurd hbad.2 (by decide)

theorem getOp_encodeOpN {n : Nat} (hn : n < 17) (h1 : 1 ≤ n) :
    getOp (encodeOpN n :: rest) = .ok (encodeOpN n, [], rest) := by
  obtain ⟨-, -, -, hpush⟩ := encodeOpN_small n hn h1
  simp only [getOp, hpush, if_false]

theorem evalOp_encodeOpN {n : Nat} (hexec : m.fExec = true) (hn : n < 17) (h1 : 1 ≤ n) :
    evalOp ctx (encodeOpN n) [] rest m = .ok (m.push [ofNat n]) := by
  obtain ⟨hser, hins, hcount, hpush⟩ := encodeOpN_small n hn h1
  simp [evalOp, countOp, hcount, hpush, hins, hexec, execute, hser, maxScriptElementSize]

theorem evalFrom_pushOne (hexec : m.vfExec = []) (hv : v.length ≤ 0xffffffff) :
    evalFrom ctx (pushOne v ++ rest) m = resume ctx rest (pushResult ctx m v) := by
  have hfExec : m.fExec = true := by simp [Machine.fExec, hexec]
  have plain : pushOne v = pushData v → (∀ b, v = [b] → ¬ (1 ≤ b ∧ b ≤ 16)) →
      evalFrom ctx (pushOne v ++ rest) m = resume ctx rest (pushResult ctx m v) := by
    intro hone hsmall
    rw [hone, evalFrom_of_getOp m (getOp_pushData hv), evalOp_pushOpcode hfExec hsmall]
  obtain _ | ⟨b, _ | ⟨c, tail⟩⟩ := v
  · exact plain rfl (fun b hb => by cases hb)
  · by_cases hb : 1 ≤ b ∧ b ≤ 16
    · have hn : b.toNat < 17 := Nat.lt_succ_iff.mpr (le_iff_toNat_le.mp hb.2)
      have h1 : 1 ≤ b.toNat := le_iff_toNat_le.mp hb.1
      have hres : pushResult ctx m [b] = .ok (m.push [ofNat b.toNat]) := by
        have h81 : b ≠ 0x81 := by
          rintro rfl
          exact absurd hb.2 (by decide)
        simp [pushResult, maxScriptElementSize, h81]
      have hone : pushOne [b] ++ rest = encodeOpN b.toNat :: rest := by
        simp [pushOne, hb]
      rw [hone, evalFrom_of_getOp m (getOp_encodeOpN hn h1), evalOp_encodeOpN hfExec hn h1, hres]
    · refine plain ?_ (fun c hc => by obtain rfl := singleton_inj.mp hc; exact hb)
      simp [pushOne, hb]
  · exact plain rfl (fun b hb => by cases hb)

/-- A push is read back as one instruction, of an opcode up to `OP_16`. -/
theorem getOp_pushOne (rest : CScript) (hlen : v.length ≤ 0xffffffff) :
    ∃ opcode data, getOp (pushOne v ++ rest) = .ok (opcode, data, rest) ∧
      opcode ≤ op16 := by
  have hdata : pushOpcode v.length ≤ op16 :=
    UInt8.le_trans (pushOpcode_le v.length) (by decide)
  match v, hlen, hdata with
  | [], hlen, hdata => exact ⟨_, _, getOp_pushData hlen, hdata⟩
  | _ :: _ :: _, hlen, hdata => exact ⟨_, _, getOp_pushData hlen, hdata⟩
  | [c], hlen, hdata =>
    by_cases hc : 1 ≤ c ∧ c ≤ 16
    · have hn : c.toNat < 17 := Nat.lt_succ_iff.mpr (le_iff_toNat_le.mp hc.2)
      have h1 : 1 ≤ c.toNat := le_iff_toNat_le.mp hc.1
      have hone : pushOne [c] = [encodeOpN c.toNat] := by simp [pushOne, hc]
      obtain ⟨-, -, hle, -⟩ := encodeOpN_small c.toNat hn h1
      rw [hone]
      exact ⟨_, _, getOp_encodeOpN hn h1, UInt8.not_lt.mp hle⟩
    · have hone : pushOne [c] = pushData [c] := by simp [pushOne, hc]
      rw [hone]
      exact ⟨_, _, getOp_pushData hlen, hdata⟩

end OnePush

/-! ## 2. All pushes -/

/-- The conditions under which a script of pushes evaluates on a stack of height `depth`. -/
structure Pushable (flags : ScriptFlags) (depth : Nat) (values : List Bytes) : Prop where
  items : ∀ v ∈ values, v.length ≤ maxScriptElementSize
  minimal : .minimalData ∈ flags → [0x81] ∉ values
  height : values = [] ∨ depth + values.length ≤ 1000

section AllPushes

variable {ctx : EvalContext} {m m' : Machine} {values : List Bytes}

theorem length_push (v : Bytes) : (m.push v).stack.length + (m.push v).altstack.length =
    m.stack.length + m.altstack.length + 1 := by
  simp [Machine.push, Machine.withStack]
  omega

theorem resume_pushResult_iff {v rest : Bytes} :
    resume ctx rest (pushResult ctx m v) = .ok m' ↔
      (v.length ≤ maxScriptElementSize ∧ (.minimalData ∈ ctx.flags → v ≠ [0x81]) ∧
        m.stack.length + m.altstack.length + 1 ≤ 1000) ∧
      evalFrom ctx rest (m.push v) = .ok m' := by
  have hpushed := length_push (m := m) v
  unfold pushResult
  split
  · next hbig => exact ⟨(by rintro ⟨⟩), fun h => absurd h.1.1 (by omega)⟩
  next hsize =>
  split
  · next hmin => exact ⟨(by rintro ⟨⟩), fun h => absurd hmin.2 (h.1.2.1 hmin.1)⟩
  next hmin =>
  rw [resume, hpushed]
  split
  · next hdepth => exact ⟨(by rintro ⟨⟩), fun h => absurd h.1.2.2 (by omega)⟩
  next hdepth =>
  constructor
  · exact fun h => ⟨⟨Nat.le_of_not_lt hsize, fun hf hv => hmin ⟨hf, hv⟩, Nat.le_of_not_lt hdepth⟩, h⟩
  · exact fun h => h.2

theorem pushable_cons_iff {flags : ScriptFlags} {depth : Nat} {v : Bytes} :
    Pushable flags depth (v :: values) ↔
      (v.length ≤ maxScriptElementSize ∧ (.minimalData ∈ flags → v ≠ [0x81]) ∧
        depth + 1 ≤ 1000) ∧ Pushable flags (depth + 1) values := by
  constructor
  · intro h
    have hheight : depth + (values.length + 1) ≤ 1000 := by
      rcases h.height with hnil | hheight
      · cases hnil
      · exact hheight
    refine ⟨⟨h.items v mem_cons_self, fun hf hv => h.minimal hf (hv ▸ mem_cons_self),
      by omega⟩, fun w hw => h.items w (mem_cons_of_mem _ hw),
      fun hf hmem => h.minimal hf (mem_cons_of_mem _ hmem), .inr (by omega)⟩
  · rintro ⟨⟨hlen, hmin, hdepth⟩, h⟩
    refine ⟨forall_mem_cons.mpr ⟨hlen, h.items⟩, fun hf hmem => ?_, .inr ?_⟩
    · rcases mem_cons.mp hmem with heq | hmem
      · exact hmin hf heq.symm
      · exact h.minimal hf hmem
    · rcases h.height with rfl | hheight
      · exact hdepth
      · rw [length_cons]
        omega

section

variable (hexec : m.vfExec = []) (hlen : ∀ v ∈ values, v.length ≤ 0xffffffff)

include hexec hlen

/-- The loop over the pushes at the front of a script. -/
theorem evalFrom_pushAll_append_iff {rest : CScript} :
    evalFrom ctx (pushAll values ++ rest) m = .ok m' ↔
      Pushable ctx.flags (m.stack.length + m.altstack.length) values ∧
        evalFrom ctx rest (m.withStack (values.reverse ++ m.stack)) = .ok m' := by
  induction values generalizing m with
  | nil =>
    have hnil : Pushable ctx.flags (m.stack.length + m.altstack.length) [] :=
      ⟨by simp, by simp, .inl rfl⟩
    exact ⟨fun h => ⟨hnil, h⟩, fun h => h.2⟩
  | cons v values ih =>
    have hrest : ∀ w ∈ values, w.length ≤ 0xffffffff := fun w hw =>
      hlen w (mem_cons_of_mem _ hw)
    have hih := ih (m := m.push v) hexec hrest
    have hstack : (m.push v).withStack (values.reverse ++ (m.push v).stack) =
        m.withStack ((v :: values).reverse ++ m.stack) := by
      simp [Machine.push, Machine.withStack]
    rw [length_push, hstack] at hih
    rw [pushAll, flatMap_cons, append_assoc,
      evalFrom_pushOne hexec (hlen v mem_cons_self), resume_pushResult_iff, ← pushAll, hih,
      pushable_cons_iff]
    exact and_assoc.symm

theorem evalFrom_pushAll_iff :
    evalFrom ctx (pushAll values) m = .ok m' ↔
      Pushable ctx.flags (m.stack.length + m.altstack.length) values ∧
        m' = m.withStack (values.reverse ++ m.stack) := by
  rw [← append_nil (pushAll values), evalFrom_pushAll_append_iff hexec hlen, evalFrom_nil,
    Except.ok.injEq, eq_comm]

end

theorem length_le_pushOne (v : Bytes) : v.length ≤ (pushOne v).length := by
  have hdata : ∀ b : Bytes, b.length ≤ (pushData b).length := by
    intro b
    unfold pushData
    split
    · simp
    · split
      · simp
        omega
      · split <;>
        · simp
          omega
  match v with
  | [] => simp
  | [b] =>
    show 1 ≤ (if 1 ≤ b && b ≤ 16 then [encodeOpN b.toNat]
      else pushData [b]).length
    split
    · simp
    · exact hdata [b]
  | a :: b :: tail => exact hdata _

theorem length_le_pushAll {v : Bytes} (h : v ∈ values) : v.length ≤ (pushAll values).length := by
  induction values with
  | nil => cases h
  | cons w values ih =>
    rw [pushAll, flatMap_cons, length_append]
    rcases mem_cons.mp h with rfl | h
    · have := length_le_pushOne v
      omega
    · have := ih h
      rw [pushAll] at this
      omega

theorem length_pushAll_le {n : Nat} (h : ∀ v ∈ values, v.length ≤ n) :
    (pushAll values).length ≤ values.length * (n + 5) := by
  induction values with
  | nil => simp [pushAll]
  | cons v values ih =>
    obtain ⟨hv, hvs⟩ := forall_mem_cons.mp h
    have hone : (pushOne v).length ≤ v.length + 5 := by
      obtain _ | ⟨c, _ | ⟨b, tail⟩⟩ := v
      · decide
      · rw [pushOne]
        split
        · simp
        · exact length_pushData_le [c]
      · exact length_pushData_le _
    have := ih hvs
    rw [pushAll, flatMap_cons, length_append, ← pushAll, length_cons, Nat.succ_mul]
    omega

theorem isPushOnly_pushAll (hlen : ∀ v ∈ values, v.length ≤ 0xffffffff) :
    (pushAll values).isPushOnly = true := by
  have hloop : ∀ rounds, (pushAll values).length ≤ rounds →
      isPushOnlyLoop rounds (pushAll values) = true := by
    induction values with
    | nil => exact fun rounds _ => by simp [pushAll, isPushOnlyLoop]
    | cons v values ih =>
      intro rounds hrounds
      obtain ⟨hv, hvs⟩ := forall_mem_cons.mp hlen
      obtain ⟨opcode, data, hget, hop⟩ := getOp_pushOne (pushAll values) hv
      have hcons : pushAll (v :: values) = pushOne v ++ pushAll values := flatMap_cons
      have hlt := length_getOp hget
      rw [hcons] at hrounds ⊢
      cases rounds with
      | zero => exact absurd hrounds (not_le.mpr (Nat.zero_lt_of_lt hlt))
      | succ rounds =>
        generalize pushOne v ++ pushAll values = script at hget hlt hrounds ⊢
        cases script with
        | nil => cases hget
        | cons b script =>
          rw [isPushOnlyLoop, hget]
          · have hle := Nat.le_of_lt_succ (lt_of_lt_of_le hlt hrounds)
            simp [hop, ih hvs rounds hle]
          · exact nofun
  exact hloop _ (le_refl _)

/-- A script of pushes evaluates under these conditions, and puts its elements on the stack. -/
theorem evalScript_pushAll_iff {stack stack' : List Bytes} :
    evalScript ctx stack (pushAll values) = .ok stack' ↔
      (pushAll values).length ≤ maxScriptSize ∧ Pushable ctx.flags stack.length values ∧
        stack' = values.reverse ++ stack := by
  rw [evalScript_eq_ok_iff]
  refine and_congr_right fun hsize => ?_
  have hbound : (pushAll values).length ≤ 10000 := hsize
  have hlen : ∀ v ∈ values, v.length ≤ 0xffffffff := fun v hv => by
    have := length_le_pushAll hv
    omega
  constructor
  · rintro ⟨m, hrun, -, rfl⟩
    obtain ⟨hpush, rfl⟩ := (evalFrom_pushAll_iff rfl hlen).mp hrun
    exact ⟨hpush, rfl⟩
  · rintro ⟨hpush, rfl⟩
    exact ⟨_, (evalFrom_pushAll_iff rfl hlen).mpr ⟨hpush, rfl⟩, rfl, rfl⟩

/-- A few elements of allowed size can be pushed. -/
theorem evalScript_pushAll (hcount : values.length ≤ 18)
    (hitems : ∀ v ∈ values, v.length ≤ maxScriptElementSize)
    (hmin : .minimalData ∈ ctx.flags → [0x81] ∉ values) :
    evalScript ctx [] (pushAll values) = .ok values.reverse := by
  refine evalScript_pushAll_iff.mpr ⟨?_, ⟨hitems, hmin, .inr ?_⟩, (append_nil _).symm⟩
  · calc (pushAll values).length ≤ values.length * (maxScriptElementSize + 5) :=
          length_pushAll_le hitems
      _ ≤ 18 * (maxScriptElementSize + 5) := Nat.mul_le_mul_right _ hcount
      _ ≤ maxScriptSize := by decide
  · rw [length_nil]
    omega

end AllPushes

/-- Where pushes have to be minimal, a script of pushes that is small enough puts its elements on
the stack unless one of them is `OP_1NEGATE`'s, for which `PushAll` has no case. -/
theorem evalScript_pushAll_minimal_iff (ctx : EvalContext) (hflag : .minimalData ∈ ctx.flags)
    (values : List Bytes) (hcount : values.length ≤ 1000)
    (hitems : ∀ v ∈ values, v.length ≤ 520) (hsize : (pushAll values).length ≤ 10000) :
    evalScript ctx [] (pushAll values) = .ok values.reverse ↔ [0x81] ∉ values := by
  rw [evalScript_pushAll_iff]
  constructor
  · exact fun h => h.2.1.minimal hflag
  · intro hmin
    refine ⟨hsize, ⟨hitems, fun _ => hmin, .inr ?_⟩, (append_nil _).symm⟩
    rwa [length_nil, zero_add]

/-- A context with `MINIMALDATA`, for scripts that check no signature -/
def minimalContext : EvalContext :=
  ⟨⟨fun _ => 0, fun _ => 0, fun _ => 0, fun _ => 0⟩,
    ⟨fun _ _ => [], fun _ _ _ => false, fun _ => false, fun _ _ => none, fun _ _ _ => false⟩,
    [.minimalData], baseSignatureChecker, .base⟩

/-- The element is pushed with its length, which is not the shortest way. -/
theorem evalScript_pushAll_negative_one :
    pushAll [[0x81]] = [0x01, 0x81] ∧
      evalScript minimalContext [] (pushAll [[0x81]]) = .error (.minimalData, []) :=
  ⟨rfl, rfl⟩

theorem evalScript_pushAll_minimal_iff_three :
    evalScript minimalContext [] (pushAll [[], [5], [0, 7]]) = .ok [[0, 7], [5], []] :=
  (evalScript_pushAll_minimal_iff minimalContext (by decide) _ (by decide) (by decide)
    (by decide)).mpr (by decide)

/-! ## 3. Witness programs of version 2 -/

namespace CScript

variable {program : Bytes}

section

variable (h : program.length = 20)

include h

theorem payToPQKeyHash_eq : payToPQKeyHash program = 0x52 :: 0x14 :: program := by
  rw [payToPQKeyHash, pushData, h]
  rfl

theorem isWitnessProgram_payToPQKeyHash :
    (payToPQKeyHash program).isWitnessProgram = some (2, program) := by
  rw [payToPQKeyHash_eq h]
  simp [isWitnessProgram, h, op0, op1, op16, decodeOpN]

theorem isPayToScriptHash_payToPQKeyHash : (payToPQKeyHash program).isPayToScriptHash = false := by
  rw [payToPQKeyHash_eq h]
  simp [isPayToScriptHash, h]

/-- A witness program of version 2 is a script of pushes. -/
theorem payToPQKeyHash_eq_pushAll : payToPQKeyHash program = pushAll [[2], program] := by
  match program, h with
  | a :: b :: rest, _ => simp [payToPQKeyHash, pushAll, pushOne, encodeOpN]

end

/-- Every witness program of version 2 with 20 bytes has this shape. -/
theorem eq_payToPQKeyHash {s : CScript} (h : s.isWitnessProgram = some (2, program))
    (hlen : program.length = 20) : s = payToPQKeyHash program := by
  obtain ⟨opcode, rfl, hversion, hop⟩ := isWitnessProgram_eq_some h
  have h52 : opcode = 0x52 := by
    unfold decodeOpN at hversion
    split at hversion
    · cases hversion
    · apply UInt8.toNat_inj.mp
      show opcode.toNat = 82
      omega
  rw [payToPQKeyHash_eq hlen, h52, hlen]
  rfl

end CScript

end RgmNode
