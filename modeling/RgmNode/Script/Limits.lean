import RgmNode.Script.Pushes

/-!
# The limits of an evaluation

Every instruction leaves elements of at most 520 bytes and counts at most 201 instructions, whether
it succeeds or fails.

* `execute_within`, `evalOp_within`, `evalLoop_within` — an instruction, a round and the loop
* `evalScript_short` — the stack that a script leaves, also where it fails
* `evalScript_limited` — no script gets past the limits on elements, stacks and instructions
-/

namespace RgmNode

open CScriptNum List Machine

variable {ctx : EvalContext} {m m' : Machine} {pc : CScript} {b : Bool} {keys sigs s t : List Bytes}

/-- No element is longer than `MAX_SCRIPT_ELEMENT_SIZE`. -/
def Short (s : List Bytes) : Prop := ∀ x ∈ s, x.length ≤ maxScriptElementSize

theorem short_cons {x : Bytes} : Short (x :: s) ↔ x.length ≤ maxScriptElementSize ∧ Short s :=
  forall_mem_cons

theorem Short.drop (h : Short s) (n : Nat) : Short (s.drop n) :=
  fun x hx => h x (mem_of_mem_drop hx)

/-- The limits on the elements of both stacks and on the number of instructions. -/
structure Machine.Limited (m : Machine) : Prop where
  stack : Short m.stack
  altstack : Short m.altstack
  ops : m.nOpCount ≤ maxOpsPerScript

/-- A machine within the limits, or an error that leaves short elements. -/
def Within : EvalResult → Prop
  | .ok m => m.Limited
  | .error (_, stack) => Short stack

/-! ## 1. What is pushed -/

theorem length_serialize_le (n : Int) : (serialize n).length ≤ maxScriptElementSize := by
  have habs (width k : Nat) : (absBytes width k).length ≤ width := by
    fun_induction absBytes width k <;> grind
  grind [serialize, maxScriptElementSize]

theorem length_boolBytes_le (b : Bool) : (boolBytes b).length ≤ maxScriptElementSize := by
  cases b <;> decide

theorem HashOp.length_apply_le (op : HashOp) (cr : Crypto) (vch : Bytes) :
    (op.apply cr vch).length ≤ maxScriptElementSize := by
  cases op <;> simp [HashOp.apply, maxScriptElementSize]

theorem StackOp.short_apply {op : StackOp} (h : op.apply s = some t) (hs : Short s) : Short t := by
  unfold StackOp.apply at h
  split at h <;> grind [length_serialize_le, short_cons]

/-! ## 2. Instructions -/

section

variable (h : m.Limited)

include h

theorem Machine.Limited.withStack (hs : Short s) : (m.withStack s).Limited :=
  ⟨hs, h.altstack, h.ops⟩

theorem Machine.Limited.tail {x : Bytes} (hstack : m.stack = x :: s) : Short s :=
  (short_cons.mp (hstack ▸ h.stack)).2

theorem Machine.Limited.push {vch : Bytes} (hvch : vch.length ≤ maxScriptElementSize) :
    (m.push vch).Limited :=
  h.withStack (short_cons.mpr ⟨hvch, h.stack⟩)

theorem Machine.Limited.fail (e : ScriptError) : Within (m.fail e) := h.stack

theorem pushBool_within (hs : Short s) (value andVerify : Bool) (e : ScriptError) :
    Within (pushBool m s value andVerify e) := by
  have hpushed : ∀ value, Short (boolBytes value :: s) := fun value =>
    short_cons.mpr ⟨length_boolBytes_le value, hs⟩
  unfold pushBool
  split
  · split
    · exact h.withStack hs
    · exact hpushed false
  · exact h.withStack (hpushed value)

theorem execLock_within (enabled : VerifyFlag) (check : Int → Bool) :
    Within (execLock ctx m enabled check) := by
  unfold execLock
  -- every branch fails or leaves the machine as it is
  repeat' split
  all_goals first | exact h | exact h.fail _

theorem execIf_within (negated : Bool) : Within (execIf ctx m negated) := by
  unfold execIf
  split
  · split
    · exact h.fail _
    next htop =>
    split
    · exact h.fail _
    · exact ⟨h.tail htop, h.altstack, h.ops⟩
  · exact ⟨h.stack, h.altstack, h.ops⟩

theorem execPick_within (remove : Bool) : Within (execPick ctx m remove) := by
  unfold execPick
  split
  · next top x s htop =>
    have hrest : Short (x :: s) := h.tail htop
    split
    · exact h.fail _
    next n _ =>
    split
    · exact hrest
    next vch hget =>
    have hvch : vch ∈ x :: s := by
      split at hget
      · cases hget
      · exact mem_of_getElem? hget
    refine h.withStack (short_cons.mpr ⟨hrest vch hvch, ?_⟩)
    split
    · exact fun y hy => hrest y (mem_of_mem_eraseIdx hy)
    · exact hrest
  · exact h.fail _

theorem execUnary_within (op : UnaryOp) : Within (execUnary ctx m op) := by
  unfold execUnary
  split
  · exact h.fail _
  next htop =>
  split
  · exact h.fail _
  · exact h.withStack (short_cons.mpr ⟨length_serialize_le _, h.tail htop⟩)

theorem execBinary_within (op : BinaryOp) : Within (execBinary ctx m op) := by
  unfold execBinary
  split
  · next x2 x1 s htop =>
    have hrest : Short s := (h.tail htop).drop 1
    split
    · dsimp only
      split
      · exact pushBool_within h hrest _ _ _
      · exact h.withStack (short_cons.mpr ⟨length_serialize_le _, hrest⟩)
    · exact h.fail _
  · exact h.fail _

theorem execWithin_within : Within (execWithin ctx m) := by
  unfold execWithin
  split
  · next htop =>
    split
    · exact h.withStack (short_cons.mpr ⟨length_boolBytes_le _, (h.tail htop).drop 2⟩)
    · exact h.fail _
  · exact h.fail _

theorem execCheckSig_within : Within (execCheckSig ctx m b) := by
  unfold execCheckSig
  split
  · next htop =>
    split
    · exact h.fail _
    dsimp only
    split
    · exact h.fail _
    · exact pushBool_within h ((h.tail htop).drop 1) _ _ _
  · exact h.fail _

theorem finishMultiSig_within (hsigs : Short sigs) (hs : Short s) :
    Within (finishMultiSig ctx m b keys sigs s) := by
  unfold finishMultiSig
  split
  · exact h.fail _
  split
  · refine forall_mem_append.mpr ⟨fun x hx => hsigs x ?_, hs⟩
    exact (dropWhile_sublist _).subset hx
  split
  · exact hs
  split
  · exact hs
  · exact pushBool_within h (short_cons.mp hs).2 _ _ _

theorem execSigs_within (hs : Short s) : Within (execSigs ctx m b keys s) := by
  unfold execSigs
  split
  · exact h.fail _
  next s =>
  have hrest : Short s := (short_cons.mp hs).2
  repeat' split
  · exact h.fail _
  · exact h.fail _
  · exact h.fail _
  · exact finishMultiSig_within h (fun x hx => hrest x (mem_of_mem_take hx)) (hrest.drop _)

theorem execCheckMultiSig_within : Within (execCheckMultiSig ctx m b) := by
  unfold execCheckMultiSig
  split
  · exact h.fail _
  next htop =>
  split
  · exact h.fail _
  split
  · exact h.fail _
  dsimp only
  -- the keys count as instructions too
  split
  · exact h.stack
  next hops =>
  have hcounted : Limited { m with nOpCount := m.nOpCount + _ } :=
    ⟨h.stack, h.altstack, not_lt.mp hops⟩
  split
  · exact h.stack
  · exact execSigs_within hcounted ((h.tail htop).drop _)

theorem execute_within (i : Instruction) : Within (execute ctx m pc i) := by
  cases i with
  | smallInt n => exact h.push (length_serialize_le n)
  | nop | codeSeparator => exact ⟨h.stack, h.altstack, h.ops⟩
  | checkLockTimeVerify | checkSequenceVerify => exact execLock_within h _ _
  | ifOp negated => exact execIf_within h negated
  | returnOp | disabled | bad => exact h.fail _
  | pick | roll => exact execPick_within h _
  | unary op => exact execUnary_within h op
  | binary op => exact execBinary_within h op
  | within => exact execWithin_within h
  | checkSig => exact execCheckSig_within h
  | checkMultiSig => exact execCheckMultiSig_within h
  | upgradableNop =>
    simp only [execute]
    split
    · exact h.fail _
    · exact h
  | elseOp | endIf =>
    simp only [execute]
    split
    · exact h.fail _
    · exact ⟨h.stack, h.altstack, h.ops⟩
  | verify =>
    simp only [execute]
    split
    · exact h.fail _
    next htop =>
    split
    · exact h.withStack (h.tail htop)
    · exact h.fail _
  | toAltStack =>
    simp only [execute]
    split
    · exact h.fail _
    · next htop =>
      obtain ⟨hvch, hrest⟩ := short_cons.mp (htop ▸ h.stack)
      exact ⟨hrest, short_cons.mpr ⟨hvch, h.altstack⟩, h.ops⟩
  | fromAltStack =>
    simp only [execute]
    split
    · exact h.fail _
    · next htop =>
      obtain ⟨hvch, hrest⟩ := short_cons.mp (htop ▸ h.altstack)
      exact ⟨short_cons.mpr ⟨hvch, h.stack⟩, hrest, h.ops⟩
  | stackOp op =>
    simp only [execute]
    split
    · exact h.fail _
    · next happly => exact h.withStack (StackOp.short_apply happly h.stack)
  | equal andVerify =>
    simp only [execute]
    split
    · next htop => exact pushBool_within h ((h.tail htop).drop 1) _ _ _
    · exact h.fail _
  | hash op =>
    simp only [execute]
    split
    · exact h.fail _
    · next htop => exact h.withStack (short_cons.mpr ⟨op.length_apply_le _ _, h.tail htop⟩)

/-! ## 3. Scripts -/

theorem evalOp_within (opcode : UInt8) (data : Bytes) : Within (evalOp ctx opcode data pc m) := by
  unfold evalOp
  dsimp only
  split
  · exact h.fail _
  next hdata =>
  split
  · exact h.fail _
  next hops =>
  have hcounted : (countOp m opcode).Limited := by
    simp only [countOp] at hops ⊢
    split
    · next hop => exact ⟨h.stack, h.altstack, by simpa [hop] using hops⟩
    · exact h
  split
  · exact h.fail _
  split
  · split
    · exact h.fail _
    · exact hcounted.push (not_lt.mp hdata)
  split
  · exact execute_within hcounted _
  · exact hcounted

theorem evalLoop_within (rounds : Nat) : Within (evalLoop ctx rounds pc m) := by
  fun_induction evalLoop ctx rounds pc m with
  | case1 => exact h
  | case2 | case3 => exact h.fail _
  | case4 _ _ _ _ opcode data pc _ e hop =>
    have hstep : Within (evalOp ctx opcode data pc _) := evalOp_within h opcode data
    rwa [hop] at hstep
  | case5 _ _ _ _ opcode data pc _ m hop _ =>
    have hstep : Within (evalOp ctx opcode data pc _) := evalOp_within h opcode data
    rw [hop] at hstep
    exact hstep.stack
  | case6 _ _ _ _ opcode data pc _ m hop _ ih =>
    have hstep : Within (evalOp ctx opcode data pc _) := evalOp_within h opcode data
    rw [hop] at hstep
    exact ih hstep

end

theorem length_evalLoop_le {rounds : Nat} (hsize : m.stack.length + m.altstack.length ≤ 1000)
    (hr : evalLoop ctx rounds pc m = .ok m') : m'.stack.length + m'.altstack.length ≤ 1000 := by
  fun_induction evalLoop ctx rounds pc m with
  | case1 =>
    cases hr
    exact hsize
  | case2 | case3 | case4 | case5 => cases hr
  | case6 _ _ _ _ _ _ _ _ _ _ hroom ih => exact ih (not_lt.mp hroom) hr

theorem limited_start (hs : Short s) (script : CScript) : Limited ⟨s, [], [], 0, script⟩ :=
  ⟨hs, nofun, Nat.zero_le _⟩

/-- The elements stay short, also up to an error. -/
theorem evalScript_short (hs : Short s) (script : CScript) :
    (∀ t, evalScript ctx s script = .ok t → Short t) ∧
      ∀ e t, evalScript ctx s script = .error (e, t) → Short t := by
  have hloop : Within (evalLoop ctx script.length script ⟨s, [], [], 0, script⟩) :=
    evalLoop_within (limited_start hs script) _
  constructor
  · intro t hok
    obtain ⟨-, m, hrun, -, rfl⟩ := evalScript_eq_ok_iff.mp hok
    rw [evalFrom] at hrun
    rw [hrun] at hloop
    exact hloop.stack
  · intro e t herr
    unfold evalScript at herr
    split at herr
    · cases herr
      exact hs
    split at herr
    · next hrun =>
      cases herr
      rwa [hrun] at hloop
    next hrun =>
    split at herr
    · cases herr
    · cases herr
      rw [hrun] at hloop
      exact hloop.stack

/-- A script that runs to its end has at most 10000 bytes, and it ends with at most 1000 elements
on its stacks, within the limits. -/
theorem evalScript_limited {script : CScript} (hs : Short s) (hsize : s.length ≤ 1000)
    (hr : evalScript ctx s script = .ok t) :
    script.length ≤ maxScriptSize ∧ ∃ m, evalFrom ctx script ⟨s, [], [], 0, script⟩ = .ok m ∧
      m.stack = t ∧ m.Limited ∧ m.stack.length + m.altstack.length ≤ 1000 := by
  obtain ⟨hscript, m, hrun, -, hout⟩ := evalScript_eq_ok_iff.mp hr
  have hend : Within (evalFrom ctx script ⟨s, [], [], 0, script⟩) :=
    evalLoop_within (limited_start hs script) _
  rw [hrun] at hend
  have hroom : m.stack.length + m.altstack.length ≤ 1000 := length_evalLoop_le (by simpa) hrun
  exact ⟨hscript, m, hrun, hout, hend, hroom⟩

theorem evalScript_limited_dup :
    ∃ m, evalFrom minimalContext [0x76, 0x6b] ⟨[[7]], [], [], 0, [0x76, 0x6b]⟩ = .ok m ∧
      m.stack = [[7]] ∧ m.Limited ∧ m.stack.length + m.altstack.length ≤ 1000 :=
  (evalScript_limited (by unfold Short; decide) (by decide) rfl).2

end RgmNode
