import Mathlib.Data.List.Dedup
import Mathlib.Data.List.Sort
import RgmNode.Script.Limits
import RgmNode.Script.MultiSig
import RgmNode.Script.Sign

/-!
# Combining signatures

`CombineSignatures` of `script/sign.cpp` merges two sets of signatures for an input, and the
loop of `signrawtransaction` merges what it has signed with what the inputs hold already.
-/

namespace RgmNode

open Checks Matching List SignatureData VerifyContext Option CScript

/-! ## 1. `CombineSignatures` -/

/-- `Stacks`: the elements of an input, bottom first -/
structure Stacks where
  script : List Bytes
  witness : List Bytes
deriving DecidableEq, Repr

namespace Stacks

/-- The stacks of an input; where its script fails, what was on the stack then. -/
def ofData (cr : Crypto) (sg : Schemes) (data : SignatureData) : Stacks where
  script :=
    match evalScript ⟨cr, sg, [.strictEnc], baseSignatureChecker, .base⟩ [] data.scriptSig with
    | .ok stack => stack.reverse
    | .error (_, stack) => stack.reverse
  witness := data.scriptWitness

def output (s : Stacks) : SignatureData := ⟨pushAll s.script, s.witness⟩

end Stacks

/-- The public keys among the solutions of a multisig output. -/
def listedKeys (vSolutions : List Bytes) : List Bytes := (vSolutions.drop 1).dropLast

/-- A `std::set` of the signatures, in its order. -/
def signatureSet (sigs : List Bytes) : List Bytes :=
  ((sigs.filter fun sig => !sig.isEmpty).dedup).insertionSort (· ≤ ·)

def combineMultisig (accepts : Bytes → Bytes → Bool) (vSolutions sigs1 sigs2 : List Bytes) :
    List Bytes :=
  let nSigsRequired := firstByte (vSolutions.headD [])
  let keys := listedKeys vSolutions
  -- a map from public keys to signatures
  let sigs := assign accepts keys (signatureSet (sigs1 ++ sigs2))
  let merged := collect (fun key => sigs.lookup key) nSigsRequired keys
  -- fill any missing ones
  [] :: merged ++ List.replicate (nSigsRequired - merged.length) []

/-- `CombineSignatures` for stacks.  A nested script is taken from the first stack, so that as
many rounds as it has elements are enough; a type that `Solver` does not set is one of the
others. -/
def combineStacks (checker : SignatureChecker) :
    Nat → CScript → SigVersion → Stacks → Stacks → Stacks
  | 0, _, _, _, _ => ⟨[], []⟩
  | rounds + 1, scriptPubKey, sigversion, sigs1, sigs2 =>
    match (solver scriptPubKey).typeRet with
    | some .nonStandard | some .nullData =>
      -- nothing is known about these, the bigger one is assumed to be right
      if sigs2.script.length ≤ sigs1.script.length then sigs1 else sigs2
    | some .pubKey | some .pubKeyHash =>
      if (sigs1.script.headD []).isEmpty then sigs2 else sigs1
    | some .witnessV0KeyHash =>
      if (sigs1.witness.headD []).isEmpty then sigs2 else sigs1
    | some .scriptHash =>
      let spk := sigs1.script.getLastD []
      if spk.isEmpty then sigs2
      else if (sigs2.script.getLastD []).isEmpty then sigs1
      else
        let result := combineStacks checker rounds spk sigversion
          { sigs1 with script := sigs1.script.dropLast }
          { sigs2 with script := sigs2.script.dropLast }
        { result with script := result.script ++ [spk] }
    | some .multiSig =>
      ⟨combineMultisig (fun sig key => checker.checkSig sig key scriptPubKey sigversion)
        (solver scriptPubKey).vSolutions sigs1.script sigs2.script, []⟩
    | some .witnessV0ScriptHash =>
      let spk := sigs1.witness.getLastD []
      if spk.isEmpty then sigs2
      else if (sigs2.witness.getLastD []).isEmpty then sigs1
      else
        let result := combineStacks checker rounds spk .witnessV0
          ⟨sigs1.witness.dropLast, []⟩ ⟨sigs2.witness.dropLast, []⟩
        ⟨[], result.script ++ [spk]⟩
    | _ => ⟨[], []⟩

def combineSignatures (cr : Crypto) (sg : Schemes) (checker : SignatureChecker)
    (scriptPubKey : CScript) (scriptSig1 scriptSig2 : SignatureData) : SignatureData :=
  let sigs1 := Stacks.ofData cr sg scriptSig1
  (combineStacks checker (sigs1.script.length + sigs1.witness.length + 1) scriptPubKey .base sigs1
    (Stacks.ofData cr sg scriptSig2)).output

/-! ## 2. The signing loop -/

/-- `(nHashType & ~SIGHASH_ANYONECANPAY) == SIGHASH_SINGLE` -/
def isHashSingle (nHashType : Int32) : Bool := nHashType &&& ~~~0x80 = 3

/-- The loop of `signrawtransaction` for one input: the data it ends up with, and whether that
is complete.  `variants` are the data of the input in the transactions that were passed in. -/
def signInput (cr : Crypto) (sg : Schemes) (keystore : KeyStore) (sp : SpendContext)
    (nHashType : Int32) (prevPubKey : CScript) (variants : List SignatureData) :
    SignatureData × Bool :=
  -- only sign `SIGHASH_SINGLE` if there is a corresponding output
  let signed :=
    if !isHashSingle nHashType || sp.nIn < sp.txTo.vout.length then
      ((transactionSignatureCreator cr sg keystore sp nHashType).produceSignature prevPubKey).2
    else SignatureData.empty
  let sigdata := variants.foldl (combineSignatures cr sg (sp.checker cr sg) prevPubKey) signed
  (sigdata, sigdata.complete cr sg (sp.checker cr sg) prevPubKey)

/-! ## 3. The script that decides -/

/-- A script whose elements are combined.  `view` takes them from an input, and is `none` where a
script on the way to them is missing; `wrap` puts them into an input. -/
structure Leaf where
  script : CScript
  sigversion : SigVersion
  view : Stacks → Option Stacks
  wrap : Stacks → Stacks

namespace Leaf

/-- The output script itself. -/
def bare (script : CScript) : Leaf := ⟨script, .base, some, id⟩

/-- The script at the end of a witness. -/
def inWitness (script : CScript) : Leaf where
  script := script
  sigversion := .witnessV0
  view o := if (o.witness.getLastD []).isEmpty then none else some ⟨o.witness.dropLast, []⟩
  wrap x := ⟨[], x.script ++ [script]⟩

/-- A script below `redeem`, which is at the end of a `scriptSig`. -/
def inScriptHash (leaf : Leaf) (redeem : CScript) : Leaf where
  script := leaf.script
  sigversion := leaf.sigversion
  view o :=
    if (o.script.getLastD []).isEmpty then none
    else leaf.view { o with script := o.script.dropLast }
  wrap x := { leaf.wrap x with script := (leaf.wrap x).script ++ [redeem] }

def ofWitness (script : CScript) (witness : List Bytes) : Leaf :=
  if (solver script).typeRet = some .witnessV0ScriptHash then inWitness (witness.getLastD [])
  else bare script

/-- The script that decides about an output, for an input in which no script is missing. -/
def ofStacks (scriptPubKey : CScript) (s : Stacks) : Leaf :=
  if (solver scriptPubKey).typeRet = some .scriptHash then
    (ofWitness (s.script.getLastD []) s.witness).inScriptHash (s.script.getLastD [])
  else ofWitness scriptPubKey s.witness

/-- Elements for the script are combined with those of another input, if it has any. -/
def step (checker : SignatureChecker) (leaf : Leaf) (x o : Stacks) : Stacks :=
  match leaf.view o with
  | some o => combineStacks checker 1 leaf.script leaf.sigversion x o
  | none => x

/-- The types of scripts that are signed themselves. -/
def simpleTypes : List (Option TxnOutType) :=
  [some .pubKey, some .pubKeyHash, some .multiSig, some .witnessV0KeyHash, some .witnessV2PQKeyHash]

/-- The script that decides about an output other than a script hash. -/
inductive Inner (script : CScript) : Leaf → Prop
  | bare (h : (solver script).typeRet ∈ simpleTypes) : Inner script (bare script)
  | inWitness {last : CScript} (h : (solver script).typeRet = some .witnessV0ScriptHash)
      (hne : last ≠ []) (hlast : (solver last).typeRet ∈ simpleTypes) : Inner script (inWitness last)

/-- The script that decides about an output. -/
inductive Decides (scriptPubKey : CScript) : Leaf → Prop
  | inner {leaf : Leaf} (h : Inner scriptPubKey leaf) : Decides scriptPubKey leaf
  | inScriptHash {leaf : Leaf} {redeem : CScript}
      (h : (solver scriptPubKey).typeRet = some .scriptHash) (hne : redeem ≠ [])
      (hinner : Inner redeem leaf) : Decides scriptPubKey (leaf.inScriptHash redeem)

variable {leaf : Leaf} {script scriptPubKey : CScript} {x o : Stacks} {checker : SignatureChecker}

theorem combineStacks_simple (h : (solver script).typeRet ∈ simpleTypes) (rounds : Nat)
    (v : SigVersion) :
    combineStacks checker (rounds + 1) script v x o = combineStacks checker 1 script v x o := by
  simp only [simpleTypes, mem_cons, not_mem_nil, or_false] at h
  rcases h with h | h | h | h | h <;> simp only [combineStacks, h]

theorem isEmpty_eq_false {b : Bytes} (h : b ≠ []) : b.isEmpty = false := by
  cases b with
  | nil => exact absurd rfl h
  | cons => rfl

section Wrap

variable (hx : leaf.sigversion = .witnessV0 → x.witness = [])

include hx

theorem Inner.combineStacks_wrap (h : Inner script leaf) {rounds : Nat}
    (hr : (leaf.wrap x).witness.length < rounds) :
    combineStacks checker rounds script .base (leaf.wrap x) o = leaf.wrap (leaf.step checker x o) := by
  cases h with
  | bare h =>
    obtain ⟨rounds, rfl⟩ := Nat.exists_eq_add_one_of_ne_zero (Nat.ne_zero_of_lt hr)
    exact combineStacks_simple h rounds .base
  | @inWitness last h hne hlast =>
    obtain ⟨elements, witness⟩ := x
    obtain rfl : witness = [] := hx rfl
    simp only [Leaf.inWitness, length_append, length_singleton] at hr
    obtain ⟨rounds, rfl⟩ : ∃ n, rounds = n + 1 + 1 := ⟨rounds - 2, by omega⟩
    rw [combineStacks, h]
    cases ho : (o.witness.getLastD []).isEmpty <;>
      simp only [Leaf.inWitness, step, getLastD_concat, isEmpty_eq_false hne, dropLast_concat, ho,
        combineStacks_simple hlast rounds, if_true, Bool.false_eq_true, if_false]

theorem Decides.combineStacks_wrap (h : Decides scriptPubKey leaf) {rounds : Nat}
    (hr : (leaf.wrap x).script.length + (leaf.wrap x).witness.length < rounds) :
    combineStacks checker rounds scriptPubKey .base (leaf.wrap x) o =
      leaf.wrap (leaf.step checker x o) := by
  cases h with
  | inner h => exact h.combineStacks_wrap hx (by omega)
  | @inScriptHash leaf redeem h hne hinner =>
    simp only [Leaf.inScriptHash, length_append, length_singleton] at hr
    obtain ⟨rounds, rfl⟩ : ∃ n, rounds = n + 1 := ⟨rounds - 1, by omega⟩
    rw [combineStacks, h]
    have hx : leaf.sigversion = .witnessV0 → x.witness = [] := hx
    have hwrap : ∀ o, combineStacks checker rounds redeem .base (leaf.wrap x) o =
        leaf.wrap (leaf.step checker x o) := fun o => hinner.combineStacks_wrap hx (by omega)
    cases ho : (o.script.getLastD []).isEmpty <;>
      simp only [Leaf.inScriptHash, step, getLastD_concat, isEmpty_eq_false hne, dropLast_concat, ho,
        hwrap, if_true, Bool.false_eq_true, if_false]

theorem Inner.view_wrap (h : Inner script leaf) : leaf.view (leaf.wrap x) = some x := by
  cases h with
  | bare => rfl
  | @inWitness last _ hne =>
    obtain ⟨elements, witness⟩ := x
    obtain rfl : witness = [] := hx rfl
    simp only [Leaf.inWitness, getLastD_concat, isEmpty_eq_false hne, dropLast_concat,
      Bool.false_eq_true, if_false]

theorem Decides.view_wrap (h : Decides scriptPubKey leaf) : leaf.view (leaf.wrap x) = some x := by
  cases h with
  | inner h => exact h.view_wrap hx
  | @inScriptHash leaf redeem _ hne hinner =>
    simp only [Leaf.inScriptHash, getLastD_concat, isEmpty_eq_false hne, dropLast_concat,
      Bool.false_eq_true, if_false]
    exact hinner.view_wrap hx

end Wrap

theorem Inner.ofWitness_wrap (h : Inner script leaf) :
    ofWitness script (leaf.wrap x).witness = leaf := by
  cases h with
  | bare h =>
    refine if_neg fun htype => ?_
    rw [htype] at h
    revert h
    decide
  | inWitness h =>
    rw [ofWitness, if_pos h]
    simp only [Leaf.inWitness, getLastD_concat]

/-- An input that holds elements for the script shows which it is. -/
theorem Decides.ofStacks_wrap (h : Decides scriptPubKey leaf) :
    ofStacks scriptPubKey (leaf.wrap x) = leaf := by
  cases h with
  | inner h =>
    refine (if_neg fun htype => ?_).trans h.ofWitness_wrap
    cases h with
    | bare h =>
      rw [htype] at h
      revert h
      decide
    | inWitness h => cases htype.symm.trans h
  | inScriptHash h _ hinner =>
    rw [ofStacks, if_pos h]
    simp only [Leaf.inScriptHash, getLastD_concat, hinner.ofWitness_wrap]

end Leaf

/-! ## 4. The loop -/

section Loop

variable {cr : Crypto} {sg : Schemes} {checker : SignatureChecker} {scriptPubKey : CScript}
  {leaf : Leaf} {own x o : Stacks}

namespace Stacks

theorem short_ofData (data : SignatureData) : Short (ofData cr sg data).script := by
  let ctx : EvalContext := ⟨cr, sg, [.strictEnc], baseSignatureChecker, .base⟩
  have hshort := @evalScript_short ctx [] nofun data.scriptSig
  unfold ofData
  split
  · next heval => exact fun v hv => hshort.1 _ heval v (mem_reverse.mp hv)
  · next heval => exact fun v hv => hshort.2 _ _ heval v (mem_reverse.mp hv)

/-- A few short elements are read back as they were written. -/
theorem ofData_output {s : Stacks} (hcount : s.script.length ≤ 18) (hshort : Short s.script) :
    ofData cr sg s.output = s := by
  have heval : evalScript ⟨cr, sg, [.strictEnc], baseSignatureChecker, .base⟩ []
      (pushAll s.script) = .ok s.script.reverse :=
    evalScript_pushAll hcount hshort fun hflag => by simp at hflag
  simp [ofData, output, heval]

end Stacks

namespace Leaf

/-- Elements for a script that are read back. -/
structure Readable (leaf : Leaf) (x : Stacks) : Prop where
  count : x.script.length ≤ 17
  short : leaf.sigversion = .base → Short x.script
  witness : leaf.sigversion = .witnessV0 → x.witness = []

theorem Inner.forall_wrap_iff {script : CScript} (h : Inner script leaf) {P : Bytes → Prop} :
    (∀ v ∈ (leaf.wrap x).script, P v) ↔ (leaf.sigversion = .base → ∀ v ∈ x.script, P v) := by
  cases h with
  | bare => exact ⟨fun h _ => h, fun h => h rfl⟩
  | inWitness => exact ⟨nofun, fun _ => nofun⟩

/-- The scripts on the way are the same for all elements. -/
theorem Decides.forall_wrap_iff (h : Decides scriptPubKey leaf) {P : Bytes → Prop} :
    (∀ v ∈ (leaf.wrap x).script, P v) ↔
      (leaf.sigversion = .base → ∀ v ∈ x.script, P v) ∧
        ∀ v ∈ (leaf.wrap ⟨[], []⟩).script, P v := by
  have hnil : ∀ v ∈ ([] : List Bytes), P v := nofun
  cases h with
  | inner h =>
    rw [h.forall_wrap_iff, h.forall_wrap_iff]
    exact ⟨fun hx => ⟨hx, fun _ => hnil⟩, And.left⟩
  | @inScriptHash leaf redeem _ _ h =>
    have happend : ∀ x, (∀ v ∈ ((leaf.inScriptHash redeem).wrap x).script, P v) ↔
        (leaf.sigversion = .base → ∀ v ∈ x.script, P v) ∧ ∀ v ∈ [redeem], P v := fun x =>
      forall_mem_append.trans (and_congr_left' h.forall_wrap_iff)
    rw [happend, happend]
    exact ⟨fun hx => ⟨hx.1, fun _ => hnil, hx.2⟩, fun hx => ⟨hx.1, hx.2.2⟩⟩

theorem Decides.length_wrap_le (h : Decides scriptPubKey leaf) :
    (leaf.wrap x).script.length ≤ x.script.length + 1 := by
  have hinner : ∀ {script leaf}, Inner script leaf →
      (leaf.wrap x).script.length ≤ x.script.length := by
    intro script leaf h
    cases h with
    | bare => exact le_refl _
    | inWitness => exact Nat.zero_le _
  cases h with
  | inner h => exact (hinner h).trans (Nat.le_succ _)
  | inScriptHash _ _ h =>
    rw [Leaf.inScriptHash, length_append]
    exact Nat.add_le_add_right (hinner h) 1

theorem Decides.ofData_wrap (h : Decides scriptPubKey leaf)
    (hfixed : Short (leaf.wrap ⟨[], []⟩).script) (hx : leaf.Readable x) :
    Stacks.ofData cr sg (leaf.wrap x).output = leaf.wrap x :=
  Stacks.ofData_output (h.length_wrap_le.trans (Nat.succ_le_succ hx.count))
    (h.forall_wrap_iff.mpr ⟨hx.short, hfixed⟩)

/-- What signing leaves for a script: the signatures are there. -/
structure Filled (leaf : Leaf) (own : Stacks) : Prop where
  count : own.script.length ≤ 17
  witness : leaf.sigversion = .witnessV0 → own.witness = []
  solved : (solver leaf.script).solved = true
  /-- several signatures are merged, and one is kept -/
  slots : (solver leaf.script).typeRet = some .multiSig → ∃ sigs, own = ⟨[] :: sigs, []⟩ ∧
    sigs.length = firstByte ((solver leaf.script).vSolutions.headD [])
  kept : (solver leaf.script).typeRet ≠ some .multiSig →
    (solver leaf.script).typeRet ≠ some .witnessV2PQKeyHash → ∀ checker o,
      combineStacks checker 1 leaf.script leaf.sigversion own o = own ∧
      combineStacks checker 1 leaf.script leaf.sigversion ⟨[], []⟩ own = own

end Leaf

theorem mem_signatureSet {sigs : List Bytes} {sig : Bytes} :
    sig ∈ signatureSet sigs ↔ sig ∈ sigs ∧ sig ≠ [] := by
  rw [signatureSet, mem_insertionSort, mem_dedup]
  simp

/-- The signatures under the listed keys, as many as are needed. -/
def merged (accepts : Bytes → Bytes → Bool) (vSolutions sigs : List Bytes) : List Bytes :=
  collect (fun key => (assign accepts (listedKeys vSolutions) (signatureSet sigs)).lookup key)
    (firstByte (vSolutions.headD [])) (listedKeys vSolutions)

section Merged

variable {accepts : Bytes → Bytes → Bool} {vSolutions sigs sigs1 sigs2 : List Bytes} {sig : Bytes}

theorem combineMultisig_eq : combineMultisig accepts vSolutions sigs1 sigs2 =
    [] :: merged accepts vSolutions (sigs1 ++ sigs2) ++ replicate (firstByte (vSolutions.headD []) -
      (merged accepts vSolutions (sigs1 ++ sigs2)).length) [] := rfl

theorem length_merged_le : (merged accepts vSolutions sigs).length ≤ firstByte (vSolutions.headD []) := by
  rw [merged, length_collect]
  exact min_le_left _ _

theorem length_combineMultisig : (combineMultisig accepts vSolutions sigs1 sigs2).length =
    firstByte (vSolutions.headD []) + 1 := by
  have := @length_merged_le accepts vSolutions (sigs1 ++ sigs2)
  rw [combineMultisig_eq]
  simp only [length_append, length_cons, length_replicate]
  omega

theorem mem_merged (h : sig ∈ merged accepts vSolutions sigs) : sig ∈ sigs ∧ sig ≠ [] := by
  obtain ⟨key, -, hkey⟩ := mem_collect h
  exact mem_signatureSet.mp (accepts_of_lookup_assign hkey).1

theorem short_combineMultisig (h1 : Short sigs1) (h2 : Short sigs2) :
    Short (combineMultisig accepts vSolutions sigs1 sigs2) := by
  rw [combineMultisig_eq]
  refine forall_mem_append.mpr ⟨forall_mem_cons.mpr ⟨by simp, fun sig hsig => ?_⟩, fun sig hsig => ?_⟩
  · exact (forall_mem_append.mpr ⟨h1, h2⟩) sig (mem_merged hsig).1
  · rw [(mem_replicate.mp hsig).2]
    simp

end Merged

namespace Leaf

theorem Decides.short_view (h : Decides scriptPubKey leaf) {data : SignatureData}
    (hbase : leaf.sigversion = .base)
    (hview : leaf.view (Stacks.ofData cr sg data) = some o) : Short o.script := by
  have hinner : ∀ {script leaf s}, Inner script leaf → leaf.sigversion = .base →
      leaf.view s = some o → s = o := by
    intro script leaf s h hbase hview
    cases h with
    | bare => exact Option.some.inj hview
    | inWitness => cases hbase
  cases h with
  | inner h => exact hinner h hbase hview ▸ Stacks.short_ofData data
  | inScriptHash _ _ h =>
    simp only [Leaf.inScriptHash] at hview
    split at hview
    · cases hview
    · obtain rfl := hinner h hbase hview
      exact fun v hv => Stacks.short_ofData data v (dropLast_subset _ hv)

theorem combineStacks_multiSig (htype : (solver leaf.script).typeRet = some .multiSig) :
    combineStacks checker 1 leaf.script leaf.sigversion x o =
      ⟨combineMultisig (fun sig key => checker.checkSig sig key leaf.script leaf.sigversion)
        (solver leaf.script).vSolutions x.script o.script, []⟩ := by
  rw [combineStacks, htype]

theorem combineStacks_pq (htype : (solver leaf.script).typeRet = some .witnessV2PQKeyHash) :
    combineStacks checker 1 leaf.script leaf.sigversion x o = ⟨[], []⟩ := by
  rw [combineStacks, htype]

theorem Filled.combineStacks_empty (hown : leaf.Filled own) :
    combineStacks checker 1 leaf.script leaf.sigversion ⟨[], []⟩ own =
      combineStacks checker 1 leaf.script leaf.sigversion own ⟨[], []⟩ := by
  by_cases hmulti : (solver leaf.script).typeRet = some .multiSig
  · rw [combineStacks_multiSig hmulti, combineStacks_multiSig hmulti, combineMultisig_eq,
      combineMultisig_eq, nil_append, append_nil]
  by_cases hpq : (solver leaf.script).typeRet = some .witnessV2PQKeyHash
  · rw [combineStacks_pq hpq, combineStacks_pq hpq]
  · obtain ⟨hleft, hright⟩ := hown.kept hmulti hpq checker ⟨[], []⟩
    rw [hleft, hright]

/-- The elements in the course of the loop. -/
def Combining (leaf : Leaf) (own x : Stacks) : Prop :=
  leaf.Readable x ∧ ((solver leaf.script).typeRet ≠ some .multiSig →
    (solver leaf.script).typeRet ≠ some .witnessV2PQKeyHash → x = own)

theorem Decides.combining_step (h : Decides scriptPubKey leaf) (hown : leaf.Filled own)
    (hx : leaf.Combining own x) (data : SignatureData) :
    leaf.Combining own (leaf.step checker x (Stacks.ofData cr sg data)) := by
  unfold step
  split
  · next o hview =>
    by_cases hmulti : (solver leaf.script).typeRet = some .multiSig
    · have hneeded : firstByte ((solver leaf.script).vSolutions.headD []) + 1 ≤ 17 := by
        obtain ⟨sigs, rfl, hsigs⟩ := hown.slots hmulti
        exact hsigs ▸ hown.count
      rw [combineStacks_multiSig hmulti]
      refine ⟨⟨length_combineMultisig.le.trans hneeded, fun hbase => ?_, fun _ => rfl⟩,
        fun hne => absurd hmulti hne⟩
      exact short_combineMultisig (hx.1.short hbase) (h.short_view hbase hview)
    by_cases hpq : (solver leaf.script).typeRet = some .witnessV2PQKeyHash
    · rw [combineStacks_pq hpq]
      exact ⟨⟨Nat.zero_le _, fun _ => nofun, fun _ => rfl⟩, fun _ hne => absurd hpq hne⟩
    · rw [hx.2 hmulti hpq, (hown.kept hmulti hpq checker o).1]
      exact hx.2 hmulti hpq ▸ hx
  · exact hx

/-- The loop over other inputs: only those count that have elements for the script. -/
theorem Decides.foldl_combineSignatures (h : Decides scriptPubKey leaf) (hown : leaf.Filled own)
    (hshort : Short (leaf.wrap own).script) (variants : List SignatureData) :
    variants.foldl (combineSignatures cr sg checker scriptPubKey) (leaf.wrap own).output =
      (leaf.wrap ((variants.filterMap fun data => leaf.view (Stacks.ofData cr sg data)).foldl
        (combineStacks checker 1 leaf.script leaf.sigversion) own)).output := by
  obtain ⟨hbase, hfixed⟩ := h.forall_wrap_iff.mp hshort
  -- the induction is over elements that are read back, as those of the first input are
  suffices hall : ∀ x, leaf.Combining own x →
      variants.foldl (combineSignatures cr sg checker scriptPubKey) (leaf.wrap x).output =
        (leaf.wrap ((variants.filterMap fun data => leaf.view (Stacks.ofData cr sg data)).foldl
          (combineStacks checker 1 leaf.script leaf.sigversion) x)).output from
    hall own ⟨⟨hown.count, hbase, hown.witness⟩, fun _ _ => rfl⟩
  induction variants with
  | nil => exact fun _ _ => rfl
  | cons data variants ih =>
    intro x hx
    rw [foldl_cons, combineSignatures, h.ofData_wrap hfixed hx.1,
      h.combineStacks_wrap hx.1.witness (Nat.lt_succ_self _), ih _ (h.combining_step hown hx data),
      filterMap_cons, step]
    cases leaf.view (Stacks.ofData cr sg data) <;> rfl

/-- Data that is combined with nothing, on either side. -/
theorem Decides.combineSignatures_empty (h : Decides scriptPubKey leaf) (hown : leaf.Filled own)
    (hshort : Short (leaf.wrap own).script) :
    combineSignatures cr sg checker scriptPubKey .empty (leaf.wrap own).output =
      combineSignatures cr sg checker scriptPubKey (leaf.wrap own).output .empty := by
  obtain ⟨hbase, hfixed⟩ := h.forall_wrap_iff.mp hshort
  have hempty : Stacks.ofData cr sg .empty = ⟨[], []⟩ := rfl
  rw [combineSignatures, combineSignatures, hempty, h.ofData_wrap hfixed ⟨hown.count, hbase, hown.witness⟩,
    h.combineStacks_wrap hown.witness (Nat.lt_succ_self _)]
  refine congrArg Stacks.output ?_
  cases h with
  | inner h =>
    cases h with
    | bare => exact hown.combineStacks_empty
    | inWitness h => simp [combineStacks, h, Leaf.inWitness, step]
  | inScriptHash h => simp [combineStacks, h, Leaf.inScriptHash, step]

end Leaf

end Loop

/-! ## 5. What signing leaves -/

theorem firstByte_le_of_solver {script : CScript} {vSolutions : List Bytes}
    (h : solver script = ⟨true, some .multiSig, vSolutions⟩) : firstByte (vSolutions.headD []) ≤ 16 := by
  have htype : (solver script).typeRet = some .multiSig := by rw [h]
  obtain ⟨hmatch, hcounts⟩ := matchTemplate_of_solver_multiSig htype
  rw [h] at hmatch hcounts
  obtain ⟨nRequired, keys, -, ⟨-, hle, hmost⟩, rfl, -⟩ := matchTemplate_multiSig hmatch hcounts.symm
  have hbyte : ∀ n : Nat, n < 17 → firstByte [UInt8.ofNat n] ≤ 16 := by decide
  exact hbyte nRequired (by omega)

namespace SignatureCreator

variable {c : SignatureCreator} {script : CScript} {vSolutions : List Bytes} {t : TxnOutType}
  {leaf : Leaf}

theorem ne_nil_of_solved {sigversion : SigVersion}
    (h : (c.signStep script sigversion).solved = true) : script ≠ [] := by
  rintro rfl
  cases h

/-- A signature made by the creator is not empty: it ends with the hash type. -/
def SigsNonempty (c : SignatureCreator) : Prop :=
  ∀ address scriptCode sigversion sig,
    c.createSig address scriptCode sigversion = some sig → sig ≠ []

variable (hc : c.SigsNonempty)

include hc

/-- The first element for a public key or its hash is the signature. -/
theorem head_of_signType {sigversion : SigVersion} (ht : t = .pubKey ∨ t = .pubKeyHash)
    (h : (c.signType script sigversion vSolutions t).solved = true) :
    (c.signType script sigversion vSolutions t).ret.headD [] ≠ [] ∧
      (c.signType script sigversion vSolutions t).ret.length ≤ 2 := by
  rcases ht with rfl | rfl <;>
  · obtain ⟨ret, hret, hstep⟩ := stepOf_solved h
    obtain ⟨sig, hsig, rfl⟩ := map_eq_some_iff.mp hret
    have hne := hc _ _ _ _ hsig
    simp only [signType] at hstep ⊢
    rw [hstep]
    exact ⟨hne, by simp⟩

theorem filled_of_signType (hsol : solver leaf.script = ⟨true, some t, vSolutions⟩)
    (ht : t = .pubKey ∨ t = .pubKeyHash ∨ t = .multiSig)
    (h : (c.signType leaf.script leaf.sigversion vSolutions t).solved = true) :
    leaf.Filled ⟨(c.signType leaf.script leaf.sigversion vSolutions t).ret, []⟩ := by
  have hsolved : (solver leaf.script).solved = true := by rw [hsol]
  rcases ht with rfl | rfl | rfl
  · obtain ⟨hhead, hcount⟩ := head_of_signType hc (.inl rfl) h
    exact ⟨hcount.trans (by decide), fun _ => rfl, hsolved, by simp [hsol],
      by simp [combineStacks, hsol, hhead, -headD_eq_head?_getD]⟩
  · obtain ⟨hhead, hcount⟩ := head_of_signType hc (.inr rfl) h
    exact ⟨hcount.trans (by decide), fun _ => rfl, hsolved, by simp [hsol],
      by simp [combineStacks, hsol, hhead, -headD_eq_head?_getD]⟩
  · have hneeded := of_decide_eq_true h
    refine ⟨?_, fun _ => rfl, hsolved, fun _ => ⟨_, rfl, ?_⟩, by simp [hsol]⟩
    · have := firstByte_le_of_solver hsol
      simp only [signType, length_cons, hneeded]
      omega
    · rw [hsol]
      exact hneeded

theorem filled_inWitness (hsol : solver script = ⟨true, some t, vSolutions⟩)
    (h : (c.signType script .witnessV0 vSolutions t).solved = true) (ht : some t ∉ nestedTypes) :
    some t ∈ Leaf.simpleTypes ∧
      (Leaf.inWitness script).Filled ⟨(c.signType script .witnessV0 vSolutions t).ret, []⟩ := by
  have htemplate : t = .pubKey ∨ t = .pubKeyHash ∨ t = .multiSig →
      (Leaf.inWitness script).Filled ⟨(c.signType script .witnessV0 vSolutions t).ret, []⟩ := fun ht =>
    filled_of_signType hc hsol ht h
  cases t with
  | pubKey => exact ⟨by decide, htemplate (.inl rfl)⟩
  | pubKeyHash => exact ⟨by decide, htemplate (.inr (.inl rfl))⟩
  | multiSig => exact ⟨by decide, htemplate (.inr (.inr rfl))⟩
  | witnessV2PQKeyHash =>
    exact ⟨by decide, by simp [signType], fun _ => rfl, by simp [Leaf.inWitness, hsol],
      by simp [Leaf.inWitness, hsol], by simp [Leaf.inWitness, hsol]⟩
  | nonStandard | nullData | witnessUnknown => cases h
  | scriptHash | witnessV0KeyHash | witnessV0ScriptHash => exact absurd (by decide) ht

/-- The two steps for an output other than a script hash. -/
theorem exists_inner (hsol : solver script = ⟨true, some t, vSolutions⟩) (ht : t ≠ .scriptHash)
    (h : (c.signWitness (c.signType script .base vSolutions t)).1.solved = true) :
    ∃ leaf own, Leaf.Inner script leaf ∧ leaf.Filled own ∧
      leaf.wrap own = ⟨(c.signWitness (c.signType script .base vSolutions t)).1.ret,
        (c.signWitness (c.signType script .base vSolutions t)).2⟩ := by
  have hstep := solved_of_signWitness h
  have hscript : (solver script).solved = true := by rw [hsol]
  have hsimple : some t ∈ Leaf.simpleTypes → Leaf.Inner script (.bare script) := fun hmem =>
    .bare (by rw [hsol]; exact hmem)
  cases t with
  | nonStandard | nullData | witnessUnknown => cases hstep
  | scriptHash => exact absurd rfl ht
  | pubKey =>
    rw [signWitness_of_bare whichType_signType (.inl rfl)]
    exact ⟨_, _, hsimple (by decide), filled_of_signType hc hsol (.inl rfl) hstep, rfl⟩
  | pubKeyHash =>
    rw [signWitness_of_bare whichType_signType (.inr (.inl rfl))]
    exact ⟨_, _, hsimple (by decide), filled_of_signType hc hsol (.inr (.inl rfl)) hstep, rfl⟩
  | multiSig =>
    rw [signWitness_of_bare whichType_signType (.inr (.inr rfl))]
    exact ⟨_, _, hsimple (by decide), filled_of_signType hc hsol (.inr (.inr rfl)) hstep, rfl⟩
  | witnessV0KeyHash =>
    -- the inner script is one for a public key hash
    have hlen : (vSolutions.headD []).length = 20 := by
      obtain ⟨program, hprogram, hsol'⟩ := solver_of_keyHash_type (by rw [hsol])
      obtain ⟨-, -, rfl⟩ := Solution.mk.inj (hsol.symm.trans hsol')
      exact hprogram
    have hinner := solver_payToPubkeyHash hlen
    have hsolved : (c.signStep (payToPubkeyHash (vSolutions.headD [])) .witnessV0).solved =
        true := h
    refine ⟨_, ⟨[], (c.signStep (payToPubkeyHash (vSolutions.headD [])) .witnessV0).ret⟩,
      hsimple (by decide), ⟨Nat.zero_le _, nofun, hscript, by simp [Leaf.bare, hsol], ?_⟩, rfl⟩
    rw [signStep_of_solver hinner] at hsolved ⊢
    simp [combineStacks, Leaf.bare, hsol, (head_of_signType hc (.inr rfl) hsolved).1,
      -headD_eq_head?_getD]
  | witnessV0ScriptHash =>
    obtain ⟨ret, hret, hst⟩ := stepOf_solved hstep
    obtain ⟨last, -, rfl⟩ := map_eq_some_iff.mp hret
    simp only [signType] at h ⊢
    rw [hst] at h ⊢
    simp only [signWitness, headD_cons, Bool.and_eq_true] at h ⊢
    obtain ⟨hsolved, hnested⟩ := h
    have hne := ne_nil_of_solved hsolved
    replace hnested : (c.signStep last .witnessV0).whichType ∉ nestedTypes :=
      of_decide_eq_true hnested
    obtain ⟨t, vSolutions, hlast, hsign⟩ := signStep_of_solved hsolved
    rw [hsign] at hsolved hnested ⊢
    rw [whichType_signType] at hnested
    obtain ⟨hsimple, hfilled⟩ := filled_inWitness hc hlast hsolved hnested
    exact ⟨.inWitness last, ⟨_, []⟩, .inWitness (by rw [hsol]) hne (by rw [hlast]; exact hsimple),
      hfilled, rfl⟩
  | witnessV2PQKeyHash =>
    refine ⟨_, ⟨[], (c.signWitness (c.signType script .base vSolutions .witnessV2PQKeyHash)).2⟩,
      hsimple (by decide), ⟨Nat.zero_le _, nofun, hscript, by simp [Leaf.bare, hsol],
        by simp [Leaf.bare, hsol]⟩, ?_⟩
    simp only [signWitness, signType] at h ⊢
    split at h
    · rfl
    · cases h

/-- The elements that signing leaves are those of the script that decides. -/
theorem exists_leaf {s : SignatureData} (h : c.solve script = (true, s)) :
    ∃ leaf own, Leaf.Decides script leaf ∧ leaf.Filled own ∧ s = (leaf.wrap own).output := by
  dsimp only [solve] at h
  split at h
  · next hp2sh =>
    simp only [Bool.and_eq_true, decide_eq_true_eq] at hp2sh
    obtain ⟨t, vSolutions, hsol, hstep⟩ := signStep_of_solved hp2sh.1
    have ht : t = .scriptHash := by simpa [hstep] using hp2sh.2
    subst ht
    obtain ⟨hsolved, rfl⟩ := Prod.mk.inj h
    have hboth := solved_of_signWitness hsolved
    rw [eq_of_solved_and hboth] at hsolved ⊢
    rw [Bool.and_eq_true] at hboth
    obtain ⟨hinner, hnot⟩ := hboth
    obtain ⟨t, inSolutions, hsub, hsign⟩ := signStep_of_solved hinner
    rw [hsign] at hsolved ⊢
    have ht : t ≠ .scriptHash := by
      rintro rfl
      rw [hsign] at hnot
      simp at hnot
    obtain ⟨leaf, own, hleaf, hfilled, hwrap⟩ := exists_inner hc hsub ht hsolved
    refine ⟨leaf.inScriptHash _, own, .inScriptHash (by rw [hsol]) (ne_nil_of_solved hinner) hleaf,
      ⟨hfilled.count, hfilled.witness, hfilled.solved, hfilled.slots, hfilled.kept⟩, ?_⟩
    simp only [Leaf.inScriptHash, hwrap, Stacks.output]
  · next hp2sh =>
    obtain ⟨hsolved, rfl⟩ := Prod.mk.inj h
    obtain ⟨t, vSolutions, hsol, hstep⟩ := signStep_of_solved (solved_of_signWitness hsolved)
    have ht : t ≠ .scriptHash := by
      rintro rfl
      have hst := solved_of_signWitness hsolved
      rw [hstep] at hst hp2sh
      simp [hst] at hp2sh
    rw [hstep] at hsolved ⊢
    obtain ⟨leaf, own, hleaf, hfilled, hwrap⟩ := exists_inner hc hsol ht hsolved
    exact ⟨leaf, own, .inner hleaf, hfilled, by rw [hwrap]; rfl⟩

end SignatureCreator

/-! ## 6. Whether the result is complete -/

section Complete

variable {cr : Crypto} {sg : Schemes} {checker : SignatureChecker} {scriptPubKey : CScript}
  {leaf : Leaf} {own : List Bytes}

theorem eval_of_complete {s : Stacks} (h : s.output.complete cr sg checker scriptPubKey = true) :
    (context cr sg checker).eval .base [] (pushAll s.script) = .ok s.script.reverse ∧
      ∀ v ∈ s.script, v.length ≤ maxScriptElementSize ∧ v ≠ [0x81] := by
  obtain ⟨stackCopy, -, hcopy, -⟩ := eval_of_verifyScript (complete_iff.mp h)
  obtain ⟨-, hpush, heq⟩ := evalScript_pushAll_iff.mp (eval_eq_ok_iff.mp hcopy)
  rw [append_nil] at heq
  refine ⟨heq ▸ hcopy, fun v hv => ⟨hpush.items v hv, ?_⟩⟩
  rintro rfl
  exact hpush.minimal (show .minimalData ∈ standardScriptVerifyFlags by decide) hv

theorem not_scriptHash_of_type {script : CScript} {t : TxnOutType}
    (h : (solver script).typeRet = some t) (ht : t ≠ .scriptHash) :
    script.isPayToScriptHash = false := by
  by_contra hp2sh
  rw [solver, if_pos (eq_true_of_ne_false hp2sh)] at h
  exact ht (Option.some.inj h).symm

/-- Where some elements are complete, others are so exactly if they can be pushed and the script
accepts them. -/
theorem complete_iff_accepts (h : Leaf.Decides scriptPubKey leaf)
    (hbare : leaf.sigversion = .base →
      leaf.script.isWitnessProgram = none ∧ leaf.script.isPayToScriptHash = false)
    (hown : (leaf.wrap ⟨own, []⟩).output.complete cr sg checker scriptPubKey = true)
    {x : List Bytes} (hx : x.length ≤ 998) :
    (leaf.wrap ⟨x, []⟩).output.complete cr sg checker scriptPubKey = true ↔
      ((context cr sg checker).eval .base [] (pushAll (leaf.wrap ⟨x, []⟩).script) =
          .ok (leaf.wrap ⟨x, []⟩).script.reverse ∧ (leaf.sigversion = .witnessV0 → Short x)) ∧
        (context cr sg checker).Accepts leaf.sigversion leaf.script x := by
  have hwit : .witness ∈ (context cr sg checker).flags :=
    show .witness ∈ standardScriptVerifyFlags by decide
  have hp2sh : .p2sh ∈ (context cr sg checker).flags :=
    show .p2sh ∈ standardScriptVerifyFlags by decide
  have hclean : .cleanStack ∈ (context cr sg checker).flags :=
    show .cleanStack ∈ standardScriptVerifyFlags by decide
  have hcopy := (eval_of_complete hown).1
  rw [complete_iff] at hown ⊢
  cases h with
  | inner h =>
    cases h with
    | bare =>
      obtain ⟨hprog, hnot⟩ := hbare rfl
      exact (verifyScript_pushAll_iff hclean hprog hnot).trans (and_congr_left' (and_iff_left nofun).symm)
    | @inWitness last h =>
      obtain ⟨program, hlen, hprog, -⟩ := solver_of_witnessScriptHash_type h
      have hsame : ∀ witness, (context cr sg checker).verifyScript (pushAll []) scriptPubKey witness =
          .ok () ↔ (context cr sg checker).verifyWitnessProgram witness 0 program = .ok () :=
        fun _ => verifyScript_program_iff hwit hprog (not_scriptHash_of_type h (by decide)) hown
      have hhash := ((verifyWitnessProgram_zero_iff hlen).mp ((hsame _).mp hown)).1
      exact (hsame _).trans ((verifyWitnessProgram_zero_iff hlen).trans ((and_iff_right hhash).trans
        (and_congr_left' ⟨fun h => ⟨hcopy, fun _ => h⟩, fun h => h.2 rfl⟩)))
  | @inScriptHash _ redeem houter _ h =>
    obtain ⟨hash, rfl⟩ := solver_scriptHash_iff.mp houter
    cases h with
    | bare =>
      obtain ⟨hprog, hnot⟩ := hbare rfl
      have hscript : ∀ x, (context cr sg checker).verifyScript (pushAll (x ++ [redeem]))
          (payToScriptHash hash) [] = .ok () ↔ _ := fun x =>
        verifyScript_pushAll_scriptHash_iff hclean hprog hp2sh
      have hhash := ((hscript own).mp hown).2.1
      refine (hscript x).trans ?_
      rw [and_iff_right hhash, and_iff_right hx]
      exact and_congr_left' (and_iff_left nofun).symm
    | @inWitness last h =>
      obtain ⟨program, hlen, hprog, -⟩ := solver_of_witnessScriptHash_type h
      have hsame : ∀ witness, (context cr sg checker).verifyScript (pushAll [redeem])
          (payToScriptHash hash) witness = .ok () ↔
            (context cr sg checker).verifyWitnessProgram witness 0 program = .ok () :=
        fun _ => verifyScript_nested_iff hwit hp2sh hcopy hprog hown
      have hhash := ((verifyWitnessProgram_zero_iff hlen).mp ((hsame _).mp hown)).1
      exact (hsame _).trans ((verifyWitnessProgram_zero_iff hlen).trans ((and_iff_right hhash).trans
        (and_congr_left' ⟨fun h => ⟨hcopy, fun _ => h⟩, fun h => h.2 rfl⟩)))

/-- Nothing is left of the signature for a post-quantum key. -/
theorem not_complete_pq (h : Leaf.Decides scriptPubKey leaf)
    (htype : (solver leaf.script).typeRet = some .witnessV2PQKeyHash) :
    (leaf.wrap ⟨[], []⟩).output.complete cr sg checker scriptPubKey = false := by
  refine Bool.eq_false_iff.mpr fun hcomplete => ?_
  have hwit : .witness ∈ (context cr sg checker).flags :=
    show .witness ∈ standardScriptVerifyFlags by decide
  obtain ⟨program, hlen, hscript⟩ := solver_pqKeyHash_iff.mp htype
  cases hv : leaf.sigversion with
  | witnessV0 =>
    -- the two pushes of the program are left on the stack
    obtain ⟨-, out, heval, hone, -⟩ :=
      (complete_iff_accepts h (by rw [hv]; nofun) hcomplete (Nat.zero_le _)).mp hcomplete
    rw [hscript] at heval
    obtain rfl := (eval_payToPQKeyHash_iff hlen (by simp)).mp heval
    cases hone
  | base =>
    cases h with
    | inner h =>
      cases h with
      | inWitness => cases hv
      | bare =>
        obtain rfl : scriptPubKey = payToPQKeyHash program := hscript
        obtain ⟨-, -, _, _, hpair, -⟩ :=
          (verifyScript_payToPQKeyHash_iff hlen hwit).mp (complete_iff.mp hcomplete)
        cases hpair
    | @inScriptHash _ redeem houter _ h =>
      cases h with
      | inWitness => cases hv
      | bare =>
        obtain ⟨hash, rfl⟩ := solver_scriptHash_iff.mp houter
        obtain rfl : redeem = payToPQKeyHash program := hscript
        obtain ⟨-, top, below, stack, after, hcopy, -, -, -, hprog, -⟩ :=
          (verifyScript_payToScriptHash_iff (show .p2sh ∈ standardScriptVerifyFlags by decide)).mp
            (complete_iff.mp hcomplete)
        obtain ⟨rfl, -⟩ := cons.inj (of_eval_pushAll hcopy).1
        obtain ⟨-, hver, -⟩ :=
          (verifyProgram_eq_ok_iff hwit (isWitnessProgram_payToPQKeyHash hlen)).mp hprog
        rw [verifyWitnessProgram_two hlen, verifyPQKeyHash_eq_ok_iff] at hver
        obtain ⟨_, _, hpair, -⟩ := hver
        cases hpair

/-- Whether the elements of a multisig script are complete, where others are. -/
theorem complete_multiSig_iff (h : Leaf.Decides scriptPubKey leaf)
    (hsolved : (solver leaf.script).solved = true)
    (htype : (solver leaf.script).typeRet = some .multiSig) (hlen : own.length ≤ 17)
    (hown : (leaf.wrap ⟨own, []⟩).output.complete cr sg checker scriptPubKey = true) :
    ∃ nRequired keys, MultiSigOutput leaf.script nRequired keys ∧
      ∀ sigs : List Bytes, sigs.length = nRequired →
        ((leaf.wrap ⟨[] :: sigs, []⟩).output.complete cr sg checker scriptPubKey = true ↔
          SigsAccepted ((context cr sg checker).within leaf.sigversion) leaf.script keys sigs) := by
  obtain ⟨hnot, hprog, -⟩ := solver_of_template_type htype (.inr (.inr rfl))
  have hiff := @complete_iff_accepts cr sg checker scriptPubKey leaf own h
    (fun _ => ⟨hprog, hnot⟩) hown
  obtain ⟨-, out, heval, -⟩ := (hiff (hlen.trans (by decide))).mp hown
  obtain ⟨nRequired, keys, hout⟩ := solver_multiSig_shape hsolved htype
    (show .minimalData ∈ standardScriptVerifyFlags by decide) (eval_eq_ok_iff.mp heval)
  refine ⟨nRequired, keys, hout, fun sigs hcount => ?_⟩
  have hle : sigs.length ≤ 16 := hcount.le.trans (hout.enough.trans hout.most)
  rw [hiff (by simp; omega), hout.accepts_iff hcount, and_iff_right_iff_imp]
  -- signatures that are accepted can be pushed
  intro haccepted
  have hsigs : ∀ sig ∈ [] :: sigs, sig.length ≤ maxScriptElementSize ∧ sig ≠ [0x81] :=
    forall_mem_cons.mpr ⟨⟨by simp, by simp⟩, fun sig hsig =>
      pushable_of_checkSignatureEncoding rfl (haccepted.1 sig hsig)⟩
  have hall : ∀ v ∈ (leaf.wrap ⟨[] :: sigs, []⟩).script,
      v.length ≤ maxScriptElementSize ∧ v ≠ [0x81] := h.forall_wrap_iff.mpr
    ⟨fun _ => hsigs, (h.forall_wrap_iff.mp (eval_of_complete hown).2).2⟩
  refine ⟨eval_eq_ok_iff.mpr (evalScript_pushAll ?_ (fun v hv => (hall v hv).1)
    fun _ hmem => (hall _ hmem).2 rfl), fun _ sig hsig => (hsigs sig hsig).1⟩
  exact h.length_wrap_le.trans (by simp; omega)

end Complete

/-! ## 7. The slots of a multisig script -/

section Slots

variable {ctx : EvalContext} {script : CScript} {nRequired : Nat} {keys sigs sigs1 sigs2 : List Bytes}

/-- What the slots of a multisig script have to be like after combining. -/
structure SlotsKept (ctx : EvalContext) (script : CScript) (keys sigs : List Bytes) : Prop where
  /-- each slot has a signature -/
  filled : [] ∉ sigs
  /-- which the rules for signatures allow -/
  encoded : ∀ sig ∈ sigs, checkSignatureEncoding ctx sig = none
  /-- with keys that the rules refuse the others have to do, and a script that is signed without
  a part of it may not be what the signatures are for -/
  reached : (∃ key ∈ keys, checkPubKeyEncoding ctx key ≠ none) ∨
    codeWithout ctx script sigs.reverse ≠ script → SigsAccepted ctx script keys sigs

namespace MultiSigOutput

variable (h : MultiSigOutput script nRequired keys)

include h

theorem listedKeys_eq : listedKeys (solver script).vSolutions = keys := by
  simp [listedKeys, h.solved]

theorem firstByte_eq : firstByte ((solver script).vSolutions.headD []) = nRequired := by
  have hbyte : ∀ n : Nat, n < 17 → firstByte [UInt8.ofNat n] = n := by decide
  rw [h.solved]
  exact hbyte nRequired (Nat.lt_succ_of_le (h.enough.trans h.most))

/-- Signatures under keys that accept them are in the order of the keys. -/
theorem sigsAccepted_combineMultisig_iff
    (hempty : ∀ key code, ctx.checker.checkSig [] key code ctx.sigversion = false)
    (hsigs : combineMultisig (fun sig key => ctx.checker.checkSig sig key script ctx.sigversion)
      (solver script).vSolutions sigs1 sigs2 = [] :: sigs) :
    SigsAccepted ctx script keys sigs ↔ SlotsKept ctx script keys sigs := by
  constructor
  · intro haccepted
    refine ⟨fun hmem => ?_, haccepted.1, fun _ => haccepted⟩
    obtain ⟨key, -, hkey⟩ := exists_of_sublistForall₂ haccepted.2 [] hmem
    cases (hempty key _).symm.trans hkey
  · intro hkept
    by_cases hreached : (∃ key ∈ keys, checkPubKeyEncoding ctx key ≠ none) ∨
        codeWithout ctx script sigs.reverse ≠ script
    · exact hkept.reached hreached
    · obtain ⟨hkeys, hcode⟩ := not_or.mp hreached
      -- all keys can be used
      have hallowed : allowedKeys ctx keys.reverse = keys.reverse :=
        takeWhile_eq_self_iff.mpr fun key hkey => by
          simpa using fun hbad => hkeys ⟨key, mem_reverse.mp hkey, hbad⟩
      refine ⟨hkept.encoded, ?_⟩
      rw [hallowed, reverse_reverse, not_not.mp hcode]
      -- and no slot had to be filled up
      obtain ⟨-, hmerged⟩ := cons.inj (combineMultisig_eq.symm.trans hsigs)
      have hfull : ∀ {found : List Bytes} (missing : Nat), found ++ replicate missing [] = sigs →
          found = sigs := by
        rintro found (_ | missing) heq
        · rwa [replicate_zero, append_nil] at heq
        · exact absurd (heq ▸ mem_append_right _ mem_cons_self) hkept.filled
      rw [← hfull _ hmerged, merged, h.listedKeys_eq]
      refine sublistForall₂_collect (fun key sig hfit => ?_) _ keys
      exact (accepts_of_lookup_assign hfit).2

end MultiSigOutput

end Slots

/-! ## 8. Complete data in the loop -/

section Transaction

variable {cr : Crypto} {sg : Schemes} {keystore : KeyStore} {sp : SpendContext}
  {nHashType : Int32} {scriptPubKey : CScript} {s : SignatureData}

theorem sigsNonempty_transaction :
    (transactionSignatureCreator cr sg keystore sp nHashType).SigsNonempty := by
  intro address scriptCode sigversion sig h
  have h : createTransactionSig cr sg keystore sp nHashType address scriptCode sigversion =
    some sig := h
  unfold createTransactionSig at h
  split at h
  · cases h
  split at h
  · cases h
  obtain ⟨der, -, rfl⟩ := map_eq_some_iff.mp h
  simp

/-- The elements an input has for a script. -/
def Leaf.elements (cr : Crypto) (sg : Schemes) (leaf : Leaf) (data : SignatureData) :
    Option (List Bytes) :=
  (leaf.view (Stacks.ofData cr sg data)).map Stacks.script

/-- The complete data of an input that combining with others does not break.  Inputs that have no
elements for the script do not count.  Of the rest none may be there if the script is one for a
post-quantum key; if it is a multisig script, then the slots have to be kept. -/
def Survives (cr : Crypto) (sg : Schemes) (checker : SignatureChecker) (scriptPubKey : CScript)
    (data : SignatureData) (others : List SignatureData) : Prop :=
  let leaf := Leaf.ofStacks scriptPubKey (Stacks.ofData cr sg data)
  let solution := solver leaf.script
  let offers := others.filterMap (leaf.elements cr sg)
  offers ≠ [] → solution.typeRet ≠ some .witnessV2PQKeyHash ∧
    (solution.typeRet = some .multiSig →
      SlotsKept ⟨cr, sg, standardScriptVerifyFlags, checker, leaf.sigversion⟩ leaf.script
        (listedKeys solution.vSolutions)
        (offers.foldl (combineMultisig (fun sig key => checker.checkSig sig key leaf.script
          leaf.sigversion) solution.vSolutions) ((leaf.elements cr sg data).getD [])).tail)

section

variable {checker : SignatureChecker} {leaf : Leaf} {own : Stacks}

theorem script_foldl_combineStacks (htype : (solver leaf.script).typeRet = some .multiSig)
    (offers : List Stacks) :
    (offers.foldl (combineStacks checker 1 leaf.script leaf.sigversion) own).script =
      (offers.map Stacks.script).foldl (combineMultisig (fun sig key => checker.checkSig sig key
        leaf.script leaf.sigversion) (solver leaf.script).vSolutions) own.script := by
  induction offers generalizing own with
  | nil => rfl
  | cons o offers ih => rw [foldl_cons, ih, Leaf.combineStacks_multiSig htype, map_cons, foldl_cons]

variable (h : Leaf.Decides scriptPubKey leaf) (hown : leaf.Filled own)
  (hempty : ∀ key code v, checker.checkSig [] key code v = false)
  (hcomplete : (leaf.wrap own).output.complete cr sg checker scriptPubKey = true)

include h hown hempty hcomplete

theorem complete_combineMultisig_iff (htype : (solver leaf.script).typeRet = some .multiSig)
    {sigs1 sigs2 elements : List Bytes}
    (helements : combineMultisig (fun sig key => checker.checkSig sig key leaf.script
      leaf.sigversion) (solver leaf.script).vSolutions sigs1 sigs2 = elements) :
    (leaf.wrap ⟨elements, []⟩).output.complete cr sg checker scriptPubKey = true ↔
      SlotsKept ⟨cr, sg, standardScriptVerifyFlags, checker, leaf.sigversion⟩ leaf.script
        (listedKeys (solver leaf.script).vSolutions) elements.tail := by
  obtain ⟨own, rfl, -⟩ := hown.slots htype
  obtain ⟨nRequired, keys, hout, hiff⟩ :=
    complete_multiSig_iff h hown.solved htype hown.count hcomplete
  have hcount := congrArg length helements
  rw [length_combineMultisig, hout.firstByte_eq] at hcount
  obtain ⟨sigs, rfl⟩ : ∃ sigs, elements = [] :: sigs :=
    ⟨_, helements.symm.trans combineMultisig_eq⟩
  rw [hiff sigs (Nat.succ.inj hcount).symm, hout.listedKeys_eq]
  exact hout.sigsAccepted_combineMultisig_iff (fun key code => hempty key code _) helements

theorem complete_foldl_iff (others : List SignatureData) :
    (others.foldl (combineSignatures cr sg checker scriptPubKey) (leaf.wrap own).output).complete
        cr sg checker scriptPubKey = true ↔
      Survives cr sg checker scriptPubKey (leaf.wrap own).output others := by
  have hshort : Short (leaf.wrap own).script := fun v hv => ((eval_of_complete hcomplete).2 v hv).1
  obtain ⟨hbase, hfixed⟩ := h.forall_wrap_iff.mp hshort
  have hdata : Stacks.ofData cr sg (leaf.wrap own).output = leaf.wrap own :=
    h.ofData_wrap hfixed ⟨hown.count, hbase, hown.witness⟩
  have helements : leaf.elements cr sg (leaf.wrap own).output = some own.script := by
    rw [Leaf.elements, hdata, h.view_wrap hown.witness]
    rfl
  have hoffers : others.filterMap (leaf.elements cr sg) =
      (others.filterMap fun data => leaf.view (Stacks.ofData cr sg data)).map Stacks.script :=
    map_filterMap.symm
  rw [h.foldl_combineSignatures hown hshort]
  simp only [Survives, hdata, h.ofStacks_wrap, helements, hoffers, Option.getD_some, ne_eq,
    map_eq_nil_iff]
  generalize others.filterMap (fun data => leaf.view (Stacks.ofData cr sg data)) = offers
  rcases eq_nil_or_concat' offers with rfl | ⟨offers, o, rfl⟩
  · exact ⟨fun _ hbad => absurd rfl hbad, fun _ => hcomplete⟩
  rw [forall_prop_of_true (by simp : ¬ offers ++ [o] = [])]
  by_cases hpq : (solver leaf.script).typeRet = some .witnessV2PQKeyHash
  · -- nothing is left of what came before
    rw [foldl_concat, Leaf.combineStacks_pq hpq, not_complete_pq h hpq]
    exact ⟨nofun, fun hkept => absurd hpq hkept.1⟩
  by_cases hmulti : (solver leaf.script).typeRet = some .multiSig
  · rw [foldl_concat, map_append, map_singleton, foldl_concat, ← script_foldl_combineStacks hmulti,
      Leaf.combineStacks_multiSig hmulti,
      complete_combineMultisig_iff h hown hempty hcomplete hmulti rfl]
    exact ⟨fun hkept => ⟨hpq, fun _ => hkept⟩, fun hkept => hkept.2 hmulti⟩
  · rw [foldl_fixed']
    · exact ⟨fun _ => ⟨hpq, fun h => absurd h hmulti⟩, fun _ => hcomplete⟩
    · exact fun o => (hown.kept hmulti hpq checker o).1

end

end Transaction

/-! ## 9. Inputs that are merged -/

/-- Schemes with one signature, which every key accepts. -/
def lenientSchemes : Schemes where
  ecSign := fun _ _ => [0x30, 6, 2, 1, 1, 2, 1, 1]
  ecVerify := fun _ _ _ => true
  ecCheckLowS := fun _ => true
  mldsaSign := fun _ _ => some (List.replicate 2420 1)
  mldsaVerify := fun _ _ _ => true

def constantCrypto : Crypto := ⟨fun _ => 0, fun _ => 1, fun _ => 1, fun _ => 0⟩

/-- A store with every key and one script. -/
def lenientStore (redeem : CScript) : KeyStore where
  getKey := fun _ => some ⟨List.replicate 32 1, true, true⟩
  getPubKey := fun _ => some (CPubKey.ofBytes (2 :: List.replicate 32 1))
  getCScript := fun _ => some redeem
  getPQKey := fun _ => some (List.replicate 2560 1, List.replicate 1312 1)

def soleInput : SpendContext where
  txTo := ⟨1, [⟨⟨7, 0⟩, [], 0, []⟩], [⟨90, []⟩], 0⟩
  nIn := 0
  amount := 100

/-- What the store signs for the input with `SIGHASH_ALL`. -/
def lenientSignature (redeem scriptPubKey : CScript) : Bool × SignatureData :=
  (transactionSignatureCreator constantCrypto lenientSchemes (lenientStore redeem) soleInput
    SigHashType.all).produceSignature scriptPubKey

/-- What the loop ends up with for the input. -/
def lenientLoop (redeem scriptPubKey : CScript) : List SignatureData → SignatureData × Bool :=
  signInput constantCrypto lenientSchemes (lenientStore redeem) soleInput SigHashType.all scriptPubKey

def twoKeys : List Bytes := [2 :: List.replicate 32 1, 3 :: List.replicate 32 1]

/-- The only script hash there is. -/
def hashOutput : CScript := payToScriptHash 1

def pqScript : CScript := payToPQKeyHash (Uint160.bytes 1)

/-- Two keys that accept the same signature have one slot in the map. -/
example : (lenientSignature [] (multiSigScript 2 twoKeys)).1 = true ∧
    (lenientLoop [] (multiSigScript 2 twoKeys) [.empty]).2 = false := by
  decide +kernel

end RgmNode
