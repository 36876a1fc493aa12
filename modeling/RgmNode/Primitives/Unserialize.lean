import RgmNode.Primitives.Unique

/-!
# Reading transactions

`UnserializeTransaction` of `primitives/transaction.h`.  The extended format is told from the
plain one by an input vector that is read as empty, and then by the flag byte.  A transaction
with an input is written so that the reader takes the branch it was written for; one without
inputs and outputs is read as an empty input vector with the flag 0, which is its output count.

Vectors are read up to `MAX_SIZE` entries only, though longer ones are written.

* `unserialize_serialize_iff`, `unserialize_serializeNoWitness_iff` — what was written is read
  back exactly if no vector is longer than that
-/

namespace RgmNode

open List

/-! ## 1. The code -/

def COutPoint.unserialize : Reader COutPoint := do
  let hash ← readUint256
  let n ← readUInt32
  return ⟨hash, n⟩

/-- An input, its witness stack still empty. -/
def CTxIn.unserialize : Reader CTxIn := do
  let prevout ← COutPoint.unserialize
  let scriptSig ← readVector
  let nSequence ← readUInt32
  return ⟨prevout, scriptSig, nSequence, []⟩

def CTxOut.unserialize : Reader CTxOut := do
  let nValue ← readInt64
  let scriptPubKey ← readVector
  return ⟨nValue, scriptPubKey⟩

namespace CTransaction

/-- The flags, the inputs and the outputs. -/
def readBody (fAllowWitness : Bool) : Reader (Nat × List CTxIn × List CTxOut) := do
  -- in case the dummy is there, this is read as an empty vector
  let vin ← readList CTxIn.unserialize
  if vin.isEmpty && fAllowWitness then
    let flags ← readUInt 1
    if flags ≠ 0 then
      let vin ← readList CTxIn.unserialize
      let vout ← readList CTxOut.unserialize
      return (flags, vin, vout)
    else
      return (flags, [], [])
  else
    let vout ← readList CTxOut.unserialize
    return (0, vin, vout)

def readStacks : List CTxIn → Reader (List CTxIn)
  | [] => return []
  | i :: vin => do
    let scriptWitness ← readList readVector
    let vin ← readStacks vin
    return { i with scriptWitness } :: vin

/-- The witnesses, if the flags announce them, and the flags that are left. -/
def readWitness (fAllowWitness : Bool) (flags : Nat) (vin : List CTxIn) :
    Reader (Nat × List CTxIn) :=
  if flags % 2 = 1 ∧ fAllowWitness then do
    let vin ← readStacks vin
    return (flags - 1, vin)
  else
    return (flags, vin)

/-- `UnserializeTransaction` -/
def unserialize (fAllowWitness : Bool) : Reader CTransaction := do
  let nVersion ← readInt32
  let (flags, vin, vout) ← readBody fAllowWitness
  let (flags, vin) ← readWitness fAllowWitness flags vin
  -- unknown transaction optional data
  if flags ≠ 0 then failure
  else
    let nLockTime ← readUInt32
    return ⟨nVersion, vin, vout, nLockTime⟩

end CTransaction

/-! ## 2. Sizes that can be read -/

/-- No vector of an input is longer than `MAX_SIZE`. -/
structure CTxIn.WithinMaxSize (i : CTxIn) : Prop where
  script : i.scriptSig.length ≤ maxSize
  items : i.scriptWitness.length ≤ maxSize
  item : ∀ item ∈ i.scriptWitness, item.length ≤ maxSize

/-- No vector of a transaction is longer than `MAX_SIZE`. -/
structure CTransaction.WithinMaxSize (tx : CTransaction) : Prop where
  inputs : tx.vin.length ≤ maxSize
  input : ∀ i ∈ tx.vin, i.WithinMaxSize
  outputs : tx.vout.length ≤ maxSize
  output : ∀ o ∈ tx.vout, o.scriptPubKey.length ≤ maxSize

instance (i : CTxIn) : Decidable i.WithinMaxSize :=
  decidable_of_iff (i.scriptSig.length ≤ maxSize ∧ i.scriptWitness.length ≤ maxSize ∧
      ∀ item ∈ i.scriptWitness, item.length ≤ maxSize)
    ⟨fun ⟨hscript, hitems, hitem⟩ => ⟨hscript, hitems, hitem⟩,
      fun h => ⟨h.script, h.items, h.item⟩⟩

instance (tx : CTransaction) : Decidable tx.WithinMaxSize :=
  decidable_of_iff (tx.vin.length ≤ maxSize ∧ (∀ i ∈ tx.vin, i.WithinMaxSize) ∧
      tx.vout.length ≤ maxSize ∧ ∀ o ∈ tx.vout, o.scriptPubKey.length ≤ maxSize)
    ⟨fun ⟨hinputs, hinput, houtputs, houtput⟩ => ⟨hinputs, hinput, houtputs, houtput⟩,
      fun h => ⟨h.inputs, h.input, h.outputs, h.output⟩⟩

theorem CTxIn.yields_unserialize : Yields CTxIn.unserialize CTxIn.WithinMaxSize :=
  yields_true.bind fun _ _ => yields_readVector.bind fun _ hscript => yields_true.bind fun _ _ =>
    yields_pure ⟨hscript, Nat.zero_le _, nofun⟩

theorem CTxOut.yields_unserialize :
    Yields CTxOut.unserialize fun o => o.scriptPubKey.length ≤ maxSize :=
  yields_true.bind fun _ _ => yields_readVector.bind fun _ hscript => yields_pure hscript

namespace CTransaction

/-- What `readBody` gives. -/
def BodyWithin (body : Nat × List CTxIn × List CTxOut) : Prop :=
  (body.2.1.length ≤ maxSize ∧ ∀ i ∈ body.2.1, i.WithinMaxSize) ∧
    body.2.2.length ≤ maxSize ∧ ∀ o ∈ body.2.2, o.scriptPubKey.length ≤ maxSize

theorem yields_readBody (fAllowWitness : Bool) : Yields (readBody fAllowWitness) BodyWithin := by
  have hinputs := yields_readList CTxIn.yields_unserialize
  have houtputs := yields_readList CTxOut.yields_unserialize
  have hnone : BodyWithin (0, [], []) := by
    refine ⟨⟨Nat.zero_le _, ?_⟩, Nat.zero_le _, ?_⟩ <;> exact nofun
  refine hinputs.bind fun vin hvin => ?_
  split
  · refine yields_true.bind fun flags _ => ?_
    split
    · exact hinputs.bind fun vin hvin => houtputs.bind fun vout hvout => yields_pure ⟨hvin, hvout⟩
    · exact yields_pure hnone
  · exact houtputs.bind fun vout hvout => yields_pure ⟨hvin, hvout⟩

theorem yields_readStacks {vin : List CTxIn} (hvin : ∀ i ∈ vin, i.WithinMaxSize) :
    Yields (readStacks vin) fun vin' => vin'.length = vin.length ∧ ∀ i ∈ vin', i.WithinMaxSize := by
  induction vin with
  | nil => exact yields_pure ⟨rfl, hvin⟩
  | cons i vin ih =>
    obtain ⟨hi, hvin⟩ := forall_mem_cons.mp hvin
    refine (yields_readList yields_readVector).bind fun stack hstack => (ih hvin).bind
      fun vin' hvin' => yields_pure ⟨congrArg Nat.succ hvin'.1, ?_⟩
    exact forall_mem_cons.mpr ⟨⟨hi.script, hstack.1, hstack.2⟩, hvin'.2⟩

theorem yields_readWitness {fAllowWitness : Bool} {flags : Nat} {vin : List CTxIn}
    (hlen : vin.length ≤ maxSize) (hvin : ∀ i ∈ vin, i.WithinMaxSize) :
    Yields (readWitness fAllowWitness flags vin) fun r =>
      r.2.length ≤ maxSize ∧ ∀ i ∈ r.2, i.WithinMaxSize := by
  rw [readWitness]
  split
  · exact (yields_readStacks hvin).bind fun vin' h => yields_pure ⟨h.1 ▸ hlen, h.2⟩
  · exact yields_pure ⟨hlen, hvin⟩

/-- Every transaction that is read is within the limits. -/
theorem yields_unserialize (fAllowWitness : Bool) :
    Yields (unserialize fAllowWitness) WithinMaxSize := by
  refine yields_true.bind fun version _ => (yields_readBody fAllowWitness).bind fun body hbody =>
    (yields_readWitness hbody.1.1 hbody.1.2).bind fun ⟨flags, vin⟩ hwit => ?_
  show Yields (if flags ≠ 0 then failure else _) _
  split
  · exact yields_failure
  · exact yields_true.bind fun lock _ => yields_pure ⟨hwit.1, hwit.2, hbody.2.1, hbody.2.2⟩

end CTransaction

/-! ## 3. Round trips -/

theorem COutPoint.unserialize_serialize (o : COutPoint) (rest : Bytes) :
    COutPoint.unserialize (o.serialize ++ rest) = some (o, rest) := by
  rw [COutPoint.unserialize, COutPoint.serialize, append_assoc,
    bind_apply_of_eq (readUint256_bytes o.hash _), bind_apply_of_eq (readUInt32_write o.n _)]
  rfl

theorem CTxIn.unserialize_serialize {i : CTxIn} (h : i.scriptSig.length ≤ maxSize) (rest : Bytes) :
    CTxIn.unserialize (i.serialize ++ rest) = some (i.stripped, rest) := by
  rw [CTxIn.unserialize, CTxIn.serialize, append_assoc, append_assoc,
    bind_apply_of_eq (COutPoint.unserialize_serialize i.prevout _),
    bind_apply_of_eq (readVector_serBytes h _),
    bind_apply_of_eq (readUInt32_write i.nSequence _)]
  rfl

theorem CTxOut.unserialize_serialize {o : CTxOut} (hvalue : FitsInt64 o.nValue)
    (h : o.scriptPubKey.length ≤ maxSize) (rest : Bytes) :
    CTxOut.unserialize (o.serialize ++ rest) = some (o, rest) := by
  rw [CTxOut.unserialize, CTxOut.serialize, append_assoc,
    bind_apply_of_eq (readInt64_write hvalue.1 hvalue.2 _),
    bind_apply_of_eq (readVector_serBytes h _)]
  rfl

namespace CTransaction

variable {tx : CTransaction} {fAllowWitness : Bool}

theorem readInputs_write {vin : List CTxIn} (hlen : vin.length ≤ maxSize)
    (h : ∀ i ∈ vin, i.scriptSig.length ≤ maxSize) (rest : Bytes) :
    readList CTxIn.unserialize (serVector CTxIn.serialize vin ++ rest) =
      some (vin.map CTxIn.stripped, rest) :=
  readList_serVector hlen (fun i hi rest => CTxIn.unserialize_serialize (h i hi) rest) rest

theorem readOutputs_write (hfits : tx.Fits) (hsize : tx.WithinMaxSize) (rest : Bytes) :
    readList CTxOut.unserialize (serVector CTxOut.serialize tx.vout ++ rest) =
      some (tx.vout, rest) := by
  have hread := readList_serVector hsize.outputs (fun o ho rest =>
    CTxOut.unserialize_serialize (hfits.output o ho).value (hsize.output o ho) rest) rest
  rwa [map_id'] at hread

/-- The plain format: a transaction without inputs must not have outputs, which would be taken
for flags. -/
theorem readBody_plain (fAllowWitness : Bool) (hfits : tx.Fits) (hsize : tx.WithinMaxSize)
    (hin : tx.vin ≠ [] ∨ tx.vout = []) (rest : Bytes) :
    readBody fAllowWitness (serVector CTxIn.serialize tx.vin ++
      (serVector CTxOut.serialize tx.vout ++ rest)) =
        some ((0, tx.vin.map CTxIn.stripped, tx.vout), rest) := by
  rw [readBody, bind_apply_of_eq
    (readInputs_write hsize.inputs (fun i hi => (hsize.input i hi).script) _)]
  split
  · next hempty =>
    have hvin : tx.vin = [] := by
      simpa using (Bool.and_eq_true _ _).mp hempty |>.1
    have hvout : tx.vout = [] := hin.resolve_left (not_not_intro hvin)
    have hflags : readUInt 1 (serVector CTxOut.serialize [] ++ rest) = some (0, rest) :=
      readUInt_one rest
    rw [hvout, hvin]
    rfl
  · rw [bind_apply_of_eq (readOutputs_write hfits hsize rest)]
    rfl

theorem readBody_extended (hfits : tx.Fits) (hsize : tx.WithinMaxSize) (rest : Bytes) :
    readBody true (serVector CTxIn.serialize [] ++ ([1] ++ (serVector CTxIn.serialize tx.vin ++
      (serVector CTxOut.serialize tx.vout ++ rest)))) =
        some ((1, tx.vin.map CTxIn.stripped, tx.vout), rest) := by
  have hdummy : ∀ rest, readList CTxIn.unserialize (serVector CTxIn.serialize [] ++ rest) =
      some ([], rest) := readInputs_write (Nat.zero_le _) nofun
  rw [readBody, bind_apply_of_eq (hdummy _)]
  simp only [isEmpty_nil, Bool.and_true, if_true]
  have hflags : ∀ rest, readUInt 1 ([1] ++ rest) = some (1, rest) := fun rest => readUInt_one rest
  rw [bind_apply_of_eq (hflags _), if_pos (by decide),
    bind_apply_of_eq (readInputs_write hsize.inputs (fun i hi => (hsize.input i hi).script) _),
    bind_apply_of_eq (readOutputs_write hfits hsize rest)]
  rfl

/-- The stacks go back to the inputs they were taken from. -/
theorem readStacks_write {vin : List CTxIn} (h : ∀ i ∈ vin, i.WithinMaxSize) (rest : Bytes) :
    readStacks (vin.map CTxIn.stripped)
      (vin.flatMap (fun i => serVector serBytes i.scriptWitness) ++ rest) = some (vin, rest) := by
  induction vin with
  | nil => rfl
  | cons i vin ih =>
    obtain ⟨hi, hvin⟩ := forall_mem_cons.mp h
    have hstack : ∀ rest, readList readVector (serVector serBytes i.scriptWitness ++ rest) =
        some (i.scriptWitness, rest) := by
      intro rest
      have hread := readList_serVector hi.items
        (fun item hitem rest => readVector_serBytes (hi.item item hitem) rest) rest
      rwa [map_id'] at hread
    rw [map_cons, flatMap_cons, append_assoc, readStacks,
      bind_apply_of_eq (hstack _), bind_apply_of_eq (ih hvin)]
    rfl

theorem serializeNoWitness_stripped : tx.stripped.serializeNoWitness = tx.serializeNoWitness := by
  rw [serializeNoWitness, stripped, serVector, length_map, flatMap_map]
  rfl

theorem stripped_stripped : tx.stripped.stripped = tx.stripped := by
  simp [stripped, Function.comp_def, CTxIn.stripped]

theorem Fits.stripped (h : tx.Fits) : tx.stripped.Fits := by
  refine ⟨by simpa [CTransaction.stripped] using h.inputs, fun i hi => ?_, h.outputs, h.output⟩
  obtain ⟨j, hj, rfl⟩ := mem_map.mp hi
  exact ⟨(h.input j hj).script, by simp [CTxIn.stripped], fun _ hitem => by cases hitem⟩

theorem stripped_of_not_hasWitness (h : tx.hasWitness = false) : tx.stripped = tx := by
  have hvin : tx.vin.map CTxIn.stripped = tx.vin := by
    refine (map_congr_left fun i hi => ?_).trans (map_id _)
    have hempty : i.scriptWitness = [] :=
      hasWitness_eq_false_iff.mp h _ (mem_map_of_mem hi)
    rw [CTxIn.stripped, ← hempty]
    rfl
  rw [stripped, hvin]

/-- The form without witnesses is read back, whether witnesses are allowed or not. -/
theorem unserialize_serializeNoWitness (fAllowWitness : Bool) (hfits : tx.Fits)
    (hsize : tx.stripped.WithinMaxSize) (hin : tx.vin ≠ [] ∨ tx.vout = []) (rest : Bytes) :
    unserialize fAllowWitness (tx.serializeNoWitness ++ rest) = some (tx.stripped, rest) := by
  have hin' : tx.stripped.vin ≠ [] ∨ tx.stripped.vout = [] := by
    simpa [stripped] using hin
  have hbody := readBody_plain fAllowWitness hfits.stripped hsize hin'
    (serUInt32 tx.stripped.nLockTime ++ rest)
  have hvin : tx.stripped.vin.map CTxIn.stripped = tx.stripped.vin :=
    congrArg CTransaction.vin stripped_stripped
  rw [hvin] at hbody
  rw [← serializeNoWitness_stripped, serializeNoWitness, unserialize]
  simp only [append_assoc]
  have hread : ∀ s, readWitness fAllowWitness 0 tx.stripped.vin s =
      some ((0, tx.stripped.vin), s) := fun s => rfl
  rw [bind_apply_of_eq (readInt32_write tx.stripped.nVersion _), bind_apply_of_eq hbody,
    bind_apply_of_eq (hread _)]
  exact bind_apply_of_eq (readUInt32_write tx.stripped.nLockTime rest)

theorem unserialize_serialize (hfits : tx.Fits) (hsize : tx.WithinMaxSize)
    (hin : tx.vin ≠ [] ∨ tx.vout = []) (rest : Bytes) :
    unserialize true (tx.serialize ++ rest) = some (tx, rest) := by
  cases hwit : tx.hasWitness with
  | true =>
    have hbody := readBody_extended hfits hsize
      (tx.vin.flatMap (fun i => serVector serBytes i.scriptWitness) ++
        (serUInt32 tx.nLockTime ++ rest))
    have hstacks := readStacks_write hsize.input (serUInt32 tx.nLockTime ++ rest)
    rw [serialize, if_pos hwit, unserialize]
    simp only [append_assoc]
    rw [bind_apply_of_eq (readInt32_write tx.nVersion _), bind_apply_of_eq hbody]
    have hread : readWitness true 1 (tx.vin.map CTxIn.stripped)
        (tx.vin.flatMap (fun i => serVector serBytes i.scriptWitness) ++
          (serUInt32 tx.nLockTime ++ rest)) =
        some ((0, tx.vin), serUInt32 tx.nLockTime ++ rest) := by
      rw [readWitness, if_pos ⟨rfl, rfl⟩, bind_apply_of_eq hstacks]
      rfl
    rw [bind_apply_of_eq hread]
    exact bind_apply_of_eq (readUInt32_write tx.nLockTime rest)
  | false =>
    have hstripped := stripped_of_not_hasWitness hwit
    have hread := unserialize_serializeNoWitness true hfits
      (hstripped.symm ▸ hsize) hin rest
    rw [serialize, hwit]
    rwa [hstripped] at hread

theorem unserialize_serialize_iff (hfits : tx.Fits) (hin : tx.vin ≠ [] ∨ tx.vout = [])
    (rest : Bytes) :
    unserialize true (tx.serialize ++ rest) = some (tx, rest) ↔ tx.WithinMaxSize :=
  ⟨fun h => yields_unserialize true h, fun h => unserialize_serialize hfits h hin rest⟩

theorem unserialize_serializeNoWitness_iff (hfits : tx.Fits) (hin : tx.vin ≠ [] ∨ tx.vout = [])
    (rest : Bytes) :
    unserialize fAllowWitness (tx.serializeNoWitness ++ rest) = some (tx.stripped, rest) ↔
      tx.stripped.WithinMaxSize :=
  ⟨fun h => yields_unserialize fAllowWitness h,
    fun h => unserialize_serializeNoWitness fAllowWitness hfits h hin rest⟩

/-- The bytes without witnesses are those of a transaction up to its witnesses. -/
theorem serializeNoWitness_eq_iff {a b : CTransaction} (ha : a.Fits) (hb : b.Fits) :
    a.serializeNoWitness = b.serializeNoWitness ↔ a.stripped = b.stripped := by
  constructor
  · exact stripped_eq_of_serializeNoWitness ha hb
  · intro h
    rw [← serializeNoWitness_stripped, h, serializeNoWitness_stripped]

/-! ## 4. Transactions on a stream -/

/-- A transaction with an input, or without inputs and outputs, is read back from either form
exactly if no vector in that form is longer than `MAX_SIZE`; the bytes without witnesses are the
same exactly if the transactions differ at most in their witnesses. -/
theorem transaction_round_trip {a : CTransaction} (ha : a.Fits)
    (hin : a.vin ≠ [] ∨ a.vout = []) :
    (∀ rest, unserialize true (a.serialize ++ rest) = some (a, rest) ↔ a.WithinMaxSize) ∧
      (∀ fAllowWitness rest, unserialize fAllowWitness (a.serializeNoWitness ++ rest) =
        some (a.stripped, rest) ↔ a.stripped.WithinMaxSize) ∧
      ∀ b : CTransaction, b.Fits →
        (a.serializeNoWitness = b.serializeNoWitness ↔ a.stripped = b.stripped) :=
  ⟨fun rest => unserialize_serialize_iff ha hin rest,
    fun _ rest => unserialize_serializeNoWitness_iff ha hin rest,
    fun _ hb => serializeNoWitness_eq_iff ha hb⟩

/-- A transaction with one witness, and one with none, in the same bytes without witnesses. -/
theorem transaction_round_trip_witness :
    let a : CTransaction := ⟨2, [⟨⟨7, 1⟩, [0x51], 5, [[1, 2], []]⟩], [⟨-1, [0x6a]⟩], 9⟩
    unserialize true (a.serialize ++ [3]) = some (a, [3]) ∧
      a.serializeNoWitness = a.stripped.serializeNoWitness := by
  intro a
  have ha : a.Fits := by decide
  have hin : a.vin ≠ [] ∨ a.vout = [] := .inl (by decide)
  obtain ⟨hread, -, hbytes⟩ := transaction_round_trip ha hin
  exact ⟨(hread [3]).mpr (by decide), (hbytes a.stripped ha.stripped).mpr stripped_stripped.symm⟩

/-- A transaction with a script that is longer than `MAX_SIZE`. -/
def oversized : CTransaction :=
  ⟨1, [⟨COutPoint.null, List.replicate (maxSize + 1) 0, CTxIn.sequenceFinal, []⟩], [], 0⟩

theorem fits_oversized : oversized.Fits := by
  refine ⟨by decide, fun i hi => ?_, by decide, nofun⟩
  obtain rfl := mem_singleton.mp hi
  refine ⟨?_, by decide, nofun⟩
  rw [CScript.Fits, length_replicate]
  decide

/-- It is written, but not read back. -/
theorem oversized_not_read :
    oversized.Fits ∧ oversized.vin ≠ [] ∧
      unserialize true (oversized.serialize ++ []) ≠ some (oversized, []) := by
  refine ⟨fits_oversized, cons_ne_nil _ _, fun hread => ?_⟩
  have hsize := ((yields_unserialize true hread).input _ mem_cons_self).script
  rw [length_replicate] at hsize
  exact absurd hsize (Nat.not_succ_le_self _)

end CTransaction

end RgmNode
