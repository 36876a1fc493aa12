import RgmNode.Lib.Parsing
import RgmNode.Primitives.Stream
import RgmNode.Primitives.Transaction

/-!
# Parts of a transaction can be told apart

The encodings of `serialize.h` that transactions are written in parse: nothing that follows can
be taken for a part of them.  The numbers are those the types of the source hold.  No hash
function is injective on all byte strings; `Crypto.CollisionFree` says it of given ones.
-/

namespace RgmNode

open List LittleEndian

/-! ## 1. Numbers and vectors -/

theorem parses_serUInt32 : Parses (fun _ => True) serUInt32 :=
  .of_length (fun _ _ => length_encode) fun _ _ _ _ h =>
    UInt32.toNat_inj.mp (encode_injective (UInt32.toNat_lt _) (UInt32.toNat_lt _) h)

theorem parses_serInt32 : Parses (fun _ => True) serInt32 := by
  refine .of_length (fun _ _ => length_encode) fun a b _ _ h => ?_
  have hnat := encode_injective (UInt32.toNat_lt _) (UInt32.toNat_lt _) h
  have hbits : a.toUInt32 = b.toUInt32 := UInt32.toNat_inj.mp hnat
  exact congrArg Int32.ofUInt32 hbits

/-- An amount that an `int64_t` holds. -/
def FitsInt64 (x : CAmount) : Prop := -2 ^ 63 ≤ x ∧ x < 2 ^ 63

instance (x : CAmount) : Decidable (FitsInt64 x) :=
  inferInstanceAs (Decidable (-2 ^ 63 ≤ x ∧ x < 2 ^ 63))

theorem eq_of_toNat_emod {a b : Int} (ha : -2 ^ 63 ≤ a ∧ a < 2 ^ 63) (hb : -2 ^ 63 ≤ b ∧ b < 2 ^ 63)
    (h : (a % 2 ^ 64).toNat = (b % 2 ^ 64).toNat) : a = b := by
  omega

theorem toNat_emod_lt (a : Int) : (a % 2 ^ 64).toNat < 256 ^ 8 := by
  omega

theorem parses_serInt64 : Parses FitsInt64 serInt64 :=
  .of_length (fun _ _ => length_encode) fun _ _ ha hb h =>
    eq_of_toNat_emod ha hb
      (encode_injective (toNat_emod_lt _) (toNat_emod_lt _) h)

theorem parses_uint256 : Parses (fun _ => True) Uint256.bytes :=
  .of_length (fun _ _ => Uint256.length_bytes _) fun _ _ _ _ h => Uint256.bytes_injective h

theorem parses_writeCompactSize : Parses (fun n => n < 2 ^ 64) writeCompactSize := by
  intro m n s t hm hn h
  have hread := congrArg readSize h
  rw [readSize_write hm, readSize_write hn] at hread
  exact Prod.mk.inj (Option.some.inj hread)

theorem parses_serBytes : Parses (fun b : Bytes => b.length < 2 ^ 64) serBytes := by
  intro a b s t ha hb h
  rw [serBytes, serBytes, append_assoc, append_assoc] at h
  obtain ⟨hlen, h⟩ := parses_writeCompactSize ha hb h
  exact append_inj h hlen

theorem parses_serVector {α : Type} {P : α → Prop} {ser : α → Bytes} (hser : Parses P ser) :
    Parses (fun as : List α => as.length < 2 ^ 64 ∧ ∀ a ∈ as, P a) (serVector ser) := by
  rintro as bs s t ⟨hlen, has⟩ ⟨hlen', hbs⟩ h
  rw [serVector, serVector, append_assoc, append_assoc] at h
  obtain ⟨heq, h⟩ := parses_writeCompactSize hlen hlen' h
  exact hser.many heq has hbs h

/-! ## 2. Inputs and outputs -/

theorem parses_outPoint : Parses (fun _ => True) COutPoint.serialize := by
  rintro ⟨hash, n⟩ ⟨hash', n'⟩ s t - - h
  obtain ⟨rfl, hrest⟩ := parses_uint256 trivial trivial h
  obtain ⟨rfl, rfl⟩ := parses_serUInt32 trivial trivial hrest
  exact ⟨rfl, rfl⟩

/-- The length of a script, which a `prevector` counts in 32 bits. -/
def CScript.Fits (script : CScript) : Prop := script.length < 2 ^ 32

instance (script : CScript) : Decidable (CScript.Fits script) := Nat.decLt _ _

theorem parses_script : Parses CScript.Fits serBytes := by
  intro a b s t ha hb h
  exact parses_serBytes (lt_trans ha (by decide)) (lt_trans hb (by decide)) h

/-- An output as the types of the source hold it. -/
structure CTxOut.Fits (o : CTxOut) : Prop where
  value : FitsInt64 o.nValue
  script : CScript.Fits o.scriptPubKey

instance (o : CTxOut) : Decidable o.Fits :=
  decidable_of_iff (FitsInt64 o.nValue ∧ CScript.Fits o.scriptPubKey)
    ⟨fun ⟨hvalue, hscript⟩ => ⟨hvalue, hscript⟩, fun h => ⟨h.value, h.script⟩⟩

theorem parses_txOut : Parses CTxOut.Fits CTxOut.serialize := by
  rintro ⟨v, script⟩ ⟨v', script'⟩ s t h h' heq
  obtain ⟨rfl, hrest⟩ := parses_serInt64 h.value h'.value heq
  obtain ⟨rfl, rfl⟩ := parses_script h.script h'.script hrest
  exact ⟨rfl, rfl⟩

/-- An input without its witness, which is written apart from it. -/
def CTxIn.stripped (i : CTxIn) : CTxIn := { i with scriptWitness := [] }

structure CTxIn.Fits (i : CTxIn) : Prop where
  script : CScript.Fits i.scriptSig
  items : i.scriptWitness.length < 2 ^ 64
  item : ∀ item ∈ i.scriptWitness, item.length < 2 ^ 64

instance (i : CTxIn) : Decidable i.Fits :=
  decidable_of_iff (CScript.Fits i.scriptSig ∧ i.scriptWitness.length < 2 ^ 64 ∧
      ∀ item ∈ i.scriptWitness, item.length < 2 ^ 64)
    ⟨fun ⟨hscript, hitems, hitem⟩ => ⟨hscript, hitems, hitem⟩,
      fun h => ⟨h.script, h.items, h.item⟩⟩

theorem parses_txIn :
    Parses (fun i : CTxIn => i.scriptWitness = [] ∧ CScript.Fits i.scriptSig) CTxIn.serialize := by
  rintro ⟨prevout, script, sequence, _⟩ ⟨prevout', script', sequence', _⟩ s t ⟨rfl, h⟩ ⟨rfl, h'⟩ heq
  simp only [CTxIn.serialize, append_assoc] at heq
  obtain ⟨rfl, hafter⟩ := parses_outPoint trivial trivial heq
  obtain ⟨rfl, hrest⟩ := parses_script h h' hafter
  obtain ⟨rfl, rfl⟩ := parses_serUInt32 trivial trivial hrest
  exact ⟨rfl, rfl⟩

/-! ## 3. Transactions -/

namespace CTransaction

def stripped (tx : CTransaction) : CTransaction := { tx with vin := tx.vin.map CTxIn.stripped }

structure Fits (tx : CTransaction) : Prop where
  inputs : tx.vin.length < 2 ^ 64
  input : ∀ i ∈ tx.vin, i.Fits
  outputs : tx.vout.length < 2 ^ 64
  output : ∀ o ∈ tx.vout, o.Fits

instance (tx : CTransaction) : Decidable tx.Fits :=
  decidable_of_iff (tx.vin.length < 2 ^ 64 ∧ (∀ i ∈ tx.vin, i.Fits) ∧ tx.vout.length < 2 ^ 64 ∧
      ∀ o ∈ tx.vout, o.Fits)
    ⟨fun ⟨hinputs, hinput, houtputs, houtput⟩ => ⟨hinputs, hinput, houtputs, houtput⟩,
      fun h => ⟨h.inputs, h.input, h.outputs, h.output⟩⟩

def witnesses (tx : CTransaction) : List (List Bytes) := tx.vin.map (·.scriptWitness)

variable {a b : CTransaction}

theorem hasWitness_eq_false_iff : a.hasWitness = false ↔ ∀ w ∈ a.witnesses, w = [] := by
  simp [hasWitness, witnesses]

theorem eq_of_stripped (h : a.stripped = b.stripped) (hw : a.witnesses = b.witnesses) : a = b := by
  obtain ⟨version, vin, vout, lock⟩ := a
  obtain ⟨version', vin', vout', lock'⟩ := b
  simp only [stripped, mk.injEq] at h
  obtain ⟨rfl, hvin, rfl, rfl⟩ := h
  have hlen : vin.length = vin'.length := by simpa using congrArg List.length hvin
  refine congrArg (fun v => mk version v vout lock) (ext_getElem hlen fun n hn hn' => ?_)
  have hstripped : vin[n].stripped = vin'[n].stripped := by
    simpa [hn, hn'] using congrArg (·[n]?) hvin
  have hwitness : vin[n].scriptWitness = vin'[n].scriptWitness := by
    simpa [witnesses, hn, hn'] using congrArg (·[n]?) hw
  cases hi : vin[n]
  cases hj : vin'[n]
  simp_all [CTxIn.stripped]

/-- The inputs and outputs of a transaction, with what follows. -/
theorem parses_body (ha : a.Fits) (hb : b.Fits) {s t : Bytes}
    (h : serVector CTxIn.serialize a.vin ++ (serVector CTxOut.serialize a.vout ++ s) =
      serVector CTxIn.serialize b.vin ++ (serVector CTxOut.serialize b.vout ++ t)) :
    a.vin.map CTxIn.stripped = b.vin.map CTxIn.stripped ∧ a.vout = b.vout ∧ s = t := by
  have hwrite : ∀ vin : List CTxIn,
      serVector CTxIn.serialize vin = serVector CTxIn.serialize (vin.map CTxIn.stripped) := by
    intro vin
    rw [serVector, serVector, length_map, flatMap_map]
    rfl
  have hvin : ∀ {tx : CTransaction}, tx.Fits → (tx.vin.map CTxIn.stripped).length < 2 ^ 64 ∧
      ∀ i ∈ tx.vin.map CTxIn.stripped, i.scriptWitness = [] ∧ CScript.Fits i.scriptSig := by
    intro tx htx
    refine ⟨by simpa using htx.inputs, fun i hi => ?_⟩
    obtain ⟨j, hj, rfl⟩ := mem_map.mp hi
    exact ⟨rfl, (htx.input j hj).script⟩
  rw [hwrite a.vin, hwrite b.vin] at h
  obtain ⟨heq, hrest⟩ := parses_serVector parses_txIn (hvin ha) (hvin hb) h
  obtain ⟨hout, hrest⟩ := parses_serVector parses_txOut ⟨ha.outputs, ha.output⟩
    ⟨hb.outputs, hb.output⟩ hrest
  exact ⟨heq, hout, hrest⟩

theorem stripped_eq_of_serializeNoWitness (ha : a.Fits) (hb : b.Fits)
    (h : a.serializeNoWitness = b.serializeNoWitness) : a.stripped = b.stripped := by
  rw [serializeNoWitness, serializeNoWitness] at h
  simp only [append_assoc] at h
  obtain ⟨hversion, hrest⟩ := parses_serInt32 trivial trivial h
  obtain ⟨hvin, hvout, hrest⟩ := parses_body ha hb hrest
  have hlock := parses_serUInt32.inj trivial trivial hrest
  rw [stripped, stripped, hversion, hvin, hvout, hlock]

theorem witnesses_eq_of_serialize (ha : a.Fits) (hb : b.Fits)
    (hlen : a.vin.length = b.vin.length) {s t : Bytes}
    (h : a.vin.flatMap (fun i => serVector serBytes i.scriptWitness) ++ s =
      b.vin.flatMap (fun i => serVector serBytes i.scriptWitness) ++ t) :
    a.witnesses = b.witnesses ∧ s = t := by
  have hfits : ∀ {tx : CTransaction}, tx.Fits → ∀ w ∈ tx.witnesses,
      w.length < 2 ^ 64 ∧ ∀ item ∈ w, item.length < 2 ^ 64 := by
    intro tx htx w hw
    obtain ⟨i, hi, rfl⟩ := mem_map.mp hw
    exact ⟨(htx.input i hi).items, (htx.input i hi).item⟩
  refine (parses_serVector parses_serBytes).many (by simpa [witnesses] using hlen) (hfits ha)
    (hfits hb) ?_
  rw [witnesses, witnesses, flatMap_map, flatMap_map]
  exact h

/-- A transaction with a witness has an input, so its extended format is not that of one without. -/
theorem serialize_ne (hb : b.Fits) (hlen : a.vin.length = b.vin.length)
    (hwa : a.hasWitness = true) (hwb : b.hasWitness = false) : a.serialize ≠ b.serialize := by
  intro h
  rw [serialize, serialize, if_pos hwa, hwb, serializeNoWitness] at h
  simp only [append_assoc, serVector] at h
  obtain ⟨-, hrest⟩ := parses_serInt32 trivial trivial h
  obtain ⟨hzero, -⟩ := parses_writeCompactSize (by decide) hb.inputs hrest
  rw [← hlen] at hzero
  have hnil : a.vin = [] := eq_nil_of_length_eq_zero hzero.symm
  rw [hasWitness, hnil] at hwa
  cases hwa

theorem witnesses_eq_of_not_hasWitness (hlen : a.vin.length = b.vin.length)
    (hwa : a.hasWitness = false) (hwb : b.hasWitness = false) : a.witnesses = b.witnesses := by
  have hsame : a.witnesses.length = b.witnesses.length := by simpa [witnesses] using hlen
  rw [eq_replicate_of_mem (hasWitness_eq_false_iff.mp hwa),
    eq_replicate_of_mem (hasWitness_eq_false_iff.mp hwb), hsame]

/-- The extended format gives the transaction, among those with as many inputs. -/
theorem eq_of_serialize (ha : a.Fits) (hb : b.Fits) (hlen : a.vin.length = b.vin.length)
    (h : a.serialize = b.serialize) : a = b := by
  cases hwa : a.hasWitness with
  | true =>
    cases hwb : b.hasWitness with
    | true =>
      rw [serialize, serialize, if_pos hwa, if_pos hwb] at h
      simp only [append_assoc] at h
      obtain ⟨hversion, hrest⟩ := parses_serInt32 trivial trivial h
      have hrest := append_cancel_left (append_cancel_left hrest)
      obtain ⟨hvin, hvout, hrest⟩ := parses_body ha hb hrest
      obtain ⟨hwitness, hrest⟩ := witnesses_eq_of_serialize ha hb hlen hrest
      have hlock := parses_serUInt32.inj trivial trivial hrest
      refine eq_of_stripped ?_ hwitness
      rw [stripped, stripped, hversion, hvin, hvout, hlock]
    | false => exact absurd h (serialize_ne hb hlen hwa hwb)
  | false =>
    cases hwb : b.hasWitness with
    | true => exact absurd h.symm (serialize_ne ha hlen.symm hwb hwa)
    | false =>
      rw [serialize, serialize, hwa, hwb] at h
      exact eq_of_stripped (stripped_eq_of_serializeNoWitness ha hb h)
        (witnesses_eq_of_not_hasWitness hlen hwa hwb)

end CTransaction

/-! ## 4. Hashes -/

/-- No two different ones of these byte strings have the same double SHA-256. -/
def Crypto.CollisionFree (cr : Crypto) (inputs : List Bytes) : Prop :=
  ∀ a ∈ inputs, ∀ b ∈ inputs, cr.hash256 a = cr.hash256 b → a = b

instance (cr : Crypto) (inputs : List Bytes) : Decidable (cr.CollisionFree inputs) :=
  inferInstanceAs (Decidable (∀ a ∈ inputs, ∀ b ∈ inputs, cr.hash256 a = cr.hash256 b → a = b))

end RgmNode
