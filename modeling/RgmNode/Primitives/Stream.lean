import RgmNode.Primitives.Bytes

/-!
# Reading a stream

What `operator>>` of `CDataStream` does for numbers, hashes and vectors (`serialize.h`); an
exception is `none`.

* `readCompactSize_write`, `readVector_serBytes`, `readList_serVector` — what was written is read
  back
* `yields_readVector`, `yields_readList` — no vector that is read is longer than `MAX_SIZE`
-/

namespace RgmNode

open List LittleEndian

/-- A reader: the value and the rest of the stream. -/
abbrev Reader (α : Type) := StateT Bytes Option α

/-- `MAX_SIZE` -/
def maxSize : Nat := 0x02000000

/-- `read` -/
def readBytes (n : Nat) : Reader Bytes := fun s =>
  if s.length < n then none else some (s.take n, s.drop n)

/-- An unsigned integer of `w` bytes. -/
def readUInt (w : Nat) : Reader Nat := do
  return LittleEndian.decode (← readBytes w)

/-- A `uint32_t` -/
def readUInt32 : Reader UInt32 := do
  return UInt32.ofNat (← readUInt 4)

/-- An `int32_t` -/
def readInt32 : Reader Int32 := do
  return (← readUInt32).toInt32

/-- An `int64_t`, from its two's complement. -/
def readInt64 : Reader Int := do
  let n ← readUInt 8
  return if n < 2 ^ 63 then n else n - 2 ^ 64

/-- A `uint256` -/
def readUint256 : Reader Uint256 := do
  return BitVec.ofNat 256 (← readUInt 32)

/-- The longer forms of a length, which shorter lengths must not have. -/
def readLongSize (w least : Nat) : Reader Nat := do
  let n ← readUInt w
  if n < least then failure else return n

/-- `ReadCompactSize` before the check of the range. -/
def readSize : Reader Nat := do
  let chSize ← readUInt 1
  if chSize < 253 then return chSize
  else if chSize = 253 then readLongSize 2 253
  else if chSize = 254 then readLongSize 4 0x10000
  else readLongSize 8 0x100000000

def readCompactSize : Reader Nat := do
  let nSizeRet ← readSize
  if maxSize < nSizeRet then failure else return nSizeRet

def readVector : Reader Bytes := do
  readBytes (← readCompactSize)

/-- `n` objects, one after the other. -/
def readMany {α : Type} (read : Reader α) : Nat → Reader (List α)
  | 0 => return []
  | n + 1 => do
    let a ← read
    let as ← readMany read n
    return a :: as

def readList {α : Type} (read : Reader α) : Reader (List α) := do
  readMany read (← readCompactSize)

/-! ## 1. Round trips -/

theorem readBytes_append (b rest : Bytes) : readBytes b.length (b ++ rest) = some (b, rest) := by
  simp [readBytes]

theorem readBytes_append' {n : Nat} {b rest : Bytes} (h : b.length = n) :
    readBytes n (b ++ rest) = some (b, rest) := h ▸ readBytes_append b rest

theorem bind_apply_of_eq {α β : Type} {x : Reader α} {f : α → Reader β} {s s' : Bytes} {a : α}
    (h : x s = some (a, s')) : (x >>= f) s = f a s' := by
  show (x s).bind (fun p => f p.1 p.2) = f a s'
  rw [h]
  rfl

/-- What two readers give was read by the first, and then by the second. -/
theorem exists_of_bind_apply {α β : Type} {x : Reader α} {f : α → Reader β} {s : Bytes}
    {r : β × Bytes} (h : (x >>= f) s = some r) : ∃ a s', x s = some (a, s') ∧ f a s' = some r := by
  obtain ⟨⟨a, s'⟩, hx, hf⟩ := Option.bind_eq_some_iff.mp h
  exact ⟨a, s', hx, hf⟩

theorem readUInt_encode {w n : Nat} (rest : Bytes) (h : n < 256 ^ w) :
    readUInt w (encode w n ++ rest) = some (n, rest) := by
  rw [readUInt, bind_apply_of_eq (readBytes_append' length_encode),
    decode_encode, Nat.mod_eq_of_lt h]
  rfl

theorem readUInt32_write (x : UInt32) (rest : Bytes) :
    readUInt32 (serUInt32 x ++ rest) = some (x, rest) := by
  rw [readUInt32, serUInt32, bind_apply_of_eq (readUInt_encode rest x.toNat_lt), UInt32.ofNat_toNat]
  rfl

theorem readInt32_write (x : Int32) (rest : Bytes) :
    readInt32 (serInt32 x ++ rest) = some (x, rest) := by
  have hread := readUInt32_write x.toUInt32 rest
  rw [serUInt32] at hread
  rw [readInt32, serInt32, bind_apply_of_eq hread]
  rfl

theorem readInt64_write {x : Int} (hlow : -2 ^ 63 ≤ x) (hhigh : x < 2 ^ 63) (rest : Bytes) :
    readInt64 (serInt64 x ++ rest) = some (x, rest) := by
  have hlt : (x % 2 ^ 64).toNat < 256 ^ 8 := by omega
  have hback : (if (x % 2 ^ 64).toNat < 2 ^ 63 then ((x % 2 ^ 64).toNat : Int)
      else (x % 2 ^ 64).toNat - 2 ^ 64) = x := by
    split <;> omega
  rw [readInt64, serInt64, bind_apply_of_eq (readUInt_encode rest hlt), hback]
  rfl

theorem readUint256_bytes (x : Uint256) (rest : Bytes) :
    readUint256 (x.bytes ++ rest) = some (x, rest) := by
  rw [readUint256, Uint256.bytes, bind_apply_of_eq (readUInt_encode rest x.isLt),
    BitVec.ofNat_toNat]
  rfl

theorem readLongSize_encode {w least n : Nat} (rest : Bytes) (hleast : least ≤ n)
    (h : n < 256 ^ w) :
    readLongSize w least (encode w n ++ rest) = some (n, rest) := by
  rw [readLongSize, bind_apply_of_eq (readUInt_encode rest h), if_neg (not_lt.mpr hleast)]
  rfl

theorem readUInt_one {b : UInt8} (rest : Bytes) : readUInt 1 (b :: rest) = some (b.toNat, rest) := by
  have hread := readUInt_encode rest (w := 1) b.toNat_lt
  rwa [show encode 1 b.toNat = [b] by simp [encode]] at hread

theorem readSize_write {n : Nat} (h : n < 2 ^ 64) (rest : Bytes) :
    readSize (writeCompactSize n ++ rest) = some (n, rest) := by
  unfold writeCompactSize
  split
  · next hsmall =>
    have hn : (UInt8.ofNat n).toNat = n := by
      rw [UInt8.toNat_ofNat']
      omega
    rw [readSize, singleton_append, bind_apply_of_eq (readUInt_one rest), hn, if_pos hsmall]
    rfl
  next hsmall =>
  split
  · rw [readSize, cons_append, bind_apply_of_eq (readUInt_one _)]
    exact readLongSize_encode rest (not_lt.mp hsmall) (by omega)
  next hmedium =>
  split
  · rw [readSize, cons_append, bind_apply_of_eq (readUInt_one _)]
    exact readLongSize_encode rest (not_le.mp hmedium) (by omega)
  next hlarge =>
  rw [readSize, cons_append, bind_apply_of_eq (readUInt_one _)]
  exact readLongSize_encode rest (not_le.mp hlarge) h

theorem readCompactSize_write {n : Nat} (h : n ≤ maxSize) (rest : Bytes) :
    readCompactSize (writeCompactSize n ++ rest) = some (n, rest) := by
  have hmax : n ≤ 0x02000000 := h
  rw [readCompactSize, bind_apply_of_eq (readSize_write (by omega) rest), if_neg (not_lt.mpr h)]
  rfl

/-- A byte vector is read back, and what stands behind it is left. -/
theorem readVector_serBytes {b : Bytes} (h : b.length ≤ maxSize) (rest : Bytes) :
    readVector (serBytes b ++ rest) = some (b, rest) := by
  rw [readVector, serBytes, append_assoc, bind_apply_of_eq (readCompactSize_write h _)]
  exact readBytes_append b rest

section Lists

variable {α : Type} {read : Reader α} {ser : α → Bytes} {back : α → α}

theorem readMany_flatMap {as : List α}
    (h : ∀ a ∈ as, ∀ rest, read (ser a ++ rest) = some (back a, rest)) (rest : Bytes) :
    readMany read as.length (as.flatMap ser ++ rest) = some (as.map back, rest) := by
  induction as with
  | nil => rfl
  | cons a as ih =>
    have htail := ih fun b hb => h b (mem_cons_of_mem a hb)
    rw [flatMap_cons, append_assoc, length_cons, readMany,
      bind_apply_of_eq (h a mem_cons_self _), bind_apply_of_eq htail]
    rfl

theorem readList_serVector {as : List α} (hlen : as.length ≤ maxSize)
    (h : ∀ a ∈ as, ∀ rest, read (ser a ++ rest) = some (back a, rest)) (rest : Bytes) :
    readList read (serVector ser as ++ rest) = some (as.map back, rest) := by
  rw [readList, serVector, append_assoc, bind_apply_of_eq (readCompactSize_write hlen _)]
  exact readMany_flatMap h rest

end Lists

/-! ## 2. What can be read -/

def Yields {α : Type} (read : Reader α) (P : α → Prop) : Prop :=
  ∀ ⦃s : Bytes⦄ ⦃a : α⦄ ⦃rest : Bytes⦄, read s = some (a, rest) → P a

section Yields

variable {α β : Type} {x read : Reader α} {f : α → Reader β} {P : α → Prop} {Q : β → Prop}

theorem Yields.bind (hx : Yields x P) (hf : ∀ a, P a → Yields (f a) Q) : Yields (x >>= f) Q := by
  intro s b rest h
  obtain ⟨a, s', ha, hb⟩ := exists_of_bind_apply h
  exact hf a (hx ha) hb

theorem yields_pure {a : α} (h : P a) : Yields (pure a : Reader α) P := by
  intro s b rest hb
  cases hb
  exact h

theorem yields_failure : Yields (failure : Reader α) P := by
  intro s a rest h
  cases h

theorem yields_true : Yields x fun _ => True := fun _ _ _ _ => trivial

theorem yields_readCompactSize : Yields readCompactSize (· ≤ maxSize) := by
  refine yields_true.bind fun n _ => ?_
  split
  · exact yields_failure
  · next h => exact yields_pure (not_lt.mp h)

theorem yields_readVector : Yields readVector fun b => b.length ≤ maxSize := by
  refine yields_readCompactSize.bind fun n hn s b rest h => ?_
  simp only [readBytes] at h
  split at h
  · cases h
  · cases h
    exact (length_take_le n s).trans hn

theorem yields_readMany (h : Yields read P) (n : Nat) :
    Yields (readMany read n) fun as => as.length = n ∧ ∀ a ∈ as, P a := by
  induction n with
  | zero => exact yields_pure ⟨rfl, nofun⟩
  | succ n ih =>
    refine h.bind fun a ha => ih.bind fun as has => yields_pure ⟨?_, ?_⟩
    · rw [length_cons, has.1]
    · exact forall_mem_cons.mpr ⟨ha, has.2⟩

theorem yields_readList (h : Yields read P) :
    Yields (readList read) fun as => as.length ≤ maxSize ∧ ∀ a ∈ as, P a := by
  refine yields_readCompactSize.bind fun n hn s as rest has => ?_
  obtain ⟨hlen, hall⟩ := yields_readMany h n has
  exact ⟨hlen ▸ hn, hall⟩

end Yields

end RgmNode
