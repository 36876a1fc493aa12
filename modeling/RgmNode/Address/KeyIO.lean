import RgmNode.Address.Bech32
import RgmNode.Consensus.Params
import RgmNode.Script.Destination

/-!
# Address strings

`EncodeDestination` and `DecodeDestination` of `base58.cpp`, on the three networks.

* `decode_encodeDestination` — every address is read back
-/

namespace RgmNode

open List Bech32 Option

/-! ## 1. The code -/

inductive Base58Type where
  | pubkeyAddress
  | scriptAddress
deriving DecidableEq

/-- `Base58Prefix` of the networks -/
def Network.base58Prefix : Network → Base58Type → Bytes
  | .main, .pubkeyAddress => [60]
  | .main, .scriptAddress => [122]
  | .test, .pubkeyAddress => [60]
  | .test, .scriptAddress => [122]
  | .regtest, .pubkeyAddress => [60]
  | .regtest, .scriptAddress => [122]

/-- `Bech32HRP` of the networks -/
def Network.bech32HRP : Network → Bytes
  | .main => ascii "rgm"
  | .test => ascii "trgm"
  | .regtest => ascii "rrgm"

namespace CTxDestination

open Base58

variable (cr : Crypto) (net : Network)

def encodeWitness (version : Nat) (program : Bytes) : Bytes :=
  Bech32.encode net.bech32HRP (UInt8.ofNat version :: (convertBits 8 5 true program).2)

/-- `EncodeDestination`; `none` where an assertion of `EncodeBase58` fails. -/
def encodeDestination : CTxDestination → Option Bytes
  | .keyID hash => encodeBase58Check cr (net.base58Prefix .pubkeyAddress ++ hash.bytes)
  | .scriptID hash => encodeBase58Check cr (net.base58Prefix .scriptAddress ++ hash.bytes)
  | .witnessV0KeyHash hash => some (encodeWitness net 0 hash.bytes)
  | .witnessV0ScriptHash hash => some (encodeWitness net 0 hash.bytes)
  | .witnessUnknown id =>
    if id.version < 1 ∨ 16 < id.version ∨ id.program.length < 2 ∨ 40 < id.program.length then
      some []
    else some (encodeWitness net id.version id.program)
  | .noDestination => some []

/-- The base 58 part of `DecodeDestination`, on the data that `DecodeBase58Check` gives. -/
def decodeLegacy (data : Bytes) : Option CTxDestination :=
  let pubkeyPrefix := net.base58Prefix .pubkeyAddress
  let scriptPrefix := net.base58Prefix .scriptAddress
  if data.length = 20 + pubkeyPrefix.length ∧ data.take pubkeyPrefix.length = pubkeyPrefix then
    some (.keyID (Uint160.ofBytes (data.drop pubkeyPrefix.length)))
  else if data.length = 20 + scriptPrefix.length ∧ data.take scriptPrefix.length = scriptPrefix then
    some (.scriptID (Uint160.ofBytes (data.drop scriptPrefix.length)))
  else none

def ofWitness (witnessVersion : Nat) (witnessProgram : Bytes) : CTxDestination :=
  if witnessVersion = 0 then
    if witnessProgram.length = 20 then .witnessV0KeyHash (Uint160.ofBytes witnessProgram)
    else if witnessProgram.length = 32 then .witnessV0ScriptHash (Uint256.ofBytes witnessProgram)
    else .noDestination
  else if h : 1 ≤ witnessVersion ∧ witnessVersion ≤ 16 ∧
      2 ≤ witnessProgram.length ∧ witnessProgram.length ≤ 40 then
    .witnessUnknown ⟨witnessVersion, witnessProgram, h.2.2.2⟩
  else .noDestination

/-- The bech32 part of `DecodeDestination` -/
def decodeWitness (str : Bytes) : CTxDestination :=
  let bech := Bech32.decode str
  match bech.2 with
  | [] => .noDestination
  | witnessVersion :: values =>
    if bech.1 = net.bech32HRP then
      let ⟨ok, witnessProgram⟩ := convertBits 5 8 false values
      if !ok then .noDestination else ofWitness witnessVersion.toNat witnessProgram
    else .noDestination

/-- `DecodeDestination`; `none` where an assertion of `DecodeBase58` fails. -/
def decodeDestination (str : Bytes) : Option CTxDestination :=
  (decodeBase58Check cr str).map fun result =>
    ((result.bind (decodeLegacy net)).getD (decodeWitness net str))

/-! ## 2. Base 58 addresses -/

variable {str data program : Bytes} {d : CTxDestination} {version : Nat}

theorem decodeDestination_of_check (h : decodeBase58Check cr str = some (some data))
    (hlegacy : decodeLegacy net data = some d) : decodeDestination cr net str = some d := by
  rw [decodeDestination, h, map_some, bind_some, hlegacy, getD_some]

theorem decodeLegacy_keyID (hash : Uint160) :
    decodeLegacy net (net.base58Prefix .pubkeyAddress ++ hash.bytes) = some (.keyID hash) := by
  have hlen : (net.base58Prefix .pubkeyAddress ++ hash.bytes).length =
      20 + (net.base58Prefix .pubkeyAddress).length := by
    rw [length_append, Uint160.length_bytes, add_comm]
  rw [decodeLegacy, if_pos ⟨hlen, take_left⟩, drop_left, Uint160.ofBytes_bytes]

theorem decodeLegacy_scriptID (hash : Uint160) :
    decodeLegacy net (net.base58Prefix .scriptAddress ++ hash.bytes) = some (.scriptID hash) := by
  have hlen : (net.base58Prefix .scriptAddress ++ hash.bytes).length =
      20 + (net.base58Prefix .scriptAddress).length := by
    rw [length_append, Uint160.length_bytes, add_comm]
  -- the two prefixes differ, on every network
  have hother : (net.base58Prefix .scriptAddress ++ hash.bytes).take
      (net.base58Prefix .pubkeyAddress).length ≠ net.base58Prefix .pubkeyAddress := by
    cases net <;> exact fun h => absurd (List.cons.inj h).1 (by decide)
  rw [decodeLegacy, if_neg fun h => hother h.2, if_pos ⟨hlen, take_left⟩, drop_left,
    Uint160.ofBytes_bytes]

/-! ## 3. Regrouped programs -/

open BitGroups

theorem fits_bytes (vs : Bytes) : Fits 8 vs := fun v _ => v.toNat_lt

/-- The values of a program, with the padding that makes them whole. -/
theorem convertBits_program (program : Bytes) :
    ∃ z < 5, groups 5 (convertBits 8 5 true program).2 =
        groups 8 program ++ List.replicate z false ∧
      Fits 5 (convertBits 8 5 true program).2 := by
  obtain ⟨out, z, heq, hz, hrow, hfits⟩ :=
    convertBits_pad 5 (by decide) (by decide) (by decide) (fits_bytes program)
  rw [heq]
  exact ⟨z, hz, hrow, hfits⟩

theorem convertBits_values (program : Bytes) :
    convertBits 5 8 false (convertBits 8 5 true program).2 = (true, program) := by
  obtain ⟨z, hz, hrow, hfits⟩ := convertBits_program program
  exact (convertBits_exact (by decide) (by decide) (by decide) hfits program).mpr
    ⟨fits_bytes program, z, hz, hrow⟩

theorem values_of_convertBits {values : Bytes} (hvalues : Fits 5 values)
    (h : convertBits 5 8 false values = (true, program)) :
    (convertBits 8 5 true program).2 = values := by
  obtain ⟨-, z, hz, hrow⟩ :=
    (convertBits_exact (by decide) (by decide) (by decide) hvalues program).mp h
  obtain ⟨z', hz', hrow', hfits⟩ := convertBits_program program
  -- both paddings fill up the last group, so they have one length
  have hsame : z' = z := by
    have hlen := congrArg List.length hrow
    have hlen' := congrArg List.length hrow'
    simp only [length_groups, length_append, length_replicate] at hlen hlen'
    omega
  refine groups_inj (by decide) hfits hvalues ?_
  rw [hrow', hrow, hsame]

theorem length_convertBits (program : Bytes) :
    8 * program.length ≤ 5 * (convertBits 8 5 true program).2.length ∧
      5 * (convertBits 8 5 true program).2.length < 8 * program.length + 5 := by
  obtain ⟨z, hz, hrow, -⟩ := convertBits_program program
  have hlen := congrArg List.length hrow
  simp only [length_groups, length_append, length_replicate] at hlen
  omega

/-! ## 4. Bech32 addresses -/

theorem plain_bech32HRP : Plain net.bech32HRP := by
  cases net <;> (unfold Plain; decide +kernel)

theorem length_bech32HRP : 3 ≤ net.bech32HRP.length ∧ net.bech32HRP.length ≤ 4 := by
  cases net <;> decide +kernel

/-- The address of a program is a text of bech32, of the network's length. -/
theorem fits_witness (hversion : version ≤ 16) (program : Bytes) :
    Fits 5 (UInt8.ofNat version :: (convertBits 8 5 true program).2) := by
  obtain ⟨z, -, -, hfits⟩ := convertBits_program program
  refine forall_mem_cons.mpr ⟨?_, hfits⟩
  rw [UInt8.toNat_ofNat_of_lt' (lt_of_le_of_lt hversion (by decide))]
  exact lt_of_le_of_lt hversion (by decide)

theorem decodeWitness_encodeWitness (hversion : version ≤ 16) (hprogram : program.length ≤ 40) :
    decodeWitness net (encodeWitness net version program) = ofWitness version program := by
  have hhrp := length_bech32HRP net
  have hlen := length_convertBits program
  have hne : net.bech32HRP ≠ [] := by
    intro h
    rw [h] at hhrp
    exact absurd hhrp.1 (by decide)
  have hdecode := decode_encode hne (plain_bech32HRP net) (fits_witness hversion program)
    (cons_ne_nil _ _) (by rw [length_cons]; omega)
  rw [decodeWitness, encodeWitness, hdecode]
  dsimp only
  rw [if_pos rfl, convertBits_values]
  dsimp only
  rw [if_neg (by decide), UInt8.toNat_ofNat_of_lt' (lt_of_le_of_lt hversion (by decide))]

theorem isSpace_of_plain {c : UInt8} (h : ¬ (c < 33 ∨ 126 < c)) : isSpace c = false := by
  have hle : 33 ≤ c := UInt8.not_lt.mp (not_or.mp h).1
  have hne : c ≠ 0x20 := by
    rintro rfl
    exact absurd hle (by decide)
  have hgt : ¬ c ≤ 0x0d := fun hc => absurd (UInt8.le_trans hle hc) (by decide)
  rw [isSpace, decide_eq_false hgt, Bool.and_false, Bool.or_false]
  exact beq_eq_false_iff_ne.mpr hne

/-- The base 58 part takes data of one length only. -/
theorem length_of_decodeLegacy (h : decodeLegacy net data = some d) : data.length = 21 := by
  have hlen : ∀ type, (net.base58Prefix type).length = 1 := by
    intro type
    cases net <;> cases type <;> rfl
  unfold decodeLegacy at h
  dsimp only at h
  split at h
  · next hkey => rw [hkey.1, hlen]
  · split at h
    · next hscript => rw [hscript.1, hlen]
    · cases h

theorem decodeBase58Check_total (str : Bytes) : ∃ result, decodeBase58Check cr str = some result := by
  rw [decodeBase58Check, decodeBase58_eq]
  exact ⟨_, rfl⟩

/-- A plain text of more than 42 characters that does not start with a one is no address in
base 58: it stands for more than 25 bytes. -/
theorem decodeLegacy_of_long (hplain : Plain str) (hlong : 42 < str.length)
    (hhead : str.head? ≠ some one) (h : decodeBase58Check cr str = some (some data)) :
    decodeLegacy net data = none := by
  have hcstr : str.takeWhile (· != 0) = str := by
    refine takeWhile_eq_self_iff.mpr fun c hc => bne_iff_ne.mpr ?_
    rintro rfl
    exact (hplain 0 hc).1 (.inl (by decide))
  cases str with
  | nil => cases hlong
  | cons c psz =>
    rw [decodeBase58Check, hcstr] at h
    obtain ⟨result, hdecode, h⟩ := map_eq_some_iff.mp h
    obtain ⟨vch, hvch, hdata⟩ := bind_eq_some_iff.mp h
    rw [hvch] at hdecode
    have hbound := pow_lt_of_decodeBase58 (fun heq => hhead (congrArg some heq))
      (fun x hx => isSpace_of_plain (hplain x hx).1) hdecode
    have hmany : 25 < vch.length := by
      refine Nat.lt_of_not_le fun hle => ?_
      have hpow : (58 : Nat) ^ 42 ≤ 58 ^ psz.length :=
        Nat.pow_le_pow_right (by decide) (Nat.le_of_lt_succ hlong)
      have hpow' : (256 : Nat) ^ vch.length ≤ 256 ^ 25 := Nat.pow_le_pow_right (by decide) hle
      exact absurd (lt_of_le_of_lt hpow (lt_of_lt_of_le hbound hpow')) (by decide)
    have hdata : data = vch.take (vch.length - 4) := by
      split at hdata
      · cases hdata
      · split at hdata
        · cases hdata
        · exact (some.inj hdata).symm
    cases hlegacy : decodeLegacy net data with
    | none => rfl
    | some d =>
      have hlen := length_of_decodeLegacy net hlegacy
      rw [hdata, length_take] at hlen
      omega

/-- An address of a witness program of twenty bytes or more is read as that program. -/
theorem decodeDestination_bech32 (hversion : version ≤ 16) (hmin : 20 ≤ program.length)
    (hmax : program.length ≤ 40) :
    decodeDestination cr net (encodeWitness net version program) =
      some (ofWitness version program) := by
  have hplain : Plain (encodeWitness net version program) :=
    plain_encode (plain_bech32HRP net) (fits_witness hversion program)
  have hlong : 42 < (encodeWitness net version program).length := by
    have hhrp := length_bech32HRP net
    have hlen := length_convertBits program
    rw [encodeWitness, length_encode, length_cons]
    omega
  have hhead : (encodeWitness net version program).head? ≠ some one := by
    cases net <;> exact fun h => absurd (some.inj h) (by decide)
  obtain ⟨result, hresult⟩ := decodeBase58Check_total cr (encodeWitness net version program)
  rw [decodeDestination, hresult, map_some, decodeWitness_encodeWitness net hversion hmax]
  cases result with
  | none => rfl
  | some data => rw [bind_some, decodeLegacy_of_long cr net hplain hlong hhead hresult,
      getD_none]

/-! ## 5. The round trips -/

/-- The destinations that have addresses. -/
def Addressable : CTxDestination → Prop
  | .noDestination => False
  | .witnessUnknown id => 1 ≤ id.version ∧ id.version ≤ 16 ∧ 20 ≤ id.program.length
  | _ => True

def IsWitness : CTxDestination → Prop
  | .witnessV0KeyHash _ => True
  | .witnessV0ScriptHash _ => True
  | .witnessUnknown _ => True
  | _ => False

theorem decode_encodeDestination (h : d.Addressable) :
    ∃ str, encodeDestination cr net d = some str ∧ decodeDestination cr net str = some d := by
  cases d with
  | noDestination => exact absurd h id
  | keyID hash =>
    obtain ⟨str, hencode, hcheck⟩ := decodeBase58Check_encodeBase58Check cr
      (net.base58Prefix .pubkeyAddress ++ hash.bytes)
    exact ⟨str, hencode, decodeDestination_of_check cr net hcheck (decodeLegacy_keyID net hash)⟩
  | scriptID hash =>
    obtain ⟨str, hencode, hcheck⟩ := decodeBase58Check_encodeBase58Check cr
      (net.base58Prefix .scriptAddress ++ hash.bytes)
    exact ⟨str, hencode, decodeDestination_of_check cr net hcheck (decodeLegacy_scriptID net hash)⟩
  | witnessV0KeyHash hash =>
    have hlen := Uint160.length_bytes hash
    refine ⟨_, rfl, ?_⟩
    rw [decodeDestination_bech32 cr net (by decide) (by omega) (by omega), ofWitness,
      if_pos rfl, if_pos hlen, Uint160.ofBytes_bytes]
  | witnessV0ScriptHash hash =>
    have hlen := Uint256.length_bytes hash
    refine ⟨_, rfl, ?_⟩
    rw [decodeDestination_bech32 cr net (by decide) (by omega) (by omega), ofWitness,
      if_pos rfl, if_neg (by omega), if_pos hlen, Uint256.ofBytes_bytes]
  | witnessUnknown id =>
    obtain ⟨hone, hsixteen, hmin⟩ := h
    have hmax := id.length_le
    refine ⟨encodeWitness net id.version id.program, if_neg (by omega), ?_⟩
    rw [decodeDestination_bech32 cr net hsixteen hmin hmax, ofWitness, if_neg (by omega),
      dif_pos ⟨hone, hsixteen, by omega, hmax⟩]

/-- The destination of a program has the address of the program. -/
theorem encodeDestination_ofWitness (h : (ofWitness version program).IsWitness) :
    encodeDestination cr net (ofWitness version program) =
      some (encodeWitness net version program) := by
  unfold ofWitness at h ⊢
  split at h
  · next hversion =>
    subst hversion
    split at h
    · next hlen =>
      rw [if_pos rfl, if_pos hlen, encodeDestination, Uint160.bytes_ofBytes hlen]
    · split at h
      · next hne hlen =>
        rw [if_pos rfl, if_neg hne, if_pos hlen, encodeDestination, Uint256.bytes_ofBytes hlen]
      · exact absurd h id
  · next hversion =>
    split at h
    · next hrange =>
      rw [if_neg hversion, dif_pos hrange]
      exact if_neg (by dsimp only; omega)
    · exact absurd h id

/-- A string that decodes to a witness destination is, but for its case, its address. -/
theorem encodeDestination_of_decode (h : decodeDestination cr net str = some d) (hd : d.IsWitness) :
    encodeDestination cr net d = some (str.map lowerCase) := by
  obtain ⟨result, -, hd'⟩ := map_eq_some_iff.mp h
  -- the base 58 part gives no witness destination
  have hwitness : decodeWitness net str = d := by
    cases hlegacy : result.bind (decodeLegacy net) with
    | none => rwa [hlegacy] at hd'
    | some d' =>
      rw [hlegacy] at hd'
      obtain rfl : d' = d := hd'
      obtain ⟨data, -, hdata⟩ := bind_eq_some_iff.mp hlegacy
      unfold decodeLegacy at hdata
      dsimp only at hdata
      split at hdata
      · cases hdata
        exact absurd hd id
      · split at hdata
        · cases hdata
          exact absurd hd id
        · cases hdata
  subst hwitness
  rw [decodeWitness] at hd ⊢
  cases hbech : decode str with
  | mk hrp all =>
    rw [hbech] at hd
    cases all with
    | nil => exact absurd hd id
    | cons version values =>
      obtain ⟨hencode, hfits⟩ := encode_decode hbech (cons_ne_nil _ _)
      obtain ⟨-, hvalues⟩ := forall_mem_cons.mp hfits
      dsimp only at hd ⊢
      split at hd
      · next hhrp =>
        rw [if_pos hhrp]
        cases hconvert : convertBits 5 8 false values with
        | mk ok program =>
          rw [hconvert] at hd
          cases ok with
          | false => exact absurd hd id
          | true =>
            have hback := values_of_convertBits hvalues hconvert
            refine (encodeDestination_ofWitness cr net hd).trans (congrArg some ?_)
            rw [encodeWitness, hback, ← hhrp, UInt8.ofNat_toNat, hencode]
      · exact absurd hd id

/-- Addresses round trip, on every network. -/
theorem addresses_round_trip :
    (∀ d : CTxDestination, d.Addressable → ∃ str,
      encodeDestination cr net d = some str ∧ decodeDestination cr net str = some d) ∧
    ∀ (str : Bytes) (d : CTxDestination), decodeDestination cr net str = some d → d.IsWitness →
      encodeDestination cr net d = some (str.map Bech32.lowerCase) :=
  ⟨fun _ h => decode_encodeDestination cr net h,
    fun _ _ h hd => encodeDestination_of_decode cr net h hd⟩

theorem addresses_round_trip_pq :
    let cr : Crypto := ⟨fun _ => 0, fun _ => 0, fun _ => 0, fun _ => 0⟩
    let d : CTxDestination := .witnessUnknown ⟨2, List.replicate 32 7, by decide⟩
    ∃ str, encodeDestination cr .main d = some str ∧ decodeDestination cr .main str = some d ∧
      encodeDestination cr .main d = some (str.map Bech32.lowerCase) := by
  intro cr d
  obtain ⟨hround, hback⟩ := addresses_round_trip cr .main
  obtain ⟨str, hencode, hdecode⟩ := hround d ⟨by decide, by decide, by decide⟩
  exact ⟨str, hencode, hdecode, hback str d hdecode trivial⟩

end CTxDestination

end RgmNode
