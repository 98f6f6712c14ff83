import PysuiCrypto.Base64
import PysuiCrypto.NonceKey

/-!
# Address seeds and address preimages

An address seed is a number below `2 ^ 256`. Its decimal digits, its 32 bytes and its stripped
bytes all denote it, and the stripped bytes are its minimal encoding. A preimage of an address
spells the length of the issuer modulo 256 only, but the seed behind the issuer has 1 to 32
bytes, so that the length of the whole decides between lengths that agree modulo 256.
-/
namespace PysuiCrypto

open Outcome ByteNumerals

/-- The documented behaviour of the conversions of `num_bigint`: canonical decimal digits are
read and written, big-endian bytes are minimal, with one zero byte for zero. -/
structure NumBigint.FollowsDocs (nb : NumBigint) : Prop where
  parseBytes_repr : ∀ n : ℕ, nb.parseBytes (asBytes n.repr) 10 = some n
  toBytesBe_minimal : ∀ n : ℕ, Minimal (nb.toBytesBe n)
  beValue_toBytesBe : ∀ n : ℕ, beValue (nb.toBytesBe n) = n
  fromBytesBe_eq : ∀ bs : List UInt8, nb.fromBytesBe bs = beValue bs
  toStrRadix_ten : ∀ n : ℕ, nb.toStrRadix n 10 = n.repr

theorem asBytes_injective : Function.Injective asBytes := by
  intro s t h
  apply String.toByteArray_inj.mp
  exact ByteArray.ext (Array.toList_inj.mp h)

/-- A seed of 32 bytes is split behind its leading zeros, but keeps its last byte. -/
theorem stripSeedLeadingZeros_spec {ε : Type} {seed : List UInt8} (h : seed.length = 32) :
    ∃ zs out, (stripSeedLeadingZeros seed : Outcome ε (List UInt8)) = .ok out ∧
      seed = zs ++ out ∧ (∀ b ∈ zs, b = 0) ∧ Minimal out := by
  have hslice : (sliceFrom seed 31 : Outcome ε (List UInt8)) = .ok (seed.drop 31) :=
    if_pos (by omega)
  simp only [stripSeedLeadingZeros, hslice, ok_bind, pure_eq_ok]
  cases hpos : seed.findIdx? fun b => b ≠ 0 with
  | none =>
    have hzero : ∀ b ∈ seed, b = 0 := by simpa using List.findIdx?_eq_none_iff.mp hpos
    have hlast : (seed.drop 31).length = 1 := by rw [List.length_drop, h]
    exact ⟨seed.take 31, seed.drop 31, rfl, (List.take_append_drop 31 seed).symm,
      fun b hb => hzero b (List.mem_of_mem_take hb), minimal_of_length_eq_one hlast⟩
  | some pos =>
    obtain ⟨hlt, hne, hbefore⟩ := List.findIdx?_eq_some_iff_getElem.mp hpos
    refine ⟨seed.take pos, seed.drop pos, rfl, (List.take_append_drop pos seed).symm, ?_, ?_, ?_⟩
    · intro b hb
      obtain ⟨j, hj, rfl⟩ := List.mem_take_iff_getElem.mp hb
      simpa using hbefore j (by omega)
    · exact List.length_pos_iff.mp (by rw [List.length_drop]; omega)
    · intro rest heq
      rw [List.drop_eq_getElem_cons hlt] at heq
      simp [(List.cons.inj heq).1] at hne

theorem stripSeedLeadingZeros_eq {ε : Type} {seed : List UInt8} (h : seed.length = 32) :
    (stripSeedLeadingZeros seed : Outcome ε (List UInt8)) = .ok (beEncode (beValue seed)) := by
  obtain ⟨zs, out, hstrip, hseed, hzero, hmin⟩ := stripSeedLeadingZeros_spec (ε := ε) h
  rw [hstrip]
  apply congrArg Except.ok
  apply hmin.eq_of_beValue_eq (beEncode_minimal _)
  rw [beValue_beEncode, hseed, beValue_zeros_append hzero]

theorem copyFromSlice_replicate {ε : Type} {n : ℕ} {src : List UInt8} (h : src.length ≤ n) :
    (copyFromSlice (List.replicate n 0) (n - src.length) src : Outcome ε (List UInt8)) =
      .ok (List.replicate (n - src.length) 0 ++ src) := by
  have hslice : (sliceFrom (List.replicate n 0) (n - src.length) : Outcome ε (List UInt8)) =
      .ok (List.replicate src.length 0) := by
    rw [sliceFrom, if_pos (by simp), List.drop_replicate, Nat.sub_sub_self h]
  rw [copyFromSlice, hslice, ok_bind, if_pos (by simp), List.take_replicate,
    Nat.min_eq_left (Nat.sub_le _ _)]

variable {z : ZkPlatform}

theorem computeAddressSeed_of_parse (hz : z.bigint.FollowsDocs)
    {keyClaimName keyClaimValue audience userSalt text : String} {n : ℕ} (hn : n < 2 ^ 256)
    (hgen : z.genAddressSeed userSalt keyClaimName keyClaimValue audience = .ok text)
    (hparse : z.bigint.parseBytes (asBytes text) 10 = some n) :
    ∃ seed, computeAddressSeed z keyClaimName keyClaimValue audience userSalt = .ok seed ∧
      seed.length = 32 ∧ beValue seed = n := by
  have hlen : (z.bigint.toBytesBe n).length ≤ 32 := by
    refine (hz.toBytesBe_minimal n).length_le (by omega) ?_
    rw [hz.beValue_toBytesBe]
    exact hn.trans_eq (by norm_num)
  refine ⟨List.replicate (32 - (z.bigint.toBytesBe n).length) 0 ++ z.bigint.toBytesBe n,
    ?_, ?_, ?_⟩
  · simp only [computeAddressSeed, hgen, mapErr, ok_bind, hparse]
    exact copyFromSlice_replicate hlen
  · rw [List.length_append, List.length_replicate, Nat.sub_add_cancel hlen]
  · rw [beValue_zeros_append fun b hb => List.eq_of_mem_replicate hb, hz.beValue_toBytesBe]

theorem computeAddressSeed_spec (hz : z.bigint.FollowsDocs)
    {keyClaimName keyClaimValue audience userSalt : String} {s : ℕ} (hs : s < 2 ^ 256)
    (hgen : z.genAddressSeed userSalt keyClaimName keyClaimValue audience = .ok s.repr) :
    ∃ seed, computeAddressSeed z keyClaimName keyClaimValue audience userSalt = .ok seed ∧
      seed.length = 32 ∧ beValue seed = s :=
  computeAddressSeed_of_parse hz hs hgen (hz.parseBytes_repr s)

theorem computeAddressSeed_abort (hz : z.bigint.FollowsDocs)
    {keyClaimName keyClaimValue audience userSalt text : String} {n : ℕ} (hn : 2 ^ 256 ≤ n)
    (hgen : z.genAddressSeed userSalt keyClaimName keyClaimValue audience = .ok text)
    (hparse : z.bigint.parseBytes (asBytes text) 10 = some n) :
    ∃ message, computeAddressSeed z keyClaimName keyClaimValue audience userSalt =
      abort message := by
  have hlen : 32 < (z.bigint.toBytesBe n).length := by
    by_contra hshort
    have hlt := beValue_lt (z.bigint.toBytesBe n)
    have hpow : 256 ^ (z.bigint.toBytesBe n).length ≤ 256 ^ 32 :=
      Nat.pow_le_pow_right (by omega) (by omega)
    rw [hz.beValue_toBytesBe] at hlt
    omega
  have hslice : (sliceFrom (List.replicate 32 (0 : UInt8)) 0 : PyResult (List UInt8)) =
      .ok (List.replicate 32 0) := rfl
  refine ⟨"copy_from_slice: source slice length does not match destination slice length", ?_⟩
  simp only [computeAddressSeed, hgen, mapErr, ok_bind, hparse, Nat.sub_eq_zero_of_le hlen.le,
    copyFromSlice, hslice]
  exact if_neg (by rw [List.length_replicate]; omega)

/-- The seed of a claim is a `ValueError` if it cannot be generated and a `RuntimeError` if the
generated text is no number; a number is returned in 32 bytes if it has 256 bits at most, and is a
panic otherwise. -/
theorem computeAddressSeed_outcome (hz : z.bigint.FollowsDocs)
    (keyClaimName keyClaimValue audience userSalt : String) :
    (∀ e, z.genAddressSeed userSalt keyClaimName keyClaimValue audience = .error e →
      computeAddressSeed z keyClaimName keyClaimValue audience userSalt =
        fail (.valueError ("Address seed computation failed: " ++ e))) ∧
    ∀ text, z.genAddressSeed userSalt keyClaimName keyClaimValue audience = .ok text →
      (z.bigint.parseBytes (asBytes text) 10 = none →
        computeAddressSeed z keyClaimName keyClaimValue audience userSalt =
          fail (.runtimeError "Failed to parse address seed as big integer")) ∧
      ∀ n, z.bigint.parseBytes (asBytes text) 10 = some n →
        (n < 2 ^ 256 ↔ ∃ seed,
          computeAddressSeed z keyClaimName keyClaimValue audience userSalt = .ok seed) ∧
        (∀ seed, computeAddressSeed z keyClaimName keyClaimValue audience userSalt = .ok seed →
          seed.length = 32 ∧ beValue seed = n) ∧
        (2 ^ 256 ≤ n ↔ ∃ message,
          computeAddressSeed z keyClaimName keyClaimValue audience userSalt = abort message) := by
  refine ⟨fun e hgen => by rw [computeAddressSeed, hgen]; rfl, fun text hgen => ⟨fun hparse => ?_,
    fun n hparse => ?_⟩⟩
  · simp only [computeAddressSeed, hgen, mapErr, ok_bind, hparse]
    rfl
  · rcases lt_or_ge n (2 ^ 256) with hn | hn
    · obtain ⟨seed, hseed, hspec⟩ := computeAddressSeed_of_parse hz hn hgen hparse
      refine ⟨iff_of_true hn ⟨seed, hseed⟩, fun seed' hseed' => ?_, iff_of_false (by omega) ?_⟩
      · rwa [← Except.ok.inj (hseed.symm.trans hseed')]
      · rintro ⟨message, habort⟩
        rw [hseed] at habort
        cases habort
    · obtain ⟨message, habort⟩ := computeAddressSeed_abort hz hn hgen hparse
      refine ⟨iff_of_false (by omega) ?_, fun seed hseed => ?_, iff_of_true hn ⟨message, habort⟩⟩
      · rintro ⟨seed, hseed⟩
        rw [habort] at hseed
        cases hseed
      · rw [habort] at hseed
        cases hseed

/-- For a seed of any value below `2 ^ 256`, given by its decimal digits, the computed seed has
32 bytes that spell the value; the conversion back that goes into a signature returns the same
digits; and the bytes without leading zeros that go into an address are the minimal encoding of
the value, which is the byte zero for zero. -/
theorem address_seed_representations (hz : z.bigint.FollowsDocs)
    {keyClaimName keyClaimValue audience userSalt : String} {s : ℕ} (hs : s < 2 ^ 256)
    (hgen : z.genAddressSeed userSalt keyClaimName keyClaimValue audience = .ok s.repr) :
    ∃ seed stripped,
      computeAddressSeed z keyClaimName keyClaimValue audience userSalt = .ok seed ∧
      seed.length = 32 ∧ beValue seed = s ∧ seedDecimal z seed = s.repr ∧
      addressSeedBytes seed false = .ok stripped ∧
      (stripSeedLeadingZeros seed : PyResult (List UInt8)) = .ok stripped ∧
      Minimal stripped ∧ beValue stripped = s ∧ (s = 0 → stripped = [0]) := by
  obtain ⟨seed, hseed, hlen, hvalue⟩ := computeAddressSeed_spec hz hs hgen
  have hstrip : (stripSeedLeadingZeros seed : PyResult (List UInt8)) = .ok (beEncode s) := by
    rw [stripSeedLeadingZeros_eq hlen, hvalue]
  refine ⟨seed, beEncode s, hseed, hlen, hvalue, ?_, ?_, hstrip, beEncode_minimal s,
    beValue_beEncode s, fun h => if_pos h⟩
  · rw [seedDecimal, hz.fromBytesBe_eq, hvalue, hz.toStrRadix_ten]
  · rw [addressSeedBytes, if_neg (not_not.mpr hlen)]
    exact hstrip

def nativeBigint : NumBigint where
  parseBytes bs radix :=
    if radix = 10 then (String.fromUTF8? ⟨bs.toArray⟩).bind String.toNat? else none
  toBytesBe := beEncode
  fromBytesBe := beValue
  toStrRadix n radix := String.ofList (Nat.toDigits radix n)

theorem nativeBigint_followsDocs : nativeBigint.FollowsDocs where
  parseBytes_repr n := by
    have hutf8 : String.fromUTF8? ⟨(asBytes n.repr).toArray⟩ = some n.repr := by
      rw [asBytes, Array.toArray_toList]
      exact dif_pos n.repr.isValidUTF8
    simp only [nativeBigint, if_true, hutf8, Option.bind_some, Nat.toNat?_repr]
  toBytesBe_minimal := beEncode_minimal
  beValue_toBytesBe := beValue_beEncode
  fromBytesBe_eq _ := rfl
  toStrRadix_ten _ := rfl

def exampleSub : String := "110463452167303913607"

/-- The seeds of one user, by salt, claim and audience. -/
def knownSeeds : List ((String × String × String × String) × ℕ) := [
  (("12345", "sub", exampleSub, "test-aud"),
    2901593998968914076771909099537590673591738558961664592620973653641473688524),
  (("99999", "sub", exampleSub, "test-aud"),
    7183046309017037917904858664113506725752801290961247660772012035638463664831),
  (("47", "sub", exampleSub, "test-aud"),
    234743437579388701180646363088223994200050123806453673345400629837688703880)]

/-- The 32 bytes of the first of the seeds. -/
def exampleSeed : List UInt8 := [
  0x06, 0x6a, 0x3e, 0x77, 0x13, 0xe6, 0x3f, 0xd0, 0xd5, 0x67, 0xa7, 0x7f, 0x5d, 0x91, 0x04, 0xc0,
  0x5e, 0x2d, 0x94, 0xe4, 0xe3, 0x99, 0x9d, 0x33, 0x88, 0xf0, 0x1a, 0x58, 0x42, 0x7e, 0x03, 0xcc]

def exampleEpk : List UInt8 := (generateEphemeralKeypair fixedKeys () false).publicKey

def exampleRandomness : String := "100681567828351849884072155819400689004"

/-- The nonces of one key, by epoch. -/
def knownNonces : List ((List UInt8 × UInt64 × String) × String) := [
  ((buildNonceKey exampleEpk, 100, exampleRandomness), "2uvGOgQqYLs21EIfoEijxYNph74"),
  ((buildNonceKey exampleEpk, 200, exampleRandomness), "ye-UN-ZlOA7bjAXDnrY6TXytkJU")]

/-- The hash of this seed behind its issuer. -/
def knownDigests : List (List UInt8 × Vector UInt8 32) := [
  ([0x05, 27] ++ asBytes "https://accounts.google.com" ++ exampleSeed,
    #v[0x29, 0x6e, 0x5b, 0xae, 0xa7, 0xde, 0x0a, 0xb0, 0x0e, 0x45, 0xc7, 0xd3, 0x48, 0x45, 0x02,
      0xc5, 0x2e, 0xc1, 0xfb, 0x7c, 0x09, 0xd3, 0xc7, 0x27, 0x83, 0xec, 0xe2, 0xcb, 0xc6, 0xad,
      0x4f, 0x54])]

def exampleProof : String := "\x7b\"headerBase64\":\"eyJhbGciOiJSUzI1NiJ9\"\x7d"

/-- The crates on known arguments: other seeds, nonces and proofs are errors, and another hash is
the first 32 bytes. The inputs of a proof are its header and the digits of the seed. -/
def nativeZkPlatform : ZkPlatform where
  bigint := nativeBigint
  genAddressSeed salt name value aud :=
    match knownSeeds.lookup (salt, name, value, aud) with
    | some seed => .ok seed.repr
    | none => .error "Invalid value was given to the function"
  getNonce bytes maxEpoch randomness :=
    if bytes.length < 16 then abort "attempt to subtract with overflow"
    else
      match knownNonces.lookup (bytes, maxEpoch, randomness) with
      | some nonce => .ok nonce
      | none => fail "Invalid value was given to the function"
  ZkLoginInputs := List UInt8 × List UInt8
  zkLoginInputsFormat := BcsFormat.pair byteVecFormat byteVecFormat
  fromJson proof seed :=
    if proof = exampleProof then .ok (asBytes "eyJhbGciOiJSUzI1NiJ9", asBytes seed)
    else .error "expected value at line 1 column 1"
  blake2b256 bs := (knownDigests.lookup bs).getD (Vector.ofFn fun i : Fin 32 => bs.getD i 0)
  base64EncodeString := Base64.encode

/-- A known seed, and a salt that is no number. -/
theorem computeAddressSeed_outcome_example :
    computeAddressSeed nativeZkPlatform "sub" exampleSub "test-aud" "12345" = .ok exampleSeed ∧
    computeAddressSeed nativeZkPlatform "sub" exampleSub "test-aud" "salt" = fail (.valueError
      "Address seed computation failed: Invalid value was given to the function") := by
  have houtcome := computeAddressSeed_outcome (z := nativeZkPlatform) nativeBigint_followsDocs "sub"
    exampleSub "test-aud"
  refine ⟨?_, (houtcome "salt").1 _ rfl⟩
  have hparse := nativeBigint_followsDocs.parseBytes_repr
    2901593998968914076771909099537590673591738558961664592620973653641473688524
  obtain ⟨hok, hspec, -⟩ := ((houtcome "12345").2 _ rfl).2 _ hparse
  obtain ⟨seed, hseed⟩ := hok.mp (by norm_num)
  obtain ⟨hlen, hvalue⟩ := hspec seed hseed
  rw [hseed]
  exact congrArg Except.ok (beValue_inj hlen (hvalue.trans (by decide +kernel)))

theorem address_seed_representations_example :
    ∃ seed, computeAddressSeed nativeZkPlatform "sub" exampleSub "test-aud" "47" = .ok seed ∧
      seedDecimal nativeZkPlatform seed =
        "234743437579388701180646363088223994200050123806453673345400629837688703880" ∧
      (stripSeedLeadingZeros seed : PyResult (List UInt8)) = .ok [
        0x84, 0xdc, 0x2e, 0x06, 0x68, 0x59, 0xea, 0x4c, 0xd1, 0x21, 0x5d, 0x80, 0xd2, 0x33, 0xe6,
        0x90, 0xa4, 0xdc, 0xb7, 0x88, 0x04, 0xcb, 0x3b, 0x68, 0xcb, 0x95, 0x42, 0xe7, 0x3f, 0x8b,
        0x88] := by
  obtain ⟨seed, stripped, hseed, -, -, hdecimal, -, hstrip, hmin, hvalue, -⟩ :=
    address_seed_representations nativeBigint_followsDocs (by norm_num)
      (rfl : nativeZkPlatform.genAddressSeed "47" "sub" exampleSub "test-aud" = .ok (Nat.repr
        234743437579388701180646363088223994200050123806453673345400629837688703880))
  refine ⟨seed, hseed, hdecimal.trans (by decide +kernel), hstrip.trans (congrArg Except.ok ?_)⟩
  exact hmin.eq_of_beValue_eq ((minimal_cons_iff (by decide)).mpr (by decide))
    (hvalue.trans (by decide +kernel))

def hashedInput (iss : String) (addressSeed : List UInt8) (legacy : Bool) :
    PyResult (List UInt8) := do
  let seedBytes ← addressSeedBytes addressSeed legacy
  return addressInput iss seedBytes

theorem computeZkloginAddress_eq (iss : String) (addressSeed : List UInt8) (legacy : Bool) :
    computeZkloginAddress z iss addressSeed legacy = (do
      let bs ← hashedInput iss addressSeed legacy
      return "0x" ++ String.join ((z.blake2b256 bs).toList.map hexByte)) := by
  rw [computeZkloginAddress, hashedInput]
  cases addressSeedBytes addressSeed legacy <;> rfl

def spelledSeed (seed : Vector UInt8 32) (legacy : Bool) : List UInt8 :=
  if legacy then seed.toList else beEncode (beValue seed.toList)

theorem hashedInput_eq (iss : String) (seed : Vector UInt8 32) (legacy : Bool) :
    hashedInput iss seed.toList legacy = .ok (addressInput iss (spelledSeed seed legacy)) := by
  have hlen : seed.toList.length = 32 := Vector.length_toList
  rw [hashedInput, addressSeedBytes, if_neg (not_not.mpr hlen), stripSeedLeadingZeros_eq hlen,
    spelledSeed]
  cases legacy <;> rfl

theorem beValue_spelledSeed (seed : Vector UInt8 32) (legacy : Bool) :
    beValue (spelledSeed seed legacy) = beValue seed.toList := by
  cases legacy
  · exact beValue_beEncode _
  · rfl

theorem length_spelledSeed (seed : Vector UInt8 32) (legacy : Bool) :
    0 < (spelledSeed seed legacy).length ∧ (spelledSeed seed legacy).length ≤ 32 := by
  cases legacy with
  | true => simp [spelledSeed]
  | false =>
    have hmin := beEncode_minimal (beValue seed.toList)
    refine ⟨List.length_pos_iff.mpr hmin.nonempty, hmin.length_le (by omega) ?_⟩
    rw [beValue_beEncode]
    exact (beValue_lt _).trans_eq (by rw [Vector.length_toList])

theorem spelledSeed_inj {seed seed' : Vector UInt8 32} {legacy legacy' : Bool}
    (h : spelledSeed seed legacy = spelledSeed seed' legacy') : seed = seed' := by
  have hvalue := congrArg beValue h
  rw [beValue_spelledSeed, beValue_spelledSeed] at hvalue
  exact Vector.toList_inj.mp (beValue_inj (by simp) hvalue)

/-- Seeds of 1 to 32 bytes leave no room for issuer lengths that differ by a multiple of 256. -/
theorem addressInput_inj {iss iss' : String} {sb sb' : List UInt8}
    (hsb : 0 < sb.length ∧ sb.length ≤ 32) (hsb' : 0 < sb'.length ∧ sb'.length ≤ 32)
    (h : addressInput iss sb = addressInput iss' sb') : iss = iss' ∧ sb = sb' := by
  simp only [addressInput, List.append_assoc] at h
  obtain ⟨hbyte, hrest⟩ := List.append_inj (List.append_cancel_left h) rfl
  have hmod := congrArg UInt8.toNat (List.singleton_inj.mp hbyte)
  have htotal := congrArg List.length hrest
  simp only [UInt8.toNat_ofNat', List.length_append] at hmod htotal
  obtain ⟨hiss, hseed⟩ := List.append_inj hrest (by omega)
  exact ⟨asBytes_injective hiss, hseed⟩

theorem hashedInput_inj {iss iss' : String} {seed seed' : Vector UInt8 32} {legacy legacy' : Bool}
    (h : hashedInput iss seed.toList legacy = hashedInput iss' seed'.toList legacy') :
    iss = iss' ∧ seed = seed' ∧ spelledSeed seed legacy = spelledSeed seed' legacy' := by
  rw [hashedInput_eq, hashedInput_eq] at h
  obtain ⟨hiss, hspelled⟩ := addressInput_inj (length_spelledSeed seed legacy)
    (length_spelledSeed seed' legacy') (Except.ok.inj h)
  exact ⟨hiss, spelledSeed_inj hspelled, hspelled⟩

/-- A seed is its own minimal encoding exactly when nothing is stripped. -/
theorem spelledSeed_true_eq_false_iff (seed : Vector UInt8 32) :
    spelledSeed seed true = spelledSeed seed false ↔ seed.get 0 ≠ 0 := by
  have hlen : seed.toList.length = 32 := Vector.length_toList
  obtain ⟨b, rest, hcons⟩ := List.exists_cons_of_length_eq_add_one hlen
  have hb : seed.get 0 = b := by
    rw [Vector.get_eq_getElem]
    simp [← Vector.getElem_toList, hcons]
  have hrest : rest ≠ [] := by
    rintro rfl
    rw [hcons] at hlen
    simp at hlen
  rw [hb, ← minimal_cons_iff hrest, ← hcons, ← beEncode_beValue_eq_iff]
  exact eq_comm

/-- The bytes hashed for an address exist for every seed of 32 bytes, and with one flag they
determine the issuer, of any length, and the seed. With different flags they agree exactly for
one issuer and one seed whose first byte is not zero. -/
theorem address_preimages_unambiguous :
    (∀ (z : ZkPlatform) (iss : String) (seed : Vector UInt8 32) (legacy : Bool),
      ∃ bs, hashedInput iss seed.toList legacy = .ok bs ∧
        computeZkloginAddress z iss seed.toList legacy =
          .ok ("0x" ++ String.join ((z.blake2b256 bs).toList.map hexByte))) ∧
    (∀ (iss iss' : String) (seed seed' : Vector UInt8 32) (legacy : Bool),
      hashedInput iss seed.toList legacy = hashedInput iss' seed'.toList legacy →
        iss = iss' ∧ seed = seed') ∧
    ∀ (iss iss' : String) (seed seed' : Vector UInt8 32),
      hashedInput iss seed.toList true = hashedInput iss' seed'.toList false ↔
        iss = iss' ∧ seed = seed' ∧ seed.get 0 ≠ 0 := by
  refine ⟨?_, ?_, ?_⟩
  · intro z iss seed legacy
    refine ⟨_, hashedInput_eq iss seed legacy, ?_⟩
    rw [computeZkloginAddress_eq, hashedInput_eq, ok_bind, pure_eq_ok]
  · intro iss iss' seed seed' legacy h
    obtain ⟨hiss, hseed, -⟩ := hashedInput_inj h
    exact ⟨hiss, hseed⟩
  · intro iss iss' seed seed'
    constructor
    · intro h
      obtain ⟨hiss, rfl, hspelled⟩ := hashedInput_inj h
      exact ⟨hiss, rfl, (spelledSeed_true_eq_false_iff seed).mp hspelled⟩
    · rintro ⟨rfl, rfl, hfirst⟩
      rw [hashedInput_eq, hashedInput_eq, (spelledSeed_true_eq_false_iff seed).mpr hfirst]

end PysuiCrypto
