import PysuiCrypto.Jwt
import PysuiCrypto.ObjectId

/-!
# Logins

The steps of the sample program from an ephemeral key and a token to an address: the nonce of the
key, the claims of the token, the comparison of the two nonces, the seed of the address, and the
address.
-/
namespace PysuiCrypto

open Outcome ByteNumerals Bindings

/-- How the program ends without an address: with an exception of the module, or with the failed
assertion about the nonces. -/
inductive LoginErr
  | raised (e : PyErr)
  | nonceMismatch (jwtNonce nonce : String)

structure LoginRequest where
  epkBytes : List UInt8
  maxEpoch : UInt64
  randomness : String
  userSalt : String

section
variable (z : ZkPlatform) (d : JwtDecoders)

/-- Steps 2 and 4 to 6 of the program, for the token that step 3 returns. -/
def login (r : LoginRequest) (jwt : String) : Outcome LoginErr String := do
  let nonce ← mapFail .raised (computeNonce z r.epkBytes r.maxEpoch r.randomness)
  let (iss, sub, aud, jwtNonce) ← mapFail .raised (extractJwtClaims d jwt)
  if jwtNonce ≠ nonce then fail (.nonceMismatch jwtNonce nonce)
  else do
    let seed ← mapFail .raised (computeAddressSeed z "sub" sub aud r.userSalt)
    mapFail .raised (computeZkloginAddress z iss seed false)

/-- The bytes that are hashed for an issuer and a seed. -/
def addressPreimage (iss : String) (s : ℕ) : List UInt8 := addressInput iss (beEncode s)

def addressText (iss : String) (s : ℕ) : String :=
  "0x" ++ String.join ((z.blake2b256 (addressPreimage iss s)).toList.map hexByte)

/-- What is established when a login has come to an address. -/
structure LoggedIn (r : LoginRequest) (jwt iss sub aud nonce : String) (s : ℕ) : Prop where
  getNonce_eq : z.getNonce (buildNonceKey r.epkBytes) r.maxEpoch r.randomness = .ok nonce
  extractJwtClaims_eq : extractJwtClaims d jwt = .ok (iss, sub, aud, nonce)
  genAddressSeed_eq : z.genAddressSeed r.userSalt "sub" sub aud = .ok s.repr
  seed_lt : s < 2 ^ 256

/-- The documented seeds: decimal digits of a number of at most 256 bits. -/
def ZkPlatform.SeedDocs : Prop :=
  ∀ {salt name value aud text}, z.genAddressSeed salt name value aud = .ok text →
    ∃ s < 2 ^ 256, text = s.repr

/-- Nonces are computed without a panic for keys that, with the flag, have 16 bytes or more. -/
def ZkPlatform.NonceDocs : Prop :=
  ∀ {bytes : List UInt8}, 16 ≤ bytes.length → ∀ maxEpoch randomness,
    Returns (z.getNonce bytes maxEpoch randomness)

end

theorem join_hexByte (bs : List UInt8) :
    String.join (bs.map hexByte) = String.ofList (Hex.encode bs) := by
  apply String.toList_inj.mp
  rw [String.toList_join, List.flatMap_map, String.toList_ofList]
  exact List.flatMap_congr fun b _ => String.toList_ofList

variable {z : ZkPlatform} {d : JwtDecoders}

/-- An address is the display of an object id, the hash. -/
theorem addressText_eq_display {x : HexApi} (hx : x.FollowsDocs) (iss : String) (s : ℕ) :
    addressText z iss s = ObjectID.display x ⟨z.blake2b256 (addressPreimage iss s)⟩ := by
  rw [addressText, join_hexByte, ObjectID.display, hx.encode_eq]

theorem addressText_eq_iff {iss iss' : String} {s s' : ℕ} :
    addressText z iss s = addressText z iss' s' ↔
      z.blake2b256 (addressPreimage iss s) = z.blake2b256 (addressPreimage iss' s') := by
  constructor
  · intro h
    rw [addressText_eq_display nativeHex_followsDocs,
      addressText_eq_display nativeHex_followsDocs] at h
    have hread := congrArg (ObjectID.fromStr nativeHex) h
    rw [ObjectID.fromStr_display nativeHex_followsDocs,
      ObjectID.fromStr_display nativeHex_followsDocs] at hread
    exact ObjectID.mk.inj (Except.ok.inj hread)
  · intro h
    rw [addressText, h, addressText]

theorem addressPreimage_eq_iff {iss iss' : String} {s s' : ℕ} (hs : s < 2 ^ 256)
    (hs' : s' < 2 ^ 256) :
    addressPreimage iss s = addressPreimage iss' s' ↔ iss = iss' ∧ s = s' := by
  have hlength : ∀ n < 2 ^ 256, 0 < (beEncode n).length ∧ (beEncode n).length ≤ 32 := by
    intro n hn
    refine ⟨List.length_pos_iff.mpr (beEncode_minimal n).nonempty,
      (beEncode_minimal n).length_le (by omega) ?_⟩
    rw [beValue_beEncode]
    exact hn.trans_eq (by norm_num)
  constructor
  · intro h
    obtain ⟨hiss, hseed⟩ := addressInput_inj (hlength s hs) (hlength s' hs') h
    have hvalue := congrArg beValue hseed
    rw [beValue_beEncode, beValue_beEncode] at hvalue
    exact ⟨hiss, hvalue⟩
  · rintro ⟨rfl, rfl⟩
    rfl

variable {r : LoginRequest} {jwt : String}

theorem computeNonce_eq_ok {epkBytes : List UInt8} {maxEpoch : UInt64} {randomness nonce : String} :
    computeNonce z epkBytes maxEpoch randomness = .ok nonce ↔
      z.getNonce (buildNonceKey epkBytes) maxEpoch randomness = .ok nonce := by
  rw [computeNonce, mapFail_eq_ok]

/-- The seed and the address of a number that has 256 bits at most. -/
theorem computeZkloginAddress_of_seed (hz : z.bigint.FollowsDocs) {sub aud salt : String} {s : ℕ}
    (hs : s < 2 ^ 256) (hgen : z.genAddressSeed salt "sub" sub aud = .ok s.repr) (iss : String) :
    ∃ seed, computeAddressSeed z "sub" sub aud salt = .ok seed ∧
      computeZkloginAddress z iss seed false = .ok (addressText z iss s) := by
  obtain ⟨seed, hseed, hlen, hvalue⟩ := computeAddressSeed_spec hz hs hgen
  refine ⟨seed, hseed, ?_⟩
  have hbytes : addressSeedBytes seed false = .ok (beEncode s) := by
    rw [addressSeedBytes, if_neg (not_not.mpr hlen), ← hvalue]
    exact stripSeedLeadingZeros_eq hlen
  rw [computeZkloginAddress, hbytes]
  rfl

theorem exists_seed_of_computeAddressSeed (hz : z.SeedDocs) {sub aud salt : String}
    {seed : List UInt8} (h : computeAddressSeed z "sub" sub aud salt = .ok seed) :
    ∃ s < 2 ^ 256, z.genAddressSeed salt "sub" sub aud = .ok s.repr := by
  rw [computeAddressSeed, bind_eq_ok] at h
  obtain ⟨text, htext, -⟩ := h
  rw [mapErr_eq_ok] at htext
  obtain ⟨s, hs, rfl⟩ := hz htext
  exact ⟨s, hs, htext⟩

/-- The program comes to an address exactly if the four steps succeed and the nonces agree. -/
theorem login_eq_ok (hz : z.bigint.FollowsDocs) (hseed : z.SeedDocs) {address : String} :
    login z d r jwt = .ok address ↔ ∃ iss sub aud nonce s,
      LoggedIn z d r jwt iss sub aud nonce s ∧ address = addressText z iss s := by
  simp only [login, bind_eq_ok, mapFail_eq_ok, computeNonce_eq_ok]
  constructor
  · rintro ⟨nonce, hnonce, ⟨iss, sub, aud, jwtNonce⟩, hclaims, h⟩
    dsimp only at h
    split_ifs at h with hne
    · cases h
    · obtain rfl := not_not.mp hne
      simp only [bind_eq_ok, mapFail_eq_ok] at h
      obtain ⟨seed, hseedok, haddress⟩ := h
      obtain ⟨s, hs, hgen⟩ := exists_seed_of_computeAddressSeed hseed hseedok
      obtain ⟨seed', hseed', haddress'⟩ := computeZkloginAddress_of_seed hz hs hgen iss
      obtain rfl := Except.ok.inj (hseedok.symm.trans hseed')
      exact ⟨iss, sub, aud, jwtNonce, s, ⟨hnonce, hclaims, hgen, hs⟩,
        Except.ok.inj (haddress.symm.trans haddress')⟩
  · rintro ⟨iss, sub, aud, nonce, s, hlogged, rfl⟩
    obtain ⟨seed, hseedok, haddress⟩ :=
      computeZkloginAddress_of_seed hz hlogged.seed_lt hlogged.genAddressSeed_eq iss
    refine ⟨nonce, hlogged.getNonce_eq, _, hlogged.extractJwtClaims_eq, ?_⟩
    dsimp only
    rw [if_neg (not_not.mpr rfl)]
    simp only [bind_eq_ok, mapFail_eq_ok]
    exact ⟨seed, hseedok, haddress⟩

/-- Documented seeds fit the buffer that they are copied to. -/
theorem returns_computeAddressSeed (hz : z.bigint.FollowsDocs) (hseed : z.SeedDocs)
    (name value aud salt : String) : Returns (computeAddressSeed z name value aud salt) := by
  cases hgen : z.genAddressSeed salt name value aud with
  | error e =>
    rw [computeAddressSeed, hgen]
    exact returns_fail _
  | ok text =>
    obtain ⟨s, hs, rfl⟩ := hseed hgen
    obtain ⟨seed, hok, -⟩ := computeAddressSeed_spec hz hs hgen
    rw [hok]
    exact returns_ok seed

theorem OkOrValueError.returns {α : Type} {x : PyResult α} (h : OkOrValueError x) : Returns x := by
  rcases h with ⟨a, rfl⟩ | ⟨message, rfl⟩
  · exact returns_ok a
  · exact returns_fail _

theorem returns_computeZkloginAddress (iss : String) (seed : List UInt8) :
    Returns (computeZkloginAddress z iss seed false) := by
  by_cases hlen : seed.length = 32
  · rw [computeZkloginAddress, addressSeedBytes, if_neg (not_not.mpr hlen)]
    simp only [Bool.false_eq_true, if_false, stripSeedLeadingZeros_eq hlen]
    exact returns_ok _
  · rw [computeZkloginAddress, addressSeedBytes, if_pos hlen]
    exact returns_fail _

/-- The only step of the program that may panic is the first one. -/
theorem returns_login_iff (hz : z.bigint.FollowsDocs) (hseed : z.SeedDocs) :
    Returns (login z d r jwt) ↔
      Returns (z.getNonce (buildNonceKey r.epkBytes) r.maxEpoch r.randomness) := by
  constructor
  · intro h message habort
    refine h message ?_
    rw [login, computeNonce, habort]
    rfl
  intro hnonce
  refine ((hnonce.mapFail _).mapFail _).bind fun nonce _ => ?_
  refine (okOrValueError_extractJwtClaims.returns.mapFail _).bind fun claims _ => ?_
  obtain ⟨iss, sub, aud, jwtNonce⟩ := claims
  dsimp only
  split_ifs
  · exact returns_fail _
  · exact ((returns_computeAddressSeed hz hseed _ _ _ _).mapFail _).bind fun seed _ =>
      (returns_computeZkloginAddress iss seed).mapFail _

theorem returns_login (hz : z.bigint.FollowsDocs) (hseed : z.SeedDocs) (hnonce : z.NonceDocs)
    (hlen : 15 ≤ r.epkBytes.length) : Returns (login z d r jwt) := by
  refine (returns_login_iff hz hseed).mpr (hnonce ?_ _ _)
  rw [buildNonceKey, List.singleton_append, List.length_cons]
  omega

/-- With documented seeds the program panics only if the nonce does, and with documented nonces
not for a key of 15 bytes or more, such as a generated one. It comes to an address exactly if the
nonce and the seed are computed, the token is accepted, and it carries the nonce of the key. The
address is read as an object id and passes the check of package ids. Addresses are equal if the
hashes are, and the hashed bytes are equal for one issuer and one seed only; a token that serves
two keys carries the nonce of both. -/
theorem login_spec {x : HexApi} (hx : x.FollowsDocs) (hz : z.bigint.FollowsDocs)
    (hseed : z.SeedDocs) :
    (∀ (r : LoginRequest) (jwt : String), Returns (login z d r jwt) ↔
      Returns (z.getNonce (buildNonceKey r.epkBytes) r.maxEpoch r.randomness)) ∧
    (z.NonceDocs →
      (∀ (r : LoginRequest) (jwt : String), 15 ≤ r.epkBytes.length →
        Returns (login z d r jwt)) ∧
      ∀ (g : KeyGenerators) (rng : g.Rng) (asSecp256r1 : Bool) (maxEpoch : UInt64)
        (randomness userSalt jwt : String),
        Returns (login z d ⟨(generateEphemeralKeypair g rng asSecp256r1).publicKey, maxEpoch,
          randomness, userSalt⟩ jwt)) ∧
    (∀ (r : LoginRequest) (jwt address : String), login z d r jwt = .ok address ↔
      ∃ iss sub aud nonce s, LoggedIn z d r jwt iss sub aud nonce s ∧
        address = addressText z iss s) ∧
    (∀ (r : LoginRequest) (jwt address : String), login z d r jwt = .ok address →
      (∃ id, ObjectID.fromStr x address = .ok id) ∧ validatePackageId address = .ok ()) ∧
    (∀ {r r' : LoginRequest} {jwt jwt' iss iss' sub sub' aud aud' nonce nonce' : String} {s s' : ℕ},
      LoggedIn z d r jwt iss sub aud nonce s → LoggedIn z d r' jwt' iss' sub' aud' nonce' s' →
        (addressText z iss s = addressText z iss' s' ↔
          z.blake2b256 (addressPreimage iss s) = z.blake2b256 (addressPreimage iss' s')) ∧
        (addressPreimage iss s = addressPreimage iss' s' ↔ iss = iss' ∧ s = s')) ∧
    ∀ (r r' : LoginRequest) (jwt address address' : String), login z d r jwt = .ok address →
      login z d r' jwt = .ok address' →
        computeNonce z r.epkBytes r.maxEpoch r.randomness =
          computeNonce z r'.epkBytes r'.maxEpoch r'.randomness := by
  refine ⟨fun r jwt => returns_login_iff hz hseed, fun hnonce => ⟨fun r jwt hlen => ?_, ?_⟩,
    fun r jwt address => login_eq_ok hz hseed, ?_, ?_, ?_⟩
  · exact returns_login hz hseed hnonce hlen
  · intro g rng asSecp256r1 maxEpoch randomness userSalt jwt
    refine returns_login hz hseed hnonce ?_
    rw [length_publicKey]
    split_ifs <;> omega
  · intro r jwt address h
    obtain ⟨iss, -, -, -, s, -, rfl⟩ := (login_eq_ok hz hseed).mp h
    rw [addressText_eq_display hx]
    have hread := ObjectID.fromStr_display hx ⟨z.blake2b256 (addressPreimage iss s)⟩
    exact ⟨⟨_, hread⟩, ObjectID.validatePackageId_of_fromStr hx hread⟩
  · intro r r' jwt jwt' iss iss' sub sub' aud aud' nonce nonce' s s' hlogged hlogged'
    exact ⟨addressText_eq_iff, addressPreimage_eq_iff hlogged.seed_lt hlogged'.seed_lt⟩
  · intro r r' jwt address address' h h'
    obtain ⟨_, _, _, nonce, _, hlogged, -⟩ := (login_eq_ok hz hseed).mp h
    obtain ⟨_, _, _, nonce', _, hlogged', -⟩ := (login_eq_ok hz hseed).mp h'
    have hclaims := hlogged.extractJwtClaims_eq.symm.trans hlogged'.extractJwtClaims_eq
    simp only [Except.ok.injEq, Prod.mk.injEq] at hclaims
    obtain ⟨-, -, -, rfl⟩ := hclaims
    rw [computeNonce_eq_ok.mpr hlogged.getNonce_eq, computeNonce_eq_ok.mpr hlogged'.getNonce_eq]

/-- The claims of a token with the nonce of the key for epoch 100. -/
def examplePayload : String :=
  "\x7b\"iss\": \"https://accounts.google.com\", \"sub\": \"" ++ exampleSub ++
    "\", \"aud\": \"test-aud\", \"nonce\": \"2uvGOgQqYLs21EIfoEijxYNph74\"\x7d"

def examplePayloadText : String :=
  "eyJpc3MiOiAiaHR0cHM6Ly9hY2NvdW50cy5nb29nbGUuY29tIiwgInN1YiI6ICIxMTA0NjM0NTIxNjczMDM5MTM2" ++
    "MDciLCAiYXVkIjogInRlc3QtYXVkIiwgIm5vbmNlIjogIjJ1dkdPZ1FxWUxzMjFFSWZvRWlqeFlOcGg3NCJ9"

def exampleClaims : Value :=
  .object [("iss", .string "https://accounts.google.com"), ("sub", .string exampleSub),
    ("aud", .string "test-aud"), ("nonce", .string "2uvGOgQqYLs21EIfoEijxYNph74")]

def exampleHeaderText : String := "eyJhbGciOiAiUlMyNTYiLCAia2lkIjogInRlc3RrZXkifQ"

def exampleJwt : String := exampleHeaderText ++ "." ++ examplePayloadText ++ "." ++ "fakesig"

/-- Decoders that know one payload. -/
def exampleDecoders : JwtDecoders where
  base64UrlDecodeVec s :=
    if s = examplePayloadText then .ok (asBytes examplePayload)
    else .error "invalid Base64 encoding"
  jsonFromSlice bs :=
    if bs = asBytes examplePayload then .ok exampleClaims
    else .error "expected value at line 1 column 1"

theorem length_asBytes (s : String) : (asBytes s).length = s.utf8ByteSize := by simp [asBytes]

theorem isToken_exampleJwt :
    IsToken exampleJwt exampleHeaderText examplePayloadText "fakesig" where
  text := rfl
  dot_not_mem := by
    refine ⟨by decide +kernel, ?_, by decide⟩
    unfold examplePayloadText
    rw [String.toList_append, String.toList_ofList, String.toList_ofList]
    decide +kernel
  length_header := by decide +kernel
  length_signed := by
    have hpayload : (asBytes examplePayloadText).length ≤ 172 := by
      unfold examplePayloadText
      rw [length_asBytes, String.utf8ByteSize_append, String.utf8ByteSize_ofList,
        String.utf8ByteSize_ofList]
      decide +kernel
    have hheader : (asBytes exampleHeaderText).length ≤ 46 := by decide +kernel
    omega

theorem extractJwtClaims_example : extractJwtClaims exampleDecoders exampleJwt =
    .ok ("https://accounts.google.com", exampleSub, "test-aud", "2uvGOgQqYLs21EIfoEijxYNph74") :=
  extractJwtClaims_eq_ok.mpr ⟨_, _, _, asBytes examplePayload, exampleClaims, isToken_exampleJwt,
    by simp [exampleDecoders], by simp [exampleDecoders],
    ⟨rfl, rfl, .inl rfl, rfl, by decide +kernel, by decide⟩⟩

theorem nativeZkPlatform_seedDocs : nativeZkPlatform.SeedDocs := by
  intro salt name value aud text h
  have hknown : ∀ p ∈ knownSeeds, p.2 < 2 ^ 256 := by decide +kernel
  simp only [nativeZkPlatform] at h
  split at h
  · next s hs =>
    obtain ⟨before, after, heq, -⟩ := List.lookup_eq_some_iff.mp hs
    have hmem : ((salt, name, value, aud), s) ∈ knownSeeds := by simp [heq]
    exact ⟨s, hknown _ hmem, (Except.ok.inj h).symm⟩
  · cases h

theorem nativeZkPlatform_nonceDocs : nativeZkPlatform.NonceDocs := by
  intro bytes hlen maxEpoch randomness
  simp only [nativeZkPlatform, if_neg (not_lt.mpr hlen)]
  split
  · exact returns_ok _
  · exact returns_fail _

/-- The login of a generated key returns, with its token to the address and with any other text;
with a key of 14 bytes there is nothing to split. -/
theorem login_spec_example :
    login nativeZkPlatform exampleDecoders ⟨exampleEpk, 100, exampleRandomness, "12345"⟩
      exampleJwt = .ok "0x296e5baea7de0ab00e45c7d3484502c52ec1fb7c09d3c72783ece2cbc6ad4f54" ∧
    (∀ jwt, Returns (login nativeZkPlatform exampleDecoders
      ⟨exampleEpk, 100, exampleRandomness, "12345"⟩ jwt)) ∧
    ¬ Returns (login nativeZkPlatform exampleDecoders
      ⟨List.replicate 14 0, 100, exampleRandomness, "12345"⟩ exampleJwt) := by
  obtain ⟨hiff, hreturns, hok, -⟩ := login_spec (d := exampleDecoders) nativeHex_followsDocs
    nativeBigint_followsDocs nativeZkPlatform_seedDocs
  have hlogged : LoggedIn nativeZkPlatform exampleDecoders
      ⟨exampleEpk, 100, exampleRandomness, "12345"⟩ exampleJwt "https://accounts.google.com"
      exampleSub "test-aud" "2uvGOgQqYLs21EIfoEijxYNph74"
      2901593998968914076771909099537590673591738558961664592620973653641473688524 :=
    ⟨rfl, extractJwtClaims_example, rfl, by norm_num⟩
  refine ⟨(hok _ _ _).mpr ⟨_, _, _, _, _, hlogged, ?_⟩, fun jwt => ?_, fun h => ?_⟩
  · decide +kernel
  · exact (hreturns nativeZkPlatform_nonceDocs).2 fixedKeys () false _ _ _ jwt
  · exact (hiff _ _).mp h _ rfl

end PysuiCrypto
