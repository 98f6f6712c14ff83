import PysuiCrypto.BindingRoundTrip

/-!
# How a user secret key reaches its reader

A reader generates an ElGamal key pair, a key server answers with the encryption of the
extracted key, and the reader decrypts the answer and verifies it.
-/
namespace PysuiCrypto.Bindings

open Outcome BcsFormat

variable {c : Platform} (api : FastCryptoApi c) (bcs : Bcs)

/-- The answer of a key server to a reader: the user secret key for an identity, encrypted under
the reader's ElGamal public key. -/
def serverResponse {R : Type} [AllowedRng R] (rng : R) (masterKey : c.Scalar)
    (fullId elgamalPk : List UInt8) : Except String (List UInt8) := do
  let pk ← bcs.fromBytes (publicKeyFormat api) elgamalPk
  let usk := Ibe.extract c masterKey fullId
  bcs.toBytes (encryptionFormat api) (Elgamal.encrypt c.Scalar rng usk pk).1

variable {api bcs}

theorem secretKeyFormat_lawful (hround : c.ScalarRoundTrip) (hcanon : c.ScalarCanonical) :
    (secretKeyFormat c).Lawful :=
  via_lawful (scalarFormat_lawful hround hcanon) (fun _ => rfl) fun _ _ h => by
    obtain rfl := Option.some.inj h
    rfl

theorem publicKeyFormat_lawful (hg1 : api.G1Codec) : (publicKeyFormat api).Lawful :=
  via_lawful (g1Format_lawful hg1) (fun _ => rfl) fun _ _ h => by
    obtain rfl := Option.some.inj h
    rfl

theorem encryptionFormat_lawful (hg1 : api.G1Codec) : (encryptionFormat api).Lawful :=
  via_lawful (pair_lawful (g1Format_lawful hg1) (g1Format_lawful hg1)) (fun _ => rfl)
    fun _ _ h => by
      obtain rfl := Option.some.inj h
      rfl

theorem secretKeyFormat_spells :
    (secretKeyFormat c).Spells (fun _ => True) fun sk => scalarBytes sk.scalar :=
  via_spells scalarFormat_spells _ _

theorem publicKeyFormat_spells :
    (publicKeyFormat api).Spells (fun _ => True) fun pk => g1Bytes pk.element :=
  via_spells g1Format_spells _ _

theorem verificationKeyFormat_spells :
    (verificationKeyFormat c).Spells (fun _ => True) fun vk => g2Bytes vk.element :=
  via_spells g2Format_spells _ _

theorem encryptionFormat_spells : (encryptionFormat api).Spells (fun _ => True)
    fun e => g1Bytes e.fst ++ g1Bytes e.snd :=
  (via_spells (pair_spells g1Format_spells g1Format_spells) _ _).congr (by simp) fun _ => rfl

variable (hbcs : bcs.FollowsSpec)
include hbcs

/-- Writing a value in a format that encodes every value. -/
theorem toBytes_of_spells {α : Type} {F : BcsFormat α} {f : α → List UInt8}
    (hs : F.Spells (fun _ => True) f) (a : α) : bcs.toBytes F a = .ok (f a) :=
  (hbcs.toBytes_ok _ _ _).mpr ((hs a (f a)).mpr ⟨trivial, rfl⟩)

variable (api) in
/-- The generated entries are the bytes of a key pair. -/
theorem generateElgamalKeypair_ok {R : Type} [AllowedRng R] (rng : R) :
    ∃ (sk : Elgamal.SecretKey c.Scalar) (pk : Elgamal.PublicKey c.G1)
      (vk : Elgamal.VerificationKey c.G2), Elgamal.KeyPair sk pk vk ∧
      generateElgamalKeypair api bcs rng =
        .ok ⟨scalarBytes sk.scalar, g1Bytes pk.element, g2Bytes vk.element⟩ := by
  rcases hkp : (Elgamal.genkey rng : (Elgamal.SecretKey c.Scalar × Elgamal.PublicKey c.G1 ×
      Elgamal.VerificationKey c.G2) × R) with ⟨⟨sk, pk, vk⟩, rng'⟩
  refine ⟨sk, pk, vk, Elgamal.genkey_keyPair hkp, ?_⟩
  rw [generateElgamalKeypair, hkp]
  simp only [toBytes_of_spells hbcs secretKeyFormat_spells,
    toBytes_of_spells hbcs publicKeyFormat_spells,
    toBytes_of_spells hbcs verificationKeyFormat_spells, mapErr, ok_bind]

variable (hg1 : api.G1Codec)
include hg1

/-- Decryption succeeds on the bytes of a secret key and of a ciphertext only. -/
theorem elgamalDecrypt_eq_ok (hround : c.ScalarRoundTrip) (hcanon : c.ScalarCanonical)
    {sk encryption usk : List UInt8} :
    elgamalDecrypt api bcs sk encryption = .ok usk ↔ ∃ (s : c.Scalar) (a b : c.G1),
      sk = scalarBytes s ∧ encryption = g1Bytes a ++ g1Bytes b ∧ usk = g1Bytes (b - s • a) := by
  simp only [elgamalDecrypt, bind_eq_ok, mapErr_eq_ok,
    fromBytes_iff hbcs (secretKeyFormat_lawful hround hcanon) secretKeyFormat_spells,
    fromBytes_iff hbcs (encryptionFormat_lawful hg1) encryptionFormat_spells, true_and,
    toBytes_of_spells hbcs g1Format_spells, Except.ok.injEq]
  constructor
  · rintro ⟨sk, rfl, e, rfl, rfl⟩
    exact ⟨sk.scalar, e.fst, e.snd, rfl, rfl, rfl⟩
  · rintro ⟨s, a, b, rfl, rfl, rfl⟩
    exact ⟨⟨s⟩, rfl, ⟨a, b⟩, rfl, rfl⟩

theorem serverResponse_ok {R : Type} [AllowedRng R] (rng : R) (masterKey : c.Scalar)
    (fullId : List UInt8) (pk : Elgamal.PublicKey c.G1) :
    serverResponse api bcs rng masterKey fullId (g1Bytes pk.element) =
      .ok (g1Bytes (Elgamal.encrypt c.Scalar rng (Ibe.extract c masterKey fullId) pk).1.fst ++
        g1Bytes (Elgamal.encrypt c.Scalar rng (Ibe.extract c masterKey fullId) pk).1.snd) := by
  have hparse : bcs.fromBytes (publicKeyFormat api) (g1Bytes pk.element) = .ok pk :=
    (fromBytes_iff hbcs (publicKeyFormat_lawful hg1) publicKeyFormat_spells).mpr ⟨trivial, rfl⟩
  rw [serverResponse, hparse]
  exact toBytes_of_spells hbcs encryptionFormat_spells _

/-- The reader of an answer recovers the extracted key. -/
theorem elgamalDecrypt_serverResponse (hround : c.ScalarRoundTrip) (hcanon : c.ScalarCanonical)
    {R R' : Type} [AllowedRng R] [AllowedRng R'] {rng : R} {kp : ElgamalKeypair}
    (hkp : generateElgamalKeypair api bcs rng = .ok kp) (rng' : R') (masterKey : c.Scalar)
    (fullId : List UInt8) :
    ∃ response, serverResponse api bcs rng' masterKey fullId kp.publicKey = .ok response ∧
      elgamalDecrypt api bcs kp.secretKey response =
        .ok (g1Bytes (Ibe.extract c masterKey fullId)) := by
  obtain ⟨sk, pk, vk, hpair, hok⟩ := generateElgamalKeypair_ok api hbcs rng
  obtain rfl := Except.ok.inj (hkp.symm.trans hok)
  refine ⟨_, serverResponse_ok hbcs hg1 rng' masterKey fullId pk,
    (elgamalDecrypt_eq_ok hbcs hg1 hround hcanon).mpr ⟨_, _, _, rfl, rfl, ?_⟩⟩
  exact congrArg g1Bytes (Elgamal.decrypt_encrypt hpair rng' _).symm

variable (hg2 : c.G2Codec)
include hg2

/-- A user secret key reaches the reader who generated the key pair, whatever randomness both
sides drew: the decrypted answer of a key server passes the verification under the server's
public key. If the pairing with the generator is injective, the verification accepts nothing
else: a byte string passes for an identity and a server exactly when it is the key that the
server extracts. -/
theorem elgamal_transport (hround : c.ScalarRoundTrip) (hcanon : c.ScalarCanonical)
    (fullId : List UInt8) (masterKey : c.Scalar) :
    (∀ {R R' : Type} [AllowedRng R] [AllowedRng R'] (rng : R) (rng' : R'),
      ∃ kp response usk, generateElgamalKeypair api bcs rng = .ok kp ∧
        serverResponse api bcs rng' masterKey fullId kp.publicKey = .ok response ∧
        elgamalDecrypt api bcs kp.secretKey response = .ok usk ∧
        verifyUserSecretKey api bcs usk fullId
          (g2Bytes (Ibe.publicKeyFromMasterKey c masterKey)) = .ok ()) ∧
    ((Function.Injective fun g : c.G1 => c.pairing g c.g2Generator) → ∀ usk : List UInt8,
      verifyUserSecretKey api bcs usk fullId
          (g2Bytes (Ibe.publicKeyFromMasterKey c masterKey)) = .ok () ↔
        usk = g1Bytes (Ibe.extract c masterKey fullId)) := by
  have hverify := (verifyUserSecretKey_eq_ok hbcs hg2 hg1).mpr
    (Ibe.verifyUserSecretKey_extract masterKey fullId)
  constructor
  · intro R R' _ _ rng rng'
    obtain ⟨sk, pk, vk, -, hkp⟩ := generateElgamalKeypair_ok api hbcs rng
    obtain ⟨response, hresponse, husk⟩ :=
      elgamalDecrypt_serverResponse hbcs hg1 hround hcanon hkp rng' masterKey fullId
    exact ⟨_, response, _, hkp, hresponse, husk, hverify⟩
  · intro hinj usk
    refine ⟨fun h => ?_, fun h => h ▸ hverify⟩
    rcases (parses_g1 hbcs hg1).ok_or usk with ⟨g, rfl, -⟩ | ⟨-, herr⟩
    swap
    · exact absurd h ((herr.bind _).ne_ok ())
    have hg := Ibe.verifyUserSecretKey_ok_iff.mp ((verifyUserSecretKey_eq_ok hbcs hg2 hg1).mp h)
    exact congrArg g1Bytes ((Ibe.pairing_eq_iff hinj masterKey g _).mp hg)

omit hbcs hg1 hg2

theorem elgamal_transport_example :
    (∃ kp response usk, generateElgamalKeypair (exponentApi true) specBcs exampleTape = .ok kp ∧
      serverResponse (exponentApi true) specBcs ([1, 5, 9] : List UInt8) 7 [1, 2, 3] kp.publicKey =
        .ok response ∧
      elgamalDecrypt (exponentApi true) specBcs kp.secretKey response = .ok usk ∧
      verifyUserSecretKey (exponentApi true) specBcs usk [1, 2, 3]
        (g2Bytes (Ibe.publicKeyFromMasterKey (exponentPlatform true) 7)) = .ok ()) ∧
    ∀ usk : List UInt8, verifyUserSecretKey (exponentApi true) specBcs usk [1, 2, 3]
        (g2Bytes (Ibe.publicKeyFromMasterKey (exponentPlatform true) 7)) = .ok () ↔
      usk = g1Bytes (Ibe.extract (exponentPlatform true) 7 [1, 2, 3]) := by
  have h := elgamal_transport specBcs_followsSpec (exponentApi_g1Codec true)
    (exponentPlatform_g2Codec true) (exponentPlatform_scalarRoundTrip true)
    (exponentPlatform_scalarCanonical true) [1, 2, 3] 7
  exact ⟨h.1 exampleTape ([1, 5, 9] : List UInt8), h.2 (exponentPlatform_pairing_injective true)⟩

end PysuiCrypto.Bindings
