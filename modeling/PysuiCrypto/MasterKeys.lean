import PysuiCrypto.ByteNumerals
import PysuiCrypto.Wire

/-!
# Keys of key servers

A key server derives its master keys from one seed and proves that it holds them. Extracted keys
and proofs are signatures with the same key over the same group, and they are told apart by the
tags in front of what is signed.
-/
namespace PysuiCrypto

open Outcome BcsFormat ByteNumerals

def DST_POP : List UInt8 := asciiBytes "SUI-SEAL-IBE-BLS12381-POP-00"

structure KeyDerivation (c : Platform) where
  HkdfIkm : Type
  hkdfIkmFromBytes : List UInt8 → Except FastCryptoError HkdfIkm
  /-- Arguments are the key material, the salt, the info and the length of the output. -/
  hkdfSha3_256 : HkdfIkm → List UInt8 → List UInt8 → ℕ → Except FastCryptoError (List UInt8)
  bufferToScalarModR : List UInt8 → Except FastCryptoError c.Scalar

/-- Key material of any length is taken, 64 bytes are derived, and these are a scalar. -/
structure KeyDerivation.FollowsDocs {c : Platform} (kd : KeyDerivation c) : Prop where
  exists_ikm : ∀ seed, ∃ ikm, kd.hkdfIkmFromBytes seed = .ok ikm
  exists_output : ∀ ikm salt info, ∃ out, kd.hkdfSha3_256 ikm salt info 64 = .ok out ∧
    out.length = 64
  exists_scalar : ∀ buffer : List UInt8, buffer.length = 64 →
    ∃ s, kd.bufferToScalarModR buffer = .ok s

/-- `u64::to_be_bytes`. -/
def toBeBytes (n : UInt64) : List UInt8 := (u64Bytes n).reverse

namespace Ibe

section
variable (c : Platform)

def intoKeyPair (masterKey : c.Scalar) : c.Scalar × c.G2 :=
  (masterKey, publicKeyFromMasterKey c masterKey)

def generateKeyPair {R : Type} [AllowedRng R] (rng : R) : (c.Scalar × c.G2) × R :=
  let (masterKey, rng) := c.scalarRand rng
  (intoKeyPair c masterKey, rng)

def deriveMasterKey {ε : Type} (kd : KeyDerivation c) (seed : List UInt8)
    (derivationIndex : UInt64) : Outcome ε c.Scalar := do
  let hkdfIkm ← expect "no length requirement" (kd.hkdfIkmFromBytes seed).toOption
  let randomBytes ← expect "valid length"
    (kd.hkdfSha3_256 hkdfIkm [] (toBeBytes derivationIndex) 64).toOption
  expect "valid length" (kd.bufferToScalarModR randomBytes).toOption

def popInput (publicKey : c.G2) (message : List UInt8) : List UInt8 :=
  DST_POP ++ (c.g2ToByteArray publicKey).toList ++ message

def createProofOfPossession {ε : Type} (bcs : Bcs) (masterKey : c.Scalar)
    (message : List UInt8) : Outcome ε c.G1 := do
  let publicKey := publicKeyFromMasterKey c masterKey
  let pkBytes ← expect "valid pk" (bcs.toBytes (g2Format c) publicKey).toOption
  let fullMsg := DST_POP ++ pkBytes ++ message
  return masterKey • c.hashToGroupElement fullMsg

end

variable {c : Platform}

theorem toBeBytes_injective : Function.Injective toBeBytes := by
  intro m n h
  have hvalue := congrArg leValue (List.reverse_injective h)
  rw [leValue_u64Bytes, leValue_u64Bytes] at hvalue
  exact UInt64.toNat_inj.mp hvalue

theorem exists_deriveMasterKey {ε : Type} {kd : KeyDerivation c} (hkd : kd.FollowsDocs)
    (seed : List UInt8) (index : UInt64) :
    ∃ mk, (deriveMasterKey c kd seed index : Outcome ε c.Scalar) = .ok mk := by
  obtain ⟨ikm, hikm⟩ := hkd.exists_ikm seed
  obtain ⟨out, hout, hlen⟩ := hkd.exists_output ikm [] (toBeBytes index)
  obtain ⟨mk, hmk⟩ := hkd.exists_scalar out hlen
  refine ⟨mk, ?_⟩
  simp only [deriveMasterKey, hikm, hout, hmk, Except.toOption, expect, ok_bind]

theorem createProofOfPossession_eq {ε : Type} {bcs : Bcs} (hbcs : bcs.FollowsSpec)
    (mk : c.Scalar) (message : List UInt8) :
    (createProofOfPossession c bcs mk message : Outcome ε c.G1) =
      .ok (mk • c.hashToGroupElement (popInput c (publicKeyFromMasterKey c mk) message)) := by
  have hpk := (hbcs.toBytes_ok _ _ _).mpr
    ((g2Format_spells (publicKeyFromMasterKey c mk) _).mpr ⟨trivial, rfl⟩)
  simp only [createProofOfPossession, hpk, Except.toOption, expect, ok_bind, pure_eq_ok,
    popInput]

theorem popInput_inj (hg2 : Function.Injective c.g2ToByteArray) {pk pk' : c.G2}
    {message message' : List UInt8} (h : popInput c pk message = popInput c pk' message') :
    pk = pk' ∧ message = message' := by
  simp only [popInput, List.append_assoc] at h
  obtain ⟨hpk, hmessage⟩ := List.append_inj (List.append_cancel_left h) (by simp)
  exact ⟨hg2 (Vector.toList_inj.mp hpk), hmessage⟩

/-- The tags differ where the shorter one ends. -/
theorem popInput_ne_identity (pk : c.G2) (message id : List UInt8) :
    popInput c pk message ≠ DST_ID ++ id := by
  intro h
  have htags := congrArg (List.take 24) h
  rw [popInput, List.append_assoc, List.take_append_of_le_length (by decide),
    List.take_append_of_le_length (by decide)] at htags
  exact absurd htags (by decide)

end Ibe

theorem createFullId_inj {packageId packageId' : Vector UInt8 32} {id id' : List UInt8}
    (h : createFullId packageId id = createFullId packageId' id') :
    packageId = packageId' ∧ id = id' := by
  obtain ⟨hpackage, hid⟩ := List.append_inj h (by simp)
  exact ⟨Vector.toList_inj.mp hpackage, hid⟩

/-- Every seed and index yield a master key, from an info that no other index has. For every
master key, a generated one as well, and identity one key verifies, the extracted one, and for
every message one element is a signature of the bytes of its proof, the created one. The bytes of
a proof determine the public key and the message, those of an identity the package and the id,
and no proof signs the bytes of an identity. -/
theorem key_server_spec {c : Platform} {kd : KeyDerivation c} {bcs : Bcs} (hkd : kd.FollowsDocs)
    (hbcs : bcs.FollowsSpec) (hg2 : Function.Injective c.g2ToByteArray)
    (hnd : Function.Injective fun x : c.G1 => c.pairing x c.g2Generator) :
    (∀ (seed : List UInt8) (index : UInt64), ∃ mk,
      (Ibe.deriveMasterKey c kd seed index : FastCryptoResult c.Scalar) = .ok mk) ∧
    Function.Injective toBeBytes ∧
    (∀ (mk : c.Scalar) (id : List UInt8) (usk : c.G1),
      Ibe.verifyUserSecretKey c usk id (Ibe.intoKeyPair c mk).2 = .ok () ↔
        usk = Ibe.extract c mk id) ∧
    (∀ {R : Type} [AllowedRng R] (rng : R) (id : List UInt8) (usk : c.G1),
      Ibe.verifyUserSecretKey c usk id (Ibe.generateKeyPair c rng).1.2 = .ok () ↔
        usk = Ibe.extract c (Ibe.generateKeyPair c rng).1.1 id) ∧
    (∀ (mk : c.Scalar) (message : List UInt8), ∃ pop,
      (Ibe.createProofOfPossession c bcs mk message : FastCryptoResult c.G1) = .ok pop ∧
        ∀ σ, c.pairing σ c.g2Generator =
          c.pairing (c.hashToGroupElement (Ibe.popInput c (Ibe.intoKeyPair c mk).2 message))
            (Ibe.intoKeyPair c mk).2 ↔ σ = pop) ∧
    (∀ (pk pk' : c.G2) (message message' : List UInt8),
      Ibe.popInput c pk message = Ibe.popInput c pk' message' → pk = pk' ∧ message = message') ∧
    (∀ (packageId packageId' : Vector UInt8 32) (id id' : List UInt8),
      DST_ID ++ createFullId packageId id = DST_ID ++ createFullId packageId' id' →
        packageId = packageId' ∧ id = id') ∧
    ∀ (pk : c.G2) (message id : List UInt8), Ibe.popInput c pk message ≠ DST_ID ++ id := by
  have hverify : ∀ (mk : c.Scalar) (id : List UInt8) (usk : c.G1),
      Ibe.verifyUserSecretKey c usk id (Ibe.intoKeyPair c mk).2 = .ok () ↔
        usk = Ibe.extract c mk id :=
    fun mk id usk => Ibe.verifyUserSecretKey_ok_iff.trans (Ibe.pairing_eq_iff hnd mk usk _)
  refine ⟨fun seed index => Ibe.exists_deriveMasterKey hkd seed index, Ibe.toBeBytes_injective,
    hverify, fun rng => hverify (c.scalarRand rng).1, fun mk message => ?_,
    fun _ _ _ _ => Ibe.popInput_inj hg2,
    fun _ _ _ _ h => createFullId_inj (List.append_cancel_left h), Ibe.popInput_ne_identity⟩
  · exact ⟨_, Ibe.createProofOfPossession_eq hbcs mk message,
      fun σ => Ibe.pairing_eq_iff hnd mk σ _⟩

/-- Derivation in the exponent: the info and the key material, cut to length, as a residue. -/
def exponentKeyDerivation : KeyDerivation (exponentPlatform true) where
  HkdfIkm := List UInt8
  hkdfIkmFromBytes seed := .ok seed
  hkdfSha3_256 ikm salt info n :=
    .ok (salt ++ info ++ ikm ++ List.replicate n 0 |>.take n)
  bufferToScalarModR buffer :=
    if buffer.length = 64 then .ok ((leValue buffer : ℕ) : ExponentPlatform.Residue)
    else .error .invalidInput

theorem exponentKeyDerivation_followsDocs : exponentKeyDerivation.FollowsDocs where
  exists_ikm seed := ⟨seed, rfl⟩
  exists_output ikm salt info := ⟨_, rfl, by simp⟩
  exists_scalar buffer hlen := ⟨_, if_pos hlen⟩

theorem key_server_spec_example :
    ∃ mk, (Ibe.deriveMasterKey (exponentPlatform true) exponentKeyDerivation
        (List.replicate 32 1) 42 : FastCryptoResult _) = .ok mk ∧
      Ibe.verifyUserSecretKey (exponentPlatform true)
        (Ibe.extract (exponentPlatform true) mk [1, 2]) [1, 2]
        (Ibe.intoKeyPair (exponentPlatform true) mk).2 = .ok () := by
  obtain ⟨hderive, -, hverify, -⟩ := key_server_spec exponentKeyDerivation_followsDocs
    specBcs_followsSpec (exponentPlatform_encodings true).2.1
    (exponentPlatform_pairing_injective true)
  obtain ⟨mk, hmk⟩ := hderive (List.replicate 32 1) 42
  exact ⟨mk, hmk, (hverify mk [1, 2] _).mpr rfl⟩

end PysuiCrypto
