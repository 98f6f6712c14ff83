import PysuiCrypto.HashInputs
import PysuiCrypto.RoundTrip

/-!
# What acceptance commits to

The nonce fixes the randomness, the masked randomness fixes the key that masks it, and the
hash input of that key is a concatenation that can be taken apart again: the base key, the
threshold, the encrypted shares and the server ids. The mode of the ciphertext is not in it.
-/
namespace PysuiCrypto

open Outcome EncryptedObject

variable {c : Platform}

namespace Ibe

/-- Under a canonical scalar codec, one masked scalar has one mask. -/
theorem decryptRandomness_key_inj (hcanon : c.ScalarCanonical) {masked k k' : Key}
    {r : c.Scalar} (h : decryptRandomness c masked k = .ok r)
    (h' : decryptRandomness c masked k' = .ok r) : k = k' :=
  zipWith_xor_left_inj ((hcanon _ _ (decryptRandomness_eq_ok.mp h)).trans
    (hcanon _ _ (decryptRandomness_eq_ok.mp h')).symm)

/-- The key that unmasks a scalar is the key that masked it. -/
theorem encryptRandomness_key_eq (hcanon : c.ScalarCanonical) {masked k k' : Key} {r : c.Scalar}
    (h : encryptRandomness c r k = .ok masked) (h' : decryptRandomness c masked k' = .ok r) :
    k = k' := by
  have hmask : Vector.zipWith (· ^^^ ·) k (c.scalarToByteArray r) = masked :=
    Except.ok.inj ((encryptRandomness_eq r k).symm.trans h)
  have hunmask := hcanon _ _ (decryptRandomness_eq_ok.mp h')
  rw [← zipWith_xor_cancel k' masked, hunmask, zipWith_xor_comm, ← hmask, zipWith_xor_cancel]

end Ibe

namespace EncryptedObject

/-- The input that a decryption hashes to derive the key which unmasks the randomness. -/
def maskingInput (o : EncryptedObject c) (b : Key) : List UInt8 :=
  deriveKeyInput .encryptedRandomness b o.encryptedShares.encryptedShares o.threshold
    (o.services.map Prod.fst)

/-- The masking inputs of the base keys that a decryption recovers: one, if it succeeds. -/
def maskingInputs (o : EncryptedObject c) (M : IBEUserSecretKeys c)
    (pks : Option (IBEPublicKeys c)) : Set (List UInt8) :=
  {x | ∃ b, o.recoverBaseKey M pks = .ok b ∧ x = o.maskingInput b}

variable {o o₁ o₂ : EncryptedObject c}

/-- A decryption that recovers a base key has hashed one masking input. -/
theorem maskingInputs_eq {M : IBEUserSecretKeys c} {pks : Option (IBEPublicKeys c)} {b : Key}
    (hb : o.recoverBaseKey M pks = .ok b) : o.maskingInputs M pks = {o.maskingInput b} := by
  ext x
  constructor
  · rintro ⟨b', hb', rfl⟩
    rw [Except.ok.inj (hb'.symm.trans hb)]
    rfl
  · rintro rfl
    exact ⟨b, hb, rfl⟩

/-- Two base keys that open the same nonce and mask have the same derived masking key. -/
theorem derivedKey_eq_of_opens (hcanon : c.ScalarCanonical) (hinj : c.NonceInjective)
    (hnonce : o₁.encryptedShares.nonce = o₂.encryptedShares.nonce)
    (hmask : o₁.encryptedShares.encryptedRandomness = o₂.encryptedShares.encryptedRandomness)
    {b₁ b₂ : Key} {r₁ r₂ : c.Scalar} (h₁ : o₁.Opens b₁ r₁) (h₂ : o₂.Opens b₂ r₂) :
    o₁.derivedKey .encryptedRandomness b₁ = o₂.derivedKey .encryptedRandomness b₂ := by
  obtain rfl : r₁ = r₂ := hinj (h₁.2.trans (hnonce.trans h₂.2.symm))
  exact Ibe.decryptRandomness_key_inj hcanon h₁.1 (hmask ▸ h₂.1)

variable {M₁ M₂ : IBEUserSecretKeys c} {pks₁ pks₂ : Option (IBEPublicKeys c)}

theorem commits (hcanon : c.ScalarCanonical) (hinj : c.NonceInjective)
    (hnonce : o₁.encryptedShares.nonce = o₂.encryptedShares.nonce)
    (hmask : o₁.encryptedShares.encryptedRandomness = o₂.encryptedShares.encryptedRandomness)
    (hsha : Set.InjOn c.sha3_256 (o₁.maskingInputs M₁ pks₁ ∪ o₂.maskingInputs M₂ pks₂))
    {b₁ b₂ : Key} (h₁ : o₁.recoverBaseKey M₁ pks₁ = .ok b₁)
    (h₂ : o₂.recoverBaseKey M₂ pks₂ = .ok b₂) :
    b₁ = b₂ ∧ o₁.threshold = o₂.threshold ∧
      o₁.encryptedShares.encryptedShares = o₂.encryptedShares.encryptedShares ∧
      o₁.services.map Prod.fst = o₂.services.map Prod.fst := by
  obtain ⟨hu₁, -, r₁, hr₁⟩ := recoverBaseKey_spec h₁
  obtain ⟨hu₂, -, r₂, hr₂⟩ := recoverBaseKey_spec h₂
  have hinput := hsha (.inl ⟨b₁, h₁, rfl⟩) (.inr ⟨b₂, h₂, rfl⟩)
    (derivedKey_eq_of_opens hcanon hinj hnonce hmask hr₁ hr₂)
  exact (deriveKeyInput_inj (length_eq_of_deriveKeyInput_eq (aligned_ids hu₁.aligned)
    (aligned_ids hu₂.aligned) hinput) hinput).2

end EncryptedObject

variable {R : Type} [AllowedRng R] {rng : R} {packageId : ObjectID} {id : List UInt8}
  {keyServers : List ObjectID} {pks : IBEPublicKeys c} {threshold : UInt8}
  {input : EncryptionInput} {o : EncryptedObject c} {k : Key}

/-- Every base key that an encrypted object opens to derives the key of the encryption. -/
theorem derivedKey_of_sealEncrypt (hcanon : c.ScalarCanonical) (hinj : c.NonceInjective)
    (henc : sealEncrypt c rng packageId id keyServers pks threshold input = .ok (o, k))
    {M : IBEUserSecretKeys c} {pks' : Option (IBEPublicKeys c)}
    (hsha : Set.InjOn c.sha3_256 (insert (deriveKeyInput .encryptedRandomness (drawnKey rng)
      o.encryptedShares.encryptedShares threshold keyServers) (o.maskingInputs M pks')))
    {b : Key}
    (hb : o.recoverBaseKey M pks' = .ok b) : o.derivedKey .dem b = k := by
  obtain ⟨hthr, -, hk, r, hr, hmask⟩ := sealEncrypt_inv henc
  obtain ⟨-, -, r', hr'⟩ := recoverBaseKey_spec hb
  obtain rfl : r' = r := hinj (hr'.2.trans hr.symm)
  have hinput := hsha (.inl rfl) (.inr ⟨b, hb, rfl⟩)
    (Ibe.encryptRandomness_key_eq hcanon hmask hr'.1)
  obtain ⟨-, rfl, rfl, -, hids⟩ := deriveKeyInput_inj rfl hinput
  rw [hk, derivedKey, ← hids]

/-- Two objects with one nonce and one masked randomness that are both accepted have the same
threshold, encrypted shares and server ids, and both decryptions use the same keys. For one
object, any two successful decryptions return the same message; and an encrypted object
decrypts to the message of its encryption only. The supplied keys are arbitrary. -/
theorem acceptance_commits (hcanon : c.ScalarCanonical) (hinj : c.NonceInjective) :
    (∀ (o₁ o₂ : EncryptedObject c) (M₁ M₂ : IBEUserSecretKeys c)
        (pks₁ pks₂ : Option (IBEPublicKeys c)) (m₁ m₂ : List UInt8),
      o₁.encryptedShares.nonce = o₂.encryptedShares.nonce →
      o₁.encryptedShares.encryptedRandomness = o₂.encryptedShares.encryptedRandomness →
      Set.InjOn c.sha3_256 (o₁.maskingInputs M₁ pks₁ ∪ o₂.maskingInputs M₂ pks₂) →
      sealDecrypt o₁ M₁ pks₁ = .ok m₁ → sealDecrypt o₂ M₂ pks₂ = .ok m₂ →
      o₁.threshold = o₂.threshold ∧
        o₁.encryptedShares.encryptedShares = o₂.encryptedShares.encryptedShares ∧
        o₁.services.map Prod.fst = o₂.services.map Prod.fst ∧
        ∃ b k, o₁.recoverBaseKey M₁ pks₁ = .ok b ∧ o₂.recoverBaseKey M₂ pks₂ = .ok b ∧
          o₁.demKey b = .ok k ∧ o₂.demKey b = .ok k) ∧
    (∀ (o : EncryptedObject c) (M₁ M₂ : IBEUserSecretKeys c)
        (pks₁ pks₂ : Option (IBEPublicKeys c)) (m₁ m₂ : List UInt8),
      Set.InjOn c.sha3_256 (o.maskingInputs M₁ pks₁ ∪ o.maskingInputs M₂ pks₂) →
      sealDecrypt o M₁ pks₁ = .ok m₁ → sealDecrypt o M₂ pks₂ = .ok m₂ → m₁ = m₂) ∧
    (c.AesRoundTrip → ∀ (R : Type) [AllowedRng R] (rng : R) (packageId : ObjectID)
        (id : List UInt8) (keyServers : List ObjectID) (pks : IBEPublicKeys c)
        (threshold : UInt8) (input : EncryptionInput) (o : EncryptedObject c) (k : Key)
        (M : IBEUserSecretKeys c) (pks' : Option (IBEPublicKeys c)) (m : List UInt8),
      sealEncrypt c rng packageId id keyServers pks threshold input = .ok (o, k) →
      Set.InjOn c.sha3_256 (insert (deriveKeyInput .encryptedRandomness (drawnKey rng)
        o.encryptedShares.encryptedShares threshold keyServers) (o.maskingInputs M pks')) →
      sealDecrypt o M pks' = .ok m → m = input.plaintext k) := by
  refine ⟨?_, ?_, ?_⟩
  · intro o₁ o₂ M₁ M₂ pks₁ pks₂ m₁ m₂ hnonce hmask hsha h₁ h₂
    obtain ⟨b₁, hb₁, -⟩ := sealDecrypt_eq_ok.mp h₁
    obtain ⟨b₂, hb₂, -⟩ := sealDecrypt_eq_ok.mp h₂
    obtain ⟨rfl, hthr, hshares, hids⟩ := commits hcanon hinj hnonce hmask hsha hb₁ hb₂
    refine ⟨hthr, hshares, hids, b₁, _, hb₁, hb₂, demKey_ok (recoverBaseKey_spec hb₁).1.aligned b₁,
      ?_⟩
    rw [demKey_ok (recoverBaseKey_spec hb₂).1.aligned, derivedKey, derivedKey, hthr, hshares, hids]
  · intro o M₁ M₂ pks₁ pks₂ m₁ m₂ hsha h₁ h₂
    obtain ⟨b₁, hb₁, hm₁⟩ := sealDecrypt_eq_ok.mp h₁
    obtain ⟨b₂, hb₂, hm₂⟩ := sealDecrypt_eq_ok.mp h₂
    obtain ⟨rfl, -⟩ := commits hcanon hinj rfl rfl hsha hb₁ hb₂
    exact Except.ok.inj (hm₁.symm.trans hm₂)
  · intro haes R _ rng packageId id keyServers pks threshold input o k M pks' m henc hsha h
    obtain ⟨b, hb, hm⟩ := sealDecrypt_eq_ok.mp h
    rw [derivedKey_of_sealEncrypt hcanon hinj henc hsha hb, (sealEncrypt_inv henc).2.1,
      decrypt_encrypt haes] at hm
    exact (Except.ok.inj hm).symm

theorem sealDecrypt_plain {M : IBEUserSecretKeys c} {pks' : Option (IBEPublicKeys c)} {b : Key}
    (hb : o.recoverBaseKey M pks' = .ok b) :
    sealDecrypt { o with ciphertext := .plain } M pks' = .ok (o.derivedKey .dem b).toList :=
  sealDecrypt_eq_ok.mpr ⟨b, hb, rfl⟩

/-- The decryptions of the run that recover the drawn key do not collide. -/
theorem injOn_exampleInputs {o : EncryptedObject (exponentPlatform true)}
    (hthr : o.threshold = 2) (hids : o.services.map Prod.fst = exampleServers)
    {M : IBEUserSecretKeys (exponentPlatform true)}
    {pks' : Option (IBEPublicKeys (exponentPlatform true))}
    (hb : o.recoverBaseKey M pks' = .ok (drawnKey exampleTape)) :
    Set.InjOn (exponentPlatform true).sha3_256 (insert (deriveKeyInput .encryptedRandomness
      (drawnKey exampleTape) o.encryptedShares.encryptedShares 2 exampleServers)
      (o.maskingInputs M pks')) := by
  rw [maskingInputs_eq hb, maskingInput, hthr, hids, Set.insert_eq, Set.union_self]
  exact Set.injOn_singleton _ _

/-- A run of the encryption, decrypted with the keys of two servers and, under the public keys,
with the keys of three, to the message; with a plain ciphertext in its place the keys stay. -/
theorem acceptance_commits_example :
    ∃ (o : EncryptedObject (exponentPlatform true)) (m₁ m₂ : List UInt8) (b k : Key),
      sealDecrypt o exampleKeys none = .ok m₁ ∧
        sealDecrypt o exampleAllKeys (some examplePublicKeys) = .ok m₂ ∧
        m₁ = m₂ ∧ m₁ = [72, 105] ∧ o.recoverBaseKey exampleKeys none = .ok b ∧
        EncryptedObject.recoverBaseKey { o with ciphertext := .plain } exampleAllKeys none =
          .ok b ∧
        o.demKey b = .ok k ∧ EncryptedObject.demKey { o with ciphertext := .plain } b = .ok k := by
  obtain ⟨o, henc, hthr, hids, hrun⟩ := example_run
  obtain ⟨hb, -, hm, -⟩ := hrun exampleKeys (by decide) exampleKeys_extracted
  obtain ⟨hbnone, hbsome, -, hmsome⟩ := hrun exampleAllKeys (by decide) exampleAllKeys_extracted
  have hplain := sealDecrypt_plain hbnone
  have hbplain : EncryptedObject.recoverBaseKey { o with ciphertext := .plain } exampleAllKeys
      none = .ok (drawnKey exampleTape) := hbnone
  have hinput : maskingInput { o with ciphertext := .plain } (drawnKey exampleTape) =
      o.maskingInput (drawnKey exampleTape) := rfl
  obtain ⟨hobjects, hkeys, hmessage⟩ := acceptance_commits (exponentPlatform_scalarCanonical true)
    (exponentPlatform_nonceInjective true)
  have heq := hkeys o exampleKeys exampleAllKeys none (some examplePublicKeys) _ _ (by
    rw [maskingInputs_eq hb, maskingInputs_eq hbsome, Set.union_self]
    exact Set.injOn_singleton _ _) hm hmsome
  have hdata := hmessage (exponentPlatform_aesRoundTrip true) _ _ _ _ _ _ _ _ o _ exampleKeys none _
    henc (injOn_exampleInputs hthr hids hb) hm
  obtain ⟨-, -, -, b, k, hb₁, hb₂, hk₁, hk₂⟩ := hobjects o { o with ciphertext := .plain }
    exampleKeys exampleAllKeys none none _ _ rfl rfl (by
      rw [maskingInputs_eq hb, maskingInputs_eq hbplain, hinput, Set.union_self]
      exact Set.injOn_singleton _ _) hm hplain
  exact ⟨o, _, _, b, k, hm, hmsome, heq, hdata, hb₁, hb₂, hk₁, hk₂⟩

/-- The object with its ciphertext replaced by the plain one is accepted under the same keys,
and its message is the key under which the ciphertext was decrypted; this is the key of the
encryption, unless the hash of the masking key collides. -/
theorem sealDecrypt_plain_discloses (rng : R) (packageId : ObjectID) (id : List UInt8)
    (keyServers : List ObjectID) (pks : IBEPublicKeys c) (threshold : UInt8)
    (input : EncryptionInput) (o : EncryptedObject c) (k : Key) (M : IBEUserSecretKeys c)
    (pks' : Option (IBEPublicKeys c)) (m : List UInt8)
    (henc : sealEncrypt c rng packageId id keyServers pks threshold input = .ok (o, k))
    (hm : sealDecrypt o M pks' = .ok m) :
    (∃ key, o.ciphertext.decrypt c key = .ok m ∧
      sealDecrypt { o with ciphertext := .plain } M pks' = .ok key.toList) ∧
    (c.ScalarCanonical → c.NonceInjective →
      Set.InjOn c.sha3_256 (insert (deriveKeyInput .encryptedRandomness (drawnKey rng)
        o.encryptedShares.encryptedShares threshold keyServers) (o.maskingInputs M pks')) →
      sealDecrypt { o with ciphertext := .plain } M pks' = .ok k.toList) := by
  obtain ⟨b, hb, hdec⟩ := sealDecrypt_eq_ok.mp hm
  refine ⟨⟨_, hdec, sealDecrypt_plain hb⟩, fun hcanon hinj hsha => ?_⟩
  rw [sealDecrypt_plain hb, derivedKey_of_sealEncrypt hcanon hinj henc hsha hb]

theorem sealDecrypt_plain_discloses_example :
    ∃ (o : EncryptedObject (exponentPlatform true)) (k key : Key),
      sealEncrypt (exponentPlatform true) exampleTape (exampleId 0) [1, 2, 3, 4] exampleServers
        examplePublicKeys 2 (.hmac256Ctr [72, 105] (some [7])) = .ok (o, k) ∧
      o.ciphertext.decrypt (exponentPlatform true) key = .ok [72, 105] ∧
      sealDecrypt { o with ciphertext := .plain } exampleKeys none = .ok key.toList ∧
      sealDecrypt { o with ciphertext := .plain } exampleKeys none = .ok k.toList := by
  obtain ⟨o, henc, hthr, hids, hrun⟩ := example_run
  obtain ⟨hb, -, hm, -⟩ := hrun exampleKeys (by decide) exampleKeys_extracted
  obtain ⟨⟨key, hdec, hplain⟩, hdisclosed⟩ := sealDecrypt_plain_discloses _ _ _ _ _ _ _ o _
    exampleKeys none _ henc hm
  exact ⟨o, _, key, henc, hdec, hplain, hdisclosed (exponentPlatform_scalarCanonical true)
    (exponentPlatform_nonceInjective true) (injOn_exampleInputs hthr hids hb)⟩

/-- A message encrypted under a key and decrypted to itself, whose key is returned when the
ciphertext is replaced. -/
theorem mode_not_bound :
    ∃ (o : EncryptedObject (exponentPlatform true)) (k : Key),
      sealEncrypt (exponentPlatform true) exampleTape (exampleId 0) [1, 2, 3, 4] exampleServers
        examplePublicKeys 2 (.hmac256Ctr [72, 105] (some [7])) = .ok (o, k) ∧
      sealDecrypt o exampleKeys none = .ok [72, 105] ∧
      sealDecrypt { o with ciphertext := .plain } exampleKeys none = .ok k.toList := by
  obtain ⟨o, henc, -, -, hrun⟩ := example_run
  obtain ⟨hb, -, hnone, -⟩ := hrun exampleKeys (by decide) exampleKeys_extracted
  exact ⟨o, _, henc, hnone, sealDecrypt_plain hb⟩

end PysuiCrypto
