import PysuiCrypto.Elgamal
import PysuiCrypto.Utils

/-!
# Identity-based encryption of shares

The Boneh-Franklin operations of the source over the groups of a platform. One mask is
derived along three paths: from the encryption randomness and a public key, from a user
secret key and the nonce, and again from the recovered randomness.
-/
namespace PysuiCrypto

open Outcome

structure ObjectID where
  bytes : Vector UInt8 32
  deriving DecidableEq

def asciiBytes (s : String) : List UInt8 := s.toList.map fun ch => UInt8.ofNat ch.toNat

def DST_ID : List UInt8 := asciiBytes "SUI-SEAL-IBE-BLS12381-00"

def DST_KDF : List UInt8 := asciiBytes "SUI-SEAL-IBE-BLS12381-H2-00"

def DST_DERIVE_KEY : List UInt8 := asciiBytes "SUI-SEAL-IBE-BLS12381-H3-00"

abbrev Key := Vector UInt8 32

/-- The object id of the key server and the share index. -/
abbrev Info := ObjectID × UInt8

namespace Ibe

variable (c : Platform)

def publicKeyFromMasterKey (masterKey : c.Scalar) : c.G2 := masterKey • c.g2Generator

def hashToG1 (id : List UInt8) : c.G1 := c.hashToGroupElement (DST_ID ++ id)

def extract (masterKey : c.Scalar) (id : List UInt8) : c.G1 := masterKey • hashToG1 c id

def verifyUserSecretKey (userSecretKey : c.G1) (id : List UInt8) (publicKey : c.G2) :
    FastCryptoResult Unit :=
  if c.pairing userSecretKey c.g2Generator = c.pairing (hashToG1 c id) publicKey then .ok ()
  else fail .invalidInput

def verifyEncryptedSignature (encryptedSig : Elgamal.Encryption c.G1)
    (ephemeralVk : Elgamal.VerificationKey c.G2) (partialPk : c.G2) (id : List UInt8) :
    FastCryptoResult Unit :=
  -- no identity elements
  if encryptedSig.fst = 0 ∨ encryptedSig.snd = 0 ∨ ephemeralVk.element = 0 ∨ partialPk = 0 then
    fail .invalidInput
  else
    let lhs := c.pairing encryptedSig.snd c.g2Generator
    let rhs := c.pairing encryptedSig.fst ephemeralVk.element +
      c.pairing (hashToG1 c id) partialPk
    if lhs = rhs then .ok () else fail .invalidInput

def kdfInput (input : c.GT) (nonce : c.G2) (gid : c.G1) (info : Info) : List UInt8 :=
  DST_KDF ++ (c.gtToByteArray input).toList ++ (c.g2ToByteArray nonce).toList ++
    (c.g1ToByteArray gid).toList ++ info.1.bytes.toList ++ [info.2]

def kdf (input : c.GT) (nonce : c.G2) (gid : c.G1) (info : Info) : Key :=
  c.sha3_256 (kdfInput c input nonce gid info)

def encryptBatchedDeterministic (randomness : c.Scalar) (plaintexts : List Key)
    (publicKeys : List c.G2) (id : List UInt8) (infos : List Info) :
    FastCryptoResult (c.G2 × List Key) :=
  let batchSize := plaintexts.length
  if batchSize ≠ publicKeys.length ∨ batchSize ≠ infos.length then fail .invalidInput
  else do
    let gid := hashToG1 c id
    let gidR := randomness • gid
    let nonce := randomness • c.g2Generator
    let ciphertexts ← (List.range batchSize).mapM fun i => do
      let publicKey ← index publicKeys i
      let info ← index infos i
      let plaintext ← index plaintexts i
      xor (kdf c (c.pairing gidR publicKey) nonce gid info) plaintext
    .ok (nonce, ciphertexts)

def decrypt (nonce : c.G2) (ciphertext : Key) (secretKey : c.G1) (id : List UInt8)
    (info : Info) : FastCryptoResult Key :=
  let gid := hashToG1 c id
  xor ciphertext (kdf c (c.pairing secretKey nonce) nonce gid info)

def verifyNonce (randomness : c.Scalar) (nonce : c.G2) : FastCryptoResult Unit :=
  if randomness • c.g2Generator ≠ nonce then fail (.generalError "Invalid randomness")
  else .ok ()

def decryptDeterministic (randomness : c.Scalar) (ciphertext : Key) (publicKey : c.G2)
    (id : List UInt8) (info : Info) : FastCryptoResult Key :=
  let gid := hashToG1 c id
  let gidR := randomness • gid
  let nonce := randomness • c.g2Generator
  xor ciphertext (kdf c (c.pairing gidR publicKey) nonce gid info)

def encryptRandomness (randomness : c.Scalar) (key : Key) : FastCryptoResult Key :=
  xor key (c.scalarToByteArray randomness)

def decryptRandomness (encryptedRandomness derivedKey : Key) : FastCryptoResult c.Scalar := do
  let bytes ← xor derivedKey encryptedRandomness
  external (c.scalarFromByteArray bytes)

variable {c}

theorem verifyUserSecretKey_ok_iff {usk : c.G1} {id : List UInt8} {pk : c.G2} :
    verifyUserSecretKey c usk id pk = .ok () ↔
      c.pairing usk c.g2Generator = c.pairing (hashToG1 c id) pk := by
  unfold verifyUserSecretKey
  split_ifs with h <;> simp [h, fail]

theorem verifyUserSecretKey_extract (mk : c.Scalar) (id : List UInt8) :
    verifyUserSecretKey c (extract c mk id) id (publicKeyFromMasterKey c mk) = .ok () := by
  rw [verifyUserSecretKey_ok_iff]
  simp [extract, publicKeyFromMasterKey]

/-- The equation of a signature under the public key of a master key has one solution. -/
theorem pairing_eq_iff (hnd : Function.Injective fun x : c.G1 => c.pairing x c.g2Generator)
    (mk : c.Scalar) (x h : c.G1) :
    c.pairing x c.g2Generator = c.pairing h (publicKeyFromMasterKey c mk) ↔ x = mk • h := by
  have hmk : c.pairing h (publicKeyFromMasterKey c mk) = c.pairing (mk • h) c.g2Generator := by
    rw [publicKeyFromMasterKey, map_smul, map_smul, LinearMap.smul_apply]
  rw [hmk]
  exact hnd.eq_iff

theorem verifyNonce_ok_iff {r : c.Scalar} {nonce : c.G2} :
    verifyNonce c r nonce = .ok () ↔ r • c.g2Generator = nonce := by
  unfold verifyNonce
  split_ifs with h <;> simp_all [fail]

/-- The plaintext that both decryptions recover by unmasking with the randomness. -/
def unmask (r : c.Scalar) (ciphertext : Key) (pk : c.G2) (id : List UInt8) (info : Info) : Key :=
  Vector.zipWith (· ^^^ ·) ciphertext
    (kdf c (c.pairing (r • hashToG1 c id) pk) (r • c.g2Generator) (hashToG1 c id) info)

@[simp] theorem decryptDeterministic_eq (r : c.Scalar) (ciphertext : Key) (pk : c.G2)
    (id : List UInt8) (info : Info) :
    decryptDeterministic c r ciphertext pk id info = .ok (unmask r ciphertext pk id info) :=
  xor_eq _ _

def unlock (nonce : c.G2) (ciphertext : Key) (usk : c.G1) (id : List UInt8) (info : Info) : Key :=
  Vector.zipWith (· ^^^ ·) ciphertext (kdf c (c.pairing usk nonce) nonce (hashToG1 c id) info)

@[simp] theorem decrypt_eq (nonce : c.G2) (ciphertext : Key) (usk : c.G1) (id : List UInt8)
    (info : Info) :
    decrypt c nonce ciphertext usk id info = .ok (unlock nonce ciphertext usk id info) :=
  xor_eq _ _

/-- The verification equation alone makes the key's mask the mask of the randomness. -/
theorem unlock_eq_unmask {usk : c.G1} {id : List UInt8} {pk nonce : c.G2} {r : c.Scalar}
    (hv : verifyUserSecretKey c usk id pk = .ok ()) (hr : r • c.g2Generator = nonce)
    (ciphertext : Key) (info : Info) :
    unlock nonce ciphertext usk id info = unmask r ciphertext pk id info := by
  have hpair : c.pairing usk nonce = c.pairing (r • hashToG1 c id) pk := by
    rw [← hr, map_smul, verifyUserSecretKey_ok_iff.mp hv, map_smul, LinearMap.smul_apply]
  simp only [unlock, hpair, unmask, hr]

theorem decryptRandomness_eq_ok {masked key : Key} {r : c.Scalar} :
    decryptRandomness c masked key = .ok r ↔
      c.scalarFromByteArray (Vector.zipWith (· ^^^ ·) key masked) = .ok r := by
  simp [decryptRandomness]

theorem returns_decryptRandomness (masked key : Key) :
    Returns (decryptRandomness c masked key) := by
  rw [decryptRandomness, xor_eq, ok_bind]
  exact returns_external _

theorem returns_verifyNonce (r : c.Scalar) (nonce : c.G2) : Returns (verifyNonce c r nonce) := by
  unfold verifyNonce
  split_ifs
  · exact returns_fail _
  · exact returns_ok _

theorem encryptRandomness_eq (r : c.Scalar) (key : Key) :
    encryptRandomness c r key =
      .ok (Vector.zipWith (· ^^^ ·) key (c.scalarToByteArray r)) := xor_eq _ _

theorem decryptRandomness_encryptRandomness (hc : c.ScalarRoundTrip) (r : c.Scalar) (key : Key) :
    ∃ masked, encryptRandomness c r key = .ok masked ∧
      decryptRandomness c masked key = .ok r := by
  refine ⟨_, xor_eq _ _, decryptRandomness_eq_ok.mpr ?_⟩
  rw [zipWith_xor_comm, zipWith_xor_comm key, zipWith_xor_cancel, hc]

/-- The batch is encrypted when the three lengths agree, and unmasking with the randomness
recovers the plaintext at every position. -/
theorem encryptBatched_ok (r : c.Scalar) {plaintexts : List Key} {pks : List c.G2}
    (id : List UInt8) {infos : List Info} (hp : plaintexts.length = pks.length)
    (hi : plaintexts.length = infos.length) :
    ∃ ciphertexts, encryptBatchedDeterministic c r plaintexts pks id infos =
        .ok (r • c.g2Generator, ciphertexts) ∧ ciphertexts.length = plaintexts.length ∧
      ∀ (i : ℕ) ciphertext, ciphertexts[i]? = some ciphertext →
        ∃ pk info plaintext, pks[i]? = some pk ∧ infos[i]? = some info ∧
          plaintexts[i]? = some plaintext ∧ unmask r ciphertext pk id info = plaintext := by
  have hcond : ¬ (plaintexts.length ≠ pks.length ∨ plaintexts.length ≠ infos.length) := by
    simp [hp, ← hi]
  obtain ⟨ciphertexts, hc, hlen, hP⟩ := mapM_range_spec (ε := FastCryptoError)
    (n := plaintexts.length) (f := fun i => do
      let publicKey ← index pks i
      let info ← index infos i
      let plaintext ← index plaintexts i
      xor (kdf c (c.pairing (r • hashToG1 c id) publicKey) (r • c.g2Generator) (hashToG1 c id) info)
        plaintext)
    (P := fun i ciphertext => ∃ pk info plaintext, pks[i]? = some pk ∧ infos[i]? = some info ∧
      plaintexts[i]? = some plaintext ∧ unmask r ciphertext pk id info = plaintext) fun i hlt => by
    have hlp : i < pks.length := hp ▸ hlt
    have hli : i < infos.length := hi ▸ hlt
    let mask := kdf c (c.pairing (r • hashToG1 c id) pks[i]) (r • c.g2Generator) (hashToG1 c id)
      infos[i]
    refine ⟨Vector.zipWith (· ^^^ ·) mask plaintexts[i],
      by simp only [index_of_lt hlt, index_of_lt hlp, index_of_lt hli, ok_bind, xor_eq, mask],
      pks[i], infos[i], plaintexts[i], by simp, by simp, by simp, ?_⟩
    rw [unmask, zipWith_xor_comm (kdf ..), zipWith_xor_cancel]
  refine ⟨ciphertexts, ?_, hlen, hP⟩
  rw [encryptBatchedDeterministic, if_neg hcond]
  simp only [hc, ok_bind]

theorem encryptBatched_fail (r : c.Scalar) {plaintexts : List Key} {pks : List c.G2}
    (id : List UInt8) {infos : List Info}
    (h : plaintexts.length ≠ pks.length ∨ plaintexts.length ≠ infos.length) :
    encryptBatchedDeterministic c r plaintexts pks id infos = fail .invalidInput := if_pos h

theorem encryptBatched_nonce {r : c.Scalar} {plaintexts : List Key} {pks : List c.G2}
    {id : List UInt8} {infos : List Info} {nonce : c.G2} {ciphertexts : List Key}
    (h : encryptBatchedDeterministic c r plaintexts pks id infos = .ok (nonce, ciphertexts)) :
    nonce = r • c.g2Generator := by
  rw [encryptBatchedDeterministic] at h
  split_ifs at h
  · cases h
  · obtain ⟨_, -, heq⟩ := bind_eq_ok.mp h
    exact (Prod.mk.inj (Except.ok.inj heq)).1.symm

end Ibe

end PysuiCrypto
