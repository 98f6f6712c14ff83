import PysuiCrypto.Ibe

/-!
# Verified user secret keys

A user secret key that passes the pairing check unlocks every share exactly as the encryption
randomness does; and the check of an encrypted key share accepts the ciphertexts whose
decryption passes that pairing check, up to the identity elements that it excludes.
-/
namespace PysuiCrypto

open Outcome Elgamal

variable {c : Platform}

instance : ScalarType c.Scalar := ⟨c.scalarRand⟩

instance : GroupElement c.Scalar c.G1 := ⟨c.g1Generator⟩

instance : GroupElement c.Scalar c.G2 := ⟨c.g2Generator⟩

namespace Ibe

theorem encryptBatched_fails_iff {r : c.Scalar} {plaintexts : List Key} {pks : List c.G2}
    {id : List UInt8} {infos : List Info} :
    (∃ e, encryptBatchedDeterministic c r plaintexts pks id infos = fail e) ↔
      ¬ (plaintexts.length = pks.length ∧ plaintexts.length = infos.length) := by
  refine fails_iff_not (fun h => ?_) fun h => ⟨_, encryptBatched_fail r id (not_and_or.mp h)⟩
  obtain ⟨ciphertexts, hok, -⟩ := encryptBatched_ok r id h.1 h.2
  exact ⟨_, hok⟩

/-- An accepted batch has one ciphertext for each plaintext, which the randomness unmasks. -/
theorem encryptBatched_unmask {r : c.Scalar} {plaintexts : List Key} {pks : List c.G2}
    {id : List UInt8} {infos : List Info} {nonce : c.G2} {ciphertexts : List Key}
    (h : encryptBatchedDeterministic c r plaintexts pks id infos = .ok (nonce, ciphertexts))
    {i : ℕ} {plaintext : Key} (hi : plaintexts[i]? = some plaintext) :
    ∃ pk info ciphertext, pks[i]? = some pk ∧ infos[i]? = some info ∧
      ciphertexts[i]? = some ciphertext ∧ unmask r ciphertext pk id info = plaintext := by
  have hlen : plaintexts.length = pks.length ∧ plaintexts.length = infos.length := by
    by_contra hne
    obtain ⟨e, he⟩ := encryptBatched_fails_iff.mpr hne
    exact ne_ok_of_fail he _ h
  obtain ⟨ciphertexts', hok, hcount, hunmask⟩ := encryptBatched_ok r id hlen.1 hlen.2
  obtain ⟨-, rfl⟩ := Prod.mk.inj (Except.ok.inj (h.symm.trans hok))
  have hlt := (List.getElem?_eq_some_iff.mp hi).1
  have hct := List.getElem?_eq_getElem (show i < ciphertexts.length by omega)
  obtain ⟨pk, info, plaintext', hpk, hinfo, hplain, heq⟩ := hunmask i _ hct
  rw [hi, Option.some_inj] at hplain
  exact ⟨pk, info, _, hpk, hinfo, hct, by rw [heq, hplain]⟩

/-- Under a public key for which a user secret key verifies, decryption with the key and
decryption with the randomness agree on every ciphertext; both recover every plaintext of an
accepted batch; and a batch is rejected exactly when its lengths differ. -/
theorem decrypt_agrees :
    (∀ (id : List UInt8) (pk : c.G2) (usk : c.G1) (r : c.Scalar) (nonce : c.G2) (info : Info)
        (ciphertext : Key), verifyUserSecretKey c usk id pk = .ok () →
      nonce = r • c.g2Generator →
      decrypt c nonce ciphertext usk id info = decryptDeterministic c r ciphertext pk id info) ∧
    ∀ (r : c.Scalar) (plaintexts : List Key) (pks : List c.G2) (id : List UInt8)
        (infos : List Info),
      ((∃ e, encryptBatchedDeterministic c r plaintexts pks id infos = fail e) ↔
        ¬ (plaintexts.length = pks.length ∧ plaintexts.length = infos.length)) ∧
      ∀ nonce ciphertexts,
        encryptBatchedDeterministic c r plaintexts pks id infos = .ok (nonce, ciphertexts) →
        ∀ (i : ℕ) plaintext, plaintexts[i]? = some plaintext →
          ∃ pk info ciphertext, pks[i]? = some pk ∧ infos[i]? = some info ∧
            ciphertexts[i]? = some ciphertext ∧
            decryptDeterministic c r ciphertext pk id info = .ok plaintext ∧
            ∀ usk, verifyUserSecretKey c usk id pk = .ok () →
              decrypt c nonce ciphertext usk id info = .ok plaintext := by
  have hagree : ∀ (id : List UInt8) (pk : c.G2) (usk : c.G1) (r : c.Scalar) (nonce : c.G2)
      (info : Info) (ciphertext : Key), verifyUserSecretKey c usk id pk = .ok () →
      nonce = r • c.g2Generator → decrypt c nonce ciphertext usk id info =
        decryptDeterministic c r ciphertext pk id info := by
    intro id pk usk r nonce info ciphertext hv hnonce
    rw [decrypt_eq, decryptDeterministic_eq, unlock_eq_unmask hv hnonce.symm]
  refine ⟨hagree, fun r plaintexts pks id infos => ⟨encryptBatched_fails_iff, ?_⟩⟩
  intro nonce ciphertexts hok i plaintext hi
  obtain ⟨pk, info, ciphertext, hpk, hinfo, hct, hunmask⟩ := encryptBatched_unmask hok hi
  have hdet : decryptDeterministic c r ciphertext pk id info = .ok plaintext := by
    rw [decryptDeterministic_eq, hunmask]
  refine ⟨pk, info, ciphertext, hpk, hinfo, hct, hdet, fun usk hv => ?_⟩
  rw [hagree id pk usk r nonce info ciphertext hv (encryptBatched_nonce hok), hdet]

theorem verifyEncryptedSignature_ok_iff {e : Encryption c.G1} {vk : VerificationKey c.G2}
    {pk : c.G2} {id : List UInt8} :
    verifyEncryptedSignature c e vk pk id = .ok () ↔
      (e.fst ≠ 0 ∧ e.snd ≠ 0 ∧ vk.element ≠ 0 ∧ pk ≠ 0) ∧
        c.pairing e.snd c.g2Generator =
          c.pairing e.fst vk.element + c.pairing (hashToG1 c id) pk := by
  by_cases hzero : e.fst = 0 ∨ e.snd = 0 ∨ vk.element = 0 ∨ pk = 0
  · rw [verifyEncryptedSignature, if_pos hzero]
    constructor
    · intro h
      cases h
    · rintro ⟨hne, -⟩
      tauto
  · have hne : e.fst ≠ 0 ∧ e.snd ≠ 0 ∧ vk.element ≠ 0 ∧ pk ≠ 0 := by tauto
    rw [verifyEncryptedSignature, if_neg hzero, and_iff_right hne]
    dsimp only
    split_ifs with heq <;> simp [heq, fail]

/-- The pairing equation of the ciphertext is the one of the key that it decrypts to. -/
theorem pairing_decrypt_iff (sk : SecretKey c.Scalar) (e : Encryption c.G1) (pk : c.G2)
    (id : List UInt8) :
    verifyUserSecretKey c (Elgamal.decrypt sk e) id pk = .ok () ↔
      c.pairing e.snd c.g2Generator =
        c.pairing e.fst (sk.scalar • c.g2Generator) + c.pairing (hashToG1 c id) pk := by
  rw [verifyUserSecretKey_ok_iff, Elgamal.decrypt, map_sub, LinearMap.sub_apply, map_smul,
    LinearMap.smul_apply, map_smul, sub_eq_iff_eq_add, add_comm]

/-- An encrypted key share that is accepted decrypts to a key that verifies, whoever made it;
without identity elements the converse holds. The encryption of an extracted key decrypts to
this key, and is accepted if no identity element occurs. -/
theorem encrypted_share_verifies :
    (∀ (sk : SecretKey c.Scalar) (e : Encryption c.G1) (pk : c.G2) (id : List UInt8),
      (verifyEncryptedSignature c e ⟨sk.scalar • c.g2Generator⟩ pk id = .ok () →
        verifyUserSecretKey c (Elgamal.decrypt sk e) id pk = .ok ()) ∧
      (e.fst ≠ 0 → e.snd ≠ 0 → sk.scalar • c.g2Generator ≠ 0 → pk ≠ 0 →
        verifyUserSecretKey c (Elgamal.decrypt sk e) id pk = .ok () →
        verifyEncryptedSignature c e ⟨sk.scalar • c.g2Generator⟩ pk id = .ok ())) ∧
    ∀ (R : Type) [AllowedRng R] (rng : R) (mk : c.Scalar) (id : List UInt8)
        (sk : SecretKey c.Scalar) (pk : PublicKey c.G1) (vk : VerificationKey c.G2),
      KeyPair sk pk vk → ∀ e, e = (Elgamal.encrypt c.Scalar rng (extract c mk id) pk).1 →
      Elgamal.decrypt sk e = extract c mk id ∧
        (e.fst ≠ 0 → e.snd ≠ 0 → vk.element ≠ 0 → publicKeyFromMasterKey c mk ≠ 0 →
          verifyEncryptedSignature c e vk (publicKeyFromMasterKey c mk) id = .ok ()) := by
  have hconverse : ∀ (sk : SecretKey c.Scalar) (e : Encryption c.G1) (pk : c.G2)
      (id : List UInt8), e.fst ≠ 0 → e.snd ≠ 0 → sk.scalar • c.g2Generator ≠ 0 → pk ≠ 0 →
      verifyUserSecretKey c (Elgamal.decrypt sk e) id pk = .ok () →
      verifyEncryptedSignature c e ⟨sk.scalar • c.g2Generator⟩ pk id = .ok () :=
    fun sk e pk id h1 h2 hvk hpk hv => verifyEncryptedSignature_ok_iff.mpr
      ⟨⟨h1, h2, hvk, hpk⟩, (pairing_decrypt_iff sk e pk id).mp hv⟩
  refine ⟨fun sk e pk id => ⟨fun h => ?_, hconverse sk e pk id⟩, ?_⟩
  · exact (pairing_decrypt_iff sk e pk id).mpr (verifyEncryptedSignature_ok_iff.mp h).2
  · rintro R _ rng mk id sk pk ⟨vk⟩ hkeys e rfl
    have hdec := Elgamal.decrypt_encrypt hkeys rng (extract c mk id)
    obtain rfl : vk = sk.scalar • c.g2Generator := hkeys.verificationKey
    refine ⟨hdec, fun h1 h2 hvk hpk => hconverse sk _ _ id h1 h2 hvk hpk ?_⟩
    rw [hdec]
    exact verifyUserSecretKey_extract mk id

end Ibe

end PysuiCrypto
