import PysuiCrypto.ByteNumerals
import PysuiCrypto.Dem
import PysuiCrypto.ExponentPlatform

/-!
# Counter mode with a MAC

The byte-level law of the counter mode and its inverse, and what the MAC authenticates. The
eight length bytes in front of the aad fix where the aad ends, so bytes cannot move between
the aad and the ciphertext; the purpose tags keep MAC inputs apart from keystream inputs.
-/
namespace PysuiCrypto.Dem

open Outcome ByteNumerals

variable {c : Platform}

theorem length_toBytes (n : ℕ) : (toBytes n).length = 8 := length_leBytes 8 n

theorem leValue_toBytes {n : ℕ} (h : n < 2 ^ 64) : leValue (toBytes n) = n :=
  leValue_leBytes_of_lt (h.trans_eq (by norm_num))

theorem toBytes_inj {m n : ℕ} (hm : m < 2 ^ 64) (hn : n < 2 ^ 64)
    (h : toBytes m = toBytes n) : m = n := by
  rw [← leValue_toBytes hm, h, leValue_toBytes hn]

/-- A ciphertext byte is the message byte masked with its byte of the block. -/
theorem getElem?_encryptInCtrMode (key : Key) (msg : List UInt8) {p : ℕ} (h : p < msg.length) :
    (encryptInCtrMode c key msg)[p]? =
      some (msg[p] ^^^ (hmac c .encryption key (toBytes (p / 32))).get (Fin.ofNat 32 p)) := by
  have hblock : p % 32 < 32 := Nat.mod_lt p (by omega)
  rw [encryptInCtrMode_eq, List.getElem?_map, List.getElem?_range h, Option.map_some]
  simp [keystream, List.getD_eq_getElem?_getD, h, hblock, Vector.get_eq_getElem]

theorem hmac256CtrDecrypt_eq_ok {key mac : Key} {ct aad m : List UInt8} :
    hmac256CtrDecrypt c ct mac aad key = .ok m ↔
      mac = computeMac c key aad ct ∧ encryptInCtrMode c key ct = m := by
  rw [hmac256CtrDecrypt]
  split_ifs with h
  · simp [h, fail]
  · simp [not_not.mp h]

/-- Encrypting again what decryption accepts gives the same ciphertext and MAC. -/
theorem hmac256CtrEncrypt_of_decrypt {key mac : Key} {ct aad m : List UInt8}
    (h : hmac256CtrDecrypt c ct mac aad key = .ok m) :
    hmac256CtrEncrypt c m aad key = (ct, mac) := by
  obtain ⟨rfl, rfl⟩ := hmac256CtrDecrypt_eq_ok.mp h
  rw [hmac256CtrEncrypt, encryptInCtrMode_involutive]

/-- The ciphertext has the length of the message, and its byte `p` is the message byte XOR
byte `p % 32` of the HMAC of the encryption tag and the number `p / 32`. Decryption inverts
encryption, and encryption inverts every decryption that succeeds. -/
theorem hmac256Ctr_inverse (c : Platform) (key : Key) :
    (∀ msg aad : List UInt8,
      (hmac256CtrEncrypt c msg aad key).1.length = msg.length ∧
      (∀ (p : ℕ) (h : p < msg.length), (hmac256CtrEncrypt c msg aad key).1[p]? =
        some (msg[p] ^^^ (c.hmacSha3_256 key
          (asciiBytes "HMAC-CTR-ENC" ++ toBytes (p / 32))).get (Fin.ofNat 32 p))) ∧
      hmac256CtrDecrypt c (hmac256CtrEncrypt c msg aad key).1
        (hmac256CtrEncrypt c msg aad key).2 aad key = .ok msg) ∧
    ∀ (ct : List UInt8) (mac : Key) (aad m : List UInt8),
      hmac256CtrDecrypt c ct mac aad key = .ok m → hmac256CtrEncrypt c m aad key = (ct, mac) := by
  refine ⟨fun msg aad => ⟨length_encryptInCtrMode key msg, ?_, ?_⟩, fun _ _ _ _ => ?_⟩
  · intro p h
    exact getElem?_encryptInCtrMode key msg h
  · exact hmac256CtrDecrypt_encrypt msg aad key
  · exact hmac256CtrEncrypt_of_decrypt

theorem Purpose.tag_append_inj {purpose purpose' : Purpose} {xs ys : List UInt8}
    (h : purpose.tag ++ xs = purpose'.tag ++ ys) : purpose = purpose' ∧ xs = ys := by
  have hlen : ∀ q : Purpose, q.tag.length = 12 := by
    intro q
    cases q <;> rfl
  obtain ⟨htag, hrest⟩ := List.append_inj h (by rw [hlen, hlen])
  refine ⟨?_, hrest⟩
  cases purpose <;> cases purpose' <;> first | rfl | exact absurd htag (by decide)

theorem macInput_inj {aad aad' ct ct' : List UInt8} (ha : aad.length < 2 ^ 64)
    (ha' : aad'.length < 2 ^ 64) (h : macInput aad ct = macInput aad' ct') :
    aad = aad' ∧ ct = ct' := by
  simp only [macInput, List.append_assoc] at h
  obtain ⟨hlength, hrest⟩ := List.append_inj h (by rw [length_toBytes, length_toBytes])
  exact List.append_inj hrest (toBytes_inj ha ha' hlength)

/-- When the HMAC does not collide on the two inputs, only the aad and the ciphertext that
were authenticated are accepted. -/
theorem computeMac_eq_iff {key : Key} {aad aad' ct ct' : List UInt8} (ha : aad.length < 2 ^ 64)
    (ha' : aad'.length < 2 ^ 64) (hinj : Set.InjOn (hmac c .mac key)
      {macInput aad ct, macInput aad' ct'}) :
    computeMac c key aad ct = computeMac c key aad' ct' ↔ ct' = ct ∧ aad' = aad := by
  refine ⟨fun h => ?_, ?_⟩
  · obtain ⟨haad, hct⟩ := macInput_inj ha ha' (hinj (by simp) (by simp) h)
    exact ⟨hct.symm, haad.symm⟩
  · rintro ⟨rfl, rfl⟩
    rfl

/-- The inputs of the HMAC never clash: a MAC input determines aad and ciphertext (whose
lengths are unsigned 64-bit integers), it is no keystream input, and keystream inputs of
different block numbers differ. So if the HMAC does not collide on the two MAC inputs
concerned, a ciphertext is decrypted exactly when it and its aad are the encrypted ones. -/
theorem hmac256Ctr_authenticates (c : Platform) (key : Key) :
    (∀ aad aad' ct ct' : List UInt8, aad.length < 2 ^ 64 → aad'.length < 2 ^ 64 →
      Purpose.mac.tag ++ macInput aad ct = Purpose.mac.tag ++ macInput aad' ct' →
      aad = aad' ∧ ct = ct') ∧
    (∀ (aad ct : List UInt8) (i : ℕ),
      Purpose.mac.tag ++ macInput aad ct ≠ Purpose.encryption.tag ++ toBytes i) ∧
    (∀ i j : ℕ, i < 2 ^ 64 → j < 2 ^ 64 →
      Purpose.encryption.tag ++ toBytes i = Purpose.encryption.tag ++ toBytes j → i = j) ∧
    ∀ (msg aad ct' : List UInt8) (aad' : Option (List UInt8)), aad.length < 2 ^ 64 →
      (aad'.getD []).length < 2 ^ 64 →
      Set.InjOn (hmac c .mac key)
        {macInput aad (hmac256CtrEncrypt c msg aad key).1, macInput (aad'.getD []) ct'} →
      ((∃ m, Ciphertext.decrypt c key
          (.hmac256Ctr ct' aad' (hmac256CtrEncrypt c msg aad key).2) = .ok m) ↔
        ct' = (hmac256CtrEncrypt c msg aad key).1 ∧ aad'.getD [] = aad) ∧
      ∀ m, Ciphertext.decrypt c key
        (.hmac256Ctr ct' aad' (hmac256CtrEncrypt c msg aad key).2) = .ok m → m = msg := by
  refine ⟨?_, ?_, ?_, ?_⟩
  · intro aad aad' ct ct' ha ha' h
    exact macInput_inj ha ha' (Purpose.tag_append_inj h).2
  · intro aad ct i h
    exact absurd (Purpose.tag_append_inj h).1 (by decide)
  · intro i j hi hj h
    exact toBytes_inj hi hj (Purpose.tag_append_inj h).2
  · intro msg aad ct' aad' ha ha' hinj
    have hmac := computeMac_eq_iff ha ha' hinj
    simp only [Ciphertext.decrypt, hmac256CtrDecrypt_eq_ok, exists_and_left, exists_eq']
    refine ⟨by simpa [hmac256CtrEncrypt] using hmac, ?_⟩
    rintro m ⟨hm, rfl⟩
    obtain ⟨rfl, -⟩ := hmac.mp hm
    exact encryptInCtrMode_involutive key msg

/-- A platform whose HMAC returns the first 32 bytes of what it is given. -/
def prefixPlatform : Platform :=
  { exponentPlatform true with
    hmacSha3_256 := fun _ bytes => Vector.ofFn fun i : Fin 32 => bytes.getD i 0 }

/-- The only byte of the aad cannot be moved to the front of the ciphertext. -/
theorem hmac256Ctr_authenticates_example :
    ¬ ∃ m, Ciphertext.decrypt prefixPlatform (Vector.replicate 32 1)
      (.hmac256Ctr (7 :: (hmac256CtrEncrypt prefixPlatform [1, 2, 3] [7]
          (Vector.replicate 32 1)).1) none
        (hmac256CtrEncrypt prefixPlatform [1, 2, 3] [7] (Vector.replicate 32 1)).2) = .ok m := by
  have h := ((hmac256Ctr_authenticates prefixPlatform (Vector.replicate 32 1)).2.2.2 [1, 2, 3] [7]
    (7 :: (hmac256CtrEncrypt prefixPlatform [1, 2, 3] [7] (Vector.replicate 32 1)).1) none
    (by decide) (by decide) (by
      rintro x (rfl | rfl) y (rfl | rfl) hxy
      · rfl
      · exact absurd hxy (by decide)
      · exact absurd hxy (by decide)
      · rfl)).1
  rw [h]
  decide

end PysuiCrypto.Dem
