import PysuiCrypto.Encrypt
import PysuiCrypto.ExponentPlatform

/-!
# Round trip

Correct keys for enough services recover the base key of an encrypted object, with and without
public keys, and whichever services they are for; hence decryption gives the message back.
-/
namespace PysuiCrypto

open Outcome

variable {c : Platform}

namespace EncryptedObject

/-- Every key for a service passes the verification under the service's public key. -/
def CorrectKeys (o : EncryptedObject c) (pks : IBEPublicKeys c) (M : IBEUserSecretKeys c) :
    Prop :=
  ∀ (i : ℕ) s usk pk, o.services[i]? = some s → M.lookup s.1 = some usk → pks[i]? = some pk →
    Ibe.verifyUserSecretKey c usk o.fullId pk = .ok ()

variable {o : EncryptedObject c} {pks : IBEPublicKeys c} {M : IBEUserSecretKeys c}
  {r : c.Scalar}

/-- A correct key unlocks the share that the randomness unlocks. -/
theorem CorrectKeys.userShare_eq (h : o.CorrectKeys pks M)
    (hr : r • c.g2Generator = o.encryptedShares.nonce) {i : ℕ} {s : Info} {usk : c.G1} {pk : c.G2}
    (hs : o.services[i]? = some s) (husk : M.lookup s.1 = some usk) (hpk : pks[i]? = some pk)
    (ciphertext : Key) : o.userShare usk ciphertext s = o.serverShare r pk ciphertext s :=
  Ibe.unlock_eq_unmask (h i s usk pk hs husk hpk) hr ciphertext s

/-- Under correct keys the used shares lie on the polynomials of all shares. -/
theorem CorrectKeys.used_lie (h : o.CorrectKeys pks M) (hpks : pks.length = o.services.length)
    (hr : r • c.g2Generator = o.encryptedShares.nonce) {P : Fin 32 → Polynomial GF256}
    (hlie : o.SharesLieOn pks r P) : ∀ x ∈ o.usedShares M, Tss.evalAt P x.1 = x.2 := by
  intro x hx
  obtain ⟨i, s, ciphertext, usk, hs, hct, husk, rfl⟩ := mem_usedShares.mp hx
  have hi := (List.getElem?_eq_some_iff.mp hs).1
  have hpk := List.getElem?_eq_getElem (show i < pks.length by omega)
  rw [hlie i _ ciphertext s hpk hct hs, h.userShare_eq hr hs husk hpk]

end EncryptedObject

open EncryptedObject

namespace Encrypted

variable {o : EncryptedObject c} {pks : IBEPublicKeys c} {M : IBEUserSecretKeys c} {baseKey : Key}
  {r : c.Scalar} {P : Fin 32 → Polynomial GF256}

theorem indices_eq (h : Encrypted o pks baseKey r P) :
    o.services.map Prod.snd = Tss.shareIndices (UInt8.ofNat o.services.length) := by
  rw [h.indices, Tss.shareIndices, UInt8.toNat_ofNat_of_lt' (Nat.lt_succ_of_le h.services_le)]

theorem opens (h : Encrypted o pks baseKey r P) (hc : c.ScalarRoundTrip) : o.Opens baseKey r := by
  refine ⟨?_, h.nonce.symm⟩
  obtain ⟨masked, hmask, hunmask⟩ := Ibe.decryptRandomness_encryptRandomness hc r
    (o.derivedKey .encryptedRandomness baseKey)
  rw [h.randomness] at hmask
  rwa [Except.ok.inj hmask]

/-- Any services that are as many as the threshold have valid shares. -/
theorem usable (h : Encrypted o pks baseKey r P) (hM : o.threshold.toNat ≤ (o.covered M).length) :
    o.Usable M where
  version := h.version
  aligned := h.aligned
  enough := hM
  valid := by
    have hpos := toNat_pos_iff.mpr h.threshold_pos
    have hsub : ((o.covered M).map Prod.snd).Sublist (o.services.map Prod.snd) :=
      List.filter_sublist.map _
    rw [h.indices_eq] at hsub
    apply validShares_usedShares h.aligned
    · exact List.ne_nil_of_length_pos (by omega)
    · intro s hs
      exact (Tss.mem_shareIndices.mp (hsub.subset (List.mem_map_of_mem hs))).1
    · exact (Tss.nodup_shareIndices _).sublist hsub

theorem sharePolys_eq (h : Encrypted o pks baseKey r P)
    (hM : o.threshold.toNat ≤ (o.covered M).length) (hkeys : o.CorrectKeys pks M) :
    Tss.sharePolys (o.usedShares M) = P := by
  refine (Tss.eq_sharePolys (h.usable hM).valid (fun b => (h.degree b).trans_le ?_)
    (hkeys.used_lie h.publicKeys h.nonce.symm h.lie)).symm
  rw [length_usedShares h.aligned]
  exact_mod_cast hM

/-- Both paths recover the base key. -/
theorem recoverBaseKey_ok (h : Encrypted o pks baseKey r P) (hc : c.ScalarRoundTrip)
    (hM : o.threshold.toNat ≤ (o.covered M).length) (hkeys : o.CorrectKeys pks M) :
    o.recoverBaseKey M none = .ok baseKey ∧ o.recoverBaseKey M (some pks) = .ok baseKey := by
  have hkey : baseKey = o.combinedKey M := by rw [combinedKey, h.sharePolys_eq hM hkeys, h.zero]
  have hopens := h.opens hc
  exact ⟨recoverBaseKey_none_eq_ok.mpr ⟨h.usable hM, hkey, r, hopens⟩,
    recoverBaseKey_some_eq_ok.mpr ⟨h.usable hM, hkey, h.publicKeys, r, hopens,
      (h.sharePolys_eq hM hkeys).symm ▸ h.lie⟩⟩

/-- Both paths return the message of the encryption. -/
theorem sealDecrypt_ok (h : Encrypted o pks baseKey r P) (hc : c.ScalarRoundTrip)
    (haes : c.AesRoundTrip) {input : EncryptionInput}
    (hct : o.ciphertext = input.encrypt c (o.derivedKey .dem baseKey))
    (hM : o.threshold.toNat ≤ (o.covered M).length) (hkeys : o.CorrectKeys pks M) :
    sealDecrypt o M none = .ok (input.plaintext (o.derivedKey .dem baseKey)) ∧
      sealDecrypt o M (some pks) = .ok (input.plaintext (o.derivedKey .dem baseKey)) := by
  have hdem := decrypt_encrypt haes input (o.derivedKey .dem baseKey)
  obtain ⟨hnone, hsome⟩ := h.recoverBaseKey_ok hc hM hkeys
  exact ⟨sealDecrypt_eq_ok.mpr ⟨baseKey, hnone, hct ▸ hdem⟩,
    sealDecrypt_eq_ok.mpr ⟨baseKey, hsome, hct ▸ hdem⟩⟩

end Encrypted

variable {R : Type} [AllowedRng R]

/-- The extracted keys of the listed servers are correct. -/
theorem correctKeys_extract {o : EncryptedObject c} {M : IBEUserSecretKeys c}
    {keyServers : List ObjectID} (masterKeys : List c.Scalar)
    (hservers : o.services.map Prod.fst = keyServers)
    (hM : ∀ (i : ℕ) s mk, keyServers[i]? = some s → masterKeys[i]? = some mk → s ∈ M →
      M.lookup s = some (Ibe.extract c mk o.fullId)) :
    o.CorrectKeys (masterKeys.map (Ibe.publicKeyFromMasterKey c)) M := by
  intro i s usk pk hs husk hpk
  rw [List.getElem?_map, Option.map_eq_some_iff] at hpk
  obtain ⟨mk, hmk, rfl⟩ := hpk
  have hserver : keyServers[i]? = some s.1 := by rw [← hservers, List.getElem?_map, hs]; rfl
  have hmem : s.1 ∈ M := AList.lookup_isSome.mp (by rw [husk]; rfl)
  rw [hM i s.1 mk hserver hmk hmem, Option.some_inj] at husk
  rw [← husk]
  exact Ibe.verifyUserSecretKey_extract mk o.fullId

/-- An encrypted object, with the keys that are correct for it and enough. -/
theorem sealEncrypt_covered (rng : R) (packageId : ObjectID) (id : List UInt8)
    {keyServers : List ObjectID} {masterKeys : List c.Scalar} {threshold : UInt8}
    (input : EncryptionInput) (hlen : keyServers.length ≤ 255)
    (hmk : masterKeys.length = keyServers.length) (ht : 1 ≤ threshold.toNat)
    (htn : threshold.toNat ≤ keyServers.length) :
    ∃ (o : EncryptedObject c) (r : c.Scalar) (P : Fin 32 → Polynomial GF256),
      sealEncrypt c rng packageId id keyServers
        (masterKeys.map (Ibe.publicKeyFromMasterKey c)) threshold input =
          .ok (o, o.derivedKey .dem (drawnKey rng)) ∧
      o.ciphertext = input.encrypt c (o.derivedKey .dem (drawnKey rng)) ∧
      Encrypted o (masterKeys.map (Ibe.publicKeyFromMasterKey c)) (drawnKey rng) r P ∧
      ∀ M : IBEUserSecretKeys c,
        threshold.toNat ≤ (keyServers.filter fun s => s ∈ M).length →
        (∀ (i : ℕ) s mk, keyServers[i]? = some s → masterKeys[i]? = some mk → s ∈ M →
          M.lookup s = some (Ibe.extract c mk (createFullId packageId.bytes id))) →
        o.threshold.toNat ≤ (o.covered M).length ∧
          o.CorrectKeys (masterKeys.map (Ibe.publicKeyFromMasterKey c)) M := by
  have ht0 : threshold ≠ 0 := toNat_pos_iff.mp ht
  obtain ⟨o, r, P, hok, hserv, ⟨rfl, rfl, hthr, hct⟩, he⟩ :=
    sealEncrypt_ok rng packageId id (masterKeys.map (Ibe.publicKeyFromMasterKey c)) input hlen ht0
      htn (by simpa using hmk)
  refine ⟨o, r, P, hok, hct, he, fun M hcovers hM => ?_⟩
  have hservers : o.services.map Prod.fst = keyServers := by
    rw [hserv]
    exact List.map_fst_zip (by simp)
  exact ⟨by rwa [hthr, length_covered, hservers], correctKeys_extract masterKeys hservers hM⟩

/-- Encryption for at most 255 key servers with a threshold within their number succeeds, and
decryption under extracted keys for at least as many services as the threshold returns the
message on both paths: the data, or the derived key in the plain mode. -/
theorem sealDecrypt_sealEncrypt (hscalar : c.ScalarRoundTrip) (haes : c.AesRoundTrip) (rng : R)
    (packageId : ObjectID) (id : List UInt8) (keyServers : List ObjectID)
    (masterKeys : List c.Scalar) (threshold : UInt8) (input : EncryptionInput)
    (hlen : keyServers.length ≤ 255) (hmk : masterKeys.length = keyServers.length)
    (ht : 1 ≤ threshold.toNat) (htn : threshold.toNat ≤ keyServers.length) :
    ∃ o k, sealEncrypt c rng packageId id keyServers
        (masterKeys.map (Ibe.publicKeyFromMasterKey c)) threshold input = .ok (o, k) ∧
      ∀ M : IBEUserSecretKeys c,
        threshold.toNat ≤ (keyServers.filter fun s => s ∈ M).length →
        (∀ (i : ℕ) s mk, keyServers[i]? = some s → masterKeys[i]? = some mk → s ∈ M →
          M.lookup s = some (Ibe.extract c mk (createFullId packageId.bytes id))) →
        sealDecrypt o M none = .ok (input.plaintext k) ∧
          sealDecrypt o M (some (masterKeys.map (Ibe.publicKeyFromMasterKey c))) =
            .ok (input.plaintext k) := by
  obtain ⟨o, r, P, hok, hct, he, hcovered⟩ :=
    sealEncrypt_covered rng packageId id input hlen hmk ht htn
  refine ⟨o, _, hok, fun M hcovers hM => ?_⟩
  obtain ⟨henough, hkeys⟩ := hcovered M hcovers hM
  exact he.sealDecrypt_ok hscalar haes hct henough hkeys

def exampleId (b : UInt8) : ObjectID := ⟨Vector.replicate 32 b⟩

def exampleServers : List ObjectID := [exampleId 1, exampleId 2, exampleId 3]

def exampleMasterKeys : List (exponentPlatform true).Scalar := [5, 7, 11]

/-- The extracted keys of the first and the last server. -/
def exampleKeys : IBEUserSecretKeys (exponentPlatform true) :=
  ((∅ : AList _).insert (exampleId 1) (Ibe.extract (exponentPlatform true) 5
      (createFullId (exampleId 0).bytes [1, 2, 3, 4]))).insert
    (exampleId 3) (Ibe.extract (exponentPlatform true) 11
      (createFullId (exampleId 0).bytes [1, 2, 3, 4]))

theorem exampleKeys_extracted : ∀ (i : ℕ) s mk, exampleServers[i]? = some s →
    exampleMasterKeys[i]? = some mk → s ∈ exampleKeys →
    exampleKeys.lookup s = some (Ibe.extract (exponentPlatform true) mk
      (createFullId (exampleId 0).bytes [1, 2, 3, 4])) := by
  intro i s mk hs hmk hmem
  match i with
  | 0 =>
    obtain rfl := Option.some.inj hs
    obtain rfl := Option.some.inj hmk
    rw [exampleKeys, AList.lookup_insert_ne (by decide), AList.lookup_insert]
  | 1 =>
    obtain rfl := Option.some.inj hs
    exact absurd hmem (by decide)
  | 2 =>
    obtain rfl := Option.some.inj hs
    obtain rfl := Option.some.inj hmk
    rw [exampleKeys, AList.lookup_insert]
  | i + 3 => cases hs

theorem sealDecrypt_sealEncrypt_two_of_three :
    ∃ o k, sealEncrypt (exponentPlatform true) ([3, 1, 4] : List UInt8) (exampleId 0)
        [1, 2, 3, 4] exampleServers
        (exampleMasterKeys.map (Ibe.publicKeyFromMasterKey (exponentPlatform true))) 2
        (.hmac256Ctr [72, 105] (some [7])) = .ok (o, k) ∧
      sealDecrypt o exampleKeys none = .ok [72, 105] ∧
      sealDecrypt o exampleKeys (some (exampleMasterKeys.map
        (Ibe.publicKeyFromMasterKey (exponentPlatform true)))) = .ok [72, 105] := by
  obtain ⟨o, k, hok, h⟩ := sealDecrypt_sealEncrypt (exponentPlatform_scalarRoundTrip true)
    (exponentPlatform_aesRoundTrip true) ([3, 1, 4] : List UInt8) (exampleId 0) [1, 2, 3, 4]
    exampleServers exampleMasterKeys 2 (.hmac256Ctr [72, 105] (some [7])) (by decide) rfl
    (by decide) (by decide)
  exact ⟨o, k, hok, h exampleKeys (by decide) exampleKeys_extracted⟩

def examplePublicKeys : IBEPublicKeys (exponentPlatform true) :=
  exampleMasterKeys.map (Ibe.publicKeyFromMasterKey (exponentPlatform true))

def exampleTape : List UInt8 := [3, 1, 4]

/-- The extracted keys of all three servers. -/
def exampleAllKeys : IBEUserSecretKeys (exponentPlatform true) :=
  exampleKeys.insert (exampleId 2) (Ibe.extract (exponentPlatform true) 7
    (createFullId (exampleId 0).bytes [1, 2, 3, 4]))

theorem exampleAllKeys_extracted : ∀ (i : ℕ) s mk, exampleServers[i]? = some s →
    exampleMasterKeys[i]? = some mk → s ∈ exampleAllKeys →
    exampleAllKeys.lookup s = some (Ibe.extract (exponentPlatform true) mk
      (createFullId (exampleId 0).bytes [1, 2, 3, 4])) := by
  intro i s mk hs hmk hmem
  match i with
  | 0 =>
    obtain rfl := Option.some.inj hs
    rw [exampleAllKeys, AList.lookup_insert_ne (by decide)]
    exact exampleKeys_extracted 0 _ mk rfl hmk (by decide)
  | 1 =>
    obtain rfl := Option.some.inj hs
    obtain rfl := Option.some.inj hmk
    rw [exampleAllKeys, AList.lookup_insert]
  | 2 =>
    obtain rfl := Option.some.inj hs
    rw [exampleAllKeys, AList.lookup_insert_ne (by decide)]
    exact exampleKeys_extracted 2 _ mk rfl hmk (by decide)
  | i + 3 => cases hs

/-- A run of both operations on these servers, with the keys of any two of them. -/
theorem example_run : ∃ o : EncryptedObject (exponentPlatform true),
    sealEncrypt (exponentPlatform true) exampleTape (exampleId 0) [1, 2, 3, 4] exampleServers
        examplePublicKeys 2 (.hmac256Ctr [72, 105] (some [7])) =
          .ok (o, o.derivedKey .dem (drawnKey exampleTape)) ∧
      o.threshold = 2 ∧ o.services.map Prod.fst = exampleServers ∧
      ∀ M : IBEUserSecretKeys (exponentPlatform true),
        2 ≤ (exampleServers.filter fun s => s ∈ M).length →
        (∀ (i : ℕ) s mk, exampleServers[i]? = some s → exampleMasterKeys[i]? = some mk → s ∈ M →
          M.lookup s = some (Ibe.extract (exponentPlatform true) mk
            (createFullId (exampleId 0).bytes [1, 2, 3, 4]))) →
        o.recoverBaseKey M none = .ok (drawnKey exampleTape) ∧
          o.recoverBaseKey M (some examplePublicKeys) = .ok (drawnKey exampleTape) ∧
          sealDecrypt o M none = .ok [72, 105] ∧
          sealDecrypt o M (some examplePublicKeys) = .ok [72, 105] := by
  obtain ⟨o, r, P, hok, hct, he, hcovered⟩ := sealEncrypt_covered (c := exponentPlatform true)
    exampleTape (exampleId 0) [1, 2, 3, 4] (.hmac256Ctr [72, 105] (some [7]))
    (show exampleServers.length ≤ 255 by decide)
    (show exampleMasterKeys.length = exampleServers.length from rfl)
    (show 1 ≤ (2 : UInt8).toNat by decide) (by decide)
  obtain ⟨o', k, hok', -, -, hthr, hids, -⟩ := keepsServers_of_satisfiable exampleTape (exampleId 0)
    [1, 2, 3, 4] examplePublicKeys (.hmac256Ctr [72, 105] (some [7]))
    (show Satisfiable exampleServers examplePublicKeys 2 from
      ⟨by decide, by decide, by decide, rfl⟩)
  obtain ⟨rfl, -⟩ := Prod.mk.inj (Except.ok.inj (hok.symm.trans hok'))
  refine ⟨o, hok, hthr, hids, fun M hcovers hM => ?_⟩
  obtain ⟨henough, hkeys⟩ := hcovered M hcovers hM
  obtain ⟨hbnone, hbsome⟩ := he.recoverBaseKey_ok (exponentPlatform_scalarRoundTrip true) henough
    hkeys
  exact ⟨hbnone, hbsome, he.sealDecrypt_ok (exponentPlatform_scalarRoundTrip true)
    (exponentPlatform_aesRoundTrip true) hct henough hkeys⟩

end PysuiCrypto
