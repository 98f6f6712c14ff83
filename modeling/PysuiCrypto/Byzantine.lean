import PysuiCrypto.BindingRoundTrip
import PysuiCrypto.Consistency

/-!
# Decryption under keys from Byzantine servers

With public keys, the consistency check pins the polynomials of the sharing down: all shares lie
on them, and there are more shares than their degree. So whatever keys are supplied, a decryption
that succeeds has recovered the base key of the encryption; and if a dishonest sender made the
object, any two that succeed have recovered the same base key. No property of the hash functions
is used.
-/
namespace PysuiCrypto

open Outcome EncryptedObject

variable {c : Platform}

namespace EncryptedObject

variable {o : EncryptedObject c} {pks : IBEPublicKeys c} {M M' : IBEUserSecretKeys c}

/-- On an accepted check, the used shares are shares of the servers. -/
theorem usedShares_subset {r : c.Scalar} (hu : o.Usable M) (hpks : pks.length = o.services.length)
    (hlie : o.SharesLieOn pks r (Tss.sharePolys (o.usedShares M))) :
    o.usedShares M ⊆ o.serverShares pks r := by
  refine supplied_subset hu.aligned hpks (fun x hx => ?_)
    (fun x hx => Tss.evalAt_sharePolys hu.valid hx) (sharesLieOn_iff.mp hlie)
  obtain ⟨i, s, -, -, hs, -, -, rfl⟩ := mem_usedShares.mp hx
  exact List.mem_map_of_mem (List.mem_of_getElem? hs)

/-- The shares of the servers lie on the polynomials of both sets of used shares, so these
polynomials pass through each other's shares. -/
theorem recoverBaseKey_unique (hinj : c.NonceInjective) {b b' : Key}
    (hb : o.recoverBaseKey M (some pks) = .ok b)
    (hb' : o.recoverBaseKey M' (some pks) = .ok b') : b = b' := by
  obtain ⟨hu, rfl, hpks, r, hr, hlie⟩ := recoverBaseKey_some_eq_ok.mp hb
  obtain ⟨hu', rfl, -, r', hr', hlie'⟩ := recoverBaseKey_some_eq_ok.mp hb'
  obtain rfl : r = r' := hinj (hr.2.trans hr'.2.symm)
  have hused := usedShares_subset hu hpks hlie
  have hused' := usedShares_subset hu' hpks hlie'
  have hall := sharesLieOn_iff.mp hlie
  have hall' := sharesLieOn_iff.mp hlie'
  have hpolys : Tss.sharePolys (o.usedShares M) = Tss.sharePolys (o.usedShares M') :=
    Tss.polys_eq hu.valid hu'.valid (Tss.degree_sharePolys_lt hu.valid)
      (Tss.degree_sharePolys_lt hu'.valid) (fun x hx => hall x (hused hx))
      (fun x hx => hall x (hused' hx)) (fun x hx => hall' x (hused hx))
      (fun x hx => hall' x (hused' hx))
  rw [combinedKey, combinedKey, hpolys]

theorem sealDecrypt_unique (hinj : c.NonceInjective) {m m' : List UInt8}
    (hm : sealDecrypt o M (some pks) = .ok m) (hm' : sealDecrypt o M' (some pks) = .ok m') :
    m = m' := by
  obtain ⟨b, hb, hdec⟩ := sealDecrypt_eq_ok.mp hm
  obtain ⟨b', hb', hdec'⟩ := sealDecrypt_eq_ok.mp hm'
  obtain rfl := recoverBaseKey_unique hinj hb hb'
  exact Except.ok.inj (hdec.symm.trans hdec')

end EncryptedObject

namespace Encrypted

variable {o : EncryptedObject c} {pks : IBEPublicKeys c} {M : IBEUserSecretKeys c} {baseKey : Key}
  {r : c.Scalar} {P : Fin 32 → Polynomial GF256}

theorem length_serverShares (h : Encrypted o pks baseKey r P) :
    (o.serverShares pks r).length = o.services.length := by
  simp [serverShares, h.aligned, h.publicKeys]

theorem serverShares_indices (h : Encrypted o pks baseKey r P) :
    (o.serverShares pks r).map Prod.fst = o.services.map Prod.snd := by
  have hlen : o.services.length ≤ (pks.zip o.encryptedShares.encryptedShares).length := by
    simp [h.aligned, h.publicKeys]
  rw [serverShares, List.map_map]
  conv_rhs => rw [← List.map_snd_zip hlen, List.map_map]
  rfl

/-- The shares of all servers have distinct nonzero indices. -/
theorem validShares_serverShares (h : Encrypted o pks baseKey r P) :
    Tss.ValidShares (o.serverShares pks r) := by
  have hpos := toNat_pos_iff.mpr h.threshold_pos
  have hle := h.threshold_le
  have hlen := h.length_serverShares
  have hfst := h.serverShares_indices.trans h.indices_eq
  refine ⟨List.ne_nil_of_length_pos (by omega), fun x hx => ?_, ?_⟩
  · have hmem : x.1 ∈ (o.serverShares pks r).map Prod.fst := List.mem_map_of_mem hx
    rw [hfst] at hmem
    exact (Tss.mem_shareIndices.mp hmem).1
  · rw [hfst]
    exact Tss.nodup_shareIndices _

/-- Polynomials of low degree through the shares of all servers are those of the sharing. -/
theorem polys_eq_of_lie (h : Encrypted o pks baseKey r P) {Q : Fin 32 → Polynomial GF256}
    (hdegree : ∀ b, (Q b).degree < o.services.length) (hlie : o.SharesLieOn pks r Q) : Q = P := by
  have hvalid := h.validShares_serverShares
  have hP : ∀ b, (P b).degree < (o.serverShares pks r).length := by
    intro b
    refine (h.degree b).trans_le ?_
    rw [h.length_serverShares]
    exact_mod_cast h.threshold_le
  rw [← h.length_serverShares] at hdegree
  rw [Tss.eq_sharePolys hvalid hdegree (sharesLieOn_iff.mp hlie),
    Tss.eq_sharePolys hvalid hP (sharesLieOn_iff.mp h.lie)]

/-- With the public keys of the encryption, every key that is recovered is the base key. -/
theorem baseKey_of_recoverBaseKey (h : Encrypted o pks baseKey r P) (hinj : c.NonceInjective)
    {b : Key} (hb : o.recoverBaseKey M (some pks) = .ok b) : b = baseKey := by
  obtain ⟨hu, rfl, -, r', hopens, hlie⟩ := recoverBaseKey_some_eq_ok.mp hb
  obtain rfl : r' = r := hinj (hopens.2.trans h.nonce)
  have hcovered : (o.covered M).length ≤ o.services.length := List.length_filter_le _ _
  have hpolys : Tss.sharePolys (o.usedShares M) = P := by
    refine h.polys_eq_of_lie (fun b => (Tss.degree_sharePolys_lt hu.valid b).trans_le ?_) hlie
    rw [length_usedShares hu.aligned]
    exact_mod_cast hcovered
  rw [combinedKey, hpolys, h.zero]

theorem sealDecrypt_eq_plaintext (h : Encrypted o pks baseKey r P) (hinj : c.NonceInjective)
    (haes : c.AesRoundTrip) {input : EncryptionInput}
    (hct : o.ciphertext = input.encrypt c (o.derivedKey .dem baseKey)) {m : List UInt8}
    (hm : sealDecrypt o M (some pks) = .ok m) :
    m = input.plaintext (o.derivedKey .dem baseKey) := by
  obtain ⟨b, hb, hdec⟩ := sealDecrypt_eq_ok.mp hm
  rw [h.baseKey_of_recoverBaseKey hinj hb, hct, decrypt_encrypt haes] at hdec
  exact (Except.ok.inj hdec).symm

end Encrypted

namespace Bindings

variable {api : FastCryptoApi c} {bcs : Bcs} {R : Type} [AllowedRng R] {rng : R}
  {packageId id : List UInt8} {keyServers publicKeys : List (List UInt8)} {threshold : UInt8}
  {data : List UInt8} {demType : DemType} {aad : Option (List UInt8)} {eo : List UInt8}
  {key : Option (List UInt8)}

/-- Byte strings of any origin have at most one decryption under given public keys. -/
theorem sealDecrypt_publicKeys_unique (hinj : c.NonceInjective)
    {usks usks' : List (List UInt8 × List UInt8)} {m m' : List UInt8}
    (hm : sealDecrypt api bcs eo usks (some publicKeys) = .ok m)
    (hm' : sealDecrypt api bcs eo usks' (some publicKeys) = .ok m') : m = m' := by
  simp only [sealDecrypt, parsePublicKeys, bind_eq_ok, mapErr_eq_ok, mapFail_eq_ok] at hm hm'
  obtain ⟨o, ho, pairs, -, _, ⟨pks, hpks, hsome⟩, hdec⟩ := hm
  obtain ⟨o', ho', pairs', -, _, ⟨pks', hpks', hsome'⟩, hdec'⟩ := hm'
  obtain rfl := Except.ok.inj (ho.symm.trans ho')
  obtain rfl := Except.ok.inj (hpks.symm.trans hpks')
  obtain rfl := Except.ok.inj hsome
  obtain rfl := Except.ok.inj hsome'
  exact EncryptedObject.sealDecrypt_unique hinj hdec hdec'

/-- A decryption with the public keys of the encryption gives the encrypted input back, and it
was given keys of as many key servers as the threshold. -/
theorem sealDecrypt_publicKeys_inv (hbcs : bcs.FollowsSpec) (hg2 : c.G2Codec)
    (hg1 : api.G1Codec) (hinj : c.NonceInjective) (haes : c.AesRoundTrip)
    (h : sealEncrypt api bcs rng packageId id keyServers publicKeys threshold data demType aad =
      .ok (eo, key)) {usks : List (List UInt8 × List UInt8)} {m : List UInt8}
    (hm : sealDecrypt api bcs eo usks (some publicKeys) = .ok m) :
    ∃ k : Key, m = (encryptionInput demType data aad).plaintext k ∧
      (key = if demType = .plain then some k.toList else none) ∧
      threshold.toNat ≤ (keyServers.filter fun s => s ∈ usks.map Prod.fst).length := by
  obtain ⟨pkg, servers, pks, o, k, rfl, rfl, rfl, hlen, hcore, hlimits, rfl, rfl⟩ :=
    sealEncrypt_inv hbcs hg2 h
  have hsat := satisfiable_of_sealEncrypt hlen hcore
  obtain ⟨o', r, P, hok, hserv, ⟨-, -, hthr, hct⟩, he⟩ := sealEncrypt_ok rng pkg id pks
    (encryptionInput demType data aad) hlen (toNat_pos_iff.mp hsat.pos) hsat.le_length
    hsat.publicKeys
  obtain ⟨rfl, rfl⟩ := Prod.mk.inj (Except.ok.inj (hcore.symm.trans hok))
  have husks : ∀ p ∈ usks, p.1.length = 32 ∧ ∃ g : c.G1, p.2 = g1Bytes g := by
    by_contra hn
    exact (sealDecrypt_undecodable hbcs hg2 hg1 fun hd => hn hd.userSecretKeys).ne_ok m hm
  obtain ⟨pairs, rfl⟩ := exists_pairBytes.mpr husks
  have hparsed := sealDecrypt_parsed hbcs hg2 hg1 hlimits pairs (some pks)
  rw [Option.map_some] at hparsed
  rw [hparsed, mapFail_eq_ok] at hm
  refine ⟨_, he.sealDecrypt_eq_plaintext hinj haes hct hm, rfl, ?_⟩
  have hids : o.services.map Prod.fst = servers := by
    rw [hserv]
    exact List.map_fst_zip (by simp)
  obtain ⟨b, hb, -⟩ := sealDecrypt_eq_ok.mp hm
  have henough := (recoverBaseKey_some_eq_ok.mp hb).1.enough
  rw [length_covered, hids, hthr] at henough
  rwa [length_filter_idBytes]

/-- What the exported encryption returned for some public keys is never decrypted to another
message under these public keys, whatever pairs of ids and keys are supplied: not by fewer
servers than the threshold, by false keys, or by keys for other identities or servers. -/
theorem sealDecrypt_authentic (hbcs : bcs.FollowsSpec) (hg2 : c.G2Codec) (hg1 : api.G1Codec)
    (hinj : c.NonceInjective) (haes : c.AesRoundTrip)
    (h : sealEncrypt api bcs rng packageId id keyServers publicKeys threshold data demType aad =
      .ok (eo, key)) (usks : List (List UInt8 × List UInt8)) (m : List UInt8)
    (hm : sealDecrypt api bcs eo usks (some publicKeys) = .ok m) :
    if demType = .plain then key = some m else m = data := by
  obtain ⟨k, rfl, rfl, -⟩ := sealDecrypt_publicKeys_inv hbcs hg2 hg1 hinj haes h hm
  cases demType <;> simp [encryptionInput, EncryptionInput.plaintext]

theorem sealDecrypt_authentic_example :
    ∃ (eo : List UInt8) (key : Option (List UInt8)) (m : List UInt8),
      exampleCall .hmac256Ctr = .ok (eo, key) ∧
      sealDecrypt (exponentApi true) specBcs eo (examplePairs.map pairBytes)
        (some (examplePublicKeys.map g2Bytes)) = .ok m ∧ m = [72, 105] := by
  obtain ⟨⟨eo, key⟩, h⟩ := exampleCall_ok .hmac256Ctr
  have henough : (2 : UInt8).toNat ≤
      (exampleServers.filter fun s => s ∈ examplePairs.map Prod.fst).length := by decide
  obtain ⟨m, -, hm, -⟩ := sealDecrypt_pairs specBcs_followsSpec (exponentPlatform_g2Codec true)
    (exponentApi_g1Codec true) (exponentPlatform_scalarRoundTrip true)
    (exponentPlatform_aesRoundTrip true) h henough examplePairs_verified
  have hmsg := sealDecrypt_authentic specBcs_followsSpec (exponentPlatform_g2Codec true)
    (exponentApi_g1Codec true) (exponentPlatform_nonceInjective true)
    (exponentPlatform_aesRoundTrip true) h (examplePairs.map pairBytes) m hm
  rw [if_neg (by decide)] at hmsg
  exact ⟨eo, key, m, h, hm, hmsg⟩

end Bindings

end PysuiCrypto
