import PysuiCrypto.RoundTrip

/-!
# Decryption of untrusted objects

Decryption of an arbitrary object with arbitrary keys returns; public keys can only turn a
success into an error; and a share that public keys contradict is not used.
-/
namespace PysuiCrypto

open Outcome

variable {c : Platform}

namespace EncryptedObject

variable {o : EncryptedObject c} {M : IBEUserSecretKeys c}

theorem returns_decryptShares : Returns (o.decryptShares M) := by
  by_cases h : o.encryptedShares.encryptedShares.length = o.services.length ∧
      o.threshold.toNat ≤ (o.covered M).length
  · rw [decryptShares_ok h.1 h.2]
    exact returns_ok _
  · rw [decryptShares_fail (by omega)]
    exact returns_fail _

/-- Unmasking the randomness and comparing the nonce returns, whatever follows returns. -/
theorem returns_unmask_nonce {α : Type} {b : Key} {k : c.Scalar → FastCryptoResult α}
    (h : o.encryptedShares.encryptedShares.length = o.services.length)
    (hk : ∀ r, Returns (k r)) : Returns (do
      let randomnessKey ← deriveKey c .encryptedRandomness b o.encryptedShares.encryptedShares
        o.threshold (o.services.map Prod.fst)
      let randomness ←
        Ibe.decryptRandomness c o.encryptedShares.encryptedRandomness randomnessKey
      Ibe.verifyNonce c randomness o.encryptedShares.nonce
      k randomness) := by
  rw [deriveKey_of_length (aligned_ids h), ok_bind]
  apply Returns.bind (Ibe.returns_decryptRandomness _ _)
  intro r _
  exact (Ibe.returns_verifyNonce r _).bind fun _ _ => hk r

theorem returns_combineAndVerifyNonce {shares : List (Share 32)}
    (h : o.encryptedShares.encryptedShares.length = o.services.length) :
    Returns (o.encryptedShares.combineAndVerifyNonce shares o.services o.threshold) := by
  apply Returns.bind
  · by_cases hv : Tss.ValidShares shares
    · rw [Tss.combine_ok hv]
      exact returns_ok _
    · rw [Tss.combine_fail (by omega) hv]
      exact returns_fail _
  · intro b _
    exact returns_unmask_nonce h fun _ => returns_ok _

theorem returns_combineAndCheckShareConsistency {shares : List (Share 32)}
    {pks : IBEPublicKeys c}
    (h : o.encryptedShares.encryptedShares.length = o.services.length) :
    Returns (o.encryptedShares.combineAndCheckShareConsistency shares o.fullId o.services
      o.threshold pks) := by
  by_cases hv : Tss.ValidShares shares
  · obtain ⟨polynomial, hpoly, hp⟩ := Tss.interpolate_ok hv
    rw [IBEEncryptions.combineAndCheckShareConsistency, hpoly, ok_bind, hp, ok_bind]
    apply Returns.bind
    · apply returns_unmask_nonce h
      intro r
      rw [decryptAllShares_eq]
      split_ifs
      · exact returns_fail _
      · exact returns_ok _
    · intro all _
      rw [anyM_eq_ok (g := fun s => decide (Tss.evalAt (Tss.sharePolys shares) s.1 ≠ s.2))
        fun s _ => by simp only [hp, ok_bind], ok_bind]
      split_ifs
      · exact returns_fail _
      · exact returns_ok _
  · rw [IBEEncryptions.combineAndCheckShareConsistency, Tss.interpolate_fail hv]
    exact returns_fail _

theorem returns_recoverBaseKey {pks : Option (IBEPublicKeys c)} :
    Returns (o.recoverBaseKey M pks) := by
  rw [recoverBaseKey]
  split_ifs
  · exact returns_fail _
  · apply returns_decryptShares.bind
    intro shares hs
    have haligned := (decryptShares_eq_ok.mp hs).1
    cases pks with
    | none => exact returns_combineAndVerifyNonce haligned
    | some pks => exact returns_combineAndCheckShareConsistency haligned

end EncryptedObject

open EncryptedObject

theorem returns_sealDecrypt {o : EncryptedObject c} {M : IBEUserSecretKeys c}
    {pks : Option (IBEPublicKeys c)} : Returns (sealDecrypt o M pks) := by
  apply returns_recoverBaseKey.bind
  intro b hb
  rw [demKey_ok (recoverBaseKey_spec hb).1.aligned, ok_bind]
  exact returns_decrypt _ _

/-- Decryption of any object, under any keys and with or without public keys of any number,
returns a value or an error: no index, assertion, subtraction or conversion on the way
panics. -/
theorem sealDecrypt_ok_or_fail (o : EncryptedObject c) (M : IBEUserSecretKeys c)
    (pks : Option (IBEPublicKeys c)) :
    (∃ m, sealDecrypt o M pks = .ok m) ∨ ∃ e, sealDecrypt o M pks = fail e :=
  returns_sealDecrypt.ok_or_fail

theorem recoverBaseKey_none_of_some {o : EncryptedObject c} {M : IBEUserSecretKeys c}
    {pks : IBEPublicKeys c} {b : Key} (h : o.recoverBaseKey M (some pks) = .ok b) :
    o.recoverBaseKey M none = .ok b :=
  recoverBaseKey_none_eq_ok.mpr (recoverBaseKey_spec h)

/-- The path with public keys refines the path without them. -/
theorem sealDecrypt_none_of_some (o : EncryptedObject c) (M : IBEUserSecretKeys c)
    (pks : IBEPublicKeys c) (m : List UInt8) (h : sealDecrypt o M (some pks) = .ok m) :
    sealDecrypt o M none = .ok m := by
  obtain ⟨b, hb, hm⟩ := sealDecrypt_eq_ok.mp h
  exact sealDecrypt_eq_ok.mpr ⟨b, recoverBaseKey_none_of_some hb, hm⟩

theorem sealDecrypt_none_of_some_example :
    ∃ (o : EncryptedObject (exponentPlatform true)) (m : List UInt8),
      sealDecrypt o exampleKeys (some examplePublicKeys) = .ok m ∧
        sealDecrypt o exampleKeys none = .ok m := by
  obtain ⟨o, -, -, -, hrun⟩ := example_run
  obtain ⟨-, -, -, h⟩ := hrun exampleKeys (by decide) exampleKeys_extracted
  exact ⟨o, _, h, sealDecrypt_none_of_some o exampleKeys examplePublicKeys _ h⟩

/-- With public keys, success means that all shares lie on the polynomials of the used ones. -/
theorem lie_of_sealDecrypt {o : EncryptedObject c} {M : IBEUserSecretKeys c}
    {pks : IBEPublicKeys c} {m : List UInt8} (h : sealDecrypt o M (some pks) = .ok m) :
    o.Usable M ∧ pks.length = o.services.length ∧
      ∃ r, r • c.g2Generator = o.encryptedShares.nonce ∧
        o.SharesLieOn pks r (Tss.sharePolys (o.usedShares M)) := by
  obtain ⟨b, hb, -⟩ := sealDecrypt_eq_ok.mp h
  obtain ⟨hu, -, hlen, r, hr, hlie⟩ := recoverBaseKey_some_eq_ok.mp hb
  exact ⟨hu, hlen, r, hr.2, hlie⟩

/-- A share that the user unlocks at a service lies on the interpolated polynomials, so the
share that the randomness unlocks there is the same. -/
theorem userShare_eq_serverShare {o : EncryptedObject c} {M : IBEUserSecretKeys c}
    {pks : IBEPublicKeys c} {r : c.Scalar} (hv : Tss.ValidShares (o.usedShares M))
    (hlie : o.SharesLieOn pks r (Tss.sharePolys (o.usedShares M))) {i : ℕ} {s : Info}
    {ciphertext : Key} {pk : c.G2} {usk : c.G1} (hs : o.services[i]? = some s)
    (hct : o.encryptedShares.encryptedShares[i]? = some ciphertext) (hpk : pks[i]? = some pk)
    (husk : M.lookup s.1 = some usk) :
    o.userShare usk ciphertext s = o.serverShare r pk ciphertext s := by
  have hmem : (s.2, o.userShare usk ciphertext s) ∈ o.usedShares M :=
    mem_usedShares.mpr ⟨i, s, ciphertext, usk, hs, hct, husk, rfl⟩
  rw [← hlie i pk ciphertext s hpk hct hs, Tss.evalAt_sharePolys hv hmem]

/-- With public keys, success means that one scalar opens the nonce and accounts for every
share: a used share is the share that the scalar unlocks, and any other share that it unlocks
is the value of the interpolated polynomials at the service's index. If some used share is
not the one that the scalar unlocks, the result is an error. -/
theorem sealDecrypt_shares_checked (o : EncryptedObject c) (M : IBEUserSecretKeys c)
    (pks : IBEPublicKeys c) :
    (∀ m, sealDecrypt o M (some pks) = .ok m →
      ∃ r shares polynomial, r • c.g2Generator = o.encryptedShares.nonce ∧
        pks.length = o.services.length ∧ o.decryptShares M = .ok shares ∧
        Tss.interpolate shares = .ok polynomial ∧
        ∀ (i : ℕ) s, o.services[i]? = some s →
          ∃ pk ciphertext, pks[i]? = some pk ∧
            o.encryptedShares.encryptedShares[i]? = some ciphertext ∧
            (∀ usk, M.lookup s.1 = some usk →
              Ibe.decrypt c o.encryptedShares.nonce ciphertext usk o.fullId s =
                Ibe.decryptDeterministic c r ciphertext pk o.fullId s) ∧
            (s.1 ∉ M → polynomial s.2 =
              Ibe.decryptDeterministic c r ciphertext pk o.fullId s)) ∧
    ∀ (i : ℕ) s pk ciphertext usk, o.services[i]? = some s → pks[i]? = some pk →
      o.encryptedShares.encryptedShares[i]? = some ciphertext → M.lookup s.1 = some usk →
      (∀ r, r • c.g2Generator = o.encryptedShares.nonce →
        Ibe.decrypt c o.encryptedShares.nonce ciphertext usk o.fullId s ≠
          Ibe.decryptDeterministic c r ciphertext pk o.fullId s) →
      ∃ e, sealDecrypt o M (some pks) = fail e := by
  constructor
  · intro m hm
    obtain ⟨hu, hlen, r, hr, hlie⟩ := lie_of_sealDecrypt hm
    obtain ⟨polynomial, hpoly, hp⟩ := Tss.interpolate_ok hu.valid
    refine ⟨r, _, polynomial, hr, hlen, decryptShares_ok hu.aligned hu.enough, hpoly, ?_⟩
    intro i s hs
    have hi := (List.getElem?_eq_some_iff.mp hs).1
    have hpk := List.getElem?_eq_getElem (show i < pks.length by omega)
    have hct := List.getElem?_eq_getElem
      (show i < o.encryptedShares.encryptedShares.length by rw [hu.aligned]; exact hi)
    refine ⟨_, _, hpk, hct, fun usk husk => ?_, fun _ => ?_⟩
    · rw [Ibe.decrypt_eq, Ibe.decryptDeterministic_eq]
      exact congrArg Except.ok (userShare_eq_serverShare hu.valid hlie hs hct hpk husk)
    · rw [hp, Ibe.decryptDeterministic_eq]
      exact congrArg Except.ok (hlie i _ _ s hpk hct hs)
  · intro i s pk ciphertext usk hs hpk hct husk hne
    rcases returns_sealDecrypt.ok_or_fail with ⟨m, hm⟩ | herr
    · obtain ⟨hu, -, r, hr, hlie⟩ := lie_of_sealDecrypt hm
      refine absurd ?_ (hne r hr)
      rw [Ibe.decrypt_eq, Ibe.decryptDeterministic_eq]
      exact congrArg Except.ok (userShare_eq_serverShare hu.valid hlie hs hct hpk husk)
    · exact herr

end PysuiCrypto
