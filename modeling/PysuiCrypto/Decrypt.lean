import PysuiCrypto.Core

/-!
# What decryption computes

The shares that the keys unlock, the conditions under which they are combined, and the two
paths from the shares to the base key. Each path succeeds exactly when the keys are enough and
the value at zero of the interpolated polynomials opens the nonce; with public keys, every
share recomputed from the randomness must lie on these polynomials as well.
-/
namespace PysuiCrypto

open Outcome

variable {c : Platform}

theorem deriveKey_of_length {purpose : KeyPurpose} {baseKey : Key} {shares : List Key}
    {threshold : UInt8} {keyServers : List ObjectID} (h : shares.length = keyServers.length) :
    deriveKey c purpose baseKey shares threshold keyServers =
      .ok (c.sha3_256 (deriveKeyInput purpose baseKey shares threshold keyServers)) :=
  if_neg fun hc => hc.2 h

namespace EncryptedObject

variable (o : EncryptedObject c) (M : IBEUserSecretKeys c)

def covered : List Info := o.services.filter fun s => s.1 ∈ M

def userShare (usk : c.G1) (ciphertext : Key) (s : Info) : Key :=
  Ibe.unlock o.encryptedShares.nonce ciphertext usk o.fullId s

/-- The share that the encryption randomness unlocks for a public key. -/
def serverShare (r : c.Scalar) (pk : c.G2) (ciphertext : Key) (s : Info) : Key :=
  Ibe.unmask r ciphertext pk o.fullId s

def usedShares : List (Share 32) :=
  (o.services.zip o.encryptedShares.encryptedShares).filterMap fun (s, ciphertext) =>
    (M.lookup s.1).map fun usk => (s.2, o.userShare usk ciphertext s)

def derivedKey (purpose : KeyPurpose) (baseKey : Key) : Key :=
  c.sha3_256 (deriveKeyInput purpose baseKey o.encryptedShares.encryptedShares o.threshold
    (o.services.map Prod.fst))

/-- The base key unmasks the randomness of the nonce. -/
def Opens (baseKey : Key) (r : c.Scalar) : Prop :=
  Ibe.decryptRandomness c o.encryptedShares.encryptedRandomness
      (o.derivedKey .encryptedRandomness baseKey) = .ok r ∧
    r • c.g2Generator = o.encryptedShares.nonce

/-- The conditions on the object and the keys before any share is combined. -/
structure Usable : Prop where
  version : o.version = 0
  aligned : o.encryptedShares.encryptedShares.length = o.services.length
  enough : o.threshold.toNat ≤ (o.covered M).length
  valid : Tss.ValidShares (o.usedShares M)

/-- The value at zero of the polynomials through the used shares. -/
noncomputable def combinedKey : Key := Tss.evalAt (Tss.sharePolys (o.usedShares M)) 0

variable {o M}

theorem aligned_ids (h : o.encryptedShares.encryptedShares.length = o.services.length) :
    o.encryptedShares.encryptedShares.length = (o.services.map Prod.fst).length := by
  rw [h, List.length_map]

theorem mem_usedShares {x : Share 32} :
    x ∈ o.usedShares M ↔ ∃ (i : ℕ) (s : Info) (ciphertext : Key) (usk : c.G1),
      o.services[i]? = some s ∧ o.encryptedShares.encryptedShares[i]? = some ciphertext ∧
      M.lookup s.1 = some usk ∧ x = (s.2, o.userShare usk ciphertext s) := by
  simp only [usedShares, List.mem_filterMap, Option.map_eq_some_iff]
  constructor
  · rintro ⟨⟨s, ciphertext⟩, hmem, usk, husk, rfl⟩
    obtain ⟨i, hi⟩ := List.mem_iff_getElem?.mp hmem
    obtain ⟨hs, hct⟩ := List.getElem?_zip_eq_some.mp hi
    exact ⟨i, s, ciphertext, usk, hs, hct, husk, rfl⟩
  · rintro ⟨i, s, ciphertext, usk, hs, hct, husk, rfl⟩
    exact ⟨(s, ciphertext), List.mem_iff_getElem?.mpr
      ⟨i, List.getElem?_zip_eq_some.mpr ⟨hs, hct⟩⟩, usk, husk, rfl⟩

/-- The indices of the used shares are those of the covered services. -/
theorem usedShares_map_fst (h : o.encryptedShares.encryptedShares.length = o.services.length) :
    (o.usedShares M).map Prod.fst = (o.covered M).map Prod.snd := by
  have hfst : (o.services.zip o.encryptedShares.encryptedShares).map Prod.fst = o.services :=
    List.map_fst_zip h.ge
  have hindex : ∀ z : Info × Key, Option.map Prod.fst ((M.lookup z.1.1).map fun usk =>
      (z.1.2, o.userShare usk z.2 z.1)) = if z.1.1 ∈ M then some z.1.2 else none := by
    intro z
    split_ifs with hz
    · obtain ⟨usk, husk⟩ := Option.isSome_iff_exists.mp (AList.lookup_isSome.mpr hz)
      simp [husk]
    · simp [AList.lookup_eq_none.mpr hz]
  rw [usedShares, List.map_filterMap, covered, ← List.filterMap_eq_map, List.filterMap_filter]
  conv_rhs => rw [← hfst]
  rw [List.filterMap_map]
  apply List.filterMap_congr
  intro z _
  simpa using hindex z

theorem length_usedShares (h : o.encryptedShares.encryptedShares.length = o.services.length) :
    (o.usedShares M).length = (o.covered M).length := by
  simpa using congrArg List.length (usedShares_map_fst (M := M) h)

/-- The shares of services with distinct nonzero indices are valid. -/
theorem validShares_usedShares
    (h : o.encryptedShares.encryptedShares.length = o.services.length) (hne : o.covered M ≠ [])
    (h0 : ∀ s ∈ o.covered M, s.2 ≠ 0) (hnd : ((o.covered M).map Prod.snd).Nodup) :
    Tss.ValidShares (o.usedShares M) := by
  have hfst := usedShares_map_fst (M := M) h
  refine ⟨?_, fun x hx => ?_, hfst ▸ hnd⟩
  · intro hnil
    rw [hnil, List.map_nil] at hfst
    exact hne (List.map_eq_nil_iff.mp hfst.symm)
  · have hmem : x.1 ∈ (o.covered M).map Prod.snd := hfst ▸ List.mem_map_of_mem hx
    obtain ⟨s, hs, hsx⟩ := List.mem_map.mp hmem
    exact hsx ▸ h0 s hs

theorem length_serviceIndices : (serviceIndices o.services M).length = (o.covered M).length := by
  have hfst : (o.services.zipIdx.map Prod.fst).filter (fun s => s.1 ∈ M) = o.covered M := by
    rw [List.zipIdx_map_fst, covered]
  rw [serviceIndices, List.length_map, ← hfst, List.filter_map, List.length_map]
  rfl

theorem length_covered :
    (o.covered M).length = ((o.services.map Prod.fst).filter fun id => id ∈ M).length := by
  rw [covered, List.filter_map, List.length_map]
  rfl

theorem decryptShares_ok (h : o.encryptedShares.encryptedShares.length = o.services.length)
    (ht : o.threshold.toNat ≤ (o.covered M).length) :
    o.decryptShares M = .ok (o.usedShares M) := by
  have hfst : o.services =
      (o.services.zip o.encryptedShares.encryptedShares).map Prod.fst :=
    (List.map_fst_zip h.ge).symm
  rw [decryptShares, if_neg (not_not.mpr h), length_serviceIndices, if_neg (by omega)]
  have hpositions : serviceIndices o.services M =
      (((o.services.zip o.encryptedShares.encryptedShares).zipIdx 0).filter
        fun x => decide (x.1.1.1 ∈ M)).map Prod.snd := by
    conv_lhs => rw [serviceIndices, hfst, List.zipIdx_map, List.filter_map, List.map_map]
    rfl
  rw [hpositions]
  refine mapM_positions (p := fun x : Info × Key => decide (x.1.1 ∈ M)) 0 ?_ ?_
  · intro i x hi hx
    obtain ⟨hs, hct⟩ := List.getElem?_zip_eq_some.mp hi
    obtain ⟨usk, husk⟩ := Option.isSome_iff_exists.mp
      (AList.lookup_isSome.mpr (of_decide_eq_true hx))
    refine ⟨(x.1.2, o.userShare usk x.2 x.1), ?_, by simp [husk]⟩
    rw [Nat.zero_add, index_eq_ok.mpr hs, index_eq_ok.mpr hct]
    simp [husk, userShare, expect]
  · intro x _ hx
    simp [AList.lookup_eq_none.mpr (of_decide_eq_false hx)]

theorem decryptShares_fail (h : o.encryptedShares.encryptedShares.length ≠ o.services.length ∨
    (o.covered M).length < o.threshold.toNat) : o.decryptShares M = fail .invalidInput := by
  rw [decryptShares, length_serviceIndices]
  split_ifs with hlen hlt
  · rfl
  · rfl
  · tauto

/-- Both paths unmask the randomness under the derived key and compare the nonce. -/
theorem unmask_nonce_eq_ok {α : Type} {b : Key} {k : c.Scalar → FastCryptoResult α} {a : α}
    (h : o.encryptedShares.encryptedShares.length = o.services.length) : (do
      let randomnessKey ← deriveKey c .encryptedRandomness b o.encryptedShares.encryptedShares
        o.threshold (o.services.map Prod.fst)
      let randomness ←
        Ibe.decryptRandomness c o.encryptedShares.encryptedRandomness randomnessKey
      Ibe.verifyNonce c randomness o.encryptedShares.nonce
      k randomness) = .ok a ↔ ∃ r, o.Opens b r ∧ k r = .ok a := by
  rw [deriveKey_of_length (aligned_ids h), ok_bind, bind_eq_ok]
  refine exists_congr fun r => ?_
  rw [bind_eq_ok]
  constructor
  · rintro ⟨hr, ⟨⟩, hv, hk⟩
    exact ⟨⟨hr, Ibe.verifyNonce_ok_iff.mp hv⟩, hk⟩
  · rintro ⟨⟨hr, hv⟩, hk⟩
    exact ⟨hr, (), Ibe.verifyNonce_ok_iff.mpr hv, hk⟩

theorem combineAndVerifyNonce_eq_ok {shares : List (Share 32)} {b : Key}
    (h : o.encryptedShares.encryptedShares.length = o.services.length) :
    o.encryptedShares.combineAndVerifyNonce shares o.services o.threshold = .ok b ↔
      Tss.ValidShares shares ∧ b = Tss.evalAt (Tss.sharePolys shares) 0 ∧ ∃ r, o.Opens b r := by
  by_cases hv : Tss.ValidShares shares
  · rw [IBEEncryptions.combineAndVerifyNonce, Tss.combine_ok hv, ok_bind, unmask_nonce_eq_ok h]
    constructor
    · rintro ⟨r, hr, hb⟩
      obtain rfl := Except.ok.inj hb
      exact ⟨hv, rfl, r, hr⟩
    · rintro ⟨-, rfl, r, hr⟩
      exact ⟨r, hr, rfl⟩
  · rw [IBEEncryptions.combineAndVerifyNonce, Tss.combine_fail (by omega) hv]
    simp [hv, fail]

/-- With randomness `r`, every service's share lies on the given polynomials. -/
def SharesLieOn (o : EncryptedObject c) (pks : IBEPublicKeys c) (r : c.Scalar)
    (P : Fin 32 → Polynomial GF256) : Prop :=
  ∀ (i : ℕ) pk ciphertext s, pks[i]? = some pk →
    o.encryptedShares.encryptedShares[i]? = some ciphertext → o.services[i]? = some s →
    Tss.evalAt P s.2 = o.serverShare r pk ciphertext s

def serverShares (o : EncryptedObject c) (pks : IBEPublicKeys c) (r : c.Scalar) :
    List (Share 32) :=
  ((pks.zip o.encryptedShares.encryptedShares).zip o.services).map fun x =>
    (x.2.2, o.serverShare r x.1.1 x.1.2 x.2)

theorem mem_serverShares {pks : IBEPublicKeys c} {r : c.Scalar} {x : Share 32} :
    x ∈ o.serverShares pks r ↔ ∃ (i : ℕ) (pk : c.G2) (ciphertext : Key) (s : Info),
      pks[i]? = some pk ∧ o.encryptedShares.encryptedShares[i]? = some ciphertext ∧
      o.services[i]? = some s ∧ x = (s.2, o.serverShare r pk ciphertext s) := by
  rw [serverShares, List.mem_map]
  constructor
  · rintro ⟨y, hy, rfl⟩
    obtain ⟨i, hi⟩ := List.mem_iff_getElem?.mp hy
    obtain ⟨hz, hs⟩ := List.getElem?_zip_eq_some.mp hi
    obtain ⟨hpk, hct⟩ := List.getElem?_zip_eq_some.mp hz
    exact ⟨i, _, _, _, hpk, hct, hs, rfl⟩
  · rintro ⟨i, pk, ciphertext, s, hpk, hct, hs, rfl⟩
    exact ⟨((pk, ciphertext), s), List.mem_iff_getElem?.mpr
      ⟨i, List.getElem?_zip_eq_some.mpr ⟨List.getElem?_zip_eq_some.mpr ⟨hpk, hct⟩, hs⟩⟩, rfl⟩

theorem sharesLieOn_iff {pks : IBEPublicKeys c} {r : c.Scalar}
    {P : Fin 32 → Polynomial GF256} :
    o.SharesLieOn pks r P ↔ ∀ x ∈ o.serverShares pks r, Tss.evalAt P x.1 = x.2 := by
  constructor
  · intro h x hx
    obtain ⟨i, pk, ciphertext, s, hpk, hct, hs, rfl⟩ := mem_serverShares.mp hx
    exact h i pk ciphertext s hpk hct hs
  · intro h i pk ciphertext s hpk hct hs
    exact h (s.2, o.serverShare r pk ciphertext s)
      (mem_serverShares.mpr ⟨i, pk, ciphertext, s, hpk, hct, hs, rfl⟩)

theorem decryptAllShares_eq (r : c.Scalar) (pks : IBEPublicKeys c) :
    ((pks.zip o.encryptedShares.encryptedShares).zip o.services).mapM
        (fun ((pk, ciphertext), service) => do
          let plaintext ← Ibe.decryptDeterministic c r ciphertext pk o.fullId service
          .ok (service.2, plaintext)) =
      (.ok (o.serverShares pks r) : FastCryptoResult (List (Share 32))) :=
  mapM_eq_ok fun x _ => by simp [serverShare]

theorem anyM_inconsistent (o : EncryptedObject c) (r : c.Scalar) (pks : IBEPublicKeys c)
    {polynomial : UInt8 → FastCryptoResult Key} {P : Fin 32 → Polynomial GF256}
    (hp : ∀ x, polynomial x = .ok (Tss.evalAt P x)) :
    ∃ inconsistent, (o.serverShares pks r).anyM (fun (i, share) => do
          let value ← polynomial i
          .ok (decide (value ≠ share))) = (.ok inconsistent : FastCryptoResult Bool) ∧
      (inconsistent = false ↔ o.SharesLieOn pks r P) := by
  refine ⟨_, anyM_eq_ok (g := fun s => decide (Tss.evalAt P s.1 ≠ s.2)) fun s _ => ?_, ?_⟩
  · simp only [hp, ok_bind]
  · rw [sharesLieOn_iff]
    simp

theorem decryptAllSharesAndVerifyNonce_eq_ok {pks : IBEPublicKeys c} {b : Key}
    {all : List (Share 32)}
    (h : o.encryptedShares.encryptedShares.length = o.services.length) :
    o.encryptedShares.decryptAllSharesAndVerifyNonce o.fullId o.services pks b o.threshold
        = .ok all ↔
      ∃ r, o.Opens b r ∧ pks.length = o.services.length ∧ all = o.serverShares pks r := by
  rw [IBEEncryptions.decryptAllSharesAndVerifyNonce, unmask_nonce_eq_ok h]
  refine exists_congr fun r => and_congr_right fun _ => ?_
  rw [decryptAllShares_eq, h]
  split_ifs with hlen
  · simp [hlen, fail]
  · simp [not_not.mp hlen, eq_comm, serverShares]

theorem combineAndCheckShareConsistency_eq_ok {shares : List (Share 32)} {b : Key}
    {pks : IBEPublicKeys c}
    (h : o.encryptedShares.encryptedShares.length = o.services.length) :
    o.encryptedShares.combineAndCheckShareConsistency shares o.fullId o.services o.threshold pks
        = .ok b ↔
      Tss.ValidShares shares ∧ b = Tss.evalAt (Tss.sharePolys shares) 0 ∧
        pks.length = o.services.length ∧
        ∃ r, o.Opens b r ∧ o.SharesLieOn pks r (Tss.sharePolys shares) := by
  by_cases hv : Tss.ValidShares shares
  · obtain ⟨polynomial, hpoly, hp⟩ := Tss.interpolate_ok hv
    rw [IBEEncryptions.combineAndCheckShareConsistency, hpoly, ok_bind, hp, ok_bind, bind_eq_ok]
    simp only [decryptAllSharesAndVerifyNonce_eq_ok h]
    constructor
    · rintro ⟨-, ⟨r, hr, hlen, rfl⟩, hb⟩
      obtain ⟨inconsistent, hany, hiff⟩ := anyM_inconsistent o r pks hp
      rw [hany, ok_bind] at hb
      split_ifs at hb with hinc
      · cases hb
      · obtain rfl := Except.ok.inj hb
        exact ⟨hv, rfl, hlen, r, hr, hiff.mp (by simpa using hinc)⟩
    · rintro ⟨-, rfl, hlen, r, hr, hlie⟩
      obtain ⟨inconsistent, hany, hiff⟩ := anyM_inconsistent o r pks hp
      refine ⟨_, ⟨r, hr, hlen, rfl⟩, ?_⟩
      rw [hany, ok_bind, hiff.mpr hlie]
      rfl
  · rw [IBEEncryptions.combineAndCheckShareConsistency, Tss.interpolate_fail hv]
    simp [hv, fail]

theorem decryptShares_eq_ok {shares : List (Share 32)} :
    o.decryptShares M = .ok shares ↔
      o.encryptedShares.encryptedShares.length = o.services.length ∧
        o.threshold.toNat ≤ (o.covered M).length ∧ shares = o.usedShares M := by
  by_cases h : o.encryptedShares.encryptedShares.length = o.services.length ∧
      o.threshold.toNat ≤ (o.covered M).length
  · simp [decryptShares_ok h.1 h.2, h, eq_comm]
  · rw [decryptShares_fail (by omega)]
    constructor
    · intro hf
      cases hf
    · rintro ⟨h₁, h₂, -⟩
      exact absurd ⟨h₁, h₂⟩ h

/-- The checks before the shares are combined, followed by either combination. -/
theorem checked_eq_ok {k : List (Share 32) → FastCryptoResult Key} {b : Key} {Q : Prop}
    (hk : o.encryptedShares.encryptedShares.length = o.services.length →
      (k (o.usedShares M) = .ok b ↔ Tss.ValidShares (o.usedShares M) ∧ Q)) :
    (if o.version ≠ 0 then fail .invalidInput else o.decryptShares M >>= k) = .ok b ↔
      o.Usable M ∧ Q := by
  by_cases hver : o.version = 0
  · rw [if_neg (not_not.mpr hver), bind_eq_ok]
    simp only [decryptShares_eq_ok]
    constructor
    · rintro ⟨-, ⟨h, ht, rfl⟩, hb⟩
      obtain ⟨hv, hQ⟩ := (hk h).mp hb
      exact ⟨⟨hver, h, ht, hv⟩, hQ⟩
    · rintro ⟨hu, hQ⟩
      exact ⟨_, ⟨hu.aligned, hu.enough, rfl⟩, (hk hu.aligned).mpr ⟨hu.valid, hQ⟩⟩
  · rw [if_pos hver]
    constructor
    · intro hf
      cases hf
    · rintro ⟨hu, -⟩
      exact absurd hu.version hver

theorem recoverBaseKey_none_eq_ok {b : Key} :
    o.recoverBaseKey M none = .ok b ↔
      o.Usable M ∧ b = o.combinedKey M ∧ ∃ r, o.Opens b r :=
  checked_eq_ok fun h => combineAndVerifyNonce_eq_ok h

theorem recoverBaseKey_some_eq_ok {pks : IBEPublicKeys c} {b : Key} :
    o.recoverBaseKey M (some pks) = .ok b ↔
      o.Usable M ∧ b = o.combinedKey M ∧ pks.length = o.services.length ∧
        ∃ r, o.Opens b r ∧ o.SharesLieOn pks r (Tss.sharePolys (o.usedShares M)) :=
  checked_eq_ok fun h => combineAndCheckShareConsistency_eq_ok h

/-- Along both paths, recovery gives the combined key, and it opens the nonce. -/
theorem recoverBaseKey_spec {pks : Option (IBEPublicKeys c)} {b : Key}
    (h : o.recoverBaseKey M pks = .ok b) :
    o.Usable M ∧ b = o.combinedKey M ∧ ∃ r, o.Opens b r := by
  cases pks with
  | none => exact recoverBaseKey_none_eq_ok.mp h
  | some pks =>
    obtain ⟨hu, hb, -, r, hr, -⟩ := recoverBaseKey_some_eq_ok.mp h
    exact ⟨hu, hb, r, hr⟩

theorem demKey_ok (h : o.encryptedShares.encryptedShares.length = o.services.length) (b : Key) :
    o.demKey b = .ok (o.derivedKey .dem b) :=
  deriveKey_of_length (aligned_ids h)

end EncryptedObject

open EncryptedObject

variable {o : EncryptedObject c} {M : IBEUserSecretKeys c} {pks : Option (IBEPublicKeys c)}

theorem sealDecrypt_eq_ok {m : List UInt8} :
    sealDecrypt o M pks = .ok m ↔
      ∃ b, o.recoverBaseKey M pks = .ok b ∧
        o.ciphertext.decrypt c (o.derivedKey .dem b) = .ok m := by
  rw [sealDecrypt, bind_eq_ok]
  refine exists_congr fun b => and_congr_right fun hb => ?_
  rw [demKey_ok (recoverBaseKey_spec hb).1.aligned, ok_bind]

end PysuiCrypto
