import PysuiCrypto.RoundTrip

/-!
# Share consistency

The consistency check compares every service's share with the polynomials through all supplied
shares, whose degree is only bounded by the number of these. Another set of keys therefore
agrees exactly when the shares lie on polynomials whose degree is below the number of services
which that set covers.
-/
namespace PysuiCrypto

open Outcome EncryptedObject

variable {c : Platform}

/-- Polynomials through two sets of shares, of lower degree than one set each, are equal. -/
theorem Tss.polys_eq {n : ℕ} {xs ys : List (Share n)} {P Q : Fin n → Polynomial GF256}
    (hxs : Tss.ValidShares xs) (hys : Tss.ValidShares ys)
    (hP : ∀ b, (P b).degree < xs.length) (hQ : ∀ b, (Q b).degree < ys.length)
    (hPxs : ∀ s ∈ xs, Tss.evalAt P s.1 = s.2) (hPys : ∀ s ∈ ys, Tss.evalAt P s.1 = s.2)
    (hQxs : ∀ s ∈ xs, Tss.evalAt Q s.1 = s.2) (hQys : ∀ s ∈ ys, Tss.evalAt Q s.1 = s.2) :
    P = Q := by
  rcases le_total xs.length ys.length with hle | hle
  · have hP' : ∀ b, (P b).degree < ys.length := fun b => (hP b).trans_le (by exact_mod_cast hle)
    rw [Tss.eq_sharePolys hys hP' hPys, ← Tss.eq_sharePolys hys hQ hQys]
  · have hQ' : ∀ b, (Q b).degree < xs.length := fun b => (hQ b).trans_le (by exact_mod_cast hle)
    rw [Tss.eq_sharePolys hxs hP hPxs, ← Tss.eq_sharePolys hxs hQ' hQxs]

namespace EncryptedObject

/-- Keys for as many services as the threshold, and for one at least, with distinct nonzero
indices. -/
structure Covers (o : EncryptedObject c) (M : IBEUserSecretKeys c) : Prop where
  enough : max 1 o.threshold.toNat ≤ (o.covered M).length
  nonzero : ∀ s ∈ o.covered M, s.2 ≠ 0
  nodup : ((o.covered M).map Prod.snd).Nodup

variable {o : EncryptedObject c} {M M' : IBEUserSecretKeys c} {pks : IBEPublicKeys c}

theorem Covers.usable (h : o.Covers M) (hversion : o.version = 0)
    (haligned : o.encryptedShares.encryptedShares.length = o.services.length) : o.Usable M where
  version := hversion
  aligned := haligned
  enough := le_trans (le_max_right _ _) h.enough
  valid := by
    have henough := h.enough
    exact validShares_usedShares haligned (List.ne_nil_of_length_pos (by omega)) h.nonzero h.nodup

/-- The shares that the randomness of the nonce unlocks lie on polynomials of degree less than
the given number. -/
def SharesOfDegree (o : EncryptedObject c) (pks : IBEPublicKeys c) (d : ℕ) : Prop :=
  ∃ (r : c.Scalar) (P : Fin 32 → Polynomial GF256),
    r • c.g2Generator = o.encryptedShares.nonce ∧ (∀ k, (P k).degree < d) ∧
      o.SharesLieOn pks r P

/-- Acceptance bounds the degree by the number of covered services. -/
theorem sharesOfDegree_of_recoverBaseKey {b : Key} (h : o.recoverBaseKey M (some pks) = .ok b) :
    o.SharesOfDegree pks (o.covered M).length := by
  obtain ⟨hu, -, -, r, hr, hlie⟩ := recoverBaseKey_some_eq_ok.mp h
  refine ⟨r, _, hr.2, fun k => ?_, hlie⟩
  rw [← length_usedShares hu.aligned]
  exact Tss.degree_sharePolys_lt hu.valid k

/-- Keys for enough services to determine the polynomials recover the base key that other keys
recover. -/
theorem recoverBaseKey_of_sharesOfDegree {b : Key} (hM : o.CorrectKeys pks M)
    (hM' : o.CorrectKeys pks M') (hcov : o.Covers M') (hb : o.recoverBaseKey M (some pks) = .ok b)
    (hdegree : o.SharesOfDegree pks (o.covered M').length) :
    o.recoverBaseKey M' (some pks) = .ok b := by
  obtain ⟨hu, hkey, hpks, r, hr, hlie⟩ := recoverBaseKey_some_eq_ok.mp hb
  obtain ⟨r', P, hr', hdeg, hlie'⟩ := hdegree
  have hu' := hcov.usable hu.version hu.aligned
  rw [← length_usedShares hu.aligned] at hdeg
  have hP : P = Tss.sharePolys (o.usedShares M') :=
    Tss.eq_sharePolys hu'.valid hdeg (hM'.used_lie hpks hr' hlie')
  -- both families pass through the used shares of both maps
  have hPQ : P = Tss.sharePolys (o.usedShares M) :=
    Tss.polys_eq (P := P) (Q := Tss.sharePolys (o.usedShares M)) hu'.valid hu.valid hdeg
      (Tss.degree_sharePolys_lt hu.valid) (hM'.used_lie hpks hr' hlie')
      (hM.used_lie hpks hr' hlie') (hM'.used_lie hpks hr.2 hlie) (hM.used_lie hpks hr.2 hlie)
  rw [hP] at hPQ
  refine recoverBaseKey_some_eq_ok.mpr ⟨hu', ?_, hpks, r, hr, ?_⟩
  · rw [hkey, combinedKey, combinedKey, hPQ]
  · rw [hPQ]
    exact hlie

theorem sealDecrypt_iff_sharesOfDegree {m : List UInt8} (hM : o.CorrectKeys pks M)
    (hM' : o.CorrectKeys pks M') (hcov : o.Covers M')
    (hm : sealDecrypt o M (some pks) = .ok m) :
    sealDecrypt o M' (some pks) = .ok m ↔ o.SharesOfDegree pks (o.covered M').length := by
  obtain ⟨b, hb, hdec⟩ := sealDecrypt_eq_ok.mp hm
  constructor
  · intro hm'
    obtain ⟨b', hb', -⟩ := sealDecrypt_eq_ok.mp hm'
    exact sharesOfDegree_of_recoverBaseKey hb'
  · intro h
    exact sealDecrypt_eq_ok.mpr ⟨b, recoverBaseKey_of_sharesOfDegree hM hM' hcov hb h, hdec⟩

end EncryptedObject

/-- Among shares on polynomials, those with nonzero indices have distinct indices, once equal
shares are dropped. -/
theorem Tss.validShares_dedup {n : ℕ} {all : List (Share n)} {Q : Fin n → Polynomial GF256}
    (hlie : ∀ x ∈ all, Tss.evalAt Q x.1 = x.2) (hne : ∃ x ∈ all, x.1 ≠ 0) :
    Tss.ValidShares (all.filter fun x => x.1 ≠ 0).dedup := by
  have hmem : ∀ {x}, x ∈ (all.filter fun x => x.1 ≠ 0).dedup ↔ x ∈ all ∧ x.1 ≠ 0 := by
    intro x
    rw [List.mem_dedup, List.mem_filter, decide_eq_true_eq]
  refine ⟨?_, fun x hx => (hmem.mp hx).2, ?_⟩
  · obtain ⟨x, hx, hx0⟩ := hne
    exact List.ne_nil_of_mem (hmem.mpr ⟨hx, hx0⟩)
  · refine (List.nodup_dedup _).map_on fun x hx y hy hxy => Prod.ext hxy ?_
    rw [← hlie x (hmem.mp hx).1, ← hlie y (hmem.mp hy).1, hxy]

/-- If every subset of enough shares combines to the value at zero of polynomials through all
shares, these have a degree below the threshold. -/
theorem Tss.degree_lt_of_combine {n k : ℕ} {S : List (Share n)} {Q : Fin n → Polynomial GF256}
    (hS : Tss.ValidShares S) (hlie : ∀ x ∈ S, Tss.evalAt Q x.1 = x.2)
    (hdeg : ∀ b, (Q b).degree < S.length) (hk : 0 < k)
    (hcombine : ∀ xs, xs ⊆ S → Tss.ValidShares xs → k ≤ xs.length →
      Tss.combine xs = .ok (Tss.evalAt Q 0)) (b : Fin n) : (Q b).degree < k := by
  by_contra hge
  -- as many shares as the degree combine to another value
  obtain ⟨d, hd⟩ : ∃ d : ℕ, (Q b).degree = d := by
    refine ⟨(Q b).natDegree, Polynomial.degree_eq_natDegree ?_⟩
    intro hz
    rw [hz, Polynomial.degree_zero] at hge
    exact hge (WithBot.bot_lt_coe k)
  have hkd : k ≤ d := by
    rw [hd, not_lt] at hge
    exact_mod_cast hge
  have hdS : d < S.length := by
    have := hdeg b
    rw [hd] at this
    exact_mod_cast this
  have hlen : (S.take d).length = d := by simp [hdS.le]
  have hsub : S.take d ⊆ S := List.take_subset d S
  have hvalid : Tss.ValidShares (S.take d) :=
    ⟨List.ne_nil_of_length_pos (by omega), fun s hs => hS.nonzero s (hsub hs),
      hS.nodup.sublist ((List.take_sublist d S).map _)⟩
  have hok := hcombine _ hsub hvalid (by omega)
  rw [Tss.combine_ok hvalid] at hok
  exact Tss.evalAt_zero_ne hvalid b (by rw [hd, hlen]) (fun s hs => hlie s (hsub hs))
    (Except.ok.inj hok)

namespace EncryptedObject

variable {o : EncryptedObject c} {pks : IBEPublicKeys c}

/-- Supplied shares with indices of services, on polynomials through all services' shares, are
services' shares. -/
theorem supplied_subset {shares : List (Share 32)} {r : c.Scalar}
    {Q : Fin 32 → Polynomial GF256}
    (haligned : o.encryptedShares.encryptedShares.length = o.services.length)
    (hpks : pks.length = o.services.length)
    (hindices : ∀ x ∈ shares, x.1 ∈ o.services.map Prod.snd)
    (hshares : ∀ x ∈ shares, Tss.evalAt Q x.1 = x.2)
    (hall : ∀ x ∈ o.serverShares pks r, Tss.evalAt Q x.1 = x.2) :
    shares ⊆ o.serverShares pks r := by
  intro x hx
  obtain ⟨s, hs, hsx⟩ := List.mem_map.mp (hindices x hx)
  obtain ⟨i, hi⟩ := List.mem_iff_getElem?.mp hs
  have hlt := (List.getElem?_eq_some_iff.mp hi).1
  have hpk := List.getElem?_eq_getElem (show i < pks.length by omega)
  have hct := List.getElem?_eq_getElem
    (show i < o.encryptedShares.encryptedShares.length by omega)
  have hmem := mem_serverShares (r := r).mpr ⟨i, _, _, s, hpk, hct, hi, rfl⟩
  have heq : x = (s.2, _) := Prod.ext hsx.symm ((hshares x hx).symm.trans (hsx ▸ hall _ hmem))
  rw [heq]
  exact hmem

/-- After an accepted check, every enough services' shares combine to the accepted key exactly
when all shares lie on polynomials of degree below the threshold. -/
theorem combine_iff_degree_lt {shares all : List (Share 32)} {b : Key}
    (haligned : o.encryptedShares.encryptedShares.length = o.services.length)
    (hindices : ∀ x ∈ shares, x.1 ∈ o.services.map Prod.snd)
    (hok : o.encryptedShares.combineAndCheckShareConsistency shares o.fullId o.services
      o.threshold pks = .ok b)
    (hall : o.encryptedShares.decryptAllSharesAndVerifyNonce o.fullId o.services pks b
      o.threshold = .ok all) :
    (∀ xs, xs ⊆ all → Tss.ValidShares xs → o.threshold.toNat ≤ xs.length →
        Tss.combine xs = .ok b) ↔
      ∃ P : Fin 32 → Polynomial GF256,
        (∀ k, (P k).degree < (max 1 o.threshold.toNat : ℕ)) ∧
          ∀ x ∈ all, Tss.evalAt P x.1 = x.2 := by
  obtain ⟨hv, rfl, hpks, r, hr, hlie⟩ := (combineAndCheckShareConsistency_eq_ok haligned).mp hok
  obtain ⟨r', hr', -, rfl⟩ := (decryptAllSharesAndVerifyNonce_eq_ok haligned).mp hall
  obtain rfl : r = r' := Except.ok.inj (hr.1.symm.trans hr'.1)
  have hQ := sharesLieOn_iff.mp hlie
  have hQshares : ∀ x ∈ shares, Tss.evalAt (Tss.sharePolys shares) x.1 = x.2 :=
    fun x hx => Tss.evalAt_sharePolys hv hx
  have hsupplied := supplied_subset haligned hpks hindices hQshares hQ
  constructor
  · intro hcombine
    obtain ⟨x, hx⟩ := List.exists_mem_of_ne_nil _ hv.nonempty
    have hS := Tss.validShares_dedup hQ ⟨x, hsupplied hx, hv.nonzero x hx⟩
    have hsub : ∀ {y}, y ∈ ((o.serverShares pks r).filter fun x => x.1 ≠ 0).dedup →
        y ∈ o.serverShares pks r := fun hy => List.mem_of_mem_filter (List.mem_dedup.mp hy)
    have hlen : shares.length ≤ ((o.serverShares pks r).filter fun x => x.1 ≠ 0).dedup.length := by
      refine (hv.nodup.of_map.subperm fun y hy => ?_).length_le
      exact List.mem_dedup.mpr (List.mem_filter.mpr
        ⟨hsupplied hy, decide_eq_true (hv.nonzero y hy)⟩)
    refine ⟨_, Tss.degree_lt_of_combine hS (fun y hy => hQ y (hsub hy)) (fun k =>
      (Tss.degree_sharePolys_lt hv k).trans_le (by exact_mod_cast hlen)) (by omega) ?_, hQ⟩
    intro xs hxs hvalid hk
    exact hcombine xs (fun y hy => hsub (hxs hy)) hvalid (by omega)
  · rintro ⟨P, hdeg, hP⟩ xs hxs hvalid ht
    have hpos := List.length_pos_iff.mpr hvalid.nonempty
    have hdeg' : ∀ k, (P k).degree < xs.length := fun k =>
      (hdeg k).trans_le (by exact_mod_cast show max 1 o.threshold.toNat ≤ xs.length by omega)
    have hPQ : P = Tss.sharePolys shares :=
      Tss.polys_eq hvalid hv hdeg' (Tss.degree_sharePolys_lt hv) (fun s hs => hP s (hxs hs))
        (fun s hs => hP s (hsupplied hs)) (fun s hs => hQ s (hxs hs)) hQshares
    rw [Tss.combine_ok hvalid, ← Tss.eq_sharePolys hvalid hdeg' fun s hs => hP s (hxs hs), hPQ]

end EncryptedObject

/-- When a decryption with public keys succeeds, other correct keys decrypt to the same message
exactly when the shares lie on polynomials of degree less than the number of services that the
other keys cover. When the consistency check accepts a base key, every set of enough services
with distinct nonzero indices combines to it exactly when the shares lie on polynomials of
degree less than the threshold. -/
theorem consistency_iff_sharesOfDegree (o : EncryptedObject c) (pks : IBEPublicKeys c) :
    (∀ (M M' : IBEUserSecretKeys c) (m : List UInt8), o.CorrectKeys pks M →
      o.CorrectKeys pks M' → o.Covers M' → sealDecrypt o M (some pks) = .ok m →
      (sealDecrypt o M' (some pks) = .ok m ↔ o.SharesOfDegree pks (o.covered M').length)) ∧
    ∀ (shares all : List (Share 32)) (b : Key),
      o.encryptedShares.encryptedShares.length = o.services.length →
      (∀ x ∈ shares, x.1 ∈ o.services.map Prod.snd) →
      o.encryptedShares.combineAndCheckShareConsistency shares o.fullId o.services o.threshold
        pks = .ok b →
      o.encryptedShares.decryptAllSharesAndVerifyNonce o.fullId o.services pks b o.threshold =
        .ok all →
      ((∀ xs, xs ⊆ all → Tss.ValidShares xs → o.threshold.toNat ≤ xs.length →
          Tss.combine xs = .ok b) ↔
        ∃ P : Fin 32 → Polynomial GF256,
          (∀ k, (P k).degree < (max 1 o.threshold.toNat : ℕ)) ∧
            ∀ x ∈ all, Tss.evalAt P x.1 = x.2) :=
  ⟨fun _ _ _ hM hM' hcov hm => sealDecrypt_iff_sharesOfDegree hM hM' hcov hm,
    fun _ _ _ haligned hindices hok hall => combine_iff_degree_lt haligned hindices hok hall⟩

def linePublicKeys : IBEPublicKeys (exponentPlatform true) := examplePublicKeys.take 2

/-- Two services whose shares are their indices in every byte, for a base key of zeros: the
shares lie on a line, and the threshold is one. -/
def lineObject : EncryptedObject (exponentPlatform true) :=
  let fullId := createFullId (exampleId 0).bytes [1, 2, 3, 4]
  let services := [(exampleId 1, 1), (exampleId 2, 2)]
  let encryptedShares := (services.zip linePublicKeys).map fun (s, pk) =>
    Ibe.unmask (c := exponentPlatform true) 1
      (Vector.replicate 32 s.2) pk fullId s
  { version := 0
    packageId := exampleId 0
    id := [1, 2, 3, 4]
    services := services
    threshold := 1
    encryptedShares := {
      nonce := (1 : (exponentPlatform true).Scalar) • (exponentPlatform true).g2Generator
      encryptedShares := encryptedShares
      encryptedRandomness := Vector.zipWith (· ^^^ ·)
        ((exponentPlatform true).sha3_256 (deriveKeyInput .encryptedRandomness
          (Vector.replicate 32 0) encryptedShares 1 (services.map Prod.fst)))
        ((exponentPlatform true).scalarToByteArray 1) }
    ciphertext := .plain }

/-- The key of the first service. -/
def lineKeyOfOne : IBEUserSecretKeys (exponentPlatform true) :=
  (∅ : AList _).insert (exampleId 1) (Ibe.extract (exponentPlatform true) (5 : ℕ) lineObject.fullId)

/-- The keys of both services. -/
def lineKeys : IBEUserSecretKeys (exponentPlatform true) :=
  lineKeyOfOne.insert (exampleId 2) (Ibe.extract (exponentPlatform true) (7 : ℕ) lineObject.fullId)

theorem lineObject_lie : lineObject.SharesLieOn linePublicKeys 1 fun _ => Polynomial.X := by
  intro i pk ciphertext s hpk hct hs
  simp only [lineObject, List.getElem?_map, Option.map_eq_some_iff] at hct
  obtain ⟨⟨s', pk'⟩, hzip, rfl⟩ := hct
  obtain ⟨hs', hpk'⟩ := List.getElem?_zip_eq_some.mp hzip
  obtain rfl : s = s' := Option.some.inj (hs.symm.trans hs')
  obtain rfl : pk = pk' := Option.some.inj (hpk.symm.trans hpk')
  have hX : Tss.evalAt (fun _ => Polynomial.X) s.2 = Vector.replicate 32 s.2 := by
    ext k hk
    simp [Tss.evalAt]
  rw [hX]
  exact (zipWith_xor_cancel _ _).symm

theorem lineObject_opens : lineObject.Opens (Vector.replicate 32 0) 1 := by
  obtain ⟨masked, hmask, hunmask⟩ := Ibe.decryptRandomness_encryptRandomness
    (exponentPlatform_scalarRoundTrip true) 1
    (lineObject.derivedKey .encryptedRandomness (Vector.replicate 32 0))
  rw [Ibe.encryptRandomness_eq] at hmask
  obtain rfl := Except.ok.inj hmask
  exact ⟨hunmask, rfl⟩

/-- The keys of a map that sends both services to their extracted keys are correct. -/
theorem lineObject_correctKeys {M : IBEUserSecretKeys (exponentPlatform true)}
    (h1 : exampleId 1 ∈ M → M.lookup (exampleId 1) =
      some (Ibe.extract (exponentPlatform true) (5 : ℕ) lineObject.fullId))
    (h2 : exampleId 2 ∈ M → M.lookup (exampleId 2) =
      some (Ibe.extract (exponentPlatform true) (7 : ℕ) lineObject.fullId)) :
    lineObject.CorrectKeys linePublicKeys M := by
  refine correctKeys_extract (exampleMasterKeys.take 2) rfl ?_
  intro i s mk hs hmk hmem
  match i with
  | 0 =>
    obtain rfl := Option.some.inj hs
    obtain rfl := Option.some.inj hmk
    exact h1 hmem
  | 1 =>
    obtain rfl := Option.some.inj hs
    obtain rfl := Option.some.inj hmk
    exact h2 hmem
  | i + 2 => cases hs

theorem lineKeys_correct : lineObject.CorrectKeys linePublicKeys lineKeys :=
  lineObject_correctKeys
    (fun _ => by rw [lineKeys, AList.lookup_insert_ne (by decide), lineKeyOfOne, AList.lookup_insert])
    (fun _ => by rw [lineKeys, AList.lookup_insert])

theorem lineKeyOfOne_correct : lineObject.CorrectKeys linePublicKeys lineKeyOfOne :=
  lineObject_correctKeys (fun _ => by rw [lineKeyOfOne, AList.lookup_insert])
    (fun h => absurd h (by decide))

theorem lineKeys_covers : lineObject.Covers lineKeys := ⟨by decide, by decide, by decide⟩

theorem lineKeyOfOne_covers : lineObject.Covers lineKeyOfOne := ⟨by decide, by decide, by decide⟩

/-- Both keys together are accepted: two shares always lie on a line. -/
theorem sealDecrypt_lineKeys : ∃ m, sealDecrypt lineObject lineKeys (some linePublicKeys) = .ok m := by
  have hu := lineKeys_covers.usable rfl rfl
  have hr := lineObject_opens
  have hpoly : Tss.sharePolys (lineObject.usedShares lineKeys) = fun _ => Polynomial.X := by
    refine (Tss.eq_sharePolys hu.valid (fun _ => ?_)
      (lineKeys_correct.used_lie rfl hr.2 lineObject_lie)).symm
    rw [length_usedShares rfl, Polynomial.degree_X]
    exact_mod_cast show 1 < (lineObject.covered lineKeys).length by decide
  have hzero : Vector.replicate 32 0 = lineObject.combinedKey lineKeys := by
    rw [combinedKey, hpoly]
    ext k hk
    simp [Tss.evalAt]
  exact ⟨_, sealDecrypt_eq_ok.mpr ⟨_, recoverBaseKey_some_eq_ok.mpr
    ⟨hu, hzero, rfl, 1, hr, hpoly ▸ lineObject_lie⟩, rfl⟩⟩

/-- Of two sets of correct keys, each enough for the threshold, one decrypts and the other
does not. -/
theorem consistency_depends_on_keys :
    lineObject.CorrectKeys linePublicKeys lineKeys ∧
      lineObject.CorrectKeys linePublicKeys lineKeyOfOne ∧ lineObject.Covers lineKeys ∧
      lineObject.Covers lineKeyOfOne ∧
      ∃ m, sealDecrypt lineObject lineKeys (some linePublicKeys) = .ok m ∧
        sealDecrypt lineObject lineKeyOfOne (some linePublicKeys) ≠ .ok m := by
  obtain ⟨m, hm⟩ := sealDecrypt_lineKeys
  refine ⟨lineKeys_correct, lineKeyOfOne_correct, lineKeys_covers, lineKeyOfOne_covers, m, hm, ?_⟩
  rw [Ne, sealDecrypt_iff_sharesOfDegree lineKeys_correct lineKeyOfOne_correct lineKeyOfOne_covers
    hm]
  rintro ⟨r, P, hr, hdeg, hlie⟩
  obtain rfl : r = 1 := exponentPlatform_nonceInjective true hr
  -- polynomials of degree less than one take one value
  have hconst : Tss.evalAt P 1 = Tss.evalAt P 2 := by
    ext k hk
    have hC := Polynomial.eq_C_of_degree_le_zero (p := P ⟨k, hk⟩)
      (Nat.WithBot.lt_one_iff_le_zero.mp (hdeg ⟨k, hk⟩))
    rw [Tss.evalAt, Tss.evalAt, Vector.getElem_ofFn, Vector.getElem_ofFn, hC, Polynomial.eval_C,
      Polynomial.eval_C]
  have h1 : Tss.evalAt P 1 = Tss.evalAt (fun _ => Polynomial.X) 1 :=
    (hlie 0 _ _ _ rfl rfl rfl).trans (lineObject_lie 0 _ _ _ rfl rfl rfl).symm
  have h2 : Tss.evalAt P 2 = Tss.evalAt (fun _ => Polynomial.X) 2 :=
    (hlie 1 _ _ _ rfl rfl rfl).trans (lineObject_lie 1 _ _ _ rfl rfl rfl).symm
  have h12 := congrArg (fun v : Key => v[0]) (h1.symm.trans (hconst.trans h2))
  simp [Tss.evalAt] at h12

end PysuiCrypto
