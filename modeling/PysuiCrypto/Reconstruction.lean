import PysuiCrypto.TssSplit

/-!
# Reconstruction of a secret

The two reconstructions accept the same lists of shares and agree on them, in any order; and
both return the secret from as many shares of a sharing as its threshold, or more.
-/
namespace PysuiCrypto.Tss

open Outcome Polynomial

variable {n : ℕ}

theorem not_validShares_iff {α : Type} {shares : List (UInt8 × α)} :
    ¬ ValidShares shares ↔
      shares = [] ∨ (∃ s ∈ shares, s.1 = 0) ∨ ¬ (shares.map Prod.fst).Nodup := by
  rw [validShares_iff, not_not]
  simp

theorem ValidShares.perm {α : Type} {shares shares' : List (UInt8 × α)} (h : ValidShares shares)
    (hperm : shares.Perm shares') : ValidShares shares' where
  nonempty hnil := h.nonempty (List.perm_nil.mp (hnil ▸ hperm))
  nonzero s hs := h.nonzero s (hperm.mem_iff.mpr hs)
  nodup := (hperm.map Prod.fst).nodup_iff.mp h.nodup

/-- On valid shares, interpolation returns the map that evaluates their polynomials. -/
theorem interpolate_eq {shares : List (Share n)} (h : ValidShares shares) :
    interpolate shares = .ok fun x => .ok (evalAt (sharePolys shares) x) := by
  obtain ⟨f, hf, hval⟩ := interpolate_ok h
  rw [hf]
  exact congrArg Except.ok (funext hval)

theorem interpolate_fails_iff {shares : List (Share n)} :
    (∃ e, interpolate shares = fail e) ↔ ¬ ValidShares shares :=
  fails_iff_not (fun hv => ⟨_, interpolate_eq hv⟩) fun hv => ⟨_, interpolate_fail hv⟩

theorem combine_fails_iff (hn : n ≠ 0) {shares : List (Share n)} :
    (∃ e, combine shares = fail e) ↔ ¬ ValidShares shares :=
  fails_iff_not (fun hv => ⟨_, combine_ok hv⟩) fun hv => ⟨_, combine_fail hn hv⟩

theorem combine_perm (hn : n ≠ 0) {shares shares' : List (Share n)}
    (hperm : shares.Perm shares') : combine shares' = combine shares := by
  by_cases hv : ValidShares shares
  · rw [combine_ok hv, combine_ok (hv.perm hperm), sharePolys_perm hv hperm]
  · rw [combine_fail hn hv, combine_fail hn fun hv' => hv (hv'.perm hperm.symm)]

theorem interpolate_perm {shares shares' : List (Share n)} (hperm : shares.Perm shares') :
    interpolate shares' = interpolate shares := by
  by_cases hv : ValidShares shares
  · rw [interpolate_eq hv, interpolate_eq (hv.perm hperm), sharePolys_perm hv hperm]
  · rw [interpolate_fail hv, interpolate_fail fun hv' => hv (hv'.perm hperm.symm)]

/-- On every list of shares of positive length the two reconstructions report an error
together, namely on no shares, on an index zero and on equal indices; otherwise combining gives
the value at zero of the interpolation. The order of the shares does not matter to either. -/
theorem combine_interpolate (hn : n ≠ 0) (shares : List (Share n)) :
    ((∃ e, combine shares = fail e) ↔ ∃ e, interpolate shares = fail e) ∧
    ((∃ e, interpolate shares = fail e) ↔
      shares = [] ∨ (∃ s ∈ shares, s.1 = 0) ∨ ¬ (shares.map Prod.fst).Nodup) ∧
    ((¬ ∃ e, interpolate shares = fail e) → ∃ polynomial secret,
      interpolate shares = .ok polynomial ∧ polynomial 0 = .ok secret ∧
        combine shares = .ok secret) ∧
    ∀ shares' : List (Share n), shares.Perm shares' →
      combine shares' = combine shares ∧ interpolate shares' = interpolate shares := by
  refine ⟨(combine_fails_iff hn).trans interpolate_fails_iff.symm,
    interpolate_fails_iff.trans not_validShares_iff, fun hok => ?_,
    fun shares' hperm => ⟨combine_perm hn hperm, interpolate_perm hperm⟩⟩
  have hv : ValidShares shares := not_not.mp (mt interpolate_fails_iff.mpr hok)
  exact ⟨_, _, interpolate_eq hv, rfl, combine_ok hv⟩

theorem combine_interpolate_example :
    (∃ e, combine [(1, #v[2]), (1, #v[3])] = fail e) ∧
      combine [(2, #v[7]), (1, #v[2])] = combine [(1, #v[2]), (2, #v[7])] := by
  obtain ⟨hiff, herr, -⟩ := combine_interpolate (n := 1) (by decide) [(1, #v[2]), (1, #v[3])]
  obtain ⟨-, -, -, hperm⟩ := combine_interpolate (n := 1) (by decide) [(1, #v[2]), (2, #v[7])]
  exact ⟨hiff.mpr (herr.mpr (.inr (.inr (by decide)))), (hperm _ (List.Perm.swap _ _ [])).1⟩

/-- The elements at distinct positions of a list without duplicates are distinct. -/
theorem nodup_of_positions {α : Type} {zs xs : List α} {positions : List ℕ} (hzs : zs.Nodup)
    (hpos : positions.Nodup) (h : xs.map some = positions.map fun p => zs[p]?) : xs.Nodup := by
  apply List.Nodup.of_map some
  rw [h]
  apply hpos.map_on
  intro p hp q _ hpq
  obtain ⟨x, -, hx⟩ := List.mem_map.mp (h ▸ List.mem_map_of_mem (f := fun p => zs[p]?) hp)
  exact (List.getElem?_inj (List.getElem?_eq_some_iff.mp hx.symm).1 hzs).mp hpq

/-- The list of the shares at the given positions of a sharing, with their indices. -/
def SharesAt (s : SecretSharing n) (positions : List ℕ) (xs : List (Share n)) : Prop :=
  xs.map some = positions.map fun p => (s.indices.zip s.shares)[p]?

theorem SharesAt.length_eq {s : SecretSharing n} {positions : List ℕ} {xs : List (Share n)}
    (h : SharesAt s positions xs) : xs.length = positions.length := by
  simpa using congrArg List.length h

/-- Shares of polynomials at distinct positions are valid and lie on the polynomials. -/
theorem SharesAt.valid {s : SecretSharing n} {positions : List ℕ} {xs : List (Share n)}
    {count : UInt8} {P : Fin n → GF256[X]} (h : SharesAt s positions xs)
    (hpos : positions.Nodup) (hxs : xs ≠ []) (hindices : s.indices = shareIndices count)
    (hshares : s.shares = (shareIndices count).map (evalAt P)) :
    ValidShares xs ∧ ∀ x ∈ xs, evalAt P x.1 = x.2 := by
  rw [SharesAt, hindices, hshares] at h
  have hmem : ∀ x ∈ xs, x.1 ∈ shareIndices count ∧ evalAt P x.1 = x.2 := by
    intro x hx
    obtain ⟨p, -, hp⟩ := List.mem_map.mp (h ▸ List.mem_map_of_mem (f := some) hx)
    have hzip := List.mem_of_getElem? hp
    rw [← List.map_prod_left_eq_zip, List.mem_map] at hzip
    obtain ⟨i, hi, rfl⟩ := hzip
    exact ⟨hi, rfl⟩
  have hfst : (xs.map Prod.fst).map some = positions.map fun p => (shareIndices count)[p]? := by
    have hmap := congrArg (List.map (Option.map Prod.fst)) h
    rw [List.map_map, List.map_map] at hmap
    rw [List.map_map]
    refine hmap.trans (List.map_congr_left fun p _ => ?_)
    rw [Function.comp_apply, ← List.getElem?_map, List.map_fst_zip (by simp)]
  exact ⟨⟨hxs, fun x hx => (mem_shareIndices.mp (hmem x hx).1).1,
    nodup_of_positions (nodup_shareIndices count) hpos hfst⟩, fun x hx => (hmem x hx).2⟩

variable {R : Type} [AllowedRng R]

/-- A secret that is split is reconstructed by both functions from the shares at any distinct
positions, in any order, if they are as many as the threshold; and the interpolation returns
every share of the sharing at its index. -/
theorem split_reconstruct (rng : R) (secret : Vector UInt8 n) (threshold count : UInt8)
    (hn : 1 ≤ n) (ht : 1 ≤ threshold.toNat) (htn : threshold.toNat ≤ count.toNat) :
    ∃ s rng', split rng secret threshold count = .ok (s, rng') ∧
      s.indices = (List.range count.toNat).map (fun k => UInt8.ofNat (k + 1)) ∧
      s.indices.Nodup ∧ (∀ i ∈ s.indices, i ≠ 0) ∧ s.shares.length = count.toNat ∧
      ∀ (positions : List ℕ) (xs : List (Share n)), positions.Nodup → SharesAt s positions xs →
        threshold.toNat ≤ xs.length →
        combine xs = .ok secret ∧ ∃ polynomial, interpolate xs = .ok polynomial ∧
          polynomial 0 = .ok secret ∧
          ∀ (k : ℕ) i share, s.indices[k]? = some i → s.shares[k]? = some share →
            polynomial i = .ok share := by
  have ht0 : threshold ≠ 0 := toNat_pos_iff.mp ht
  refine ⟨_, _, split_ok rng secret (by omega) ht0 (UInt8.le_iff_toNat_le.mpr htn), rfl,
    nodup_shareIndices count, fun i hi => (mem_shareIndices.mp hi).1, by simp, ?_⟩
  intro positions xs hpos hat hlen
  set P := splitPolys secret (drawRows (threshold.toNat - 1) n rng).1
  have hne : xs ≠ [] := List.ne_nil_of_length_pos (by omega)
  obtain ⟨hv, hlie⟩ := hat.valid hpos hne rfl rfl
  have hdeg : ∀ b, (P b).degree < xs.length := by
    intro b
    have hb : (P b).degree < (threshold.toNat - 1 + 1 : ℕ) :=
      degree_splitPolys_lt secret (fun row => length_of_mem_drawRows) b
    rw [Nat.sub_add_cancel ht] at hb
    exact hb.trans_le (by exact_mod_cast hlen)
  have hP : sharePolys xs = P := (eq_sharePolys hv hdeg hlie).symm
  have hzero : evalAt P 0 = secret := evalAt_splitPolys_zero _ _
  refine ⟨by rw [combine_ok hv, hP, hzero], _, interpolate_eq hv, by rw [hP, hzero], ?_⟩
  intro k i share hi hshare
  rw [List.getElem?_map, hi, Option.map_some, Option.some_inj] at hshare
  rw [hP, hshare]

/-- The last and the first of three shares with threshold two. -/
theorem split_reconstruct_example :
    ∃ s rng', split ([1] : List UInt8) #v[5] 2 3 = .ok (s, rng') ∧
      ∀ xs, SharesAt s [2, 0] xs → combine xs = .ok #v[5] := by
  obtain ⟨s, rng', hs, -, -, -, -, h⟩ :=
    split_reconstruct ([1] : List UInt8) #v[5] 2 3 (by decide) (by decide) (by decide)
  refine ⟨s, rng', hs, fun xs hat => (h [2, 0] xs (by decide) hat ?_).1⟩
  rw [hat.length_eq]
  decide

end PysuiCrypto.Tss
