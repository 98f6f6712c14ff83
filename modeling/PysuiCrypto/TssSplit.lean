import PysuiCrypto.Tss

/-!
# What `split` returns

On a satisfiable threshold the call returns, and its shares are the values of one polynomial
per secret byte: the byte is the constant term and the drawn bytes are the other coefficients.
-/
namespace PysuiCrypto.Tss

open Outcome Polynomial

variable {R : Type} [AllowedRng R] {n : ℕ}

@[simp] theorem length_shareIndices (count : UInt8) :
    (shareIndices count).length = count.toNat := by simp [shareIndices]

theorem mem_shareIndices {count i : UInt8} : i ∈ shareIndices count ↔ i ≠ 0 ∧ i ≤ count := by
  have hcount := count.toNat_lt
  simp only [shareIndices, List.mem_map, List.mem_range, ne_eq, UInt8.le_iff_toNat_le]
  constructor
  · rintro ⟨k, hk, rfl⟩
    have hval : (UInt8.ofNat (k + 1)).toNat = k + 1 :=
      UInt8.toNat_ofNat_of_lt' (lt_of_le_of_lt hk hcount)
    refine ⟨fun hz => ?_, by omega⟩
    have := congrArg UInt8.toNat hz
    rw [hval] at this
    simp at this
  · rintro ⟨h0, hle⟩
    have hpos := toNat_pos_iff.mpr h0
    refine ⟨i.toNat - 1, by omega, ?_⟩
    rw [Nat.sub_add_cancel (by omega), UInt8.ofNat_toNat]

theorem nodup_shareIndices (count : UInt8) : (shareIndices count).Nodup := by
  have hcount := count.toNat_lt
  apply List.Nodup.map_on _ List.nodup_range
  have hval : ∀ k ∈ List.range count.toNat, (UInt8.ofNat (k + 1)).toNat = k + 1 := by
    intro k hk
    exact UInt8.toNat_ofNat_of_lt' (lt_of_le_of_lt (List.mem_range.mp hk) hcount)
  intro i hi j hj hij
  have hnat := congrArg UInt8.toNat hij
  rw [hval i hi, hval j hj] at hnat
  exact Nat.succ_injective hnat

theorem length_randMany (count : ℕ) (rng : R) : (randMany count rng).1.length = count := by
  induction count generalizing rng with
  | zero => rfl
  | succ count ih => simp [randMany, ih]

/-- The coefficients drawn for `rows` secret bytes, `count` for each. -/
def drawRows (count : ℕ) : ℕ → R → List (List GF256) × R
  | 0, rng => ([], rng)
  | rows + 1, rng =>
    let (row, rng) := randMany count rng
    let (rest, rng) := drawRows count rows rng
    (row :: rest, rng)

theorem length_drawRows (count rows : ℕ) (rng : R) :
    (drawRows count rows rng).1.length = rows := by
  induction rows generalizing rng with
  | zero => rfl
  | succ rows ih => simp [drawRows, ih]

theorem length_of_mem_drawRows {count rows : ℕ} {rng : R} {row : List GF256}
    (h : row ∈ (drawRows count rows rng).1) : row.length = count := by
  induction rows generalizing rng with
  | zero => simp [drawRows] at h
  | succ rows ih =>
    rcases List.mem_cons.mp h with rfl | h
    · exact length_randMany _ _
    · exact ih h

/-- The shares of one byte under drawn coefficients. -/
noncomputable def shareRow (indices : List UInt8) (b : UInt8) (row : List GF256) : List UInt8 :=
  indices.map fun i => ((CoeffList.toPoly (⟨b⟩ :: row)).eval ⟨i⟩).val

theorem splitByte_ok (rng : R) (secret : UInt8) {threshold count : UInt8} (ht : threshold ≠ 0)
    (htn : threshold ≤ count) :
    splitByte rng secret threshold (shareIndices count) =
      .ok (shareRow (shareIndices count) secret (randMany (threshold.toNat - 1) rng).1,
        (randMany (threshold.toNat - 1) rng).2) := by
  have hlen : UInt8.ofNat (shareIndices count).length = count := by simp
  have hc : count ≠ 0 := by
    rintro rfl
    exact ht (UInt8.le_zero_iff.mp htn)
  have hpos : 1 ≤ threshold.toNat :=
    toNat_pos_iff.mpr ht
  have hzero : (0 : UInt8) ∉ shareIndices count := fun hm => (mem_shareIndices.mp hm).1 rfl
  have hcond : ¬ (threshold = 0 ∨ count = 0 ∨ count < threshold ∨ 0 ∈ shareIndices count ∨
      ¬ (shareIndices count).Nodup) := by
    simp [ht, hc, hzero, nodup_shareIndices, UInt8.not_lt.mpr htn]
  simp only [splitByte, hlen, if_neg hcond, checkedSub_of_le hpos, ok_bind]
  rw [mapM_eq_ok (g := fun i => ((CoeffList.toPoly
    (⟨secret⟩ :: (randMany (threshold.toNat - 1) rng).1)).eval ⟨i⟩).val)]
  · rfl
  · intro i _
    rw [GFPolynomial.evaluate_eq]
    rfl

theorem splitBytes_ok (rng : R) (bytes : List UInt8) {threshold count : UInt8}
    (ht : threshold ≠ 0) (htn : threshold ≤ count) :
    splitBytes rng threshold (shareIndices count) bytes =
      .ok (List.zipWith (shareRow (shareIndices count)) bytes
        (drawRows (threshold.toNat - 1) bytes.length rng).1,
        (drawRows (threshold.toNat - 1) bytes.length rng).2) := by
  induction bytes generalizing rng with
  | nil => rfl
  | cons b bs ih =>
    rw [splitBytes, splitByte_ok rng b ht htn, ok_bind]
    simp only [ih, ok_bind]
    rfl

/-- The polynomials of a sharing: constant term the secret byte, then the drawn row. -/
noncomputable def splitPolys (secret : Vector UInt8 n) (rows : List (List GF256)) (b : Fin n) :
    GF256[X] :=
  CoeffList.toPoly (byteAt secret b :: rows.getD b [])

theorem evalAt_splitPolys_zero (secret : Vector UInt8 n) (rows : List (List GF256)) :
    evalAt (splitPolys secret rows) 0 = secret := by
  apply ext_byteAt
  intro b
  rw [byteAt_evalAt]
  simp [splitPolys]

theorem degree_splitPolys_lt (secret : Vector UInt8 n) {rows : List (List GF256)} {count : ℕ}
    (hrows : ∀ row ∈ rows, row.length = count) (b : Fin n) :
    (splitPolys secret rows b).degree < (count + 1 : ℕ) := by
  refine (CoeffList.degree_toPoly_lt _).trans_le ?_
  have hle : (rows.getD b []).length ≤ count := by
    by_cases hb : b.val < rows.length
    · rw [List.getD_eq_getElem _ _ hb]
      exact (hrows _ (List.getElem_mem hb)).le
    · rw [List.getD_eq_default _ _ (by omega)]
      simp
  rw [List.length_cons]
  exact_mod_cast Nat.succ_le_succ hle

/-- The call returns the values of the drawn polynomials at the indices one to `count`. -/
theorem split_ok (rng : R) (secret : Vector UInt8 n) (hn : n ≠ 0) {threshold count : UInt8}
    (ht : threshold ≠ 0) (htn : threshold ≤ count) :
    split rng secret threshold count =
      .ok (⟨secret, shareIndices count, (shareIndices count).map
        (evalAt (splitPolys secret (drawRows (threshold.toNat - 1) n rng).1))⟩,
        (drawRows (threshold.toNat - 1) n rng).2) := by
  have hcond : ¬ (count < threshold ∨ threshold = 0) := by
    simp [ht, UInt8.not_lt.mpr htn]
  have hmatrix : List.zipWith (shareRow (shareIndices count)) secret.toList
      (drawRows (threshold.toNat - 1) n rng).1 =
      (List.finRange n).map fun b => (shareIndices count).map fun i =>
        ((splitPolys secret (drawRows (threshold.toNat - 1) n rng).1 b).eval ⟨i⟩).val := by
    apply List.ext_getElem
    · simp [length_drawRows]
    · intro b h₁ h₂
      simp only [List.length_map, List.length_finRange] at h₂
      simp [shareRow, splitPolys, byteAt, List.getElem?_eq_getElem
        (show b < (drawRows (threshold.toNat - 1) n rng).1.length by rwa [length_drawRows])]
  simp only [split, if_neg hcond, splitBytes_ok rng secret.toList ht htn, ok_bind,
    Vector.length_toList, hmatrix, transpose_map hn]
  rfl

end PysuiCrypto.Tss
