import Mathlib

/-!
# Coefficient lists and the polynomials they denote

A list of coefficients, lowest degree first, denotes a polynomial. Horner evaluation,
scaling, stripping, termwise addition and convolution of lists are matched with the ring
operations, so a proof about an algorithm on lists is a proof about polynomials.
-/
namespace PysuiCrypto.CoeffList

open Polynomial

variable {R : Type*} [CommRing R]

noncomputable def toPoly : List R → R[X]
  | [] => 0
  | a :: as => C a + X * toPoly as

@[simp] theorem toPoly_nil : toPoly ([] : List R) = 0 := rfl

@[simp] theorem toPoly_cons (a : R) (as : List R) : toPoly (a :: as) = C a + X * toPoly as := rfl

@[simp] theorem coeff_toPoly (as : List R) (n : ℕ) : (toPoly as).coeff n = as.getD n 0 := by
  induction as generalizing n with
  | nil => simp
  | cons a as ih =>
    cases n with
    | zero => simp
    | succ n => simp [coeff_C_succ, coeff_X_mul, ih]

theorem degree_toPoly_lt (as : List R) : (toPoly as).degree < as.length := by
  rw [degree_lt_iff_coeff_zero]
  intro n hn
  simp [List.getElem?_eq_none hn]

theorem eval_toPoly_ofFn {m : ℕ} (f : Fin m → R) (x : R) :
    (toPoly (List.ofFn f)).eval x = ∑ j, f j * x ^ j.val := by
  induction m with
  | zero => simp
  | succ m ih =>
    rw [List.ofFn_succ, toPoly_cons, eval_add, eval_C, eval_mul, eval_X, ih, Fin.sum_univ_succ,
      Finset.mul_sum]
    congr 1
    · simp
    · exact Finset.sum_congr rfl fun j _ => by rw [Fin.val_succ]; ring

/-- Horner's rule, from the highest coefficient down. -/
theorem foldl_reverse_eq_eval (as : List R) (x : R) :
    as.reverse.foldl (fun sum a => sum * x + a) 0 = (toPoly as).eval x := by
  induction as with
  | nil => simp
  | cons a as ih =>
    rw [List.reverse_cons, List.foldl_append, ih]
    simp only [List.foldl_cons, List.foldl_nil, toPoly_cons, eval_add, eval_C, eval_mul, eval_X]
    ring

theorem toPoly_map_mul (as : List R) (s : R) :
    toPoly (as.map (· * s)) = toPoly as * C s := by
  induction as with
  | nil => simp
  | cons a as ih =>
    simp only [List.map_cons, toPoly_cons, ih, C_mul]
    ring

theorem toPoly_concat_zero (as : List R) : toPoly (as ++ [0]) = toPoly as := by
  induction as with
  | nil => simp
  | cons a as ih => simp [ih]

/-- A coefficient list without a trailing zero. -/
def Stripped (as : List R) : Prop := as.getLast? ≠ some 0

/-- Without a trailing zero, the number of coefficients is bounded by the degree. -/
theorem Stripped.length_le {as : List R} (h : Stripped as) {m : ℕ}
    (hdeg : (toPoly as).degree < m) : as.length ≤ m := by
  by_contra hlt
  have hlast : as.getD (as.length - 1) 0 = 0 := by
    rw [← coeff_toPoly]
    exact degree_lt_iff_coeff_zero _ _ |>.mp hdeg _ (by omega)
  apply h
  rw [List.getLast?_eq_getElem?, List.getElem?_eq_getElem (by omega)]
  rw [List.getD_eq_getElem _ _ (by omega)] at hlast
  rw [hlast]

/-- Lists without trailing zeros are determined by the polynomial that they denote. -/
theorem Stripped.eq_of_toPoly_eq {as bs : List R} (ha : Stripped as) (hb : Stripped bs)
    (h : toPoly as = toPoly bs) : as = bs := by
  have hab : as.length ≤ bs.length := ha.length_le (h ▸ degree_toPoly_lt bs)
  have hba : bs.length ≤ as.length := hb.length_le (h ▸ degree_toPoly_lt as)
  apply List.ext_getElem (le_antisymm hab hba)
  intro i h₁ h₂
  have hi := congrArg (fun P : R[X] => P.coeff i) h
  simpa [h₁, h₂] using hi

/-- The top coefficient of a product is the product of the last coefficients. -/
theorem coeff_mul_last (as bs : List R) :
    (toPoly as * toPoly bs).coeff (as.length - 1 + (bs.length - 1)) =
      as.getD (as.length - 1) 0 * bs.getD (bs.length - 1) 0 := by
  have hdeg : ∀ cs : List R, (toPoly cs).natDegree ≤ cs.length - 1 := by
    intro cs
    rw [natDegree_le_iff_coeff_eq_zero]
    intro n hn
    rw [coeff_toPoly, List.getD_eq_default _ _ (by omega)]
  rw [coeff_mul_add_eq_of_natDegree_le (hdeg as) (hdeg bs), coeff_toPoly, coeff_toPoly]

theorem Stripped.getD_last_ne_zero {as : List R} (h : Stripped as) (hne : as ≠ []) :
    as.getD (as.length - 1) 0 ≠ 0 := by
  intro hz
  apply h
  rw [List.getLast?_eq_getLast_of_ne_nil hne, List.getLast_eq_getElem,
    ← List.getD_eq_getElem _ 0, hz]

section Strip

variable [DecidableEq R]

/-- Remove the trailing zeros. -/
def strip (as : List R) : List R := as.rdropWhile (· = 0)

theorem strip_stripped (as : List R) : Stripped (strip as) := by
  intro h
  have hne : strip as ≠ [] := by
    intro hnil
    rw [hnil] at h
    cases h
  have hlast := List.rdropWhile_last_not (fun a : R => decide (a = 0)) as hne
  rw [List.getLast?_eq_getLast_of_ne_nil hne, Option.some.injEq] at h
  exact hlast (by simpa [strip] using h)

@[simp] theorem toPoly_strip (as : List R) : toPoly (strip as) = toPoly as := by
  induction as using List.reverseRecOn with
  | nil => rfl
  | append_singleton as a ih =>
    by_cases ha : a = 0
    · rw [strip, List.rdropWhile_concat_pos _ _ _ (by simpa using ha), ← strip, ih, ha,
        toPoly_concat_zero]
    · rw [strip, List.rdropWhile_concat_neg _ _ _ (by simpa using ha)]

end Strip

/-- Coefficient `n` of a product, as the sum over the index pairs that both lists contain. -/
theorem coeff_mul_eq_sum (as bs : List R) (n : ℕ) :
    (((List.range (n + 1)).filter fun j => j < as.length ∧ n - j < bs.length).map
      fun j => as.getD j 0 * bs.getD (n - j) 0).sum = (toPoly as * toPoly bs).coeff n := by
  rw [coeff_mul, Finset.Nat.sum_antidiagonal_eq_sum_range_succ
    (fun i j => (toPoly as).coeff i * (toPoly bs).coeff j)]
  simp only [coeff_toPoly]
  rw [← List.sum_toFinset _ (List.Nodup.filter _ List.nodup_range)]
  apply Finset.sum_subset
  · intro j hj
    simp only [List.mem_toFinset, List.mem_filter, List.mem_range] at hj
    exact Finset.mem_range.mpr hj.1
  · intro j hj hout
    have hj' := Finset.mem_range.mp hj
    simp only [List.mem_toFinset, List.mem_filter, List.mem_range, hj', true_and,
      decide_eq_true_eq, not_and_or, not_lt] at hout
    rcases hout with h | h <;> simp [List.getElem?_eq_none h]

/-- The list of all coefficients of a product denotes the product. -/
theorem toPoly_convolution {as bs cs : List R} (ha : as ≠ []) (hb : bs ≠ [])
    (hlen : cs.length = as.length - 1 + (bs.length - 1) + 1)
    (h : ∀ n < cs.length, cs.getD n 0 = (toPoly as * toPoly bs).coeff n) :
    toPoly cs = toPoly as * toPoly bs := by
  ext n
  by_cases hn : n < cs.length
  · rw [coeff_toPoly, h n hn]
  · have hla := List.length_pos_iff.mpr ha
    have hlb := List.length_pos_iff.mpr hb
    rw [coeff_toPoly, List.getD_eq_default _ _ (by omega), ← coeff_mul_eq_sum]
    symm
    rw [List.filter_eq_nil_iff.mpr]
    · simp
    · intro j hj
      have := List.mem_range.mp hj
      simp only [decide_eq_true_eq]
      omega

end PysuiCrypto.CoeffList
