import Mathlib

/-!
# Interpolation through a list of points

The Lagrange polynomial of a list of points over a field, as one fixed polynomial: the points
determine it, it is the only polynomial of its degree through them, and its value at zero has
the closed quotient form. Interpolating a polynomial through too few of its points changes
the value at zero, which is the fact behind every threshold check on shares.
-/
namespace PysuiCrypto.PointList

open Polynomial

variable {F : Type*} [Field F]

/-- The abscissae of a list of points. -/
def node (pts : List (F × F)) (i : Fin pts.length) : F := pts[i].1

def value (pts : List (F × F)) (i : Fin pts.length) : F := pts[i].2

noncomputable def interp (pts : List (F × F)) : F[X] :=
  Lagrange.interpolate Finset.univ (node pts) (value pts)

def Distinct (pts : List (F × F)) : Prop := (pts.map Prod.fst).Nodup

omit [Field F] in
theorem node_injective {pts : List (F × F)} (h : Distinct pts) :
    Function.Injective (node pts) := by
  intro i j hij
  have hi : (pts.map Prod.fst).get ⟨i, by simp⟩ = node pts i := by simp [node]
  have hj : (pts.map Prod.fst).get ⟨j, by simp⟩ = node pts j := by simp [node]
  have := List.nodup_iff_injective_get.mp h (hi.trans (hij.trans hj.symm))
  exact Fin.ext (by simpa using this)

theorem degree_interp_lt {pts : List (F × F)} (h : Distinct pts) :
    (interp pts).degree < pts.length := by
  have := Lagrange.degree_interpolate_lt (s := Finset.univ) (value pts) (node_injective h).injOn
  simpa [interp] using this

theorem eval_interp {pts : List (F × F)} (h : Distinct pts) {p : F × F} (hp : p ∈ pts) :
    (interp pts).eval p.1 = p.2 := by
  obtain ⟨i, hi, rfl⟩ := List.mem_iff_getElem.mp hp
  exact Lagrange.eval_interpolate_at_node (value pts) (node_injective h).injOn
    (Finset.mem_univ (⟨i, hi⟩ : Fin pts.length))

theorem eq_interp {pts : List (F × F)} (h : Distinct pts) {P : F[X]}
    (hdeg : P.degree < pts.length) (hval : ∀ p ∈ pts, P.eval p.1 = p.2) : P = interp pts := by
  apply Lagrange.eq_interpolate_of_eval_eq (value pts) (node_injective h).injOn
  · simpa using hdeg
  · intro i _
    exact hval _ (List.getElem_mem _)

theorem interp_perm {pts qts : List (F × F)} (h : Distinct pts) (hperm : pts.Perm qts) :
    interp pts = interp qts := by
  have hq : Distinct qts := (hperm.map Prod.fst).nodup_iff.mp h
  apply eq_interp hq
  · simpa [hperm.length_eq] using degree_interp_lt h
  · intro p hp
    exact eval_interp h (hperm.mem_iff.mpr hp)

/-- A polynomial of degree exactly the number of points has another value at zero than the
interpolation of those points: otherwise zero would be one more common point. -/
theorem eval_zero_ne {pts : List (F × F)} (h : Distinct pts) (h0 : ∀ p ∈ pts, p.1 ≠ 0)
    {P : F[X]} (hdeg : P.degree = pts.length) (hval : ∀ p ∈ pts, P.eval p.1 = p.2) :
    (interp pts).eval 0 ≠ P.eval 0 := by
  intro heq
  let qts := (0, P.eval 0) :: pts
  have hlt := degree_interp_lt h
  have hle : (pts.length : WithBot ℕ) < qts.length := by
    simp only [qts, List.length_cons]
    exact_mod_cast Nat.lt_succ_self _
  have hq : Distinct qts := by
    refine List.nodup_cons.mpr ⟨?_, h⟩
    intro hmem
    obtain ⟨p, hp, hp0⟩ := List.mem_map.mp hmem
    exact h0 p hp hp0
  have hP : P = interp qts := by
    apply eq_interp hq (hdeg ▸ hle)
    intro p hp
    rcases List.mem_cons.mp hp with rfl | hp
    · rfl
    · exact hval p hp
  have hI : interp pts = interp qts := by
    apply eq_interp hq (hlt.trans hle)
    intro p hp
    rcases List.mem_cons.mp hp with rfl | hp
    · exact heq
    · exact eval_interp h hp
  rw [hI, ← hP, hdeg] at hlt
  exact lt_irrefl _ hlt

omit [Field F] in
theorem zipIdx_eq_map_finRange {α : Type*} (xs : List α) :
    xs.zipIdx = (List.finRange xs.length).map fun i => (xs[i], i.val) := by
  apply List.ext_getElem
  · simp
  · intro i h₁ h₂
    simp

omit [Field F] in
theorem sum_zipIdx {α M : Type*} [AddCommMonoid M] (xs : List α) (f : α × ℕ → M) :
    (xs.zipIdx.map f).sum = ∑ i : Fin xs.length, f (xs[i], i.val) := by
  rw [zipIdx_eq_map_finRange, List.map_map, ← List.sum_toFinset _ (List.nodup_finRange _)]
  simp [List.toFinset_finRange]

omit [Field F] in
theorem prod_zipIdx_erase {α M : Type*} [CommMonoid M] (xs : List α) (j : Fin xs.length)
    (f : α × ℕ → M) :
    ((xs.zipIdx.filter fun p => p.2 ≠ j.val).map f).prod =
      ∏ i ∈ Finset.univ.erase j, f (xs[i], i.val) := by
  rw [zipIdx_eq_map_finRange, List.filter_map, List.map_map,
    ← List.prod_toFinset _ ((List.nodup_finRange _).filter _)]
  apply Finset.prod_congr
  · ext i
    simp [Fin.ext_iff]
  · intro i _
    rfl

/-- The sum over positions of scaled products over the other positions. -/
theorem interp_eq_zipIdx (pts : List (F × F)) :
    interp pts = (pts.zipIdx.map fun q =>
      ((pts.zipIdx.filter fun p => p.2 ≠ q.2).map fun p =>
        C (q.1.1 - p.1.1)⁻¹ * (X - C p.1.1)).prod * C q.1.2).sum := by
  rw [sum_zipIdx, interp, Lagrange.interpolate_apply]
  apply Finset.sum_congr rfl
  intro j _
  rw [prod_zipIdx_erase pts j, mul_comm]
  rfl

omit [Field F] in
theorem prod_filter {α M : Type*} [CommMonoid M] (xs : List α) (p : α → Bool) (f : α → M) :
    ((xs.filter p).map f).prod = (xs.map fun x => if p x then f x else 1).prod := by
  induction xs with
  | nil => rfl
  | cons x xs ih => cases hx : p x <;> simp [hx, ih]

/-- Leaving out one abscissa by value leaves out exactly its position. -/
theorem prod_filter_node [DecidableEq F] {pts : List (F × F)} (h : Distinct pts)
    (i : Fin pts.length) (f : F → F) :
    (((pts.map Prod.fst).filter fun x => x ≠ node pts i).map f).prod =
      ∏ j ∈ Finset.univ.erase i, f (node pts j) := by
  have herase : Finset.univ.erase i = Finset.univ.filter fun j => node pts j ≠ node pts i := by
    ext j
    simpa using not_congr (node_injective h).eq_iff.symm
  rw [prod_filter, List.map_map, ← Fin.prod_univ_fun_getElem, herase, Finset.prod_filter]
  apply Finset.prod_congr rfl
  intro j _
  by_cases hj : pts[j.val].1 = pts[i.val].1 <;> simp [node, hj]

/-- The quotient form of the value at zero, with products over the other abscissae. -/
theorem eval_zero_interp [DecidableEq F] {pts : List (F × F)} (h : Distinct pts)
    (h0 : ∀ p ∈ pts, p.1 ≠ 0) :
    (interp pts).eval 0 = (pts.map fun p => -p.1).prod * (pts.map fun p => p.2 / (-p.1 *
      (((pts.map Prod.fst).filter fun x => x ≠ p.1).map fun x => p.1 - x).prod)).sum := by
  have hnode : ∀ i ∈ Finset.univ, (0 : F) ≠ node pts i :=
    fun i _ => (h0 _ (List.getElem_mem _)).symm
  rw [interp, Lagrange.eval_interpolate_not_at_node _ hnode, Lagrange.eval_nodal,
    ← Fin.prod_univ_fun_getElem, ← Fin.sum_univ_fun_getElem]
  congr 1
  · simp [node]
  · apply Finset.sum_congr rfl
    intro i _
    have hfilter : (((pts.map Prod.fst).filter fun x => x ≠ pts[i.val].1).map
        fun x => pts[i.val].1 - x).prod = ∏ j ∈ Finset.univ.erase i, (node pts i - node pts j) :=
      prod_filter_node h i fun x => node pts i - x
    rw [hfilter, Lagrange.nodalWeight, Finset.prod_inv_distrib, zero_sub, div_eq_mul_inv, mul_inv]
    simp only [node, value, Fin.getElem_fin]
    ring

end PysuiCrypto.PointList
