import PysuiCrypto.GFPolynomial

/-!
# What the polynomial operations guarantee

Interpolation is an error on equal abscissae only; otherwise it returns the one coefficient
vector without trailing zeros that passes through the points and is no longer than their list.
The arithmetic commutes with evaluation, except that a product with the empty vector aborts:
the degree that bounds the convolution is the length minus one.
-/
namespace PysuiCrypto.GFPolynomial

open Outcome Polynomial

/-- Abscissae are not distinct when two positions carry the same one. -/
theorem not_distinct_iff {points : List (GF256 × GF256)} :
    ¬ PointList.Distinct points ↔ ∃ (i j : ℕ) (p q : GF256 × GF256), i ≠ j ∧
      points[i]? = some p ∧ points[j]? = some q ∧ p.1 = q.1 := by
  constructor
  · intro h
    obtain ⟨q, hq, p, hp, hne, heq⟩ := exists_equal_nodes h
    exact ⟨p.2, q.2, p.1, q.1, hne, List.mem_zipIdx_iff_getElem?.mp hp,
      List.mem_zipIdx_iff_getElem?.mp hq, heq.symm⟩
  · rintro ⟨i, j, p, q, hne, hp, hq, heq⟩ h
    exact distinct_zipIdx h (List.mk_mem_zipIdx_iff_getElem?.mpr hp)
      (List.mk_mem_zipIdx_iff_getElem?.mpr hq) hne heq.symm

theorem interpolate_fails_iff {points : List (GF256 × GF256)} :
    (∃ e, interpolate points = fail e) ↔ ¬ PointList.Distinct points := by
  refine fails_iff_not (fun hdist => ?_) fun hdist => ⟨_, interpolate_fail hdist⟩
  obtain ⟨p, hp, -⟩ := interpolate_spec hdist
  exact ⟨p, hp⟩

/-- A polynomial with no more coefficients than points, through all of them, is the
interpolated one. -/
theorem toPoly_eq_interp {points : List (GF256 × GF256)} (h : PointList.Distinct points)
    {q : GFPolynomial} (hlen : q.coeffs.length ≤ points.length)
    (hval : ∀ point ∈ points, q.evaluate point.1 = .ok point.2) :
    q.toPoly = PointList.interp points := by
  apply PointList.eq_interp h
  · exact (CoeffList.degree_toPoly_lt q.coeffs).trans_le (by exact_mod_cast hlen)
  · intro point hp
    have hq := hval point hp
    rw [evaluate_eq] at hq
    exact Except.ok.inj hq

/-- Interpolation is an error exactly when two points at different positions have the same
abscissa. Otherwise it returns a polynomial that evaluates to every point, with at most as many
coefficients as points and no trailing zero; and from points of a polynomial with no more
coefficients than that it returns this polynomial, without its trailing zeros. -/
theorem interpolate_exact (points : List (GF256 × GF256)) :
    ((∃ e, interpolate points = fail e) ↔ ∃ (i j : ℕ) (p q : GF256 × GF256), i ≠ j ∧
      points[i]? = some p ∧ points[j]? = some q ∧ p.1 = q.1) ∧
    ((¬ ∃ e, interpolate points = fail e) → ∃ p, interpolate points = .ok p ∧
      (∀ point ∈ points, p.evaluate point.1 = .ok point.2) ∧
      p.coeffs.length ≤ points.length ∧ p.coeffs.getLast? ≠ some GF256.zero ∧
      ∀ q : GFPolynomial, q.coeffs.length ≤ points.length →
        (∀ point ∈ points, q.evaluate point.1 = .ok point.2) →
        p.coeffs = q.stripTrailingZeros.coeffs) := by
  refine ⟨interpolate_fails_iff.trans not_distinct_iff, fun hok => ?_⟩
  have hdist : PointList.Distinct points := not_not.mp (mt interpolate_fails_iff.mpr hok)
  obtain ⟨p, hp, hpoly, hstripped⟩ := interpolate_spec hdist
  refine ⟨p, hp, fun point hpoint => ?_, ?_, hstripped, fun q hlen hval => ?_⟩
  · rw [evaluate_eq, hpoly, PointList.eval_interp hdist hpoint]
  · apply CoeffList.Stripped.length_le hstripped
    have hdeg := PointList.degree_interp_lt hdist
    rwa [← hpoly] at hdeg
  · apply CoeffList.Stripped.eq_of_toPoly_eq hstripped (stripTrailingZeros_stripped q)
    have hq := toPoly_eq_interp hdist hlen hval
    rw [← hpoly, ← toPoly_stripTrailingZeros] at hq
    exact hq.symm

/-- What evaluation, addition, scaling and division promise for two polynomials, a scalar and a
point, in terms of the operations of the field. -/
structure LinearLaws (p q : GFPolynomial) (s x : GF256) : Prop where
  evaluate_eq : p.evaluate x = .ok (p.toPoly.eval x)
  evaluate_add : ∃ r, add p q = .ok r ∧ r.coeffs.getLast? ≠ some GF256.zero ∧
    r.evaluate x = do
      let a ← p.evaluate x
      let b ← q.evaluate x
      .ok (GF256.add a b)
  evaluate_scale : ∃ r, scale p s = .ok r ∧ r.coeffs.getLast? ≠ some GF256.zero ∧
    r.evaluate x = do
      let a ← p.evaluate x
      GF256.mul a s
  div_fails : (∃ e, div p s = fail e) ↔ s = GF256.zero
  evaluate_div : s ≠ GF256.zero → ∃ r, div p s = .ok r ∧
    r.coeffs.getLast? ≠ some GF256.zero ∧
    r.evaluate x = do
      let a ← p.evaluate x
      GF256.div a s

/-- What multiplication promises. -/
def ProductLaw (p q : GFPolynomial) (x : GF256) : Prop :=
  ∃ r, mul p q = .ok r ∧
    (p.coeffs.getLast? ≠ some GF256.zero → q.coeffs.getLast? ≠ some GF256.zero →
      r.coeffs.getLast? ≠ some GF256.zero) ∧
    r.evaluate x = do
      let a ← p.evaluate x
      let b ← q.evaluate x
      GF256.mul a b

structure EvaluationLaws (p q : GFPolynomial) (s x : GF256) : Prop extends
    LinearLaws p q s x where
  evaluate_mul : ProductLaw p q x

theorem mul_fails {p q : GFPolynomial} (h : p.coeffs = [] ∨ q.coeffs = []) :
    mul p q = abort "attempt to subtract with overflow" := by
  have hempty : ∀ r : GFPolynomial, r.coeffs = [] →
      r.degree = abort "attempt to subtract with overflow" := by
    intro r hr
    rw [degree, hr]
    rfl
  by_cases hp : p.coeffs = []
  · rw [mul, hempty p hp]
    rfl
  · rw [mul, degree_eq hp, ok_bind, hempty q (h.resolve_left hp)]
    rfl

/-- Without zero divisors, the last coefficient of a product of stripped vectors is not zero. -/
theorem mul_stripped {p q r : GFPolynomial} (hp : p.coeffs ≠ []) (hq : q.coeffs ≠ [])
    (h : mul p q = .ok r) (hps : p.Stripped) (hqs : q.Stripped) : r.Stripped := by
  rw [mul_eq hp hq] at h
  obtain rfl := Except.ok.inj h
  have htop := CoeffList.coeff_mul_last p.coeffs q.coeffs
  have hne := mul_ne_zero (CoeffList.Stripped.getD_last_ne_zero hps hp)
    (CoeffList.Stripped.getD_last_ne_zero hqs hq)
  rw [← htop] at hne
  rw [Stripped, CoeffList.Stripped, List.range_succ, List.map_append, List.map_singleton,
    List.getLast?_concat, Ne, Option.some_inj]
  exact hne

theorem div_spec (p : GFPolynomial) {s : GF256} (hs : s ≠ 0) :
    ∃ r, p.div s = .ok r ∧ r.toPoly = p.toPoly * C s⁻¹ ∧ r.Stripped := by
  refine ⟨_, div_eq p hs, ?_, stripTrailingZeros_stripped _⟩
  rw [toPoly_stripTrailingZeros]
  exact CoeffList.toPoly_map_mul p.coeffs s⁻¹

theorem linearLaws (p q : GFPolynomial) (s x : GF256) : LinearLaws p q s x where
  evaluate_eq := evaluate_eq p x
  evaluate_add := by
    obtain ⟨r, hr, hpoly, hstripped⟩ := add_spec p q
    refine ⟨r, hr, hstripped, ?_⟩
    simp [evaluate_eq, hpoly]
  evaluate_scale := by
    obtain ⟨r, hr, hpoly, hstripped⟩ := scale_spec p s
    refine ⟨r, hr, hstripped, ?_⟩
    simp [evaluate_eq, hpoly]
  div_fails := by
    rw [← not_ne_iff]
    refine fails_iff_not (fun hs => ?_) fun hs => ?_
    · exact ⟨_, div_eq p hs⟩
    · rw [not_ne_iff.mp hs]
      exact ⟨_, div_zero p⟩
  evaluate_div hs := by
    obtain ⟨r, hr, hpoly, hstripped⟩ := div_spec p hs
    refine ⟨r, hr, hstripped, ?_⟩
    simp only [evaluate_eq, ok_bind, GF256.div_of_ne_zero _ hs, hpoly, eval_mul, eval_C]
    rw [div_eq_mul_inv]

/-- The degree of the empty vector is what a product with it needs first. -/
theorem productLaw_iff {p q : GFPolynomial} {x : GF256} :
    ProductLaw p q x ↔ p.coeffs ≠ [] ∧ q.coeffs ≠ [] := by
  constructor
  · rintro ⟨r, hr, -⟩
    by_contra hempty
    rw [mul_fails (by tauto)] at hr
    cases hr
  · rintro ⟨hp, hq⟩
    obtain ⟨r, hr, hpoly, -⟩ := mul_spec hp hq
    refine ⟨r, hr, mul_stripped hp hq hr, ?_⟩
    simp [evaluate_eq, hpoly]

/-- The laws hold, whatever the scalar and the point are, unless a factor of the product is the
empty vector, which is how the source represents the zero polynomial. The laws of the other
operations hold for every vector; only the product depends on the condition. -/
theorem evaluationLaws_iff (p q : GFPolynomial) (s x : GF256) :
    (EvaluationLaws p q s x ↔ p.coeffs ≠ [] ∧ q.coeffs ≠ []) ∧ LinearLaws p q s x ∧
      (ProductLaw p q x ↔ p.coeffs ≠ [] ∧ q.coeffs ≠ []) := by
  refine ⟨?_, linearLaws p q s x, productLaw_iff⟩
  constructor
  · intro h
    exact productLaw_iff.mp h.evaluate_mul
  · intro h
    exact ⟨linearLaws p q s x, productLaw_iff.mpr h⟩

/-- Scaling by zero returns the zero polynomial, and its product with one aborts. -/
theorem product_with_zero_aborts :
    scale one GF256.zero = .ok zero ∧
      mul zero one = abort "attempt to subtract with overflow" ∧
      ¬ EvaluationLaws zero one GF256.one GF256.one := by
  refine ⟨by decide, mul_fails (.inl rfl), fun h => ?_⟩
  exact (productLaw_iff.mp h.evaluate_mul).1 rfl

end PysuiCrypto.GFPolynomial
