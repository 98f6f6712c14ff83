import PysuiCrypto.GF256
import PysuiCrypto.CoeffList
import PysuiCrypto.PointList

/-!
# Polynomials over GF(2⁸) as the source computes them

The operations work on coefficient vectors and abort where the source does: on the degree of
the empty vector, on an index out of bounds, on an unreachable branch. The theorems say on
which arguments they return and which polynomial the returned vector denotes.
-/
namespace PysuiCrypto

open Outcome Polynomial

/-- `Polynomial` of the source: the coefficients, lowest degree first. -/
structure GFPolynomial where
  coeffs : List GF256
  deriving DecidableEq, Repr

namespace GFPolynomial

/-- `zip_longest`, with both sides of each entry. -/
def zipLongest {α β : Type} : List α → List β → List (Option α × Option β)
  | [], [] => []
  | a :: as, [] => (some a, none) :: zipLongest as []
  | [], b :: bs => (none, some b) :: zipLongest [] bs
  | a :: as, b :: bs => (some a, some b) :: zipLongest as bs

def degree (p : GFPolynomial) : FastCryptoResult ℕ := checkedSub p.coeffs.length 1

/-- Horner's method, from the highest coefficient. -/
def evaluate (p : GFPolynomial) (x : GF256) : FastCryptoResult GF256 :=
  p.coeffs.reverse.foldlM (fun sum coefficient => do
    let scaled ← GF256.mul sum x
    .ok (GF256.add scaled coefficient)) GF256.zero

def zero : GFPolynomial := ⟨[]⟩

def one : GFPolynomial := ⟨[GF256.one]⟩

def stripTrailingZeros (p : GFPolynomial) : GFPolynomial :=
  ⟨p.coeffs.rdropWhile (· = GF256.zero)⟩

/-- A polynomial of the form x + constant. -/
def monicLinear (constant : GF256) : GFPolynomial := ⟨[constant, GF256.one]⟩

def addTerm : Option GF256 × Option GF256 → FastCryptoResult GF256
  | (some a, some b) => .ok (GF256.add a b)
  | (some a, none) => .ok a
  | (none, some b) => .ok b
  | (none, none) => abort "internal error: entered unreachable code"

def add (p q : GFPolynomial) : FastCryptoResult GFPolynomial := do
  let coefficients ← (zipLongest p.coeffs q.coeffs).mapM addTerm
  .ok (stripTrailingZeros ⟨coefficients⟩)

def sum (ps : List GFPolynomial) : FastCryptoResult GFPolynomial := ps.foldlM add zero

/-- `Mul<&GF256>`. -/
def scale (p : GFPolynomial) (s : GF256) : FastCryptoResult GFPolynomial := do
  let coefficients ← p.coeffs.mapM fun a => GF256.mul a s
  .ok (stripTrailingZeros ⟨coefficients⟩)

def mul (p q : GFPolynomial) : FastCryptoResult GFPolynomial := do
  let dp ← p.degree
  let dq ← q.degree
  let coefficients ← (List.range (dp + dq + 1)).mapM fun i => do
    let terms ← ((List.range (i + 1)).filter fun j => j ≤ dp ∧ i - j ≤ dq).mapM fun j => do
      let a ← index p.coeffs j
      let b ← index q.coeffs (i - j)
      GF256.mul a b
    .ok (GF256.sum terms)
  .ok ⟨coefficients⟩

/-- `Div<&GF256>`. -/
def div (p : GFPolynomial) (divisor : GF256) : FastCryptoResult GFPolynomial := do
  let inverse ← GF256.div GF256.one divisor
  let coefficients ← p.coeffs.mapM fun a => GF256.mul a inverse
  .ok (stripTrailingZeros ⟨coefficients⟩)

def product (ps : List GFPolynomial) : FastCryptoResult GFPolynomial := ps.foldlM mul one

/-- Term `j` of the interpolation: the basis polynomial of its point, scaled by its value. -/
def interpolateTerm (points : List (GF256 × GF256)) :
    (GF256 × GF256) × ℕ → FastCryptoResult GFPolynomial
  | ((xj, yj), j) => do
    let factors ← (points.zipIdx.filter fun (_, i) => i ≠ j).mapM fun ((xi, _), _) =>
      div (monicLinear (GF256.neg xi)) (GF256.sub xj xi)
    let basis ← product factors
    scale basis yj

/-- Lagrange interpolation through `points`. -/
def interpolate (points : List (GF256 × GF256)) : FastCryptoResult GFPolynomial := do
  let terms ← points.zipIdx.mapM (interpolateTerm points)
  sum terms

noncomputable def toPoly (p : GFPolynomial) : GF256[X] := CoeffList.toPoly p.coeffs

def Stripped (p : GFPolynomial) : Prop := CoeffList.Stripped p.coeffs

theorem evaluate_eq (p : GFPolynomial) (x : GF256) :
    p.evaluate x = .ok (p.toPoly.eval x) := by
  have hstep : ∀ sum coefficient : GF256, (do
      let scaled ← GF256.mul sum x
      .ok (GF256.add scaled coefficient)) = (.ok (sum * x + coefficient) : FastCryptoResult GF256) :=
    fun _ _ => by simp
  rw [evaluate, foldlM_eq_ok hstep, GF256.zero_eq, CoeffList.foldl_reverse_eq_eval, toPoly]

@[simp] theorem toPoly_stripTrailingZeros (p : GFPolynomial) :
    p.stripTrailingZeros.toPoly = p.toPoly := CoeffList.toPoly_strip p.coeffs

theorem stripTrailingZeros_stripped (p : GFPolynomial) : p.stripTrailingZeros.Stripped :=
  CoeffList.strip_stripped p.coeffs

@[simp] theorem toPoly_zero : zero.toPoly = 0 := rfl

@[simp] theorem toPoly_one : one.toPoly = 1 := by simp [toPoly, one]

@[simp] theorem toPoly_monicLinear (a : GF256) : (monicLinear a).toPoly = X + C a := by
  simp [toPoly, monicLinear, add_comm]

/-- Termwise addition of the padded lists; the unreachable branch is never taken. -/
theorem mapM_addTerm (as bs : List GF256) : ∃ cs,
    (zipLongest as bs).mapM addTerm = .ok cs ∧
      CoeffList.toPoly cs = CoeffList.toPoly as + CoeffList.toPoly bs := by
  induction as, bs using zipLongest.induct with
  | case1 => exact ⟨[], by simp [zipLongest], by simp⟩
  | case2 a as ih =>
    obtain ⟨cs, hcs, hp⟩ := ih
    exact ⟨a :: cs, by simp [zipLongest, List.mapM_cons, addTerm, hcs], by simp [hp]⟩
  | case3 b bs ih =>
    obtain ⟨cs, hcs, hp⟩ := ih
    exact ⟨b :: cs, by simp [zipLongest, List.mapM_cons, addTerm, hcs], by simp [hp]⟩
  | case4 a as b bs ih =>
    obtain ⟨cs, hcs, hp⟩ := ih
    refine ⟨(a + b) :: cs, by simp [zipLongest, List.mapM_cons, addTerm, hcs], ?_⟩
    simp only [CoeffList.toPoly_cons, hp, C_add]
    ring

theorem add_spec (p q : GFPolynomial) :
    ∃ r, add p q = .ok r ∧ r.toPoly = p.toPoly + q.toPoly ∧ r.Stripped := by
  obtain ⟨cs, hcs, hp⟩ := mapM_addTerm p.coeffs q.coeffs
  refine ⟨stripTrailingZeros ⟨cs⟩, ?_, ?_, stripTrailingZeros_stripped _⟩
  · rw [add, hcs]
    rfl
  · rw [toPoly_stripTrailingZeros]
    exact hp

theorem sum_spec (ps : List GFPolynomial) :
    ∃ r, sum ps = .ok r ∧ r.toPoly = (ps.map toPoly).sum ∧ r.Stripped := by
  induction ps using List.reverseRecOn with
  | nil => exact ⟨zero, rfl, rfl, by simp [Stripped, CoeffList.Stripped, zero]⟩
  | append_singleton ps p ih =>
    obtain ⟨s, hs, hp, -⟩ := ih
    obtain ⟨r, hr, hrp, hrs⟩ := add_spec s p
    refine ⟨r, ?_, by simp [hrp, hp], hrs⟩
    rw [sum] at hs ⊢
    rw [List.foldlM_append, hs]
    simpa using hr

theorem scale_eq (p : GFPolynomial) (s : GF256) :
    p.scale s = .ok (stripTrailingZeros ⟨p.coeffs.map (· * s)⟩) := by
  rw [scale, mapM_eq_ok fun a _ => GF256.mul_eq a s]
  rfl

theorem scale_spec (p : GFPolynomial) (s : GF256) :
    ∃ r, p.scale s = .ok r ∧ r.toPoly = p.toPoly * C s ∧ r.Stripped := by
  refine ⟨_, scale_eq p s, ?_, stripTrailingZeros_stripped _⟩
  rw [toPoly_stripTrailingZeros]
  exact CoeffList.toPoly_map_mul p.coeffs s

theorem div_zero (p : GFPolynomial) : p.div 0 = fail .invalidInput := by
  rw [div, GF256.div_eq, if_pos rfl]
  rfl

theorem div_eq (p : GFPolynomial) {s : GF256} (hs : s ≠ 0) :
    p.div s = .ok (stripTrailingZeros ⟨p.coeffs.map (· * s⁻¹)⟩) := by
  rw [div, GF256.div_of_ne_zero _ hs, ok_bind, mapM_eq_ok fun a _ => GF256.mul_eq a _]
  simp

theorem degree_eq {p : GFPolynomial} (hp : p.coeffs ≠ []) :
    p.degree = .ok (p.coeffs.length - 1) :=
  checkedSub_of_le (List.length_pos_iff.mpr hp)

/-- Coefficient `i` of the convolution: every index is in bounds. -/
theorem convolution_term {p q : GFPolynomial} (hp : p.coeffs ≠ []) (hq : q.coeffs ≠ []) (i : ℕ) :
    (do
      let terms ← ((List.range (i + 1)).filter fun j =>
          j ≤ p.coeffs.length - 1 ∧ i - j ≤ q.coeffs.length - 1).mapM fun j => do
        let a ← index p.coeffs j
        let b ← index q.coeffs (i - j)
        GF256.mul a b
      .ok (GF256.sum terms)) =
      (.ok ((p.toPoly * q.toPoly).coeff i) : FastCryptoResult GF256) := by
  have hlp := List.length_pos_iff.mpr hp
  have hlq := List.length_pos_iff.mpr hq
  have hfilter : ((List.range (i + 1)).filter fun j =>
      j ≤ p.coeffs.length - 1 ∧ i - j ≤ q.coeffs.length - 1) =
      (List.range (i + 1)).filter fun j => j < p.coeffs.length ∧ i - j < q.coeffs.length := by
    apply List.filter_congr
    intro j _
    apply decide_eq_decide.mpr
    omega
  rw [hfilter, mapM_eq_ok (g := fun j => p.coeffs.getD j 0 * q.coeffs.getD (i - j) 0)]
  · rw [ok_bind, GF256.sum_eq, toPoly, toPoly, ← CoeffList.coeff_mul_eq_sum]
  · intro j hj
    obtain ⟨-, hj⟩ := List.mem_filter.mp hj
    obtain ⟨hjp, hjq⟩ := of_decide_eq_true hj
    simp [index_of_lt hjp, index_of_lt hjq, List.getD_eq_getElem?_getD,
      List.getElem?_eq_getElem hjp, List.getElem?_eq_getElem hjq]

theorem mul_eq {p q : GFPolynomial} (hp : p.coeffs ≠ []) (hq : q.coeffs ≠ []) :
    mul p q = .ok ⟨(List.range (p.coeffs.length - 1 + (q.coeffs.length - 1) + 1)).map
      (p.toPoly * q.toPoly).coeff⟩ := by
  rw [mul, degree_eq hp, degree_eq hq]
  simp only [ok_bind]
  rw [mapM_eq_ok fun i _ => convolution_term hp hq i]
  rfl

/-- The product of two nonempty vectors is nonempty and denotes the product. -/
theorem mul_spec {p q : GFPolynomial} (hp : p.coeffs ≠ []) (hq : q.coeffs ≠ []) :
    ∃ r, mul p q = .ok r ∧ r.toPoly = p.toPoly * q.toPoly ∧ r.coeffs ≠ [] := by
  refine ⟨_, mul_eq hp hq, ?_, by simp⟩
  apply CoeffList.toPoly_convolution hp hq (by simp)
  intro n hn
  simp only [List.length_map, List.length_range] at hn
  simp [List.getElem?_range hn, toPoly]

theorem product_spec {ps : List GFPolynomial} (h : ∀ p ∈ ps, p.coeffs ≠ []) :
    ∃ r, product ps = .ok r ∧ r.toPoly = (ps.map toPoly).prod ∧ r.coeffs ≠ [] := by
  induction ps using List.reverseRecOn with
  | nil => exact ⟨one, rfl, by simp, by simp [one]⟩
  | append_singleton ps p ih =>
    obtain ⟨s, hs, hsp, hne⟩ := ih fun q hq => h q (by simp [hq])
    obtain ⟨r, hr, hrp, hrne⟩ := mul_spec hne (h p (by simp))
    refine ⟨r, ?_, by simp [hrp, hsp], hrne⟩
    rw [product] at hs ⊢
    rw [List.foldlM_append, hs]
    simpa using hr

/-- A basis factor: dividing a monic linear polynomial by a nonzero difference leaves two
coefficients, so its degree is defined. -/
theorem basisFactor_spec {xi xj : GF256} (h : xj ≠ xi) :
    ∃ r, div (monicLinear (GF256.neg xi)) (GF256.sub xj xi) = .ok r ∧
      r.toPoly = C (xj - xi)⁻¹ * (X - C xi) ∧ r.coeffs ≠ [] := by
  have hne : xj - xi ≠ 0 := sub_ne_zero.mpr h
  have hp : (stripTrailingZeros ⟨(monicLinear (GF256.neg xi)).coeffs.map (· * (xj - xi)⁻¹)⟩).toPoly
      = C (xj - xi)⁻¹ * (X - C xi) := by
    rw [toPoly_stripTrailingZeros]
    simp only [toPoly, CoeffList.toPoly_map_mul]
    rw [← toPoly, toPoly_monicLinear]
    simp only [GF256.neg_eq, C_neg]
    ring
  refine ⟨_, by rw [GF256.sub_eq, div_eq _ hne], hp, ?_⟩
  intro hnil
  have hzero : C (xj - xi)⁻¹ * (X - C xi) = 0 := by
    rw [← hp, toPoly, hnil]
    rfl
  exact mul_ne_zero (C_ne_zero.mpr (inv_ne_zero hne)) (X_sub_C_ne_zero xi) hzero

theorem basisFactor_fail {xi xj : GF256} (h : xj = xi) :
    div (monicLinear (GF256.neg xi)) (GF256.sub xj xi) = fail .invalidInput := by
  rw [GF256.sub_eq, h, sub_self, div_zero]

theorem interpolateTerm_spec (points : List (GF256 × GF256)) (q : (GF256 × GF256) × ℕ)
    (h : ∀ p ∈ points.zipIdx, p.2 ≠ q.2 → q.1.1 ≠ p.1.1) :
    ∃ r, interpolateTerm points q = .ok r ∧ r.toPoly = ((points.zipIdx.filter fun p =>
      p.2 ≠ q.2).map fun p => C (q.1.1 - p.1.1)⁻¹ * (X - C p.1.1)).prod * C q.1.2 := by
  obtain ⟨factors, hf, hfp, hne⟩ := mapM_spec (φ := toPoly) (Q := fun r => r.coeffs ≠ [])
    (g := fun p : (GF256 × GF256) × ℕ => C (q.1.1 - p.1.1)⁻¹ * (X - C p.1.1))
    (points.zipIdx.filter fun p => p.2 ≠ q.2) fun p hp => by
      obtain ⟨hmem, hpos⟩ := List.mem_filter.mp hp
      exact basisFactor_spec (h p hmem (by simpa using hpos))
  obtain ⟨basis, hb, hbp, -⟩ := product_spec hne
  obtain ⟨r, hr, hrp, -⟩ := scale_spec basis q.1.2
  refine ⟨r, ?_, by rw [hrp, hbp, hfp]⟩
  rw [interpolateTerm, hf, ok_bind, hb, ok_bind, hr]

theorem interpolateTerm_fail {points : List (GF256 × GF256)} {q : (GF256 × GF256) × ℕ}
    (h : ∃ p ∈ points.zipIdx, p.2 ≠ q.2 ∧ q.1.1 = p.1.1) :
    interpolateTerm points q = fail .invalidInput := by
  obtain ⟨p, hp, hpos, heq⟩ := h
  rw [interpolateTerm, mapM_eq_fail (e := .invalidInput)]
  · rfl
  · intro p _
    by_cases hx : q.1.1 = p.1.1
    · exact .inr (basisFactor_fail hx)
    · obtain ⟨r, hr, -⟩ := basisFactor_spec hx
      exact .inl ⟨r, hr⟩
  · exact ⟨p, List.mem_filter.mpr ⟨hp, by simpa using hpos⟩, basisFactor_fail heq⟩

theorem exists_equal_nodes {points : List (GF256 × GF256)} (h : ¬ PointList.Distinct points) :
    ∃ q ∈ points.zipIdx, ∃ p ∈ points.zipIdx, p.2 ≠ q.2 ∧ q.1.1 = p.1.1 := by
  by_contra hall
  apply h
  apply List.nodup_iff_getElem?_ne_getElem?.mpr
  intro i j hij hj
  rw [List.length_map] at hj
  rw [List.getElem?_map, List.getElem?_map, List.getElem?_eq_getElem hj,
    List.getElem?_eq_getElem (hij.trans hj)]
  intro heq
  refine hall ⟨(points[i], i), ?_, (points[j], j), ?_, hij.ne', by simpa using heq⟩
  · exact List.mk_mem_zipIdx_iff_getElem?.mpr (List.getElem?_eq_getElem _)
  · exact List.mk_mem_zipIdx_iff_getElem?.mpr (List.getElem?_eq_getElem _)

theorem distinct_zipIdx {points : List (GF256 × GF256)} (h : PointList.Distinct points)
    {p q : (GF256 × GF256) × ℕ} (hp : p ∈ points.zipIdx) (hq : q ∈ points.zipIdx)
    (hne : p.2 ≠ q.2) : q.1.1 ≠ p.1.1 := by
  intro heq
  rw [List.mem_zipIdx_iff_getElem?] at hp hq
  obtain ⟨hpl, hpe⟩ := List.getElem?_eq_some_iff.mp hp
  obtain ⟨hql, hqe⟩ := List.getElem?_eq_some_iff.mp hq
  have hinj : PointList.node points ⟨p.2, hpl⟩ = PointList.node points ⟨q.2, hql⟩ := by
    simp [PointList.node, hpe, hqe, heq]
  exact hne (congrArg Fin.val (PointList.node_injective h hinj))

/-- On points with distinct abscissae the code returns the Lagrange polynomial. -/
theorem interpolate_spec {points : List (GF256 × GF256)} (h : PointList.Distinct points) :
    ∃ r, interpolate points = .ok r ∧ r.toPoly = PointList.interp points ∧ r.Stripped := by
  obtain ⟨terms, ht, htp, -⟩ := mapM_spec (f := interpolateTerm points) (φ := toPoly)
    (Q := fun _ => True) points.zipIdx fun q hq => by
      obtain ⟨r, hr, hrp⟩ :=
        interpolateTerm_spec points q fun p hp hne => distinct_zipIdx h hp hq hne
      exact ⟨r, hr, hrp, trivial⟩
  obtain ⟨r, hr, hrp, hrs⟩ := sum_spec terms
  refine ⟨r, ?_, ?_, hrs⟩
  · rw [interpolate, ht, ok_bind, hr]
  · rw [hrp, htp, PointList.interp_eq_zipIdx]

/-- Two equal abscissae are an error: a basis factor divides by their difference. -/
theorem interpolate_fail {points : List (GF256 × GF256)} (h : ¬ PointList.Distinct points) :
    interpolate points = fail .invalidInput := by
  obtain ⟨q, hq, hdup⟩ := exists_equal_nodes h
  have hfail : ∃ q ∈ points.zipIdx, interpolateTerm points q = fail .invalidInput :=
    ⟨q, hq, interpolateTerm_fail hdup⟩
  rw [interpolate, mapM_eq_fail (e := .invalidInput) _ hfail]
  · rfl
  · intro q hq
    by_cases hdup : ∃ p ∈ points.zipIdx, p.2 ≠ q.2 ∧ q.1.1 = p.1.1
    · exact .inr (interpolateTerm_fail hdup)
    · obtain ⟨r, hr, -⟩ := interpolateTerm_spec points q
        fun p hp hne heq => hdup ⟨p, hp, hne, heq⟩
      exact .inl ⟨r, hr⟩

end GFPolynomial

end PysuiCrypto
