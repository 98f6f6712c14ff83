import PysuiCrypto.GFPolynomial
import PysuiCrypto.Utils

/-!
# Threshold secret sharing

Sharing and the two reconstructions of the source, byte by byte over GF(2⁸). `interpolate`
builds one polynomial per byte and returns the map that evaluates them; `combine` computes
the value at zero by a quotient formula. Both are shown to compute the same polynomials.
-/
namespace PysuiCrypto

open Outcome Polynomial

structure SecretSharing (n : ℕ) where
  secret : Vector UInt8 n
  indices : List UInt8
  shares : List (Vector UInt8 n)
  deriving DecidableEq

abbrev Share (n : ℕ) := UInt8 × Vector UInt8 n

namespace Tss

variable {R : Type} [AllowedRng R] {n : ℕ}

/-- `repeat_with(|| GF256::rand(rng)).take(count)`. -/
def randMany : ℕ → R → List GF256 × R
  | 0, rng => ([], rng)
  | count + 1, rng =>
    let (coefficient, rng) := GF256.rand rng
    let (rest, rng) := randMany count rng
    (coefficient :: rest, rng)

def splitByte (rng : R) (secret threshold : UInt8) (indices : List UInt8) :
    FastCryptoResult (List UInt8 × R) :=
  let numberOfShares := UInt8.ofNat indices.length
  if threshold = 0 ∨ numberOfShares = 0 ∨ numberOfShares < threshold ∨ 0 ∈ indices ∨
      ¬ indices.Nodup then
    fail .invalidInput
  else do
    let count ← checkedSub threshold.toNat 1
    let (random, rng) := randMany count rng
    let polynomial : GFPolynomial := ⟨⟨secret⟩ :: random⟩
    let shares ← indices.mapM fun i => do
      let y ← polynomial.evaluate ⟨i⟩
      .ok y.val
    .ok (shares, rng)

/-- Share each byte of the secret individually. -/
def splitBytes (rng : R) (threshold : UInt8) (indices : List UInt8) :
    List UInt8 → FastCryptoResult (List (List UInt8) × R)
  | [] => .ok ([], rng)
  | b :: bs => do
    let (row, rng) ← splitByte rng b threshold indices
    let (rows, rng) ← splitBytes rng threshold indices bs
    .ok (row :: rows, rng)

/-- `(1..=number_of_shares).collect_vec()`. -/
def shareIndices (numberOfShares : UInt8) : List UInt8 :=
  (List.range numberOfShares.toNat).map fun i => UInt8.ofNat (i + 1)

def split (rng : R) (secret : Vector UInt8 n) (threshold numberOfShares : UInt8) :
    FastCryptoResult (SecretSharing n × R) :=
  if numberOfShares < threshold ∨ threshold = 0 then fail .invalidInput
  else do
    let indices := shareIndices numberOfShares
    let (byteShares, rng) ← splitBytes rng threshold indices secret.toList
    let shares ← transpose n byteShares
    .ok (⟨secret, indices, shares⟩, rng)

/-- Byte `b` of the shares, as points over the field. -/
def points (shares : List (Share n)) (b : Fin n) : List (GF256 × GF256) :=
  shares.map fun s => (⟨s.1⟩, ⟨s.2[b]⟩)

/-- Interpolate the shares and return the map that evaluates the polynomials. -/
def interpolate (shares : List (Share n)) :
    FastCryptoResult (UInt8 → FastCryptoResult (Vector UInt8 n)) :=
  if shares.isEmpty ∨ (shares.any fun s => s.1 = 0) ∨ ¬ (shares.map Prod.fst).Nodup then
    fail .invalidInput
  else do
    let polynomials ← (List.finRange n).mapM fun i => GFPolynomial.interpolate (points shares i)
    .ok fun x => do
      let bytes ← polynomials.mapM fun p => do
        let y ← p.evaluate ⟨x⟩
        .ok y.val
      toArray n "Fixed length" bytes

def combineByte (shares : List (UInt8 × UInt8)) : FastCryptoResult UInt8 :=
  if shares.isEmpty ∨ ¬ (shares.map Prod.fst).Nodup ∨ (shares.any fun s => s.1 = 0) then
    fail .invalidInput
  else do
    let product ← GF256.product (shares.map fun s => ⟨s.1⟩)
    let terms ← shares.mapM fun (i, shareI) => do
      let others ← GF256.product
        (((shares.map Prod.fst).filter fun j => j ≠ i).map fun j => GF256.sub ⟨j⟩ ⟨i⟩)
      let denominator ← GF256.mul ⟨i⟩ others
      unwrap (GF256.div ⟨shareI⟩ denominator)
    let quotient := GF256.sum terms
    let secret ← GF256.mul product quotient
    .ok secret.val

/-- Reconstruct the secret from a set of shares. -/
def combine (shares : List (Share n)) : FastCryptoResult (Vector UInt8 n) := do
  let bytes ← (List.finRange n).mapM fun i => combineByte (shares.map fun s => (s.1, s.2[i]))
  toArray n "fixed length" bytes

/-- Evaluate one polynomial per byte. -/
noncomputable def evalAt (P : Fin n → GF256[X]) (x : UInt8) : Vector UInt8 n :=
  Vector.ofFn fun b => ((P b).eval ⟨x⟩).val

/-- Byte `b` of a share, as a field element. -/
def byteAt (share : Vector UInt8 n) (b : Fin n) : GF256 := ⟨share[b]⟩

@[simp] theorem byteAt_evalAt (P : Fin n → GF256[X]) (x : UInt8) (b : Fin n) :
    byteAt (evalAt P x) b = (P b).eval ⟨x⟩ := by
  simp [byteAt, evalAt]

theorem ext_byteAt {v w : Vector UInt8 n} (h : ∀ b, byteAt v b = byteAt w b) : v = w := by
  apply Vector.ext
  intro b hb
  exact GF256.mk.inj (h ⟨b, hb⟩)

/-- The polynomials through the given shares, one per byte. -/
noncomputable def sharePolys (shares : List (Share n)) (b : Fin n) : GF256[X] :=
  PointList.interp (points shares b)

/-- The list of shares that both reconstructions accept. -/
structure ValidShares {α : Type} (shares : List (UInt8 × α)) : Prop where
  nonempty : shares ≠ []
  nonzero : ∀ s ∈ shares, s.1 ≠ 0
  nodup : (shares.map Prod.fst).Nodup

theorem validShares_iff {α : Type} {shares : List (UInt8 × α)} :
    ValidShares shares ↔ ¬ (shares.isEmpty ∨ (shares.any fun s => s.1 = 0) ∨
      ¬ (shares.map Prod.fst).Nodup) := by
  simp only [List.isEmpty_iff, List.any_eq_true, decide_eq_true_eq, not_or, not_not, not_exists,
    not_and]
  exact ⟨fun h => ⟨h.nonempty, h.nonzero, h.nodup⟩, fun h => ⟨h.1, h.2.1, h.2.2⟩⟩

/-- Only the indices decide whether shares are accepted. -/
theorem validShares_map {α β : Type} {shares : List (UInt8 × α)} (g : α → β) :
    ValidShares (shares.map fun s => (s.1, g s.2)) ↔ ValidShares shares := by
  have hfst : (shares.map fun s => (s.1, g s.2)).map Prod.fst = shares.map Prod.fst := by
    simp [Function.comp_def]
  constructor
  · rintro ⟨hne, h0, hnd⟩
    exact ⟨fun h => hne (by rw [h]; rfl), fun s hs => h0 _ (List.mem_map_of_mem hs), hfst ▸ hnd⟩
  · rintro ⟨hne, h0, hnd⟩
    exact ⟨by simpa using hne, List.forall_mem_map.mpr h0, hfst ▸ hnd⟩

instance {α : Type} (shares : List (UInt8 × α)) : Decidable (ValidShares shares) :=
  decidable_of_iff _ validShares_iff.symm

@[simp] theorem length_points (shares : List (Share n)) (b : Fin n) :
    (points shares b).length = shares.length := List.length_map _

theorem points_distinct {shares : List (Share n)} (h : ValidShares shares) (b : Fin n) :
    PointList.Distinct (points shares b) := by
  have hfst : (points shares b).map Prod.fst = (shares.map Prod.fst).map GF256.mk := by
    simp [points, Function.comp_def]
  rw [PointList.Distinct, hfst]
  exact h.nodup.map GF256.byteEquiv.injective

theorem points_ne_zero {shares : List (Share n)} (h : ValidShares shares) (b : Fin n) :
    ∀ p ∈ points shares b, p.1 ≠ 0 := by
  intro p hp
  obtain ⟨s, hs, rfl⟩ := List.mem_map.mp hp
  exact fun hz => h.nonzero s hs (GF256.val_eq_zero.mpr hz)

theorem degree_sharePolys_lt {shares : List (Share n)} (h : ValidShares shares) (b : Fin n) :
    (sharePolys shares b).degree < shares.length := by
  have := PointList.degree_interp_lt (points_distinct h b)
  rwa [length_points] at this

/-- Interpolation passes through the shares that it is given. -/
theorem evalAt_sharePolys {shares : List (Share n)} (h : ValidShares shares) {s : Share n}
    (hs : s ∈ shares) : evalAt (sharePolys shares) s.1 = s.2 := by
  apply ext_byteAt
  intro b
  have hmem : (⟨s.1⟩, byteAt s.2 b) ∈ points shares b := List.mem_map.mpr ⟨s, hs, rfl⟩
  rw [byteAt_evalAt]
  exact PointList.eval_interp (points_distinct h b) hmem

/-- Polynomials of lower degree than the number of shares through all shares are those that
interpolation finds. -/
theorem eq_sharePolys {shares : List (Share n)} (h : ValidShares shares)
    {P : Fin n → GF256[X]} (hdeg : ∀ b, (P b).degree < shares.length)
    (hval : ∀ s ∈ shares, evalAt P s.1 = s.2) : P = sharePolys shares := by
  funext b
  apply PointList.eq_interp (points_distinct h b)
  · rw [length_points]
    exact hdeg b
  · intro p hp
    obtain ⟨s, hs, rfl⟩ := List.mem_map.mp hp
    rw [← byteAt_evalAt, hval s hs]
    rfl

/-- Polynomials of degree exactly the number of shares have another value at zero. -/
theorem evalAt_zero_ne {shares : List (Share n)} (h : ValidShares shares)
    {P : Fin n → GF256[X]} (b : Fin n) (hdeg : (P b).degree = shares.length)
    (hval : ∀ s ∈ shares, evalAt P s.1 = s.2) : evalAt (sharePolys shares) 0 ≠ evalAt P 0 := by
  intro heq
  have hne := PointList.eval_zero_ne (points_distinct h b) (points_ne_zero h b) (P := P b)
    (by rw [length_points]; exact hdeg) fun p hp => by
      obtain ⟨s, hs, rfl⟩ := List.mem_map.mp hp
      rw [← byteAt_evalAt, hval s hs]
      rfl
  apply hne
  have hb : byteAt (evalAt (sharePolys shares) 0) b = byteAt (evalAt P 0) b := by rw [heq]
  rwa [byteAt_evalAt, byteAt_evalAt] at hb

/-- The order of the shares does not matter. -/
theorem sharePolys_perm {shares shares' : List (Share n)} (h : ValidShares shares)
    (hperm : shares.Perm shares') : sharePolys shares = sharePolys shares' := by
  funext b
  exact PointList.interp_perm (points_distinct h b) (hperm.map _)

theorem interpolate_ok {shares : List (Share n)} (h : ValidShares shares) :
    ∃ f, interpolate shares = .ok f ∧ ∀ x, f x = .ok (evalAt (sharePolys shares) x) := by
  obtain ⟨polynomials, hp, hmap, -⟩ := mapM_spec (φ := GFPolynomial.toPoly) (Q := fun _ => True)
    (f := fun b => GFPolynomial.interpolate (points shares b)) (g := sharePolys shares)
    (List.finRange n) fun b _ => by
      obtain ⟨r, hr, hrp, -⟩ := GFPolynomial.interpolate_spec (points_distinct h b)
      exact ⟨r, hr, hrp, trivial⟩
  rw [interpolate, if_neg (validShares_iff.mp h), hp, ok_bind]
  refine ⟨_, rfl, fun x => ?_⟩
  have hbytes : polynomials.mapM (fun p => do
      let y ← p.evaluate ⟨x⟩
      .ok y.val) = (.ok (polynomials.map fun p => (p.toPoly.eval ⟨x⟩).val) :
        FastCryptoResult (List UInt8)) :=
    mapM_eq_ok fun p _ => by rw [GFPolynomial.evaluate_eq]; rfl
  have hlist : (polynomials.map fun p => (p.toPoly.eval ⟨x⟩).val) =
      (evalAt (sharePolys shares) x).toList := by
    have hcomp : (polynomials.map fun p => (p.toPoly.eval ⟨x⟩).val) =
        (polynomials.map GFPolynomial.toPoly).map fun P => (P.eval ⟨x⟩).val := by simp
    rw [hcomp, hmap, evalAt, Vector.toList_ofFn, List.ofFn_eq_map, List.map_map]
    rfl
  rw [hbytes, ok_bind, hlist, toArray_toList]

theorem interpolate_fail {shares : List (Share n)} (h : ¬ ValidShares shares) :
    interpolate shares = fail .invalidInput := by
  rw [interpolate, if_pos (not_not.mp (mt validShares_iff.mpr h))]

theorem combineByte_fail {shares : List (UInt8 × UInt8)} (h : ¬ ValidShares shares) :
    combineByte shares = fail .invalidInput := by
  have hcond := not_not.mp (mt validShares_iff.mpr h)
  rw [combineByte, if_pos (by tauto)]

/-- The product over the other indices, as the code filters and subtracts. -/
theorem others_prod (indices : List UInt8) (i : UInt8) :
    ((indices.filter fun j => j ≠ i).map fun j => GF256.sub ⟨j⟩ ⟨i⟩).prod =
      (((indices.map GF256.mk).filter fun x => x ≠ ⟨i⟩).map fun x => ⟨i⟩ - x).prod := by
  rw [List.filter_map, List.map_map]
  congr 1
  have hfilter : (indices.filter fun j => j ≠ i) =
      indices.filter ((fun x : GF256 => decide (x ≠ ⟨i⟩)) ∘ GF256.mk) := by
    apply List.filter_congr
    intro j _
    simp
  rw [hfilter]
  apply List.map_congr_left
  intro j _
  rw [GF256.sub_eq, GF256.sub_eq_add', Function.comp_apply, GF256.sub_eq_add', add_comm]

theorem others_prod_ne_zero (indices : List UInt8) (i : UInt8) :
    ((indices.filter fun j => j ≠ i).map fun j => GF256.sub ⟨j⟩ ⟨i⟩).prod ≠ 0 := by
  rw [Ne, List.prod_eq_zero_iff]
  intro hmem
  obtain ⟨j, hj, hz⟩ := List.mem_map.mp hmem
  have hne : j ≠ i := by simpa using (List.mem_filter.mp hj).2
  have heq := sub_eq_zero.mp hz
  exact hne (GF256.mk.inj heq)

/-- One quotient of the sum: its denominator is not zero, so `unwrap` is safe. -/
theorem quotient_ok {shares : List (UInt8 × UInt8)} (h : ValidShares shares)
    {s : UInt8 × UInt8} (hs : s ∈ shares) : (do
      let others ← GF256.product
        (((shares.map Prod.fst).filter fun j => j ≠ s.1).map fun j => GF256.sub ⟨j⟩ ⟨s.1⟩)
      let denominator ← GF256.mul ⟨s.1⟩ others
      unwrap (GF256.div ⟨s.2⟩ denominator)) =
    (.ok (⟨s.2⟩ / (⟨s.1⟩ * (((shares.map Prod.fst).filter fun j => j ≠ s.1).map
      fun j => GF256.sub ⟨j⟩ ⟨s.1⟩).prod)) : FastCryptoResult GF256) := by
  have hi : (⟨s.1⟩ : GF256) ≠ 0 := fun hz => h.nonzero s hs (GF256.val_eq_zero.mpr hz)
  rw [GF256.product_eq, ok_bind, GF256.mul_eq, ok_bind,
    GF256.div_of_ne_zero _ (mul_ne_zero hi (others_prod_ne_zero _ _)), unwrap_ok]

/-- The quotient formula gives the value at zero of the interpolated polynomial; signs do not
matter in characteristic two. -/
theorem combineByte_ok {shares : List (UInt8 × UInt8)} (h : ValidShares shares) :
    combineByte shares = .ok
      ((PointList.interp (shares.map fun s => (⟨s.1⟩, ⟨s.2⟩))).eval (0 : GF256)).val := by
  have hcond := validShares_iff.mp h
  have hfst : (shares.map fun s => ((⟨s.1⟩ : GF256), (⟨s.2⟩ : GF256))).map Prod.fst =
      (shares.map Prod.fst).map GF256.mk := by simp [Function.comp_def]
  have hdist : PointList.Distinct (shares.map fun s => ((⟨s.1⟩ : GF256), (⟨s.2⟩ : GF256))) := by
    rw [PointList.Distinct, hfst]
    exact h.nodup.map GF256.byteEquiv.injective
  have hzero : ∀ p ∈ shares.map fun s => ((⟨s.1⟩ : GF256), (⟨s.2⟩ : GF256)), p.1 ≠ 0 := by
    intro p hp
    obtain ⟨s, hs, rfl⟩ := List.mem_map.mp hp
    exact fun hz => h.nonzero s hs (GF256.val_eq_zero.mpr hz)
  rw [combineByte, if_neg (by tauto), mapM_eq_ok fun s hs => quotient_ok h hs,
    PointList.eval_zero_interp hdist hzero, hfst]
  simp only [GF256.product_eq, GF256.sum_eq, GF256.mul_eq, ok_bind, List.map_map,
    Function.comp_def, CharTwo.neg_eq, others_prod]

theorem combine_ok {shares : List (Share n)} (h : ValidShares shares) :
    combine shares = .ok (evalAt (sharePolys shares) 0) := by
  have hbyte : ∀ b ∈ List.finRange n, combineByte (shares.map fun s => (s.1, s.2[b])) =
      .ok ((sharePolys shares b).eval 0).val := by
    intro b _
    rw [combineByte_ok ((validShares_map fun v : Vector UInt8 n => v[b]).mpr h), List.map_map]
    rfl
  rw [combine, mapM_eq_ok hbyte, ok_bind]
  have hlist : (List.finRange n).map (fun b => ((sharePolys shares b).eval 0).val) =
      (evalAt (sharePolys shares) 0).toList := by
    rw [evalAt, Vector.toList_ofFn, List.ofFn_eq_map]
    rfl
  rw [hlist, toArray_toList]

/-- With at least one byte to combine, bad shares are an error; of arrays of length zero
`combine` returns the empty array without looking at the shares. -/
theorem combine_fail (hn : n ≠ 0) {shares : List (Share n)} (h : ¬ ValidShares shares) :
    combine shares = fail .invalidInput := by
  have hbyte : ∀ b ∈ List.finRange n, combineByte (shares.map fun s => (s.1, s.2[b])) =
      fail .invalidInput := by
    intro b _
    exact combineByte_fail (mt (validShares_map fun v : Vector UInt8 n => v[b]).mp h)
  obtain ⟨m, rfl⟩ := Nat.exists_eq_succ_of_ne_zero hn
  rw [combine, mapM_eq_fail (e := .invalidInput) (fun b hb => .inr (hbyte b hb))
    ⟨0, List.mem_finRange _, hbyte 0 (List.mem_finRange _)⟩]
  rfl

end Tss

end PysuiCrypto
