import Mathlib

/-!
# Counting the coefficients behind observed values

Over a finite field, rows of coefficients of polynomials without constant term are mapped to
the values of the polynomials at distinct nonzero points. With no more points than
coefficients the map is onto, so all observations come from equally many coefficient rows.
-/
namespace PysuiCrypto.SharingCount

open Polynomial

/-- The fibers of a surjective homomorphism of finite groups have one size. -/
theorem card_fiber_mul {G H : Type*} [AddGroup G] [AddGroup H] [Fintype G] [Fintype H]
    [DecidableEq H] (f : G →+ H) (hf : Function.Surjective f) (y : H) :
    (Finset.univ.filter fun g => f g = y).card * Fintype.card H = Fintype.card G := by
  have hsum := Finset.card_eq_sum_card_fiberwise (f := f) (s := Finset.univ) (t := Finset.univ)
    fun _ _ => Finset.mem_univ _
  have hfiber : ∀ z ∈ (Finset.univ : Finset H),
      (Finset.univ.filter fun g => f g = z).card = (Finset.univ.filter fun g => f g = y).card :=
    fun z _ => AddMonoidHom.card_fiber_eq_of_mem_range f (hf z) (hf y)
  rw [Finset.sum_congr rfl hfiber, Finset.sum_const, smul_eq_mul, Finset.card_univ,
    Finset.card_univ] at hsum
  rw [hsum, Nat.mul_comm]

variable {F ι : Type*} [Field F] {N m : ℕ}

/-- The values at the points of the polynomials with these coefficients above the constant. -/
def observe (x : ι → F) : (Fin N → Fin m → F) →+ (Fin N → ι → F) where
  toFun A b i := ∑ j, A b j * x i ^ (j.val + 1)
  map_zero' := by
    funext b i
    simp
  map_add' A B := by
    funext b i
    simp [add_mul, Finset.sum_add_distrib]

theorem observe_surjective [Fintype ι] [DecidableEq ι] {x : ι → F} (hx : Function.Injective x)
    (h0 : ∀ i, x i ≠ 0) (hm : Fintype.card ι ≤ m) :
    Function.Surjective (observe x : (Fin N → Fin m → F) →+ (Fin N → ι → F)) := by
  intro w
  let R (b : Fin N) : F[X] := Lagrange.interpolate Finset.univ x fun i => w b i / x i
  refine ⟨fun b j => (R b).coeff j, ?_⟩
  funext b i
  have hdeg : (R b).degree < m :=
    (Lagrange.degree_interpolate_lt _ hx.injOn).trans_le (by exact_mod_cast hm)
  have heval : (R b).eval (x i) = w b i / x i :=
    Lagrange.eval_interpolate_at_node _ hx.injOn (Finset.mem_univ i)
  calc ∑ j : Fin m, (R b).coeff j * x i ^ (j.val + 1)
      = (∑ j : Fin m, (R b).coeff j * x i ^ j.val) * x i := by
        rw [Finset.sum_mul]
        exact Finset.sum_congr rfl fun j _ => by ring
    _ = (R b).eval (x i) * x i := by
        rw [eval_eq_sum, ← sum_fin _ (by simp) hdeg]
    _ = w b i := by rw [heval, div_mul_cancel₀ _ (h0 i)]

theorem card_observe [Fintype F] [DecidableEq F] [Fintype ι] [DecidableEq ι] {x : ι → F}
    (hx : Function.Injective x) (h0 : ∀ i, x i ≠ 0) (hm : Fintype.card ι ≤ m)
    (w : Fin N → ι → F) :
    (Finset.univ.filter fun A : Fin N → Fin m → F => observe x A = w).card =
      Fintype.card F ^ (N * (m - Fintype.card ι)) := by
  have hmul := card_fiber_mul _ (observe_surjective (N := N) hx h0 hm) w
  have hpow : Fintype.card F ^ (N * (m - Fintype.card ι)) * Fintype.card (Fin N → ι → F) =
      Fintype.card (Fin N → Fin m → F) := by
    simp only [Fintype.card_fun, Fintype.card_fin]
    rw [← pow_mul, ← pow_mul, ← pow_add, Nat.mul_comm N, ← Nat.add_mul, Nat.sub_add_cancel hm]
  exact Nat.eq_of_mul_eq_mul_right Fintype.card_pos (hmul.trans hpow.symm)

end PysuiCrypto.SharingCount
