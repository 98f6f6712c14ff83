import Mathlib

/-!
# Rings of remainders

A ring onto which polynomials are mapped, such that every element has one representative of
degree below a monic modulus, which is mapped to zero. Sums of representatives represent sums, and
products do after division by the modulus. A finite ring of the right size is such a ring as soon
as its elements have representatives at all.
-/
namespace PysuiCrypto

open Polynomial

variable {R A : Type} [CommRing R] [CommRing A]

structure Remainders (p : R[X]) (φ : R[X] →+* A) (s : A → R[X]) : Prop where
  monic : p.Monic
  map_modulus : φ p = 0
  map_repr : ∀ a, φ (s a) = a
  degree_lt : ∀ a, (s a).degree < p.degree
  repr_map : ∀ {q}, q.degree < p.degree → s (φ q) = q

namespace Remainders

/-- Elements and polynomials of small degree are equally many. -/
theorem of_card [Nontrivial R] [Fintype R] [Fintype A] {p : R[X]} {φ : R[X] →+* A} {s : A → R[X]}
    (hp : p.Monic) (hmap : φ p = 0) (hrepr : ∀ a, φ (s a) = a)
    (hdeg : ∀ a, (s a).degree < p.degree)
    (hcard : Fintype.card A = Fintype.card R ^ p.natDegree) : Remainders p φ s where
  monic := hp
  map_modulus := hmap
  map_repr := hrepr
  degree_lt := hdeg
  repr_map {q} hq := by
    have hdegree : p.degree = p.natDegree := degree_eq_natDegree hp.ne_zero
    let f : A → degreeLT R p.natDegree := fun a => ⟨s a, mem_degreeLT.mpr (hdegree ▸ hdeg a)⟩
    have hinj : Function.Injective f := by
      intro a b h
      have hs : s a = s b := congrArg Subtype.val h
      rw [← hrepr a, hs, hrepr]
    have hsize : Nat.card (degreeLT R p.natDegree) = Fintype.card A := by
      rw [Nat.card_congr (degreeLTEquiv R p.natDegree).toEquiv, Nat.card_eq_fintype_card,
        Fintype.card_fun, Fintype.card_fin, hcard]
    have hfinite : Finite (degreeLT R p.natDegree) :=
      Finite.of_equiv _ (degreeLTEquiv R p.natDegree).symm.toEquiv
    have hbij := hinj.bijective_of_nat_card_le (hsize.trans Nat.card_eq_fintype_card.symm).le
    obtain ⟨a, ha⟩ := hbij.surjective ⟨q, mem_degreeLT.mpr (hdegree ▸ hq)⟩
    have hs : s a = q := congrArg Subtype.val ha
    rw [← hs, hrepr]

variable {p : R[X]} {φ : R[X] →+* A} {s : A → R[X]} (h : Remainders p φ s)
include h

theorem injective : Function.Injective s := by
  intro a b hs
  rw [← h.map_repr a, hs, h.map_repr]

theorem exists_repr_iff {q : R[X]} : (∃ a, s a = q) ↔ q.degree < p.degree := by
  constructor
  · rintro ⟨a, rfl⟩
    exact h.degree_lt a
  · intro hq
    exact ⟨φ q, h.repr_map hq⟩

theorem map_modByMonic (q : R[X]) : φ (q %ₘ p) = φ q := by
  have hdiv := congrArg φ (modByMonic_add_div q p)
  rwa [map_add, map_mul, h.map_modulus, zero_mul, add_zero] at hdiv

theorem repr_add (a b : A) : s (a + b) = s a + s b := by
  have hsum : φ (s a + s b) = a + b := by rw [map_add, h.map_repr, h.map_repr]
  have hdeg := (degree_add_le (s a) (s b)).trans_lt (max_lt (h.degree_lt a) (h.degree_lt b))
  rw [← hsum, h.repr_map hdeg]

variable [Nontrivial R]

/-- The representative of any image is the remainder. -/
theorem repr_map_eq (q : R[X]) : s (φ q) = q %ₘ p := by
  rw [← h.map_modByMonic, h.repr_map (degree_modByMonic_lt q h.monic)]

theorem repr_mul (a b : A) : s (a * b) = (s a * s b) %ₘ p := by
  rw [← h.repr_map_eq, map_mul, h.map_repr, h.map_repr]

theorem repr_prod (xs : List A) : s xs.prod = (xs.map s).prod %ₘ p := by
  have hrepr : (xs.map s).map φ = xs := by
    rw [List.map_map]
    exact (List.map_congr_left fun a _ => h.map_repr a).trans (List.map_id xs)
  rw [← h.repr_map_eq, map_list_prod, hrepr]

theorem map_eq_zero_iff {q : R[X]} : φ q = 0 ↔ p ∣ q := by
  constructor
  · intro hq
    rw [← modByMonic_eq_zero_iff_dvd h.monic, ← h.repr_map_eq, hq, ← map_zero φ, h.repr_map_eq,
      zero_modByMonic]
  · rintro ⟨r, rfl⟩
    rw [map_mul, h.map_modulus, zero_mul]

/-- If the ring has no zero divisors, the modulus is a prime polynomial. -/
theorem prime [IsDomain A] : Prime p := by
  have hker : RingHom.ker φ = Ideal.span {p} := by
    ext q
    rw [RingHom.mem_ker, h.map_eq_zero_iff, Ideal.mem_span_singleton]
  have hprime := RingHom.ker_isPrime φ
  rwa [hker, Ideal.span_singleton_prime h.monic.ne_zero] at hprime

end Remainders

end PysuiCrypto
