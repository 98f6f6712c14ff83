import PysuiCrypto.GF256
import PysuiCrypto.Remainders

/-!
# The tables and the polynomials

The source documents its field as the quotient of the binary polynomials by
x⁸ + x⁴ + x³ + x + 1 and computes with tables. A byte stands for the polynomial of its bits, and
the operations on the tables are the operations on the polynomials modulo that polynomial.
-/
namespace PysuiCrypto

open Outcome Polynomial

namespace GF256

/-- x⁸ + x⁴ + x³ + x + 1. -/
noncomputable def modulus : (ZMod 2)[X] := X ^ 8 + (X ^ 4 + X ^ 3 + X + 1)

/-- The value of a polynomial at the byte that stands for x. -/
noncomputable def atX : (ZMod 2)[X] →+* GF256 :=
  eval₂RingHom (ZMod.castHom (dvd_refl 2) GF256) ⟨2⟩

/-- The polynomial whose coefficients are the bits of the byte. -/
noncomputable def bitPoly (a : GF256) : (ZMod 2)[X] :=
  ∑ i ∈ Finset.range 8, if a.val.toNat.testBit i then X ^ i else 0

theorem modulus_monic : modulus.Monic := by
  apply monic_X_pow_add
  compute_degree!

theorem natDegree_modulus : modulus.natDegree = 8 := by
  unfold modulus
  compute_degree!

theorem atX_X : atX X = ⟨2⟩ := eval₂_X _ _

theorem atX_modulus : atX modulus = 0 := by
  simp only [modulus, map_add, map_pow, map_one, atX_X]
  decide +kernel

theorem sum_bits : ∀ n < 256,
    (∑ i ∈ Finset.range 8, if n.testBit i then (⟨2⟩ : GF256) ^ i else 0) = ⟨UInt8.ofNat n⟩ := by
  decide +kernel

theorem atX_bitPoly (a : GF256) : atX a.bitPoly = a := by
  have hsum := sum_bits a.val.toNat a.val.toNat_lt
  rw [UInt8.ofNat_toNat] at hsum
  rw [bitPoly, map_sum]
  simp only [apply_ite atX, map_pow, map_zero, atX_X]
  exact hsum

theorem degree_bitPoly_lt (a : GF256) : a.bitPoly.degree < modulus.degree := by
  rw [degree_eq_natDegree modulus_monic.ne_zero, natDegree_modulus]
  refine (degree_sum_le _ _).trans_lt ((Finset.sup_lt_iff (WithBot.bot_lt_coe 8)).mpr ?_)
  intro i hi
  split_ifs
  · rw [degree_X_pow]
    exact Nat.cast_lt.mpr (Finset.mem_range.mp hi)
  · exact WithBot.bot_lt_coe 8

theorem remainders : Remainders modulus atX bitPoly := by
  refine .of_card modulus_monic atX_modulus atX_bitPoly degree_bitPoly_lt ?_
  rw [card_eq, ZMod.card, natDegree_modulus]
  norm_num

/-- The table lists the powers of the byte that stands for x + 1. -/
theorem mk_power (i : ℕ) : (⟨power i⟩ : GF256) = ⟨3⟩ ^ i := by
  induction i with
  | zero => rfl
  | succ i ih =>
    have hexponent : exponent 3 = 1 := by decide +kernel
    have hmul : ((⟨3⟩ : GF256) * ⟨power i⟩).val = timesGenerator (power i) := by
      rw [mul_val_of_ne (by decide), hexponent]
      rfl
    rw [pow_succ', ← ih]
    exact ext ((power_succ i).trans hmul.symm)

theorem bitPoly_power (i : ℕ) : bitPoly ⟨power i⟩ = (X + 1) ^ i %ₘ modulus := by
  have hgenerator : atX (X + 1) = ⟨3⟩ := by
    rw [map_add, map_one, atX_X]
    decide
  rw [← remainders.repr_map_eq, map_pow, hgenerator, mk_power]

theorem log_eq_ok {a : GF256} {n : ℕ} :
    log a = .ok n ↔ a ≠ 0 ∧ n < 255 ∧ a.bitPoly = (X + 1) ^ n %ₘ modulus := by
  by_cases ha : a.val = 0
  · rw [val_eq_zero] at ha
    simp [ha, log, abort]
  · rw [log_eq ha, Except.ok.injEq, ← bitPoly_power, remainders.injective.eq_iff]
    constructor
    · rintro rfl
      exact ⟨mt val_eq_zero.mpr ha, exponent_lt ha, ext (power_exponent ha).symm⟩
    · rintro ⟨-, hn, rfl⟩
      rw [exponent_power, Nat.mod_eq_of_lt hn]

theorem div_eq_ok {a b c : GF256} :
    div a b = .ok c ↔ b.bitPoly ≠ 0 ∧ (b.bitPoly * c.bitPoly) %ₘ modulus = a.bitPoly := by
  have hzero : b.bitPoly = 0 ↔ b = 0 := by
    rw [← remainders.injective.eq_iff, ← map_zero atX, remainders.repr_map]
    rw [degree_zero]
    exact bot_lt_iff_ne_bot.mpr (degree_ne_bot.mpr modulus_monic.ne_zero)
  rw [← remainders.repr_mul, remainders.injective.eq_iff, Ne, hzero, div_eq]
  split_ifs with hb
  · simp [hb, fail]
  · rw [Except.ok.injEq, div_eq_iff hb, mul_comm c b]
    exact ⟨fun h => ⟨hb, h.symm⟩, fun h => h.2.symm⟩

/-- Bytes are the binary polynomials of degree below 8, one for each; addition and subtraction
are those of polynomials; multiplication, of two factors and of a list, never panics and returns
the product modulo the irreducible x⁸ + x⁴ + x³ + x + 1; division returns what it should be
multiplied with, for every divisor but zero; and the tables hold the powers of x + 1 and their
exponents. -/
theorem tables_refine_polynomials :
    Function.Injective bitPoly ∧
    (∀ q : (ZMod 2)[X], (∃ a, bitPoly a = q) ↔ q.degree < modulus.degree) ∧
    (∀ a b, (add a b).bitPoly = a.bitPoly + b.bitPoly ∧
      (sub a b).bitPoly = a.bitPoly - b.bitPoly) ∧
    (∀ a b, ∃ c, mul a b = .ok c ∧ c.bitPoly = (a.bitPoly * b.bitPoly) %ₘ modulus) ∧
    (∀ xs, ∃ c, product xs = .ok c ∧ c.bitPoly = (xs.map bitPoly).prod %ₘ modulus) ∧
    (∀ a b c, div a b = .ok c ↔
      b.bitPoly ≠ 0 ∧ (b.bitPoly * c.bitPoly) %ₘ modulus = a.bitPoly) ∧
    (∀ i, ∃ c, exp i = .ok c ∧ c.bitPoly = (X + 1) ^ i %ₘ modulus) ∧
    (∀ a n, log a = .ok n ↔ a ≠ 0 ∧ n < 255 ∧ a.bitPoly = (X + 1) ^ n %ₘ modulus) ∧
    Irreducible modulus := by
  refine ⟨remainders.injective, fun q => remainders.exists_repr_iff, fun a b => ⟨?_, ?_⟩,
    fun a b => ⟨a * b, mul_eq a b, remainders.repr_mul a b⟩,
    fun xs => ⟨xs.prod, product_eq xs, remainders.repr_prod xs⟩, fun a b c => div_eq_ok,
    fun i => ⟨_, exp_eq i, bitPoly_power i⟩, fun a n => log_eq_ok, remainders.prime.irreducible⟩
  · exact remainders.repr_add a b
  · rw [CharTwo.sub_eq_add]
    exact remainders.repr_add a b

end GF256

end PysuiCrypto
