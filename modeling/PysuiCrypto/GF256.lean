import PysuiCrypto.Platform

/-!
# The field GF(2⁸) by tables of powers and logarithms

The operations are those of the source: exclusive-or for addition, and table lookups with
their assertion and their checked integer arithmetic for multiplication and division. Each
lookup is shown to succeed, and the tables are shown to make the 256 bytes a field.
-/
namespace PysuiCrypto

open Outcome

structure GF256 where
  val : UInt8
  deriving DecidableEq, Repr

namespace GF256

/-- Table of Eᵢ = gⁱ where g = 0x03 generates the multiplicative group of the field. -/
def EXP : List UInt8 := [
  0x01, 0x03, 0x05, 0x0f, 0x11, 0x33, 0x55, 0xff, 0x1a, 0x2e, 0x72, 0x96, 0xa1, 0xf8, 0x13, 0x35,
  0x5f, 0xe1, 0x38, 0x48, 0xd8, 0x73, 0x95, 0xa4, 0xf7, 0x02, 0x06, 0x0a, 0x1e, 0x22, 0x66, 0xaa,
  0xe5, 0x34, 0x5c, 0xe4, 0x37, 0x59, 0xeb, 0x26, 0x6a, 0xbe, 0xd9, 0x70, 0x90, 0xab, 0xe6, 0x31,
  0x53, 0xf5, 0x04, 0x0c, 0x14, 0x3c, 0x44, 0xcc, 0x4f, 0xd1, 0x68, 0xb8, 0xd3, 0x6e, 0xb2, 0xcd,
  0x4c, 0xd4, 0x67, 0xa9, 0xe0, 0x3b, 0x4d, 0xd7, 0x62, 0xa6, 0xf1, 0x08, 0x18, 0x28, 0x78, 0x88,
  0x83, 0x9e, 0xb9, 0xd0, 0x6b, 0xbd, 0xdc, 0x7f, 0x81, 0x98, 0xb3, 0xce, 0x49, 0xdb, 0x76, 0x9a,
  0xb5, 0xc4, 0x57, 0xf9, 0x10, 0x30, 0x50, 0xf0, 0x0b, 0x1d, 0x27, 0x69, 0xbb, 0xd6, 0x61, 0xa3,
  0xfe, 0x19, 0x2b, 0x7d, 0x87, 0x92, 0xad, 0xec, 0x2f, 0x71, 0x93, 0xae, 0xe9, 0x20, 0x60, 0xa0,
  0xfb, 0x16, 0x3a, 0x4e, 0xd2, 0x6d, 0xb7, 0xc2, 0x5d, 0xe7, 0x32, 0x56, 0xfa, 0x15, 0x3f, 0x41,
  0xc3, 0x5e, 0xe2, 0x3d, 0x47, 0xc9, 0x40, 0xc0, 0x5b, 0xed, 0x2c, 0x74, 0x9c, 0xbf, 0xda, 0x75,
  0x9f, 0xba, 0xd5, 0x64, 0xac, 0xef, 0x2a, 0x7e, 0x82, 0x9d, 0xbc, 0xdf, 0x7a, 0x8e, 0x89, 0x80,
  0x9b, 0xb6, 0xc1, 0x58, 0xe8, 0x23, 0x65, 0xaf, 0xea, 0x25, 0x6f, 0xb1, 0xc8, 0x43, 0xc5, 0x54,
  0xfc, 0x1f, 0x21, 0x63, 0xa5, 0xf4, 0x07, 0x09, 0x1b, 0x2d, 0x77, 0x99, 0xb0, 0xcb, 0x46, 0xca,
  0x45, 0xcf, 0x4a, 0xde, 0x79, 0x8b, 0x86, 0x91, 0xa8, 0xe3, 0x3e, 0x42, 0xc6, 0x51, 0xf3, 0x0e,
  0x12, 0x36, 0x5a, 0xee, 0x29, 0x7b, 0x8d, 0x8c, 0x8f, 0x8a, 0x85, 0x94, 0xa7, 0xf2, 0x0d, 0x17,
  0x39, 0x4b, 0xdd, 0x7c, 0x84, 0x97, 0xa2, 0xfd, 0x1c, 0x24, 0x6c, 0xb4, 0xc7, 0x52, 0xf6]

/-- Table of Lᵢ = LOG[i - 1] such that g^Lᵢ = i where g = 0x03. -/
def LOG : List UInt8 := [
  0x00, 0x19, 0x01, 0x32, 0x02, 0x1a, 0xc6, 0x4b, 0xc7, 0x1b, 0x68, 0x33, 0xee, 0xdf, 0x03, 0x64,
  0x04, 0xe0, 0x0e, 0x34, 0x8d, 0x81, 0xef, 0x4c, 0x71, 0x08, 0xc8, 0xf8, 0x69, 0x1c, 0xc1, 0x7d,
  0xc2, 0x1d, 0xb5, 0xf9, 0xb9, 0x27, 0x6a, 0x4d, 0xe4, 0xa6, 0x72, 0x9a, 0xc9, 0x09, 0x78, 0x65,
  0x2f, 0x8a, 0x05, 0x21, 0x0f, 0xe1, 0x24, 0x12, 0xf0, 0x82, 0x45, 0x35, 0x93, 0xda, 0x8e, 0x96,
  0x8f, 0xdb, 0xbd, 0x36, 0xd0, 0xce, 0x94, 0x13, 0x5c, 0xd2, 0xf1, 0x40, 0x46, 0x83, 0x38, 0x66,
  0xdd, 0xfd, 0x30, 0xbf, 0x06, 0x8b, 0x62, 0xb3, 0x25, 0xe2, 0x98, 0x22, 0x88, 0x91, 0x10, 0x7e,
  0x6e, 0x48, 0xc3, 0xa3, 0xb6, 0x1e, 0x42, 0x3a, 0x6b, 0x28, 0x54, 0xfa, 0x85, 0x3d, 0xba, 0x2b,
  0x79, 0x0a, 0x15, 0x9b, 0x9f, 0x5e, 0xca, 0x4e, 0xd4, 0xac, 0xe5, 0xf3, 0x73, 0xa7, 0x57, 0xaf,
  0x58, 0xa8, 0x50, 0xf4, 0xea, 0xd6, 0x74, 0x4f, 0xae, 0xe9, 0xd5, 0xe7, 0xe6, 0xad, 0xe8, 0x2c,
  0xd7, 0x75, 0x7a, 0xeb, 0x16, 0x0b, 0xf5, 0x59, 0xcb, 0x5f, 0xb0, 0x9c, 0xa9, 0x51, 0xa0, 0x7f,
  0x0c, 0xf6, 0x6f, 0x17, 0xc4, 0x49, 0xec, 0xd8, 0x43, 0x1f, 0x2d, 0xa4, 0x76, 0x7b, 0xb7, 0xcc,
  0xbb, 0x3e, 0x5a, 0xfb, 0x60, 0xb1, 0x86, 0x3b, 0x52, 0xa1, 0x6c, 0xaa, 0x55, 0x29, 0x9d, 0x97,
  0xb2, 0x87, 0x90, 0x61, 0xbe, 0xdc, 0xfc, 0xbc, 0x95, 0xcf, 0xcd, 0x37, 0x3f, 0x5b, 0xd1, 0x53,
  0x39, 0x84, 0x3c, 0x41, 0xa2, 0x6d, 0x47, 0x14, 0x2a, 0x9e, 0x5d, 0x56, 0xf2, 0xd3, 0xab, 0x44,
  0x11, 0x92, 0xd9, 0x23, 0x20, 0x2e, 0x89, 0xb4, 0x7c, 0xb8, 0x26, 0x77, 0x99, 0xe3, 0xa5, 0x67,
  0x4a, 0xed, 0xde, 0xc5, 0x31, 0xfe, 0x18, 0x0d, 0x63, 0x8c, 0x80, 0xc0, 0xf7, 0x70, 0x07]

def zero : GF256 := ⟨0⟩

def one : GF256 := ⟨1⟩

def log (x : GF256) : FastCryptoResult ℕ :=
  if x.val = 0 then abort "assertion `left != right` failed"
  else do
    let entry ← index LOG (x.val.toNat - 1)
    .ok entry.toNat

def exp (x : ℕ) : FastCryptoResult GF256 := do
  let entry ← index EXP (x % 255)
  .ok ⟨entry⟩

def add (a b : GF256) : GF256 := ⟨a.val ^^^ b.val⟩

def sub (a b : GF256) : GF256 := add a b

def neg (a : GF256) : GF256 := sub zero a

def mul (a b : GF256) : FastCryptoResult GF256 :=
  if a.val = 0 ∨ b.val = 0 then .ok zero
  else do
    let i ← log a
    let j ← log b
    let power ← checkedAdd (2 ^ 16) i j
    exp power

def div (a b : GF256) : FastCryptoResult GF256 :=
  if b.val = 0 then fail .invalidInput
  else if a.val = 0 then .ok zero
  else do
    let i ← log a
    let j ← log b
    let shifted ← checkedAdd (2 ^ 16) 255 i
    let power ← checkedSub shifted j
    exp power

def product (xs : List GF256) : FastCryptoResult GF256 := xs.foldlM mul ⟨1⟩

def sum (xs : List GF256) : GF256 := xs.foldl add ⟨0⟩

def rand {R : Type} [AllowedRng R] (rng : R) : GF256 × R :=
  let (byte, rng) := AllowedRng.gen rng
  (⟨byte⟩, rng)

/-- The power of the generator, read off the table. -/
def power (i : ℕ) : UInt8 := EXP.getD (i % 255) 0

/-- The exponent of a nonzero byte, read off the table. -/
def exponent (a : UInt8) : ℕ := (LOG.getD (a.toNat - 1) 0).toNat

/-- Multiplication by g = x + 1, that is by 0x03, with reduction by x⁸ + x⁴ + x³ + x + 1. -/
def timesGenerator (a : UInt8) : UInt8 :=
  (a <<< 1) ^^^ (if a.toBitVec.msb then 0x1b else 0) ^^^ a

theorem EXP_length : EXP.length = 255 := by decide +kernel

theorem LOG_length : LOG.length = 255 := by decide +kernel

private theorem exponent_power_table : ∀ i < 255, exponent (power i) = i := by decide +kernel

private theorem power_ne_zero_table : ∀ i < 255, power i ≠ 0 := by decide +kernel

private theorem power_succ_table : ∀ i < 255, power (i + 1) = timesGenerator (power i) := by
  decide +kernel

private theorem power_exponent_table : ∀ n < 256, n ≠ 0 →
    power (exponent (UInt8.ofNat n)) = UInt8.ofNat n ∧ exponent (UInt8.ofNat n) < 255 := by
  decide +kernel

@[simp] theorem power_mod (i : ℕ) : power (i % 255) = power i := by simp [power]

theorem power_add_mod (i j : ℕ) : power (i % 255 + j) = power (i + j) := by
  rw [← power_mod, Nat.mod_add_mod, power_mod]

theorem exponent_power (i : ℕ) : exponent (power i) = i % 255 := by
  rw [← power_mod, exponent_power_table _ (Nat.mod_lt _ (by norm_num))]

theorem power_ne_zero (i : ℕ) : power i ≠ 0 := by
  rw [← power_mod]
  exact power_ne_zero_table _ (Nat.mod_lt _ (by norm_num))

theorem power_succ (i : ℕ) : power (i + 1) = timesGenerator (power i) := by
  rw [← power_add_mod, power_succ_table _ (Nat.mod_lt _ (by norm_num)), power_mod]

theorem power_exponent {a : UInt8} (ha : a ≠ 0) : power (exponent a) = a := by
  have hn : a.toNat ≠ 0 := fun h => ha (UInt8.toNat_inj.mp h)
  have h := (power_exponent_table a.toNat a.toNat_lt hn).1
  rwa [UInt8.ofNat_toNat] at h

theorem exponent_lt {a : UInt8} (ha : a ≠ 0) : exponent a < 255 := by
  have hn : a.toNat ≠ 0 := fun h => ha (UInt8.toNat_inj.mp h)
  have h := (power_exponent_table a.toNat a.toNat_lt hn).2
  rwa [UInt8.ofNat_toNat] at h

theorem timesGenerator_zero : timesGenerator 0 = 0 := by decide

/-- The reduction step is linear: the top bit of a sum is the sum of the top bits. -/
theorem timesGenerator_xor (a b : UInt8) :
    timesGenerator (a ^^^ b) = timesGenerator a ^^^ timesGenerator b := by
  have hshift : (a ^^^ b) <<< 1 = (a <<< 1) ^^^ (b <<< 1) := by
    apply UInt8.toBitVec_inj.mp
    simp [BitVec.shiftLeft_xor_distrib]
  have hmsb : (a ^^^ b).toBitVec.msb = (a.toBitVec.msb ^^ b.toBitVec.msb) := by
    simp [BitVec.msb_xor]
  have hreduce : ∀ p q : Bool, (if (p ^^ q) then (0x1b : UInt8) else 0) =
      (if p then 0x1b else 0) ^^^ (if q then 0x1b else 0) := by decide
  simp only [timesGenerator, hshift, hmsb, hreduce]
  ac_rfl

/-- Multiplication by the k-th power of the generator. -/
def timesPower (k : ℕ) (a : UInt8) : UInt8 := timesGenerator^[k] a

theorem timesPower_zero (k : ℕ) : timesPower k 0 = 0 := by
  induction k with
  | zero => rfl
  | succ k ih => rw [timesPower, Function.iterate_succ_apply', ← timesPower, ih, timesGenerator_zero]

theorem timesPower_xor (k : ℕ) (a b : UInt8) :
    timesPower k (a ^^^ b) = timesPower k a ^^^ timesPower k b := by
  induction k with
  | zero => rfl
  | succ k ih =>
    simp only [timesPower, Function.iterate_succ_apply'] at ih ⊢
    rw [ih, timesGenerator_xor]

theorem power_add (k i : ℕ) : power (k + i) = timesPower k (power i) := by
  induction k with
  | zero => simp [timesPower]
  | succ k ih =>
    rw [show k + 1 + i = k + i + 1 by omega, power_succ, ih, timesPower, timesPower,
      Function.iterate_succ_apply']

instance : Zero GF256 := ⟨zero⟩
instance : One GF256 := ⟨one⟩
instance : Add GF256 := ⟨add⟩
instance : Sub GF256 := ⟨sub⟩
instance : Neg GF256 := ⟨neg⟩

/-- The product as a total function: the table value where both factors are nonzero. -/
instance : Mul GF256 where
  mul a b := if a.val = 0 ∨ b.val = 0 then 0 else ⟨power (exponent a.val + exponent b.val)⟩

instance : Inv GF256 where
  inv a := if a.val = 0 then 0 else ⟨power (255 - exponent a.val)⟩

@[ext] theorem ext {a b : GF256} (h : a.val = b.val) : a = b := by
  cases a
  cases b
  exact congrArg GF256.mk h

@[simp] theorem zero_val : (0 : GF256).val = 0 := rfl
@[simp] theorem one_val : (1 : GF256).val = 1 := rfl
@[simp] theorem add_val (a b : GF256) : (a + b).val = a.val ^^^ b.val := rfl
@[simp] theorem sub_val (a b : GF256) : (a - b).val = a.val ^^^ b.val := rfl
@[simp] theorem neg_val (a : GF256) : (-a).val = a.val := UInt8.zero_xor

theorem mul_def (a b : GF256) :
    a * b = if a.val = 0 ∨ b.val = 0 then 0 else ⟨power (exponent a.val + exponent b.val)⟩ := rfl

theorem inv_def (a : GF256) :
    a⁻¹ = if a.val = 0 then 0 else ⟨power (255 - exponent a.val)⟩ := rfl

theorem val_eq_zero {a : GF256} : a.val = 0 ↔ a = 0 :=
  ⟨fun h => ext h, fun h => by rw [h]; rfl⟩

theorem mul_val_of_ne {a : GF256} (ha : a.val ≠ 0) (b : GF256) :
    (a * b).val = timesPower (exponent a.val) b.val := by
  by_cases hb : b.val = 0
  · simp [mul_def, hb, timesPower_zero]
  · rw [mul_def, if_neg (by simp [ha, hb]), power_add, power_exponent hb]

theorem mul_val_ne_zero {a b : GF256} (ha : a.val ≠ 0) (hb : b.val ≠ 0) : (a * b).val ≠ 0 := by
  rw [mul_def, if_neg (by simp [ha, hb])]
  exact power_ne_zero _

theorem exponent_mul {a b : GF256} (ha : a.val ≠ 0) (hb : b.val ≠ 0) :
    exponent (a * b).val = (exponent a.val + exponent b.val) % 255 := by
  rw [mul_def, if_neg (by simp [ha, hb]), exponent_power]

private theorem mul_comm' (a b : GF256) : a * b = b * a := by
  simp only [mul_def, or_comm, Nat.add_comm]

private theorem mul_assoc' (a b c : GF256) : a * b * c = a * (b * c) := by
  by_cases ha : a.val = 0
  · simp [mul_def, ha]
  by_cases hb : b.val = 0
  · simp [mul_def, hb]
  by_cases hc : c.val = 0
  · simp [mul_def, hc]
  have hab := mul_val_ne_zero ha hb
  have hbc := mul_val_ne_zero hb hc
  rw [mul_def (a * b) c, mul_def a (b * c), if_neg (by simp [hab, hc]),
    if_neg (by simp [ha, hbc]), exponent_mul ha hb, exponent_mul hb hc, power_add_mod,
    Nat.add_comm (exponent a.val) (_ % 255), power_add_mod]
  congr 2
  omega

private theorem one_mul' (a : GF256) : 1 * a = a := by
  apply ext
  rw [mul_val_of_ne (by simp)]
  rfl

private theorem left_distrib' (a b c : GF256) : a * (b + c) = a * b + a * c := by
  apply ext
  by_cases ha : a.val = 0
  · simp [mul_def, ha]
  · simp only [mul_val_of_ne ha, add_val, timesPower_xor]

private theorem mul_inv_cancel' (a : GF256) (ha : a ≠ 0) : a * a⁻¹ = 1 := by
  have hv : a.val ≠ 0 := fun h => ha (val_eq_zero.mp h)
  have hlt := exponent_lt hv
  have hinv : (a⁻¹).val = power (255 - exponent a.val) := by rw [inv_def, if_neg hv]
  apply ext
  rw [mul_val_of_ne hv, hinv, ← power_add, show exponent a.val + (255 - exponent a.val) = 255 by omega]
  decide

instance : Field GF256 where
  add_assoc a b c := ext (UInt8.xor_assoc ..)
  zero_add a := ext UInt8.zero_xor
  add_zero a := ext UInt8.xor_zero
  add_comm a b := ext (UInt8.xor_comm ..)
  neg_add_cancel a := ext (by simp)
  sub_eq_add_neg a b := ext (by simp)
  nsmul := nsmulRec
  zsmul := zsmulRec
  mul_assoc := mul_assoc'
  one_mul := one_mul'
  mul_one a := by rw [mul_comm', one_mul']
  zero_mul a := by simp [mul_def]
  mul_zero a := by simp [mul_def]
  left_distrib := left_distrib'
  right_distrib a b c := by rw [mul_comm', left_distrib', mul_comm' a, mul_comm' b]
  mul_comm := mul_comm'
  exists_pair_ne := ⟨0, 1, by decide⟩
  mul_inv_cancel := mul_inv_cancel'
  inv_zero := by decide
  nnqsmul := _
  nnqsmul_def := fun _ _ => rfl
  qsmul := _
  qsmul_def := fun _ _ => rfl

@[simp] theorem zero_eq : zero = 0 := rfl
@[simp] theorem one_eq : one = 1 := rfl
@[simp] theorem mk_zero : (⟨0⟩ : GF256) = 0 := rfl
@[simp] theorem mk_one : (⟨1⟩ : GF256) = 1 := rfl
@[simp] theorem add_eq (a b : GF256) : add a b = a + b := rfl
@[simp] theorem sub_eq (a b : GF256) : sub a b = a - b := rfl
@[simp] theorem neg_eq (a : GF256) : neg a = -a := rfl

instance : CharP GF256 2 :=
  CharTwo.of_one_ne_zero_of_two_eq_zero one_ne_zero (by decide)

theorem log_eq {a : GF256} (ha : a.val ≠ 0) : log a = .ok (exponent a.val) := by
  have hlen : a.val.toNat - 1 < LOG.length := by
    have := a.val.toNat_lt
    rw [LOG_length]
    omega
  rw [log, if_neg ha, index_of_lt hlen]
  simp [exponent, List.getD_eq_getElem?_getD, List.getElem?_eq_getElem hlen]

@[simp] theorem exp_eq (i : ℕ) : exp i = .ok ⟨power i⟩ := by
  have hlen : i % 255 < EXP.length := by
    rw [EXP_length]
    exact Nat.mod_lt _ (by norm_num)
  rw [exp, index_of_lt hlen]
  simp [power, List.getD_eq_getElem?_getD, List.getElem?_eq_getElem hlen]

/-- Multiplication never reaches the assertion in `log` and computes the field product. -/
@[simp] theorem mul_eq (a b : GF256) : mul a b = .ok (a * b) := by
  by_cases h : a.val = 0 ∨ b.val = 0
  · simp [mul, mul_def, h]
  · have ⟨ha, hb⟩ := not_or.mp h
    have hai := exponent_lt ha
    have hbi := exponent_lt hb
    rw [mul, if_neg h, mul_def, if_neg h, log_eq ha, log_eq hb]
    simp only [ok_bind, exp_eq,
      checkedAdd_of_lt (show exponent a.val + exponent b.val < 2 ^ 16 by omega)]

/-- Division by zero is an error; otherwise the subtraction of exponents does not underflow
and the result is the field quotient. -/
theorem div_eq (a b : GF256) :
    div a b = if b = 0 then fail .invalidInput else .ok (a / b) := by
  by_cases hb : b.val = 0
  · simp [div, val_eq_zero.mp hb]
  have hb0 : b ≠ 0 := fun h => hb (val_eq_zero.mpr h)
  rw [if_neg hb0, div, if_neg hb]
  by_cases ha : a.val = 0
  · simp [val_eq_zero.mp ha]
  have hai := exponent_lt ha
  have hbi := exponent_lt hb
  have hinv : (b⁻¹).val = power (255 - exponent b.val) := by rw [inv_def, if_neg hb]
  have hquot : a / b = ⟨power (255 + exponent a.val - exponent b.val)⟩ := by
    apply ext
    rw [div_eq_mul_inv, mul_val_of_ne ha, hinv, ← power_add]
    congr 1
    omega
  rw [if_neg ha, log_eq ha, log_eq hb, hquot]
  simp only [ok_bind, exp_eq,
    checkedAdd_of_lt (show 255 + exponent a.val < 2 ^ 16 by omega),
    checkedSub_of_le (show exponent b.val ≤ 255 + exponent a.val by omega)]

theorem div_of_ne_zero (a : GF256) {b : GF256} (hb : b ≠ 0) : div a b = .ok (a / b) := by
  rw [div_eq, if_neg hb]

@[simp] theorem product_eq (xs : List GF256) : product xs = .ok xs.prod := by
  rw [product, foldlM_eq_ok mul_eq, mk_one, List.prod_eq_foldl]

@[simp] theorem sum_eq (xs : List GF256) : sum xs = xs.sum := by
  rw [List.sum_eq_foldl]
  rfl

theorem sub_eq_add' (a b : GF256) : a - b = a + b := rfl

/-- Field elements and bytes, one to one. -/
def byteEquiv : UInt8 ≃ GF256 where
  toFun := GF256.mk
  invFun := GF256.val
  left_inv _ := rfl
  right_inv _ := rfl

instance : Fintype GF256 := Fintype.ofEquiv _ byteEquiv

theorem card_byte : Fintype.card UInt8 = 256 :=
  FinEnum.card_eq_fintypeCard.symm

theorem card_eq : Fintype.card GF256 = 256 :=
  (Fintype.card_congr byteEquiv.symm).trans card_byte

end GF256

end PysuiCrypto
