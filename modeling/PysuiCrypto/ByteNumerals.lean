import Mathlib

/-!
# Natural numbers as byte strings

Values of byte strings in both byte orders. Strings of one length are determined by their
value; so are big-endian strings without leading zeros, which are the shortest for their value.
-/
namespace PysuiCrypto.ByteNumerals

/-- The value of a byte string whose first byte is the least significant. -/
def leValue : List UInt8 → ℕ
  | [] => 0
  | b :: bs => b.toNat + 256 * leValue bs

/-- The low `w` bytes of a number, the least significant first. -/
def leBytes : ℕ → ℕ → List UInt8
  | 0, _ => []
  | w + 1, n => UInt8.ofNat n :: leBytes w (n / 256)

theorem leValue_eq_ofDigits (bs : List UInt8) :
    leValue bs = Nat.ofDigits 256 (bs.map UInt8.toNat) := by
  induction bs with
  | nil => rfl
  | cons b bs ih => rw [leValue, ih, List.map_cons, Nat.ofDigits_cons]

theorem leValue_lt (bs : List UInt8) : leValue bs < 256 ^ bs.length := by
  have hlt : ∀ d ∈ bs.map UInt8.toNat, d < 256 := by
    intro d hd
    obtain ⟨b, -, rfl⟩ := List.mem_map.mp hd
    exact b.toNat_lt
  simpa [leValue_eq_ofDigits] using Nat.ofDigits_lt_base_pow_length (by omega) hlt

theorem leValue_inj {as bs : List UInt8} (hlen : as.length = bs.length)
    (h : leValue as = leValue bs) : as = bs := by
  have hlt : ∀ cs : List UInt8, ∀ d ∈ cs.map UInt8.toNat, d < 256 := by
    intro cs d hd
    obtain ⟨b, -, rfl⟩ := List.mem_map.mp hd
    exact b.toNat_lt
  rw [leValue_eq_ofDigits, leValue_eq_ofDigits] at h
  have hmap := Nat.ofDigits_inj_of_len_eq (by omega) (by simpa using hlen) (hlt as) (hlt bs) h
  exact List.map_injective_iff.mpr (fun _ _ => UInt8.toNat_inj.mp) hmap

theorem leValue_append (as bs : List UInt8) :
    leValue (as ++ bs) = leValue as + 256 ^ as.length * leValue bs := by
  simp only [leValue_eq_ofDigits, List.map_append, Nat.ofDigits_append, List.length_map]

@[simp] theorem length_leBytes (w n : ℕ) : (leBytes w n).length = w := by
  induction w generalizing n with
  | zero => rfl
  | succ w ih => rw [leBytes, List.length_cons, ih]

/-- The low bytes of a number have its value modulo a power of 256. -/
theorem leValue_leBytes (w n : ℕ) : leValue (leBytes w n) = n % 256 ^ w := by
  induction w generalizing n with
  | zero => rw [leBytes, leValue, pow_zero, Nat.mod_one]
  | succ w ih =>
    rw [leBytes, leValue, ih, UInt8.toNat_ofNat', pow_succ' 256 w, Nat.mod_mul]

theorem leValue_leBytes_of_lt {w n : ℕ} (h : n < 256 ^ w) : leValue (leBytes w n) = n := by
  rw [leValue_leBytes, Nat.mod_eq_of_lt h]

theorem leBytes_eq_map_range (w n : ℕ) :
    leBytes w n = (List.range w).map fun k => UInt8.ofNat (n / 256 ^ k) := by
  induction w generalizing n with
  | zero => rfl
  | succ w ih =>
    rw [leBytes, ih, List.range_succ_eq_map, List.map_cons, List.map_map, pow_zero, Nat.div_one]
    refine congrArg _ (List.map_congr_left fun k _ => ?_)
    rw [Function.comp_apply, Nat.div_div_eq_div_mul, pow_succ']

/-- The eight bytes of an integer, the lowest first. -/
def u64Bytes (n : UInt64) : List UInt8 := leBytes 8 n.toNat

theorem leValue_u64Bytes (n : UInt64) : leValue (u64Bytes n) = n.toNat :=
  leValue_leBytes_of_lt (n.toNat_lt.trans_eq (by norm_num))

/-- The value of a byte string whose first byte is the most significant. -/
def beValue (bs : List UInt8) : ℕ := leValue bs.reverse

theorem beValue_lt (bs : List UInt8) : beValue bs < 256 ^ bs.length := by
  simpa [beValue] using leValue_lt bs.reverse

theorem beValue_inj {as bs : List UInt8} (hlen : as.length = bs.length)
    (h : beValue as = beValue bs) : as = bs :=
  List.reverse_injective (leValue_inj (by simpa using hlen) h)

theorem beValue_cons (b : UInt8) (bs : List UInt8) :
    beValue (b :: bs) = beValue bs + 256 ^ bs.length * b.toNat := by
  rw [beValue, List.reverse_cons, leValue_append, List.length_reverse]
  simp [beValue, leValue]

/-- Leading zeros do not change the value. -/
theorem beValue_zeros_append {zs : List UInt8} (hz : ∀ z ∈ zs, z = 0) (bs : List UInt8) :
    beValue (zs ++ bs) = beValue bs := by
  induction zs with
  | nil => rfl
  | cons z zs ih =>
    obtain rfl := hz z (by simp)
    rw [List.cons_append, beValue_cons, ih fun z hz' => hz z (by simp [hz'])]
    simp

/-- Not empty and without a leading zero, except for the single byte of zero. -/
structure Minimal (bs : List UInt8) : Prop where
  nonempty : bs ≠ []
  head : ∀ rest, bs = 0 :: rest → rest = []

theorem Minimal.pow_le {bs : List UInt8} (h : Minimal bs) (hlen : 1 < bs.length) :
    256 ^ (bs.length - 1) ≤ beValue bs := by
  cases bs with
  | nil => simp at hlen
  | cons b rest =>
    have hb : b ≠ 0 := by
      rintro rfl
      rw [h.head rest rfl] at hlen
      simp at hlen
    have hpos : b.toNat ≠ 0 := fun hz => hb (UInt8.toNat_inj.mp hz)
    rw [beValue_cons, List.length_cons, Nat.add_sub_cancel]
    exact (Nat.le_mul_of_pos_right _ (by omega)).trans (Nat.le_add_left _ _)

/-- A minimal string is no longer than any width that its value fits in. -/
theorem Minimal.length_le {bs : List UInt8} (h : Minimal bs) {w : ℕ} (hw : 0 < w)
    (hlt : beValue bs < 256 ^ w) : bs.length ≤ w := by
  by_contra hlong
  have hpow : 256 ^ w ≤ 256 ^ (bs.length - 1) := Nat.pow_le_pow_right (by omega) (by omega)
  exact absurd ((h.pow_le (by omega)).trans_lt hlt) (not_lt.mpr hpow)

theorem Minimal.eq_of_beValue_eq {as bs : List UInt8} (ha : Minimal as) (hb : Minimal bs)
    (h : beValue as = beValue bs) : as = bs := by
  have hpa := List.length_pos_iff.mpr ha.nonempty
  have hpb := List.length_pos_iff.mpr hb.nonempty
  have hab := ha.length_le hpb (h ▸ beValue_lt bs)
  have hba := hb.length_le hpa (h ▸ beValue_lt as)
  exact beValue_inj (le_antisymm hab hba) h

theorem minimal_of_length_eq_one {bs : List UInt8} (h : bs.length = 1) : Minimal bs := by
  obtain ⟨b, rfl⟩ := List.length_eq_one_iff.mp h
  exact ⟨by simp, fun rest heq => (List.cons.inj heq).2.symm⟩

theorem minimal_cons_iff {b : UInt8} {bs : List UInt8} (h : bs ≠ []) :
    Minimal (b :: bs) ↔ b ≠ 0 := by
  constructor
  · rintro hmin rfl
    exact h (hmin.head bs rfl)
  · intro hb
    exact ⟨by simp, fun rest heq => absurd (List.cons.inj heq).1 hb⟩

/-- The minimal big-endian string of a number. -/
def beEncode (n : ℕ) : List UInt8 :=
  if n = 0 then [0] else ((Nat.digits 256 n).map UInt8.ofNat).reverse

theorem beValue_beEncode (n : ℕ) : beValue (beEncode n) = n := by
  unfold beEncode
  split_ifs with hn
  · rw [hn]
    rfl
  · have hmap : ((Nat.digits 256 n).map UInt8.ofNat).map UInt8.toNat = Nat.digits 256 n := by
      rw [List.map_map]
      refine (List.map_congr_left fun d hd => ?_).trans (List.map_id _)
      exact UInt8.toNat_ofNat_of_lt' (Nat.digits_lt_base (b := 256) (by omega) hd)
    rw [beValue, List.reverse_reverse, leValue_eq_ofDigits, hmap, Nat.ofDigits_digits]

theorem beEncode_minimal (n : ℕ) : Minimal (beEncode n) := by
  unfold beEncode
  split_ifs with hn
  · exact minimal_of_length_eq_one rfl
  · have hne : Nat.digits 256 n ≠ [] := Nat.digits_ne_nil_iff_ne_zero.mpr hn
    refine ⟨by simpa using hne, fun rest heq => ?_⟩
    have hlast : (((Nat.digits 256 n).map UInt8.ofNat).reverse).head? = some 0 := by
      rw [heq]
      rfl
    rw [List.head?_reverse, List.getLast?_map, List.getLast?_eq_getLast_of_ne_nil hne,
      Option.map_some, Option.some_inj] at hlast
    have hlt := Nat.digits_lt_base (b := 256) (by omega) (List.getLast_mem hne)
    have hzero := congrArg UInt8.toNat hlast
    rw [UInt8.toNat_ofNat_of_lt' hlt] at hzero
    exact absurd hzero (Nat.getLast_digit_ne_zero 256 hn)

theorem beEncode_beValue_eq_iff {bs : List UInt8} : beEncode (beValue bs) = bs ↔ Minimal bs := by
  constructor
  · intro h
    rw [← h]
    exact beEncode_minimal _
  · intro h
    exact (beEncode_minimal _).eq_of_beValue_eq h (beValue_beEncode _)

end PysuiCrypto.ByteNumerals
