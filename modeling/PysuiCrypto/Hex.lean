import Mathlib

/-!
# Hexadecimal texts

Two digits for a byte, written in lower case and read in either case. A text that is read is, up
to the case of its letters, the one written for the bytes.
-/
namespace PysuiCrypto.Hex

def byteDigits (b : UInt8) : List Char :=
  [Nat.digitChar (b.toNat / 16), Nat.digitChar (b.toNat % 16)]

def encode (bs : List UInt8) : List Char := bs.flatMap byteDigits

/-- The value of a digit of either case. -/
def digitValue (ch : Char) : Option ℕ :=
  (List.range 16).find? fun n => Nat.digitChar n = ch.toLower

/-- A text of odd length is not read. -/
def decode : List Char → Option (List UInt8)
  | [] => some []
  | [_] => none
  | high :: low :: rest => do
    let h ← digitValue high
    let l ← digitValue low
    let bs ← decode rest
    return UInt8.ofNat (h * 16 + l) :: bs

theorem digitChar_inj {m n : ℕ} (hm : m < 16) (hn : n < 16)
    (h : Nat.digitChar m = Nat.digitChar n) : m = n := by
  have hdigits : ∀ i < 16, ∀ j < 16, Nat.digitChar i = Nat.digitChar j → i = j := by decide
  exact hdigits m hm n hn h

theorem toLower_digitChar {n : ℕ} (hn : n < 16) : (Nat.digitChar n).toLower = Nat.digitChar n := by
  have hdigits : ∀ i < 16, (Nat.digitChar i).toLower = Nat.digitChar i := by decide
  exact hdigits n hn

theorem digitValue_eq_some_iff {ch : Char} {n : ℕ} :
    digitValue ch = some n ↔ n < 16 ∧ ch.toLower = Nat.digitChar n := by
  constructor
  · intro h
    have hfound := List.find?_some h
    have hmem := List.mem_of_find?_eq_some h
    exact ⟨List.mem_range.mp hmem, (of_decide_eq_true hfound).symm⟩
  · rintro ⟨hn, hch⟩
    cases hfind : digitValue ch with
    | none =>
      have hnone := List.find?_eq_none.mp hfind n (List.mem_range.mpr hn)
      exact absurd (decide_eq_true hch.symm) hnone
    | some m =>
      have hm := List.mem_range.mp (List.mem_of_find?_eq_some hfind)
      have hm' := of_decide_eq_true (List.find?_some (p := fun k => Nat.digitChar k = _) hfind)
      rw [digitChar_inj hm hn (hm'.trans hch)]

theorem ascii_of_digitValue {ch : Char} {n : ℕ} (h : digitValue ch = some n) : ch.toNat < 128 := by
  obtain ⟨hn, hch⟩ := digitValue_eq_some_iff.mp h
  rw [Char.toLower] at hch
  split_ifs at hch with hupper
  · exact (UInt32.le_iff_toNat_le.mp hupper.2).trans_lt (by decide)
  · have hdigits : ∀ i < 16, (Nat.digitChar i).toNat < 128 := by decide
    exact hch ▸ hdigits n hn

variable {s s' : List Char} {bs : List UInt8}

/-- A text is read as the bytes whose digits it consists of, up to case. -/
theorem decode_eq_some_iff : decode s = some bs ↔ s.map Char.toLower = encode bs := by
  induction s using decode.induct generalizing bs with
  | case1 => cases bs <;> simp [decode, encode, byteDigits]
  | case2 ch => cases bs <;> simp [decode, encode, byteDigits]
  | case3 high low rest ih =>
    cases bs with
    | nil => simp [decode, encode, Option.bind_eq_some_iff]
    | cons b bs =>
      have hb := b.toNat_lt
      simp only [decode, Option.bind_eq_bind, Option.bind_eq_some_iff, digitValue_eq_some_iff, ih,
        encode, List.flatMap_cons, byteDigits, List.map_cons, List.cons_append, List.nil_append,
        List.cons.injEq, Option.pure_def, Option.some.injEq]
      constructor
      · rintro ⟨h, ⟨hh, hhigh⟩, l, ⟨hl, hlow⟩, bs', hbs', hbyte, rfl⟩
        have hvalue := congrArg UInt8.toNat hbyte
        rw [UInt8.toNat_ofNat_of_lt' (by rw [UInt8.size]; omega)] at hvalue
        obtain ⟨rfl, rfl⟩ : h = b.toNat / 16 ∧ l = b.toNat % 16 := by omega
        exact ⟨hhigh, hlow, hbs'⟩
      · rintro ⟨hhigh, hlow, hrest⟩
        refine ⟨_, ⟨by omega, hhigh⟩, _, ⟨by omega, hlow⟩, bs, hrest, ?_, rfl⟩
        rw [Nat.div_add_mod', UInt8.ofNat_toNat]

theorem mem_encode {ch : Char} (h : ch ∈ encode bs) : ∃ n < 16, ch = Nat.digitChar n := by
  obtain ⟨b, -, hb⟩ := List.mem_flatMap.mp h
  have hlt := b.toNat_lt
  simp only [byteDigits, List.mem_cons, List.not_mem_nil, or_false] at hb
  rcases hb with rfl | rfl
  · exact ⟨_, by omega, rfl⟩
  · exact ⟨_, by omega, rfl⟩

theorem map_toLower_encode (bs : List UInt8) : (encode bs).map Char.toLower = encode bs := by
  induction bs with
  | nil => rfl
  | cons b bs ih =>
    have hb := b.toNat_lt
    rw [encode, List.flatMap_cons, List.map_append, ← encode, ih, byteDigits, List.map_cons,
      List.map_cons, toLower_digitChar (by omega), toLower_digitChar (by omega), List.map_nil]

/-- The digits decide whether a text is read: their number, and each of them. -/
theorem exists_decode_iff {n : ℕ} :
    (∃ bs, decode s = some bs ∧ bs.length = n) ↔
      s.length = 2 * n ∧ ∀ ch ∈ s, (digitValue ch).isSome := by
  induction s using decode.induct generalizing n with
  | case1 =>
    simp [decode]
    omega
  | case2 ch =>
    simp [decode]
    omega
  | case3 high low rest ih =>
    constructor
    · rintro ⟨bs, hbs, rfl⟩
      simp only [decode, Option.bind_eq_bind, Option.bind_eq_some_iff, Option.pure_def,
        Option.some.injEq] at hbs
      obtain ⟨h, hhigh, l, hlow, bs', hbs', rfl⟩ := hbs
      obtain ⟨hlen, hdigits⟩ := ih.mp ⟨bs', hbs', rfl⟩
      refine ⟨by simp [hlen]; omega, ?_⟩
      simpa [hhigh, hlow] using hdigits
    · rintro ⟨hlen, hdigits⟩
      simp only [List.mem_cons, forall_eq_or_imp, Option.isSome_iff_exists] at hdigits
      obtain ⟨⟨h, hhigh⟩, ⟨l, hlow⟩, hrest⟩ := hdigits
      simp only [List.length_cons] at hlen
      obtain ⟨n, rfl⟩ : ∃ m, n = m + 1 := ⟨n - 1, by omega⟩
      have hlen' : rest.length = 2 * n := by omega
      obtain ⟨bs, hbs, rfl⟩ := ih.mpr ⟨hlen', by simpa [Option.isSome_iff_exists] using hrest⟩
      exact ⟨UInt8.ofNat (h * 16 + l) :: bs, by simp [decode, hhigh, hlow, hbs], rfl⟩

end PysuiCrypto.Hex
