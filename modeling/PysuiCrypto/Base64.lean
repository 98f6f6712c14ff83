import Mathlib

/-!
# Base64

The standard encoding: three bytes become four digits of six bits, and one or two bytes at the
end are padded. Byte strings of one length are determined by their encoding.
-/
namespace PysuiCrypto.Base64

def alphabet : List Char :=
  "ABCDEFGHIJKLMNOPQRSTUVWXYZabcdefghijklmnopqrstuvwxyz0123456789+/".toList

def digit (n : ℕ) : Char := alphabet.getD n '='

def encodeChars : List UInt8 → List Char
  | [] => []
  | [a] => [digit (a.toNat / 4), digit (a.toNat % 4 * 16), '=', '=']
  | [a, b] => [digit (a.toNat / 4), digit (a.toNat % 4 * 16 + b.toNat / 16),
      digit (b.toNat % 16 * 4), '=']
  | a :: b :: c :: rest => digit (a.toNat / 4) :: digit (a.toNat % 4 * 16 + b.toNat / 16) ::
      digit (b.toNat % 16 * 4 + c.toNat / 64) :: digit (c.toNat % 64) :: encodeChars rest

def encode (bs : List UInt8) : String := String.ofList (encodeChars bs)

theorem digit_inj {m n : ℕ} (hm : m < 64) (hn : n < 64) (h : digit m = digit n) : m = n := by
  have hlen : alphabet.length = 64 := by decide
  have hnodup : alphabet.Nodup := by decide
  rw [digit, digit, List.getD_eq_getElem _ _ (by omega), List.getD_eq_getElem _ _ (by omega)] at h
  exact (hnodup.getElem_inj_iff).mp h

/-- The four digits of three bytes determine the bytes. -/
theorem bytes_eq_of_digits (a b c a' b' c' : UInt8)
    (h₁ : digit (a.toNat / 4) = digit (a'.toNat / 4))
    (h₂ : digit (a.toNat % 4 * 16 + b.toNat / 16) = digit (a'.toNat % 4 * 16 + b'.toNat / 16))
    (h₃ : digit (b.toNat % 16 * 4 + c.toNat / 64) = digit (b'.toNat % 16 * 4 + c'.toNat / 64))
    (h₄ : digit (c.toNat % 64) = digit (c'.toNat % 64)) : a = a' ∧ b = b' ∧ c = c' := by
  have hlt := a.toNat_lt
  have hlt' := a'.toNat_lt
  have hblt := b.toNat_lt
  have hblt' := b'.toNat_lt
  have hclt := c.toNat_lt
  have hclt' := c'.toNat_lt
  have hn₁ := digit_inj (by omega) (by omega) h₁
  have hn₂ := digit_inj (by omega) (by omega) h₂
  have hn₃ := digit_inj (by omega) (by omega) h₃
  have hn₄ := digit_inj (by omega) (by omega) h₄
  exact ⟨UInt8.toNat_inj.mp (by omega), UInt8.toNat_inj.mp (by omega),
    UInt8.toNat_inj.mp (by omega)⟩

theorem encodeChars_inj {as bs : List UInt8} (hlen : as.length = bs.length)
    (h : encodeChars as = encodeChars bs) : as = bs := by
  induction as using encodeChars.induct generalizing bs with
  | case1 => exact (List.length_eq_zero_iff.mp hlen.symm).symm
  | case2 a =>
    obtain ⟨a', rfl⟩ := List.length_eq_one_iff.mp hlen.symm
    simp only [encodeChars, List.cons.injEq, and_true] at h
    obtain ⟨rfl, -⟩ := bytes_eq_of_digits a 0 0 a' 0 0 h.1 h.2 rfl rfl
    rfl
  | case3 a b =>
    obtain ⟨a', b', rfl⟩ := List.length_eq_two.mp hlen.symm
    simp only [encodeChars, List.cons.injEq, and_true] at h
    obtain ⟨rfl, rfl, -⟩ := bytes_eq_of_digits a b 0 a' b' 0 h.1 h.2.1 h.2.2 rfl
    rfl
  | case4 a b c rest ih =>
    match bs, hlen with
    | a' :: b' :: c' :: rest', hlen =>
      simp only [encodeChars, List.cons.injEq] at h
      obtain ⟨h₁, h₂, h₃, h₄, hrest⟩ := h
      obtain ⟨rfl, rfl, rfl⟩ := bytes_eq_of_digits a b c a' b' c' h₁ h₂ h₃ h₄
      rw [ih (by simpa using hlen) hrest]

theorem encode_inj {as bs : List UInt8} (hlen : as.length = bs.length)
    (h : encode as = encode bs) : as = bs := by
  have hchars := congrArg String.toList h
  rw [encode, encode, String.toList_ofList, String.toList_ofList] at hchars
  exact encodeChars_inj hlen hchars

theorem digit_ne_pad {n : ℕ} (hn : n < 64) : digit n ≠ '=' := by
  have hlen : alphabet.length = 64 := by decide
  have hpad : '=' ∉ alphabet := by decide
  intro h
  rw [digit, List.getD_eq_getElem _ _ (by omega)] at h
  exact hpad (h ▸ List.getElem_mem _)

/-- The padding shows how many bytes stand in the last group. -/
theorem length_eq_of_encodeChars_eq {as bs : List UInt8} (h : encodeChars as = encodeChars bs) :
    as.length = bs.length := by
  have hdigit : ∀ a b : UInt8, digit (a.toNat % 4 * 16 + b.toNat / 16) ≠ '=' ∧
      digit (a.toNat % 16 * 4 + b.toNat / 64) ≠ '=' ∧ digit (a.toNat % 16 * 4) ≠ '=' ∧
      digit (a.toNat % 64) ≠ '=' := by
    intro a b
    have hb := b.toNat_lt
    refine ⟨?_, ?_, ?_, ?_⟩ <;> exact digit_ne_pad (by omega)
  induction as using encodeChars.induct generalizing bs with
  | case1 =>
    match bs with
    | [] => rfl
    | [_] | [_, _] | _ :: _ :: _ :: _ => simp [encodeChars] at h
  | case2 a =>
    match bs with
    | [_] => rfl
    | [] => simp [encodeChars] at h
    | [a', b'] =>
      simp only [encodeChars, List.cons.injEq] at h
      exact absurd h.2.2.1.symm (hdigit b' 0).2.2.1
    | a' :: b' :: c' :: _ =>
      simp only [encodeChars, List.cons.injEq] at h
      exact absurd h.2.2.1.symm (hdigit b' c').2.1
  | case3 a b =>
    match bs with
    | [_, _] => rfl
    | [] => simp [encodeChars] at h
    | [a'] =>
      simp only [encodeChars, List.cons.injEq] at h
      exact absurd h.2.2.1 (hdigit b 0).2.2.1
    | a' :: b' :: c' :: _ =>
      simp only [encodeChars, List.cons.injEq] at h
      exact absurd h.2.2.2.1.symm (hdigit c' 0).2.2.2
  | case4 a b c rest ih =>
    match bs with
    | [] => simp [encodeChars] at h
    | [a'] =>
      simp only [encodeChars, List.cons.injEq] at h
      exact absurd h.2.2.1 (hdigit b c).2.1
    | [a', b'] =>
      simp only [encodeChars, List.cons.injEq] at h
      exact absurd h.2.2.2.1 (hdigit c 0).2.2.2
    | a' :: b' :: c' :: rest' =>
      simp only [encodeChars, List.cons.injEq] at h
      simpa using ih h.2.2.2.2

theorem encode_injective : Function.Injective encode := by
  intro as bs h
  exact encode_inj (length_eq_of_encodeChars_eq (String.ofList_injective h)) h

end PysuiCrypto.Base64
