import Mathlib.Data.List.Basic

/-!
# Concatenations of encodings of fixed length

A concatenation of encodings that all have the same positive length determines what was
encoded, although nothing separates the pieces.
-/
namespace PysuiCrypto.Framing

variable {α β : Type} {f : α → List β} {n : ℕ}

theorem length_flatMap (hlen : ∀ a, (f a).length = n) (xs : List α) :
    (xs.flatMap f).length = xs.length * n := by
  induction xs with
  | nil => simp
  | cons x xs ih =>
    rw [List.flatMap_cons, List.length_append, hlen, ih, List.length_cons, Nat.succ_mul,
      Nat.add_comm]

/-- Equal concatenations come from equal lists. -/
theorem flatMap_injective (hn : 0 < n) (hlen : ∀ a, (f a).length = n)
    (hf : Function.Injective f) : Function.Injective (List.flatMap f) := by
  intro xs ys h
  induction xs generalizing ys with
  | nil =>
    have hzero := congrArg List.length h
    rw [length_flatMap hlen, length_flatMap hlen, List.length_nil, Nat.zero_mul, eq_comm,
      Nat.mul_eq_zero] at hzero
    exact (List.length_eq_zero_iff.mp (hzero.resolve_right (by omega))).symm
  | cons x xs ih =>
    cases ys with
    | nil =>
      have hzero := congrArg List.length h
      rw [length_flatMap hlen, List.length_cons, Nat.succ_mul, List.flatMap_nil,
        List.length_nil] at hzero
      omega
    | cons y ys =>
      rw [List.flatMap_cons, List.flatMap_cons] at h
      obtain ⟨hhead, htail⟩ := List.append_inj h (by rw [hlen, hlen])
      rw [hf hhead, ih htail]

end PysuiCrypto.Framing
