import Mathlib.Data.List.Infix
import Mathlib.Data.List.TakeWhile

/-!
# Texts that are taken apart at separators

A text of two parts with a separator in between determines its parts when the separator can
only be found at one place: a letter that the part before it, or the part behind it, does not
contain; or a word that does not occur in the part behind it and cannot begin inside the part
before it, because no letter of the word ends that part.
-/
namespace PysuiCrypto.Separators

variable {α : Type} {xs xs' ys ys' : List α}

theorem split_first {d : α} (hx : d ∉ xs) (hx' : d ∉ xs')
    (h : xs ++ d :: ys = xs' ++ d :: ys') : xs = xs' ∧ ys = ys' := by
  induction xs generalizing xs' with
  | nil =>
    cases xs' with
    | nil => exact ⟨rfl, (List.cons.inj h).2⟩
    | cons x' xs' => exact absurd (List.cons.inj h).1 (List.ne_of_not_mem_cons hx')
  | cons x xs ih =>
    cases xs' with
    | nil => exact absurd (List.cons.inj h).1.symm (List.ne_of_not_mem_cons hx)
    | cons x' xs' =>
      obtain ⟨rfl, htail⟩ := List.cons.inj h
      obtain ⟨rfl, hys⟩ := ih (List.not_mem_of_not_mem_cons hx)
        (List.not_mem_of_not_mem_cons hx') htail
      exact ⟨rfl, hys⟩

theorem split_last {d : α} (hy : d ∉ ys) (hy' : d ∉ ys')
    (h : xs ++ d :: ys = xs' ++ d :: ys') : xs = xs' ∧ ys = ys' := by
  have hrev := congrArg List.reverse h
  simp only [List.reverse_append, List.reverse_cons, List.append_assoc, List.singleton_append]
    at hrev
  obtain ⟨hys, hxs⟩ := split_first (by simpa using hy) (by simpa using hy') hrev
  exact ⟨List.reverse_injective hxs, List.reverse_injective hys⟩

/-- The second cut is not to the right of the first: the word would overlap itself, starting
inside the part before it, or occur in the part behind it. -/
theorem no_later_cut {word ws : List α} (hy : ¬ word <:+: ys)
    (hlast : ∀ c, (xs ++ ws).getLast? = some c → c ∉ word)
    (h : word ++ ys = ws ++ (word ++ ys')) : ws = [] := by
  by_contra hne
  rcases List.append_eq_append_iff.mp h with ⟨zs, hws, hys⟩ | ⟨zs, hword, -⟩
  · exact hy ⟨zs, ys', by rw [hys, List.append_assoc]⟩
  · apply hlast (ws.getLast hne)
    · rw [List.getLast?_append_of_ne_nil _ hne, List.getLast?_eq_getLast_of_ne_nil hne]
    · rw [hword]
      exact List.mem_append_left _ (List.getLast_mem hne)

theorem split_word {word : List α} (hy : ¬ word <:+: ys) (hy' : ¬ word <:+: ys')
    (hlast : ∀ c, xs.getLast? = some c → c ∉ word)
    (hlast' : ∀ c, xs'.getLast? = some c → c ∉ word)
    (h : xs ++ (word ++ ys) = xs' ++ (word ++ ys')) : xs = xs' ∧ ys = ys' := by
  rcases List.append_eq_append_iff.mp h with ⟨ws, rfl, hys⟩ | ⟨ws, rfl, hys'⟩
  · obtain rfl := no_later_cut hy hlast' hys
    exact ⟨by simp, List.append_cancel_left hys⟩
  · obtain rfl := no_later_cut hy' hlast hys'
    exact ⟨by simp, (List.append_cancel_left hys').symm⟩

variable [DecidableEq α]

/-- At most `n` parts, cut at the first separators; the last part holds the others. -/
def splitn (d : α) : ℕ → List α → List (List α)
  | 0, _ => []
  | 1, xs => [xs]
  | n + 2, xs =>
    match xs.dropWhile (· ≠ d) with
    | [] => [xs]
    | _ :: rest => xs.takeWhile (· ≠ d) :: splitn d (n + 1) rest

theorem splitn_ne_nil (d : α) (n : ℕ) (xs : List α) : splitn d (n + 1) xs ≠ [] := by
  cases n with
  | zero => simp [splitn]
  | succ n =>
    rw [splitn]
    split <;> simp

theorem splitn_of_not_mem {d : α} (n : ℕ) (h : d ∉ xs) : splitn d (n + 2) xs = [xs] := by
  have hdrop : xs.dropWhile (· ≠ d) = [] :=
    List.dropWhile_eq_nil_iff.mpr fun x hx => decide_eq_true (ne_of_mem_of_not_mem hx h)
  rw [splitn, hdrop]

theorem splitn_append {d : α} (n : ℕ) (h : d ∉ ys) (zs : List α) :
    splitn d (n + 2) (ys ++ d :: zs) = ys :: splitn d (n + 1) zs := by
  have hne : ∀ y ∈ ys, decide (y ≠ d) = true :=
    fun y hy => decide_eq_true (ne_of_mem_of_not_mem hy h)
  rw [splitn, List.dropWhile_append_of_pos hne, List.takeWhile_append_of_pos hne]
  simp

/-- Fewer parts than the limit are the parts between all separators. -/
theorem splitn_eq_iff {d : α} {n : ℕ} {parts : List (List α)} (hn : parts.length < n) :
    splitn d n xs = parts ↔
      parts ≠ [] ∧ (∀ p ∈ parts, d ∉ p) ∧ xs = [d].intercalate parts := by
  induction n generalizing xs parts with
  | zero => omega
  | succ n ih =>
    cases n with
    | zero =>
      obtain rfl := List.length_eq_zero_iff.mp (Nat.lt_one_iff.mp hn)
      simp [splitn]
    | succ n =>
      by_cases hd : d ∈ xs
      · obtain ⟨ys, zs, rfl, hys⟩ := List.eq_append_cons_of_mem hd
        rw [splitn_append n hys]
        match parts with
        | [] => simp
        | [p] =>
          refine iff_of_false (fun h => ?_) fun h => h.2.1 p (by simp) ?_
          · exact splitn_ne_nil d n zs (List.cons.inj h).2
          · have hp := h.2.2
            rw [List.intercalate_singleton] at hp
            rw [← hp]
            exact hd
        | p :: q :: parts =>
          rw [List.cons.injEq, ih (by simpa using hn), List.intercalate_cons_cons]
          constructor
          · rintro ⟨rfl, -, hparts, rfl⟩
            exact ⟨by simp, by simpa [hys] using hparts, by simp⟩
          · rintro ⟨-, hparts, heq⟩
            rw [List.append_assoc, List.singleton_append] at heq
            obtain ⟨rfl, rfl⟩ := split_first hys (hparts p (by simp)) heq
            exact ⟨rfl, by simp, fun r hr => hparts r (by simp [hr]), rfl⟩
      · rw [splitn_of_not_mem n hd]
        match parts with
        | [] => simp
        | [p] =>
          rw [List.intercalate_singleton]
          constructor
          · rintro ⟨rfl⟩
            exact ⟨by simp, by simpa using hd, rfl⟩
          · rintro ⟨-, -, rfl⟩
            rfl
        | p :: q :: parts =>
          refine iff_of_false (by simp) fun h => hd ?_
          rw [h.2.2, List.intercalate_cons_cons]
          simp

end PysuiCrypto.Separators
