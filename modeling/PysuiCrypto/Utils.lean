import PysuiCrypto.Platform

/-!
# Byte utilities

Exclusive-or of byte strings, random arrays, and the transposition that turns rows of
byte shares into shares.
-/
namespace PysuiCrypto

open Outcome

/-- If one of the slices is shorter than the other, the result has the shorter length. -/
def xorUnchecked (a b : List UInt8) : List UInt8 := List.zipWith (· ^^^ ·) a b

def xor {n : ℕ} (a b : Vector UInt8 n) : FastCryptoResult (Vector UInt8 n) :=
  toArray n "Inputs are guaranteed to have the same lengths" (xorUnchecked a.toList b.toList)

def generateRandomBytes {R : Type} [AllowedRng R] (n : ℕ) (rng : R) : Vector UInt8 n × R :=
  AllowedRng.fillBytes n rng

/-- `all_equal_value`: the common value of the elements, or nothing. -/
def allEqualValue {α : Type} [DecidableEq α] : List α → Option α
  | [] => none
  | x :: xs => if xs.all (· = x) then some x else none

/-- Convert `n` vectors of one length `m` into `m` arrays of length `n`. -/
def transpose (n : ℕ) (matrix : List (List UInt8)) : FastCryptoResult (List (Vector UInt8 n)) :=
  if matrix.length ≠ n ∨ matrix.isEmpty then fail .invalidInput
  else
    match allEqualValue (matrix.map List.length) with
    | none => fail .invalidInput
    | some m =>
      (List.range m).mapM fun i => do
        let column ← matrix.mapM fun row => index row i
        toArray n "This will never fail since the length is guaranteed to be N" column

theorem toNat_pos_iff {b : UInt8} : 0 < b.toNat ↔ b ≠ 0 := by
  rw [Nat.pos_iff_ne_zero, Ne, Ne, ← UInt8.toNat_inj]
  rfl

@[simp] theorem xor_eq {n : ℕ} (a b : Vector UInt8 n) :
    xor a b = .ok (Vector.zipWith (· ^^^ ·) a b) := by
  rw [xor, show xorUnchecked a.toList b.toList = (Vector.zipWith (· ^^^ ·) a b).toList by
    simp [xorUnchecked], toArray_toList]

/-- Masking twice with the same key gives back the first argument. -/
theorem zipWith_xor_cancel {n : ℕ} (a b : Vector UInt8 n) :
    Vector.zipWith (· ^^^ ·) (Vector.zipWith (· ^^^ ·) a b) b = a := by
  ext i hi
  simp

theorem zipWith_xor_comm {n : ℕ} (a b : Vector UInt8 n) :
    Vector.zipWith (· ^^^ ·) a b = Vector.zipWith (· ^^^ ·) b a := by
  ext i hi
  simp [UInt8.xor_comm]

/-- For one right argument, the masked value determines the key. -/
theorem zipWith_xor_left_inj {n : ℕ} {a a' b : Vector UInt8 n}
    (h : Vector.zipWith (· ^^^ ·) a b = Vector.zipWith (· ^^^ ·) a' b) : a = a' := by
  rw [← zipWith_xor_cancel a b, h, zipWith_xor_cancel]

theorem allEqualValue_of_forall {α : Type} [DecidableEq α] {xs : List α} {x : α}
    (hne : xs ≠ []) (h : ∀ y ∈ xs, y = x) : allEqualValue xs = some x := by
  cases xs with
  | nil => exact absurd rfl hne
  | cons y ys =>
    obtain rfl := h y (by simp)
    have hall : ys.all (· = y) = true := by
      simp only [List.all_eq_true, decide_eq_true_eq]
      exact fun z hz => h z (by simp [hz])
    rw [allEqualValue, if_pos hall]

/-- Transposing the table of a function of a position and an element swaps the two. -/
theorem transpose_map {α : Type} {n : ℕ} (hn : n ≠ 0) (g : Fin n → α → UInt8) (xs : List α) :
    transpose n ((List.finRange n).map fun b => xs.map (g b)) =
      .ok (xs.map fun x => Vector.ofFn fun b => g b x) := by
  have hne : ((List.finRange n).map fun b => xs.map (g b)) ≠ [] := by simpa using hn
  have hlen : allEqualValue (((List.finRange n).map fun b => xs.map (g b)).map List.length) =
      some xs.length := by
    apply allEqualValue_of_forall
    · simpa using hn
    · intro y hy
      simp at hy
      exact hy.2.symm
  rw [transpose, if_neg (by simpa using hne), hlen]
  have hcolumn : ∀ i ∈ List.range xs.length, (do
      let column ← ((List.finRange n).map fun b => xs.map (g b)).mapM fun row => index row i
      toArray n "This will never fail since the length is guaranteed to be N" column) =
      (.ok (Vector.ofFn fun b => (xs.map (g b)).getD i 0) : FastCryptoResult (Vector UInt8 n)) := by
    intro i hi
    have hlt := List.mem_range.mp hi
    rw [mapM_eq_ok (g := fun row => row.getD i 0)]
    · rw [ok_bind, List.map_map]
      convert toArray_toList _ (Vector.ofFn fun b => (xs.map (g b)).getD i 0) using 2
      simp [Vector.toList_ofFn, List.ofFn_eq_map, Function.comp_def]
    · intro row hrow
      obtain ⟨b, -, rfl⟩ := List.mem_map.mp hrow
      simp [index_of_lt (show i < (xs.map (g b)).length by simpa using hlt), hlt]
  simp only [mapM_eq_ok hcolumn]
  congr 1
  apply List.ext_getElem
  · simp
  · intro i h₁ h₂
    simp only [List.length_map, List.length_range] at h₁
    simp [h₁]

theorem allEqualValue_eq_some_iff {α : Type} [DecidableEq α] {xs : List α} {x : α} :
    allEqualValue xs = some x ↔ xs ≠ [] ∧ ∀ y ∈ xs, y = x := by
  constructor
  · intro h
    cases xs with
    | nil => cases h
    | cons y ys =>
      rw [allEqualValue] at h
      split_ifs at h with hall
      obtain rfl := Option.some.inj h
      have hys : ∀ z ∈ ys, z = y := by simpa using hall
      exact ⟨by simp, by simpa using hys⟩
  · rintro ⟨hne, hall⟩
    exact allEqualValue_of_forall hne hall

/-- Rows of one length are the table of their entries. -/
theorem eq_table {n m : ℕ} {matrix : List (List UInt8)} (hn : matrix.length = n)
    (hm : ∀ row ∈ matrix, row.length = m) :
    matrix = (List.finRange n).map fun j =>
      (List.finRange m).map fun i => (matrix.getD j.val []).getD i.val 0 := by
  refine List.ext_getElem (by simp [hn]) fun j hj hj' => ?_
  have hrow : matrix[j].length = m := hm _ (List.getElem_mem hj)
  refine List.ext_getElem (by simp [hrow]) fun i hi hi' => ?_
  simp [hj, hi]

theorem transpose_fail {n : ℕ} {matrix : List (List UInt8)}
    (h : ¬ (0 < n ∧ matrix.length = n ∧ ∃ m, ∀ row ∈ matrix, row.length = m)) :
    transpose n matrix = fail .invalidInput := by
  rw [transpose]
  split_ifs with hcond
  · rfl
  · simp only [not_or, not_not, List.isEmpty_iff] at hcond
    have hpos : 0 < matrix.length := List.length_pos_iff.mpr hcond.2
    split
    · rfl
    · next m hm =>
      have hall := (allEqualValue_eq_some_iff.mp hm).2
      exact absurd ⟨hcond.1 ▸ hpos, hcond.1, m, fun row hrow =>
        hall _ (List.mem_map_of_mem hrow)⟩ h

/-- The rows are the lists of the entries of the columns at one position. -/
theorem transpose_eq_ok {n : ℕ} {matrix : List (List UInt8)} {cols : List (Vector UInt8 n)} :
    transpose n matrix = .ok cols ↔
      0 < n ∧ matrix = (List.finRange n).map fun j => cols.map fun v => v.get j := by
  constructor
  · intro h
    by_cases hcond : 0 < n ∧ matrix.length = n ∧ ∃ m, ∀ row ∈ matrix, row.length = m
    · obtain ⟨hpos, hn, m, hm⟩ := hcond
      have htable := eq_table hn hm
      rw [htable, transpose_map hpos.ne'] at h
      obtain rfl := Except.ok.inj h
      refine ⟨hpos, htable.trans ?_⟩
      simp [Function.comp_def]
    · rw [transpose_fail hcond] at h
      cases h
  · rintro ⟨hpos, rfl⟩
    rw [transpose_map hpos.ne']
    refine congrArg Except.ok ((List.map_congr_left fun v _ => ?_).trans (List.map_id cols))
    exact Vector.ext fun i hi => by simp [Vector.get_eq_getElem]

theorem transpose_columns {n : ℕ} {matrix : List (List UInt8)} {cols : List (Vector UInt8 n)}
    (h : transpose n matrix = .ok cols) (hne : cols ≠ []) :
    ∃ rows, transpose cols.length (cols.map Vector.toList) = .ok rows ∧
      rows.map Vector.toList = matrix := by
  obtain ⟨-, rfl⟩ := transpose_eq_ok.mp h
  refine ⟨(List.finRange n).map fun j => Vector.ofFn fun i => cols[i].get j,
    transpose_eq_ok.mpr ⟨List.length_pos_iff.mpr hne, ?_⟩, ?_⟩
  · refine List.ext_getElem (by simp) fun i hi hi' => ?_
    refine List.ext_getElem (by simp) fun j hj hj' => ?_
    simp [Vector.get_eq_getElem]
  · rw [List.map_map]
    refine List.map_congr_left fun j _ => List.ext_getElem (by simp) fun i hi hi' => ?_
    simp

/-- A matrix is transposed exactly if its rows, at least one and as many as the arrays are long,
are the lists of the entries of some arrays at one position; the arrays are the result. Every
other matrix is an invalid input, and nothing panics. Transposing a result that is not empty gives
the rows back. -/
theorem transpose_spec (n : ℕ) (matrix : List (List UInt8)) :
    (∀ cols : List (Vector UInt8 n), transpose n matrix = .ok cols ↔
      0 < n ∧ matrix = (List.finRange n).map fun j => cols.map fun v => v.get j) ∧
    ((∀ cols, transpose n matrix ≠ .ok cols) → transpose n matrix = fail .invalidInput) ∧
    ∀ cols, transpose n matrix = .ok cols → cols ≠ [] →
      ∃ rows, transpose cols.length (cols.map Vector.toList) = .ok rows ∧
        rows.map Vector.toList = matrix := by
  refine ⟨fun cols => transpose_eq_ok, fun hnone => ?_, fun cols => transpose_columns⟩
  refine transpose_fail ?_
  rintro ⟨hpos, hn, m, hm⟩
  have htable := eq_table hn hm
  have hok := transpose_map hpos.ne' (fun (j : Fin n) (i : Fin m) =>
    (matrix.getD j.val []).getD i.val 0) (List.finRange m)
  rw [← htable] at hok
  exact hnone _ hok

end PysuiCrypto
