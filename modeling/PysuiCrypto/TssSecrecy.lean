import PysuiCrypto.SharingCount
import PysuiCrypto.TssSplit

/-!
# Perfect secrecy below the threshold

A tape of random bytes is the matrix of the coefficients that `split` draws, row by row. The
tapes behind some observed shares, fewer than the threshold, are therefore counted by the
dimension of the coefficient space, and the count does not depend on the secret.
-/
namespace PysuiCrypto.Tss

open Outcome Polynomial

variable {N m : ℕ}

theorem randMany_append (xs rest : List UInt8) :
    randMany xs.length (xs ++ rest) = (xs.map GF256.mk, rest) := by
  induction xs with
  | nil => rfl
  | cons x xs ih =>
    rw [List.length_cons, randMany]
    simp only [List.cons_append, GF256.rand, AllowedRng.gen, List.headD_cons, List.tail_cons, ih,
      List.map_cons]

/-- A tape that is cut into rows of the drawn length is read row by row. -/
theorem drawRows_flatten (rows : List (List UInt8)) (rest : List UInt8)
    (h : ∀ row ∈ rows, row.length = m) :
    drawRows m rows.length (rows.flatten ++ rest) = (rows.map (List.map GF256.mk), rest) := by
  induction rows with
  | nil => rfl
  | cons row rows ih =>
    have hrow := h row (by simp)
    subst hrow
    rw [List.length_cons, drawRows, List.flatten_cons, List.append_assoc, randMany_append]
    simp only [ih fun row hr => h row (by simp [hr]), List.map_cons]

/-- The coefficients that a tape holds, for each secret byte. -/
def tapeRows : (Fin (N * m) → UInt8) ≃ (Fin N → Fin m → GF256) :=
  (Equiv.arrowCongr finProdFinEquiv.symm GF256.byteEquiv).trans (Equiv.curry _ _ _)

theorem drawRows_tape (tape : Fin (N * m) → UInt8) :
    drawRows m N (List.ofFn tape) =
      (List.ofFn fun b => List.ofFn (tapeRows tape b), []) := by
  have htape : List.ofFn tape = (List.ofFn fun b : Fin N => List.ofFn fun j : Fin m =>
      tape (finProdFinEquiv (b, j))).flatten ++ [] := by
    rw [List.append_nil, List.ofFn_mul]
    congr 2
    funext b
    congr 1
    funext j
    congr 1
    apply Fin.ext
    simp [Nat.add_comm, Nat.mul_comm]
  have hdraw := drawRows_flatten (m := m) (List.ofFn fun b : Fin N => List.ofFn fun j : Fin m =>
      tape (finProdFinEquiv (b, j))) [] (by simp [List.mem_ofFn])
  rw [List.length_ofFn] at hdraw
  rw [htape, hdraw]
  simp only [List.map_ofFn, Function.comp_def]
  rfl

/-- The shares at an index are observed values, up to the secret. -/
theorem evalAt_splitPolys_eq_iff (secret v : Vector UInt8 N) (A : Fin N → Fin m → GF256)
    (i : UInt8) :
    evalAt (splitPolys secret (List.ofFn fun b => List.ofFn (A b))) i = v ↔
      ∀ b : Fin N, ∑ j, A b j * (⟨i⟩ : GF256) ^ (j.val + 1) = byteAt v b - byteAt secret b := by
  have heval : ∀ b : Fin N, (splitPolys secret (List.ofFn fun b => List.ofFn (A b)) b).eval ⟨i⟩ =
      byteAt secret b + ∑ j, A b j * (⟨i⟩ : GF256) ^ (j.val + 1) := by
    intro b
    rw [splitPolys, List.getD_eq_getElem _ _ (by simp), List.getElem_ofFn, CoeffList.toPoly_cons,
      eval_add, eval_C, eval_mul, eval_X, CoeffList.eval_toPoly_ofFn, Finset.mul_sum]
    congr 1
    exact Finset.sum_congr rfl fun j _ => by ring
  constructor
  · rintro rfl b
    rw [byteAt_evalAt, heval, add_sub_cancel_left]
  · intro h
    apply ext_byteAt
    intro b
    rw [byteAt_evalAt, heval, h, add_sub_cancel]

theorem mem_zip_map {α β : Type} {f : α → β} {xs : List α} {x : α} {y : β} :
    (x, y) ∈ xs.zip (xs.map f) ↔ x ∈ xs ∧ f x = y := by
  rw [← List.map_prod_left_eq_zip, List.mem_map]
  constructor
  · rintro ⟨z, hz, heq⟩
    obtain ⟨rfl, rfl⟩ := Prod.mk.inj heq
    exact ⟨hz, rfl⟩
  · rintro ⟨hx, rfl⟩
    exact ⟨x, hx, rfl⟩

/-- A tape yields given shares exactly when its rows have the values that these shares and the
secret leave. -/
theorem split_tape_iff (hN : N ≠ 0) {threshold count : UInt8} (ht : threshold ≠ 0)
    (htn : threshold ≤ count) {I : Finset UInt8} (hI : ∀ i ∈ I, i ≠ 0 ∧ i ≤ count)
    (v : UInt8 → Vector UInt8 N) (secret : Vector UInt8 N)
    (tape : Fin (N * (threshold.toNat - 1)) → UInt8) :
    (∃ s, split (List.ofFn tape) secret threshold count = .ok (s, []) ∧
        ∀ i ∈ I, (i, v i) ∈ s.indices.zip s.shares) ↔
      SharingCount.observe (fun i : I => (⟨i⟩ : GF256)) (tapeRows tape) =
        fun b (i : I) => byteAt (v i) b - byteAt secret b := by
  have hsplit := split_ok (List.ofFn tape) secret hN ht htn
  rw [drawRows_tape] at hsplit
  have hshare : ∀ i ∈ I, (i, v i) ∈ (shareIndices count).zip ((shareIndices count).map
      (evalAt (splitPolys secret (List.ofFn fun b => List.ofFn (tapeRows tape b))))) ↔
        ∀ b, SharingCount.observe (fun _ : Unit => ⟨i⟩) (tapeRows tape) b () =
          byteAt (v i) b - byteAt secret b := by
    intro i hi
    rw [mem_zip_map, evalAt_splitPolys_eq_iff, and_iff_right (mem_shareIndices.mpr (hI i hi))]
    rfl
  rw [hsplit]
  constructor
  · rintro ⟨s, hs, hmem⟩
    obtain ⟨rfl, -⟩ := Prod.mk.inj (Except.ok.inj hs)
    funext b i
    exact (hshare i i.2).mp (hmem i i.2) b
  · intro h
    exact ⟨_, rfl, fun i hi => (hshare i hi).mpr fun b => congrFun (congrFun h b) ⟨i, hi⟩⟩

/-- The number of tapes behind given shares at fewer indices than the threshold: the same for
every secret. -/
theorem card_tapes_of_shares (hN : N ≠ 0) {threshold count : UInt8} (ht : threshold ≠ 0)
    (htn : threshold ≤ count) (I : Finset UInt8) (hI : ∀ i ∈ I, i ≠ 0 ∧ i ≤ count)
    (hk : I.card < threshold.toNat) (v : UInt8 → Vector UInt8 N) (secret : Vector UInt8 N) :
    Nat.card {tape : Fin (N * (threshold.toNat - 1)) → UInt8 //
        ∃ s, split (List.ofFn tape) secret threshold count = .ok (s, []) ∧
          ∀ i ∈ I, (i, v i) ∈ s.indices.zip s.shares} =
      256 ^ (N * (threshold.toNat - 1 - I.card)) := by
  let x : I → GF256 := fun i => ⟨i⟩
  have hx : Function.Injective x := fun i j hij => Subtype.ext (GF256.mk.inj hij)
  have h0 : ∀ i, x i ≠ 0 := fun i hz => (hI i i.2).1 (GF256.mk.inj hz)
  have hcard : Fintype.card I ≤ threshold.toNat - 1 := by
    rw [Fintype.card_coe]
    omega
  rw [Nat.card_congr (tapeRows.subtypeEquiv
    (q := fun A => SharingCount.observe x A = fun b (i : I) => byteAt (v i) b - byteAt secret b)
      (split_tape_iff hN ht htn hI v secret)),
    Nat.card_eq_fintype_card, Fintype.card_subtype, SharingCount.card_observe hx h0 hcard,
    GF256.card_eq, Fintype.card_coe]

/-- One observed share of a sharing with threshold two leaves one coefficient, for any secret. -/
theorem card_tapes_of_one_share :
    Nat.card {tape : Fin (1 * ((2 : UInt8).toNat - 1)) → UInt8 //
        ∃ s, split (List.ofFn tape) #v[5] 2 3 = .ok (s, []) ∧
          ∀ i ∈ ({2} : Finset UInt8), (i, #v[7]) ∈ s.indices.zip s.shares} =
      256 ^ (1 * ((2 : UInt8).toNat - 1 - 1)) :=
  card_tapes_of_shares (by decide) (by decide) (by decide) {2} (by simp) (by decide)
    (fun _ => #v[7]) #v[5]

end PysuiCrypto.Tss
