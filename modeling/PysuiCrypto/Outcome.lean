import Mathlib

/-!
# Results of calls that return, report an error, or abort

A modelled call ends in a value, in an error value of its own type, or in a panic.
Both failures propagate through `do` blocks, so an early return and an abort have the
same control flow, and "never panics" is a statement about the result.
-/
namespace PysuiCrypto

inductive Fault (ε : Type)
  | err (e : ε)
  | panic (message : String)
  deriving DecidableEq, Repr

abbrev Outcome (ε α : Type) := Except (Fault ε) α

namespace Outcome

variable {ε ε' α β γ : Type}

def fail (e : ε) : Outcome ε α := .error (.err e)

def abort (message : String) : Outcome ε α := .error (.panic message)

/-- Bounds-checked indexing. -/
def index (xs : List α) (i : ℕ) : Outcome ε α :=
  match xs[i]? with
  | some x => .ok x
  | none => abort "index out of bounds"

/-- Subtraction of unsigned integers with the overflow check of the language. -/
def checkedSub (a b : ℕ) : Outcome ε ℕ :=
  if b ≤ a then .ok (a - b) else abort "attempt to subtract with overflow"

/-- Addition of unsigned integers of the given size, with its overflow check. -/
def checkedAdd (size a b : ℕ) : Outcome ε ℕ :=
  if a + b < size then .ok (a + b) else abort "attempt to add with overflow"

def expect (message : String) : Option α → Outcome ε α
  | some x => .ok x
  | none => abort message

/-- `Result::unwrap`: an error value becomes a panic. -/
def unwrap : Outcome ε α → Outcome ε α
  | .ok x => .ok x
  | .error (.err _) => abort "called `Result::unwrap()` on an `Err` value"
  | .error (.panic message) => abort message

/-- `Result::map_err`: a panic passes through. -/
def mapFail (f : ε → ε') : Outcome ε α → Outcome ε' α
  | .ok x => .ok x
  | .error (.err e) => fail (f e)
  | .error (.panic message) => abort message

/-- Conversion of a list to an array of fixed length, with `expect` on the length. -/
def toArray (n : ℕ) (message : String) (xs : List α) : Outcome ε (Vector α n) :=
  if h : xs.length = n then .ok ⟨xs.toArray, by simpa using h⟩ else abort message

/-- The call returns: with a value or with an error, but not by a panic. -/
def Returns (x : Outcome ε α) : Prop := ∀ message, x ≠ abort message

@[simp] theorem ok_bind (a : α) (f : α → Outcome ε β) : (Except.ok a >>= f) = f a := rfl

@[simp] theorem error_bind (e : Fault ε) (f : α → Outcome ε β) :
    ((Except.error e : Outcome ε α) >>= f) = Except.error e := rfl

@[simp] theorem pure_eq_ok (a : α) : (pure a : Outcome ε α) = Except.ok a := rfl

@[simp] theorem bind_ok (x : Outcome ε α) : (x >>= fun a => Except.ok a) = x := by
  cases x <;> rfl

theorem bind_eq_ok {x : Outcome ε α} {f : α → Outcome ε β} {b : β} :
    (x >>= f) = .ok b ↔ ∃ a, x = .ok a ∧ f a = .ok b := by
  cases x <;> simp

theorem index_eq_ok {xs : List α} {i : ℕ} {x : α} :
    (index xs i : Outcome ε α) = .ok x ↔ xs[i]? = some x := by
  unfold index
  cases xs[i]? <;> simp [abort]

theorem index_of_lt {xs : List α} {i : ℕ} (h : i < xs.length) :
    (index xs i : Outcome ε α) = .ok xs[i] :=
  index_eq_ok.mpr (List.getElem?_eq_getElem h)

theorem checkedSub_of_le {a b : ℕ} (h : b ≤ a) :
    (checkedSub a b : Outcome ε ℕ) = .ok (a - b) := if_pos h

theorem checkedAdd_of_lt {size a b : ℕ} (h : a + b < size) :
    (checkedAdd size a b : Outcome ε ℕ) = .ok (a + b) := if_pos h

@[simp] theorem unwrap_ok (a : α) : unwrap (.ok a : Outcome ε α) = .ok a := rfl

theorem toArray_of_length {n : ℕ} {message : String} {xs : List α} (h : xs.length = n) :
    (toArray n message xs : Outcome ε (Vector α n)) = .ok ⟨xs.toArray, by simpa using h⟩ :=
  dif_pos h

@[simp] theorem toArray_toList {n : ℕ} (message : String) (v : Vector α n) :
    (toArray n message v.toList : Outcome ε (Vector α n)) = .ok v := by
  rw [toArray_of_length (by simp)]
  exact congrArg Except.ok (Vector.toArray_inj.mp Array.toArray_toList)

theorem returns_ok (a : α) : Returns (.ok a : Outcome ε α) := by
  intro message h
  cases h

theorem returns_fail (e : ε) : Returns (fail e : Outcome ε α) := by
  intro message h
  cases h

@[simp] theorem mapFail_ok (f : ε → ε') (a : α) : mapFail f (.ok a : Outcome ε α) = .ok a := rfl

@[simp] theorem mapFail_fail (f : ε → ε') (e : ε) :
    mapFail f (fail e : Outcome ε α) = fail (f e) := rfl

@[simp] theorem mapFail_eq_ok {f : ε → ε'} {x : Outcome ε α} {a : α} :
    mapFail f x = .ok a ↔ x = .ok a := by
  match x with
  | .ok _ => simp [mapFail]
  | .error (.err _) => simp [mapFail, fail]
  | .error (.panic _) => simp [mapFail, abort]

theorem Returns.mapFail {x : Outcome ε α} (hx : Returns x) (f : ε → ε') :
    Returns (mapFail f x) := by
  match x, hx with
  | .ok a, _ => exact returns_ok a
  | .error (.err e), _ => exact returns_fail (f e)
  | .error (.panic message), hx => exact absurd rfl (hx message)

theorem ne_ok_of_fail {x : Outcome ε α} {e : ε} (h : x = fail e) (a : α) : x ≠ .ok a := by
  rintro rfl
  cases h

/-- A call that succeeds under a condition and reports an error otherwise. -/
theorem fails_iff_not {x : Outcome ε α} {p : Prop} (hok : p → ∃ a, x = .ok a)
    (hfail : ¬ p → ∃ e, x = fail e) : (∃ e, x = fail e) ↔ ¬ p := by
  constructor
  · rintro ⟨e, he⟩ hp
    obtain ⟨a, ha⟩ := hok hp
    exact ne_ok_of_fail he a ha
  · exact hfail

theorem Returns.ok_or_fail {x : Outcome ε α} (hx : Returns x) :
    (∃ a, x = .ok a) ∨ ∃ e, x = fail e := by
  match x, hx with
  | .ok a, _ => exact .inl ⟨a, rfl⟩
  | .error (.err e), _ => exact .inr ⟨e, rfl⟩
  | .error (.panic message), hx => exact absurd rfl (hx message)

theorem Returns.bind {x : Outcome ε α} {f : α → Outcome ε β} (hx : Returns x)
    (hf : ∀ a, x = .ok a → Returns (f a)) : Returns (x >>= f) := by
  intro message
  cases x with
  | ok a => exact hf a rfl message
  | error e =>
    intro h
    exact hx message (by simpa [abort] using h)

/-- A traversal whose steps all succeed collects their values in order. -/
theorem mapM_eq_ok {f : α → Outcome ε β} {g : α → β} {xs : List α}
    (h : ∀ x ∈ xs, f x = .ok (g x)) : xs.mapM f = .ok (xs.map g) := by
  induction xs with
  | nil => rfl
  | cons x xs ih =>
    have hx := h x (by simp)
    have ht := ih fun y hy => h y (by simp [hy])
    simp [List.mapM_cons, hx, ht]

theorem mapM_spec {f : α → Outcome ε β} {φ : β → γ} {g : α → γ} {Q : β → Prop} (xs : List α)
    (h : ∀ x ∈ xs, ∃ b, f x = .ok b ∧ φ b = g x ∧ Q b) :
    ∃ bs, xs.mapM f = .ok bs ∧ bs.map φ = xs.map g ∧ ∀ b ∈ bs, Q b := by
  induction xs with
  | nil => exact ⟨[], rfl, rfl, by simp⟩
  | cons x xs ih =>
    obtain ⟨b, hb, hφ, hQ⟩ := h x (by simp)
    obtain ⟨bs, hbs, hφs, hQs⟩ := ih fun y hy => h y (by simp [hy])
    exact ⟨b :: bs, by simp [List.mapM_cons, hb, hbs], by simp [hφ, hφs], by simpa using ⟨hQ, hQs⟩⟩

theorem mapM_range_spec {f : ℕ → Outcome ε β} {P : ℕ → β → Prop} {n : ℕ}
    (h : ∀ i < n, ∃ b, f i = .ok b ∧ P i b) :
    ∃ bs, (List.range n).mapM f = .ok bs ∧ bs.length = n ∧
      ∀ i b, bs[i]? = some b → P i b := by
  induction n with
  | zero => exact ⟨[], by simp, rfl, by simp⟩
  | succ n ih =>
    obtain ⟨bs, hbs, hlen, hP⟩ := ih fun i hi => h i (by omega)
    obtain ⟨b, hb, hPb⟩ := h n (by omega)
    refine ⟨bs ++ [b], by simp [List.range_succ, List.mapM_append, hbs, hb], by simp [hlen], ?_⟩
    intro i b' hi
    rcases Nat.lt_or_ge i bs.length with hlt | hge
    · exact hP i b' (by rwa [List.getElem?_append_left hlt] at hi)
    · rw [List.getElem?_append_right hge, List.getElem?_singleton] at hi
      split_ifs at hi with hz
      obtain rfl := Option.some.inj hi
      rwa [show i = n by omega]

/-- A traversal stops at the first error, when the steps before it succeed. -/
theorem mapM_eq_fail {f : α → Outcome ε β} {e : ε} {xs : List α}
    (h : ∀ x ∈ xs, (∃ b, f x = .ok b) ∨ f x = fail e) (he : ∃ x ∈ xs, f x = fail e) :
    xs.mapM f = fail e := by
  induction xs with
  | nil => simp at he
  | cons x xs ih =>
    rcases h x (by simp) with ⟨b, hb⟩ | hx
    · have he' : ∃ y ∈ xs, f y = fail e := by
        obtain ⟨y, hy, hye⟩ := he
        rcases List.mem_cons.mp hy with rfl | hy
        · rw [hb] at hye
          cases hye
        · exact ⟨y, hy, hye⟩
      have ht := ih (fun y hy => h y (by simp [hy])) he'
      rw [List.mapM_cons, hb, ht]
      rfl
    · rw [List.mapM_cons, hx]
      rfl

theorem anyM_eq_ok {f : α → Outcome ε Bool} {g : α → Bool} {xs : List α}
    (h : ∀ x ∈ xs, f x = .ok (g x)) : xs.anyM f = .ok (xs.any g) := by
  induction xs with
  | nil => rfl
  | cons x xs ih =>
    have ht := ih fun y hy => h y (by simp [hy])
    rw [List.anyM, h x (by simp), ok_bind, List.any_cons]
    cases g x
    · simpa using ht
    · rfl

/-- A traversal of the positions of the selected elements collects their values. -/
theorem mapM_positions {f : ℕ → Outcome ε β} {p : α → Bool} {g : α → Option β} {xs : List α}
    (k : ℕ) (hp : ∀ (i : ℕ) x, xs[i]? = some x → p x = true → ∃ b, f (k + i) = .ok b ∧ g x = some b)
    (hn : ∀ x ∈ xs, p x = false → g x = none) :
    (((xs.zipIdx k).filter fun x => p x.1).map Prod.snd).mapM f = .ok (xs.filterMap g) := by
  induction xs generalizing k with
  | nil => rfl
  | cons x xs ih =>
    have ht := ih (k + 1) (fun i y hy => by
      rw [Nat.add_right_comm]
      exact hp (i + 1) y (by simpa using hy)) fun y hy => hn y (by simp [hy])
    rw [List.zipIdx_cons, List.filter_cons]
    cases hx : p x
    · simpa [hn x (by simp) hx] using ht
    · obtain ⟨b, hb, hg⟩ := hp 0 x (by simp) hx
      rw [Nat.add_zero] at hb
      simp [List.mapM_cons, hb, hg, ht]

theorem foldlM_eq_ok {f : β → α → Outcome ε β} {g : β → α → β} (h : ∀ b a, f b a = .ok (g b a))
    (xs : List α) (b : β) : xs.foldlM f b = .ok (xs.foldl g b) := by
  induction xs generalizing b with
  | nil => rfl
  | cons x xs ih => simp [List.foldlM_cons, h, ih]

end Outcome

end PysuiCrypto
