import Mathlib

/-!
# Binary Canonical Serialization

A format is a partial encoder and a decoder that returns the unread bytes. The combinators
follow the BCS specification: fixed-size bytes, ULEB128 lengths and variant indices, options,
sequences, products and enumerations. A lawful format decodes what it encodes and accepts
nothing else; each combinator preserves this, so a type built from them has one encoding.
-/
namespace PysuiCrypto

structure BcsFormat (α : Type) where
  /-- Nothing for a value that the specification does not encode. -/
  encode : α → Option (List UInt8)
  decode : List UInt8 → Option (α × List UInt8)

namespace BcsFormat

variable {α β : Type}

structure Lawful (F : BcsFormat α) : Prop where
  decode_encode : ∀ {a bs} rest, F.encode a = some bs → F.decode (bs ++ rest) = some (a, rest)
  encode_decode : ∀ {bs a rest}, F.decode bs = some (a, rest) →
    ∃ pre, F.encode a = some pre ∧ bs = pre ++ rest

/-- The bytes of a value are those that are read as the value to the end. -/
theorem Lawful.encode_eq_some_iff {F : BcsFormat α} (hF : F.Lawful) {a : α} {bs : List UInt8} :
    F.encode a = some bs ↔ F.decode bs = some (a, []) := by
  constructor
  · intro h
    simpa using hF.decode_encode [] h
  · intro h
    obtain ⟨pre, hpre, rfl⟩ := hF.encode_decode h
    rwa [List.append_nil]

def u8 : BcsFormat UInt8 where
  encode b := some [b]
  decode
    | [] => none
    | b :: rest => some (b, rest)

theorem u8_lawful : u8.Lawful where
  decode_encode rest h := by
    obtain rfl := Option.some.inj h
    rfl
  encode_decode {bs a rest} h := by
    cases bs with
    | nil => cases h
    | cons b bs =>
      obtain ⟨rfl, rfl⟩ := Prod.mk.inj (Option.some.inj h)
      exact ⟨[b], rfl, rfl⟩

/-- An array of a fixed number of bytes. -/
def bytes (n : ℕ) : BcsFormat (Vector UInt8 n) where
  encode v := some v.toList
  decode bs :=
    if h : n ≤ bs.length then some (⟨(bs.take n).toArray, by simp [h]⟩, bs.drop n) else none

theorem bytes_lawful (n : ℕ) : (bytes n).Lawful where
  decode_encode {v bs} rest h := by
    obtain rfl := Option.some.inj h
    have hlen : v.toList.length = n := Vector.length_toList
    rw [bytes]
    simp only [List.length_append, hlen, Nat.le_add_right, dite_true, List.take_left' hlen,
      List.drop_left' hlen]
    congr 2
  encode_decode {bs v rest} h := by
    simp only [bytes] at h
    split_ifs at h with hn
    obtain ⟨rfl, rfl⟩ := Prod.mk.inj (Option.some.inj h)
    exact ⟨bs.take n, rfl, (List.take_append_drop n bs).symm⟩

/-- No bytes, for a type of one value. -/
def unit : BcsFormat Unit where
  encode _ := some []
  decode bs := some ((), bs)

theorem unit_lawful : unit.Lawful where
  decode_encode rest h := by
    obtain rfl := Option.some.inj h
    rfl
  encode_decode {bs a rest} h := by
    obtain ⟨-, rfl⟩ := Prod.mk.inj (Option.some.inj h)
    exact ⟨[], rfl, rfl⟩

/-- The base-128 digits of a number, with at most `k` bytes; all but the last are marked. -/
def ulebBytes : ℕ → ℕ → List UInt8
  | 0, _ => []
  | k + 1, n =>
    if n < 128 then [UInt8.ofNat n] else UInt8.ofNat (n % 128 + 128) :: ulebBytes k (n / 128)

/-- Reading digits up to the first that is not marked; a last digit zero after another digit is
not canonical. -/
def readUleb : ℕ → Bool → List UInt8 → Option (ℕ × List UInt8)
  | 0, _, _ => none
  | _ + 1, _, [] => none
  | k + 1, first, b :: rest =>
    if b.toNat < 128 then
      if first = false ∧ b = 0 then none else some (b.toNat, rest)
    else
      match readUleb k false rest with
      | some (n, rest) => some (b.toNat - 128 + 128 * n, rest)
      | none => none

theorem toNat_marked (n : ℕ) : (UInt8.ofNat (n % 128 + 128)).toNat = n % 128 + 128 := by
  rw [UInt8.toNat_ofNat']
  omega

/-- One digit, for a number that it holds. -/
theorem readUleb_digit {k n : ℕ} {first : Bool} (hlt : n < 128) (hn : first ∨ n ≠ 0)
    (rest : List UInt8) : readUleb (k + 1) first (UInt8.ofNat n :: rest) = some (n, rest) := by
  have hval : (UInt8.ofNat n).toNat = n := by
    rw [UInt8.toNat_ofNat']
    omega
  have hcond : ¬ (first = false ∧ UInt8.ofNat n = 0) := by
    rintro ⟨rfl, hz⟩
    rw [hz] at hval
    exact (hn.resolve_left (by simp)) hval.symm
  rw [readUleb, hval, if_pos hlt, if_neg hcond]

theorem readUleb_ulebBytes {k n : ℕ} {first : Bool} (hk : n < 128 ^ (k + 1))
    (hn : first ∨ n ≠ 0) (rest : List UInt8) :
    readUleb (k + 1) first (ulebBytes (k + 1) n ++ rest) = some (n, rest) := by
  induction k generalizing n first with
  | zero =>
    have hlt : n < 128 := by simpa using hk
    rw [ulebBytes, if_pos hlt]
    exact readUleb_digit hlt hn rest
  | succ k ih =>
    rw [ulebBytes]
    split_ifs with hlt
    · exact readUleb_digit hlt hn rest
    · have hdiv : n / 128 < 128 ^ (k + 1) := Nat.div_lt_of_lt_mul (by rwa [pow_succ'] at hk)
      rw [List.cons_append, readUleb, toNat_marked, if_neg (by omega),
        ih hdiv (.inr (by omega))]
      simp only [Nat.add_sub_cancel, Nat.mod_add_div]

theorem ulebBytes_readUleb {k n : ℕ} {first : Bool} {bs rest : List UInt8}
    (h : readUleb k first bs = some (n, rest)) :
    bs = ulebBytes k n ++ rest ∧ (first = false → n ≠ 0) := by
  induction k generalizing n first bs with
  | zero => cases h
  | succ k ih =>
    cases bs with
    | nil => cases h
    | cons b bs =>
      rw [readUleb] at h
      split_ifs at h with hlt hzero
      · obtain ⟨rfl, rfl⟩ := Prod.mk.inj (Option.some.inj h)
        refine ⟨?_, fun hf hz => hzero ⟨hf, UInt8.toNat_inj.mp hz⟩⟩
        rw [ulebBytes, if_pos hlt, UInt8.ofNat_toNat]
        rfl
      · split at h
        · next m rest' hm =>
          obtain ⟨rfl, rfl⟩ := Prod.mk.inj (Option.some.inj h)
          obtain ⟨rfl, hm0⟩ := ih hm
          have hb := b.toNat_lt
          have hmpos := hm0 rfl
          refine ⟨?_, fun _ => by omega⟩
          rw [ulebBytes, if_neg (by omega), show (b.toNat - 128 + 128 * m) / 128 = m by omega,
            show (b.toNat - 128 + 128 * m) % 128 + 128 = b.toNat by omega, UInt8.ofNat_toNat]
          rfl
        · cases h

/-- An unsigned 32-bit integer in at most five bytes. -/
def uleb128 : BcsFormat ℕ where
  encode n := if n < 2 ^ 32 then some (ulebBytes 5 n) else none
  decode bs :=
    match readUleb 5 true bs with
    | some (n, rest) => if n < 2 ^ 32 then some (n, rest) else none
    | none => none

theorem uleb128_lawful : uleb128.Lawful where
  decode_encode {n bs} rest h := by
    simp only [uleb128] at h
    split_ifs at h with hn
    obtain rfl := Option.some.inj h
    simp only [uleb128, readUleb_ulebBytes (k := 4) (show n < 128 ^ 5 by omega) (.inl rfl), if_pos hn]
  encode_decode {bs n rest} h := by
    simp only [uleb128] at h
    split at h
    · next m rest' hm =>
      split_ifs at h with hlt
      obtain ⟨rfl, rfl⟩ := Prod.mk.inj (Option.some.inj h)
      exact ⟨_, if_pos hlt, (ulebBytes_readUleb hm).1⟩
    · cases h

/-- The largest number of elements of a sequence. -/
def maxSequenceLength : ℕ := 2 ^ 31 - 1

def readMany (F : BcsFormat α) : ℕ → List UInt8 → Option (List α × List UInt8)
  | 0, bs => some ([], bs)
  | n + 1, bs => do
    let (x, bs) ← F.decode bs
    let (xs, bs) ← readMany F n bs
    some (x :: xs, bs)

def seq (F : BcsFormat α) : BcsFormat (List α) where
  encode xs := do
    let count ← uleb128.encode xs.length
    let items ← xs.mapM F.encode
    if xs.length ≤ maxSequenceLength then some (count ++ items.flatten) else none
  decode bs := do
    let (count, bs) ← uleb128.decode bs
    if count ≤ maxSequenceLength then readMany F count bs else none

theorem readMany_flatten {F : BcsFormat α} (hF : F.Lawful) {xs : List α}
    {items : List (List UInt8)} (h : xs.mapM F.encode = some items) (rest : List UInt8) :
    readMany F xs.length (items.flatten ++ rest) = some (xs, rest) := by
  induction xs generalizing items with
  | nil =>
    obtain rfl := Option.some.inj h
    rfl
  | cons x xs ih =>
    rw [List.mapM_cons] at h
    obtain ⟨item, hx, h⟩ := Option.bind_eq_some_iff.mp h
    obtain ⟨items', hxs, h⟩ := Option.bind_eq_some_iff.mp h
    obtain rfl := Option.some.inj h
    rw [List.flatten_cons, List.append_assoc, List.length_cons, readMany,
      hF.decode_encode _ hx]
    simp [ih hxs]

theorem flatten_readMany {F : BcsFormat α} (hF : F.Lawful) {n : ℕ} {bs rest : List UInt8}
    {xs : List α} (h : readMany F n bs = some (xs, rest)) :
    ∃ items, xs.mapM F.encode = some items ∧ bs = items.flatten ++ rest ∧ xs.length = n := by
  induction n generalizing bs xs with
  | zero =>
    obtain ⟨rfl, rfl⟩ := Prod.mk.inj (Option.some.inj h)
    exact ⟨[], rfl, rfl, rfl⟩
  | succ n ih =>
    obtain ⟨⟨x, bs'⟩, hx, h⟩ := Option.bind_eq_some_iff.mp h
    obtain ⟨⟨xs', bs''⟩, hxs, h⟩ := Option.bind_eq_some_iff.mp h
    obtain ⟨rfl, rfl⟩ := Prod.mk.inj (Option.some.inj h)
    obtain ⟨item, hitem, rfl⟩ := hF.encode_decode hx
    obtain ⟨items, hitems, rfl, rfl⟩ := ih hxs
    exact ⟨item :: items, by simp [List.mapM_cons, hitem, hitems], by simp, rfl⟩

theorem seq_lawful {F : BcsFormat α} (hF : F.Lawful) : (seq F).Lawful where
  decode_encode {xs bs} rest h := by
    obtain ⟨count, hcount, h⟩ := Option.bind_eq_some_iff.mp h
    obtain ⟨items, hitems, h⟩ := Option.bind_eq_some_iff.mp h
    split_ifs at h with hle
    obtain rfl := Option.some.inj h
    simp [seq, uleb128_lawful.decode_encode _ hcount, hle, readMany_flatten hF hitems]
  encode_decode {bs xs rest} h := by
    obtain ⟨⟨count, bs'⟩, hcount, hread⟩ := Option.bind_eq_some_iff.mp h
    simp only at hread
    split_ifs at hread with hle
    obtain ⟨pre, hpre, rfl⟩ := uleb128_lawful.encode_decode hcount
    obtain ⟨items, hitems, rfl, rfl⟩ := flatten_readMany hF hread
    exact ⟨pre ++ items.flatten, by simp [seq, hpre, hitems, hle], by simp⟩

def option (F : BcsFormat α) : BcsFormat (Option α) where
  encode
    | none => some [0]
    | some a => (F.encode a).map (1 :: ·)
  decode
    | [] => none
    | b :: bs =>
      if b = 0 then some (none, bs)
      else if b = 1 then (F.decode bs).map fun (a, rest) => (some a, rest)
      else none

theorem option_lawful {F : BcsFormat α} (hF : F.Lawful) : (option F).Lawful where
  decode_encode {x bs} rest h := by
    cases x with
    | none =>
      obtain rfl := Option.some.inj h
      rfl
    | some a =>
      obtain ⟨bs', ha, rfl⟩ := Option.map_eq_some_iff.mp h
      simp [option, hF.decode_encode _ ha]
  encode_decode {bs x rest} h := by
    cases bs with
    | nil => cases h
    | cons b bs =>
      simp only [option] at h
      split_ifs at h with h0 h1
      · obtain ⟨rfl, rfl⟩ := Prod.mk.inj (Option.some.inj h)
        exact ⟨[0], rfl, by rw [h0]; rfl⟩
      · obtain ⟨⟨a, rest'⟩, ha, heq⟩ := Option.map_eq_some_iff.mp h
        obtain ⟨rfl, rfl⟩ := Prod.mk.inj heq
        obtain ⟨pre, hpre, rfl⟩ := hF.encode_decode ha
        exact ⟨1 :: pre, by simp [option, hpre], by rw [h1]; rfl⟩

def pair (F : BcsFormat α) (G : BcsFormat β) : BcsFormat (α × β) where
  encode x := do
    let first ← F.encode x.1
    let second ← G.encode x.2
    some (first ++ second)
  decode bs := do
    let (a, bs) ← F.decode bs
    let (b, bs) ← G.decode bs
    some ((a, b), bs)

theorem pair_lawful {F : BcsFormat α} {G : BcsFormat β} (hF : F.Lawful) (hG : G.Lawful) :
    (pair F G).Lawful where
  decode_encode {x bs} rest h := by
    obtain ⟨first, hfirst, h⟩ := Option.bind_eq_some_iff.mp h
    obtain ⟨second, hsecond, h⟩ := Option.bind_eq_some_iff.mp h
    obtain rfl := Option.some.inj h
    simp [pair, hF.decode_encode _ hfirst, hG.decode_encode _ hsecond]
  encode_decode {bs x rest} h := by
    obtain ⟨⟨a, bs'⟩, ha, h⟩ := Option.bind_eq_some_iff.mp h
    obtain ⟨⟨b, bs''⟩, hb, h⟩ := Option.bind_eq_some_iff.mp h
    obtain ⟨rfl, rfl⟩ := Prod.mk.inj (Option.some.inj h)
    obtain ⟨first, hfirst, rfl⟩ := hF.encode_decode ha
    obtain ⟨second, hsecond, rfl⟩ := hG.encode_decode hb
    exact ⟨first ++ second, by simp [pair, hfirst, hsecond], by simp⟩

/-- A type that is serialized as its representation. -/
def via (F : BcsFormat β) (toRepr : α → β) (ofRepr : β → Option α) : BcsFormat α where
  encode a := F.encode (toRepr a)
  decode bs := do
    let (b, bs) ← F.decode bs
    let a ← ofRepr b
    some (a, bs)

theorem via_lawful {F : BcsFormat β} (hF : F.Lawful) {toRepr : α → β} {ofRepr : β → Option α}
    (hof : ∀ a, ofRepr (toRepr a) = some a) (hrepr : ∀ b a, ofRepr b = some a → toRepr a = b) :
    (via F toRepr ofRepr).Lawful where
  decode_encode {a bs} rest h := by
    simp [via, hF.decode_encode rest h, hof]
  encode_decode {bs a rest} h := by
    obtain ⟨⟨b, bs'⟩, hb, h⟩ := Option.bind_eq_some_iff.mp h
    obtain ⟨a', ha, h⟩ := Option.bind_eq_some_iff.mp h
    obtain ⟨rfl, rfl⟩ := Prod.mk.inj (Option.some.inj h)
    obtain ⟨pre, hpre, rfl⟩ := hF.encode_decode hb
    exact ⟨pre, by simpa [via, hrepr b a' ha] using hpre, rfl⟩

/-- Values of fixed size with a canonical decoder that reports errors. -/
theorem decodeVia_lawful {ε : Type} {n : ℕ} {encode : α → Vector UInt8 n}
    {decode : Vector UInt8 n → Except ε α} (hdec : ∀ a, decode (encode a) = .ok a)
    (henc : ∀ v a, decode v = .ok a → encode a = v) :
    (via (bytes n) encode fun v => (decode v).toOption).Lawful := by
  apply via_lawful (bytes_lawful n)
  · intro a
    rw [hdec]
    rfl
  · intro v a h
    cases hd : decode v with
    | ok a' =>
      rw [hd] at h
      rw [← Option.some.inj h]
      exact henc v a' hd
    | error e =>
      rw [hd] at h
      cases h

/-- An enumeration: the index of the variant, then the variant's fields. -/
def enum {n : ℕ} {T : Fin n → Type} (F : ∀ i, BcsFormat (T i)) : BcsFormat (Σ i, T i) where
  encode x := do
    let index ← uleb128.encode x.1
    let fields ← (F x.1).encode x.2
    some (index ++ fields)
  decode bs := do
    let (index, bs) ← uleb128.decode bs
    if h : index < n then do
      let (x, bs) ← (F ⟨index, h⟩).decode bs
      some (⟨⟨index, h⟩, x⟩, bs)
    else none

theorem enum_lawful {n : ℕ} {T : Fin n → Type} {F : ∀ i, BcsFormat (T i)}
    (hF : ∀ i, (F i).Lawful) : (enum F).Lawful where
  decode_encode {x bs} rest h := by
    obtain ⟨index, hindex, h⟩ := Option.bind_eq_some_iff.mp h
    obtain ⟨fields, hfields, h⟩ := Option.bind_eq_some_iff.mp h
    obtain rfl := Option.some.inj h
    simp [enum, uleb128_lawful.decode_encode _ hindex, (hF x.1).decode_encode _ hfields]
  encode_decode {bs x rest} h := by
    obtain ⟨⟨index, bs'⟩, hindex, hread⟩ := Option.bind_eq_some_iff.mp h
    simp only at hread
    split_ifs at hread with hlt
    obtain ⟨⟨y, bs''⟩, hy, hread⟩ := Option.bind_eq_some_iff.mp hread
    obtain ⟨rfl, rfl⟩ := Prod.mk.inj (Option.some.inj hread)
    obtain ⟨pre, hpre, rfl⟩ := uleb128_lawful.encode_decode hindex
    obtain ⟨fields, hfields, rfl⟩ := (hF ⟨index, hlt⟩).encode_decode hy
    exact ⟨pre ++ fields, by simp [enum, hpre, hfields], by simp⟩

/-- The values that a format encodes, and their bytes. -/
def Spells (F : BcsFormat α) (P : α → Prop) (f : α → List UInt8) : Prop :=
  ∀ a bs, F.encode a = some bs ↔ P a ∧ bs = f a

theorem u8_spells : u8.Spells (fun _ => True) fun b => [b] := by
  intro b bs
  simp [u8, eq_comm]

theorem bytes_spells (n : ℕ) : (bytes n).Spells (fun _ => True) Vector.toList := by
  intro v bs
  simp [bytes, eq_comm]

theorem unit_spells : unit.Spells (fun _ => True) fun _ => [] := by
  intro v bs
  simp [unit, eq_comm]

theorem uleb128_spells : uleb128.Spells (fun n => n < 2 ^ 32) (ulebBytes 5) := by
  intro n bs
  simp [uleb128, eq_comm]

theorem mapM_encode_iff {F : BcsFormat α} {P : α → Prop} {f : α → List UInt8}
    (h : F.Spells P f) {xs : List α} {items : List (List UInt8)} :
    xs.mapM F.encode = some items ↔ (∀ x ∈ xs, P x) ∧ items = xs.map f := by
  induction xs generalizing items with
  | nil => simp [eq_comm]
  | cons x xs ih =>
    simp only [List.mapM_cons, Option.bind_eq_bind, Option.bind_eq_some_iff, h x _, ih,
      List.forall_mem_cons, List.map_cons]
    constructor
    · rintro ⟨_, ⟨hx, rfl⟩, _, ⟨hxs, rfl⟩, h⟩
      exact ⟨⟨hx, hxs⟩, (Option.some.inj h).symm⟩
    · rintro ⟨⟨hx, hxs⟩, rfl⟩
      exact ⟨_, ⟨hx, rfl⟩, _, ⟨hxs, rfl⟩, rfl⟩

theorem seq_spells {F : BcsFormat α} {P : α → Prop} {f : α → List UInt8} (h : F.Spells P f) :
    (seq F).Spells (fun xs => xs.length ≤ maxSequenceLength ∧ ∀ x ∈ xs, P x)
      fun xs => ulebBytes 5 xs.length ++ xs.flatMap f := by
  intro xs bs
  simp only [seq, Option.bind_eq_bind, Option.bind_eq_some_iff, mapM_encode_iff h,
    uleb128_spells _ _]
  constructor
  · rintro ⟨_, ⟨-, rfl⟩, _, ⟨hxs, rfl⟩, h⟩
    split_ifs at h with hle
    obtain rfl := Option.some.inj h
    exact ⟨⟨hle, hxs⟩, by rw [List.flatMap]⟩
  · rintro ⟨⟨hle, hxs⟩, rfl⟩
    have hlt : xs.length < 2 ^ 32 := by
      simp only [maxSequenceLength] at hle
      omega
    exact ⟨_, ⟨hlt, rfl⟩, _, ⟨hxs, rfl⟩, by rw [if_pos hle, List.flatMap]⟩

theorem option_spells {F : BcsFormat α} {P : α → Prop} {f : α → List UInt8}
    (h : F.Spells P f) :
    (option F).Spells (fun x => ∀ a, x = some a → P a)
      fun x => x.elim [0] fun a => 1 :: f a := by
  intro x bs
  cases x with
  | none => simp [option, eq_comm]
  | some a =>
    simp only [option, Option.map_eq_some_iff, h a _, Option.some_inj, forall_eq',
      Option.elim_some]
    constructor
    · rintro ⟨_, ⟨ha, rfl⟩, rfl⟩
      exact ⟨ha, rfl⟩
    · rintro ⟨ha, rfl⟩
      exact ⟨_, ⟨ha, rfl⟩, rfl⟩

theorem pair_spells {F : BcsFormat α} {G : BcsFormat β} {P : α → Prop} {Q : β → Prop}
    {f : α → List UInt8} {g : β → List UInt8} (hF : F.Spells P f) (hG : G.Spells Q g) :
    (pair F G).Spells (fun x => P x.1 ∧ Q x.2) fun x => f x.1 ++ g x.2 := by
  intro x bs
  simp only [pair, Option.bind_eq_bind, Option.bind_eq_some_iff, hF _ _, hG _ _]
  constructor
  · rintro ⟨_, ⟨hx, rfl⟩, _, ⟨hy, rfl⟩, h⟩
    exact ⟨⟨hx, hy⟩, (Option.some.inj h).symm⟩
  · rintro ⟨⟨hx, hy⟩, rfl⟩
    exact ⟨_, ⟨hx, rfl⟩, _, ⟨hy, rfl⟩, rfl⟩

theorem via_spells {F : BcsFormat β} {P : β → Prop} {f : β → List UInt8} (h : F.Spells P f)
    (toRepr : α → β) (ofRepr : β → Option α) :
    (via F toRepr ofRepr).Spells (fun a => P (toRepr a)) fun a => f (toRepr a) :=
  fun a bs => h (toRepr a) bs

/-- The layout of one variant. -/
theorem enum_encode_iff {n : ℕ} (hn : n ≤ 2 ^ 32) {T : Fin n → Type} {F : ∀ i, BcsFormat (T i)}
    {i : Fin n} {P : T i → Prop} {f : T i → List UInt8} (h : (F i).Spells P f) (x : T i)
    (bs : List UInt8) :
    (enum F).encode ⟨i, x⟩ = some bs ↔ P x ∧ bs = ulebBytes 5 i ++ f x := by
  simp only [enum, Option.bind_eq_bind, Option.bind_eq_some_iff, uleb128_spells _ _, h _ _]
  constructor
  · rintro ⟨_, ⟨-, rfl⟩, _, ⟨hx, rfl⟩, h⟩
    exact ⟨hx, (Option.some.inj h).symm⟩
  · rintro ⟨hx, rfl⟩
    exact ⟨_, ⟨lt_of_lt_of_le i.2 hn, rfl⟩, _, ⟨hx, rfl⟩, rfl⟩

theorem Spells.congr {F : BcsFormat α} {P Q : α → Prop} {f g : α → List UInt8}
    (h : F.Spells P f) (hPQ : ∀ a, P a ↔ Q a) (hfg : ∀ a, f a = g a) : F.Spells Q g := by
  intro a bs
  rw [h a bs, hPQ, hfg]

end BcsFormat

end PysuiCrypto
