import PysuiCrypto.Hex
import PysuiCrypto.SessionMessage

/-!
# Object ids as texts

Reading and displaying the ids of packages and key servers. The prefix is dropped once, the
digits are read in either case, and an id is displayed with the prefix and in lower case. The
check of a package id in front of the message for a session key is another reading of the same
texts: where the prefix stands, it accepts exactly the ids.
-/
namespace PysuiCrypto

open Outcome

structure HexApi where
  encode : List UInt8 → String
  decode : String → Except String (List UInt8)

/-- The documented behaviour of `hex`. -/
structure HexApi.FollowsDocs (x : HexApi) : Prop where
  encode_eq : ∀ bs, x.encode bs = String.ofList (Hex.encode bs)
  decode_eq_ok : ∀ {s bs}, x.decode s = .ok bs ↔ Hex.decode s.toList = some bs

def stripPrefix (s word : String) : Option String :=
  if s.startsWith word then some (String.ofList (s.toList.drop word.length)) else none

namespace ObjectID

variable (x : HexApi)

def fromStr (s : String) : Except String ObjectID :=
  match x.decode ((stripPrefix s "0x").getD s) with
  | .error e => .error e
  | .ok bytes =>
    if h : bytes.length = 32 then .ok ⟨⟨bytes.toArray, by simpa using h⟩⟩
    else .error "ObjectID must be exactly 32 bytes (64 hex chars)"

def display (id : ObjectID) : String := "0x" ++ x.encode id.bytes.toList

/-- The digits of an id in either case, with or without the prefix. -/
def Spelling (s : String) (id : ObjectID) : Prop :=
  ∃ digits, (s.toList = digits ∨ s.toList = '0' :: 'x' :: digits) ∧
    digits.map Char.toLower = Hex.encode id.bytes.toList

variable {x} {s : String} {id : ObjectID}

theorem fromStr_eq_ok_iff_decode {digits : List Char} (hx : x.FollowsDocs)
    (h : (stripPrefix s "0x").getD s = String.ofList digits) :
    fromStr x s = .ok id ↔ Hex.decode digits = some id.bytes.toList := by
  have hdecode : ∀ bs, x.decode (String.ofList digits) = .ok bs ↔
      Hex.decode digits = some bs := fun bs => by rw [hx.decode_eq_ok, String.toList_ofList]
  rw [fromStr, h]
  cases hbytes : x.decode (String.ofList digits) with
  | error e =>
    refine iff_of_false (by simp) fun hid => ?_
    rw [(hdecode _).mpr hid] at hbytes
    cases hbytes
  | ok bytes =>
    rw [(hdecode _).mp hbytes, Option.some_inj]
    obtain ⟨id⟩ := id
    by_cases hlen : bytes.length = 32
    · simp [hlen, ← Vector.toList_inj]
    · refine iff_of_false (by simp [hlen]) fun hid => hlen ?_
      rw [hid, Vector.length_toList]

theorem not_spelling_head {digits : List Char} {bs : List UInt8} :
    ('0' :: 'x' :: digits).map Char.toLower ≠ Hex.encode bs := by
  intro h
  have hmem : 'x' ∈ Hex.encode bs := by
    rw [← h]
    simp
  obtain ⟨n, hn, hx⟩ := Hex.mem_encode hmem
  have hdigits : ∀ i < 16, 'x' ≠ Nat.digitChar i := by decide
  exact hdigits n hn hx

theorem stripPrefix_hex {digits : List Char} (hs : s.toList = '0' :: 'x' :: digits) :
    (stripPrefix s "0x").getD s = String.ofList digits := by
  rw [stripPrefix, if_pos (startsWith_hex_iff.mpr ⟨digits, hs⟩), Option.getD_some, hs]
  rfl

theorem fromStr_eq_ok (hx : x.FollowsDocs) : fromStr x s = .ok id ↔ Spelling s id := by
  by_cases hhex : s.startsWith "0x"
  · obtain ⟨digits, hs⟩ := startsWith_hex_iff.mp hhex
    rw [fromStr_eq_ok_iff_decode hx (stripPrefix_hex hs), Hex.decode_eq_some_iff]
    constructor
    · exact fun h => ⟨digits, .inr hs, h⟩
    · rintro ⟨digits', hs' | hs', h⟩
      · rw [← hs', hs] at h
        exact absurd h not_spelling_head
      · rw [hs] at hs'
        simp only [List.cons.injEq, true_and] at hs'
        rw [hs', h]
  · have hstrip : (stripPrefix s "0x").getD s = String.ofList s.toList := by
      rw [stripPrefix, if_neg hhex, Option.getD_none, String.ofList_toList]
    rw [fromStr_eq_ok_iff_decode hx hstrip, Hex.decode_eq_some_iff]
    constructor
    · exact fun h => ⟨s.toList, .inl rfl, h⟩
    · rintro ⟨digits, hs | hs, h⟩
      · rw [hs, h]
      · exact absurd (startsWith_hex_iff.mpr ⟨digits, hs⟩) hhex

theorem toList_display (hx : x.FollowsDocs) (id : ObjectID) :
    (id.display x).toList = '0' :: 'x' :: Hex.encode id.bytes.toList := by
  rw [display, hx.encode_eq]
  simp

theorem fromStr_display (hx : x.FollowsDocs) (id : ObjectID) :
    fromStr x (id.display x) = .ok id :=
  (fromStr_eq_ok hx).mpr ⟨_, .inr (toList_display hx id), Hex.map_toLower_encode _⟩

/-- The digits of the check are the digits of the reading: both are ASCII. -/
theorem isAsciiHexdigit_iff (ch : Char) : isAsciiHexdigit ch ↔ (Hex.digitValue ch).isSome := by
  have hascii : ∀ k < 128, isAsciiHexdigit (Char.ofNat k) ↔
      (Hex.digitValue (Char.ofNat k)).isSome := by decide +kernel
  by_cases hch : ch.toNat < 128
  · have hiff := hascii ch.toNat hch
    rwa [Char.ofNat_toNat] at hiff
  · refine iff_of_false (fun h => hch ?_) fun h => hch ?_
    · exact (UInt32.le_iff_toNat_le.mp (ascii_of_isAsciiHexdigit h)).trans_lt (by decide)
    · obtain ⟨n, hn⟩ := Option.isSome_iff_exists.mp h
      exact Hex.ascii_of_digitValue hn

theorem exists_fromStr_iff_decode {digits : List Char} (hx : x.FollowsDocs)
    (h : (stripPrefix s "0x").getD s = String.ofList digits) :
    (∃ id, fromStr x s = .ok id) ↔ ∃ bs, Hex.decode digits = some bs ∧ bs.length = 32 := by
  simp only [fromStr_eq_ok_iff_decode hx h]
  constructor
  · rintro ⟨id, hid⟩
    exact ⟨_, hid, Vector.length_toList⟩
  · rintro ⟨bs, hbs, hlen⟩
    exact ⟨⟨⟨bs.toArray, by simpa using hlen⟩⟩, hbs⟩

/-- Behind the prefix, the check of a package id accepts what is read as an id. -/
theorem validatePackageId_iff_fromStr (hx : x.FollowsDocs) (h : s.startsWith "0x") :
    validatePackageId s = .ok () ↔ ∃ id, fromStr x s = .ok id := by
  obtain ⟨digits, hs⟩ := startsWith_hex_iff.mp h
  rw [validatePackageId_hex hs, exists_fromStr_iff_decode hx (stripPrefix_hex hs),
    Hex.exists_decode_iff]
  simp only [isAsciiHexdigit_iff]

/-- Without the prefix, the digits contain no comma. -/
theorem validatePackageId_of_fromStr (hx : x.FollowsDocs) (h : fromStr x s = .ok id) :
    validatePackageId s = .ok () := by
  by_cases hhex : s.startsWith "0x"
  · exact (validatePackageId_iff_fromStr hx hhex).mpr ⟨id, h⟩
  · obtain ⟨digits, hs | hs, hid⟩ := (fromStr_eq_ok hx).mp h
    · rw [validatePackageId_other hhex, hs]
      intro hcomma
      have hmem : ',' ∈ Hex.encode id.bytes.toList := hid ▸ List.mem_map_of_mem hcomma
      obtain ⟨n, hn, hdigit⟩ := Hex.mem_encode hmem
      have hdigits : ∀ i < 16, ',' ≠ Nat.digitChar i := by decide
      exact hdigits n hn hdigit
    · exact absurd (startsWith_hex_iff.mpr ⟨digits, hs⟩) hhex

/-- An id is read from its display, and from exactly the texts of its 64 digits in any case, with
the prefix once or not at all. The check of a package id accepts a text with the prefix exactly
if it is read as an id, and accepts each text that is. -/
theorem fromStr_spec (hx : x.FollowsDocs) :
    (∀ id : ObjectID, fromStr x (id.display x) = .ok id) ∧
    (∀ (s : String) (id : ObjectID), fromStr x s = .ok id ↔ Spelling s id) ∧
    (∀ s : String, s.startsWith "0x" →
      (validatePackageId s = .ok () ↔ ∃ id, fromStr x s = .ok id)) ∧
    ∀ (s : String) (id : ObjectID), fromStr x s = .ok id → validatePackageId s = .ok () :=
  ⟨fromStr_display hx, fun _ _ => fromStr_eq_ok hx,
    fun _ h => validatePackageId_iff_fromStr hx h,
    fun _ _ h => validatePackageId_of_fromStr hx h⟩

end ObjectID

def nativeHex : HexApi where
  encode bs := String.ofList (Hex.encode bs)
  decode s :=
    match Hex.decode s.toList with
    | some bs => .ok bs
    | none => .error "Invalid character"

theorem nativeHex_followsDocs : nativeHex.FollowsDocs where
  encode_eq _ := rfl
  decode_eq_ok {s bs} := by
    simp only [nativeHex]
    cases Hex.decode s.toList <;> simp

/-- Without the prefix and in upper case, the id whose bytes are all 171 is read. -/
theorem ObjectID.fromStr_spec_example :
    ObjectID.fromStr nativeHex (String.ofList ((List.replicate 32 ['A', 'B']).flatten)) =
      .ok ⟨Vector.replicate 32 171⟩ := by
  refine ((ObjectID.fromStr_spec nativeHex_followsDocs).2.1 _ _).mpr
    ⟨_, .inl String.toList_ofList, ?_⟩
  decide

end PysuiCrypto
