import PysuiCrypto.BcsFormat
import PysuiCrypto.Core
import PysuiCrypto.ExponentPlatform

/-!
# The wire format of encrypted objects

The serialization that the `bcs` crate derives for an encrypted object, and the two methods of
the Python class that use it. The crate is a parameter that follows the BCS specification; its
error texts are its own.
-/
namespace PysuiCrypto

open Outcome BcsFormat

/-- The `bcs` crate: a format stands for the derived serialization of a type. -/
structure Bcs where
  toBytes : {α : Type} → BcsFormat α → α → Except String (List UInt8)
  fromBytes : {α : Type} → BcsFormat α → List UInt8 → Except String α

/-- Values are written as their formats say, and all bytes must be read. -/
structure Bcs.FollowsSpec (bcs : Bcs) : Prop where
  toBytes_ok : ∀ {α : Type} (F : BcsFormat α) (a : α) (bs : List UInt8),
    bcs.toBytes F a = .ok bs ↔ F.encode a = some bs
  fromBytes_ok : ∀ {α : Type} (F : BcsFormat α) (a : α) (bs : List UInt8),
    bcs.fromBytes F bs = .ok a ↔ F.decode bs = some (a, [])

/-- The exceptions that the bindings raise. -/
inductive PyErr
  | valueError (message : String)
  | runtimeError (message : String)
  deriving DecidableEq, Repr

abbrev PyResult (α : Type) := Outcome PyErr α

variable (c : Platform)

def objectIdFormat : BcsFormat ObjectID := via (bytes 32) ObjectID.bytes fun v => some ⟨v⟩

def g2Format : BcsFormat c.G2 :=
  via (bytes 96) c.g2ToByteArray fun v => (c.g2FromByteArray v).toOption

/-- `Vec<u8>`. -/
def byteVecFormat : BcsFormat (List UInt8) := seq u8

/-- The fields of the one variant of `IBEEncryptions`. -/
def ibeFieldsFormat (_ : Fin 1) : BcsFormat (c.G2 × List Key × Key) :=
  pair (g2Format c) (pair (seq (bytes 32)) (bytes 32))

def ibeEncryptionsFormat : BcsFormat (IBEEncryptions c) :=
  via (enum (ibeFieldsFormat c))
    (fun e => ⟨0, e.nonce, e.encryptedShares, e.encryptedRandomness⟩)
    fun x => some ⟨x.2.1, x.2.2.1, x.2.2.2⟩

/-- The fields of the variants of `Ciphertext`. -/
def CiphertextFields : Fin 3 → Type
  | 0 => List UInt8 × Option (List UInt8)
  | 1 => List UInt8 × Option (List UInt8) × Key
  | 2 => Unit

def ciphertextFieldsFormat : (i : Fin 3) → BcsFormat (CiphertextFields i)
  | 0 => pair byteVecFormat (option byteVecFormat)
  | 1 => pair byteVecFormat (pair (option byteVecFormat) (bytes 32))
  | 2 => unit

def ciphertextFormat : BcsFormat Ciphertext :=
  via (enum ciphertextFieldsFormat)
    (fun
      | .aes256Gcm blob aad => ⟨0, blob, aad⟩
      | .hmac256Ctr blob aad mac => ⟨1, blob, aad, mac⟩
      | .plain => ⟨2, ()⟩)
    fun
      | ⟨0, blob, aad⟩ => some (.aes256Gcm blob aad)
      | ⟨1, blob, aad, mac⟩ => some (.hmac256Ctr blob aad mac)
      | ⟨2, _⟩ => some .plain

def encryptedObjectFormat : BcsFormat (EncryptedObject c) :=
  via (pair u8 (pair objectIdFormat (pair byteVecFormat (pair (seq (pair objectIdFormat u8))
      (pair u8 (pair (ibeEncryptionsFormat c) ciphertextFormat))))))
    (fun o => (o.version, o.packageId, o.id, o.services, o.threshold, o.encryptedShares,
      o.ciphertext))
    fun (version, packageId, id, services, threshold, encryptedShares, ciphertext) =>
      some ⟨version, packageId, id, services, threshold, encryptedShares, ciphertext⟩

/-- `PyEncryptedObject`: the Python class around an encrypted object. -/
structure PyEncryptedObject where
  inner : EncryptedObject c

namespace PyEncryptedObject

variable {c} (bcs : Bcs)

def parse (data : List UInt8) : PyResult (PyEncryptedObject c) :=
  match bcs.fromBytes (encryptedObjectFormat c) data with
  | .ok inner => .ok ⟨inner⟩
  | .error e => fail (.valueError e)

def toBytes (self : PyEncryptedObject c) : PyResult (List UInt8) :=
  match bcs.toBytes (encryptedObjectFormat c) self.inner with
  | .ok bytes => .ok bytes
  | .error e => fail (.valueError e)

end PyEncryptedObject

variable {c}

theorem ciphertextFieldsFormat_lawful (i : Fin 3) : (ciphertextFieldsFormat i).Lawful := by
  match i with
  | 0 => exact pair_lawful (seq_lawful u8_lawful) (option_lawful (seq_lawful u8_lawful))
  | 1 =>
    exact pair_lawful (seq_lawful u8_lawful)
      (pair_lawful (option_lawful (seq_lawful u8_lawful)) (bytes_lawful 32))
  | 2 => exact unit_lawful

theorem ciphertextFormat_lawful : ciphertextFormat.Lawful := by
  apply via_lawful (enum_lawful ciphertextFieldsFormat_lawful)
  · rintro (_ | _ | _) <;> rfl
  · rintro ⟨i, x⟩ a h
    match i, x with
    | 0, x =>
      obtain rfl := Option.some.inj h
      rfl
    | 1, x =>
      obtain rfl := Option.some.inj h
      rfl
    | 2, x =>
      obtain rfl := Option.some.inj h
      rfl

theorem objectIdFormat_lawful : objectIdFormat.Lawful :=
  via_lawful (bytes_lawful 32) (fun _ => rfl) fun _ _ h => by
    obtain rfl := Option.some.inj h
    rfl

theorem g2Format_lawful (hc : c.G2Codec) : (g2Format c).Lawful :=
  decodeVia_lawful hc.decode_encode hc.encode_decode

theorem ibeEncryptionsFormat_lawful (hc : c.G2Codec) : (ibeEncryptionsFormat c).Lawful := by
  apply via_lawful (enum_lawful fun _ => pair_lawful (g2Format_lawful hc)
    (pair_lawful (seq_lawful (bytes_lawful 32)) (bytes_lawful 32)))
  · intro e
    rfl
  · rintro ⟨i, nonce, shares, randomness⟩ e h
    obtain rfl := Option.some.inj h
    rw [Fin.fin_one_eq_zero i]

theorem encryptedObjectFormat_lawful (hc : c.G2Codec) : (encryptedObjectFormat c).Lawful := by
  apply via_lawful (pair_lawful u8_lawful (pair_lawful objectIdFormat_lawful
    (pair_lawful (seq_lawful u8_lawful) (pair_lawful
      (seq_lawful (pair_lawful objectIdFormat_lawful u8_lawful)) (pair_lawful u8_lawful
        (pair_lawful (ibeEncryptionsFormat_lawful hc) ciphertextFormat_lawful))))))
  · intro o
    rfl
  · rintro ⟨version, packageId, id, services, threshold, encryptedShares, ciphertext⟩ o h
    obtain rfl := Option.some.inj h
    rfl

/-- A byte string after its length. -/
def lengthPrefixed (bs : List UInt8) : List UInt8 := ulebBytes 5 bs.length ++ bs

def optionalBytes (bs : Option (List UInt8)) : List UInt8 :=
  bs.elim [0] fun bs => 1 :: lengthPrefixed bs

def Ciphertext.wire : Ciphertext → List UInt8
  | .aes256Gcm blob aad => 0 :: lengthPrefixed blob ++ optionalBytes aad
  | .hmac256Ctr blob aad mac => 1 :: lengthPrefixed blob ++ optionalBytes aad ++ mac.toList
  | .plain => [2]

/-- The lengths of the sequences are within the limit of the format. -/
def Ciphertext.WithinLimits : Ciphertext → Prop
  | .aes256Gcm blob aad | .hmac256Ctr blob aad _ =>
    blob.length ≤ maxSequenceLength ∧ ∀ bs, aad = some bs → bs.length ≤ maxSequenceLength
  | .plain => True

namespace EncryptedObject

/-- Version byte, package id, id, services, threshold, variant zero with the nonce, the
encrypted shares and the encrypted randomness, and the ciphertext. -/
def wire (o : EncryptedObject c) : List UInt8 :=
  [o.version] ++ o.packageId.bytes.toList ++ lengthPrefixed o.id ++
    (ulebBytes 5 o.services.length ++ o.services.flatMap fun s => s.1.bytes.toList ++ [s.2]) ++
    [o.threshold] ++ [0] ++ (c.g2ToByteArray o.encryptedShares.nonce).toList ++
    (ulebBytes 5 o.encryptedShares.encryptedShares.length ++
      o.encryptedShares.encryptedShares.flatMap Vector.toList) ++
    o.encryptedShares.encryptedRandomness.toList ++ o.ciphertext.wire

structure WithinLimits (o : EncryptedObject c) : Prop where
  id : o.id.length ≤ maxSequenceLength
  services : o.services.length ≤ maxSequenceLength
  encryptedShares : o.encryptedShares.encryptedShares.length ≤ maxSequenceLength
  ciphertext : o.ciphertext.WithinLimits

end EncryptedObject

theorem byteVecFormat_spells :
    byteVecFormat.Spells (fun bs => bs.length ≤ maxSequenceLength) lengthPrefixed :=
  (seq_spells u8_spells).congr (fun bs => by simp) fun bs => by
    rw [lengthPrefixed, List.flatMap_singleton']

theorem optionalBytes_spells : (option byteVecFormat).Spells
    (fun x => ∀ bs, x = some bs → bs.length ≤ maxSequenceLength) optionalBytes :=
  option_spells byteVecFormat_spells

theorem ciphertextFormat_spells :
    ciphertextFormat.Spells Ciphertext.WithinLimits Ciphertext.wire := by
  intro ct bs
  have h3 : 3 ≤ 2 ^ 32 := by omega
  cases ct with
  | aes256Gcm blob aad =>
    refine (enum_encode_iff (F := ciphertextFieldsFormat) (i := 0) h3
      (pair_spells byteVecFormat_spells optionalBytes_spells) (blob, aad) bs).trans ?_
    rfl
  | hmac256Ctr blob aad mac =>
    refine (enum_encode_iff (F := ciphertextFieldsFormat) (i := 1) h3
      (pair_spells byteVecFormat_spells (pair_spells optionalBytes_spells (bytes_spells 32)))
      (blob, aad, mac) bs).trans ?_
    simp [Ciphertext.WithinLimits, Ciphertext.wire, ulebBytes]
  | plain =>
    refine (enum_encode_iff (F := ciphertextFieldsFormat) (i := 2) h3 unit_spells () bs).trans ?_
    simp [Ciphertext.WithinLimits, Ciphertext.wire, ulebBytes]

theorem objectIdFormat_spells :
    objectIdFormat.Spells (fun _ => True) fun s => s.bytes.toList :=
  via_spells (bytes_spells 32) ObjectID.bytes _

theorem g2Format_spells :
    (g2Format c).Spells (fun _ => True) fun g => (c.g2ToByteArray g).toList :=
  via_spells (bytes_spells 96) c.g2ToByteArray _

theorem ibeEncryptionsFormat_spells : (ibeEncryptionsFormat c).Spells
    (fun e => e.encryptedShares.length ≤ maxSequenceLength)
    fun e => [0] ++ (c.g2ToByteArray e.nonce).toList ++ (ulebBytes 5 e.encryptedShares.length ++
      e.encryptedShares.flatMap Vector.toList) ++ e.encryptedRandomness.toList := by
  intro e bs
  refine (enum_encode_iff (F := ibeFieldsFormat c) (i := 0) (show 1 ≤ 2 ^ 32 by omega)
    (pair_spells g2Format_spells (pair_spells (seq_spells (bytes_spells 32)) (bytes_spells 32))) _
    bs).trans ?_
  simp [ulebBytes]

theorem encryptedObjectFormat_spells :
    (encryptedObjectFormat c).Spells EncryptedObject.WithinLimits EncryptedObject.wire := by
  refine (via_spells (pair_spells u8_spells (pair_spells objectIdFormat_spells
    (pair_spells byteVecFormat_spells (pair_spells
      (seq_spells (pair_spells objectIdFormat_spells u8_spells)) (pair_spells u8_spells
        (pair_spells ibeEncryptionsFormat_spells ciphertextFormat_spells)))))) _ _).congr ?_ ?_
  · intro o
    constructor
    · rintro ⟨-, -, hid, ⟨hservices, -⟩, -, hshares, hct⟩
      exact ⟨hid, hservices, hshares, hct⟩
    · rintro ⟨hid, hservices, hshares, hct⟩
      exact ⟨trivial, trivial, hid, ⟨hservices, fun _ _ => ⟨trivial, trivial⟩⟩, trivial, hshares,
        hct⟩
  · intro o
    simp [EncryptedObject.wire]

/-- An object whose sequences are within the limit is written as its layout and read back, and
a byte string that is read is the layout of what was read: there is one encoding, and nothing
else is accepted. -/
theorem wire_format {bcs : Bcs} (hbcs : bcs.FollowsSpec) (hc : c.G2Codec) :
    (∀ o : EncryptedObject c, o.WithinLimits →
      PyEncryptedObject.toBytes bcs ⟨o⟩ = .ok o.wire ∧
        PyEncryptedObject.parse bcs o.wire = .ok ⟨o⟩) ∧
    ∀ (data : List UInt8) (o : EncryptedObject c), PyEncryptedObject.parse bcs data = .ok ⟨o⟩ →
      PyEncryptedObject.toBytes bcs ⟨o⟩ = .ok data ∧ o.WithinLimits ∧ data = o.wire := by
  have hF := encryptedObjectFormat_lawful hc
  constructor
  · intro o ho
    have henc := (encryptedObjectFormat_spells o o.wire).mpr ⟨ho, rfl⟩
    have hdec := hF.decode_encode [] henc
    rw [List.append_nil] at hdec
    simp [PyEncryptedObject.toBytes, PyEncryptedObject.parse, (hbcs.toBytes_ok _ _ _).mpr henc,
      (hbcs.fromBytes_ok _ _ _).mpr hdec]
  · intro data o h
    have hparse : bcs.fromBytes (encryptedObjectFormat c) data = .ok o := by
      rw [PyEncryptedObject.parse] at h
      split at h
      · next inner hinner => rw [hinner, ← PyEncryptedObject.mk.inj (Except.ok.inj h)]
      · cases h
    obtain ⟨pre, henc, rfl⟩ := hF.encode_decode ((hbcs.fromBytes_ok _ _ _).mp hparse)
    rw [List.append_nil]
    refine ⟨?_, (encryptedObjectFormat_spells o pre).mp henc⟩
    simp [PyEncryptedObject.toBytes, (hbcs.toBytes_ok _ _ _).mpr henc]

/-- The specification itself, as an implementation. -/
def specBcs : Bcs where
  toBytes F a :=
    match F.encode a with
    | some bs => .ok bs
    | none => .error "exceeded max sequence length"
  fromBytes F bs :=
    match F.decode bs with
    | some (a, []) => .ok a
    | some (_, _ :: _) => .error "remaining input"
    | none => .error "unexpected end of input"

theorem specBcs_followsSpec : specBcs.FollowsSpec where
  toBytes_ok F a bs := by
    simp only [specBcs]
    cases F.encode a <;> simp
  fromBytes_ok F a bs := by
    simp only [specBcs]
    rcases F.decode bs with _ | ⟨a, _ | ⟨b, rest⟩⟩ <;> simp

/-- An object with two services and an authenticated ciphertext. -/
def wireExample : EncryptedObject (exponentPlatform true) where
  version := 0
  packageId := ⟨Vector.replicate 32 0⟩
  id := [1, 2, 3, 4]
  services := [(⟨Vector.replicate 32 1⟩, 1), (⟨Vector.replicate 32 2⟩, 2)]
  threshold := 2
  encryptedShares := ⟨(exponentPlatform true).g2Generator,
    [Vector.replicate 32 7, Vector.replicate 32 8], Vector.replicate 32 9⟩
  ciphertext := .hmac256Ctr [72, 105] (some [7]) (Vector.replicate 32 10)

theorem wire_format_example :
    PyEncryptedObject.toBytes specBcs ⟨wireExample⟩ = .ok wireExample.wire ∧
      PyEncryptedObject.parse specBcs wireExample.wire = .ok ⟨wireExample⟩ :=
  (wire_format specBcs_followsSpec (exponentPlatform_g2Codec true)).1 wireExample
    ⟨by decide, by decide, by decide, ⟨by decide, by simp [maxSequenceLength]⟩⟩

end PysuiCrypto
