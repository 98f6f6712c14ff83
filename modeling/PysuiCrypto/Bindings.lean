import PysuiCrypto.DecryptSafety
import PysuiCrypto.KeyVerification
import PysuiCrypto.ZkLogin

/-!
# The Python functions of the scheme

The functions that the module exports around encryption and decryption. Arguments and results
are byte strings; an argument that cannot be parsed is a `ValueError`, and an error of the
scheme or of a serialization is a `RuntimeError`.
-/
namespace PysuiCrypto

open Outcome BcsFormat

/-- What the bindings call of `fastcrypto` and the scheme does not: the decoding of `G1` and the
text of an error. -/
structure FastCryptoApi (c : Platform) where
  g1FromByteArray : Vector UInt8 48 → Except FastCryptoError c.G1
  errorToString : FastCryptoError → String

/-- The accepted 48-byte encodings and the elements of `G1` are in bijection. -/
structure FastCryptoApi.G1Codec {c : Platform} (api : FastCryptoApi c) : Prop where
  decode_encode : ∀ g, api.g1FromByteArray (c.g1ToByteArray g) = .ok g
  encode_decode : ∀ bytes g, api.g1FromByteArray bytes = .ok g → c.g1ToByteArray g = bytes

/-- The platform in the exponent, with the texts of the errors. -/
def exponentApi (debug : Bool) : FastCryptoApi (exponentPlatform debug) where
  g1FromByteArray := ExponentPlatform.fromByteArray
  errorToString
    | .invalidInput => "Invalid value was given to the function"
    | .generalError message => "General cryptographic error: " ++ message
    | .generalOpaqueError => "General cryptographic error"

theorem exponentApi_g1Codec (debug : Bool) : (exponentApi debug).G1Codec where
  decode_encode g :=
    ExponentPlatform.fromByteArray_toByteArray (ExponentPlatform.order_le (by omega)) g
  encode_decode _ _ h := ExponentPlatform.toByteArray_of_fromByteArray h

inductive DemType
  | aesGcm256
  | hmac256Ctr
  | plain
  deriving DecidableEq, Repr

variable {c : Platform} (api : FastCryptoApi c) (bcs : Bcs)

def g1Format : BcsFormat c.G1 :=
  via (bytes 48) c.g1ToByteArray fun v => (api.g1FromByteArray v).toOption

variable (c) in
def scalarFormat : BcsFormat c.Scalar :=
  via (bytes 32) c.scalarToByteArray fun v => (c.scalarFromByteArray v).toOption

variable (c) in
def secretKeyFormat : BcsFormat (Elgamal.SecretKey c.Scalar) :=
  via (scalarFormat c) Elgamal.SecretKey.scalar fun s => some ⟨s⟩

def publicKeyFormat : BcsFormat (Elgamal.PublicKey c.G1) :=
  via (g1Format api) Elgamal.PublicKey.element fun g => some ⟨g⟩

variable (c) in
def verificationKeyFormat : BcsFormat (Elgamal.VerificationKey c.G2) :=
  via (g2Format c) Elgamal.VerificationKey.element fun g => some ⟨g⟩

def encryptionFormat : BcsFormat (Elgamal.Encryption c.G1) :=
  via (pair (g1Format api) (g1Format api)) (fun e => (e.fst, e.snd)) fun x => some ⟨x.1, x.2⟩

namespace PyEncryptedObject

variable (self : PyEncryptedObject c)

def version : UInt8 := self.inner.version

def packageId : List UInt8 := self.inner.packageId.bytes.toList

def id : List UInt8 := self.inner.id

def threshold : UInt8 := self.inner.threshold

def services : List (List UInt8 × UInt8) :=
  self.inner.services.map fun (id, idx) => (id.bytes.toList, idx)

def demType : DemType :=
  match self.inner.ciphertext with
  | .aes256Gcm _ _ => .aesGcm256
  | .hmac256Ctr _ _ _ => .hmac256Ctr
  | .plain => .plain

end PyEncryptedObject

variable {api}

theorem g1Format_lawful (hg1 : api.G1Codec) : (g1Format api).Lawful :=
  decodeVia_lawful hg1.decode_encode hg1.encode_decode

theorem scalarFormat_lawful (hround : c.ScalarRoundTrip) (hcanon : c.ScalarCanonical) :
    (scalarFormat c).Lawful :=
  decodeVia_lawful hround fun v s h => (hcanon v s h).symm

theorem g1Format_spells :
    (g1Format api).Spells (fun _ => True) fun g => (c.g1ToByteArray g).toList :=
  via_spells (bytes_spells 48) _ _

theorem scalarFormat_spells :
    (scalarFormat c).Spells (fun _ => True) fun s => (c.scalarToByteArray s).toList :=
  via_spells (bytes_spells 32) _ _

variable (api)

namespace Bindings

def parseObjectId (bytes : List UInt8) : PyResult ObjectID :=
  if bytes.length ≠ 32 then
    fail (.valueError ("ObjectID must be exactly 32 bytes (got " ++ bytes.length.repr ++ ")"))
  else
    mapErr (fun e => .valueError ("invalid ObjectID: " ++ e)) (bcs.fromBytes objectIdFormat bytes)

def parseG1 (bytes : List UInt8) : PyResult c.G1 :=
  mapErr (fun e => .valueError ("invalid G1Element: " ++ e)) (bcs.fromBytes (g1Format api) bytes)

variable (c) in
def parseG2 (bytes : List UInt8) : PyResult c.G2 :=
  mapErr (fun e => .valueError ("invalid G2Element: " ++ e)) (bcs.fromBytes (g2Format c) bytes)

/-- The input of the scheme for a mode; the plain mode drops the data. -/
def encryptionInput (demType : DemType) (data : List UInt8) (aad : Option (List UInt8)) :
    EncryptionInput :=
  match demType with
  | .aesGcm256 => .aes256Gcm data aad
  | .hmac256Ctr => .hmac256Ctr data aad
  | .plain => .plain

def sealEncrypt {R : Type} [AllowedRng R] (rng : R) (packageId id : List UInt8)
    (keyServers publicKeys : List (List UInt8)) (threshold : UInt8) (data : List UInt8)
    (demType : DemType) (aad : Option (List UInt8)) :
    PyResult (List UInt8 × Option (List UInt8)) :=
  if keyServers.length > 255 then
    fail (.valueError
      ("key_servers length " ++ keyServers.length.repr ++ " exceeds maximum of 255"))
  else do
    let pkgId ← parseObjectId bcs packageId
    let servers ← keyServers.mapM (parseObjectId bcs)
    let pks ← publicKeys.mapM (parseG2 c bcs)
    let (eo, demKey) ← mapFail (fun e => .runtimeError (api.errorToString e))
      (PysuiCrypto.sealEncrypt c rng pkgId id servers pks threshold
        (encryptionInput demType data aad))
    let eoBytes ← mapErr .runtimeError (bcs.toBytes (encryptedObjectFormat c) eo)
    .ok (eoBytes, if demType = .plain then some demKey.toList else none)

/-- The map that `collect` builds: a later pair replaces an earlier one. -/
def collectMap (pairs : List (ObjectID × c.G1)) : IBEUserSecretKeys c :=
  pairs.foldl (fun m p => m.insert p.1 p.2) ∅

def parseUserSecretKey (p : List UInt8 × List UInt8) : PyResult (ObjectID × c.G1) := do
  let id ← parseObjectId bcs p.1
  let usk ← parseG1 api bcs p.2
  .ok (id, usk)

variable (c) in
def parsePublicKeys : Option (List (List UInt8)) → PyResult (Option (IBEPublicKeys c))
  | some pks => do
    let pks ← pks.mapM (parseG2 c bcs)
    .ok (some pks)
  | none => .ok none

def sealDecrypt (encryptedObject : List UInt8) (userSecretKeys : List (List UInt8 × List UInt8))
    (publicKeys : Option (List (List UInt8))) : PyResult (List UInt8) := do
  let eo ← mapErr .valueError (bcs.fromBytes (encryptedObjectFormat c) encryptedObject)
  let pairs ← userSecretKeys.mapM (parseUserSecretKey api bcs)
  let ibePks ← parsePublicKeys c bcs publicKeys
  mapFail (fun e => .runtimeError (api.errorToString e))
    (PysuiCrypto.sealDecrypt eo (collectMap pairs) ibePks)

/-- The entries of the dictionary that `generateElgamalKeypair` returns. -/
structure ElgamalKeypair where
  secretKey : List UInt8
  publicKey : List UInt8
  verificationKey : List UInt8

def generateElgamalKeypair {R : Type} [AllowedRng R] (rng : R) : PyResult ElgamalKeypair := do
  let (sk, pk, vk) : Elgamal.SecretKey c.Scalar × Elgamal.PublicKey c.G1 ×
    Elgamal.VerificationKey c.G2 := (Elgamal.genkey rng).1
  let skBytes ← mapErr .runtimeError (bcs.toBytes (secretKeyFormat c) sk)
  let pkBytes ← mapErr .runtimeError (bcs.toBytes (publicKeyFormat api) pk)
  let vkBytes ← mapErr .runtimeError (bcs.toBytes (verificationKeyFormat c) vk)
  .ok ⟨skBytes, pkBytes, vkBytes⟩

def elgamalDecrypt (sk encryption : List UInt8) : PyResult (List UInt8) := do
  let secretKey ← mapErr .valueError (bcs.fromBytes (secretKeyFormat c) sk)
  let enc ← mapErr .valueError (bcs.fromBytes (encryptionFormat api) encryption)
  mapErr .runtimeError (bcs.toBytes (g1Format api) (Elgamal.decrypt secretKey enc))

def verifyUserSecretKey (usk fullId publicKey : List UInt8) : PyResult Unit := do
  let uskG1 ← parseG1 api bcs usk
  let pkG2 ← parseG2 c bcs publicKey
  mapFail (fun e => .valueError ("User secret key verification failed: " ++ api.errorToString e))
    (Ibe.verifyUserSecretKey c uskG1 fullId pkG2)

section Exceptions

variable {α β γ : Type}

def RaisesValueError (x : PyResult α) : Prop := ∃ message, x = fail (.valueError message)

def RaisesRuntimeError (x : PyResult α) : Prop := ∃ message, x = fail (.runtimeError message)

@[simp] theorem mapErr_eq_ok {toErr : String → PyErr} {r : Except String α} {a : α} :
    mapErr toErr r = .ok a ↔ r = .ok a := by
  cases r <;> simp [mapErr, fail]

theorem mapErr_of_ne_ok (toErr : String → PyErr) {r : Except String α}
    (h : ∀ a, r ≠ .ok a) : ∃ e, mapErr toErr r = fail (toErr e) := by
  cases r with
  | ok a => exact absurd rfl (h a)
  | error e => exact ⟨e, rfl⟩

theorem RaisesValueError.bind {x : PyResult α} (h : RaisesValueError x) (f : α → PyResult β) :
    RaisesValueError (x >>= f) := by
  obtain ⟨message, rfl⟩ := h
  exact ⟨message, rfl⟩

theorem RaisesRuntimeError.bind {x : PyResult α} (h : RaisesRuntimeError x) (f : α → PyResult β) :
    RaisesRuntimeError (x >>= f) := by
  obtain ⟨message, rfl⟩ := h
  exact ⟨message, rfl⟩

theorem RaisesValueError.ne_ok {x : PyResult α} (h : RaisesValueError x) (a : α) : x ≠ .ok a := by
  obtain ⟨message, hx⟩ := h
  exact ne_ok_of_fail hx a

theorem RaisesRuntimeError.ne_ok {x : PyResult α} (h : RaisesRuntimeError x) (a : α) :
    x ≠ .ok a := by
  obtain ⟨message, hx⟩ := h
  exact ne_ok_of_fail hx a

theorem RaisesRuntimeError.not_valueError {x : PyResult α} (h : RaisesRuntimeError x) :
    ¬ RaisesValueError x := by
  rintro ⟨message, hx⟩
  obtain ⟨message', hx'⟩ := h
  rw [hx] at hx'
  simp [fail] at hx'

/-- A parser reads exactly the spellings of values, and answers anything else with a
`ValueError`. -/
structure Parses (parse : α → PyResult β) (spell : β → α) : Prop where
  ok_iff : ∀ {a b}, parse a = .ok b ↔ a = spell b
  otherwise : ∀ {a}, (∀ b, a ≠ spell b) → RaisesValueError (parse a)

theorem Parses.spell {parse : α → PyResult β} {spell : β → α} (h : Parses parse spell) (b : β) :
    parse (spell b) = .ok b := h.ok_iff.mpr rfl

theorem Parses.ok_or {parse : α → PyResult β} {spell : β → α} (h : Parses parse spell) (a : α) :
    (∃ b, a = spell b ∧ parse a = .ok b) ∨ (∀ b, a ≠ spell b) ∧ RaisesValueError (parse a) := by
  by_cases ha : ∃ b, a = spell b
  · obtain ⟨b, rfl⟩ := ha
    exact .inl ⟨b, rfl, h.spell b⟩
  · rw [not_exists] at ha
    exact .inr ⟨ha, h.otherwise ha⟩

theorem Parses.mapM {parse : α → PyResult β} {spell : β → α} (h : Parses parse spell) :
    Parses (List.mapM parse) (List.map spell) where
  ok_iff {xs ys} := by
    induction xs generalizing ys with
    | nil => cases ys <;> simp
    | cons x xs ih =>
      simp only [List.mapM_cons, bind_eq_ok, h.ok_iff, ih, pure_eq_ok, Except.ok.injEq]
      constructor
      · rintro ⟨y, rfl, ys, rfl, rfl⟩
        rfl
      · intro hxs
        cases ys with
        | nil => cases hxs
        | cons y ys =>
          obtain ⟨rfl, rfl⟩ := List.cons.inj hxs
          exact ⟨y, rfl, ys, rfl, rfl⟩
  otherwise {xs} hxs := by
    induction xs with
    | nil => exact absurd rfl (hxs [])
    | cons x xs ih =>
      rw [List.mapM_cons]
      rcases h.ok_or x with ⟨y, rfl, hy⟩ | ⟨-, herr⟩
      · rw [hy, ok_bind]
        refine (ih fun ys hys => hxs (y :: ys) ?_).bind _
        rw [hys, List.map_cons]
      · exact herr.bind _

/-- Two parsers one after the other. -/
theorem Parses.pair {α' β' : Type} {parse : α → PyResult β} {spell : β → α}
    {parse' : α' → PyResult β'} {spell' : β' → α'} (h : Parses parse spell)
    (h' : Parses parse' spell') :
    Parses (fun x : α × α' => do
      let y ← parse x.1
      let y' ← parse' x.2
      .ok (y, y')) (Prod.map spell spell') where
  ok_iff {x y} := by
    obtain ⟨a, a'⟩ := x
    obtain ⟨b, b'⟩ := y
    simp only [bind_eq_ok, h.ok_iff, h'.ok_iff, Except.ok.injEq, Prod.map, Prod.mk.injEq]
    constructor
    · rintro ⟨_, rfl, _, rfl, rfl, rfl⟩
      exact ⟨rfl, rfl⟩
    · rintro ⟨rfl, rfl⟩
      exact ⟨b, rfl, b', rfl, rfl, rfl⟩
  otherwise {x} hx := by
    rcases h.ok_or x.1 with ⟨b, hb, hok⟩ | ⟨-, herr⟩
    · simp only [hok, ok_bind]
      exact (h'.otherwise fun b' hb' => hx (b, b') (Prod.ext hb hb')).bind _
    · exact herr.bind _

end Exceptions

variable {api bcs} (hbcs : bcs.FollowsSpec)
include hbcs

/-- Reading all of a byte string inverts a lawful format. -/
theorem fromBytes_iff {α : Type} {F : BcsFormat α} (hF : F.Lawful) {P : α → Prop}
    {f : α → List UInt8} (hs : F.Spells P f) {bytes : List UInt8} {a : α} :
    bcs.fromBytes F bytes = .ok a ↔ P a ∧ bytes = f a := by
  rw [hbcs.fromBytes_ok, ← hs, hF.encode_eq_some_iff]

/-- An argument in a format that encodes every value. -/
theorem parses_fromBytes {α : Type} {F : BcsFormat α} (hF : F.Lawful) {f : α → List UInt8}
    (hs : F.Spells (fun _ => True) f) (context : String) :
    Parses (fun bytes => mapErr (fun e => .valueError (context ++ e)) (bcs.fromBytes F bytes))
      f where
  ok_iff := by simp [fromBytes_iff hbcs hF hs]
  otherwise {bytes} h := by
    obtain ⟨e, he⟩ := mapErr_of_ne_ok (fun e => .valueError (context ++ e))
      fun a ha => h a ((fromBytes_iff hbcs hF hs).mp ha).2
    exact ⟨_, he⟩

theorem parses_objectId : Parses (parseObjectId bcs) fun id => id.bytes.toList where
  ok_iff {bytes id} := by
    have h := parses_fromBytes hbcs objectIdFormat_lawful objectIdFormat_spells "invalid ObjectID: "
    rw [parseObjectId]
    split_ifs with hlen
    · refine iff_of_false (ne_ok_of_fail rfl id) ?_
      rintro rfl
      exact hlen Vector.length_toList
    · exact h.ok_iff
  otherwise {bytes} hne := by
    rw [parseObjectId]
    split_ifs
    · exact ⟨_, rfl⟩
    · exact (parses_fromBytes hbcs objectIdFormat_lawful objectIdFormat_spells
        "invalid ObjectID: ").otherwise hne

theorem parses_g1 (hg1 : api.G1Codec) :
    Parses (parseG1 api bcs) fun g => (c.g1ToByteArray g).toList :=
  parses_fromBytes hbcs (g1Format_lawful hg1) g1Format_spells "invalid G1Element: "

theorem parses_g2 (hg2 : c.G2Codec) :
    Parses (parseG2 c bcs) fun g => (c.g2ToByteArray g).toList :=
  parses_fromBytes hbcs (g2Format_lawful hg2) g2Format_spells "invalid G2Element: "

theorem parses_userSecretKey (hg1 : api.G1Codec) : Parses (parseUserSecretKey api bcs)
    (Prod.map (fun id : ObjectID => id.bytes.toList) fun g => (c.g1ToByteArray g).toList) :=
  (parses_objectId hbcs).pair (parses_g1 hbcs hg1)

theorem parses_publicKeys (hg2 : c.G2Codec) : Parses (parsePublicKeys c bcs)
    (Option.map (List.map fun g => (c.g2ToByteArray g).toList)) where
  ok_iff {a b} := by
    cases a with
    | none => cases b <;> simp [parsePublicKeys]
    | some pks =>
      simp only [parsePublicKeys, bind_eq_ok, (parses_g2 hbcs hg2).mapM.ok_iff, Except.ok.injEq]
      cases b <;> simp [eq_comm]
  otherwise {a} h := by
    cases a with
    | none => exact absurd rfl (h none)
    | some pks =>
      refine ((parses_g2 hbcs hg2).mapM.otherwise fun gs hgs => h (some gs) ?_).bind _
      rw [hgs, Option.map_some]

end Bindings

end PysuiCrypto
