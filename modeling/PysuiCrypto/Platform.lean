import PysuiCrypto.Outcome

/-!
# What the modelled code takes from outside the repository

The error values of `fastcrypto`, the random generator, and one structure for the
primitives that the code calls: the BLS12-381 scalars and groups, the hash functions and
the ciphers. Nothing is assumed of a primitive beyond its type; the groups are modules over
the scalars and the pairing is a bilinear map, and every other law is a hypothesis of the
theorem that needs it.
-/
namespace PysuiCrypto

inductive FastCryptoError
  | invalidInput
  | generalError (message : String)
  | generalOpaqueError
  deriving DecidableEq, Repr

abbrev FastCryptoResult (α : Type) := Outcome FastCryptoError α

/-- A result of code outside the repository, which returns an error but does not panic. -/
def external {α : Type} : Except FastCryptoError α → FastCryptoResult α
  | .ok x => .ok x
  | .error e => Outcome.fail e

@[simp] theorem external_ok {α : Type} (x : α) : external (.ok x) = .ok x := rfl

@[simp] theorem external_eq_ok {α : Type} {r : Except FastCryptoError α} {x : α} :
    external r = .ok x ↔ r = .ok x := by
  cases r <;> simp [external, Outcome.fail]

theorem returns_external {α : Type} (r : Except FastCryptoError α) :
    Outcome.Returns (external r) := by
  cases r with
  | ok x => exact Outcome.returns_ok x
  | error e => exact Outcome.returns_fail e

class AllowedRng (R : Type) where
  gen : R → UInt8 × R
  fillBytes : (n : ℕ) → R → Vector UInt8 n × R

/-- A generator that reads a tape of bytes, and zeros after its end. -/
instance : AllowedRng (List UInt8) where
  gen tape := (tape.headD 0, tape.tail)
  fillBytes n tape := (Vector.ofFn fun i : Fin n => tape.getD i 0, tape.drop n)

/-- The primitives of `fastcrypto`, and whether the build runs debug assertions.
Group elements are written additively, as `fastcrypto` does; `G * s` is `s • G`. -/
structure Platform where
  Scalar : Type
  G1 : Type
  G2 : Type
  GT : Type
  [scalarRing : CommRing Scalar]
  [g1Group : AddCommGroup G1]
  [g2Group : AddCommGroup G2]
  [gtGroup : AddCommGroup GT]
  [g1Module : Module Scalar G1]
  [g2Module : Module Scalar G2]
  [gtModule : Module Scalar GT]
  [g1DecidableEq : DecidableEq G1]
  [g2DecidableEq : DecidableEq G2]
  [gtDecidableEq : DecidableEq GT]
  g1Generator : G1
  g2Generator : G2
  pairing : G1 →ₗ[Scalar] G2 →ₗ[Scalar] GT
  hashToGroupElement : List UInt8 → G1
  scalarRand : {R : Type} → [AllowedRng R] → R → Scalar × R
  scalarToByteArray : Scalar → Vector UInt8 32
  scalarFromByteArray : Vector UInt8 32 → Except FastCryptoError Scalar
  g1ToByteArray : G1 → Vector UInt8 48
  g2ToByteArray : G2 → Vector UInt8 96
  g2FromByteArray : Vector UInt8 96 → Except FastCryptoError G2
  gtToByteArray : GT → Vector UInt8 576
  sha3_256 : List UInt8 → Vector UInt8 32
  hmacSha3_256 : Vector UInt8 32 → List UInt8 → Vector UInt8 32
  encryptAuthenticated :
    Vector UInt8 32 → Vector UInt8 16 → List UInt8 → List UInt8 → List UInt8
  decryptAuthenticated :
    Vector UInt8 32 → Vector UInt8 16 → List UInt8 → List UInt8 →
      Except FastCryptoError (List UInt8)
  debugAssertions : Bool

attribute [instance] Platform.scalarRing Platform.g1Group Platform.g2Group Platform.gtGroup
  Platform.g1Module Platform.g2Module Platform.gtModule Platform.g1DecidableEq
  Platform.g2DecidableEq Platform.gtDecidableEq

namespace Platform

variable (c : Platform)

def ScalarRoundTrip : Prop :=
  ∀ s, c.scalarFromByteArray (c.scalarToByteArray s) = .ok s

/-- `Scalar::from_byte_array` accepts only the encoding of its result. -/
def ScalarCanonical : Prop :=
  ∀ bytes s, c.scalarFromByteArray bytes = .ok s → bytes = c.scalarToByteArray s

/-- The generator of `G2` has no two equal multiples by different scalars. -/
def NonceInjective : Prop :=
  Function.Injective fun r : c.Scalar => r • c.g2Generator

def AesRoundTrip : Prop :=
  ∀ key iv aad msg,
    c.decryptAuthenticated key iv aad (c.encryptAuthenticated key iv aad msg) = .ok msg

/-- The accepted 96-byte encodings and the elements of `G2` are in bijection. -/
structure G2Codec : Prop where
  decode_encode : ∀ g, c.g2FromByteArray (c.g2ToByteArray g) = .ok g
  encode_decode : ∀ bytes g, c.g2FromByteArray bytes = .ok g → c.g2ToByteArray g = bytes

end Platform

end PysuiCrypto
