import PysuiCrypto.ByteNumerals
import PysuiCrypto.Platform

/-!
# A platform in the exponent

Scalars and group elements are the residues modulo the order of the BLS12-381 groups, an
element stands for its discrete logarithm, and the pairing multiplies. Encodings are
big-endian and decoding accepts canonical ones only. This gives an instance of every
assumption on the primitives at once.
-/
namespace PysuiCrypto

open ByteNumerals

namespace ExponentPlatform

/-- The order of the BLS12-381 groups. -/
def order : ℕ := 52435875175126190479447740508185965837690552500527637822603658699938581184513

instance : NeZero order := ⟨by decide⟩

theorem order_le {n : ℕ} (h : 32 ≤ n) : order ≤ 256 ^ n :=
  le_trans (by norm_num [order]) (Nat.pow_le_pow_right (by omega) h)

attribute [irreducible] order

abbrev Residue := ZMod order

def toByteArray (n : ℕ) (x : Residue) : Vector UInt8 n :=
  ⟨(leBytes n x.val).reverse.toArray, by simp⟩

def fromByteArray {n : ℕ} (bytes : Vector UInt8 n) : Except FastCryptoError Residue :=
  let x : Residue := (leValue bytes.toList.reverse : ℕ)
  if toByteArray n x = bytes then .ok x else .error .invalidInput

theorem fromByteArray_toByteArray {n : ℕ} (h : order ≤ 256 ^ n) (x : Residue) :
    fromByteArray (toByteArray n x) = .ok x := by
  have hvalue : leValue (toByteArray n x).toList.reverse = x.val := by
    rw [toByteArray, Vector.toList_mk, List.reverse_reverse]
    exact leValue_leBytes_of_lt (x.val_lt.trans_le h)
  simp only [fromByteArray, hvalue, ZMod.natCast_zmod_val, if_true]

theorem toByteArray_injective {n : ℕ} (h : order ≤ 256 ^ n) :
    Function.Injective (toByteArray n) := by
  intro x y hxy
  have hx := fromByteArray_toByteArray h x
  rw [hxy, fromByteArray_toByteArray h y] at hx
  exact (Except.ok.inj hx).symm

theorem toByteArray_of_fromByteArray {n : ℕ} {bytes : Vector UInt8 n} {x : Residue}
    (h : fromByteArray bytes = .ok x) : toByteArray n x = bytes := by
  simp only [fromByteArray] at h
  split_ifs at h with hx
  rwa [← Except.ok.inj h]

/-- A keyed sum of the bytes, in place of a hash function. -/
def digest (seed : ℕ) (bytes : List UInt8) : Vector UInt8 32 :=
  toByteArray 32 ((seed + leValue bytes * (leValue bytes + 3) : ℕ) : Residue)

/-- Encryption prepends a tag over the key and all inputs. -/
def tag (key : Vector UInt8 32) (iv : Vector UInt8 16) (aad msg : List UInt8) : List UInt8 :=
  (digest (leValue key.toList) (iv.toList ++ aad ++ msg)).toList

def decryptTagged (key : Vector UInt8 32) (iv : Vector UInt8 16) (aad blob : List UInt8) :
    Except FastCryptoError (List UInt8) :=
  if blob.take 32 = tag key iv aad (blob.drop 32) then .ok (blob.drop 32)
  else .error .generalOpaqueError

end ExponentPlatform

open ExponentPlatform

/-- The platform, with or without debug assertions. -/
def exponentPlatform (debugAssertions : Bool) : Platform where
  Scalar := Residue
  G1 := Residue
  G2 := Residue
  GT := Residue
  g1Generator := 1
  g2Generator := 1
  pairing := LinearMap.mul Residue Residue
  hashToGroupElement bytes := (leValue bytes + 1 : ℕ)
  scalarRand rng := ((leValue (AllowedRng.fillBytes 32 rng).1.toList : ℕ),
    (AllowedRng.fillBytes 32 rng).2)
  scalarToByteArray := toByteArray 32
  scalarFromByteArray := fromByteArray
  g1ToByteArray := toByteArray 48
  g2ToByteArray := toByteArray 96
  g2FromByteArray := fromByteArray
  gtToByteArray := toByteArray 576
  sha3_256 := digest 0
  hmacSha3_256 key := digest (leValue key.toList)
  encryptAuthenticated key iv aad msg := tag key iv aad msg ++ msg
  decryptAuthenticated := decryptTagged
  debugAssertions := debugAssertions

variable (debug : Bool)

theorem exponentPlatform_scalarRoundTrip : (exponentPlatform debug).ScalarRoundTrip := by
  intro s
  exact fromByteArray_toByteArray (order_le (by omega)) s

theorem exponentPlatform_scalarCanonical : (exponentPlatform debug).ScalarCanonical := by
  intro bytes s h
  exact (toByteArray_of_fromByteArray h).symm

theorem exponentPlatform_nonceInjective : (exponentPlatform debug).NonceInjective := by
  intro r s h
  have hmul : (r : Residue) * 1 = (s : Residue) * 1 := h
  simpa using hmul

theorem exponentPlatform_aesRoundTrip : (exponentPlatform debug).AesRoundTrip := by
  intro key iv aad msg
  have hlen : (tag key iv aad msg).length = 32 := by simp [tag]
  change decryptTagged key iv aad (tag key iv aad msg ++ msg) = .ok msg
  rw [decryptTagged, List.take_left' hlen, List.drop_left' hlen, if_pos rfl]

/-- The encodings of the group elements are injective. -/
theorem exponentPlatform_encodings :
    Function.Injective (exponentPlatform debug).gtToByteArray ∧
      Function.Injective (exponentPlatform debug).g2ToByteArray ∧
      Function.Injective (exponentPlatform debug).g1ToByteArray :=
  ⟨toByteArray_injective (order_le (by omega)), toByteArray_injective (order_le (by omega)),
    toByteArray_injective (order_le (by omega))⟩

theorem exponentPlatform_pairing_injective :
    Function.Injective fun g : (exponentPlatform debug).G1 =>
      (exponentPlatform debug).pairing g (exponentPlatform debug).g2Generator :=
  fun (g h : Residue) (hgh : g * 1 = h * 1) => (mul_one g).symm.trans (hgh.trans (mul_one h))

theorem exponentPlatform_g2Codec : (exponentPlatform debug).G2Codec where
  decode_encode g := fromByteArray_toByteArray (order_le (by omega)) g
  encode_decode _ _ h := toByteArray_of_fromByteArray h

end PysuiCrypto
