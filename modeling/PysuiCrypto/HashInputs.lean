import PysuiCrypto.Core
import PysuiCrypto.ExponentPlatform
import PysuiCrypto.Framing

/-!
# Hash inputs

The byte strings that are hashed to derive keys can be taken apart again, although nothing
separates the encrypted shares from the server ids: as many shares as ids fix both numbers.
The two derivations start with different tags, so that neither input is an input of the other.
-/
namespace PysuiCrypto

open Outcome

variable {c : Platform}

theorem shares_flatMap_injective :
    Function.Injective (List.flatMap (Vector.toList : Key → List UInt8)) :=
  Framing.flatMap_injective (n := 32) (by omega) (by simp) fun _ _ => Vector.toList_inj.mp

theorem ids_flatMap_injective :
    Function.Injective (List.flatMap fun s : ObjectID => s.bytes.toList) :=
  Framing.flatMap_injective (n := 32) (by omega) (by simp) fun s t h => by
    cases s
    cases t
    exact congrArg ObjectID.mk (Vector.toList_inj.mp h)

theorem KeyPurpose.length_tag (purpose : KeyPurpose) : purpose.tag.length = 1 := by
  cases purpose <;> rfl

theorem KeyPurpose.tag_injective : Function.Injective KeyPurpose.tag := by
  intro purpose purpose' h
  cases purpose <;> cases purpose' <;> first | rfl | exact absurd h (by decide)

/-- For shares of one number, the hash input determines everything that it is made of. -/
theorem deriveKeyInput_inj {purpose purpose' : KeyPurpose} {b b' : Key} {shares shares' : List Key}
    {t t' : UInt8} {ids ids' : List ObjectID} (hlen : shares.length = shares'.length)
    (h : deriveKeyInput purpose b shares t ids = deriveKeyInput purpose' b' shares' t' ids') :
    purpose = purpose' ∧ b = b' ∧ t = t' ∧ shares = shares' ∧ ids = ids' := by
  simp only [deriveKeyInput, List.append_assoc] at h
  obtain ⟨hb, h⟩ := List.append_inj (List.append_cancel_left h) (by simp)
  obtain ⟨hp, h⟩ := List.append_inj h (by rw [KeyPurpose.length_tag, KeyPurpose.length_tag])
  obtain ⟨ht, h⟩ := List.append_inj h rfl
  obtain ⟨hshares, hids⟩ := List.append_inj h (by
    rw [Framing.length_flatMap (n := 32) (by simp), Framing.length_flatMap (n := 32) (by simp), hlen])
  exact ⟨KeyPurpose.tag_injective hp, Vector.toList_inj.mp hb, List.singleton_inj.mp ht,
    shares_flatMap_injective hshares, ids_flatMap_injective hids⟩

/-- With one id for each share, the length of the hash input determines the number. -/
theorem length_eq_of_deriveKeyInput_eq {purpose purpose' : KeyPurpose} {b b' : Key}
    {shares shares' : List Key} {t t' : UInt8} {ids ids' : List ObjectID}
    (hids : shares.length = ids.length) (hids' : shares'.length = ids'.length)
    (h : deriveKeyInput purpose b shares t ids = deriveKeyInput purpose' b' shares' t' ids') :
    shares.length = shares'.length := by
  have hlen := congrArg List.length h
  simp only [deriveKeyInput, List.length_append, Vector.length_toList, KeyPurpose.length_tag,
    Framing.length_flatMap (f := (Vector.toList : Key → List UInt8)) (n := 32) (by simp),
    Framing.length_flatMap (f := fun s : ObjectID => s.bytes.toList) (n := 32) (by simp)] at hlen
  simp only [List.length_cons, List.length_nil] at hlen
  omega

/-- Under injective encodings of group elements, the input of `kdf` determines its parts. -/
theorem Ibe.kdfInput_inj (hgt : Function.Injective c.gtToByteArray)
    (hg2 : Function.Injective c.g2ToByteArray) (hg1 : Function.Injective c.g1ToByteArray)
    {x x' : c.GT} {nonce nonce' : c.G2} {gid gid' : c.G1} {info info' : Info}
    (h : kdfInput c x nonce gid info = kdfInput c x' nonce' gid' info') :
    x = x' ∧ nonce = nonce' ∧ gid = gid' ∧ info = info' := by
  simp only [kdfInput, List.append_assoc] at h
  obtain ⟨hx, h⟩ := List.append_inj (List.append_cancel_left h) (by simp)
  obtain ⟨hnonce, h⟩ := List.append_inj h (by simp)
  obtain ⟨hgid, h⟩ := List.append_inj h (by simp)
  obtain ⟨hid, hindex⟩ := List.append_inj h (by simp)
  refine ⟨hgt (Vector.toList_inj.mp hx), hg2 (Vector.toList_inj.mp hnonce),
    hg1 (Vector.toList_inj.mp hgid), Prod.ext ?_ (List.singleton_inj.mp hindex)⟩
  exact congrArg ObjectID.mk (Vector.toList_inj.mp hid)

theorem deriveKeyInput_ne_kdfInput (purpose : KeyPurpose) (b : Key) (shares : List Key)
    (t : UInt8) (ids : List ObjectID) (x : c.GT) (nonce : c.G2) (gid : c.G1) (info : Info) :
    deriveKeyInput purpose b shares t ids ≠ Ibe.kdfInput c x nonce gid info := by
  intro h
  simp only [deriveKeyInput, Ibe.kdfInput, List.append_assoc] at h
  have htag : DST_DERIVE_KEY = DST_KDF := (List.append_inj h (by decide)).1
  exact absurd htag (by decide)

/-- With as many encrypted shares as key servers, the input that `deriveKey` hashes determines
all its arguments, for lists of every length; so does the input of `kdf`, when the encodings of
the group elements are injective; and no input of one is an input of the other. -/
theorem hash_inputs_unambiguous (hgt : Function.Injective c.gtToByteArray)
    (hg2 : Function.Injective c.g2ToByteArray) (hg1 : Function.Injective c.g1ToByteArray) :
    (∀ (purpose purpose' : KeyPurpose) (b b' : Key) (shares shares' : List Key) (t t' : UInt8)
        (ids ids' : List ObjectID), shares.length = ids.length → shares'.length = ids'.length →
      deriveKeyInput purpose b shares t ids = deriveKeyInput purpose' b' shares' t' ids' →
      purpose = purpose' ∧ b = b' ∧ t = t' ∧ shares = shares' ∧ ids = ids') ∧
    (∀ (x x' : c.GT) (nonce nonce' : c.G2) (gid gid' : c.G1) (info info' : Info),
      Ibe.kdfInput c x nonce gid info = Ibe.kdfInput c x' nonce' gid' info' →
      x = x' ∧ nonce = nonce' ∧ gid = gid' ∧ info = info') ∧
    ∀ (purpose : KeyPurpose) (b : Key) (shares : List Key) (t : UInt8) (ids : List ObjectID)
        (x : c.GT) (nonce : c.G2) (gid : c.G1) (info : Info),
      deriveKeyInput purpose b shares t ids ≠ Ibe.kdfInput c x nonce gid info := by
  refine ⟨?_, fun _ _ _ _ _ _ _ _ => Ibe.kdfInput_inj hgt hg2 hg1, deriveKeyInput_ne_kdfInput⟩
  intro purpose purpose' b b' shares shares' t t' ids ids' hids hids' h
  exact deriveKeyInput_inj (length_eq_of_deriveKeyInput_eq hids hids' h) h

/-- In the exponent, the masks of two share indices have different inputs. -/
theorem hash_inputs_unambiguous_example :
    Ibe.kdfInput (exponentPlatform true) (1 : ExponentPlatform.Residue)
        (1 : ExponentPlatform.Residue) (1 : ExponentPlatform.Residue)
        (⟨Vector.replicate 32 1⟩, 1) ≠
      Ibe.kdfInput (exponentPlatform true) (1 : ExponentPlatform.Residue)
        (1 : ExponentPlatform.Residue) (1 : ExponentPlatform.Residue)
        (⟨Vector.replicate 32 1⟩, 2) := by
  intro h
  obtain ⟨hgt, hg2, hg1⟩ := exponentPlatform_encodings true
  obtain ⟨-, -, -, hinfo⟩ := (hash_inputs_unambiguous hgt hg2 hg1).2.1 _ _ _ _ _ _ _ _ h
  exact absurd (congrArg Prod.snd hinfo) (by decide)

end PysuiCrypto
