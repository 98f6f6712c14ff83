import PysuiCrypto.Platform

/-!
# ElGamal encryption of group elements

The functions of the source, over any group with a generator whose scalars can be drawn.
Decryption subtracts the multiple of the first component that the public key masks with.
-/
namespace PysuiCrypto.Elgamal

/-- `GroupElement::ScalarType`: scalars that can be drawn at random. -/
class ScalarType (S : Type) where
  rand : {R : Type} → [AllowedRng R] → R → S × R

/-- `GroupElement`: a group over its scalars, with a generator. -/
class GroupElement (S G : Type) [CommRing S] [AddCommGroup G] [Module S G] where
  generator : G

structure SecretKey (S : Type) where
  scalar : S

structure PublicKey (G : Type) where
  element : G

structure VerificationKey (G : Type) where
  element : G

structure Encryption (G : Type) where
  fst : G
  snd : G
  deriving DecidableEq

variable {S G VG R : Type} [CommRing S] [AddCommGroup G] [Module S G] [AddCommGroup VG]
  [Module S VG] [ScalarType S] [GroupElement S G] [GroupElement S VG] [AllowedRng R]

def genkey (rng : R) : (SecretKey S × PublicKey G × VerificationKey VG) × R :=
  let (sk, rng) := ScalarType.rand (S := S) rng
  ((⟨sk⟩, ⟨sk • GroupElement.generator S⟩, ⟨sk • GroupElement.generator S⟩), rng)

variable (S) in
def encrypt (rng : R) (msg : G) (pk : PublicKey G) : Encryption G × R :=
  let (r, rng) := ScalarType.rand (S := S) rng
  (⟨r • GroupElement.generator S, r • pk.element + msg⟩, rng)

def decrypt (sk : SecretKey S) (e : Encryption G) : G := e.snd - sk.scalar • e.fst

structure KeyPair (sk : SecretKey S) (pk : PublicKey G) (vk : VerificationKey VG) : Prop where
  publicKey : pk.element = sk.scalar • GroupElement.generator S
  verificationKey : vk.element = sk.scalar • GroupElement.generator S

theorem genkey_keyPair {rng rng' : R} {sk : SecretKey S} {pk : PublicKey G}
    {vk : VerificationKey VG} (h : genkey rng = ((sk, pk, vk), rng')) : KeyPair sk pk vk := by
  obtain ⟨hkeys, -⟩ := Prod.mk.inj h
  obtain ⟨rfl, hpublic⟩ := Prod.mk.inj hkeys
  obtain ⟨rfl, rfl⟩ := Prod.mk.inj hpublic
  exact ⟨rfl, rfl⟩

theorem decrypt_encrypt {sk : SecretKey S} {pk : PublicKey G} {vk : VerificationKey VG}
    (h : KeyPair sk pk vk) (rng : R) (msg : G) : decrypt sk (encrypt S rng msg pk).1 = msg := by
  simp only [decrypt, encrypt, h.publicKey]
  rw [smul_comm, add_sub_cancel_left]

end PysuiCrypto.Elgamal
