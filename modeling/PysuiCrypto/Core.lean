import PysuiCrypto.Dem
import PysuiCrypto.TssSplit

/-!
# Encrypted objects, encryption and decryption

The top level of the scheme. Decryption is split where the source changes subject: the shares
that the supplied keys decrypt, the base key that they combine to, and the message under the
key derived from it.
-/
namespace PysuiCrypto

open Outcome

/-- The one variant of the source's enum. -/
structure IBEEncryptions (c : Platform) where
  bonehFranklinBLS12381 ::
  nonce : c.G2
  encryptedShares : List Key
  encryptedRandomness : Key
  deriving DecidableEq

structure EncryptedObject (c : Platform) where
  version : UInt8
  packageId : ObjectID
  id : List UInt8
  services : List Info
  threshold : UInt8
  encryptedShares : IBEEncryptions c
  ciphertext : Ciphertext
  deriving DecidableEq

abbrev IBEPublicKeys (c : Platform) := List c.G2

/-- A finite map from key server ids to user secret keys. -/
abbrev IBEUserSecretKeys (c : Platform) := AList fun _ : ObjectID => c.G1

def createFullId (packageId : Vector UInt8 32) (id : List UInt8) : List UInt8 :=
  packageId.toList ++ id

inductive KeyPurpose
  | encryptedRandomness
  | dem
  deriving DecidableEq

def KeyPurpose.tag : KeyPurpose → List UInt8
  | .encryptedRandomness => [0]
  | .dem => [1]

variable (c : Platform)

/-- The byte string that `deriveKey` hashes: nothing separates the shares from the ids. -/
def deriveKeyInput (purpose : KeyPurpose) (baseKey : Key) (encryptedShares : List Key)
    (threshold : UInt8) (keyServers : List ObjectID) : List UInt8 :=
  DST_DERIVE_KEY ++ baseKey.toList ++ purpose.tag ++ [threshold] ++
    encryptedShares.flatMap Vector.toList ++ keyServers.flatMap fun s => s.bytes.toList

def deriveKey (purpose : KeyPurpose) (baseKey : Key) (encryptedShares : List Key)
    (threshold : UInt8) (keyServers : List ObjectID) : FastCryptoResult Key :=
  if c.debugAssertions ∧ encryptedShares.length ≠ keyServers.length then
    abort "assertion `left == right` failed"
  else .ok (c.sha3_256 (deriveKeyInput purpose baseKey encryptedShares threshold keyServers))

/-- The part of `sealEncrypt` after the last random draw. -/
def sealWithRandomness (randomness : c.Scalar) (baseKey : Key) (shares : List Key)
    (packageId : ObjectID) (id : List UInt8) (keyServers : List ObjectID)
    (services : List Info) (publicKeys : IBEPublicKeys c) (threshold : UInt8)
    (encryptionInput : EncryptionInput) : FastCryptoResult (EncryptedObject c × Key) := do
  let fullId := createFullId packageId.bytes id
  let (nonce, encryptedShares) ←
    Ibe.encryptBatchedDeterministic c randomness shares publicKeys fullId services
  let randomnessKey ← deriveKey c .encryptedRandomness baseKey encryptedShares threshold keyServers
  let encryptedRandomness ← Ibe.encryptRandomness c randomness randomnessKey
  let demKey ← deriveKey c .dem baseKey encryptedShares threshold keyServers
  .ok ({
    version := 0
    packageId := packageId
    id := id
    services := services
    threshold := threshold
    encryptedShares := ⟨nonce, encryptedShares, encryptedRandomness⟩
    ciphertext := encryptionInput.encrypt c demKey }, demKey)

def sealEncrypt {R : Type} [AllowedRng R] (rng : R) (packageId : ObjectID) (id : List UInt8)
    (keyServers : List ObjectID) (publicKeys : IBEPublicKeys c) (threshold : UInt8)
    (encryptionInput : EncryptionInput) : FastCryptoResult (EncryptedObject c × Key) :=
  -- the cast `len() as u8` keeps the length modulo 256
  let numberOfShares := UInt8.ofNat keyServers.length
  if numberOfShares < threshold ∨ threshold = 0 then fail .invalidInput
  else do
    let (baseKey, rng) := generateRandomBytes 32 rng
    let (⟨_, indices, shares⟩, rng) ← Tss.split rng baseKey threshold numberOfShares
    let services := keyServers.zip indices
    if publicKeys.length ≠ numberOfShares.toNat then fail .invalidInput
    else
      let (randomness, _) := c.scalarRand rng
      sealWithRandomness c randomness baseKey shares packageId id keyServers services publicKeys
        threshold encryptionInput

variable {c}

namespace IBEEncryptions

variable (e : IBEEncryptions c)

def combineAndVerifyNonce (shares : List (Share 32)) (services : List Info)
    (threshold : UInt8) : FastCryptoResult Key := do
  let baseKey ← Tss.combine shares
  let randomnessKey ← deriveKey c .encryptedRandomness baseKey e.encryptedShares threshold
    (services.map Prod.fst)
  let randomness ← Ibe.decryptRandomness c e.encryptedRandomness randomnessKey
  Ibe.verifyNonce c randomness e.nonce
  .ok baseKey

def decryptAllSharesAndVerifyNonce (fullId : List UInt8) (services : List Info)
    (publicKeys : IBEPublicKeys c) (baseKey : Key) (threshold : UInt8) :
    FastCryptoResult (List (Share 32)) := do
  let randomnessKey ← deriveKey c .encryptedRandomness baseKey e.encryptedShares threshold
    (services.map Prod.fst)
  let randomness ← Ibe.decryptRandomness c e.encryptedRandomness randomnessKey
  Ibe.verifyNonce c randomness e.nonce
  if publicKeys.length ≠ e.encryptedShares.length then fail .invalidInput
  else
    ((publicKeys.zip e.encryptedShares).zip services).mapM fun ((pk, ciphertext), service) => do
      let plaintext ← Ibe.decryptDeterministic c randomness ciphertext pk fullId service
      .ok (service.2, plaintext)

def combineAndCheckShareConsistency (shares : List (Share 32)) (fullId : List UInt8)
    (services : List Info) (threshold : UInt8) (publicKeys : IBEPublicKeys c) :
    FastCryptoResult Key := do
  let polynomial ← Tss.interpolate shares
  let baseKey ← polynomial 0
  let allShares ← e.decryptAllSharesAndVerifyNonce fullId services publicKeys baseKey threshold
  let inconsistent ← allShares.anyM fun (i, share) => do
    let value ← polynomial i
    .ok (value ≠ share)
  if inconsistent then fail (.generalError "Inconsistent shares")
  else .ok baseKey

end IBEEncryptions

def serviceIndices (services : List Info) (userSecretKeys : IBEUserSecretKeys c) : List ℕ :=
  (services.zipIdx.filter fun (s, _) => s.1 ∈ userSecretKeys).map Prod.snd

namespace EncryptedObject

variable (o : EncryptedObject c)

def fullId : List UInt8 := createFullId o.packageId.bytes o.id

def decryptShares (userSecretKeys : IBEUserSecretKeys c) :
    FastCryptoResult (List (Share 32)) :=
  if o.encryptedShares.encryptedShares.length ≠ o.services.length then fail .invalidInput
  else if (serviceIndices o.services userSecretKeys).length < o.threshold.toNat then
    fail .invalidInput
  else
    (serviceIndices o.services userSecretKeys).mapM fun i => do
      let (objectId, idx) ← index o.services i
      let encryptedShare ← index o.encryptedShares.encryptedShares i
      let userSecretKey ← expect "checked above that this secret key is available"
        (userSecretKeys.lookup objectId)
      let share ← Ibe.decrypt c o.encryptedShares.nonce encryptedShare userSecretKey o.fullId
        (objectId, idx)
      .ok (idx, share)

/-- Create the base key from the shares, along the path that the public keys select. -/
def recoverBaseKey (userSecretKeys : IBEUserSecretKeys c)
    (publicKeys : Option (IBEPublicKeys c)) : FastCryptoResult Key :=
  if o.version ≠ 0 then fail .invalidInput
  else do
    let shares ← o.decryptShares userSecretKeys
    match publicKeys with
    | some publicKeys =>
      o.encryptedShares.combineAndCheckShareConsistency shares o.fullId o.services o.threshold
        publicKeys
    | none => o.encryptedShares.combineAndVerifyNonce shares o.services o.threshold

def demKey (baseKey : Key) : FastCryptoResult Key :=
  deriveKey c .dem baseKey o.encryptedShares.encryptedShares o.threshold
    (o.services.map Prod.fst)

end EncryptedObject

def sealDecrypt (encryptedObject : EncryptedObject c) (userSecretKeys : IBEUserSecretKeys c)
    (publicKeys : Option (IBEPublicKeys c)) : FastCryptoResult (List UInt8) := do
  let baseKey ← encryptedObject.recoverBaseKey userSecretKeys publicKeys
  let demKey ← encryptedObject.demKey baseKey
  encryptedObject.ciphertext.decrypt c demKey

end PysuiCrypto
