import PysuiCrypto.ZkLogin

/-!
# Nonces and the ephemeral keys that they commit to

An ephemeral key is of one of two schemes. The request to the prover extends the key by the flag
of its scheme; the nonce is computed from the key alone, and its key bytes always begin with the
flag of Ed25519.
-/
namespace PysuiCrypto

open ByteNumerals

structure KeyGenerators where
  Rng : Type
  ed25519KeyPair : Rng → Vector UInt8 32 × Vector UInt8 32
  secp256r1KeyPair : Rng → Vector UInt8 33 × Vector UInt8 32

structure EphemeralKeypair where
  publicKey : List UInt8
  privateKey : List UInt8

def generateEphemeralKeypair (g : KeyGenerators) (rng : g.Rng) (asSecp256r1 : Bool) :
    EphemeralKeypair :=
  if asSecp256r1 then
    let kp := g.secp256r1KeyPair rng
    ⟨kp.1.toList, kp.2.toList⟩
  else
    let kp := g.ed25519KeyPair rng
    ⟨kp.1.toList, kp.2.toList⟩

def flag (asSecp256r1 : Bool) : UInt8 := if asSecp256r1 then 2 else 0

def extendedEpk (asSecp256r1 : Bool) (epk : List UInt8) : ℕ :=
  beValue ([flag asSecp256r1] ++ epk)

def extendedEphemeralPublicKey (asSecp256r1 : Bool) (epk : List UInt8) : String :=
  (extendedEpk asSecp256r1 epk).repr

/-- A nonce commits to the extended key of a scheme: the key is hashed behind the flag of the
scheme, and the bytes spell the number that is submitted. -/
structure CommitsToExtendedKey (asSecp256r1 : Bool) (epk : List UInt8) : Prop where
  nonceKey_eq : buildNonceKey epk = [flag asSecp256r1] ++ epk
  computeNonce_eq : ∀ (z : ZkPlatform) (maxEpoch : UInt64) (randomness : String),
    computeNonce z epk maxEpoch randomness =
      Outcome.mapFail (fun e => .valueError ("Nonce computation failed: " ++ e))
        (z.getNonce ([flag asSecp256r1] ++ epk) maxEpoch randomness)
  submitted_eq : (beValue (buildNonceKey epk)).repr = extendedEphemeralPublicKey asSecp256r1 epk

theorem extendedEpk_secp256r1 (epk : List UInt8) :
    extendedEpk true epk = beValue (buildNonceKey epk) + 256 ^ epk.length * 2 := by
  rw [extendedEpk, buildNonceKey, List.singleton_append, List.singleton_append, beValue_cons,
    beValue_cons]
  simp [flag]

theorem commitsToExtendedKey_iff (asSecp256r1 : Bool) (epk : List UInt8) :
    CommitsToExtendedKey asSecp256r1 epk ↔ asSecp256r1 = false := by
  cases asSecp256r1 with
  | false =>
    exact iff_of_true ⟨rfl, fun z maxEpoch randomness => rfl, rfl⟩ rfl
  | true =>
    refine iff_of_false (fun h => ?_) (by simp)
    have hnumber := Nat.repr_injective h.submitted_eq
    rw [extendedEpk_secp256r1] at hnumber
    have hpos : 0 < 256 ^ epk.length := Nat.pow_pos (by omega)
    omega

theorem length_publicKey (g : KeyGenerators) (rng : g.Rng) (asSecp256r1 : Bool) :
    (generateEphemeralKeypair g rng asSecp256r1).publicKey.length =
      if asSecp256r1 then 33 else 32 := by
  cases asSecp256r1 <;> simp [generateEphemeralKeypair]

theorem buildNonceKey_ne (g : KeyGenerators) (rng rng' : g.Rng) (asSecp256r1 : Bool) :
    buildNonceKey (generateEphemeralKeypair g rng asSecp256r1).publicKey ≠
      buildNonceKey (generateEphemeralKeypair g rng' (!asSecp256r1)).publicKey := by
  intro h
  have hlen := congrArg List.length (List.append_cancel_left h)
  rw [length_publicKey, length_publicKey] at hlen
  cases asSecp256r1 <;> simp at hlen

/-- Exactly the nonces of Ed25519 keys commit to the extended key that is submitted. -/
theorem nonce_commits_iff (g : KeyGenerators) (rng : g.Rng) (asSecp256r1 : Bool) :
    (CommitsToExtendedKey asSecp256r1 (generateEphemeralKeypair g rng asSecp256r1).publicKey ∧
      ∀ rng' : g.Rng, buildNonceKey (generateEphemeralKeypair g rng asSecp256r1).publicKey ≠
        buildNonceKey (generateEphemeralKeypair g rng' (!asSecp256r1)).publicKey) ↔
    asSecp256r1 = false := by
  rw [commitsToExtendedKey_iff]
  exact and_iff_left fun rng' => buildNonceKey_ne g rng rng' asSecp256r1

/-- A source without randomness: the private key of Ed25519 is the one of the first test vector of
the scheme, the one of secp256r1 is 1, whose public key is the base point. -/
def fixedKeys : KeyGenerators where
  Rng := Unit
  ed25519KeyPair _ :=
    (#v[0xd7, 0x5a, 0x98, 0x01, 0x82, 0xb1, 0x0a, 0xb7, 0xd5, 0x4b, 0xfe, 0xd3, 0xc9, 0x64, 0x07,
        0x3a, 0x0e, 0xe1, 0x72, 0xf3, 0xda, 0xa6, 0x23, 0x25, 0xaf, 0x02, 0x1a, 0x68, 0xf7, 0x07,
        0x51, 0x1a],
      #v[0x9d, 0x61, 0xb1, 0x9d, 0xef, 0xfd, 0x5a, 0x60, 0xba, 0x84, 0x4a, 0xf4, 0x92, 0xec, 0x2c,
        0xc4, 0x44, 0x49, 0xc5, 0x69, 0x7b, 0x32, 0x69, 0x19, 0x70, 0x3b, 0xac, 0x03, 0x1c, 0xae,
        0x7f, 0x60])
  secp256r1KeyPair _ :=
    (#v[0x03, 0x6b, 0x17, 0xd1, 0xf2, 0xe1, 0x2c, 0x42, 0x47, 0xf8, 0xbc, 0xe6, 0xe5, 0x63, 0xa4,
        0x40, 0xf2, 0x77, 0x03, 0x7d, 0x81, 0x2d, 0xeb, 0x33, 0xa0, 0xf4, 0xa1, 0x39, 0x45, 0xd8,
        0x98, 0xc2, 0x96],
      #v[0, 0, 0, 0, 0, 0, 0, 0, 0, 0, 0, 0, 0, 0, 0, 0, 0, 0, 0, 0, 0, 0, 0, 0, 0, 0, 0, 0, 0, 0,
        0, 1])

theorem base_point_nonce_key :
    (buildNonceKey (generateEphemeralKeypair fixedKeys () true).publicKey).head? = some 0 ∧
      ¬ CommitsToExtendedKey true (generateEphemeralKeypair fixedKeys () true).publicKey := by
  refine ⟨rfl, fun h => ?_⟩
  have hflag := congrArg List.head? h.nonceKey_eq
  simp [buildNonceKey, flag] at hflag

end PysuiCrypto
