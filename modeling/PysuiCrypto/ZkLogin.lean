import PysuiCrypto.ByteNumerals
import PysuiCrypto.Hex
import PysuiCrypto.Wire

/-!
# The zkLogin functions

Nonces, address seeds, addresses and signatures as the Python module computes them. The crates
that they call are parameters, with their error texts; a big integer is a natural number.
-/
namespace PysuiCrypto

open Outcome ByteNumerals

structure NumBigint where
  parseBytes : List UInt8 → ℕ → Option ℕ
  toBytesBe : ℕ → List UInt8
  fromBytesBe : List UInt8 → ℕ
  toStrRadix : ℕ → ℕ → String

structure ZkPlatform where
  bigint : NumBigint
  /-- Arguments are the salt, the name and the value of the claim, and the audience. -/
  genAddressSeed : String → String → String → String → Except String String
  /-- The key is split 16 bytes before its end, which panics if it is shorter. -/
  getNonce : List UInt8 → UInt64 → String → Outcome String String
  /-- The part of the inputs that is serialized. -/
  ZkLoginInputs : Type
  zkLoginInputsFormat : BcsFormat ZkLoginInputs
  /-- From the proof and the decimal digits of the address seed. -/
  fromJson : String → String → Except String ZkLoginInputs
  blake2b256 : List UInt8 → Vector UInt8 32
  base64EncodeString : List UInt8 → String

def asBytes (s : String) : List UInt8 := s.toUTF8.data.toList

def sliceFrom {ε α : Type} (xs : List α) (start : ℕ) : Outcome ε (List α) :=
  if start ≤ xs.length then .ok (xs.drop start) else abort "range start index out of range for slice"

def copyFromSlice {ε α : Type} (xs : List α) (start : ℕ) (src : List α) : Outcome ε (List α) := do
  let target ← sliceFrom xs start
  if src.length = target.length then .ok (xs.take start ++ src)
  else abort "copy_from_slice: source slice length does not match destination slice length"

def mapErr {α : Type} (toErr : String → PyErr) : Except String α → PyResult α
  | .ok x => .ok x
  | .error e => fail (toErr e)

def buildNonceKey (epkBytes : List UInt8) : List UInt8 := [0x00] ++ epkBytes

/-- The bytes from the first nonzero one on. The alternative, the slice from index 31, is
evaluated in any case. -/
def stripSeedLeadingZeros {ε : Type} (seed : List UInt8) : Outcome ε (List UInt8) := do
  let alternative ← sliceFrom seed 31
  return ((seed.findIdx? fun b => b ≠ 0).map fun pos => seed.drop pos).getD alternative

/-- The byte string that `hashZkloginAddress` hashes; the length byte wraps around. -/
def addressInput (iss : String) (seedBytes : List UInt8) : List UInt8 :=
  [0x05] ++ [UInt8.ofNat (asBytes iss).length] ++ asBytes iss ++ seedBytes

def hexByte (b : UInt8) : String := String.ofList (Hex.byteDigits b)

def addressSeedBytes (addressSeed : List UInt8) (legacy : Bool) : PyResult (List UInt8) :=
  if addressSeed.length ≠ 32 then
    fail (.valueError
      ("address_seed must be 32 bytes (got " ++ addressSeed.length.repr ++ ")"))
  else if legacy then .ok addressSeed
  else stripSeedLeadingZeros addressSeed

variable (z : ZkPlatform)

def hashZkloginAddress (iss : String) (seedBytes : List UInt8) : Vector UInt8 32 :=
  z.blake2b256 (addressInput iss seedBytes)

def computeNonce (epkBytes : List UInt8) (maxEpoch : UInt64) (randomness : String) :
    PyResult String :=
  let ephPkBytes := buildNonceKey epkBytes
  mapFail (fun e => .valueError ("Nonce computation failed: " ++ e))
    (z.getNonce ephPkBytes maxEpoch randomness)

def computeAddressSeed (keyClaimName keyClaimValue audience userSalt : String) :
    PyResult (List UInt8) := do
  let seedStr ← mapErr (fun e => .valueError ("Address seed computation failed: " ++ e))
    (z.genAddressSeed userSalt keyClaimName keyClaimValue audience)
  let seedInt ← match z.bigint.parseBytes (asBytes seedStr) 10 with
    | some n => .ok n
    | none => fail (.runtimeError "Failed to parse address seed as big integer")
  let seedBytes := z.bigint.toBytesBe seedInt
  let result := List.replicate 32 (0 : UInt8)
  -- natural subtraction saturates as the source does
  let start := 32 - seedBytes.length
  copyFromSlice result start seedBytes

def computeZkloginAddress (iss : String) (addressSeed : List UInt8) (legacy : Bool) :
    PyResult String := do
  let seedBytes ← addressSeedBytes addressSeed legacy
  let hash := hashZkloginAddress z iss seedBytes
  return "0x" ++ String.join (hash.toList.map hexByte)

def seedDecimal (addressSeed : List UInt8) : String :=
  z.bigint.toStrRadix (z.bigint.fromBytesBe addressSeed) 10

def u64Format : BcsFormat UInt64 :=
  BcsFormat.via (BcsFormat.bytes 8)
    (fun n => Vector.ofFn fun k : Fin 8 => UInt8.ofNat (n.toNat / 256 ^ k.val))
    fun v => some (UInt64.ofNat (leValue v.toList))

def buildZkloginSignature (bcs : Bcs) (proofJson : String) (ephemeralSig : List UInt8)
    (addressSeed : List UInt8) (maxEpoch : UInt64) : PyResult String := do
  let seedStr := seedDecimal z addressSeed
  let inputs ← mapErr (fun e => .valueError ("Invalid proof JSON: " ++ e))
    (z.fromJson proofJson seedStr)
  let inputsBytes ← mapErr
    (fun e => .runtimeError ("BCS serialization of inputs failed: " ++ e))
    (bcs.toBytes z.zkLoginInputsFormat inputs)
  let epochBytes ← mapErr
    (fun e => .runtimeError ("BCS serialization of max_epoch failed: " ++ e))
    (bcs.toBytes u64Format maxEpoch)
  let sigBytes ← mapErr
    (fun e => .runtimeError ("BCS serialization of sig failed: " ++ e))
    (bcs.toBytes byteVecFormat ephemeralSig)
  let authenticator := [0x05] ++ inputsBytes ++ epochBytes ++ sigBytes
  return z.base64EncodeString authenticator

end PysuiCrypto
