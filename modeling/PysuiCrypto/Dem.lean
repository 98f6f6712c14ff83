import PysuiCrypto.ByteNumerals
import PysuiCrypto.Ibe

/-!
# Data encapsulation

The three encryption modes. The counter mode is the source's loop over chunks with a running
counter and a last chunk that may be short; its byte at position `p` is masked with byte
`p % 32` of block `p / 32`, whence encrypting twice gives the message back.
-/
namespace PysuiCrypto

open Outcome

inductive Ciphertext
  | aes256Gcm (blob : List UInt8) (aad : Option (List UInt8))
  | hmac256Ctr (blob : List UInt8) (aad : Option (List UInt8)) (mac : Key)
  | plain
  deriving DecidableEq

inductive EncryptionInput
  | aes256Gcm (data : List UInt8) (aad : Option (List UInt8))
  | hmac256Ctr (data : List UInt8) (aad : Option (List UInt8))
  | plain
  deriving DecidableEq

namespace Dem

/-- The fixed IV. -/
def IV : Vector UInt8 16 := #v[
  138, 55, 153, 253, 198, 46, 121, 219, 160, 128, 89, 7, 214, 156, 148, 220]

inductive Purpose
  | encryption
  | mac
  deriving DecidableEq

def Purpose.tag : Purpose → List UInt8
  | .encryption => asciiBytes "HMAC-CTR-ENC"
  | .mac => asciiBytes "HMAC-CTR-MAC"

/-- The eight little-endian bytes of an unsigned 64-bit integer. -/
def toBytes (n : ℕ) : List UInt8 := ByteNumerals.leBytes 8 n

/-- `slice::chunks`: consecutive pieces of `size` bytes, the last one possibly shorter. -/
def chunks (size : ℕ) (xs : List UInt8) : List (List UInt8) :=
  (List.range ((xs.length + size - 1) / size)).map fun i => (xs.drop (i * size)).take size

variable (c : Platform)

def hmac (purpose : Purpose) (key : Key) (data : List UInt8) : Key :=
  c.hmacSha3_256 key (purpose.tag ++ data)

def encryptInCtrMode (key : Key) (msg : List UInt8) : List UInt8 :=
  (chunks 32 msg).zipIdx.flatMap fun (ci, i) =>
    xorUnchecked ci (hmac c .encryption key (toBytes i)).toList

/-- The byte string that is authenticated, with the length of the aad as a prefix. -/
def macInput (aad ciphertext : List UInt8) : List UInt8 :=
  toBytes aad.length ++ aad ++ ciphertext

def computeMac (key : Key) (aad ciphertext : List UInt8) : Key :=
  hmac c .mac key (macInput aad ciphertext)

def hmac256CtrEncrypt (msg aad : List UInt8) (key : Key) : List UInt8 × Key :=
  let ciphertext := encryptInCtrMode c key msg
  (ciphertext, computeMac c key aad ciphertext)

def hmac256CtrDecrypt (ciphertext : List UInt8) (mac : Key) (aad : List UInt8) (key : Key) :
    FastCryptoResult (List UInt8) :=
  let actualMac := computeMac c key aad ciphertext
  if mac ≠ actualMac then fail (.generalError "Invalid MAC")
  else .ok (encryptInCtrMode c key ciphertext)

def aes256GcmEncrypt (msg aad : List UInt8) (key : Key) : List UInt8 :=
  c.encryptAuthenticated key IV aad msg

def aes256GcmDecrypt (ciphertext aad : List UInt8) (key : Key) :
    FastCryptoResult (List UInt8) :=
  external (c.decryptAuthenticated key IV aad ciphertext)

end Dem

def EncryptionInput.encrypt (c : Platform) (key : Key) : EncryptionInput → Ciphertext
  | .aes256Gcm data aad => .aes256Gcm (Dem.aes256GcmEncrypt c data (aad.getD []) key) aad
  | .hmac256Ctr data aad =>
    let (blob, mac) := Dem.hmac256CtrEncrypt c data (aad.getD []) key
    .hmac256Ctr blob aad mac
  | .plain => .plain

def Ciphertext.decrypt (c : Platform) (key : Key) : Ciphertext → FastCryptoResult (List UInt8)
  | .aes256Gcm blob aad => Dem.aes256GcmDecrypt c blob (aad.getD []) key
  | .hmac256Ctr blob aad mac => Dem.hmac256CtrDecrypt c blob mac (aad.getD []) key
  | .plain => .ok key.toList

namespace Dem

variable {c : Platform}

theorem chunks_nil {size : ℕ} (hs : 0 < size) : chunks size [] = [] := by
  have hcount : (([] : List UInt8).length + size - 1) / size = 0 := by
    apply Nat.div_eq_of_lt
    simp only [List.length_nil]
    omega
  rw [chunks, hcount]
  rfl

/-- A nonempty string starts with one chunk, and the rest is chunked the same way. -/
theorem chunks_of_ne_nil {size : ℕ} (hs : 0 < size) {xs : List UInt8} (hx : xs ≠ []) :
    chunks size xs = xs.take size :: chunks size (xs.drop size) := by
  have hpos := List.length_pos_iff.mpr hx
  have hcount : (xs.length + size - 1) / size = (xs.length - size + size - 1) / size + 1 := by
    rcases Nat.lt_or_ge xs.length size with hlt | hge
    · rw [Nat.sub_eq_zero_of_le hlt.le, Nat.div_eq_of_lt (show 0 + size - 1 < size by omega),
        show xs.length + size - 1 = xs.length - 1 + size by omega, Nat.add_div_right _ hs,
        Nat.div_eq_of_lt (by omega)]
    · rw [← Nat.add_div_right _ hs]
      congr 1
      omega
  rw [chunks, hcount, List.range_succ_eq_map, List.map_cons, List.map_map]
  simp only [chunks, List.length_drop, Nat.zero_mul, List.drop_zero]
  congr 1
  apply List.map_congr_left
  intro i _
  simp only [Function.comp_apply, List.drop_drop, Nat.succ_mul]
  rw [Nat.add_comm]

/-- The keystream byte at a position of the message, for a counter that starts at `start`. -/
def keystream (block : ℕ → Key) (start p : ℕ) : UInt8 :=
  (block (start + p / 32)).toList.getD (p % 32) 0

/-- Masking chunk by chunk masks every byte with the keystream, whatever the length. -/
theorem flatMap_chunks (block : ℕ → Key) (msg : List UInt8) (start : ℕ) :
    ((chunks 32 msg).zipIdx start).flatMap (fun (ci, i) => xorUnchecked ci (block i).toList) =
      (List.range msg.length).map fun p => msg.getD p 0 ^^^ keystream block start p := by
  induction hlen : msg.length using Nat.strong_induction_on generalizing msg start with
  | _ len ih =>
    subst hlen
    rcases eq_or_ne msg [] with rfl | hne
    · simp [chunks_nil]
    · have hpos := List.length_pos_iff.mpr hne
      rw [chunks_of_ne_nil (by omega) hne, List.zipIdx_cons, List.flatMap_cons,
        ih (msg.drop 32).length (by simp; omega) (msg.drop 32) (start + 1) rfl]
      -- the first chunk reads block `start`, the others are the induction hypothesis
      apply List.ext_getElem
      · simp [xorUnchecked]
        omega
      · intro p h₁ h₂
        have hp : p < msg.length := by simpa using h₂
        rcases Nat.lt_or_ge p 32 with hlt | hge
        · rw [List.getElem_append_left (by simp [xorUnchecked]; omega)]
          simp [xorUnchecked, keystream, hp, Nat.div_eq_of_lt hlt, Nat.mod_eq_of_lt hlt, hlt]
        · obtain ⟨q, rfl⟩ := Nat.exists_eq_add_of_le hge
          have hshort : (xorUnchecked (msg.take 32) (block start).toList).length = 32 := by
            simp [xorUnchecked]
            omega
          rw [List.getElem_append_right (by simp only [hshort]; omega)]
          simp only [hshort, Nat.add_sub_cancel_left, List.getElem_map, List.getElem_range,
            keystream, Nat.add_div_left q (show 0 < 32 by omega), Nat.add_mod_left]
          simp [hp, Nat.add_assoc, Nat.add_comm 1]

theorem encryptInCtrMode_eq (key : Key) (msg : List UInt8) :
    encryptInCtrMode c key msg = (List.range msg.length).map fun p =>
      msg.getD p 0 ^^^ keystream (fun i => hmac c .encryption key (toBytes i)) 0 p :=
  flatMap_chunks (fun i => hmac c .encryption key (toBytes i)) msg 0

@[simp] theorem length_encryptInCtrMode (key : Key) (msg : List UInt8) :
    (encryptInCtrMode c key msg).length = msg.length := by simp [encryptInCtrMode_eq]

/-- Counter mode is its own inverse. -/
theorem encryptInCtrMode_involutive (key : Key) (msg : List UInt8) :
    encryptInCtrMode c key (encryptInCtrMode c key msg) = msg := by
  rw [encryptInCtrMode_eq key (encryptInCtrMode c key msg), length_encryptInCtrMode,
    encryptInCtrMode_eq]
  apply List.ext_getElem
  · simp
  · intro p h₁ h₂
    simp [h₂]

theorem hmac256CtrDecrypt_encrypt (msg aad : List UInt8) (key : Key) :
    hmac256CtrDecrypt c (hmac256CtrEncrypt c msg aad key).1 (hmac256CtrEncrypt c msg aad key).2
      aad key = .ok msg := by
  simp [hmac256CtrDecrypt, hmac256CtrEncrypt, encryptInCtrMode_involutive]

end Dem

theorem returns_decrypt {c : Platform} (key : Key) (ciphertext : Ciphertext) :
    Returns (ciphertext.decrypt c key) := by
  cases ciphertext with
  | aes256Gcm blob aad => exact returns_external _
  | hmac256Ctr blob aad mac =>
    simp only [Ciphertext.decrypt, Dem.hmac256CtrDecrypt]
    split_ifs
    · exact returns_fail _
    · exact returns_ok _
  | plain => exact returns_ok _

/-- The plaintext that decryption under the encryption key returns. -/
def EncryptionInput.plaintext (key : Key) : EncryptionInput → List UInt8
  | .aes256Gcm data _ => data
  | .hmac256Ctr data _ => data
  | .plain => key.toList

theorem decrypt_encrypt {c : Platform} (hc : c.AesRoundTrip) (input : EncryptionInput)
    (key : Key) : (input.encrypt c key).decrypt c key = .ok (input.plaintext key) := by
  cases input with
  | aes256Gcm data aad =>
    simp [EncryptionInput.encrypt, Ciphertext.decrypt, EncryptionInput.plaintext,
      Dem.aes256GcmEncrypt, Dem.aes256GcmDecrypt, hc key Dem.IV (aad.getD []) data]
  | hmac256Ctr data aad => exact Dem.hmac256CtrDecrypt_encrypt data (aad.getD []) key
  | plain => rfl

end PysuiCrypto
