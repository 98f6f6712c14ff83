import PysuiCrypto.AddressSeed
import PysuiCrypto.Bindings
import PysuiCrypto.Separators

/-!
# The claims of a token

The extraction of the four claims that zkLogin uses from a JSON web token. The decoders of the
payload are parameters; the value that they produce is a type of the model.
-/
namespace PysuiCrypto

open Outcome Bindings

inductive Value
  | null
  | bool (b : Bool)
  | number (literal : String)
  | string (s : String)
  | array (elements : List Value)
  | object (entries : List (String × Value))

namespace Value

/-- Indexing with a key: a missing key and a value that is no object give `null`. -/
def get (v : Value) (key : String) : Value :=
  match v with
  | .object entries => ((entries.find? fun e => e.1 = key).map Prod.snd).getD .null
  | _ => .null

def asStr : Value → Option String
  | .string s => some s
  | _ => none

@[simp] theorem asStr_eq_some {v : Value} {s : String} : v.asStr = some s ↔ v = .string s := by
  cases v <;> simp [asStr]

end Value

structure JwtDecoders where
  base64UrlDecodeVec : String → Except String (List UInt8)
  jsonFromSlice : List UInt8 → Except String Value

def okOr {α : Type} (e : PyErr) : Option α → PyResult α
  | some a => .ok a
  | none => fail e

def requiredClaim (payload : Value) (name : String) : PyResult String :=
  okOr (.valueError ("Missing required claim '" ++ name ++ "'")) (payload.get name).asStr

def audClaim (payload : Value) : PyResult String :=
  match payload.get "aud" with
  | .string s => .ok s
  | .array arr =>
    okOr (.valueError "'aud' array is empty or non-string") (arr.head?.bind Value.asStr)
  | _ => fail (.valueError "Missing or invalid 'aud' claim")

def claimsOfPayload (payload : Value) : PyResult (String × String × String × String) := do
  let iss ← requiredClaim payload "iss"
  if (asBytes iss).length > 255 then
    fail (.valueError
      ("'iss' claim exceeds 255 characters (got " ++ (asBytes iss).length.repr ++ ")"))
  else do
    let sub ← requiredClaim payload "sub"
    let aud ← audClaim payload
    let nonce ← requiredClaim payload "nonce"
    if (asBytes aud).length > 145 then
      fail (.valueError
        ("'aud' claim exceeds 145 characters (got " ++ (asBytes aud).length.repr ++ ")"))
    else .ok (iss, sub, aud, nonce)

def extractJwtClaims (d : JwtDecoders) (jwt : String) :
    PyResult (String × String × String × String) :=
  match (Separators.splitn '.' 4 jwt.toList).map String.ofList with
  | [headerB64, payloadB64, _] =>
    if (asBytes headerB64).length > 248 then
      fail (.valueError
        ("JWT header exceeds 248 characters (got " ++ (asBytes headerB64).length.repr ++ ")"))
    else if (asBytes headerB64).length + 1 + (asBytes payloadB64).length > 1600 then
      fail (.valueError "JWT header.payload exceeds 1600 bytes")
    else do
      let payloadBytes ← mapErr (fun e => .valueError ("Invalid JWT payload encoding: " ++ e))
        (d.base64UrlDecodeVec payloadB64)
      let payload ← mapErr (fun e => .valueError ("Invalid JWT payload JSON: " ++ e))
        (d.jsonFromSlice payloadBytes)
      claimsOfPayload payload
  | _ => fail (.valueError "JWT must have exactly 3 parts")

def OkOrValueError {α : Type} (x : PyResult α) : Prop := (∃ a, x = .ok a) ∨ RaisesValueError x

theorem OkOrValueError.bind {α β : Type} {x : PyResult α} {f : α → PyResult β}
    (hx : OkOrValueError x) (hf : ∀ a, OkOrValueError (f a)) : OkOrValueError (x >>= f) := by
  rcases hx with ⟨a, rfl⟩ | herr
  · exact hf a
  · exact .inr (herr.bind f)

theorem okOrValueError_mapErr {α : Type} (context : String) (r : Except String α) :
    OkOrValueError (mapErr (fun e => .valueError (context ++ e)) r) := by
  cases r with
  | ok a => exact .inl ⟨a, rfl⟩
  | error e => exact .inr ⟨_, rfl⟩

theorem okOrValueError_okOr {α : Type} (message : String) (o : Option α) :
    OkOrValueError (okOr (.valueError message) o) := by
  cases o with
  | some a => exact .inl ⟨a, rfl⟩
  | none => exact .inr ⟨_, rfl⟩

@[simp] theorem okOr_eq_ok {α : Type} {e : PyErr} {o : Option α} {a : α} :
    okOr e o = .ok a ↔ o = some a := by
  cases o <;> simp [okOr, fail]

@[simp] theorem requiredClaim_eq_ok {payload : Value} {name s : String} :
    requiredClaim payload name = .ok s ↔ payload.get name = .string s := by
  simp [requiredClaim]

/-- The audience is a string, or the first element of an array. -/
theorem audClaim_eq_ok {payload : Value} {aud : String} :
    audClaim payload = .ok aud ↔ payload.get "aud" = .string aud ∨
      ∃ rest, payload.get "aud" = .array (.string aud :: rest) := by
  rw [audClaim]
  split
  · next s hs => simp [hs]
  · next arr harr =>
    rw [harr]
    cases arr <;> simp
  · next hstr harr => simp_all [fail]

theorem okOrValueError_audClaim (payload : Value) : OkOrValueError (audClaim payload) := by
  rw [audClaim]
  split
  · exact .inl ⟨_, rfl⟩
  · exact okOrValueError_okOr _ _
  · exact .inr ⟨_, rfl⟩

structure HasClaims (payload : Value) (iss sub aud nonce : String) : Prop where
  get_iss : payload.get "iss" = .string iss
  get_sub : payload.get "sub" = .string sub
  get_aud : payload.get "aud" = .string aud ∨
    ∃ rest, payload.get "aud" = .array (.string aud :: rest)
  get_nonce : payload.get "nonce" = .string nonce
  length_iss : (asBytes iss).length ≤ 255
  length_aud : (asBytes aud).length ≤ 145

theorem claimsOfPayload_eq_ok {payload : Value} {iss sub aud nonce : String} :
    claimsOfPayload payload = .ok (iss, sub, aud, nonce) ↔
      HasClaims payload iss sub aud nonce := by
  simp only [claimsOfPayload, bind_eq_ok, requiredClaim_eq_ok]
  constructor
  · rintro ⟨iss, hiss, h⟩
    split_ifs at h with hleniss
    · cases h
    · obtain ⟨sub, hsub, aud, haud, nonce, hnonce, h⟩ := by
        simpa only [bind_eq_ok, requiredClaim_eq_ok, audClaim_eq_ok] using h
      split_ifs at h with hlenaud
      · cases h
      · simp only [Except.ok.injEq, Prod.mk.injEq] at h
        obtain ⟨rfl, rfl, rfl, rfl⟩ := h
        exact ⟨hiss, hsub, haud, hnonce, by omega, by omega⟩
  · rintro ⟨hiss, hsub, haud, hnonce, hleniss, hlenaud⟩
    refine ⟨iss, hiss, ?_⟩
    rw [if_neg (by omega)]
    simp only [bind_eq_ok, requiredClaim_eq_ok, audClaim_eq_ok]
    exact ⟨sub, hsub, aud, haud, nonce, hnonce, if_neg (by omega)⟩

theorem okOrValueError_claimsOfPayload (payload : Value) :
    OkOrValueError (claimsOfPayload payload) := by
  refine (okOrValueError_okOr _ _).bind fun iss => ?_
  split_ifs
  · exact .inr ⟨_, rfl⟩
  · refine (okOrValueError_okOr _ _).bind fun sub => (okOrValueError_audClaim payload).bind
      fun aud => (okOrValueError_okOr _ _).bind fun nonce => ?_
    split_ifs
    · exact .inr ⟨_, rfl⟩
    · exact .inl ⟨_, rfl⟩

/-- Three parts without dots between two dots; the limits count the bytes of the first two. -/
structure IsToken (jwt header payload signature : String) : Prop where
  text : jwt = header ++ "." ++ payload ++ "." ++ signature
  dot_not_mem : '.' ∉ header.toList ∧ '.' ∉ payload.toList ∧ '.' ∉ signature.toList
  length_header : (asBytes header).length ≤ 248
  length_signed : (asBytes header).length + 1 + (asBytes payload).length ≤ 1600

/-- The limit of four parts tells three parts from more. -/
theorem splitn_token_iff {jwt header payload signature : String} :
    (Separators.splitn '.' 4 jwt.toList).map String.ofList = [header, payload, signature] ↔
      jwt = header ++ "." ++ payload ++ "." ++ signature ∧
        '.' ∉ header.toList ∧ '.' ∉ payload.toList ∧ '.' ∉ signature.toList := by
  have hparts : [header, payload, signature] =
      [header.toList, payload.toList, signature.toList].map String.ofList := by simp
  rw [hparts, (List.map_injective_iff.mpr fun _ _ => String.ofList_injective).eq_iff,
    Separators.splitn_eq_iff (by simp), ← String.toList_inj]
  simp [List.intercalate_cons_cons, and_comm]

section
variable {d : JwtDecoders} {jwt : String}

theorem extractJwtClaims_eq_ok {iss sub aud nonce : String} :
    extractJwtClaims d jwt = .ok (iss, sub, aud, nonce) ↔
      ∃ header payload signature bytes value, IsToken jwt header payload signature ∧
        d.base64UrlDecodeVec payload = .ok bytes ∧ d.jsonFromSlice bytes = .ok value ∧
        HasClaims value iss sub aud nonce := by
  rw [extractJwtClaims]
  constructor
  · intro h
    split at h
    · next header payload signature hparts =>
      obtain ⟨htext, hdots⟩ := splitn_token_iff.mp hparts
      split_ifs at h with hheader hsigned
      · cases h
      · cases h
      · simp only [bind_eq_ok, mapErr_eq_ok, claimsOfPayload_eq_ok] at h
        obtain ⟨bytes, hbytes, value, hvalue, hclaims⟩ := h
        exact ⟨header, payload, signature, bytes, value,
          ⟨htext, hdots, by omega, by omega⟩, hbytes, hvalue, hclaims⟩
    · cases h
  · rintro ⟨header, payload, signature, bytes, value, htoken, hbytes, hvalue, hclaims⟩
    rw [splitn_token_iff.mpr ⟨htoken.text, htoken.dot_not_mem⟩]
    have hheader := htoken.length_header
    have hsigned := htoken.length_signed
    dsimp only
    rw [if_neg (by omega), if_neg (by omega)]
    simp only [bind_eq_ok, mapErr_eq_ok, claimsOfPayload_eq_ok]
    exact ⟨bytes, hbytes, value, hvalue, hclaims⟩

theorem okOrValueError_extractJwtClaims : OkOrValueError (extractJwtClaims d jwt) := by
  rw [extractJwtClaims]
  split
  · split_ifs
    · exact .inr ⟨_, rfl⟩
    · exact .inr ⟨_, rfl⟩
    · exact (okOrValueError_mapErr _ _).bind fun bytes =>
        (okOrValueError_mapErr _ _).bind okOrValueError_claimsOfPayload
  · exact .inr ⟨_, rfl⟩

/-- The claims are returned exactly for a token of three parts, within the limits, whose second
part decodes to a value with the claims; no other part and no other claim has a say. Every other
text is a `ValueError`. -/
theorem extractJwtClaims_spec (d : JwtDecoders) (jwt : String) :
    (∀ iss sub aud nonce : String, extractJwtClaims d jwt = .ok (iss, sub, aud, nonce) ↔
      ∃ header payload signature bytes value, IsToken jwt header payload signature ∧
        d.base64UrlDecodeVec payload = .ok bytes ∧ d.jsonFromSlice bytes = .ok value ∧
        HasClaims value iss sub aud nonce) ∧
    ((¬ ∃ iss sub aud nonce, extractJwtClaims d jwt = .ok (iss, sub, aud, nonce)) →
      RaisesValueError (extractJwtClaims d jwt)) := by
  refine ⟨fun _ _ _ _ => extractJwtClaims_eq_ok, fun hnone => ?_⟩
  have hclaims : OkOrValueError (extractJwtClaims d jwt) := okOrValueError_extractJwtClaims
  rcases hclaims with ⟨claims, hok⟩ | hraises
  · obtain ⟨iss, sub, aud, nonce⟩ := claims
    exact absurd ⟨iss, sub, aud, nonce, hok⟩ hnone
  · exact hraises

end

end PysuiCrypto
