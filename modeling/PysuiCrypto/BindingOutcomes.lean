import PysuiCrypto.Bindings

/-!
# Which arguments the exported encryption accepts

The arguments fall into three classes: those that do not parse, those that parse but describe
no sharing or exceed the limits of the wire format, and the others. Each class has its own
outcome, and none of them is a panic.
-/
namespace PysuiCrypto

open Outcome BcsFormat

/-- AES-GCM encryption appends a tag of a fixed length. -/
def Platform.AesTagLength (c : Platform) (n : ℕ) : Prop :=
  ∀ key iv aad msg, (c.encryptAuthenticated key iv aad msg).length = msg.length + n

/-- The lengths with which the ciphertext of an input is within the limits of the format. -/
def EncryptionInput.WithinLimits (tagLength : ℕ) : EncryptionInput → Prop
  | .aes256Gcm data aad => data.length + tagLength ≤ maxSequenceLength ∧
      ∀ bs, aad = some bs → bs.length ≤ maxSequenceLength
  | .hmac256Ctr data aad => data.length ≤ maxSequenceLength ∧
      ∀ bs, aad = some bs → bs.length ≤ maxSequenceLength
  | .plain => True

variable {c : Platform}

theorem encrypt_withinLimits_iff {n : ℕ} (htag : c.AesTagLength n) (input : EncryptionInput)
    (key : Key) : (input.encrypt c key).WithinLimits ↔ input.WithinLimits n := by
  cases input with
  | aes256Gcm data aad =>
    simp only [EncryptionInput.encrypt, Ciphertext.WithinLimits, EncryptionInput.WithinLimits,
      Dem.aes256GcmEncrypt, htag _ _ _ _]
  | hmac256Ctr data aad =>
    simp only [EncryptionInput.encrypt, Ciphertext.WithinLimits, EncryptionInput.WithinLimits,
      Dem.hmac256CtrEncrypt, Dem.length_encryptInCtrMode]
  | plain => exact Iff.rfl

theorem exponentPlatform_aesTagLength (debug : Bool) :
    (exponentPlatform debug).AesTagLength 32 := by
  intro key iv aad msg
  change (ExponentPlatform.tag key iv aad msg ++ msg).length = msg.length + 32
  simp [ExponentPlatform.tag, Nat.add_comm]

namespace Bindings

/-- The arguments that parse: at most 255 ids of 32 bytes, and encodings of elements of `G2`. -/
structure WellFormed (c : Platform) (packageId : List UInt8)
    (keyServers publicKeys : List (List UInt8)) : Prop where
  length_le : keyServers.length ≤ 255
  packageId : packageId.length = 32
  keyServers : ∀ s ∈ keyServers, s.length = 32
  publicKeys : ∀ pk ∈ publicKeys, ∃ g : c.G2, pk = (c.g2ToByteArray g).toList

/-- One public key for each key server, a threshold within their number, and sequences within
the limits of the format. -/
structure Encryptable (tagLength : ℕ) (id : List UInt8) (keyServers publicKeys : List (List UInt8))
    (threshold : UInt8) (input : EncryptionInput) : Prop where
  pos : 1 ≤ threshold.toNat
  le_length : threshold.toNat ≤ keyServers.length
  publicKeys : publicKeys.length = keyServers.length
  id : id.length ≤ maxSequenceLength
  input : input.WithinLimits tagLength

/-- The bytes of an object id. -/
def idBytes (s : ObjectID) : List UInt8 := s.bytes.toList

/-- The bytes of an element of `G2`. -/
def g2Bytes (g : c.G2) : List UInt8 := (c.g2ToByteArray g).toList

theorem exists_idBytes {bytes : List UInt8} : (∃ s, bytes = idBytes s) ↔ bytes.length = 32 := by
  constructor
  · rintro ⟨s, rfl⟩
    exact Vector.length_toList
  · intro h
    exact ⟨⟨⟨bytes.toArray, by simpa using h⟩⟩, rfl⟩

theorem exists_map {α β : Type} {f : β → α} {xs : List α} :
    (∃ ys : List β, xs = ys.map f) ↔ ∀ x ∈ xs, ∃ y, x = f y := by
  simpa [eq_comm] using Set.ext_iff.mp (Set.range_list_map f) xs

/-- Arguments that parse spell a package id, key servers and public keys. -/
theorem wellFormed_iff {packageId : List UInt8} {keyServers publicKeys : List (List UInt8)} :
    WellFormed c packageId keyServers publicKeys ↔
      ∃ (pkg : ObjectID) (servers : List ObjectID) (pks : IBEPublicKeys c),
        servers.length ≤ 255 ∧ packageId = idBytes pkg ∧ keyServers = servers.map idBytes ∧
          publicKeys = pks.map g2Bytes := by
  constructor
  · rintro ⟨hlen, hpkg, hservers, hpks⟩
    obtain ⟨pkg, rfl⟩ := exists_idBytes.mpr hpkg
    obtain ⟨servers, rfl⟩ := exists_map.mpr fun s hs => exists_idBytes.mpr (hservers s hs)
    obtain ⟨pks, rfl⟩ := exists_map.mpr hpks
    exact ⟨pkg, servers, pks, by simpa using hlen, rfl, rfl, rfl⟩
  · rintro ⟨pkg, servers, pks, hlen, rfl, rfl, rfl⟩
    exact ⟨by simpa using hlen, exists_idBytes.mp ⟨pkg, rfl⟩,
      fun s hs => exists_idBytes.mp (exists_map.mp ⟨servers, rfl⟩ s hs),
      exists_map.mp ⟨pks, rfl⟩⟩

variable {R : Type} [AllowedRng R] {api : FastCryptoApi c} {bcs : Bcs}
  (hbcs : bcs.FollowsSpec) (hg2 : c.G2Codec) (rng : R) (packageId id : List UInt8)
  (keyServers publicKeys : List (List UInt8)) (threshold : UInt8) (data : List UInt8)
  (demType : DemType) (aad : Option (List UInt8))

include hbcs hg2

variable (api) in
theorem sealEncrypt_malformed (h : ¬ WellFormed c packageId keyServers publicKeys) :
    RaisesValueError (sealEncrypt api bcs rng packageId id keyServers publicKeys threshold data
      demType aad) := by
  rw [sealEncrypt]
  by_cases hlen : keyServers.length > 255
  · rw [if_pos hlen]
    exact ⟨_, rfl⟩
  rw [if_neg hlen]
  rcases (parses_objectId hbcs).ok_or packageId with ⟨pkg, rfl, hpkg⟩ | ⟨-, herr⟩
  swap
  · exact herr.bind _
  rcases (parses_objectId hbcs).mapM.ok_or keyServers with ⟨servers, rfl, hservers⟩ | ⟨-, herr⟩
  swap
  · rw [hpkg, ok_bind]
    exact herr.bind _
  rcases (parses_g2 hbcs hg2).mapM.ok_or publicKeys with ⟨pks, rfl, -⟩ | ⟨-, herr⟩
  · refine absurd (wellFormed_iff.mpr ⟨pkg, servers, pks, ?_, rfl, rfl, rfl⟩) h
    rw [List.length_map] at hlen
    omega
  · rw [hpkg, ok_bind, hservers, ok_bind]
    exact herr.bind _

/-- The call once its arguments are parsed. -/
theorem sealEncrypt_parsed (pkg : ObjectID) {servers : List ObjectID} (pks : IBEPublicKeys c)
    (hlen : servers.length ≤ 255) :
    sealEncrypt api bcs rng (idBytes pkg) id (servers.map idBytes) (pks.map g2Bytes) threshold
        data demType aad = (do
      let (eo, demKey) ← mapFail (fun e => .runtimeError (api.errorToString e))
        (PysuiCrypto.sealEncrypt c rng pkg id servers pks threshold
          (encryptionInput demType data aad))
      let eoBytes ← mapErr .runtimeError (bcs.toBytes (encryptedObjectFormat c) eo)
      .ok (eoBytes, if demType = .plain then some demKey.toList else none)) := by
  have hservers := (parses_objectId hbcs).mapM.spell servers
  have hpks := (parses_g2 hbcs hg2).mapM.spell pks
  rw [sealEncrypt, if_neg (by simpa using hlen)]
  change (parseObjectId bcs pkg.bytes.toList >>= _) = _
  rw [(parses_objectId hbcs).spell pkg, ok_bind]
  change ((servers.map fun s => s.bytes.toList).mapM (parseObjectId bcs) >>= _) = _
  rw [hservers, ok_bind]
  change ((pks.map fun g => (c.g2ToByteArray g).toList).mapM (parseG2 c bcs) >>= _) = _
  rw [hpks, ok_bind]

omit hg2 in
theorem toBytes_encryptedObject_iff {o : EncryptedObject c} {eo : List UInt8} :
    bcs.toBytes (encryptedObjectFormat c) o = .ok eo ↔ o.WithinLimits ∧ eo = o.wire :=
  (hbcs.toBytes_ok _ _ _).trans (encryptedObjectFormat_spells o eo)

variable {pkg : ObjectID} {servers : List ObjectID} {pks : IBEPublicKeys c} {n : ℕ}

omit hbcs hg2 in
/-- Arguments that describe a sharing are encrypted to an object, which is within the limits of
the format when the arguments are. -/
theorem sealEncrypt_satisfiable (htag : c.AesTagLength n) (pkg : ObjectID)
    (h : Satisfiable servers pks threshold) (input : EncryptionInput) :
    ∃ o k, PysuiCrypto.sealEncrypt c rng pkg id servers pks threshold input = .ok (o, k) ∧
      (o.WithinLimits ↔ id.length ≤ maxSequenceLength ∧ input.WithinLimits n) := by
  obtain ⟨o, r, P, hok, hserv, ⟨-, rfl, -, hct⟩, he⟩ := PysuiCrypto.sealEncrypt_ok rng pkg id pks
    input h.length_le (toNat_pos_iff.mp h.pos) h.le_length h.publicKeys
  refine ⟨o, _, hok, ?_⟩
  have hservices := he.services_le
  have hshares := he.aligned
  rw [← encrypt_withinLimits_iff htag input, ← hct]
  constructor
  · intro ho
    exact ⟨ho.id, ho.ciphertext⟩
  · rintro ⟨hid, hcipher⟩
    refine ⟨hid, ?_, ?_, hcipher⟩ <;> simp only [maxSequenceLength] <;> omega

omit hbcs hg2 in
/-- The encryptable arguments, after parsing. -/
theorem encryptable_iff (hlen : servers.length ≤ 255) {input : EncryptionInput} :
    Encryptable n id (servers.map idBytes) (pks.map g2Bytes) threshold input ↔
      Satisfiable servers pks threshold ∧ id.length ≤ maxSequenceLength ∧
        input.WithinLimits n := by
  constructor
  · rintro ⟨hpos, hle, hpks, hid, hinput⟩
    exact ⟨⟨hpos, by simpa using hle, hlen, by simpa using hpks⟩, hid, hinput⟩
  · rintro ⟨⟨hpos, hle, -, hpks⟩, hid, hinput⟩
    exact ⟨hpos, by simpa using hle, by simpa using hpks, hid, hinput⟩

variable (api) in
theorem sealEncrypt_encryptable (htag : c.AesTagLength n)
    (hwf : WellFormed c packageId keyServers publicKeys)
    (h : Encryptable n id keyServers publicKeys threshold (encryptionInput demType data aad)) :
    ∃ out, sealEncrypt api bcs rng packageId id keyServers publicKeys threshold data demType aad =
      .ok out := by
  obtain ⟨pkg, servers, pks, hlen, rfl, rfl, rfl⟩ := wellFormed_iff.mp hwf
  obtain ⟨hsat, hlimits⟩ := (encryptable_iff id threshold hlen).mp h
  obtain ⟨o, k, hok, ho⟩ := sealEncrypt_satisfiable rng id threshold htag pkg hsat
    (encryptionInput demType data aad)
  have hbytes := (toBytes_encryptedObject_iff hbcs).mpr ⟨ho.mpr hlimits, rfl⟩
  rw [sealEncrypt_parsed hbcs hg2 rng id threshold data demType aad pkg pks hlen]
  simp only [hok, mapFail_ok, ok_bind, hbytes]
  exact ⟨_, rfl⟩

variable (api) in
theorem sealEncrypt_not_encryptable (htag : c.AesTagLength n)
    (hwf : WellFormed c packageId keyServers publicKeys)
    (h : ¬ Encryptable n id keyServers publicKeys threshold (encryptionInput demType data aad)) :
    RaisesRuntimeError (sealEncrypt api bcs rng packageId id keyServers publicKeys threshold data
      demType aad) := by
  obtain ⟨pkg, servers, pks, hlen, rfl, rfl, rfl⟩ := wellFormed_iff.mp hwf
  rw [encryptable_iff id threshold hlen] at h
  rw [sealEncrypt_parsed hbcs hg2 rng id threshold data demType aad pkg pks hlen]
  by_cases hsat : Satisfiable servers pks threshold
  · obtain ⟨o, k, hok, ho⟩ := sealEncrypt_satisfiable rng id threshold htag pkg hsat
      (encryptionInput demType data aad)
    obtain ⟨e, he⟩ := mapErr_of_ne_ok .runtimeError
      (r := bcs.toBytes (encryptedObjectFormat c) o)
      fun eo heo => h ⟨hsat, ho.mp ((toBytes_encryptedObject_iff hbcs).mp heo).1⟩
    simp only [hok, mapFail_ok, ok_bind, he]
    exact ⟨_, rfl⟩
  · rw [sealEncrypt_fail rng pkg id pks _ hsat (by omega), mapFail_fail]
    exact ⟨_, rfl⟩

/-- The exported encryption returns exactly for arguments that parse and can be encrypted, it
raises `ValueError` exactly for arguments that do not parse, and `RuntimeError` exactly for the
others. So no arguments make it panic. -/
theorem sealEncrypt_outcome (htag : c.AesTagLength n) :
    ((∃ out, sealEncrypt api bcs rng packageId id keyServers publicKeys threshold data demType
        aad = .ok out) ↔ WellFormed c packageId keyServers publicKeys ∧
      Encryptable n id keyServers publicKeys threshold (encryptionInput demType data aad)) ∧
    (RaisesValueError (sealEncrypt api bcs rng packageId id keyServers publicKeys threshold data
        demType aad) ↔ ¬ WellFormed c packageId keyServers publicKeys) ∧
    (RaisesRuntimeError (sealEncrypt api bcs rng packageId id keyServers publicKeys threshold data
        demType aad) ↔ WellFormed c packageId keyServers publicKeys ∧
      ¬ Encryptable n id keyServers publicKeys threshold (encryptionInput demType data aad)) := by
  by_cases hwf : WellFormed c packageId keyServers publicKeys
  swap
  · have herr := sealEncrypt_malformed api hbcs hg2 rng packageId id keyServers publicKeys
      threshold data demType aad hwf
    exact ⟨⟨fun ⟨out, hout⟩ => absurd hout (herr.ne_ok out), fun h => absurd h.1 hwf⟩,
      iff_of_true herr hwf,
      ⟨fun hrun => absurd herr hrun.not_valueError, fun h => absurd h.1 hwf⟩⟩
  by_cases h : Encryptable n id keyServers publicKeys threshold (encryptionInput demType data aad)
  · obtain ⟨out, hout⟩ := sealEncrypt_encryptable api hbcs hg2 rng packageId id keyServers
      publicKeys threshold data demType aad htag hwf h
    exact ⟨iff_of_true ⟨out, hout⟩ ⟨hwf, h⟩,
      iff_of_false (fun herr => herr.ne_ok out hout) (not_not.mpr hwf),
      iff_of_false (fun herr => herr.ne_ok out hout) fun hn => hn.2 h⟩
  · have hrun := sealEncrypt_not_encryptable api hbcs hg2 rng packageId id keyServers
      publicKeys threshold data demType aad htag hwf h
    exact ⟨iff_of_false (fun ⟨out, hout⟩ => hrun.ne_ok out hout) fun hn => h hn.2,
      iff_of_false hrun.not_valueError (not_not.mpr hwf), iff_of_true hrun ⟨hwf, h⟩⟩

omit hbcs hg2

theorem sealEncrypt_outcome_example :
    (∃ out, sealEncrypt (exponentApi true) specBcs exampleTape (idBytes (exampleId 0)) [1, 2, 3, 4]
      (exampleServers.map idBytes) (examplePublicKeys.map g2Bytes) 2 [72, 105] .hmac256Ctr
      (some [7]) = .ok out) ∧
    RaisesValueError (sealEncrypt (exponentApi true) specBcs exampleTape [] [1, 2, 3, 4]
      (exampleServers.map idBytes) (examplePublicKeys.map g2Bytes) 2 [72, 105] .hmac256Ctr
      (some [7])) ∧
    RaisesRuntimeError (sealEncrypt (exponentApi true) specBcs exampleTape (idBytes (exampleId 0))
      [1, 2, 3, 4] (exampleServers.map idBytes) (examplePublicKeys.map g2Bytes) 4 [72, 105]
      .hmac256Ctr (some [7])) := by
  have hwf : WellFormed (exponentPlatform true) (idBytes (exampleId 0))
      (exampleServers.map idBytes) (examplePublicKeys.map g2Bytes) :=
    wellFormed_iff.mpr ⟨_, _, _, by decide, rfl, rfl, rfl⟩
  have hpks : (examplePublicKeys.map g2Bytes).length = (exampleServers.map idBytes).length := by
    simp only [List.length_map]
    rfl
  have h (packageId : List UInt8) (threshold : UInt8) :=
    @sealEncrypt_outcome _ _ _ (exponentApi true) specBcs specBcs_followsSpec
      (exponentPlatform_g2Codec true) exampleTape packageId [1, 2, 3, 4]
      (exampleServers.map idBytes) (examplePublicKeys.map g2Bytes) threshold [72, 105] .hmac256Ctr
      (some [7]) _ (exponentPlatform_aesTagLength true)
  refine ⟨(h _ 2).1.mpr ⟨hwf, by decide, by simp; decide, hpks, by decide, by decide, ?_⟩,
    (h _ 2).2.1.mpr fun hn => ?_, (h _ 4).2.2.mpr ⟨hwf, fun hn => ?_⟩⟩
  · simp [maxSequenceLength]
  · exact absurd hn.packageId (by decide)
  · exact absurd hn.le_length (by simp; decide)

end Bindings

end PysuiCrypto
