import PysuiCrypto.Decrypt
import PysuiCrypto.ExponentPlatform

/-!
# What encryption produces

For at most 255 key servers, one public key each and a threshold within their number,
encryption returns an object whose shares lie on polynomials through the base key. The number
of servers is reduced modulo 256, so lists of more servers are examined as well: some of them
pass the checks and are then truncated.
-/
namespace PysuiCrypto

open Outcome EncryptedObject

variable {c : Platform}

/-- What the encryptor knows of an object: the base key, the randomness and the polynomials of
the sharing. -/
structure Encrypted (o : EncryptedObject c) (pks : IBEPublicKeys c) (baseKey : Key)
    (r : c.Scalar) (P : Fin 32 → Polynomial GF256) : Prop where
  version : o.version = 0
  aligned : o.encryptedShares.encryptedShares.length = o.services.length
  publicKeys : pks.length = o.services.length
  indices : o.services.map Prod.snd =
    (List.range o.services.length).map fun i => UInt8.ofNat (i + 1)
  threshold_pos : o.threshold ≠ 0
  threshold_le : o.threshold.toNat ≤ o.services.length
  services_le : o.services.length ≤ 255
  nonce : o.encryptedShares.nonce = r • c.g2Generator
  randomness : Ibe.encryptRandomness c r (o.derivedKey .encryptedRandomness baseKey) =
    .ok o.encryptedShares.encryptedRandomness
  zero : Tss.evalAt P 0 = baseKey
  degree : ∀ b, (P b).degree < o.threshold.toNat
  lie : o.SharesLieOn pks r P

variable {R : Type} [AllowedRng R] (rng : R) (packageId : ObjectID) (id : List UInt8)
  {keyServers : List ObjectID} (pks : IBEPublicKeys c) {threshold : UInt8}
  (input : EncryptionInput)

/-- The base key that encryption draws first. -/
def drawnKey : Key := (generateRandomBytes 32 rng).1

/-- The first check of encryption. -/
theorem sealEncrypt_fail_threshold
    (h : UInt8.ofNat keyServers.length < threshold ∨ threshold = 0) :
    sealEncrypt c rng packageId id keyServers pks threshold input = fail .invalidInput := if_pos h

/-- What remains once the threshold is accepted, for the values that the generator draws. -/
theorem sealEncrypt_eq (ht : threshold ≠ 0) (htn : threshold ≤ UInt8.ofNat keyServers.length) :
    ∃ (rows : List (List GF256)) (r : c.Scalar),
      (∀ row ∈ rows, row.length = threshold.toNat - 1) ∧
      sealEncrypt c rng packageId id keyServers pks threshold input =
        if pks.length ≠ (UInt8.ofNat keyServers.length).toNat then fail .invalidInput
        else sealWithRandomness c r (drawnKey rng)
          ((Tss.shareIndices (UInt8.ofNat keyServers.length)).map
            (Tss.evalAt (Tss.splitPolys (drawnKey rng) rows))) packageId id keyServers
          (keyServers.zip (Tss.shareIndices (UInt8.ofNat keyServers.length))) pks threshold
          input := by
  refine ⟨(Tss.drawRows (threshold.toNat - 1) 32 (generateRandomBytes 32 rng).2).1,
    (c.scalarRand (Tss.drawRows (threshold.toNat - 1) 32 (generateRandomBytes 32 rng).2).2).1,
    fun row => Tss.length_of_mem_drawRows, ?_⟩
  have hcond : ¬ (UInt8.ofNat keyServers.length < threshold ∨ threshold = 0) := by
    simp [ht, UInt8.not_lt.mpr htn]
  rw [sealEncrypt, if_neg hcond]
  simp only [Tss.split_ok _ _ (show (32 : ℕ) ≠ 0 by omega) ht htn, ok_bind]
  rfl

/-- With one share and one public key for every service, and the services' own servers, the
object is built and its keys are those that it derives itself. -/
theorem sealWithRandomness_ok (threshold : UInt8) (r : c.Scalar) (baseKey : Key) {shares : List Key}
    {services : List Info} (hpks : shares.length = pks.length)
    (hservices : shares.length = services.length)
    (hservers : services.map Prod.fst = keyServers) :
    ∃ o : EncryptedObject c,
      sealWithRandomness c r baseKey shares packageId id keyServers services pks threshold
        input = .ok (o, o.derivedKey .dem baseKey) ∧
      (o.version = 0 ∧ o.packageId = packageId ∧ o.id = id ∧ o.services = services ∧
        o.threshold = threshold ∧ o.ciphertext = input.encrypt c (o.derivedKey .dem baseKey)) ∧
      o.encryptedShares.encryptedShares.length = services.length ∧
      o.encryptedShares.nonce = r • c.g2Generator ∧
      Ibe.encryptRandomness c r (o.derivedKey .encryptedRandomness baseKey) =
        .ok o.encryptedShares.encryptedRandomness ∧
      ∀ (i : ℕ) pk ciphertext s, pks[i]? = some pk →
        o.encryptedShares.encryptedShares[i]? = some ciphertext → services[i]? = some s →
        shares[i]? = some (o.serverShare r pk ciphertext s) := by
  obtain ⟨ciphertexts, hbatch, hlen, hunmask⟩ :=
    Ibe.encryptBatched_ok r (createFullId packageId.bytes id) hpks hservices
  have haligned : ciphertexts.length = keyServers.length := by
    rw [hlen, hservices, ← hservers, List.length_map]
  subst hservers
  let key (purpose : KeyPurpose) : Key :=
    c.sha3_256 (deriveKeyInput purpose baseKey ciphertexts threshold (services.map Prod.fst))
  let masked : Key :=
    Vector.zipWith (· ^^^ ·) (key .encryptedRandomness) (c.scalarToByteArray r)
  refine ⟨⟨0, packageId, id, services, threshold, ⟨r • c.g2Generator, ciphertexts, masked⟩,
    input.encrypt c (key .dem)⟩, ?_, ⟨rfl, rfl, rfl, rfl, rfl, rfl⟩, by rw [hlen, hservices], rfl,
    Ibe.encryptRandomness_eq r _, ?_⟩
  · rw [sealWithRandomness, hbatch, ok_bind]
    simp only [deriveKey_of_length haligned, ok_bind, Ibe.encryptRandomness_eq]
    rfl
  · intro i pk ciphertext s hpk hct hs
    obtain ⟨pk', s', share, hpk', hs', hshare, rfl⟩ := hunmask i ciphertext hct
    rw [hpk, Option.some_inj] at hpk'
    rw [hs, Option.some_inj] at hs'
    rw [hshare, ← hpk', ← hs']
    rfl

theorem deriveKey_eq_ok {purpose : KeyPurpose} {baseKey k : Key} {shares : List Key}
    (h : deriveKey c purpose baseKey shares threshold keyServers = .ok k) :
    k = c.sha3_256 (deriveKeyInput purpose baseKey shares threshold keyServers) := by
  rw [deriveKey] at h
  split_ifs at h
  · cases h
  · exact (Except.ok.inj h).symm

variable {rng packageId id pks input} in
/-- What any successful encryption returns, also for too many servers. -/
theorem sealEncrypt_inv {o : EncryptedObject c} {k : Key}
    (h : sealEncrypt c rng packageId id keyServers pks threshold input = .ok (o, k)) :
    o.threshold = threshold ∧ o.ciphertext = input.encrypt c k ∧
      k = c.sha3_256 (deriveKeyInput .dem (drawnKey rng) o.encryptedShares.encryptedShares
        threshold keyServers) ∧
      ∃ r, r • c.g2Generator = o.encryptedShares.nonce ∧
        Ibe.encryptRandomness c r (c.sha3_256 (deriveKeyInput .encryptedRandomness (drawnKey rng)
          o.encryptedShares.encryptedShares threshold keyServers)) =
            .ok o.encryptedShares.encryptedRandomness := by
  by_cases hthr : UInt8.ofNat keyServers.length < threshold ∨ threshold = 0
  · rw [sealEncrypt_fail_threshold rng packageId id pks input hthr] at h
    cases h
  · obtain ⟨hlt, ht⟩ := not_or.mp hthr
    obtain ⟨rows, r, -, heq⟩ := sealEncrypt_eq rng packageId id pks input ht (UInt8.not_lt.mp hlt)
    rw [heq] at h
    split_ifs at h
    · cases h
    · obtain ⟨⟨nonce, ciphertexts⟩, hbatch, h⟩ := bind_eq_ok.mp h
      obtain ⟨randomnessKey, hkey, h⟩ := bind_eq_ok.mp h
      obtain ⟨masked, hmask, h⟩ := bind_eq_ok.mp h
      obtain ⟨demKey, hdem, h⟩ := bind_eq_ok.mp h
      obtain ⟨rfl, rfl⟩ := Prod.mk.inj (Except.ok.inj h)
      obtain rfl := deriveKey_eq_ok hkey
      exact ⟨rfl, rfl, deriveKey_eq_ok hdem, r, (Ibe.encryptBatched_nonce hbatch).symm, hmask⟩

theorem threshold_le_iff {n : ℕ} (hn : n ≤ 255) {t : UInt8} :
    t ≤ UInt8.ofNat n ↔ t.toNat ≤ n := by
  rw [UInt8.le_iff_toNat_le, UInt8.toNat_ofNat_of_lt' (Nat.lt_succ_of_le hn)]

/-- The sharing and the encryption of a satisfiable configuration. -/
theorem sealEncrypt_ok (hlen : keyServers.length ≤ 255) (ht : threshold ≠ 0)
    (htn : threshold.toNat ≤ keyServers.length) (hpks : pks.length = keyServers.length) :
    ∃ (o : EncryptedObject c) (r : c.Scalar) (P : Fin 32 → Polynomial GF256),
      sealEncrypt c rng packageId id keyServers pks threshold input =
        .ok (o, o.derivedKey .dem (drawnKey rng)) ∧
      o.services = keyServers.zip ((List.range keyServers.length).map fun i => UInt8.ofNat (i + 1)) ∧
      (o.packageId = packageId ∧ o.id = id ∧ o.threshold = threshold ∧
        o.ciphertext = input.encrypt c (o.derivedKey .dem (drawnKey rng))) ∧
      Encrypted o pks (drawnKey rng) r P := by
  have hcount : (UInt8.ofNat keyServers.length).toNat = keyServers.length :=
    UInt8.toNat_ofNat_of_lt' (Nat.lt_succ_of_le hlen)
  have hindices : Tss.shareIndices (UInt8.ofNat keyServers.length) =
      (List.range keyServers.length).map fun i => UInt8.ofNat (i + 1) := by
    rw [Tss.shareIndices, hcount]
  obtain ⟨rows, r, hrows, heq⟩ :=
    sealEncrypt_eq rng packageId id pks input ht ((threshold_le_iff hlen).mpr htn)
  rw [hindices] at heq
  set indices := (List.range keyServers.length).map fun i => UInt8.ofNat (i + 1)
  have hin : indices.length = keyServers.length := by simp [indices]
  set P := Tss.splitPolys (drawnKey rng) rows
  have hservices : (indices.map (Tss.evalAt P)).length = (keyServers.zip indices).length := by
    simp [hin]
  obtain ⟨o, hok, ⟨hver, hpkg, hid, hserv, hthr, hct⟩, hcts, hnonce, hrand, hshare⟩ :=
    sealWithRandomness_ok packageId id pks input threshold r (drawnKey rng)
      (show (indices.map (Tss.evalAt P)).length = pks.length by simp [hin, hpks]) hservices
      (List.map_fst_zip hin.ge)
  have hservlen : o.services.length = keyServers.length := by rw [hserv, ← hservices]; simp [hin]
  refine ⟨o, r, P, ?_, hserv, ⟨hpkg, hid, hthr, hct⟩, {
    version := hver
    aligned := by rw [hcts, hserv]
    publicKeys := by rw [hpks, hservlen]
    indices := by rw [hservlen, hserv, List.map_snd_zip hin.le]
    threshold_pos := by rwa [hthr]
    threshold_le := by rwa [hthr, hservlen]
    services_le := by rwa [hservlen]
    nonce := hnonce
    randomness := hrand
    zero := Tss.evalAt_splitPolys_zero _ _
    degree := fun b => ?_
    lie := fun i pk ciphertext s hpk hct hs => ?_ }⟩
  · rw [heq, if_neg (by rw [hcount, hpks]; simp), hok]
  · have hpos := toNat_pos_iff.mpr ht
    have hdeg := Tss.degree_splitPolys_lt (drawnKey rng) hrows b
    rwa [Nat.sub_add_cancel (by omega), ← hthr] at hdeg
  · rw [hserv] at hs
    have hi := hshare i pk ciphertext s hpk hct hs
    rw [List.getElem?_map, (List.getElem?_zip_eq_some.mp hs).2, Option.map_some,
      Option.some_inj] at hi
    exact hi

/-- With more than 255 servers whose number passes the checks modulo 256, the derivation of a
key sees fewer shares than servers: an assertion fails, or without assertions an object for a
part of the servers is returned. -/
theorem sealEncrypt_overflow (hlen : 255 < keyServers.length) (ht : threshold ≠ 0)
    (htn : threshold ≤ UInt8.ofNat keyServers.length)
    (hpks : pks.length = keyServers.length % 256) :
    (c.debugAssertions → sealEncrypt c rng packageId id keyServers pks threshold input =
        abort "assertion `left == right` failed") ∧
      (¬ c.debugAssertions → ∃ o k,
        sealEncrypt c rng packageId id keyServers pks threshold input = .ok (o, k) ∧
          o.services.length = keyServers.length % 256) := by
  have hcount : (UInt8.ofNat keyServers.length).toNat = keyServers.length % 256 :=
    UInt8.toNat_ofNat'
  obtain ⟨rows, r, -, heq⟩ := sealEncrypt_eq rng packageId id pks input ht htn
  set shares := (Tss.shareIndices (UInt8.ofNat keyServers.length)).map
    (Tss.evalAt (Tss.splitPolys (drawnKey rng) rows))
  set services := keyServers.zip (Tss.shareIndices (UInt8.ofNat keyServers.length))
  have hshares : shares.length = pks.length := by simp [shares, hpks]
  have hservices : services.length = keyServers.length % 256 := by
    simp only [services, List.length_zip, Tss.length_shareIndices, hcount]
    omega
  obtain ⟨ciphertexts, hbatch, hcts, -⟩ := Ibe.encryptBatched_ok r
    (createFullId packageId.bytes id) hshares (by rw [hshares, hpks, hservices])
  have hshort : ciphertexts.length ≠ keyServers.length := by
    rw [hcts, hshares, hpks]
    omega
  rw [heq, if_neg (by rw [hcount, hpks]; simp), sealWithRandomness, hbatch, ok_bind]
  constructor
  · intro hd
    simp [deriveKey, hd, hshort, abort]
  · intro hd
    simp [deriveKey, hd, Ibe.encryptRandomness_eq, hservices]

theorem sealEncrypt_fail_publicKeys (ht : threshold ≠ 0)
    (htn : threshold ≤ UInt8.ofNat keyServers.length)
    (hpks : pks.length ≠ keyServers.length % 256) :
    sealEncrypt c rng packageId id keyServers pks threshold input = fail .invalidInput := by
  obtain ⟨rows, r, -, heq⟩ := sealEncrypt_eq rng packageId id pks input ht htn
  rw [heq, if_pos (by rwa [UInt8.toNat_ofNat'])]

/-- The configurations that a sharing can satisfy. -/
structure Satisfiable (keyServers : List ObjectID) (pks : IBEPublicKeys c) (threshold : UInt8) :
    Prop where
  pos : 1 ≤ threshold.toNat
  le_length : threshold.toNat ≤ keyServers.length
  length_le : keyServers.length ≤ 255
  publicKeys : pks.length = keyServers.length

/-- The object keeps every server, in order and with the indices from one, has one encrypted
share for each and the requested threshold; and its randomness mask and its key are derived
from the server list that decryption recomputes. -/
def KeepsServers (keyServers : List ObjectID) (threshold : UInt8) (o : EncryptedObject c)
    (k : Key) : Prop :=
  o.services = keyServers.zip ((List.range keyServers.length).map fun i => UInt8.ofNat (i + 1)) ∧
  o.encryptedShares.encryptedShares.length = keyServers.length ∧ o.threshold = threshold ∧
  o.services.map Prod.fst = keyServers ∧
  ∃ (baseKey randomnessKey : Key) (r : c.Scalar),
    deriveKey c .encryptedRandomness baseKey o.encryptedShares.encryptedShares o.threshold
      (o.services.map Prod.fst) = .ok randomnessKey ∧
    Ibe.encryptRandomness c r randomnessKey = .ok o.encryptedShares.encryptedRandomness ∧
    o.demKey baseKey = .ok k

theorem keepsServers_of_satisfiable (h : Satisfiable keyServers pks threshold) :
    ∃ o k, sealEncrypt c rng packageId id keyServers pks threshold input = .ok (o, k) ∧
      KeepsServers keyServers threshold o k := by
  have ht : threshold ≠ 0 := toNat_pos_iff.mp h.pos
  obtain ⟨o, r, P, hok, hserv, ⟨-, -, hthr, -⟩, he⟩ :=
    sealEncrypt_ok rng packageId id pks input h.length_le ht h.le_length h.publicKeys
  have hservers : o.services.map Prod.fst = keyServers := by
    rw [hserv]
    exact List.map_fst_zip (by simp)
  have hlen : o.services.length = keyServers.length := by rw [← hservers, List.length_map]
  exact ⟨o, _, hok, hserv, by rw [he.aligned, hlen], hthr, hservers, drawnKey rng, _, r,
    deriveKey_of_length (aligned_ids he.aligned), he.randomness, demKey_ok he.aligned _⟩

theorem sealEncrypt_fail (h : ¬ Satisfiable keyServers pks threshold)
    (hno : ¬ (255 < keyServers.length ∧ 1 ≤ threshold.toNat ∧
      threshold.toNat ≤ keyServers.length % 256 ∧ pks.length = keyServers.length % 256)) :
    sealEncrypt c rng packageId id keyServers pks threshold input = fail .invalidInput := by
  have hcount : (UInt8.ofNat keyServers.length).toNat = keyServers.length % 256 :=
    UInt8.toNat_ofNat'
  by_cases hthr : UInt8.ofNat keyServers.length < threshold ∨ threshold = 0
  · exact sealEncrypt_fail_threshold rng packageId id pks input hthr
  · obtain ⟨hlt, ht⟩ := not_or.mp hthr
    have htn := UInt8.not_lt.mp hlt
    have hpos := toNat_pos_iff.mpr ht
    have hle : threshold.toNat ≤ keyServers.length % 256 := by
      rwa [UInt8.le_iff_toNat_le, hcount] at htn
    refine sealEncrypt_fail_publicKeys rng packageId id pks input ht htn fun hpks => ?_
    rcases Nat.lt_or_ge 255 keyServers.length with hlen | hlen
    · exact hno ⟨hlen, by omega, hle, hpks⟩
    · rw [Nat.mod_eq_of_lt (by omega)] at hle hpks
      exact h ⟨by omega, hle, hlen, hpks⟩

/-- Encryption accepts exactly the satisfiable configurations, drops no server, and answers
every other configuration with an error: this holds unless there are more than 255 servers
while the threshold and the number of public keys fit their number modulo 256. -/
theorem sealEncrypt_accepts_iff (rng : R) (packageId : ObjectID) (id : List UInt8)
    (keyServers : List ObjectID) (pks : IBEPublicKeys c) (threshold : UInt8)
    (input : EncryptionInput) :
    (((∃ o k, sealEncrypt c rng packageId id keyServers pks threshold input = .ok (o, k)) ↔
        Satisfiable keyServers pks threshold) ∧
      (∀ o k, sealEncrypt c rng packageId id keyServers pks threshold input = .ok (o, k) →
        KeepsServers keyServers threshold o k) ∧
      (¬ Satisfiable keyServers pks threshold →
        ∃ e, sealEncrypt c rng packageId id keyServers pks threshold input = fail e)) ↔
    ¬ (255 < keyServers.length ∧ 1 ≤ threshold.toNat ∧
        threshold.toNat ≤ keyServers.length % 256 ∧ pks.length = keyServers.length % 256) := by
  constructor
  · rintro ⟨-, -, herr⟩ ⟨hlen, hpos, hle, hpks⟩
    obtain ⟨e, he⟩ := herr fun h => absurd h.length_le (by omega)
    have ht : threshold ≠ 0 := toNat_pos_iff.mp hpos
    have htn : threshold ≤ UInt8.ofNat keyServers.length := by
      rwa [UInt8.le_iff_toNat_le, UInt8.toNat_ofNat']
    obtain ⟨hdebug, hrelease⟩ := sealEncrypt_overflow rng packageId id pks input hlen ht htn hpks
    by_cases hd : c.debugAssertions
    · rw [hdebug hd] at he
      cases he
    · obtain ⟨o, k, hok, -⟩ := hrelease hd
      exact ne_ok_of_fail he _ hok
  · intro hno
    by_cases h : Satisfiable keyServers pks threshold
    · obtain ⟨o, k, hok, hkeeps⟩ := keepsServers_of_satisfiable rng packageId id pks input h
      refine ⟨⟨fun _ => h, fun _ => ⟨o, k, hok⟩⟩, fun o' k' hok' => ?_, absurd h⟩
      obtain ⟨rfl, rfl⟩ := Prod.mk.inj (Except.ok.inj (hok.symm.trans hok'))
      exact hkeeps
    · have hfail := sealEncrypt_fail rng packageId id pks input h hno
      refine ⟨⟨?_, fun h' => absurd h' h⟩, ?_, fun _ => ⟨_, hfail⟩⟩
      · rintro ⟨o, k, hok⟩
        exact absurd hok (ne_ok_of_fail hfail _)
      · intro o k hok
        exact absurd hok (ne_ok_of_fail hfail _)

/-- One server, listed 257 times. -/
def manyServers : List ObjectID := List.replicate 257 ⟨Vector.replicate 32 1⟩

theorem length_manyServers : manyServers.length = 257 := List.length_replicate

/-- A list of 257 servers with one public key and threshold one: a panic with debug assertions,
and without them an object with a single service. -/
theorem sealEncrypt_manyServers :
    ¬ Satisfiable manyServers [(exponentPlatform true).g2Generator] 1 ∧
      sealEncrypt (exponentPlatform true) ([] : List UInt8) ⟨Vector.replicate 32 0⟩ [] manyServers
        [(exponentPlatform true).g2Generator] 1 .plain =
          abort "assertion `left == right` failed" ∧
      ∃ o k, sealEncrypt (exponentPlatform false) ([] : List UInt8) ⟨Vector.replicate 32 0⟩ []
        manyServers [(exponentPlatform false).g2Generator] 1 .plain = .ok (o, k) ∧
          o.services.length = 1 := by
  have hlen : 255 < manyServers.length := by rw [length_manyServers]; decide
  have htn : 1 ≤ UInt8.ofNat manyServers.length := by rw [length_manyServers]; decide
  have hmod : manyServers.length % 256 = 1 := by rw [length_manyServers]
  obtain ⟨hdebug, -⟩ := sealEncrypt_overflow ([] : List UInt8) ⟨Vector.replicate 32 0⟩ []
    [(exponentPlatform true).g2Generator] .plain hlen (by decide) htn hmod.symm
  obtain ⟨-, hrelease⟩ := sealEncrypt_overflow ([] : List UInt8) ⟨Vector.replicate 32 0⟩ []
    [(exponentPlatform false).g2Generator] .plain hlen (by decide) htn hmod.symm
  obtain ⟨o, k, hok, hservices⟩ := hrelease Bool.false_ne_true
  exact ⟨fun h => absurd h.length_le (by omega), hdebug rfl, o, k, hok, hservices.trans hmod⟩

end PysuiCrypto
