import PysuiCrypto.BindingOutcomes

/-!
# Round trips of the exported functions

What the returned bytes describe, that the exported decryption gives the message back, and that
a user secret key reaches its reader through ElGamal encryption.
-/
namespace PysuiCrypto.Bindings

open Outcome BcsFormat

variable {c : Platform} {api : FastCryptoApi c} {bcs : Bcs}

/-- The bytes of an element of `G1`. -/
def g1Bytes (g : c.G1) : List UInt8 := (c.g1ToByteArray g).toList

/-- The bytes of a scalar. -/
def scalarBytes (s : c.Scalar) : List UInt8 := (c.scalarToByteArray s).toList

theorem lookup_foldl_insert (pairs : List (ObjectID × c.G1)) (m : IBEUserSecretKeys c)
    (s : ObjectID) :
    (pairs.foldl (fun m p => m.insert p.1 p.2) m).lookup s =
      ((pairs.reverse.find? fun p => p.1 = s).map Prod.snd).or (m.lookup s) := by
  induction pairs generalizing m with
  | nil => rfl
  | cons p pairs ih =>
    rw [List.foldl_cons, ih, List.reverse_cons, List.find?_append]
    cases pairs.reverse.find? fun p => p.1 = s with
    | some q => rfl
    | none =>
      rcases eq_or_ne p.1 s with rfl | hne
      · simp [AList.lookup_insert]
      · simp [hne, AList.lookup_insert_ne hne.symm]

/-- The map holds the last key given for an id. -/
theorem lookup_collectMap (pairs : List (ObjectID × c.G1)) (s : ObjectID) :
    (collectMap pairs).lookup s = (pairs.reverse.find? fun p => p.1 = s).map Prod.snd := by
  rw [collectMap, lookup_foldl_insert, AList.lookup_empty, Option.or_none]

theorem mem_of_lookup_collectMap {pairs : List (ObjectID × c.G1)} {s : ObjectID} {usk : c.G1}
    (h : (collectMap pairs).lookup s = some usk) : (s, usk) ∈ pairs := by
  rw [lookup_collectMap, Option.map_eq_some_iff] at h
  obtain ⟨⟨s', usk'⟩, hfind, rfl⟩ := h
  obtain rfl : s' = s := by simpa using List.find?_some hfind
  exact List.mem_reverse.mp (List.mem_of_find?_eq_some hfind)

theorem mem_collectMap {pairs : List (ObjectID × c.G1)} {s : ObjectID} :
    s ∈ collectMap pairs ↔ s ∈ pairs.map Prod.fst := by
  rw [← AList.lookup_isSome, lookup_collectMap, Option.isSome_map, List.find?_isSome]
  simp

variable (hbcs : bcs.FollowsSpec) (hg2 : c.G2Codec)
include hbcs hg2

variable {R : Type} [AllowedRng R] {rng : R} {packageId id : List UInt8}
  {keyServers publicKeys : List (List UInt8)} {threshold : UInt8} {data : List UInt8}
  {demType : DemType} {aad : Option (List UInt8)} {eo : List UInt8} {key : Option (List UInt8)}

/-- What a successful call parsed, encrypted and wrote. -/
theorem sealEncrypt_inv (h : sealEncrypt api bcs rng packageId id keyServers publicKeys threshold
    data demType aad = .ok (eo, key)) :
    ∃ (pkg : ObjectID) (servers : List ObjectID) (pks : IBEPublicKeys c) (o : EncryptedObject c)
      (k : Key), packageId = idBytes pkg ∧ keyServers = servers.map idBytes ∧
      publicKeys = pks.map g2Bytes ∧ servers.length ≤ 255 ∧
      PysuiCrypto.sealEncrypt c rng pkg id servers pks threshold
        (encryptionInput demType data aad) = .ok (o, k) ∧ o.WithinLimits ∧ eo = o.wire ∧
      key = if demType = .plain then some k.toList else none := by
  have hwf : WellFormed c packageId keyServers publicKeys := by
    by_contra hn
    exact (sealEncrypt_malformed _ hbcs hg2 rng packageId id keyServers publicKeys threshold data
      demType aad hn).ne_ok _ h
  obtain ⟨pkg, servers, pks, hlen, rfl, rfl, rfl⟩ := wellFormed_iff.mp hwf
  rw [sealEncrypt_parsed hbcs hg2 rng id threshold data demType aad pkg pks hlen] at h
  obtain ⟨⟨o, k⟩, hcore, h⟩ := bind_eq_ok.mp h
  obtain ⟨bytes, hbytes, h⟩ := bind_eq_ok.mp h
  obtain ⟨rfl, rfl⟩ := Prod.mk.inj (Except.ok.inj h)
  obtain ⟨hlimits, rfl⟩ := (toBytes_encryptedObject_iff hbcs).mp (mapErr_eq_ok.mp hbytes)
  exact ⟨pkg, servers, pks, o, k, rfl, rfl, rfl, hlen, mapFail_eq_ok.mp hcore, hlimits, rfl, rfl⟩

omit hbcs hg2 in
/-- Within 255 servers, only arguments that describe a sharing are encrypted. -/
theorem satisfiable_of_sealEncrypt {servers : List ObjectID} {pks : IBEPublicKeys c}
    {pkg : ObjectID} {input : EncryptionInput} {o : EncryptedObject c} {k : Key}
    (hlen : servers.length ≤ 255)
    (h : PysuiCrypto.sealEncrypt c rng pkg id servers pks threshold input = .ok (o, k)) :
    Satisfiable servers pks threshold := by
  by_contra hn
  exact ne_ok_of_fail (sealEncrypt_fail rng pkg id pks input hn (by omega)) _ h

omit hbcs in
theorem g2Bytes_injective : Function.Injective (g2Bytes (c := c)) := by
  intro g g' h
  have hbytes : c.g2ToByteArray g = c.g2ToByteArray g' := Vector.toList_inj.mp h
  have hdec := hg2.decode_encode g
  rw [hbytes, hg2.decode_encode] at hdec
  exact (Except.ok.inj hdec).symm

omit hbcs hg2 in
theorem idBytes_injective : Function.Injective idBytes := by
  intro s s' h
  cases s
  cases s'
  exact congrArg ObjectID.mk (Vector.toList_inj.mp h)

/-- The returned bytes parse to an object that is written back as they are. It describes the
arguments: the package id, the inner id, the threshold, every key server in order with the
indices from one, and the mode. A key is returned in the plain mode only. -/
theorem sealEncrypt_describes (h : sealEncrypt api bcs rng packageId id keyServers publicKeys
    threshold data demType aad = .ok (eo, key)) :
    ∃ o : PyEncryptedObject c, PyEncryptedObject.parse bcs eo = .ok o ∧ o.toBytes bcs = .ok eo ∧
      o.version = 0 ∧ o.packageId = packageId ∧ o.id = id ∧ o.threshold = threshold ∧
      o.services = keyServers.zip
        ((List.range keyServers.length).map fun i => UInt8.ofNat (i + 1)) ∧
      o.demType = demType ∧ (key.isSome ↔ demType = .plain) := by
  obtain ⟨pkg, servers, pks, o, k, rfl, rfl, rfl, hlen, hcore, hlimits, rfl, rfl⟩ :=
    sealEncrypt_inv hbcs hg2 h
  have hsat := satisfiable_of_sealEncrypt hlen hcore
  obtain ⟨o', r, P, hok, hserv, ⟨hpkg, hid, hthr, hct⟩, he⟩ := sealEncrypt_ok rng pkg id pks
    (encryptionInput demType data aad) hlen (toNat_pos_iff.mp hsat.pos) hsat.le_length
    hsat.publicKeys
  obtain ⟨rfl, -⟩ := Prod.mk.inj (Except.ok.inj (hcore.symm.trans hok))
  have hbytes := (toBytes_encryptedObject_iff hbcs).mpr ⟨hlimits, rfl⟩
  have hparse := (fromBytes_iff hbcs (encryptedObjectFormat_lawful hg2)
    encryptedObjectFormat_spells).mpr ⟨hlimits, rfl⟩
  refine ⟨⟨o⟩, by simp [PyEncryptedObject.parse, hparse],
    by simp [PyEncryptedObject.toBytes, hbytes], he.version,
    congrArg idBytes hpkg, hid, hthr, ?_, ?_, ?_⟩
  · simp only [PyEncryptedObject.services, hserv, List.zip_map_left, List.length_map]
    rfl
  · simp only [PyEncryptedObject.demType, hct]
    cases demType <;> rfl
  · split_ifs with hplain <;> simp [hplain]

variable (hg1 : api.G1Codec)
include hg1

/-- The bytes of an id and of a user secret key. -/
def pairBytes (p : ObjectID × c.G1) : List UInt8 × List UInt8 := Prod.map idBytes g1Bytes p

/-- The call once its arguments are parsed. -/
theorem sealDecrypt_parsed {o : EncryptedObject c} (ho : o.WithinLimits)
    (pairs : List (ObjectID × c.G1)) (pks : Option (IBEPublicKeys c)) :
    sealDecrypt api bcs o.wire (pairs.map pairBytes) (pks.map (List.map g2Bytes)) =
      mapFail (fun e => .runtimeError (api.errorToString e))
        (PysuiCrypto.sealDecrypt o (collectMap pairs) pks) := by
  have hparse := (fromBytes_iff hbcs (encryptedObjectFormat_lawful hg2)
    encryptedObjectFormat_spells).mpr ⟨ho, rfl⟩
  have hpairs : (pairs.map pairBytes).mapM (parseUserSecretKey api bcs) = .ok pairs :=
    (parses_userSecretKey hbcs hg1).mapM.spell pairs
  have hpks : parsePublicKeys c bcs (pks.map (List.map g2Bytes)) = .ok pks :=
    (parses_publicKeys hbcs hg2).spell pks
  rw [sealDecrypt, mapErr_eq_ok.mpr hparse, ok_bind, hpairs, ok_bind, hpks, ok_bind]

omit hbcs hg2 hg1 in
/-- Pairs that parse spell ids and user secret keys. -/
theorem exists_pairBytes {usks : List (List UInt8 × List UInt8)} :
    (∃ pairs : List (ObjectID × c.G1), usks = pairs.map pairBytes) ↔
      ∀ p ∈ usks, p.1.length = 32 ∧ ∃ g : c.G1, p.2 = g1Bytes g := by
  rw [exists_map]
  refine forall₂_congr fun p _ => ?_
  rw [← exists_idBytes]
  constructor
  · rintro ⟨⟨s, g⟩, rfl⟩
    exact ⟨⟨s, rfl⟩, g, rfl⟩
  · rintro ⟨⟨s, hs⟩, g, hg⟩
    exact ⟨(s, g), Prod.ext hs hg⟩

omit hbcs hg2 in
theorem g1Bytes_injective : Function.Injective (g1Bytes (c := c)) := by
  intro g g' h
  have hbytes : c.g1ToByteArray g = c.g1ToByteArray g' := Vector.toList_inj.mp h
  have hdec := hg1.decode_encode g
  rw [hbytes, hg1.decode_encode] at hdec
  exact (Except.ok.inj hdec).symm

omit hbcs hg2 hg1 in
theorem length_filter_idBytes (servers : List ObjectID) (pairs : List (ObjectID × c.G1)) :
    ((servers.map idBytes).filter fun s => s ∈ (pairs.map pairBytes).map Prod.fst).length =
      (servers.filter fun s => s ∈ collectMap pairs).length := by
  rw [List.filter_map, List.length_map]
  congr 1
  apply List.filter_congr
  intro s _
  simp only [Function.comp_apply, mem_collectMap, List.map_map, decide_eq_decide]
  have hfst : (pairs.map (Prod.fst ∘ pairBytes)) = (pairs.map Prod.fst).map idBytes := by
    rw [List.map_map]
    rfl
  rw [hfst, List.mem_map_of_injective idBytes_injective]

omit hbcs hg2 hg1 in
/-- Pairs whose keys verify under the public keys of the listed servers are correct keys. -/
theorem correctKeys_collectMap {o : EncryptedObject c} {servers : List ObjectID}
    {pks : IBEPublicKeys c} {pairs : List (ObjectID × c.G1)}
    (hservers : o.services.map Prod.fst = servers)
    (hverified : ∀ (i : ℕ) s pk usk, servers[i]? = some s → pks[i]? = some pk →
      (s, usk) ∈ pairs → Ibe.verifyUserSecretKey c usk o.fullId pk = .ok ()) :
    o.CorrectKeys pks (collectMap pairs) := by
  intro i s usk pk hs husk hpk
  have hserver : servers[i]? = some s.1 := by rw [← hservers, List.getElem?_map, hs]; rfl
  exact hverified i s.1 pk usk hserver hpk (mem_of_lookup_collectMap husk)

/-- Pairs whose keys verify, for as many key servers as the threshold, decrypt. -/
theorem sealDecrypt_pairs (hround : c.ScalarRoundTrip) (haes : c.AesRoundTrip) {pkg : ObjectID}
    {servers : List ObjectID} {pks : IBEPublicKeys c} {pairs : List (ObjectID × c.G1)}
    (h : sealEncrypt api bcs rng (idBytes pkg) id (servers.map idBytes) (pks.map g2Bytes) threshold
      data demType aad = .ok (eo, key))
    (henough : threshold.toNat ≤ (servers.filter fun s => s ∈ pairs.map Prod.fst).length)
    (hverified : ∀ (i : ℕ) s pk usk, servers[i]? = some s → pks[i]? = some pk →
      (s, usk) ∈ pairs → Ibe.verifyUserSecretKey c usk (idBytes pkg ++ id) pk = .ok ()) :
    ∃ m, sealDecrypt api bcs eo (pairs.map pairBytes) none = .ok m ∧
      sealDecrypt api bcs eo (pairs.map pairBytes) (some (pks.map g2Bytes)) = .ok m ∧
      if demType = .plain then key = some m else m = data ∧ key = none := by
  obtain ⟨pkg', servers', pks', o, k, hpkg, hservers, hpks, hlen, hcore, hlimits, rfl, rfl⟩ :=
    sealEncrypt_inv hbcs hg2 h
  obtain rfl := idBytes_injective hpkg
  obtain rfl := List.map_injective_iff.mpr idBytes_injective hservers
  obtain rfl := List.map_injective_iff.mpr (g2Bytes_injective hg2) hpks
  have hsat := satisfiable_of_sealEncrypt hlen hcore
  obtain ⟨o', r, P, hok, hserv, ⟨rfl, rfl, hthr, hct⟩, he⟩ := sealEncrypt_ok rng pkg id pks
    (encryptionInput demType data aad) hlen (toNat_pos_iff.mp hsat.pos) hsat.le_length
    hsat.publicKeys
  obtain ⟨rfl, rfl⟩ := Prod.mk.inj (Except.ok.inj (hcore.symm.trans hok))
  have hids : o.services.map Prod.fst = servers := by
    rw [hserv]
    exact List.map_fst_zip (by simp)
  have hM : o.threshold.toNat ≤ (o.covered (collectMap pairs)).length := by
    simpa only [hthr, EncryptedObject.length_covered, hids, mem_collectMap] using henough
  obtain ⟨hnone, hsome⟩ :=
    he.sealDecrypt_ok hround haes hct hM (correctKeys_collectMap hids hverified)
  have hnone' := sealDecrypt_parsed hbcs hg2 hg1 hlimits pairs none
  have hsome' := sealDecrypt_parsed hbcs hg2 hg1 hlimits pairs (some pks)
  rw [hnone, mapFail_ok, Option.map_none] at hnone'
  rw [hsome, mapFail_ok, Option.map_some] at hsome'
  refine ⟨_, hnone', hsome', ?_⟩
  cases demType <;> simp [encryptionInput, EncryptionInput.plaintext]

/-- The check of a user secret key, on the bytes of its arguments. -/
theorem verifyUserSecretKey_eq_ok {fullId : List UInt8} {usk : c.G1} {pk : c.G2} :
    verifyUserSecretKey api bcs (g1Bytes usk) fullId (g2Bytes pk) = .ok () ↔
      Ibe.verifyUserSecretKey c usk fullId pk = .ok () := by
  have husk : parseG1 api bcs (g1Bytes usk) = .ok usk := (parses_g1 hbcs hg1).spell usk
  have hpk : parseG2 c bcs (g2Bytes pk) = .ok pk := (parses_g2 hbcs hg2).spell pk
  rw [verifyUserSecretKey, husk, ok_bind, hpk, ok_bind, mapFail_eq_ok]

/-- What the exported encryption returns, the exported decryption reads back: pairs of ids and
user secret keys that pass the exported verification, for as many of the key servers as the
threshold, in any order, with repetitions and with keys of other servers, give the data, or in
the plain mode the returned key, with and without the public keys. -/
theorem sealDecrypt_of_sealEncrypt (hround : c.ScalarRoundTrip) (haes : c.AesRoundTrip)
    (h : sealEncrypt api bcs rng packageId id keyServers publicKeys threshold data demType aad =
      .ok (eo, key)) (usks : List (List UInt8 × List UInt8))
    (hparse : ∀ p ∈ usks, p.1.length = 32 ∧ ∃ g : c.G1, p.2 = g1Bytes g)
    (henough : threshold.toNat ≤ (keyServers.filter fun s => s ∈ usks.map Prod.fst).length)
    (hverified : ∀ (i : ℕ) s pk usk, keyServers[i]? = some s → publicKeys[i]? = some pk →
      (s, usk) ∈ usks → verifyUserSecretKey api bcs usk (packageId ++ id) pk = .ok ()) :
    ∃ m, sealDecrypt api bcs eo usks none = .ok m ∧
      sealDecrypt api bcs eo usks (some publicKeys) = .ok m ∧
      if demType = .plain then key = some m else m = data ∧ key = none := by
  obtain ⟨pkg, servers, pks, -, -, rfl, rfl, rfl, -⟩ := sealEncrypt_inv hbcs hg2 h
  obtain ⟨pairs, rfl⟩ := exists_pairBytes.mpr hparse
  refine sealDecrypt_pairs hbcs hg2 hg1 hround haes h ?_ ?_
  · rw [length_filter_idBytes] at henough
    simpa only [mem_collectMap] using henough
  · intro i s pk usk hs hpk hmem
    refine (verifyUserSecretKey_eq_ok hbcs hg2 hg1).mp (hverified i (idBytes s) (g2Bytes pk)
      (g1Bytes usk) ?_ ?_ (List.mem_map_of_mem (f := pairBytes) hmem))
    · rw [List.getElem?_map, hs, Option.map_some]
    · rw [List.getElem?_map, hpk, Option.map_some]

/-- The arguments of the exported decryption that parse. -/
structure Decodable (c : Platform) (eo : List UInt8) (usks : List (List UInt8 × List UInt8))
    (publicKeys : Option (List (List UInt8))) : Prop where
  object : ∃ o : EncryptedObject c, o.WithinLimits ∧ eo = o.wire
  userSecretKeys : ∀ p ∈ usks, p.1.length = 32 ∧ ∃ g : c.G1, p.2 = g1Bytes g
  publicKeys : ∀ pks, publicKeys = some pks → ∀ pk ∈ pks, ∃ g : c.G2, pk = g2Bytes g

omit hbcs hg2 hg1 in
theorem decodable_iff {usks : List (List UInt8 × List UInt8)}
    {publicKeys : Option (List (List UInt8))} :
    Decodable c eo usks publicKeys ↔ ∃ (o : EncryptedObject c) (pairs : List (ObjectID × c.G1))
      (pks : Option (IBEPublicKeys c)), o.WithinLimits ∧ eo = o.wire ∧
        usks = pairs.map pairBytes ∧ publicKeys = pks.map (List.map g2Bytes) := by
  constructor
  · rintro ⟨⟨o, ho, rfl⟩, husks, hpks⟩
    obtain ⟨pairs, rfl⟩ := exists_pairBytes.mpr husks
    cases publicKeys with
    | none => exact ⟨o, pairs, none, ho, rfl, rfl, rfl⟩
    | some pks =>
      obtain ⟨gs, rfl⟩ := exists_map.mpr (hpks pks rfl)
      exact ⟨o, pairs, some gs, ho, rfl, rfl, rfl⟩
  · rintro ⟨o, pairs, pks, ho, rfl, rfl, rfl⟩
    refine ⟨⟨o, ho, rfl⟩, exists_pairBytes.mp ⟨pairs, rfl⟩, fun bytes hbytes => ?_⟩
    obtain ⟨gs, rfl, rfl⟩ := Option.map_eq_some_iff.mp hbytes
    exact exists_map.mp ⟨gs, rfl⟩

theorem sealDecrypt_undecodable {usks : List (List UInt8 × List UInt8)}
    {publicKeys : Option (List (List UInt8))} (h : ¬ Decodable c eo usks publicKeys) :
    RaisesValueError (sealDecrypt api bcs eo usks publicKeys) := by
  by_cases ho : ∃ o : EncryptedObject c, bcs.fromBytes (encryptedObjectFormat c) eo = .ok o
  swap
  · obtain ⟨e, he⟩ := mapErr_of_ne_ok .valueError fun o hn => ho ⟨o, hn⟩
    rw [sealDecrypt, he]
    exact ⟨e, rfl⟩
  obtain ⟨o, ho⟩ := ho
  obtain ⟨hlimits, rfl⟩ := (fromBytes_iff hbcs (encryptedObjectFormat_lawful hg2)
    encryptedObjectFormat_spells).mp ho
  rw [sealDecrypt, mapErr_eq_ok.mpr ho, ok_bind]
  rcases (parses_userSecretKey hbcs hg1).mapM.ok_or usks with ⟨pairs, rfl, hpairs⟩ | ⟨-, herr⟩
  swap
  · exact herr.bind _
  rcases (parses_publicKeys hbcs hg2).ok_or publicKeys with ⟨pks, rfl, -⟩ | ⟨-, herr⟩
  · exact absurd (decodable_iff.mpr ⟨o, pairs, pks, hlimits, rfl, rfl, rfl⟩) h
  · rw [hpairs, ok_bind]
    exact herr.bind _

/-- The exported decryption of arbitrary bytes under arbitrary pairs and public keys returns,
raises `ValueError`, which it does exactly when an argument does not parse, or raises
`RuntimeError`; it never panics. With public keys it accepts nothing that it rejects without. -/
theorem sealDecrypt_outcome (eo : List UInt8) (usks : List (List UInt8 × List UInt8))
    (publicKeys : Option (List (List UInt8))) :
    (RaisesValueError (sealDecrypt api bcs eo usks publicKeys) ↔
      ¬ Decodable c eo usks publicKeys) ∧
    ((∃ m, sealDecrypt api bcs eo usks publicKeys = .ok m) ∨
      RaisesValueError (sealDecrypt api bcs eo usks publicKeys) ∨
      RaisesRuntimeError (sealDecrypt api bcs eo usks publicKeys)) ∧
    ∀ m, sealDecrypt api bcs eo usks publicKeys = .ok m →
      sealDecrypt api bcs eo usks none = .ok m := by
  by_cases h : Decodable c eo usks publicKeys
  swap
  · have herr := sealDecrypt_undecodable hbcs hg2 hg1 h
    exact ⟨iff_of_true herr h, .inr (.inl herr), fun m hm => absurd hm (herr.ne_ok m)⟩
  obtain ⟨o, pairs, pks, ho, rfl, rfl, rfl⟩ := decodable_iff.mp h
  have hnone := sealDecrypt_parsed hbcs hg2 hg1 ho pairs none
  rw [Option.map_none] at hnone
  rw [sealDecrypt_parsed hbcs hg2 hg1 ho pairs pks, hnone]
  have hreturns : Returns (PysuiCrypto.sealDecrypt o (collectMap pairs) pks) := returns_sealDecrypt
  rcases hreturns.ok_or_fail with
    ⟨m, hm⟩ | ⟨e, he⟩
  · rw [hm, mapFail_ok]
    refine ⟨iff_of_false (fun herr => herr.ne_ok m rfl) (not_not.mpr h), .inl ⟨m, rfl⟩, ?_⟩
    rintro m' hm'
    obtain rfl := Except.ok.inj hm'
    cases pks with
    | none => rw [hm, mapFail_ok]
    | some pks =>
      obtain ⟨b, hb, hdec⟩ := sealDecrypt_eq_ok.mp hm
      rw [sealDecrypt_eq_ok.mpr ⟨b, recoverBaseKey_none_of_some hb, hdec⟩, mapFail_ok]
  · rw [he, mapFail_fail]
    have hrun : RaisesRuntimeError (fail (.runtimeError (api.errorToString e)) :
      PyResult (List UInt8)) := ⟨_, rfl⟩
    exact ⟨iff_of_false hrun.not_valueError (not_not.mpr h), .inr (.inr hrun),
      fun m hm => absurd hm (hrun.ne_ok m)⟩

omit hbcs hg2 hg1

/-- Two of the three key servers answer. -/
def examplePairs : List (ObjectID × (exponentPlatform true).G1) :=
  [(exampleId 3, ((11 : ℕ) : (exponentPlatform true).Scalar)), (exampleId 1, (5 : ℕ))].map fun p =>
    (p.1, Ibe.extract (exponentPlatform true) p.2 (idBytes (exampleId 0) ++ [1, 2, 3, 4]))

theorem examplePairs_verified : ∀ (i : ℕ) s pk usk, exampleServers[i]? = some s →
    examplePublicKeys[i]? = some pk → (s, usk) ∈ examplePairs →
    Ibe.verifyUserSecretKey (exponentPlatform true) usk (idBytes (exampleId 0) ++ [1, 2, 3, 4]) pk =
      .ok () := by
  intro i s pk usk hs hpk hmem
  simp only [examplePairs, List.map_cons, List.map_nil, List.mem_cons, List.not_mem_nil,
    or_false, Prod.mk.injEq] at hmem
  match i with
  | 0 =>
    obtain rfl := Option.some.inj hs
    obtain rfl := Option.some.inj hpk
    rcases hmem with ⟨hne, -⟩ | ⟨-, rfl⟩
    · exact absurd hne (by decide)
    · exact Ibe.verifyUserSecretKey_extract _ _
  | 1 =>
    obtain rfl := Option.some.inj hs
    rcases hmem with ⟨hne, -⟩ | ⟨hne, -⟩ <;> exact absurd hne (by decide)
  | 2 =>
    obtain rfl := Option.some.inj hs
    obtain rfl := Option.some.inj hpk
    rcases hmem with ⟨-, rfl⟩ | ⟨hne, -⟩
    · exact Ibe.verifyUserSecretKey_extract _ _
    · exact absurd hne (by decide)
  | i + 3 => cases hs

/-- The call that the examples make. -/
def exampleCall (demType : DemType) : PyResult (List UInt8 × Option (List UInt8)) :=
  sealEncrypt (exponentApi true) specBcs exampleTape (idBytes (exampleId 0)) [1, 2, 3, 4]
    (exampleServers.map idBytes) (examplePublicKeys.map g2Bytes) 2 [72, 105] demType (some [7])

theorem exampleCall_ok (demType : DemType) : ∃ out, exampleCall demType = .ok out := by
  refine sealEncrypt_encryptable _ specBcs_followsSpec (exponentPlatform_g2Codec true) _ _ _ _ _ _ _
    _ _ (exponentPlatform_aesTagLength true)
    (wellFormed_iff.mpr ⟨_, _, _, by decide, rfl, rfl, rfl⟩)
    ⟨by decide, by simp; decide, ?_, by decide, ?_⟩
  · simp only [List.length_map]
    rfl
  · cases demType <;> simp [encryptionInput, EncryptionInput.WithinLimits, maxSequenceLength]

/-- Two keys decrypt the object of the call, no keys are too few, and a key of no bytes does not
parse. -/
theorem sealDecrypt_outcome_example :
    ∃ (eo : List UInt8) (key : Option (List UInt8)), exampleCall .hmac256Ctr = .ok (eo, key) ∧
      sealDecrypt (exponentApi true) specBcs eo (examplePairs.map pairBytes) none = .ok [72, 105] ∧
      RaisesRuntimeError (sealDecrypt (exponentApi true) specBcs eo [] none) ∧
      RaisesValueError (sealDecrypt (exponentApi true) specBcs eo [([], [])] none) := by
  have hg2 := exponentPlatform_g2Codec true
  have hg1 := exponentApi_g1Codec true
  obtain ⟨⟨eo, key⟩, h⟩ := exampleCall_ok .hmac256Ctr
  obtain ⟨m, -, hsome, hm⟩ := sealDecrypt_pairs specBcs_followsSpec hg2 hg1
    (exponentPlatform_scalarRoundTrip true) (exponentPlatform_aesRoundTrip true) h (by decide)
    examplePairs_verified
  rw [if_neg (by decide)] at hm
  obtain ⟨rfl, -⟩ := hm
  have houtcome := sealDecrypt_outcome specBcs_followsSpec hg2 hg1 eo
  obtain ⟨pkg, servers, pks, o, k, -, -, -, -, hcore, hlimits, rfl, -⟩ :=
    sealEncrypt_inv specBcs_followsSpec hg2 h
  refine ⟨_, key, h, (houtcome _ _).2.2 _ hsome, ?_, (houtcome _ none).1.mpr fun hd => ?_⟩
  · have hparsed := sealDecrypt_parsed specBcs_followsSpec hg2 hg1 hlimits [] none
    have hdecodable : Decodable (exponentPlatform true) o.wire [] none :=
      ⟨⟨o, hlimits, rfl⟩, nofun, nofun⟩
    rcases (houtcome [] none).2.1 with ⟨m, hm⟩ | herr | hrun
    · obtain ⟨b, hb, -⟩ := sealDecrypt_eq_ok.mp (mapFail_eq_ok.mp (hparsed.symm.trans hm))
      have henough := (EncryptedObject.recoverBaseKey_spec hb).1.enough
      rw [(PysuiCrypto.sealEncrypt_inv hcore).1, EncryptedObject.length_covered] at henough
      simp [mem_collectMap] at henough
    · exact absurd hdecodable ((houtcome [] none).1.mp herr)
    · exact hrun
  · exact absurd (hd.userSecretKeys ([], []) (by simp)).1 (by decide)

theorem sealEncrypt_describes_example :
    ∃ (eo : List UInt8) (key : Option (List UInt8)), exampleCall .plain = .ok (eo, key) ∧
      ∃ o : PyEncryptedObject (exponentPlatform true),
        PyEncryptedObject.parse specBcs eo = .ok o ∧ o.threshold = 2 ∧ o.demType = .plain ∧
          key.isSome := by
  obtain ⟨⟨eo, key⟩, h⟩ := exampleCall_ok .plain
  obtain ⟨o, hparse, -, -, -, -, hthr, -, hdem, hkey⟩ := sealEncrypt_describes specBcs_followsSpec
    (exponentPlatform_g2Codec true) h
  exact ⟨eo, key, h, o, hparse, hthr, hdem, hkey.mpr rfl⟩

theorem sealDecrypt_of_sealEncrypt_example :
    ∃ (eo : List UInt8) (key : Option (List UInt8)), exampleCall .hmac256Ctr = .ok (eo, key) ∧
      sealDecrypt (exponentApi true) specBcs eo (examplePairs.map pairBytes) none =
        .ok [72, 105] := by
  obtain ⟨⟨eo, key⟩, h⟩ := exampleCall_ok .hmac256Ctr
  obtain ⟨m, hnone, -, hm⟩ := sealDecrypt_of_sealEncrypt specBcs_followsSpec
    (exponentPlatform_g2Codec true) (exponentApi_g1Codec true)
    (exponentPlatform_scalarRoundTrip true) (exponentPlatform_aesRoundTrip true) h
    (examplePairs.map pairBytes) (exists_pairBytes.mp ⟨examplePairs, rfl⟩) (by decide) (by
      intro i s pk usk hs hpk hmem
      rw [List.getElem?_map, Option.map_eq_some_iff] at hs hpk
      obtain ⟨s, hs, rfl⟩ := hs
      obtain ⟨pk, hpk, rfl⟩ := hpk
      obtain ⟨⟨s', g⟩, hp, heq⟩ := List.mem_map.mp hmem
      obtain ⟨hid, rfl⟩ := Prod.mk.inj heq
      obtain rfl := idBytes_injective hid
      exact (verifyUserSecretKey_eq_ok specBcs_followsSpec (exponentPlatform_g2Codec true)
        (exponentApi_g1Codec true)).mpr (examplePairs_verified i s' pk g hs hpk hp))
  rw [if_neg (by decide)] at hm
  obtain ⟨rfl, -⟩ := hm
  exact ⟨eo, key, h, hnone⟩

end PysuiCrypto.Bindings
