import PysuiCrypto.Byzantine
import PysuiCrypto.KeyTransport
import PysuiCrypto.Runs

/-!
# The workflow of threshold encryption

The steps of the demonstration script as a system. A sender has published an object for some key
servers; the servers answer the readers with encrypted user secret keys; a reader decrypts the
answers, collects the keys and decrypts the object under the public keys. The network loses,
repeats, reorders and forges messages. Servers that do not follow the protocol have no step of
their own: what they send is forged. The object is arbitrary bytes at first, from a sender that
may be dishonest, and then the result of an encryption.
-/
namespace PysuiCrypto.Workflow

open Outcome Bindings

structure KeyServer (c : Platform) where
  id : ObjectID
  publicKey : c.G2
  /-- Present when the server follows the protocol. -/
  masterKey : Option c.Scalar
  publicKey_eq : ∀ mk, masterKey = some mk → publicKey = Ibe.publicKeyFromMasterKey c mk

structure Message where
  server : List UInt8
  encryptedKey : List UInt8

/-- What is fixed when the run starts: the published object, which may be anything, the key pairs
of the readers, and which readers verify the keys that they collect. -/
structure Setting {c : Platform} (api : FastCryptoApi c) (bcs : Bcs) (R ι : Type)
    [AllowedRng R] where
  servers : List (KeyServer c)
  packageId : ObjectID
  id : List UInt8
  encryptedObject : List UInt8
  keypair : ι → ElgamalKeypair
  generated : ∀ j, ∃ rng : R, generateElgamalKeypair api bcs rng = .ok (keypair j)
  verifies : ι → Bool

structure Sealed {c : Platform} (api : FastCryptoApi c) (bcs : Bcs) (R ι : Type)
    [AllowedRng R] extends Setting api bcs R ι where
  threshold : UInt8
  data : List UInt8
  demType : DemType
  aad : Option (List UInt8)
  demKey : Option (List UInt8)
  encrypted : ∃ rng : R, Bindings.sealEncrypt api bcs rng (idBytes packageId) id
    ((servers.map KeyServer.id).map idBytes) ((servers.map KeyServer.publicKey).map g2Bytes)
    threshold data demType aad = .ok (encryptedObject, demKey)

structure State (ι : Type) where
  network : List Message
  collected : ι → List (List UInt8 × List UInt8)
  output : ι → Option (List UInt8)

def State.initial {ι : Type} : State ι := ⟨[], fun _ => [], fun _ => none⟩

inductive Action (R ι : Type)
  | respond (server : ℕ) (reader : ι) (rng : R)
  | forge (message : Message)
  | lose (position : ℕ)
  /-- A reader handles a message, which stays on the network. -/
  | receive (reader : ι) (position : ℕ)
  | decrypt (reader : ι)

variable {c : Platform} {api : FastCryptoApi c} {bcs : Bcs} {R ι : Type} [AllowedRng R]

namespace Setting

variable (w : Setting api bcs R ι)

def publicKeys : List (List UInt8) := (w.servers.map KeyServer.publicKey).map g2Bytes

def fullId : List UInt8 := idBytes w.packageId ++ w.id

def response (server : ℕ) (reader : ι) (rng : R) : Option Message := do
  let s ← w.servers[server]?
  let mk ← s.masterKey
  let encryptedKey ←
    (serverResponse api bcs rng mk w.fullId (w.keypair reader).publicKey).toOption
  some ⟨idBytes s.id, encryptedKey⟩

def verified (server usk : List UInt8) : Bool :=
  w.servers.any (fun s => idBytes s.id = server) && w.servers.all fun s =>
    idBytes s.id ≠ server ∨ (verifyUserSecretKey api bcs usk w.fullId (g2Bytes s.publicKey)).isOk

def readKey (reader : ι) (m : Message) : Option (List UInt8) := do
  let usk ← (elgamalDecrypt api bcs (w.keypair reader).secretKey m.encryptedKey).toOption
  if w.verifies reader && !w.verified m.server usk then none else some usk

def tryDecrypt (usks : List (List UInt8 × List UInt8)) : Option (List UInt8) :=
  (Bindings.sealDecrypt api bcs w.encryptedObject usks (some w.publicKeys)).toOption

variable [DecidableEq ι]

def step (s : State ι) : Action R ι → State ι
  | .respond server reader rng =>
    match w.response server reader rng with
    | some m => { s with network := m :: s.network }
    | none => s
  | .forge m => { s with network := m :: s.network }
  | .lose position => { s with network := s.network.eraseIdx position }
  | .receive reader position =>
    match s.network[position]? with
    | some m =>
      match w.readKey reader m with
      | some usk =>
        let pairs := s.collected reader ++ [(m.server, usk)]
        { s with collected := Function.update s.collected reader pairs }
      | none => s
    | none => s
  | .decrypt reader =>
    match w.tryDecrypt (s.collected reader) with
    | some m => { s with output := Function.update s.output reader (some m) }
    | none => s

theorem step_collected (s : State ι) (a : Action R ι) (j : ι) :
    (w.step s a).collected j = s.collected j ∨ ∃ m usk, w.readKey j m = some usk ∧
      (w.step s a).collected j = s.collected j ++ [(m.server, usk)] := by
  cases a with
  | respond server reader rng =>
    simp only [step]
    split <;> exact .inl rfl
  | forge m => exact .inl rfl
  | lose position => exact .inl rfl
  | receive reader position =>
    simp only [step]
    split
    · next m _ =>
      split
      · next usk husk =>
        rcases eq_or_ne j reader with rfl | hne
        · exact .inr ⟨m, usk, husk, Function.update_self ..⟩
        · exact .inl (Function.update_of_ne hne ..)
      · exact .inl rfl
    · exact .inl rfl
  | decrypt reader =>
    simp only [step]
    split <;> exact .inl rfl

theorem step_output (s : State ι) (a : Action R ι) (j : ι) :
    (w.step s a).output j = s.output j ∨ ∃ m, w.tryDecrypt (s.collected j) = some m ∧
      (w.step s a).output j = some m := by
  cases a with
  | respond server reader rng =>
    simp only [step]
    split <;> exact .inl rfl
  | forge m => exact .inl rfl
  | lose position => exact .inl rfl
  | receive reader position =>
    simp only [step]
    split
    · split <;> exact .inl rfl
    · exact .inl rfl
  | decrypt reader =>
    simp only [step]
    split
    · next m hm =>
      rcases eq_or_ne j reader with rfl | hne
      · exact .inr ⟨m, hm, Function.update_self ..⟩
      · exact .inl (Function.update_of_ne hne ..)
    · exact .inl rfl

variable {w}

theorem collected_subset_step (s : State ι) (a : Action R ι) (j : ι) :
    s.collected j ⊆ (w.step s a).collected j := by
  rcases w.step_collected s a j with h | ⟨m, usk, -, h⟩
  · rw [h]
    exact List.Subset.refl _
  · rw [h]
    exact List.subset_append_left _ _

variable (w) in
def Decrypted (s : State ι) : Prop :=
  ∀ j m, s.output j = some m → ∃ usks, w.tryDecrypt usks = some m

theorem toOption_eq_some {ε α : Type} {x : Except ε α} {a : α} :
    x.toOption = some a ↔ x = .ok a := by
  cases x <;> simp [Except.toOption]

omit [DecidableEq ι] in
theorem tryDecrypt_unique (hinj : c.NonceInjective) {usks usks' : List (List UInt8 × List UInt8)}
    {m m' : List UInt8} (hm : w.tryDecrypt usks = some m) (hm' : w.tryDecrypt usks' = some m') :
    m = m' :=
  sealDecrypt_publicKeys_unique hinj (toOption_eq_some.mp hm) (toOption_eq_some.mp hm')

omit [DecidableEq ι] in
theorem decrypted_initial : w.Decrypted State.initial := by
  intro j m hm
  cases hm

theorem decrypted_step (s : State ι) (a : Action R ι) (hs : w.Decrypted s) :
    w.Decrypted (w.step s a) := by
  intro j m hm
  rcases w.step_output s a j with hout | ⟨m', hdec, hout⟩
  · exact hs j m (hout ▸ hm)
  · rw [hout, Option.some_inj] at hm
    exact ⟨_, hm ▸ hdec⟩

theorem output_stable (hinj : c.NonceInjective) {s t : State ι} (hs : w.Decrypted s)
    (hst : Reaches w.step s t) {j : ι} {m : List UInt8} (hm : s.output j = some m) :
    t.output j = some m := by
  obtain ⟨usks, hdec⟩ := hs j m hm
  refine hst.invariant (I := fun u => u.output j = some m) (fun u a hu => ?_) hm
  rcases w.step_output u a j with hout | ⟨m', hdec', hout⟩
  · rwa [hout]
  · rw [hout, tryDecrypt_unique hinj hdec' hdec]

/-- For an object of any origin, in every state of every run and whether or not the readers
verify keys, no two readers ever have different outputs, and no output is ever replaced. So a
dishonest sender can keep a message from some readers only, not give two of them different
messages. -/
theorem outputs_agree (hinj : c.NonceInjective) (w : Setting api bcs R ι) {s t : State ι}
    (hs : Reaches w.step State.initial s) (hst : Reaches w.step s t) :
    (∀ j j' m m', s.output j = some m → t.output j' = some m' → m = m') ∧
    ∀ j m, s.output j = some m → t.output j = some m := by
  have hdec : w.Decrypted s := hs.invariant decrypted_step decrypted_initial
  have hdec' : w.Decrypted t := hst.invariant decrypted_step hdec
  refine ⟨fun j j' m m' hm hm' => ?_, fun j m hm => output_stable hinj hdec hst hm⟩
  obtain ⟨usks, husks⟩ := hdec j m hm
  obtain ⟨usks', husks'⟩ := hdec' j' m' hm'
  exact tryDecrypt_unique hinj husks husks'

end Setting

/-- What the results rest on: the codecs, the nonces and the cipher. -/
structure Assumptions (api : FastCryptoApi c) (bcs : Bcs) : Prop where
  bcs : bcs.FollowsSpec
  g1 : api.G1Codec
  g2 : c.G2Codec
  scalarRoundTrip : c.ScalarRoundTrip
  scalarCanonical : c.ScalarCanonical
  nonceInjective : c.NonceInjective
  aesRoundTrip : c.AesRoundTrip

namespace Setting

variable {w : Setting api bcs R ι} [DecidableEq ι]

variable (w) in
/-- A pair of a server id and a key that verifies under the keys published for this server. -/
def Genuine (p : List UInt8 × List UInt8) : Prop :=
  ∃ (id : ObjectID) (g : c.G1), p = pairBytes (id, g) ∧ ∀ s ∈ w.servers, s.id = id →
    Ibe.verifyUserSecretKey c g w.fullId s.publicKey = .ok ()

theorem isOk_iff {ε : Type} {x : Except ε Unit} : x.isOk = true ↔ x = .ok () := by
  cases x <;> simp [Except.isOk, Except.toBool]

omit [DecidableEq ι] in
theorem verified_iff {server usk : List UInt8} : w.verified server usk = true ↔
    (∃ s ∈ w.servers, idBytes s.id = server) ∧ ∀ s ∈ w.servers, idBytes s.id = server →
      verifyUserSecretKey api bcs usk w.fullId (g2Bytes s.publicKey) = .ok () := by
  simp only [verified, Bool.and_eq_true, List.any_eq_true, List.all_eq_true, decide_eq_true_eq,
    isOk_iff, Decidable.imp_iff_not_or]

omit [DecidableEq ι] in
theorem genuine_of_readKey (h : Assumptions api bcs) {j : ι} (hj : w.verifies j) {m : Message}
    {usk : List UInt8} (hread : w.readKey j m = some usk) : w.Genuine (m.server, usk) := by
  obtain ⟨usk', hdec, hread⟩ := Option.bind_eq_some_iff.mp hread
  rw [hj, Bool.true_and] at hread
  split_ifs at hread with hver
  obtain rfl := Option.some.inj hread
  obtain ⟨sk, a, b, -, -, rfl⟩ := (elgamalDecrypt_eq_ok h.bcs h.g1 h.scalarRoundTrip
    h.scalarCanonical).mp (toOption_eq_some.mp hdec)
  rw [Bool.not_eq_true, Bool.not_eq_false', verified_iff] at hver
  obtain ⟨⟨srv, -, hid⟩, hall⟩ := hver
  refine ⟨srv.id, _, Prod.ext hid.symm rfl, fun s hs hsid => ?_⟩
  have hok := hall s hs (by rw [hsid, hid])
  exact (verifyUserSecretKey_eq_ok h.bcs h.g2 h.g1).mp hok

def Collects (w : Setting api bcs R ι) (s : State ι) : Prop :=
  ∀ j, w.verifies j → ∀ p ∈ s.collected j, w.Genuine p

omit [DecidableEq ι] in
theorem collects_initial : w.Collects State.initial := by
  intro j _ p hp
  cases hp

theorem collects_step (h : Assumptions api bcs) (s : State ι) (a : Action R ι)
    (hs : w.Collects s) : w.Collects (w.step s a) := by
  intro j hj p hp
  rcases w.step_collected s a j with hcol | ⟨m, usk, hread, hcol⟩
  · exact hs j hj p (hcol ▸ hp)
  · rw [hcol, List.mem_append, List.mem_singleton] at hp
    rcases hp with hp | rfl
    · exact hs j hj p hp
    · exact genuine_of_readKey h hj hread

variable (w) in
def coverage (usks : List (List UInt8 × List UInt8)) : ℕ :=
  w.servers.countP fun s => idBytes s.id ∈ usks.map Prod.fst

omit [DecidableEq ι] in
variable (w) in
theorem coverage_mono {usks usks' : List (List UInt8 × List UInt8)} (h : usks ⊆ usks') :
    w.coverage usks ≤ w.coverage usks' :=
  List.countP_mono_left fun _ _ hmem =>
    decide_eq_true (List.map_subset Prod.fst h (of_decide_eq_true hmem))

omit [DecidableEq ι] in
/-- A genuine key of an honest server is the key that the server extracts. -/
theorem eq_extract_of_genuine
    (hinj : Function.Injective fun g : c.G1 => c.pairing g c.g2Generator) {srv : KeyServer c}
    (hsrv : srv ∈ w.servers) {mk : c.Scalar} (hmk : srv.masterKey = some mk) {usk : List UInt8}
    (hgen : w.Genuine (idBytes srv.id, usk)) :
    usk = g1Bytes (Ibe.extract c mk w.fullId) := by
  obtain ⟨id, g, heq, hverify⟩ := hgen
  obtain ⟨hid, rfl⟩ := Prod.mk.inj heq
  have hok := hverify srv hsrv (idBytes_injective hid)
  rw [srv.publicKey_eq mk hmk, Ibe.verifyUserSecretKey_ok_iff, Ibe.pairing_eq_iff hinj] at hok
  rw [hok, Ibe.extract]

variable (w) in
def honest : List (KeyServer c) := w.servers.filter fun s => s.masterKey.isSome

theorem exists_reaches_collected (h : Assumptions api bcs)
    (hids : (w.servers.map KeyServer.id).Nodup) (j : ι) {srv : KeyServer c}
    (hsrv : srv ∈ w.honest) (s : State ι) :
    ∃ t, Reaches w.step s t ∧ idBytes srv.id ∈ (t.collected j).map Prod.fst := by
  obtain ⟨hmem, hsome⟩ := List.mem_filter.mp hsrv
  obtain ⟨mk, hmk⟩ := Option.isSome_iff_exists.mp hsome
  obtain ⟨i, hi⟩ := List.mem_iff_getElem?.mp hmem
  obtain ⟨rng, hkp⟩ := w.generated j
  obtain ⟨response, hresp, hdec⟩ := elgamalDecrypt_serverResponse h.bcs h.g1 h.scalarRoundTrip
    h.scalarCanonical hkp rng mk w.fullId
  have hverified : w.verified (idBytes srv.id) (g1Bytes (Ibe.extract c mk w.fullId)) = true := by
    refine verified_iff.mpr ⟨⟨srv, hmem, rfl⟩, fun s' hs' hid => ?_⟩
    obtain rfl : s' = srv := List.inj_on_of_nodup_map hids hs' hmem (idBytes_injective hid)
    rw [s'.publicKey_eq mk hmk]
    exact (verifyUserSecretKey_eq_ok h.bcs h.g2 h.g1).mpr (Ibe.verifyUserSecretKey_extract mk _)
  have hresponse : w.response i j rng = some ⟨idBytes srv.id, response⟩ := by
    simp [Setting.response, hi, hmk, hresp, Except.toOption]
  have hread : w.readKey j ⟨idBytes srv.id, response⟩ =
      some (g1Bytes (Ibe.extract c mk w.fullId)) := by
    simp [readKey, hdec, hverified, Except.toOption]
  refine ⟨w.step (w.step s (.respond i j rng)) (.receive j 0),
    (Reaches.of_step s _).trans (Reaches.of_step _ _), ?_⟩
  simp [step, hresponse, hread]

/-- The answers of the honest servers can all reach a reader, from any state. -/
theorem exists_reaches_coverage (h : Assumptions api bcs)
    (hids : (w.servers.map KeyServer.id).Nodup) (j : ι) (s : State ι) :
    ∃ t, Reaches w.step s t ∧ w.honest.length ≤ w.coverage (t.collected j) ∧
      ∀ srv ∈ w.honest, idBytes srv.id ∈ (t.collected j).map Prod.fst := by
  let goal (srv : KeyServer c) (u : State ι) : Prop :=
    idBytes srv.id ∈ (u.collected j).map Prod.fst
  have hstable : ∀ srv u (a : Action R ι), goal srv u → goal srv (w.step u a) :=
    fun srv u a hu => List.map_subset Prod.fst (collected_subset_step u a j) hu
  have hdeliver : ∀ srv ∈ w.honest, ∀ u, ∃ t, Reaches w.step u t ∧ goal srv t :=
    fun srv hsrv u => exists_reaches_collected h hids j hsrv u
  obtain ⟨t, hst, hall⟩ := exists_reaches_forall hstable hdeliver s
  refine ⟨t, hst, ?_, hall⟩
  rw [honest, ← List.countP_eq_length_filter, coverage]
  refine List.countP_mono_left fun srv hsrv hsome => ?_
  exact decide_eq_true (hall srv (List.mem_filter.mpr ⟨hsrv, hsome⟩))

end Setting

namespace Sealed

open Setting

variable {w : Sealed api bcs R ι}

variable (w) in
/-- The message of the sender: the data, or in the plain mode the key. -/
def IsMessage (m : List UInt8) : Prop :=
  if w.demType = .plain then w.demKey = some m else m = w.data

theorem isMessage_of_tryDecrypt (h : Assumptions api bcs)
    {usks : List (List UInt8 × List UInt8)} {m : List UInt8} (hm : w.tryDecrypt usks = some m) :
    w.IsMessage m := by
  obtain ⟨rng, henc⟩ := w.encrypted
  obtain ⟨k, rfl, hkey, -⟩ := sealDecrypt_publicKeys_inv h.bcs h.g2 h.g1 h.nonceInjective
    h.aesRoundTrip henc (toOption_eq_some.mp hm)
  rw [IsMessage, hkey]
  cases w.demType <;> simp [encryptionInput, EncryptionInput.plaintext]

variable [DecidableEq ι]

def Safe (w : Sealed api bcs R ι) (s : State ι) : Prop :=
  ∀ j m, s.output j = some m → w.IsMessage m

theorem safe_step (h : Assumptions api bcs) (s : State ι) (a : Action R ι) (hs : w.Safe s) :
    w.Safe (w.step s a) := by
  intro j m hm
  rcases w.step_output s a j with hout | ⟨m', hdec, hout⟩
  · exact hs j m (hout ▸ hm)
  · rw [hout, Option.some_inj] at hm
    exact hm ▸ isMessage_of_tryDecrypt h hdec

/-- In every state of every run, whatever the network and the dishonest servers do and whether
or not the readers verify keys, every output is the message of the sender and stays. -/
theorem output_authentic (h : Assumptions api bcs) (w : Sealed api bcs R ι) {s t : State ι}
    (hs : Reaches w.step State.initial s) (hst : Reaches w.step s t) (j : ι) (m : List UInt8)
    (hm : s.output j = some m) : w.IsMessage m ∧ t.output j = some m := by
  have hsafe : w.Safe s := hs.invariant (safe_step h) fun j m hm => by cases hm
  have hdec : w.Decrypted s := hs.invariant decrypted_step decrypted_initial
  exact ⟨hsafe j m hm, output_stable h.nonceInjective hdec hst hm⟩

omit [DecidableEq ι] in
theorem tryDecrypt_genuine (h : Assumptions api bcs) {usks : List (List UInt8 × List UInt8)}
    (hgen : ∀ p ∈ usks, w.Genuine p) (henough : w.threshold.toNat ≤ w.coverage usks) :
    ∃ m, w.tryDecrypt usks = some m ∧ w.IsMessage m := by
  obtain ⟨pairs, rfl⟩ : ∃ pairs : List (ObjectID × c.G1), usks = pairs.map pairBytes :=
    exists_map.mpr fun p hp => by
      obtain ⟨id, g, rfl, -⟩ := hgen p hp
      exact ⟨(id, g), rfl⟩
  have hids : (pairs.map pairBytes).map Prod.fst = (pairs.map Prod.fst).map idBytes := by
    rw [List.map_map, List.map_map]
    rfl
  have hcount : w.threshold.toNat ≤
      ((w.servers.map KeyServer.id).filter fun s => s ∈ pairs.map Prod.fst).length := by
    rw [coverage, hids] at henough
    simpa only [List.mem_map_of_injective idBytes_injective, ← List.countP_eq_length_filter,
      List.countP_map, Function.comp_def] using henough
  have hverified : ∀ (i : ℕ) s pk usk, (w.servers.map KeyServer.id)[i]? = some s →
      (w.servers.map KeyServer.publicKey)[i]? = some pk → (s, usk) ∈ pairs →
      Ibe.verifyUserSecretKey c usk w.fullId pk = .ok () := by
    intro i s pk usk hs hpk hmem
    rw [List.getElem?_map, Option.map_eq_some_iff] at hs hpk
    obtain ⟨srv, hsrv, rfl⟩ := hs
    obtain ⟨srv', hsrv', rfl⟩ := hpk
    obtain rfl := Option.some.inj (hsrv.symm.trans hsrv')
    obtain ⟨id, g, heq, hgood⟩ := hgen _ (List.mem_map_of_mem (f := pairBytes) hmem)
    obtain ⟨hid, hg⟩ := Prod.mk.inj heq
    rw [g1Bytes_injective h.g1 hg]
    exact hgood srv (List.mem_of_getElem? hsrv) (idBytes_injective hid)
  obtain ⟨rng, henc⟩ := w.encrypted
  obtain ⟨m, -, hm, -⟩ := sealDecrypt_pairs h.bcs h.g2 h.g1 h.scalarRoundTrip h.aesRoundTrip henc
    hcount hverified
  have hdec : w.tryDecrypt (pairs.map pairBytes) = some m := toOption_eq_some.mpr hm
  exact ⟨m, hdec, isMessage_of_tryDecrypt h hdec⟩

theorem step_decrypt_genuine (h : Assumptions api bcs) {s : State ι} (hcol : w.Collects s) {j : ι}
    (hj : w.verifies j) (henough : w.threshold.toNat ≤ w.coverage (s.collected j)) :
    ∃ m, (w.step s (.decrypt j)).output j = some m ∧ w.IsMessage m := by
  obtain ⟨m, hdec, hm⟩ := tryDecrypt_genuine h (hcol j hj) henough
  refine ⟨m, ?_, hm⟩
  simp [step, hdec]

/-- In every state of every run, a verifying reader who has collected keys of as many servers as
the threshold decrypts the message: no forged message makes the keys unusable. -/
theorem decrypt_available (h : Assumptions api bcs) (w : Sealed api bcs R ι) {s : State ι}
    (hs : Reaches w.step State.initial s) (j : ι) (hj : w.verifies j)
    (henough : w.threshold.toNat ≤ w.coverage (s.collected j)) :
    ∃ m, (w.step s (.decrypt j)).output j = some m ∧ w.IsMessage m :=
  step_decrypt_genuine h (hs.invariant (collects_step h) collects_initial) hj henough

omit [DecidableEq ι] in
theorem coverage_of_tryDecrypt (h : Assumptions api bcs) {usks : List (List UInt8 × List UInt8)}
    {m : List UInt8} (hm : w.tryDecrypt usks = some m) :
    w.threshold.toNat ≤ w.coverage usks := by
  obtain ⟨rng, henc⟩ := w.encrypted
  obtain ⟨-, -, -, hcount⟩ := sealDecrypt_publicKeys_inv h.bcs h.g2 h.g1 h.nonceInjective
    h.aesRoundTrip henc (toOption_eq_some.mp hm)
  rwa [List.map_map, ← List.countP_eq_length_filter, List.countP_map] at hcount

def Gated (w : Sealed api bcs R ι) (s : State ι) : Prop :=
  ∀ j m, s.output j = some m → w.threshold.toNat ≤ w.coverage (s.collected j)

theorem gated_step (h : Assumptions api bcs) (s : State ι) (a : Action R ι) (hs : w.Gated s) :
    w.Gated (w.step s a) := by
  intro j m hm
  refine le_trans ?_ (w.coverage_mono (collected_subset_step s a j))
  rcases w.step_output s a j with hout | ⟨m', hdec, -⟩
  · exact hs j m (hout ▸ hm)
  · exact coverage_of_tryDecrypt h hdec

/-- In every state of every run, a reader with an output has collected keys of as many servers as
the threshold, and if the reader verifies keys and the pairing with the generator is injective,
what was collected for an honest server is the key that this server extracts for the identity of
the object, whoever sent it. -/
theorem output_needs_threshold (h : Assumptions api bcs) (w : Sealed api bcs R ι) {s : State ι}
    (hs : Reaches w.step State.initial s) (j : ι) :
    (∀ m, s.output j = some m → w.threshold.toNat ≤ w.coverage (s.collected j)) ∧
    ((Function.Injective fun g : c.G1 => c.pairing g c.g2Generator) → w.verifies j →
      ∀ srv ∈ w.servers, ∀ mk usk, srv.masterKey = some mk →
        (idBytes srv.id, usk) ∈ s.collected j → usk = g1Bytes (Ibe.extract c mk w.fullId)) := by
  have hgated : w.Gated s := hs.invariant (gated_step h) fun j m hm => by cases hm
  have hcol : w.Collects s := hs.invariant (collects_step h) collects_initial
  exact ⟨hgated j, fun hinj hj srv hsrv mk usk hmk hmem =>
    eq_extract_of_genuine hinj hsrv hmk (hcol j hj _ hmem)⟩

/-- From every state of every run, the run can go on so that a verifying reader gets the message,
if as many servers as the threshold are honest: nothing that happened is fatal. -/
theorem exists_reaches_output (h : Assumptions api bcs) (w : Sealed api bcs R ι)
    (hids : (w.servers.map KeyServer.id).Nodup) (hhonest : w.threshold.toNat ≤ w.honest.length)
    {s : State ι} (hs : Reaches w.step State.initial s) (j : ι) (hj : w.verifies j) :
    ∃ t m, Reaches w.step s t ∧ t.output j = some m ∧ w.IsMessage m := by
  obtain ⟨t, hst, henough, -⟩ := exists_reaches_coverage h hids j s
  have hreach : Reaches w.step State.initial t := hs.trans hst
  have hcol := hreach.invariant (collects_step h) collects_initial
  obtain ⟨m, hout, hm⟩ := step_decrypt_genuine h hcol hj (hhonest.trans henough)
  exact ⟨w.step t (.decrypt j), m, hst.trans (Reaches.of_step t _), hout, hm⟩

end Sealed

def honestServer (id : ObjectID) (mk : (exponentPlatform true).Scalar) :
    KeyServer (exponentPlatform true) :=
  ⟨id, Ibe.publicKeyFromMasterKey (exponentPlatform true) mk, some mk,
    fun _ h => congrArg _ (Option.some.inj h)⟩

def exampleServers : List (KeyServer (exponentPlatform true)) :=
  [honestServer (exampleId 1) (5 : ℕ),
    ⟨exampleId 2, Ibe.publicKeyFromMasterKey (exponentPlatform true) (7 : ℕ), none, nofun⟩,
    honestServer (exampleId 3) (11 : ℕ)]

theorem exponentPlatform_assumptions : Assumptions (exponentApi true) specBcs where
  bcs := specBcs_followsSpec
  g1 := exponentApi_g1Codec true
  g2 := exponentPlatform_g2Codec true
  scalarRoundTrip := exponentPlatform_scalarRoundTrip true
  scalarCanonical := exponentPlatform_scalarCanonical true
  nonceInjective := exponentPlatform_nonceInjective true
  aesRoundTrip := exponentPlatform_aesRoundTrip true

theorem exists_exampleSetting : ∃ w : Sealed (exponentApi true) specBcs (List UInt8) Bool,
    (w.servers.map KeyServer.id).Nodup ∧ w.threshold = 2 ∧ 2 ≤ w.honest.length ∧
      w.verifies = id ∧ ∀ m, w.IsMessage m ↔ m = [72, 105] := by
  obtain ⟨⟨eo, key⟩, henc⟩ := exampleCall_ok .hmac256Ctr
  obtain ⟨sk, pk, vk, -, hkp⟩ := generateElgamalKeypair_ok (exponentApi true) specBcs_followsSpec
    exampleTape
  have hids : (exampleServers.map KeyServer.id).Nodup := by decide
  have hhonest : 2 ≤ (exampleServers.filter fun s => s.masterKey.isSome).length := by decide
  exact ⟨{
    servers := exampleServers
    packageId := exampleId 0
    id := [1, 2, 3, 4]
    threshold := 2
    data := [72, 105]
    demType := .hmac256Ctr
    aad := some [7]
    encryptedObject := eo
    demKey := key
    encrypted := ⟨exampleTape, henc⟩
    keypair := fun _ => ⟨scalarBytes sk.scalar, g1Bytes pk.element, g2Bytes vk.element⟩
    generated := fun _ => ⟨exampleTape, hkp⟩
    verifies := id }, hids, rfl, hhonest, rfl, fun m => Iff.rfl⟩

namespace Sealed

open Setting

theorem exists_reaches_output_example :
    ∃ (w : Sealed (exponentApi true) specBcs (List UInt8) Bool) (t : State Bool),
      Reaches w.step State.initial t ∧ t.output true = some [72, 105] := by
  obtain ⟨w, hids, hthreshold, hhonest, hver, hmsg⟩ := exists_exampleSetting
  obtain ⟨t, m, ht, hm, hmessage⟩ := exists_reaches_output exponentPlatform_assumptions w hids
    (by rw [hthreshold]; exact hhonest) .refl true (by rw [hver]; rfl)
  exact ⟨w, t, ht, (hmsg m).mp hmessage ▸ hm⟩

theorem decrypt_available_example :
    ∃ (w : Sealed (exponentApi true) specBcs (List UInt8) Bool) (s : State Bool),
      Reaches w.step State.initial s ∧
        (w.step s (.decrypt true)).output true = some [72, 105] := by
  obtain ⟨w, hids, hthreshold, hhonest, hver, hmsg⟩ := exists_exampleSetting
  obtain ⟨s, hs, henough, -⟩ := exists_reaches_coverage exponentPlatform_assumptions hids true
    State.initial
  obtain ⟨m, hm, hmessage⟩ := decrypt_available exponentPlatform_assumptions w hs true
    (by rw [hver]; rfl) (by rw [hthreshold]; exact hhonest.trans henough)
  exact ⟨w, s, hs, (hmsg m).mp hmessage ▸ hm⟩

theorem exists_exampleRun :
    ∃ (w : Sealed (exponentApi true) specBcs (List UInt8) Bool) (s : State Bool),
      Reaches w.step State.initial s ∧ s.output true = some [72, 105] ∧ w.threshold = 2 ∧
        w.verifies true ∧ ∃ srv ∈ w.servers, ∃ mk usk, srv.masterKey = some mk ∧
          (idBytes srv.id, usk) ∈ s.collected true := by
  obtain ⟨w, hids, hthreshold, hhonest, hver, hmsg⟩ := exists_exampleSetting
  have hj : w.verifies true := by rw [hver]; rfl
  obtain ⟨s, hs, henough, hall⟩ := exists_reaches_coverage exponentPlatform_assumptions hids true
    State.initial
  have hcol := hs.invariant (collects_step exponentPlatform_assumptions) collects_initial
  obtain ⟨m, hout, hmessage⟩ := step_decrypt_genuine exponentPlatform_assumptions hcol hj
    (by rw [hthreshold]; exact hhonest.trans henough)
  obtain rfl := (hmsg m).mp hmessage
  obtain ⟨srv, hsrv⟩ := List.exists_mem_of_length_pos (two_pos.trans_le hhonest)
  obtain ⟨hmem, hsome⟩ := List.mem_filter.mp hsrv
  obtain ⟨mk, hmk⟩ := Option.isSome_iff_exists.mp hsome
  obtain ⟨⟨_, usk⟩, hpair, rfl⟩ := List.mem_map.mp (hall srv hsrv)
  exact ⟨w, _, hs.trans (Reaches.of_step s (.decrypt true)), hout, hthreshold, hj, srv, hmem, mk,
    usk, hmk, collected_subset_step s (.decrypt true) true hpair⟩

theorem outputs_agree_example :
    ∃ (w : Sealed (exponentApi true) specBcs (List UInt8) Bool) (s : State Bool),
      Reaches w.step State.initial s ∧ s.output true = some [72, 105] ∧
        ∀ t, Reaches w.step s t → ∀ m, t.output false = some m → m = [72, 105] := by
  obtain ⟨w, s, hs, hout, -⟩ := exists_exampleRun
  refine ⟨w, s, hs, hout, fun t hst m hm => ?_⟩
  exact ((outputs_agree (exponentPlatform_nonceInjective true) w.toSetting hs hst).1 true false _ _
    hout hm).symm

/-- With an output, the verifying reader has keys of two servers, and one is extracted with the
master key of an honest server. -/
theorem output_needs_threshold_example :
    ∃ (w : Sealed (exponentApi true) specBcs (List UInt8) Bool) (s : State Bool),
      Reaches w.step State.initial s ∧ s.output true = some [72, 105] ∧
        2 ≤ w.coverage (s.collected true) ∧ ∃ srv ∈ w.servers, ∃ mk, srv.masterKey = some mk ∧
          (idBytes srv.id, g1Bytes (Ibe.extract (exponentPlatform true) mk w.fullId)) ∈
            s.collected true := by
  obtain ⟨w, s, hs, hout, hthreshold, hj, srv, hsrv, mk, usk, hmk, hmem⟩ := exists_exampleRun
  obtain ⟨hcount, hkeys⟩ := output_needs_threshold exponentPlatform_assumptions w hs true
  have hcount' := hcount _ hout
  rw [hthreshold] at hcount'
  obtain rfl := hkeys (exponentPlatform_pairing_injective true) hj srv hsrv mk usk hmk hmem
  exact ⟨w, s, hs, hout, hcount', srv, hsrv, mk, hmk, hmem⟩

theorem output_authentic_example :
    ∃ (w : Sealed (exponentApi true) specBcs (List UInt8) Bool) (s : State Bool),
      Reaches w.step State.initial s ∧ s.output true = some [72, 105] ∧
        ∀ a, (w.step s a).output true = some [72, 105] := by
  obtain ⟨w, s, hs, hout, -⟩ := exists_exampleRun
  exact ⟨w, s, hs, hout, fun a => (output_authentic exponentPlatform_assumptions w hs
    (Reaches.of_step s a) true _ hout).2⟩

end Sealed

end PysuiCrypto.Workflow
