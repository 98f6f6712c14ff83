import PysuiCrypto.AddressSeed
import PysuiCrypto.Base64
import PysuiCrypto.Bindings

/-!
# zkLogin signatures

A signature is the Base64 text of a flag and of three values in their serialization, without
separators: the inputs of the proof, the last epoch, and the signature of the ephemeral key. Each
serialization ends where its value ends, so that the text can be taken apart again.
-/
namespace PysuiCrypto

open Outcome BcsFormat ByteNumerals Bindings

theorem toList_u64 (n : UInt64) :
    (Vector.ofFn fun k : Fin 8 => UInt8.ofNat (n.toNat / 256 ^ k.val)).toList = u64Bytes n := by
  rw [Vector.toList_ofFn, List.ofFn_eq_map, u64Bytes, leBytes_eq_map_range,
    ← List.map_coe_finRange_eq_range, List.map_map]
  rfl

theorem u64Format_lawful : u64Format.Lawful := by
  refine via_lawful (bytes_lawful 8) (fun n => ?_) fun v n h => ?_
  · rw [toList_u64, leValue_u64Bytes, UInt64.ofNat_toNat]
  · obtain rfl := Option.some.inj h
    have hlt : leValue v.toList < 2 ^ 64 := by
      refine (leValue_lt _).trans_eq ?_
      rw [Vector.length_toList]
      norm_num
    apply Vector.toList_inj.mp
    rw [toList_u64]
    apply leValue_inj (by simp [u64Bytes])
    rw [leValue_u64Bytes, UInt64.toNat_ofNat_of_lt' hlt]

theorem u64Format_spells : u64Format.Spells (fun _ => True) u64Bytes :=
  (via_spells (bytes_spells 8) _ _).congr (fun _ => Iff.rfl) toList_u64

section
variable (z : ZkPlatform)

/-- What stands behind the flag. -/
def authenticatorFormat : BcsFormat (z.ZkLoginInputs × UInt64 × List UInt8) :=
  pair z.zkLoginInputsFormat (pair u64Format byteVecFormat)

end

variable {z : ZkPlatform} {bcs : Bcs}

theorem authenticatorFormat_lawful (hF : z.zkLoginInputsFormat.Lawful) :
    (authenticatorFormat z).Lawful :=
  pair_lawful hF (pair_lawful u64Format_lawful (seq_lawful u8_lawful))

theorem authenticatorFormat_encode_eq_some {inputs : z.ZkLoginInputs} {maxEpoch : UInt64}
    {sig bs : List UInt8} :
    (authenticatorFormat z).encode (inputs, maxEpoch, sig) = some bs ↔
      sig.length ≤ maxSequenceLength ∧ ∃ first, z.zkLoginInputsFormat.encode inputs = some first ∧
        bs = first ++ (u64Bytes maxEpoch ++ lengthPrefixed sig) := by
  have hrest := pair_spells u64Format_spells byteVecFormat_spells
  simp only [authenticatorFormat, pair.eq_def z.zkLoginInputsFormat, Option.bind_eq_bind,
    Option.bind_eq_some_iff, hrest _ _, true_and, Option.some.injEq]
  constructor
  · rintro ⟨first, hfirst, _, ⟨hsig, rfl⟩, rfl⟩
    exact ⟨hsig, first, hfirst, rfl⟩
  · rintro ⟨hsig, first, hfirst, rfl⟩
    exact ⟨first, hfirst, _, ⟨hsig, rfl⟩, rfl⟩

section
variable {proofJson text : String} {ephemeralSig addressSeed : List UInt8} {maxEpoch : UInt64}

theorem buildZkloginSignature_eq_ok (hbcs : bcs.FollowsSpec) :
    buildZkloginSignature z bcs proofJson ephemeralSig addressSeed maxEpoch = .ok text ↔
      ∃ inputs bs, z.fromJson proofJson (seedDecimal z addressSeed) = .ok inputs ∧
        (authenticatorFormat z).encode (inputs, maxEpoch, ephemeralSig) = some bs ∧
        text = z.base64EncodeString (0x05 :: bs) := by
  simp only [buildZkloginSignature, bind_eq_ok, mapErr_eq_ok, hbcs.toBytes_ok,
    u64Format_spells _ _, byteVecFormat_spells _ _, authenticatorFormat_encode_eq_some, true_and,
    pure_eq_ok, Except.ok.injEq]
  constructor
  · rintro ⟨inputs, hinputs, first, hfirst, _, rfl, _, ⟨hsig, rfl⟩, rfl⟩
    exact ⟨inputs, _, hinputs, ⟨hsig, first, hfirst, rfl⟩, by simp⟩
  · rintro ⟨inputs, _, hinputs, ⟨hsig, first, hfirst, rfl⟩, rfl⟩
    exact ⟨inputs, hinputs, first, hfirst, _, rfl, _, ⟨hsig, rfl⟩, by simp⟩

theorem raisesValueError_buildZkloginSignature
    (h : ∀ inputs, z.fromJson proofJson (seedDecimal z addressSeed) ≠ .ok inputs) :
    RaisesValueError (buildZkloginSignature z bcs proofJson ephemeralSig addressSeed maxEpoch) := by
  obtain ⟨e, he⟩ := mapErr_of_ne_ok
    (fun e => .valueError ("Invalid proof JSON: " ++ e)) h
  exact ⟨_, by rw [buildZkloginSignature, he]; rfl⟩

theorem raisesRuntimeError_mapErr {α : Type} (context : String) {r : Except String α}
    (h : ∀ a, r ≠ .ok a) :
    RaisesRuntimeError (mapErr (fun e => .runtimeError (context ++ e)) r) := by
  obtain ⟨e, he⟩ := mapErr_of_ne_ok (fun e => .runtimeError (context ++ e)) h
  exact ⟨_, he⟩

/-- Only the inputs and the length of the signature can have no serialization. -/
theorem raisesRuntimeError_buildZkloginSignature (hbcs : bcs.FollowsSpec)
    {inputs : z.ZkLoginInputs}
    (hinputs : z.fromJson proofJson (seedDecimal z addressSeed) = .ok inputs)
    (h : z.zkLoginInputsFormat.encode inputs = none ∨ maxSequenceLength < ephemeralSig.length) :
    RaisesRuntimeError
      (buildZkloginSignature z bcs proofJson ephemeralSig addressSeed maxEpoch) := by
  rw [buildZkloginSignature, mapErr_eq_ok.mpr hinputs, ok_bind]
  cases hfirst : z.zkLoginInputsFormat.encode inputs with
  | none =>
    refine (raisesRuntimeError_mapErr _ fun bs hbs => ?_).bind _
    rw [hbcs.toBytes_ok, hfirst] at hbs
    cases hbs
  | some first =>
    have hepoch := (u64Format_spells maxEpoch _).mpr ⟨trivial, rfl⟩
    have hlong := h.resolve_left (by simp [hfirst])
    rw [mapErr_eq_ok.mpr ((hbcs.toBytes_ok _ _ _).mpr hfirst), ok_bind,
      mapErr_eq_ok.mpr ((hbcs.toBytes_ok _ _ _).mpr hepoch), ok_bind]
    refine (raisesRuntimeError_mapErr _ fun bs hbs => ?_).bind _
    rw [hbcs.toBytes_ok, byteVecFormat_spells] at hbs
    omega

end

/-- A returned text is the Base64 text of the flag and of bytes that are read, to the end, as the
inputs of the proof, the epoch and the signature; so one text is returned for one such triple
only. The inputs are their serialized part, of which `hF` says that its encoding is canonical. A
proof that is not accepted is a `ValueError`; inputs without a serialization and a signature of
more bytes than a sequence has are `RuntimeError`s. -/
theorem zklogin_signature_spec (hbcs : bcs.FollowsSpec) (hF : z.zkLoginInputsFormat.Lawful)
    (hb64 : ∀ bs, z.base64EncodeString bs = Base64.encode bs) :
    (∀ (proofJson : String) (sig seed : List UInt8) (maxEpoch : UInt64) (text : String),
      buildZkloginSignature z bcs proofJson sig seed maxEpoch = .ok text ↔
        ∃ inputs bs, z.fromJson proofJson (seedDecimal z seed) = .ok inputs ∧
          (authenticatorFormat z).decode bs = some ((inputs, maxEpoch, sig), []) ∧
          text = Base64.encode (0x05 :: bs)) ∧
    (∀ (proofJson proofJson' : String) (sig sig' seed seed' : List UInt8)
      (maxEpoch maxEpoch' : UInt64) (text : String),
      buildZkloginSignature z bcs proofJson sig seed maxEpoch = .ok text →
      buildZkloginSignature z bcs proofJson' sig' seed' maxEpoch' = .ok text →
        z.fromJson proofJson (seedDecimal z seed) = z.fromJson proofJson' (seedDecimal z seed') ∧
          maxEpoch = maxEpoch' ∧ sig = sig') ∧
    (∀ (proofJson : String) (sig seed : List UInt8) (maxEpoch : UInt64),
      (∀ inputs, z.fromJson proofJson (seedDecimal z seed) ≠ .ok inputs) →
        RaisesValueError (buildZkloginSignature z bcs proofJson sig seed maxEpoch)) ∧
    ∀ (proofJson : String) (sig seed : List UInt8) (maxEpoch : UInt64) (inputs : z.ZkLoginInputs),
      z.fromJson proofJson (seedDecimal z seed) = .ok inputs →
      z.zkLoginInputsFormat.encode inputs = none ∨ maxSequenceLength < sig.length →
        RaisesRuntimeError (buildZkloginSignature z bcs proofJson sig seed maxEpoch) := by
  have hauth := authenticatorFormat_lawful hF
  have hok : ∀ (proofJson : String) (sig seed : List UInt8) (maxEpoch : UInt64) (text : String),
      buildZkloginSignature z bcs proofJson sig seed maxEpoch = .ok text ↔
        ∃ inputs bs, z.fromJson proofJson (seedDecimal z seed) = .ok inputs ∧
          (authenticatorFormat z).decode bs = some ((inputs, maxEpoch, sig), []) ∧
          text = Base64.encode (0x05 :: bs) := by
    intro proofJson sig seed maxEpoch text
    simp only [buildZkloginSignature_eq_ok hbcs, hauth.encode_eq_some_iff, hb64]
  refine ⟨hok, ?_, fun _ _ _ _ => raisesValueError_buildZkloginSignature,
    fun _ _ _ _ _ => raisesRuntimeError_buildZkloginSignature hbcs⟩
  intro proofJson proofJson' sig sig' seed seed' maxEpoch maxEpoch' text h h'
  obtain ⟨inputs, bs, hinputs, hbs, htext⟩ := (hok _ _ _ _ _).mp h
  obtain ⟨inputs', bs', hinputs', hbs', htext'⟩ := (hok _ _ _ _ _).mp h'
  obtain rfl := (List.cons.inj (Base64.encode_injective (htext.symm.trans htext'))).2
  have hvalues := hbs.symm.trans hbs'
  simp only [Option.some.injEq, Prod.mk.injEq, and_true] at hvalues
  obtain ⟨rfl, hepoch, hsig⟩ := hvalues
  exact ⟨hinputs.trans hinputs'.symm, hepoch, hsig⟩

/-- A header of 20 bytes and the 76 digits of the seed, the epoch 100, and a signature of two
bytes. -/
theorem zklogin_signature_spec_example :
    buildZkloginSignature nativeZkPlatform specBcs exampleProof [7, 8] exampleSeed 100 =
      .ok ("BRRleUpoYkdjaU9pSlNVekkxTmlKOUwyOTAxNTkzOTk4OTY4OTE0MDc2NzcxOTA5MDk5NTM3NT" ++
        "kwNjczNTkxNzM4NTU4OTYxNjY0NTkyNjIwOTczNjUzNjQxNDczNjg4NTI0ZAAAAAAAAAACBwg=") ∧
    RaisesValueError
      (buildZkloginSignature nativeZkPlatform specBcs "not-json" [7, 8] exampleSeed 100) := by
  have hF : nativeZkPlatform.zkLoginInputsFormat.Lawful :=
    pair_lawful (seq_lawful u8_lawful) (seq_lawful u8_lawful)
  obtain ⟨hok, -, hvalue, -⟩ := zklogin_signature_spec (z := nativeZkPlatform)
    specBcs_followsSpec hF fun _ => rfl
  have hdigits : seedDecimal nativeZkPlatform exampleSeed =
      "2901593998968914076771909099537590673591738558961664592620973653641473688524" := by
    decide +kernel
  have hinputs := (pair_spells byteVecFormat_spells byteVecFormat_spells
    (asBytes "eyJhbGciOiJSUzI1NiJ9", asBytes (seedDecimal nativeZkPlatform exampleSeed)) _).mpr
      ⟨⟨by decide, by rw [hdigits]; decide⟩, rfl⟩
  refine ⟨(hok _ _ _ _ _).mpr ⟨_, _, rfl, (authenticatorFormat_lawful hF).encode_eq_some_iff.mp
    (authenticatorFormat_encode_eq_some.mpr ⟨by decide, _, hinputs, rfl⟩), ?_⟩,
    hvalue _ _ _ _ fun inputs h => ?_⟩
  · rw [hdigits]
    decide +kernel
  · cases h

end PysuiCrypto
