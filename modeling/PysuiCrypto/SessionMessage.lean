import PysuiCrypto.Base64
import PysuiCrypto.Separators
import PysuiCrypto.ZkLogin

/-!
# The message for a session key

The text that a user signs to grant a session key access to a package for some minutes. The
package id stands in it as it was given. The only comma of an accepted message is the one in
front of the session key, the digits of the minutes separate the id from the start time, and so
the text can be taken apart again whatever words the id contains. Which ids are accepted is another
matter: one without the prefix `0x` is only searched for commas.
-/
namespace PysuiCrypto

open Outcome Separators

structure SessionPlatform where
  Ed25519PublicKey : Type
  fromBytes : List UInt8 → Except String Ed25519PublicKey
  displayKey : Ed25519PublicKey → String
  DateTime : Type
  /-- From the seconds and nanoseconds since the epoch. -/
  fromTimestamp : ℤ → ℕ → Option DateTime
  displayTime : DateTime → String

def isAsciiHexdigit (ch : Char) : Bool :=
  ('0' ≤ ch ∧ ch ≤ '9') ∨ ('A' ≤ ch ∧ ch ≤ 'F') ∨ ('a' ≤ ch ∧ ch ≤ 'f')

/-- Validate that a package id is safe to embed in the signed message. -/
def validatePackageId (s : String) : PyResult Unit :=
  if s.startsWith "0x" then
    let hexPart := String.ofList (s.toList.drop 2)
    if hexPart.utf8ByteSize ≠ 64 ∨ ¬ hexPart.all isAsciiHexdigit then
      fail (.valueError
        "package_id starting with '0x' must be exactly 66 characters (0x + 64 hex digits)")
    else .ok ()
  else if s.contains ',' then fail (.valueError "package_id must not contain commas")
  else .ok ()

def sessionMessage (packageId ttlMin ts vk : String) : String :=
  "Accessing keys of package " ++ packageId ++ " for " ++ ttlMin ++ " mins from " ++ ts ++
    ", session key " ++ vk

def sealSignedMessage (p : SessionPlatform) (packageId : String) (sessionVk : List UInt8)
    (creationTime : UInt64) (ttlMin : UInt16) : PyResult String := do
  validatePackageId packageId
  let vk ← mapErr .valueError (p.fromBytes sessionVk)
  let ts ← match p.fromTimestamp (creationTime / 1000).toInt64.toInt 0 with
    | some ts => .ok ts
    | none => fail (.valueError "invalid creation_time")
  return sessionMessage packageId ttlMin.toNat.repr (p.displayTime ts) (p.displayKey vk)

theorem utf8ByteSize_of_ascii {cs : List Char} (h : ∀ ch ∈ cs, ch.val ≤ 127) :
    (String.ofList cs).utf8ByteSize = cs.length := by
  induction cs with
  | nil => rfl
  | cons ch cs ih =>
    have hch : ch.utf8Size = 1 := Char.utf8Size_eq_one_iff.mpr (h ch (by simp))
    have htail := ih fun ch' h' => h ch' (by simp [h'])
    rw [← List.singleton_append, String.ofList_append, String.utf8ByteSize_append, htail,
      ← String.singleton_eq_ofList, String.utf8ByteSize_singleton, hch]
    simp [Nat.add_comm]

theorem ascii_of_isAsciiHexdigit {ch : Char} (h : isAsciiHexdigit ch) : ch.val ≤ 127 := by
  simp only [isAsciiHexdigit, decide_eq_true_eq, Char.le_def] at h
  rcases h with ⟨-, h⟩ | ⟨-, h⟩ | ⟨-, h⟩ <;> exact UInt32.le_trans h (by decide)

theorem startsWith_iff {s word : String} :
    s.startsWith word ↔ ∃ rest, s.toList = word.toList ++ rest := by
  rw [String.startsWith_string_iff]
  exact exists_congr fun rest => eq_comm

theorem startsWith_hex_iff {s : String} :
    s.startsWith "0x" ↔ ∃ digits, s.toList = '0' :: 'x' :: digits := startsWith_iff

theorem startsWith_mvr_iff {s : String} :
    s.startsWith "@" ↔ ∃ name, s.toList = '@' :: name := startsWith_iff

/-- After the prefix exactly 64 hexadecimal digits are accepted: such digits are single bytes. -/
theorem validatePackageId_hex {s : String} {digits : List Char}
    (h : s.toList = '0' :: 'x' :: digits) :
    validatePackageId s = .ok () ↔
      digits.length = 64 ∧ ∀ ch ∈ digits, isAsciiHexdigit ch := by
  have hcond : ((String.ofList (s.toList.drop 2)).utf8ByteSize ≠ 64 ∨
      ¬ (String.ofList (s.toList.drop 2)).all isAsciiHexdigit) ↔
      ¬ (digits.length = 64 ∧ ∀ ch ∈ digits, isAsciiHexdigit ch) := by
    rw [h, List.drop_succ_cons, List.drop_succ_cons, List.drop_zero, String.all_bool_eq,
      String.toList_ofList, List.all_eq_true]
    by_cases hall : ∀ ch ∈ digits, isAsciiHexdigit ch
    · rw [utf8ByteSize_of_ascii fun ch hch => ascii_of_isAsciiHexdigit (hall ch hch)]
      tauto
    · tauto
  rw [validatePackageId, if_pos (startsWith_hex_iff.mpr ⟨digits, h⟩)]
  dsimp only
  split_ifs with hbad
  · exact iff_of_false (fun hok => by cases hok) (hcond.mp hbad)
  · exact iff_of_true rfl (not_not.mp (mt hcond.mpr hbad))

theorem validatePackageId_other {s : String} (h : ¬ s.startsWith "0x") :
    validatePackageId s = .ok () ↔ ',' ∉ s.toList := by
  rw [validatePackageId, if_neg h, String.contains_char_eq]
  split_ifs with hcomma
  · exact iff_of_false (fun hok => by cases hok) (not_not.mpr (of_decide_eq_true hcomma))
  · exact iff_of_true rfl (by simpa using hcomma)

theorem validatePackageId_mvr {s : String} {name : List Char} (hs : s.toList = '@' :: name)
    (hcomma : ',' ∉ name) : validatePackageId s = .ok () := by
  have hhex : ¬ s.startsWith "0x" := by simp [hs]
  rw [validatePackageId_other hhex, hs]
  simpa using hcomma

theorem returns_validatePackageId (s : String) : Returns (validatePackageId s) := by
  rw [validatePackageId]
  dsimp only
  split_ifs <;> first | exact returns_ok _ | exact returns_fail _

theorem comma_not_mem_of_validatePackageId {s : String} (h : validatePackageId s = .ok ()) :
    ',' ∉ s.toList := by
  by_cases hhex : s.startsWith "0x"
  · obtain ⟨digits, hs⟩ := startsWith_hex_iff.mp hhex
    obtain ⟨-, hdigits⟩ := (validatePackageId_hex hs).mp h
    have hcomma : ',' ∉ digits := fun hmem => absurd (hdigits ',' hmem) (by decide)
    simpa [hs] using hcomma
  · exact (validatePackageId_other hhex).mp h

theorem sealSignedMessage_eq_ok {p : SessionPlatform} {packageId : String} {vk : List UInt8}
    {time : UInt64} {ttl : UInt16} {m : String} :
    sealSignedMessage p packageId vk time ttl = .ok m ↔
      validatePackageId packageId = .ok () ∧ ∃ k ts, p.fromBytes vk = .ok k ∧
        p.fromTimestamp (time / 1000).toInt64.toInt 0 = some ts ∧
        sessionMessage packageId ttl.toNat.repr (p.displayTime ts) (p.displayKey k) = m := by
  rw [sealSignedMessage]
  rcases hid : validatePackageId packageId with e | u
  · simp
  · rcases hk : p.fromBytes vk with e | k
    · simp [mapErr, fail]
    · rcases hts : p.fromTimestamp (time / 1000).toInt64.toInt 0 with _ | ts
      · simp [mapErr, fail]
      · simp [mapErr]

theorem returns_sealSignedMessage (p : SessionPlatform) (packageId : String) (vk : List UInt8)
    (time : UInt64) (ttl : UInt16) : Returns (sealSignedMessage p packageId vk time ttl) := by
  rw [sealSignedMessage]
  refine (returns_validatePackageId packageId).bind fun _ _ => ?_
  rcases p.fromBytes vk with e | k
  · exact returns_fail _
  · rcases p.fromTimestamp (time / 1000).toInt64.toInt 0 with _ | ts
    · exact returns_fail _
    · exact returns_ok _

structure Digits (s : String) : Prop where
  nonempty : s.toList ≠ []
  isDigit : ∀ ch ∈ s.toList, ch.isDigit

theorem digits_repr (n : ℕ) : Digits n.repr where
  nonempty h := Nat.repr_ne_empty (String.toList_eq_nil_iff.mp h)
  isDigit ch hch := by
    rw [Nat.toList_repr] at hch
    exact Nat.isDigit_of_mem_toDigits (by omega) (by omega) hch

theorem Digits.not_mem {s : String} (hs : Digits s) {ch : Char} (hch : ¬ ch.isDigit) :
    ch ∉ s.toList := fun hmem => hch (hs.isDigit ch hmem)

/-- The id and the minutes: the last blank stands in front of the digits. -/
theorem split_minutes {id id' ttl ttl' : String} (httl : Digits ttl) (httl' : Digits ttl')
    (h : id.toList ++ " for ".toList ++ ttl.toList = id'.toList ++ " for ".toList ++ ttl'.toList) :
    id = id' ∧ ttl = ttl' := by
  have hword : " for ".toList = " for".toList ++ [' '] := by simp
  rw [hword, ← List.append_assoc, ← List.append_assoc, List.append_assoc _ [' '],
    List.append_assoc _ [' ']] at h
  obtain ⟨hid, hminutes⟩ :=
    split_last (httl.not_mem (by decide)) (httl'.not_mem (by decide)) h
  exact ⟨String.toList_inj.mp (List.append_cancel_right hid), String.toList_inj.mp hminutes⟩

/-- What stands in front of the start time ends with a digit, which is no letter of the word. -/
theorem last_not_mem_word {id ttl : String} (httl : Digits ttl) (ch : Char)
    (h : (id.toList ++ " for ".toList ++ ttl.toList).getLast? = some ch) :
    ch ∉ " mins from ".toList := by
  rw [List.getLast?_append_of_ne_nil _ httl.nonempty] at h
  have hdigit := httl.isDigit ch (List.mem_of_getLast? h)
  intro hmem
  have hletters : ∀ c ∈ " mins from ".toList, ¬ c.isDigit := by simp
  exact hletters ch hmem hdigit

/-- The letters of a message: the text up to its comma, and the text behind. -/
theorem toList_sessionMessage (id ttl ts vk : String) :
    (sessionMessage id ttl ts vk).toList = "Accessing keys of package ".toList ++
      ((id.toList ++ " for ".toList ++ ttl.toList ++ (" mins from ".toList ++ ts.toList)) ++
        ',' :: (" session key ".toList ++ vk.toList)) := by
  have hkey : ", session key ".toList = ',' :: " session key ".toList := by simp
  unfold sessionMessage
  simp only [String.toList_append, hkey, List.append_assoc, List.cons_append]

theorem comma_not_mem {id ttl ts : String} (hid : ',' ∉ id.toList) (httl : Digits ttl)
    (hts : ',' ∉ ts.toList) :
    ',' ∉ id.toList ++ " for ".toList ++ ttl.toList ++ (" mins from ".toList ++ ts.toList) := by
  intro hmem
  simp only [List.mem_append] at hmem
  rcases hmem with ((hmem | hmem) | hmem) | (hmem | hmem)
  · exact hid hmem
  · simp at hmem
  · exact httl.not_mem (by decide) hmem
  · simp at hmem
  · exact hts hmem

/-- The only comma stands in front of the key; behind the minutes the word in front of the
start time occurs once; and the last blank before that stands in front of the minutes. -/
theorem sessionMessage_inj {id id' ttl ttl' ts ts' vk vk' : String}
    (hid : ',' ∉ id.toList) (hid' : ',' ∉ id'.toList) (httl : Digits ttl) (httl' : Digits ttl')
    (hts : ',' ∉ ts.toList) (hts' : ',' ∉ ts'.toList)
    (hword : ¬ " mins from ".toList <:+: ts.toList)
    (hword' : ¬ " mins from ".toList <:+: ts'.toList)
    (h : sessionMessage id ttl ts vk = sessionMessage id' ttl' ts' vk') :
    id = id' ∧ ttl = ttl' ∧ ts = ts' ∧ vk = vk' := by
  have hlist := congrArg String.toList h
  rw [toList_sessionMessage, toList_sessionMessage] at hlist
  obtain ⟨hleft, hright⟩ := split_first (comma_not_mem hid httl hts)
    (comma_not_mem hid' httl' hts') (List.append_cancel_left hlist)
  obtain ⟨hgrant, htime⟩ :=
    split_word hword hword' (last_not_mem_word httl) (last_not_mem_word httl') hleft
  obtain ⟨rfl, rfl⟩ := split_minutes httl httl' hgrant
  exact ⟨rfl, rfl, String.toList_inj.mp htime,
    String.toList_inj.mp (List.append_cancel_left hright)⟩

/-- The documented displays: a key is shown as the base64 text of its 32 bytes, a time as a text
that no other second has, without a comma and without the word in front of it. -/
structure SessionPlatform.DisplayDocs (p : SessionPlatform) : Prop where
  displayKey_eq : ∀ {bs : List UInt8} {k}, p.fromBytes bs = .ok k →
    bs.length = 32 ∧ p.displayKey k = Base64.encode bs
  displayTime_inj : ∀ {s s' : ℤ} {t t'}, p.fromTimestamp s 0 = some t →
    p.fromTimestamp s' 0 = some t' → p.displayTime t = p.displayTime t' → s = s'
  comma_not_mem : ∀ {s : ℤ} {t}, p.fromTimestamp s 0 = some t → ',' ∉ (p.displayTime t).toList
  word_not_infix : ∀ {s : ℤ} {t}, p.fromTimestamp s 0 = some t →
    ¬ " mins from ".toList <:+: (p.displayTime t).toList

theorem toInt64_toInt_inj {a b : UInt64} (h : a.toInt64.toInt = b.toInt64.toInt) : a = b := by
  have hcast := congrArg Int64.toUInt64 (Int64.toInt_inj.mp h)
  rwa [UInt64.toUInt64_toInt64, UInt64.toUInt64_toInt64] at hcast

/-- One message stands for one package id, lifetime, session key and second of its creation. -/
theorem session_message_unambiguous {p : SessionPlatform} (hp : p.DisplayDocs)
    {id id' m : String} {vk vk' : List UInt8} {time time' : UInt64} {ttl ttl' : UInt16}
    (h : sealSignedMessage p id vk time ttl = .ok m)
    (h' : sealSignedMessage p id' vk' time' ttl' = .ok m) :
    id = id' ∧ ttl = ttl' ∧ vk = vk' ∧ time / 1000 = time' / 1000 := by
  obtain ⟨hid, k, ts, hk, hts, rfl⟩ := sealSignedMessage_eq_ok.mp h
  obtain ⟨hid', k', ts', hk', hts', hmessage⟩ := sealSignedMessage_eq_ok.mp h'
  obtain ⟨hids, httls, htimes, hkeys⟩ := sessionMessage_inj
    (comma_not_mem_of_validatePackageId hid) (comma_not_mem_of_validatePackageId hid')
    (digits_repr _) (digits_repr _) (hp.comma_not_mem hts) (hp.comma_not_mem hts')
    (hp.word_not_infix hts) (hp.word_not_infix hts') hmessage.symm
  obtain ⟨hlen, hdisplay⟩ := hp.displayKey_eq hk
  obtain ⟨hlen', hdisplay'⟩ := hp.displayKey_eq hk'
  rw [hdisplay, hdisplay'] at hkeys
  refine ⟨hids, ?_, ?_, ?_⟩
  · exact UInt16.toNat_inj.mp (Nat.repr_injective httls)
  · exact Base64.encode_inj (hlen.trans hlen'.symm) hkeys
  · exact toInt64_toInt_inj (hp.displayTime_inj hts hts' htimes)

def twoDigits (n : ℕ) : List Char := [Nat.digitChar (n / 10), Nat.digitChar (n % 10)]

theorem twoDigits_inj {m n : ℕ} (hm : m < 100) (hn : n < 100) (h : twoDigits m = twoDigits n) :
    m = n := by
  obtain ⟨hhigh, hlow⟩ := List.cons_eq_cons.mp h
  have hhigh' := congrArg Char.toNat hhigh
  have hlow' := congrArg Char.toNat (List.singleton_inj.mp hlow)
  simp (disch := omega) only [Nat.toNat_digitChar_of_lt_ten] at hhigh' hlow'
  omega

theorem not_mem_twoDigits {n : ℕ} (hn : n < 100) {ch : Char} (hch : ¬ ch.isDigit) :
    ch ∉ twoDigits n := by
  have hdigit : ∀ d < 10, ch ≠ Nat.digitChar d := by
    rintro d hd rfl
    exact hch (Nat.isDigit_digitChar.trans (decide_eq_true hd))
  simp [twoDigits, hdigit (n / 10) (by omega), hdigit (n % 10) (by omega)]

/-- The display of a second of the first month of the epoch. -/
def januaryTime (s : ℕ) : List Char :=
  ['1', '9', '7', '0', '-', '0', '1', '-'] ++ twoDigits (s / 86400 + 1) ++ [' '] ++
    twoDigits (s / 3600 % 24) ++ [':'] ++ twoDigits (s / 60 % 60) ++ [':'] ++ twoDigits (s % 60) ++
    [' ', 'U', 'T', 'C']

theorem januaryTime_inj {s s' : ℕ} (hs : s < 2678400) (hs' : s' < 2678400)
    (h : januaryTime s = januaryTime s') : s = s' := by
  have hday : twoDigits (s / 86400 + 1) = twoDigits (s' / 86400 + 1) :=
    congrArg (fun cs => (cs.drop 8).take 2) h
  have hhour : twoDigits (s / 3600 % 24) = twoDigits (s' / 3600 % 24) :=
    congrArg (fun cs => (cs.drop 11).take 2) h
  have hminute : twoDigits (s / 60 % 60) = twoDigits (s' / 60 % 60) :=
    congrArg (fun cs => (cs.drop 14).take 2) h
  have hsecond : twoDigits (s % 60) = twoDigits (s' % 60) :=
    congrArg (fun cs => (cs.drop 17).take 2) h
  have hday' := twoDigits_inj (by omega) (by omega) hday
  have hhour' := twoDigits_inj (by omega) (by omega) hhour
  have hminute' := twoDigits_inj (by omega) (by omega) hminute
  have hsecond' := twoDigits_inj (by omega) (by omega) hsecond
  omega

theorem not_mem_januaryTime {s : ℕ} (hs : s < 2678400) {ch : Char} (hch : ¬ ch.isDigit)
    (hother : ch ∉ ['-', ' ', ':', 'U', 'T', 'C']) : ch ∉ januaryTime s := by
  have hday := not_mem_twoDigits (n := s / 86400 + 1) (by omega) hch
  have hhour := not_mem_twoDigits (n := s / 3600 % 24) (by omega) hch
  have hminute := not_mem_twoDigits (n := s / 60 % 60) (by omega) hch
  have hsecond := not_mem_twoDigits (n := s % 60) (by omega) hch
  have hdigits : ∀ c ∈ ['1', '9', '7', '0'], c.isDigit := by simp
  have hyear : ch ∉ ['1', '9', '7', '0'] := fun hmem => hch (hdigits ch hmem)
  simp only [List.mem_cons, List.not_mem_nil, or_false, not_or] at hother hyear
  simp [januaryTime, hday, hhour, hminute, hsecond, hother, hyear]

/-- An instance whose clock knows the first month of the epoch, and in which every string of 32
bytes is a key. -/
def januaryPlatform : SessionPlatform where
  Ed25519PublicKey := List UInt8
  fromBytes bs :=
    if bs.length = 32 then .ok bs else .error "Invalid value was given to the function"
  displayKey := Base64.encode
  DateTime := ℕ
  fromTimestamp s _ := if 0 ≤ s ∧ s < 2678400 then some s.toNat else none
  displayTime t := String.ofList (januaryTime t)

theorem januaryPlatform_fromTimestamp {s : ℤ} {t : ℕ}
    (h : januaryPlatform.fromTimestamp s 0 = some t) : (t : ℤ) = s ∧ t < 2678400 := by
  simp only [januaryPlatform] at h
  split_ifs at h with hs
  obtain rfl := Option.some.inj h
  omega

theorem toList_displayTime (t : januaryPlatform.DateTime) :
    (januaryPlatform.displayTime t).toList = januaryTime t := String.toList_ofList

theorem januaryPlatform_displayDocs : januaryPlatform.DisplayDocs where
  displayKey_eq {bs k} h := by
    simp only [januaryPlatform] at h
    split_ifs at h with hlen
    obtain rfl := Except.ok.inj h
    exact ⟨hlen, rfl⟩
  displayTime_inj {s s' t t'} h h' heq := by
    obtain ⟨hs, hlt⟩ := januaryPlatform_fromTimestamp h
    obtain ⟨hs', hlt'⟩ := januaryPlatform_fromTimestamp h'
    rw [← hs, ← hs', januaryTime_inj hlt hlt' (String.ofList_injective heq)]
  comma_not_mem {s t} h := by
    obtain ⟨-, hlt⟩ := januaryPlatform_fromTimestamp h
    rw [toList_displayTime]
    exact not_mem_januaryTime hlt (by decide) (by decide)
  word_not_infix {s t} h hinfix := by
    obtain ⟨-, hlt⟩ := januaryPlatform_fromTimestamp h
    have hmem : 'm' ∈ (januaryPlatform.displayTime t).toList := hinfix.subset (by simp)
    rw [toList_displayTime] at hmem
    exact not_mem_januaryTime hlt (by decide) (by decide) hmem

def exampleKey : List UInt8 :=
  [13, 125, 171, 53, 140, 141, 173, 170, 78, 250, 0, 73, 167, 91, 7, 67,
    101, 85, 177, 10, 54, 130, 25, 187, 104, 15, 112, 87, 19, 73, 215, 117]

theorem exampleKey_fromBytes : januaryPlatform.fromBytes exampleKey = .ok exampleKey := rfl

theorem januaryPlatform_fromTimestamp_of_second {time : UInt64} (h : time / 1000 = 1622548) :
    januaryPlatform.fromTimestamp (time / 1000).toInt64.toInt 0 = some (1622548 : ℕ) := by
  rw [h]
  rfl

/-- All times within one second of January 19 give one message. -/
theorem sealSignedMessage_january {s : String} {time : UInt64} (hid : validatePackageId s = .ok ())
    (htime : time / 1000 = 1622548) :
    sealSignedMessage januaryPlatform s exampleKey time 30 =
      .ok (sessionMessage s "30" "1970-01-19 18:42:28 UTC"
        "DX2rNYyNrapO+gBJp1sHQ2VVsQo2ghm7aA9wVxNJ13U=") := by
  have hts := januaryPlatform_fromTimestamp_of_second htime
  have hminutes : (30 : UInt16).toNat.repr = "30" := by decide
  have htext : String.ofList (januaryTime 1622548) = "1970-01-19 18:42:28 UTC" := by decide
  have hkey : Base64.encode exampleKey = "DX2rNYyNrapO+gBJp1sHQ2VVsQo2ghm7aA9wVxNJ13U=" := by
    decide
  refine sealSignedMessage_eq_ok.mpr ⟨hid, _, _, exampleKey_fromBytes, hts, ?_⟩
  rw [← hminutes, ← htext, ← hkey]
  rfl

theorem session_message_unambiguous_example :
    ∃ m m', sealSignedMessage januaryPlatform "@my/package" exampleKey 1622548800 30 = .ok m ∧
      sealSignedMessage januaryPlatform "@my/package" exampleKey 1622548999 30 = .ok m ∧
      sealSignedMessage januaryPlatform "@my/package for 30 mins from 1970-01-19 18:42:28 UTC"
        exampleKey 1622548800 30 = .ok m' ∧
      (1622548800 : UInt64) / 1000 = 1622548999 / 1000 ∧ m ≠ m' := by
  have hname : "@my/package".toList = '@' :: "my/package".toList := by simp
  have hcopy : "@my/package for 30 mins from 1970-01-19 18:42:28 UTC".toList =
    '@' :: "my/package for 30 mins from 1970-01-19 18:42:28 UTC".toList := by simp
  have hmessage := sealSignedMessage_january (validatePackageId_mvr hname (by simp))
    (by decide : (1622548800 : UInt64) / 1000 = 1622548)
  have hlater := sealSignedMessage_january (validatePackageId_mvr hname (by simp))
    (by decide : (1622548999 : UInt64) / 1000 = 1622548)
  have hother := sealSignedMessage_january (validatePackageId_mvr hcopy (by simp))
    (by decide : (1622548800 : UInt64) / 1000 = 1622548)
  refine ⟨_, _, hmessage, hlater, hother, ?_, ?_⟩
  · exact (session_message_unambiguous januaryPlatform_displayDocs hmessage hlater).2.2.2
  · intro heq
    have hids := (session_message_unambiguous januaryPlatform_displayDocs hmessage
      (heq ▸ hother)).1
    simp at hids

/-- The identifiers that the validation is documented to accept: the prefix `0x` and 64
hexadecimal digits, or a name that starts with `@`, without commas. -/
def DocumentedPackageId (s : String) : Prop :=
  (∃ digits, s.toList = '0' :: 'x' :: digits ∧ digits.length = 64 ∧
      ∀ ch ∈ digits, isAsciiHexdigit ch) ∨
    ∃ name, s.toList = '@' :: name ∧ ',' ∉ name

theorem documentedPackageId_hex {s : String} {digits : List Char}
    (h : s.toList = '0' :: 'x' :: digits) :
    DocumentedPackageId s ↔ digits.length = 64 ∧ ∀ ch ∈ digits, isAsciiHexdigit ch := by
  simp [DocumentedPackageId, h]

theorem documentedPackageId_other {s : String} (h : ¬ s.startsWith "0x") :
    DocumentedPackageId s ↔ s.startsWith "@" ∧ ',' ∉ s.toList := by
  rw [startsWith_mvr_iff]
  constructor
  · rintro (⟨digits, hs, -⟩ | ⟨name, hs, hcomma⟩)
    · exact absurd (startsWith_hex_iff.mpr ⟨digits, hs⟩) h
    · exact ⟨⟨name, hs⟩, by simpa [hs] using hcomma⟩
  · rintro ⟨⟨name, hs⟩, hcomma⟩
    exact .inr ⟨name, hs, by simpa [hs] using hcomma⟩

/-- A string without either prefix is accepted for the lack of commas alone. -/
theorem validatePackageId_documented_iff (s : String) :
    (validatePackageId s = .ok () ↔ DocumentedPackageId s) ↔
      s.startsWith "0x" ∨ s.startsWith "@" ∨ s.contains ',' := by
  by_cases hhex : s.startsWith "0x"
  · obtain ⟨digits, hs⟩ := startsWith_hex_iff.mp hhex
    rw [validatePackageId_hex hs, documentedPackageId_hex hs]
    exact iff_of_true Iff.rfl (.inl hhex)
  · rw [validatePackageId_other hhex, documentedPackageId_other hhex, String.contains_char_eq,
      decide_eq_true_iff]
    tauto

section
variable {p : SessionPlatform} {vk : List UInt8} {k : p.Ed25519PublicKey} {time : UInt64}
  {ts : p.DateTime}

theorem exists_sealSignedMessage_iff (hk : p.fromBytes vk = .ok k)
    (hts : p.fromTimestamp (time / 1000).toInt64.toInt 0 = some ts) (ttl : UInt16) (s : String) :
    (∃ m, sealSignedMessage p s vk time ttl = .ok m) ↔ validatePackageId s = .ok () := by
  constructor
  · rintro ⟨m, hm⟩
    exact (sealSignedMessage_eq_ok.mp hm).1
  · intro hid
    exact ⟨_, sealSignedMessage_eq_ok.mpr ⟨hid, k, ts, hk, hts, rfl⟩⟩

/-- A message is signed for the documented identifiers only, and anything else is refused with an
error, exactly for the strings that start with `0x` or `@` or contain a comma. -/
theorem documented_ids_only_iff (hk : p.fromBytes vk = .ok k)
    (hts : p.fromTimestamp (time / 1000).toInt64.toInt 0 = some ts) (ttl : UInt16) (s : String) :
    (((∃ m, sealSignedMessage p s vk time ttl = .ok m) ↔ DocumentedPackageId s) ∧
      (¬ DocumentedPackageId s → ∃ e, sealSignedMessage p s vk time ttl = fail e)) ↔
    s.startsWith "0x" ∨ s.startsWith "@" ∨ s.contains ',' := by
  rw [exists_sealSignedMessage_iff hk hts, ← validatePackageId_documented_iff]
  refine and_iff_left_of_imp fun hiff hs => ?_
  rcases (returns_sealSignedMessage p s vk time ttl).ok_or_fail with hok | hfail
  · exact absurd (hiff.mp ((exists_sealSignedMessage_iff hk hts ttl s).mp hok)) hs
  · exact hfail

end

theorem documented_ids_only_iff_example :
    (∃ m, sealSignedMessage januaryPlatform "@my/package" exampleKey 1622548800 30 = .ok m) ↔
      DocumentedPackageId "@my/package" :=
  ((documented_ids_only_iff exampleKey_fromBytes
    (januaryPlatform_fromTimestamp_of_second (by decide : (1622548800 : UInt64) / 1000 = 1622548))
    30 "@my/package").mpr (by simp)).1

theorem free_text_signed :
    sealSignedMessage januaryPlatform "free text" exampleKey 1622548800 30 =
      .ok ("Accessing keys of package free text for 30 mins from 1970-01-19 18:42:28 UTC, " ++
        "session key DX2rNYyNrapO+gBJp1sHQ2VVsQo2ghm7aA9wVxNJ13U=") ∧
    ¬ DocumentedPackageId "free text" := by
  have hhex : ¬ "free text".startsWith "0x" := by simp
  constructor
  · rw [sealSignedMessage_january ((validatePackageId_other hhex).mpr (by simp)) (by decide)]
    decide +kernel
  · rw [documentedPackageId_other hhex]
    simp

end PysuiCrypto
