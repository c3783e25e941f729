/-
# Encoded certificates

What a certificate says, and its DER encoding. With a version field, which every v3 certificate
has, none is parsed faithfully: the reader keeps the whole tag byte of an element, so the test for
`[0]` fails, the version is not skipped and every later field is taken for the one before it.
-/

import SmartOs.Crypto.X509

namespace SmartOs.Crypto

open CS SmartPack Der List

/-! ## Object identifiers -/

/-- An object identifier. Below the first two roots the second number is bounded. -/
structure Oid where
  first : ℕ
  second : ℕ
  rest : List ℕ
  first_le : first ≤ 2
  second_lt : first < 2 → second < 40

namespace Oid

/-- The groups of seven bits before the last one. -/
def highGroups (n : ℕ) : List UInt8 :=
  if n = 0 then [] else highGroups (n / 128) ++ [.ofNat (128 + n % 128)]
termination_by n

/-- A number in groups of seven bits. -/
def arcBytes (arc : ℕ) : List UInt8 := highGroups (arc / 128) ++ [.ofNat (arc % 128)]

/-- The first two numbers are encoded as one. -/
def content (oid : Oid) : List UInt8 :=
  arcBytes (40 * oid.first + oid.second) ++ oid.rest.flatMap arcBytes

def field (oid : Oid) : Field := (tagOid, oid.content)

/-- The numbers, with dots between them. -/
def text (oid : Oid) : String :=
  toString oid.first ++ "." ++ toString oid.second ++
    oid.rest.foldr (fun arc tail => "." ++ toString arc ++ tail) ""

end Oid

/-! ## Fields -/

def sequence (fields : List Field) : Field := (tagSequence, elements fields)

/-- The tags used here, none of which needs several bytes. -/
def usedTags : List UInt8 :=
  [tagBool, tagInt, tagBitstring, tagOctetstring, tagNull, tagOid, tagUtf8str, tagPrintstr,
    tagIa5str, tagUtctime, tagGentime, tagSequence, tagSet, 0x82, 0xA0, 0xA3]

theorem single_of_mem_usedTags : ∀ tag ∈ usedTags, tag &&& 0x1F ≠ 0x1F := by
  have single : usedTags.all (fun tag => tag &&& 0x1F != 0x1F) := by decide
  intro tag mem
  exact bne_iff_ne.mp (all_eq_true.mp single tag mem)

structure Attribute where
  type : Oid
  tag : UInt8
  value : String
  tag_mem : tag ∈ [tagUtf8str, tagPrintstr, tagIa5str]

def Attribute.fields (a : Attribute) : List Field := [a.type.field, (a.tag, strBytes a.value)]

def Attribute.field (a : Attribute) : Field := (tagSequence, elements a.fields)

/-- A relative name: a set of attributes. -/
def rdnField (rdn : List Attribute) : Field := (tagSet, elements (rdn.map Attribute.field))

/-- A sequence of relative names. -/
abbrev Rdns := List (List Attribute)

def Rdns.field (name : Rdns) : Field := (tagSequence, elements (name.map rdnField))

/-- The name as the parser returns it. -/
def Rdns.name (name : Rdns) : Name :=
  name.flatMap fun rdn => rdn.map fun a => (a.type.text, a.value)

/-- A UTC or generalised time: twelve or fourteen digits and a `Z`. -/
structure DerTime where
  generalized : Bool
  digits : List (Fin 10)
  length_digits : digits.length = if generalized then 14 else 12

def DerTime.text (t : DerTime) : String :=
  String.ofList (t.digits.map (fun d : Fin 10 => Nat.digitChar d.val) ++ ['Z'])

def DerTime.field (t : DerTime) : Field :=
  (if t.generalized then tagGentime else tagUtctime, strBytes t.text)

inductive SubjectKey where
  | rsa (modulus exponent : List UInt8)
  | ec (curve : Oid) (point : List UInt8)

def oidRsa : Oid := ⟨1, 2, [840, 113549, 1, 1, 1], by decide, by decide⟩
def oidEc : Oid := ⟨1, 2, [840, 10045, 2, 1], by decide, by decide⟩

def SubjectKey.fields : SubjectKey → List Field
  | .rsa modulus exponent =>
    [sequence [oidRsa.field, (tagNull, [])],
      (tagBitstring, 0 :: element tagSequence (elements [(tagInt, modulus), (tagInt, exponent)]))]
  | .ec curve point =>
    [sequence [oidEc.field, curve.field], (tagBitstring, 0 :: point)]

def SubjectKey.publicKey : SubjectKey → PublicKey
  | .rsa modulus exponent => .rsa modulus exponent
  | .ec curve point => .ec curve.text point

variable {fields : List Field}

theorem children_sequence (used : ∀ field ∈ fields, field.1 ∈ usedTags)
    (fits : (elements fields).length < 2 ^ 64) (tag : UInt8) :
    tlvChildren (tlv tag (elements fields)) = fields.map fun field => tlv field.1 field.2 :=
  children_elements (fun field mem => single_of_mem_usedTags _ (used field mem)) fits

theorem content_lt (fits : (elements fields).length < 2 ^ 64) {field : Field}
    (mem : field ∈ fields) : field.2.length < 2 ^ 64 :=
  lt_of_le_of_lt (length_content_le mem) fits

theorem times_used (t u : DerTime) : ∀ field ∈ [t.field, u.field], field.1 ∈ usedTags := by
  have tag (t : DerTime) : t.field.1 ∈ usedTags := by
    cases general : t.generalized <;> simp [DerTime.field, general, usedTags]
  simp [tag]

/-! ## Certificates -/

/-- What a certificate says. The serial number is given by its content bytes. -/
structure CertificateData where
  serial : List UInt8
  algorithm : Oid
  issuer : Rdns
  notBefore : DerTime
  notAfter : DerTime
  subject : Rdns
  key : SubjectKey
  isCa : Bool
  pathLen : Option UInt8
  san : List String
  signature : List UInt8

namespace CertificateData

variable (c : CertificateData)

def algorithmField : Field := sequence [c.algorithm.field]

/-- The fields every version has. -/
def commonFields : List Field :=
  [(tagInt, c.serial), c.algorithmField, c.issuer.field,
    (tagSequence, elements [c.notBefore.field, c.notAfter.field]), c.subject.field,
    (tagSequence, elements c.key.fields)]

/-- Version 3. -/
def versionField : Field := (0xA0, elements [(tagInt, [2])])

/-- A path length as a non-negative integer. -/
def pathLenContent (n : UInt8) : List UInt8 := if n &&& 0x80 = 0 then [n] else [0, n]

def oidBasicConstraints : Oid := ⟨2, 5, [29, 19], by decide, by decide⟩
def oidSubjectAltName : Oid := ⟨2, 5, [29, 17], by decide, by decide⟩

/-- `basicConstraints`: a flag, which is left out if false, and an optional path length. -/
def basicConstraintsField : Field :=
  sequence [oidBasicConstraints.field, (tagOctetstring, element tagSequence (elements
      ((if c.isCa then [(tagBool, [0xFF])] else []) ++
        (c.pathLen.map fun n => (tagInt, pathLenContent n)).toList)))]

/-- `subjectAltName`: a sequence of DNS names. -/
def subjectAltNameField : Field :=
  sequence [oidSubjectAltName.field,
    (tagOctetstring, element tagSequence (elements (c.san.map fun name => (0x82, strBytes name))))]

def extensionsField : Field :=
  (0xA3, elements [sequence [c.basicConstraintsField, c.subjectAltNameField]])

/-- A certificate with the given fields in its signed part. -/
def encodeWith (tbs : List Field) : List UInt8 :=
  element tagSequence (elements [(tagSequence, elements tbs), c.algorithmField,
    (tagBitstring, 0 :: c.signature)])

/-- The DER encoding of a v3 certificate. -/
def encode : List UInt8 := c.encodeWith (versionField :: c.commonFields ++ [c.extensionsField])

/-- The certificate a parser should return. -/
def certificate (tbs : List Field) (isCa : Bool) (pathLen : Option UInt8) (san : List String) :
    Certificate where
  tbsRaw := element tagSequence (elements tbs)
  serial := c.serial
  issuer := c.issuer.name
  subject := c.subject.name
  notBefore := c.notBefore.text
  notAfter := c.notAfter.text
  publicKey := c.key.publicKey
  isCa := isCa
  pathLen := pathLen
  san := san
  sigAlg := c.algorithm.text
  signature := c.signature

/-- The faithful result for a v3 certificate. -/
def expected : Certificate :=
  c.certificate (versionField :: c.commonFields ++ [c.extensionsField]) c.isCa c.pathLen c.san

theorem parseSigAlg_algorithmField (fits : c.algorithmField.2.length < 2 ^ 64) :
    parseSigAlg (tlv c.algorithmField.1 c.algorithmField.2) = parseOid c.algorithm.content := by
  have used : ∀ field ∈ [c.algorithm.field], field.1 ∈ usedTags := by
    simp [Oid.field, usedTags]
  rw [algorithmField, sequence, parseSigAlg, children_sequence used fits]
  simp [Oid.field, tlv]

theorem tbs_lt {tbs : List Field} (fits : (c.encodeWith tbs).length < 2 ^ 64) :
    (elements tbs).length < 2 ^ 64 :=
  content_lt (lt_trans (length_lt_element _ _) fits)
    (@mem_cons_self _ (tagSequence, elements tbs) _)

/-- The outer structure of a certificate is taken apart. -/
theorem fromDer_encodeWith {ε : Type} {tbs : List Field}
    (fits : (c.encodeWith tbs).length < 2 ^ 64) :
    fromDer (c.encodeWith tbs) = some <$> (parseTbs (tlv tagSequence (elements tbs))
      (element tagSequence (elements tbs)) (parseOid c.algorithm.content) c.signature :
        Except (Abort ε) Certificate) := by
  have used : ∀ field ∈ [(tagSequence, elements tbs), c.algorithmField,
      (tagBitstring, 0 :: c.signature)], field.1 ∈ usedTags := by
    simp [algorithmField, sequence, usedTags]
  have outer := lt_trans (length_lt_element _ _) fits
  have whole := parseTlv_element (single_of_mem_usedTags tagSequence (by decide)) outer []
  have algorithm := c.parseSigAlg_algorithmField (content_lt outer (by simp))
  have raw : rawFirst (elements [(tagSequence, elements tbs), c.algorithmField,
      (tagBitstring, 0 :: c.signature)]) = some (element tagSequence (elements tbs)) := by
    rw [elements, flatMap_cons, rawFirst, parseTlv_element
      (single_of_mem_usedTags tagSequence (by decide)) (c.tbs_lt fits)]
    simp
  rw [append_nil] at whole
  rw [fromDer, encodeWith, whole]
  simp only [tlv, raw]
  rw [← tlv, children_sequence used outer]
  simp only [map_cons]
  rw [algorithm]
  rfl

/-- The version is neither skipped nor taken for a serial number. -/
theorem parseSerial_version (content : List UInt8) (fields : List Tlv) :
    parseSerial (skipVersion (tlv 0xA0 content :: fields)) = ([], tlv 0xA0 content :: fields) := by
  have other : ¬ (0xA0 : UInt8) = 0 ∧ ¬ (0xA0 : UInt8) = tagInt := by decide
  rw [skipVersion, if_neg fun version => other.1 version.2, parseSerial]
  exact if_neg other.2

end CertificateData

/-- The text of a time is not a sequence of elements: its second digit would be the length of
an element that is longer than the text. -/
theorem children_time (t : DerTime) : children (strBytes t.text) = [] := by
  have ascii : ∀ d : Fin 10, String.utf8EncodeChar (Nat.digitChar d) = [.ofNat (48 + d)] := by
    decide
  have bytes : strBytes t.text =
      t.digits.map (fun d : Fin 10 => UInt8.ofNat (48 + d.val)) ++ [0x5A] := by
    rw [strBytes_eq_flatMap, DerTime.text, String.toList_ofList, flatMap_append, flatMap_map]
    simp only [ascii]
    rw [← map_eq_flatMap]
    rfl
  have length := t.length_digits
  obtain ⟨d₀, d₁, ds, digits⟩ : ∃ d₀ d₁ ds, t.digits = d₀ :: d₁ :: ds := by
    match h : t.digits with
    | [] => cases general : t.generalized <;> simp [h, general] at length
    | [_] => cases general : t.generalized <;> simp [h, general] at length
    | d₀ :: d₁ :: ds => exact ⟨d₀, d₁, ds, rfl⟩
  have tag : ∀ d : Fin 10, ¬ UInt8.ofNat (48 + d) &&& 0x1F = 0x1F := by decide
  have short : ∀ d : Fin 10, UInt8.ofNat (48 + d) &&& 0x80 = 0 := by decide
  have long : ∀ d : Fin 10, 48 ≤ (UInt8.ofNat (48 + d)).toNat := by decide
  have few : ds.length ≤ 12 := by
    rw [digits] at length
    cases general : t.generalized <;> simp [general] at length <;> omega
  have unread : parseTlv (strBytes t.text) = none := by
    rw [bytes, digits]
    simp only [map_cons, cons_append, parseTlv, parseTag, if_neg (tag d₀), parseLength, short d₁]
    apply if_pos
    have := long d₁
    rw [length_append, length_map, length_singleton]
    omega
  rw [children]
  split
  · rename_i read
    rw [unread] at read
    cases read
  · rfl

namespace CertificateData

variable (c : CertificateData) {ε : Type}

theorem parseLastField_tlv {tag : UInt8} (other : ¬ tag = 3) (e : Extensions)
    (content : List UInt8) :
    parseLastField e (tlv tag content) = (pure e : Except (Abort ε) Extensions) := by
  exact if_neg fun found => other found.2.1

/-- In a v3 certificate the issuer is taken for the subject, the validity for the public key,
and the extensions are not found. -/
theorem fromDer_encode (fits : c.encode.length < 2 ^ 64) :
    ∃ cert, fromDer c.encode = (.ok (some cert) : Except (Abort ε) (Option Certificate)) ∧
      cert.subject = parseName (tlv c.issuer.field.1 c.issuer.field.2) ∧
      cert.publicKey = .unknown "" ∧ cert.isCa = false ∧ cert.pathLen = none ∧ cert.san = [] := by
  have signed := c.tbs_lt fits
  have used : ∀ field ∈ versionField :: c.commonFields ++ [c.extensionsField],
      field.1 ∈ usedTags := by
    simp [commonFields, algorithmField, sequence, Rdns.field, usedTags, versionField,
      extensionsField]
  have inside (field : Field) (mem : field ∈ c.commonFields) :=
    content_lt signed (mem_cons_of_mem _ (mem_append_left _ mem))
  have times : (elements [c.notBefore.field, c.notAfter.field]).length < 2 ^ 64 :=
    inside (tagSequence, elements [c.notBefore.field, c.notAfter.field]) (by simp [commonFields])
  have key : parseSpki (tlv tagSequence (elements [c.notBefore.field, c.notAfter.field])) =
      .unknown "" := by
    have none : tlvChildren (tlv c.notBefore.field.1 c.notBefore.field.2) = [] :=
      children_time c.notBefore
    rw [parseSpki, children_sequence (times_used _ _) times]
    have empty : ¬ "" = rsaOid ∧ ¬ "" = ecOid := by decide
    simp [none, empty]
  rw [encode, fromDer_encodeWith c fits, parseTbs, children_sequence used signed]
  have tags : ¬ tagSequence = 3 ∧ ¬ c.subject.field.1 = 3 ∧ ¬ c.extensionsField.1 = 3 := by
    simp only [Rdns.field, extensionsField]
    decide
  simp only [commonFields, versionField, map_cons, cons_append, nil_append, parseSerial_version,
    nextField, tail_cons, key, foldlM_cons, parseLastField_tlv tags.2.1,
    parseLastField_tlv tags.2.2]
  exact ⟨_, rfl, rfl, rfl, rfl, rfl, rfl⟩

/-- No v3 certificate is parsed faithfully. -/
theorem fromDer_encode_ne_expected {ε : Type} (c : CertificateData)
    (fits : c.encode.length < 2 ^ 64) :
    fromDer c.encode ≠ (.ok (some c.expected) : Except (Abort ε) (Option Certificate)) := by
  obtain ⟨cert, parsed, -, key, -⟩ := @fromDer_encode c ε fits
  intro faithful
  rw [parsed] at faithful
  cases faithful
  rw [expected, certificate] at key
  cases algorithm : c.key <;> simp [algorithm, SubjectKey.publicKey] at key

/-- A small certificate with an RSA key. -/
def sample : CertificateData where
  serial := [1]
  algorithm := oidRsa
  issuer := [[⟨⟨2, 5, [4, 3], by decide, by decide⟩, tagUtf8str, "ca", by decide⟩]]
  notBefore := ⟨false, replicate 12 0, rfl⟩
  notAfter := ⟨true, replicate 14 9, rfl⟩
  subject := [[⟨⟨2, 5, [4, 6], by decide, by decide⟩, tagPrintstr, "US", by decide⟩,
    ⟨⟨2, 5, [4, 3], by decide, by decide⟩, tagUtf8str, "a.b", by decide⟩]]
  key := .rsa [3] [5]
  isCa := true
  pathLen := some 0
  san := ["a.b"]
  signature := [7]

theorem length_sample : sample.encode.length < 2 ^ 64 := by decide +kernel

theorem sample_not_faithful : sample.encode.length < 2 ^ 64 ∧ fromDer sample.encode ≠
      (.ok (some sample.expected) : Except (Abort Empty) (Option Certificate)) :=
  ⟨length_sample, fromDer_encode_ne_expected sample length_sample⟩

/-- The key of the sample is reported as unknown, and the certificate not as an authority. -/
theorem fromDer_sample : ¬ ∀ c : CertificateData, c.encode.length < 2 ^ 64 →
    fromDer c.encode = (.ok (some c.expected) : Except (Abort Empty) (Option Certificate)) := by
  intro faithful
  obtain ⟨cert, parsed, -, -, authority, -⟩ := @fromDer_encode sample Empty length_sample
  rw [faithful sample length_sample] at parsed
  cases parsed
  cases authority

end CertificateData

end SmartOs.Crypto
