/-
# X.509 certificates

Certificates as `crypto/x509.rs` parses them, the check of their validity period and the match
of host names. The functions that can panic return in `Except` with `Abort`: slices of a string
that are not at character boundaries, and a slice past the end of an extension.
-/

import SmartOs.CS.StateError
import SmartOs.Crypto.Der
import SmartOs.SmartPack.Format

namespace SmartOs.Crypto

open CS SmartPack

variable {ε : Type}

/-! ## Object identifiers and strings -/

/-- The subidentifiers after the first byte, each with a dot before it. -/
def parseArcs (val : ℕ) : List UInt8 → String
  | [] => ""
  | b :: data =>
    let val := (val <<< 7 ||| (b &&& 0x7F).toNat) % 2 ^ 64
    if b &&& 0x80 = 0 then "." ++ toString val ++ parseArcs 0 data else parseArcs val data

def parseOid : List UInt8 → String
  | [] => ""
  | first :: data =>
    toString (first.toNat / 40) ++ "." ++ toString (first.toNat % 40) ++ parseArcs 0 data

variable (tlv : Tlv) (bytes : List UInt8)

def parseString : String := (fromUtf8 tlv.content).getD "?"

/-! ## Certificates -/

inductive PublicKey where
  | rsa (modulus exponent : List UInt8)
  | ec (curveOid : String) (point : List UInt8)
  | unknown (reason : String)
  deriving DecidableEq

/-- Attributes of a distinguished name: type and value. -/
abbrev Name := List (String × String)

structure Certificate where
  tbsRaw : List UInt8
  serial : List UInt8
  issuer : Name
  subject : Name
  notBefore : String
  notAfter : String
  publicKey : PublicKey
  isCa : Bool
  pathLen : Option UInt8
  san : List String
  sigAlg : String
  signature : List UInt8
  deriving DecidableEq

/-! ## Parsing -/

def parseSigAlg : String :=
  ((tlvChildren tlv).head?.map fun c => parseOid c.content).getD ""

def parseAttribute (attr : Tlv) : Option (String × String) :=
  match tlvChildren attr with
  | oid :: value :: _ => some (parseOid oid.content, parseString value)
  | _ => none

def parseName : Name :=
  (tlvChildren tlv).flatMap fun rdn => (tlvChildren rdn).filterMap parseAttribute

def parseTime : String := (fromUtf8 tlv.content).getD "?"

def parseValidity : String × String :=
  let times := tlvChildren tlv
  ((times[0]?.map parseTime).getD "", (times[1]?.map parseTime).getD "")

def rsaOid : String := "1.2.840.113549.1.1.1"
def ecOid : String := "1.2.840.10045.2.1"

/-- The RSA key in a bit string. -/
def parseRsa (keyBits : Tlv) : Option PublicKey := do
  let (rsaSeq, _) ← parseTlv keyBits.content.tail
  let parts := tlvChildren rsaSeq
  return .rsa ((parts[0]?.map (·.content)).getD []) ((parts[1]?.map (·.content)).getD [])

def parseSpki : PublicKey :=
  match tlvChildren tlv with
  | algSeq :: keyBits :: _ =>
    let algChildren := tlvChildren algSeq
    let algOid := (algChildren[0]?.map fun c => parseOid c.content).getD ""
    let rsa := if algOid = rsaOid then parseRsa keyBits else none
    rsa.getD <|
      if algOid = ecOid then
        .ec ((algChildren[1]?.map fun c => parseOid c.content).getD "") keyBits.content.tail
      else .unknown algOid
  | _ => .unknown "short"

/-- What the extensions of a certificate say. -/
structure Extensions where
  isCa : Bool
  pathLen : Option UInt8
  san : List String

def basicConstraintsOid : String := "2.5.29.19"
def subjectAltNameOid : String := "2.5.29.17"

/-- The extension `basicConstraints`. The value is expected to be an octet string inside the
octet string of the extension; one of a single byte panics. -/
def basicConstraints (e : Extensions) (value : Tlv) : Except (Abort ε) Extensions :=
  if value.content.head? = some 0x04 then
    if value.content.length < 2 then throw .panic
    else
      match parseTlv (value.content.drop 2) with
      | none => return e
      | some (seq, _) =>
        let bc := tlvChildren seq
        let isCa := e.isCa || (bc[0]?.map fun b => b.content == [0xFF]).getD false
        return { e with isCa, pathLen := (bc[1]?.map (·.content.head?)).getD e.pathLen }
  else return e

/-- The names of the extension `subjectAltName`. -/
def subjectAltName (e : Extensions) (value : Tlv) : Extensions :=
  if value.content.length > 2 then
    match parseTlv (value.content.drop 2) with
    | none => e
    | some (seq, _) =>
      let names := (tlvChildren seq).filter fun name => name.tagClass = 2 ∧ name.tag = 2
      { e with san := e.san ++ names.filterMap fun name => fromUtf8 name.content }
  else e

def parseExtension (e : Extensions) (ext : Tlv) : Except (Abort ε) Extensions := do
  let extChildren := tlvChildren ext
  match extChildren.head?, extChildren.getLast? with
  | some oidTlv, some value =>
    let oid := parseOid oidTlv.content
    let e ← if oid = basicConstraintsOid then basicConstraints e value else pure e
    return if oid = subjectAltNameOid then subjectAltName e value else e
  | _, _ => return e

/-- One of the fields after the public key. Only `[3]` is looked into. -/
def parseLastField (e : Extensions) (field : Tlv) : Except (Abort ε) Extensions :=
  if field.tagClass = 2 ∧ field.tag = 3 ∧ field.constructed then
    (tlvChildren field).foldlM (fun e extSeq => (tlvChildren extSeq).foldlM parseExtension e) e
  else return e

/-- Parse the next field, if there is one. -/
def nextField {α : Type} (parse : Tlv → α) (missing : α) : List Tlv → α × List Tlv
  | [] => (missing, [])
  | field :: fields => (parse field, fields)

/-- The optional version. -/
def skipVersion : List Tlv → List Tlv
  | [] => []
  | field :: fields =>
    if field.tagClass = 2 ∧ field.tag = 0 then fields else field :: fields

def parseSerial : List Tlv → List UInt8 × List Tlv
  | [] => ([], [])
  | field :: fields => if field.tag = tagInt then (field.content, fields) else ([], field :: fields)

def parseTbs (tbsRaw : List UInt8) (sigAlg : String) (signature : List UInt8) : Except (Abort ε)
    Certificate := do
  let serial := parseSerial (skipVersion (tlvChildren tlv))
  -- the signature algorithm is skipped
  let issuer := nextField parseName [] serial.2.tail
  let validity := nextField parseValidity ("", "") issuer.2
  let subject := nextField parseName [] validity.2
  let publicKey := nextField parseSpki (.unknown "missing") subject.2
  let extensions ← publicKey.2.foldlM parseLastField ⟨false, none, []⟩
  return {
    tbsRaw
    serial := serial.1
    issuer := issuer.1
    subject := subject.1
    notBefore := validity.1.1
    notAfter := validity.1.2
    publicKey := publicKey.1
    isCa := extensions.isCa
    pathLen := extensions.pathLen
    san := extensions.san
    sigAlg
    signature }

/-- The bytes of the first element of a sequence. -/
def rawFirst (content : List UInt8) : Option (List UInt8) := do
  let (_, rest) ← parseTlv content
  return content.take (content.length - rest.length)

def fromDer (der : List UInt8) : Except (Abort ε) (Option Certificate) :=
  match parseTlv der with
  | none => return none
  | some (certSeq, _) =>
    if certSeq.tag ≠ tagSequence then return none
    else
      match tlvChildren certSeq, rawFirst certSeq.content with
      | tbs :: sigAlg :: sig :: _, some tbsRaw =>
        some <$> parseTbs tbs tbsRaw (parseSigAlg sigAlg) sig.content.tail
      | _, _ => return none

/-! ## Validity -/

structure Time where
  year : ℕ
  month : ℕ
  day : ℕ
  hour : ℕ
  minute : ℕ
  second : ℕ
  deriving DecidableEq

/-- `char::is_whitespace`. -/
def isWhitespace (c : Char) : Bool :=
  (0x09 ≤ c.toNat && c.toNat ≤ 0x0D) || c.toNat == 0x20 || c.toNat == 0x85 || c.toNat == 0xA0 ||
    c.toNat == 0x1680 || (0x2000 ≤ c.toNat && c.toNat ≤ 0x200A) || c.toNat == 0x2028 ||
    c.toNat == 0x2029 || c.toNat == 0x202F || c.toNat == 0x205F || c.toNat == 0x3000

def trim (chars : List Char) : List Char :=
  ((chars.dropWhile isWhitespace).reverse.dropWhile isWhitespace).reverse

/-- `str::parse::<u32>` for at most four characters. A plus sign is allowed. -/
def parseU32 : Option ℕ :=
  let digits := if bytes.head? = some 0x2B then bytes.tail else bytes
  if digits = [] then none
  else digits.foldlM (fun v b =>
    if 0x30 ≤ b ∧ b ≤ 0x39 then some (v * 10 + (b.toNat - 0x30)) else none) 0

/-- A position between two characters. -/
def isCharBoundary (i : ℕ) : Bool :=
  (bytes[i]?.map fun b => b &&& 0xC0 != 0x80).getD true

/-- The number between two positions. -/
def timeField (start stop : ℕ) : OptionT (Except (Abort ε)) ℕ :=
  OptionT.mk <|
    if isCharBoundary bytes start && isCharBoundary bytes stop then
      pure (parseU32 ((bytes.take stop).drop start))
    else throw .panic

/-- Month, day, hour, minute and second, two digits each, after the year. -/
def timeAfterYear (year pos : ℕ) : OptionT (Except (Abort ε)) Time := do
  let month ← timeField bytes pos (pos + 2)
  let day ← timeField bytes (pos + 2) (pos + 4)
  let hour ← timeField bytes (pos + 4) (pos + 6)
  let minute ← timeField bytes (pos + 6) (pos + 8)
  let second ← timeField bytes (pos + 8) (pos + 10)
  return ⟨year, month, day, hour, minute, second⟩

def parseCertTime (s : String) : Except (Abort ε) (Option Time) := OptionT.run do
  let chars := trim s.toList
  let clean := if chars.getLast? = some 'Z' then chars.dropLast else chars
  let bytes := strBytes (String.ofList clean)
  if bytes.length = 12 then
    let yearVal ← timeField bytes 0 2
    timeAfterYear bytes (if yearVal < 50 then 2000 + yearVal else 1900 + yearVal) 2
  else if bytes.length = 14 then
    timeAfterYear bytes (← timeField bytes 0 4) 4
  else failure

def isBefore (a b : Time) : Bool :=
  if a.year ≠ b.year then a.year < b.year
  else if a.month ≠ b.month then a.month < b.month
  else if a.day ≠ b.day then a.day < b.day
  else if a.hour ≠ b.hour then a.hour < b.hour
  else if a.minute ≠ b.minute then a.minute < b.minute
  else a.second < b.second

/-! ## Host names -/

def eqIgnoreAsciiCase (a b : List Char) : Bool := a.map Char.toLower == b.map Char.toLower

def dnsMatch (pattern hostname : String) : Bool :=
  match pattern.toList with
  | '*' :: '.' :: suffix =>
    match hostname.toList with
    | '*' :: rest => suffix.isSuffixOf rest
    | host =>
      match host.dropWhile (· ≠ '.') with
      | [] => false
      | _ :: domain => eqIgnoreAsciiCase domain suffix
  | _ => eqIgnoreAsciiCase pattern.toList hostname.toList

def commonNameOid : String := "2.5.4.3"

namespace Certificate

/-- Outside of its validity period. A time that cannot be parsed does not count. -/
def isExpired (cert : Certificate) (now : Time) : Except (Abort ε) Bool := do
  let notBefore ← parseCertTime cert.notBefore
  if notBefore.any (isBefore now ·) then return true
  let notAfter ← parseCertTime cert.notAfter
  return notAfter.any (isBefore · now)

def matchesHostname (cert : Certificate) (hostname : String) : Bool :=
  cert.san.any (dnsMatch · hostname) ||
    cert.subject.any fun (oid, val) => oid == commonNameOid && dnsMatch val hostname

end Certificate

end SmartOs.Crypto
